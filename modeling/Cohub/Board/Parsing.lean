import Cohub.Board.Patch

/-! # What parsing keeps

    Facts about `parseKeepingBoardFields` and `parseBoardItem`: they return
    objects, and the texts that link one part of a board to another (an item's
    type, the item an arrow is bound to, a track's target) come from the value
    that was parsed.  A field of a newer client that is taken out and put back
    does not change that.  An item's parent and its `z` are kept as they are. -/

namespace Cohub.Board

open Fields Json List

/-! ## Changing a value in place -/

/-- A path of members, without array items. -/
abbrev keyPath (path : List String) : List Segment := path.map Segment.key

variable {v value y item : Json} {path keys : List String} {f : Json → Json} {place : List Segment}
    {t k s : String} {schema : Schema} {keep : Option BoardKeepField} {x : Option Json}
    {rules : TextRules}
  {w track : Json} {b type : String} {shape : List (String × Schema)} {issues : List Issue}

theorem fieldAt_keyPath (h : fieldAt v (keyPath path) = some w) : v.at? path = some w := by
  induction path generalizing v with
  | nil =>
    cases v with
    | obj fs => simpa [fieldAt] using h
    | arr xs => simpa [fieldAt] using h
    | _ => cases h
  | cons k path ih =>
    cases v with
    | obj fs =>
      simp only [map_cons, fieldAt] at h
      obtain ⟨w', hw', h⟩ := Option.bind_eq_some_iff.mp h
      rw [at?_cons, get?_obj, hw']
      exact ih h
    | _ => cases h

theorem updateAt_of_mismatch {s : Segment} (hobj : ∀ fs k, v = .obj fs → s ≠ .key k)
    (harr : ∀ xs i, v = .arr xs → s ≠ .index i) : updateAt f v (s :: place) = v := by
  cases v with
  | obj fs => cases s with
    | key k => exact absurd rfl (hobj fs k rfl)
    | index i => rfl
  | arr xs => cases s with
    | key k => rfl
    | index i => exact absurd rfl (harr xs i rfl)
  | _ => cases s <;> rfl

theorem text_of_updateAt
    (hf : ∀ v path t, (f v).at? path = some (.str t) → v.at? path = some (.str t))
    (h : (updateAt f v place).at? path = some (.str t)) : v.at? path = some (.str t) := by
  induction place generalizing v path with
  | nil =>
    apply hf
    cases v <;> exact h
  | cons s place ih =>
    match v, s with
    | .obj fs, .key k =>
      rw [updateAt] at h
      split at h
      · next w hw =>
        cases path with
        | nil => cases h
        | cons k' path =>
          rw [at?_cons, get?_obj] at h ⊢
          obtain ⟨w', hw', ht⟩ := Option.bind_eq_some_iff.mp h
          rw [get?_set] at hw'
          split at hw'
          · next hk =>
            cases hw'
            rw [hk, hw]
            exact ih ht
          · rw [hw']
            exact ht
      · exact h
    | .arr xs, .index i =>
      rw [updateAt] at h
      split at h
      · cases path with
        | nil => cases h
        | cons k' path => cases h
      · exact h
    | .obj fs, .index i => exact h
    | .arr xs, .key k => exact h
    | .null, _ | .bool _, _ | .num _, _ | .str _, _ | .native _, _ =>
      rw [updateAt_of_mismatch (by simp) (by simp)] at h
      exact h

theorem get?_of_erasures {fs : Fields}
    (h : Fields.get? (keys.foldl (fun fs k => Fields.erase fs k) fs) k = some w) :
    Fields.get? fs k = some w := by
  induction keys generalizing fs with
  | nil => exact h
  | cons k' rest ih =>
    have hrest := ih h
    rw [get?_erase] at hrest
    split at hrest
    · cases hrest
    · exact hrest

theorem text_of_withoutFields (h : (withoutFields v place keys).at? path = some (.str t)) :
    v.at? path = some (.str t) := by
  refine text_of_updateAt ?_ h
  intro v path t h
  cases v with
  | obj fs =>
    cases path with
    | nil => cases h
    | cons k path =>
      rw [at?_cons, get?_obj] at h ⊢
      obtain ⟨w, hw, ht⟩ := Option.bind_eq_some_iff.mp h
      have hfs := get?_of_erasures hw
      rw [hfs]
      exact ht
  | _ => exact h

theorem text_of_restoreField {field : KeptField}
    (h : (restoreField v field).at? path = some (.str t)) :
    v.at? path = some (.str t) ∨
      ∃ before rest w, field.path = keyPath before ∧ path = before ++ field.key :: rest ∧
        field.value = some w ∧ w.at? rest = some (.str t) := by
  obtain ⟨place, key, value⟩ := field
  unfold restoreField at h
  induction place generalizing v path with
  | nil =>
    cases value with
    | none =>
      left
      cases v <;> exact h
    | some w =>
      cases v with
      | obj fs =>
        cases path with
        | nil => cases h
        | cons k path =>
          simp only [updateAt] at h
          rw [at?_cons, get?_obj, get?_set] at h
          by_cases hk : k = key
          · rw [if_pos hk] at h
            exact .inr ⟨[], path, w, rfl, by rw [hk]; rfl, rfl, h⟩
          · rw [if_neg hk] at h
            exact .inl h
      | _ => exact .inl h
  | cons s place ih =>
    match v, s with
    | .obj fs, .key k =>
      rw [updateAt] at h
      split at h
      · next w hw =>
        cases path with
        | nil => cases h
        | cons k' path =>
          rw [at?_cons, get?_obj, get?_set] at h
          by_cases hk : k' = k
          · rw [if_pos hk] at h
            rcases ih h with h | ⟨before, rest, w', hplace, hpath, hvalue, ht⟩
            · left
              rw [at?_cons, get?_obj, hk, hw]
              exact h
            · right
              refine ⟨k :: before, rest, w', ?_, ?_, hvalue, ht⟩
              · simp only at hplace ⊢
                rw [hplace]
                rfl
              · rw [hk, hpath]
                rfl
          · rw [if_neg hk] at h
            exact .inl h
      · exact .inl h
    | .arr xs, .index i =>
      rw [updateAt] at h
      split at h
      · cases path with
        | nil => cases h
        | cons k' path => cases h
      · exact .inl h
    | .obj fs, .index i => exact .inl h
    | .arr xs, .key k => exact .inl h
    | .null, _ | .bool _, _ | .num _, _ | .str _, _ | .native _, _ =>
      rw [updateAt_of_mismatch (by simp) (by simp)] at h
      exact .inl h

/-! ## The texts of a parsed value -/

/-- The texts of the candidate and of the fields taken out of it are texts of
    the value. -/
structure FromValue (value candidate : Json) (kept : List KeptField) : Prop where
  candidate : ∀ path t, candidate.at? path = some (.str t) → value.at? path = some (.str t)
  kept : ∀ field ∈ kept, ∀ w before, field.value = some w → field.path = keyPath before →
    ∀ path t, w.at? path = some (.str t) → value.at? (before ++ field.key :: path) = some (.str t)

theorem FromValue.strip (keep : BoardKeepField) (issues : List Issue) :
    ∀ {candidate : Json} {kept : List KeptField}, FromValue value candidate kept →
      FromValue value (stripFields keep issues candidate kept).1
        (stripFields keep issues candidate kept).2 := by
  induction issues with
  | nil => intro candidate kept h; exact h
  | cons issue rest ih =>
    intro candidate kept h
    unfold stripFields
    split
    · exact ih h
    · next keys _ =>
      apply ih
      constructor
      · intro path t ht
        exact h.candidate path t (text_of_withoutFields ht)
      · intro field hfield w before hw hbefore path t ht
        rcases mem_append.mp hfield with hfield | hfield
        · exact h.kept field hfield w before hw hbefore path t ht
        · obtain ⟨key, -, rfl⟩ := mem_map.mp hfield
          obtain ⟨source, hsource, hget⟩ := Option.bind_eq_some_iff.mp hw
          simp only at hbefore
          rw [hbefore] at hsource
          apply h.candidate
          rw [at?_append, fieldAt_keyPath hsource]
          show source.at? (key :: path) = _
          rw [at?_cons, hget]
          exact ht

variable (kept : List KeptField)

theorem text_of_restoreFields
    (hkept : ∀ field ∈ kept, ∀ w before, field.value = some w → field.path = keyPath before →
      ∀ path t, w.at? path = some (.str t) →
        value.at? (before ++ field.key :: path) = some (.str t))
    (h : (kept.foldl restoreField y).at? path = some (.str t)) :
    y.at? path = some (.str t) ∨ value.at? path = some (.str t) := by
  induction kept generalizing y with
  | nil => exact .inl h
  | cons field rest ih =>
    rcases ih (fun f hf => hkept f (mem_cons_of_mem _ hf)) h with h | h
    · rcases text_of_restoreField h with h | ⟨before, path', w, hplace, rfl, hw, ht⟩
      · exact .inl h
      · exact .inr (hkept field mem_cons_self w before hw hplace path' t ht)
    · exact .inr h

theorem parseKeepingRounds_end {keep : BoardKeepField}
    {I : Json → List KeptField → Prop}
    (hstrip : ∀ issues candidate kept, schema.parse (some candidate) = .error issues →
      I candidate kept →
      I (stripFields keep issues candidate kept).1 (stripFields keep issues candidate kept).2) :
    ∀ {rounds : Nat} {candidate : Json} {kept : List KeptField} {y : Json}, I candidate kept →
      parseKeepingRounds schema keep rounds candidate kept = .ok y →
      ∃ candidate' kept' w, I candidate' kept' ∧ schema.parse (some candidate') = .ok (some w) ∧
        y = kept'.foldl restoreField w := by
  have hend : ∀ {candidate : Json} {kept : List KeptField} {r : Option Json}, I candidate kept →
      schema.parse (some candidate) = .ok r →
      ∃ candidate' kept' w, I candidate' kept' ∧ schema.parse (some candidate') = .ok (some w) ∧
        kept.foldl restoreField (r.getD .null) = kept'.foldl restoreField w := by
    intro candidate kept r hI hr
    cases r with
    | none => exact absurd hr (Schema.parse_some_ne_none schema candidate)
    | some w => exact ⟨candidate, kept, w, hI, hr, rfl⟩
  intro rounds
  induction rounds with
  | zero =>
    intro candidate kept y hI h
    unfold parseKeepingRounds at h
    split at h
    · next hr => cases h; exact hend hI hr
    · split at h <;> cases h
  | succ n ih =>
    intro candidate kept y hI h
    unfold parseKeepingRounds at h
    split at h
    · next hr => cases h; exact hend hI hr
    · next issues hissues =>
      split at h
      · exact ih (hstrip _ _ _ hissues hI) h
      · cases h

theorem parseKeeping_none_eq_ok (h : parseKeepingBoardFields schema value none = .ok y) :
    schema.parse (some value) = .ok (some y) := by
  unfold parseKeepingBoardFields at h
  simp only at h
  split at h
  · next r hr =>
    cases h
    cases r with
    | none => exact absurd hr (Schema.parse_some_ne_none schema value)
    | some w => exact hr
  · cases h

theorem parseKeepingRounds_ne_error_nil (schema : Schema) (keep : BoardKeepField) :
    ∀ (rounds : Nat) (candidate : Json) (kept : List KeptField),
      parseKeepingRounds schema keep rounds candidate kept ≠ .error [] := by
  intro rounds
  induction rounds with
  | zero =>
    intro candidate kept
    have hparse := Schema.parse_ne_error_nil schema (some candidate)
    unfold parseKeepingRounds
    split
    · simp
    · next issues hissues =>
      rw [hissues] at hparse
      split <;> exact fun h => hparse (by injection h with h; rw [h])
  | succ n ih =>
    intro candidate kept
    have hparse := Schema.parse_ne_error_nil schema (some candidate)
    unfold parseKeepingRounds
    split
    · simp
    · next issues hissues =>
      rw [hissues] at hparse
      split
      · exact ih _ _
      · exact fun h => hparse (by injection h with h; rw [h])

theorem parseKeepingBoardFields_ne_error_nil (schema : Schema) (value : Json)
    (keep : Option BoardKeepField) : parseKeepingBoardFields schema value keep ≠ .error [] := by
  unfold parseKeepingBoardFields
  split
  · exact parseKeepingRounds_ne_error_nil schema _ _ _ _
  · have hparse := Schema.parse_ne_error_nil schema (some value)
    split
    · simp
    · next issues hissues =>
      rw [hissues] at hparse
      exact fun h => hparse (by injection h with h; rw [h])

theorem parseBoardItem_ne_error_nil (rules : TextRules) (value : Json) (path : String)
    (keep : Option BoardKeepField) : parseBoardItem rules value path keep ≠ .error [] := by
  unfold parseBoardItem
  split
  · simp
  · split
    · simp
    · next schema _ =>
      have hparse := parseKeepingBoardFields_ne_error_nil schema value keep
      split
      · simp
      · next issues hissues =>
        intro h
        injection h with h
        rw [hissues, map_eq_nil_iff.mp h] at hparse
        exact hparse rfl

theorem text_of_parseKeeping (hs : schema.lawful = true) (hpath : schema.keepsText path = true)
    (h : parseKeepingBoardFields schema value keep = .ok y) (ht : y.at? path = some (.str t)) :
    value.at? path = some (.str t) := by
  have htext : ∀ candidate w, schema.parse (some candidate) = .ok (some w) →
      w.at? path = some (.str t) → candidate.at? path = some (.str t) := by
    intro candidate w hw hwt
    obtain ⟨v, hv, hvt⟩ := Schema.parse_text hs hpath hw hwt
    cases hv
    exact hvt
  cases keep with
  | some keep =>
    obtain ⟨candidate, kept, w, hfrom, hw, rfl⟩ :=
      parseKeepingRounds_end (I := FromValue value) (fun issues _ _ _ hI => hI.strip keep issues)
        ⟨fun _ _ h => h, by simp⟩ h
    rcases text_of_restoreFields kept hfrom.kept ht with ht | ht
    · exact hfrom.candidate path t (htext candidate w hw ht)
    · exact ht
  | none => exact htext value y (parseKeeping_none_eq_ok h) ht

/-! ## Parsed values are objects -/

theorem isRecord_restoreField (h : v.isRecord = true) (field : KeptField) :
    (restoreField v field).isRecord = true := by
  obtain ⟨fs, rfl⟩ := (isRecord_iff v).mp h
  obtain ⟨place, key, value⟩ := field
  unfold restoreField
  cases place with
  | nil => cases value <;> rfl
  | cons s place =>
    cases s with
    | key k => simp only [updateAt]; split <;> rfl
    | index i => rfl

theorem isRecord_of_parse (hs : schema.kind = some .obj)
    (h : schema.parse x = .ok (some y)) : y.isRecord = true := by
  obtain ⟨_, y', -, hy, -, hkind⟩ := Schema.kind_spec hs h
  cases hy
  cases y with
  | obj fs => rfl
  | _ => cases hkind

theorem isRecord_restoreFields (h : v.isRecord = true) :
    (kept.foldl restoreField v).isRecord = true := by
  induction kept generalizing v with
  | nil => exact h
  | cons field rest ih => exact ih (isRecord_restoreField h field)

theorem isRecord_of_parseKeeping (hs : schema.kind = some .obj)
    (h : parseKeepingBoardFields schema value keep = .ok y) : y.isRecord = true := by
  cases keep with
  | some keep =>
    obtain ⟨candidate, kept, w, -, hw, rfl⟩ :=
      parseKeepingRounds_end (I := fun _ _ => True) (fun _ _ _ _ _ => trivial) trivial h
    exact isRecord_restoreFields kept (isRecord_of_parse hs hw)
  | none => exact isRecord_of_parse hs (parseKeeping_none_eq_ok h)

/-! ## Items and tracks -/

theorem asString?_eq_some {v : Option Json} :
    v.bind Json.asString? = some t ↔ v = some (.str t) := by
  cases v with
  | none => simp
  | some w => cases w <;> simp [Json.asString?]

theorem itemType_eq_some :
    itemType item = some t ↔ item.at? ["type"] = some (.str t) := by
  unfold itemType
  rw [asString?_eq_some, at?_cons]
  simp

theorem itemParent_eq_some {q : String} :
    itemParent item = some q ↔ item.at? ["parent"] = some (.str q) := by
  unfold itemParent
  rw [asString?_eq_some, at?_cons]
  simp

theorem boundItem_eq_some {which : ArrowSide} :
    boundItem (arrowEnd item which) = some b ↔
      item.at? ["props", which.name, "item"] = some (.str b) := by
  unfold boundItem arrowEnd
  rw [asString?_eq_some, at?_cons, Option.bind_assoc]
  simp [at?_cons]

theorem mem_foldl_addNew {l acc : List String} : s ∈ l.foldl addNew acc ↔ s ∈ acc ∨ s ∈ l := by
  induction l generalizing acc with
  | nil => simp
  | cons a rest ih =>
    rw [foldl_cons, ih]
    have hadd : s ∈ addNew acc a ↔ s ∈ acc ∨ s = a := by
      unfold addNew
      by_cases ha : a ∈ acc
      · rw [if_pos (by simpa using ha)]
        constructor
        · exact .inl
        · intro h
          rcases h with h | rfl
          · exact h
          · exact ha
      · rw [if_neg (by simpa using ha)]
        simp
    rw [hadd, mem_cons, or_assoc]

theorem mem_arrowBindings :
    b ∈ arrowBindings item ↔
      itemType item = some "arrow" ∧ ∃ which, boundItem (arrowEnd item which) = some b := by
  unfold arrowBindings
  by_cases htype : itemType item = some "arrow"
  · rw [if_pos htype, mem_foldl_addNew]
    constructor
    · intro h
      simp only [not_mem_nil, false_or, mem_append, Option.mem_toList] at h
      rcases h with h | h
      · exact ⟨htype, .start, h⟩
      · exact ⟨htype, .end_, h⟩
    · intro ⟨_, which, h⟩
      cases which <;> simp [h]
  · rw [if_neg htype]
    simp [htype]

theorem mem_keyframeStrings {keyframes : List Json} :
    s ∈ keyframeStrings keyframes ↔ ∃ k ∈ keyframes, k.get? "value" = some (.str s) := by
  unfold keyframeStrings
  simp only [mem_filterMap, asString?_eq_some]

theorem mem_trackReferences :
    s ∈ trackReferences track ↔ s ≠ boardCameraTarget ∧
      (s = trackTarget track ∨
        (isFocusTrack track = true ∧ s ∈ keyframeStrings (keyframesOf track))) := by
  unfold trackReferences
  simp only [mem_filter, mem_foldl_addNew, not_mem_nil, false_or, mem_cons,
    bne_iff_ne, ne_eq]
  by_cases hf : isFocusTrack track = true
  · simp [hf, and_comm]
  · simp [hf, and_comm]

theorem boardItemSchema_spec (h : boardItemSchema rules type = some schema) :
    schema.lawful = true ∧ schema.kind = some .obj ∧ schema.keepsText ["type"] = true := by
  refine ⟨boardItemSchema_lawful h, ?_⟩
  unfold boardItemSchema at h
  split at h
  · have hall : ∀ e ∈ boardItemSchemas rules,
        e.2.kind = some .obj ∧ e.2.keepsText ["type"] = true := by
      intro e he
      simp only [boardItemSchemas, mem_cons, not_mem_nil, or_false] at he
      rcases he with rfl | rfl | rfl | rfl | rfl | rfl | rfl | rfl | rfl | rfl | rfl | rfl | rfl <;>
        exact ⟨rfl, rfl⟩
    exact hall _ (OrderedMap.mem_of_lookupEntry h)
  · split at h
    · cases h
      exact ⟨rfl, rfl⟩
    · cases h

theorem parseBoardItem_spec {path : String} (h : parseBoardItem rules value path keep = .ok item) :
    item.isRecord = true ∧ ∀ b ∈ arrowBindings item, b ∈ arrowBindings value := by
  unfold parseBoardItem at h
  split at h
  · cases h
  · next type htype =>
    split at h
    · cases h
    · next schema hschema =>
      split at h
      · next y hy =>
        cases h
        obtain ⟨hlawful, hkind, htypeText⟩ := boardItemSchema_spec hschema
        refine ⟨isRecord_of_parseKeeping hkind hy, ?_⟩
        intro b hb
        obtain ⟨hitemType, which, hbound⟩ := mem_arrowBindings.mp hb
        have harrow : itemType value = some "arrow" :=
          itemType_eq_some.mpr
            (text_of_parseKeeping hlawful htypeText hy (itemType_eq_some.mp hitemType))
        have htypeEq : type = "arrow" := Option.some.inj (htype.symm.trans harrow)
        rw [htypeEq] at hschema
        have hschemaEq : schema = boardArrowItemSchema rules := (Option.some.inj hschema).symm
        have hpath : schema.keepsText ["props", which.name, "item"] = true := by
          rw [hschemaEq]
          cases which <;> rfl
        refine mem_arrowBindings.mpr ⟨harrow, which, ?_⟩
        exact boundItem_eq_some.mpr
          (text_of_parseKeeping hlawful hpath hy (boundItem_eq_some.mp hbound))
      · cases h

theorem parseTrack_spec
    (h : parseKeepingBoardFields (boardTrackSchema rules) value keep = .ok track) :
    track.isRecord = true ∧ ∀ t, (track.get? "target").bind Json.asString? = some t →
      (value.get? "target").bind Json.asString? = some t := by
  have hkind : (boardTrackSchema rules).kind = some .obj := rfl
  refine ⟨isRecord_of_parseKeeping hkind h, ?_⟩
  intro t ht
  rw [asString?_eq_some] at ht ⊢
  have hat : track.at? ["target"] = some (.str t) := by rw [at?_cons, ht]; rfl
  have hvalue := text_of_parseKeeping (boardTrackSchema_lawful rules) rfl h hat
  rw [at?_cons] at hvalue
  simpa using hvalue

/-! ## Members that are copied -/

/-- A schema of texts or numbers, which are returned as they are. -/
def copies : Schema → Bool
  | .string _ | .number _ => true
  | .optional inner => copies inner
  | _ => false

theorem parse_of_copies {s : Schema} (hs : copies s = true) {r : Option Json}
    (h : s.parse x = .ok r) : r = x := by
  induction s using Schema.inductionOn generalizing x with
  | string checks =>
    match x with
    | some (.str t) =>
      rw [Schema.parse, Schema.conclude_eq_ok] at h
      exact h.2
    | none | some .null | some (.bool _) | some (.num _) | some (.arr _) | some (.obj _)
    | some (.native _) => simp [Schema.parse] at h
  | number checks =>
    match x with
    | some (.num q) =>
      rw [Schema.parse, Schema.conclude_eq_ok] at h
      exact h.2
    | none | some .null | some (.bool _) | some (.str _) | some (.arr _) | some (.obj _)
    | some (.native _) => simp [Schema.parse] at h
  | optional inner ih =>
    cases x with
    | none =>
      cases h
      rfl
    | some v => exact ih hs h
  | _ => cases hs

/-- A value with nothing inside. -/
def IsScalar (x : Json) : Prop := (∀ fs, x ≠ .obj fs) ∧ ∀ xs, x ≠ .arr xs

theorem isScalar_num (q : Rat) : IsScalar (.num q) := by simp [IsScalar]

theorem isScalar_str (t : String) : IsScalar (.str t) := by simp [IsScalar]

theorem IsScalar.updateAt {x : Json} (hx : IsScalar x) (f : Json → Json) (s : Segment)
    (place : List Segment) : updateAt f x (s :: place) = x :=
  updateAt_of_mismatch (fun fs _ h => absurd h (hx.1 fs)) fun xs _ h => absurd h (hx.2 xs)

theorem get?_updateAt {s : Segment} (hv : ∀ x, v.get? k = some x → IsScalar x ∧ f x = x) :
    (updateAt f v (s :: place)).get? k = v.get? k := by
  cases v with
  | obj fs =>
    cases s with
    | index i => rfl
    | key k' =>
      rw [updateAt]
      split
      · next w hw =>
        rw [get?_obj, get?_set]
        split
        · next hk =>
          obtain ⟨hscalar, hf⟩ := hv w (by rw [hk]; exact hw)
          rw [hk, get?_obj, hw]
          cases place with
          | nil =>
            have hnil : updateAt f w [] = f w := by cases w <;> rfl
            rw [hnil, hf]
          | cons s place => rw [hscalar.updateAt]
        · rfl
      · rfl
  | arr xs =>
    cases s with
    | key k' => rfl
    | index i =>
      rw [updateAt]
      split <;> rfl
  | _ => cases s <;> rfl

theorem get?_erasures (fs : Fields) (hk : k ∉ keys) :
    Fields.get? (keys.foldl (fun fs k => Fields.erase fs k) fs) k = Fields.get? fs k := by
  induction keys generalizing fs with
  | nil => rfl
  | cons k' rest ih =>
    rw [mem_cons, not_or] at hk
    rw [foldl_cons, ih _ hk.2, get?_erase_ne _ hk.1]

theorem get?_withoutFields (hv : ∀ x, v.get? k = some x → IsScalar x) (hk : place = [] → k ∉ keys) :
    (withoutFields v place keys).get? k = v.get? k := by
  cases place with
  | nil =>
    cases v with
    | obj fs => exact get?_erasures fs (hk rfl)
    | _ => rfl
  | cons s place =>
    refine get?_updateAt fun x hx => ⟨hv x hx, ?_⟩
    split
    · exact absurd rfl ((hv _ hx).1 _)
    · rfl

theorem not_mem_keys_of_parse (hshape : schema.shapeOf = some shape) (hk : k ∈ shape.map Prod.fst)
    (h : schema.parse (some v) = .error issues) :
    ∀ issue ∈ issues, issue.path = [] → k ∉ issue.keys := by
  have hparts : ∀ (l : List (String × Parsed)) later, Schema.gatherFields l = .error later →
      ∀ issue ∈ later, issue.path ≠ [] := by
    intro l
    induction l with
    | nil => intro later h; cases h
    | cons e rest ih =>
      obtain ⟨k₀, p₀⟩ := e
      have hunder : ∀ issues : List Issue, ∀ issue ∈ issues.map (Issue.under (.key k₀)),
          issue.path ≠ [] := by
        intro issues issue hissue
        obtain ⟨i, -, rfl⟩ := mem_map.mp hissue
        simp [Issue.under]
      intro later h
      match p₀ with
      | .ok none => exact ih later h
      | .ok (some y) =>
        rw [Schema.gatherFields] at h
        cases hrest : Schema.gatherFields rest with
        | ok fs => rw [hrest] at h; cases h
        | error is =>
          rw [hrest] at h
          cases h
          exact ih _ hrest
      | .error is =>
        rw [Schema.gatherFields] at h
        cases hrest : Schema.gatherFields rest with
        | ok fs =>
          rw [hrest] at h
          cases h
          exact hunder is
        | error is' =>
          rw [hrest] at h
          cases h
          intro issue hissue
          rcases mem_append.mp hissue with hissue | hissue
          · exact hunder is issue hissue
          · exact ih is' hrest issue hissue
  have hunrecognized : ∀ fs : Fields, ∀ issue ∈ Schema.unrecognized (shape.map Prod.fst) fs,
      k ∉ issue.keys := by
    intro fs issue hissue
    unfold Schema.unrecognized at hissue
    split at hissue
    · cases hissue
    · rw [mem_singleton.mp hissue]
      intro hmem
      have hnot := (mem_filter.mp hmem).2
      simp only [Bool.not_eq_true', contains_eq_mem, decide_eq_false_iff_not] at hnot
      exact hnot hk
  rw [Schema.parse_shapeOf hshape] at h
  intro issue hissue hroot
  cases v with
  | obj fs =>
    rw [Schema.parse] at h
    unfold Schema.concludeParts at h
    cases hgather : Schema.gatherFields (Schema.parseShape shape fs) with
    | ok out =>
      rw [hgather] at h
      have hissues : issues = Schema.unrecognized (shape.map Prod.fst) fs := by
        cases hun : Schema.unrecognized (shape.map Prod.fst) fs with
        | nil => rw [hun] at h; cases h
        | cons i is => rw [hun] at h; cases h; rfl
      exact hunrecognized fs issue (hissues ▸ hissue)
    | error earlier =>
      rw [hgather] at h
      cases h
      rcases mem_append.mp hissue with hissue | hissue
      · exact absurd hroot (hparts _ earlier hgather issue hissue)
      · exact hunrecognized fs issue hissue
  | _ =>
    cases h
    rw [mem_singleton.mp hissue]
    exact not_mem_nil

/-- The candidate still has the member, and it is not among the fields taken
    out. -/
structure Holds (k : String) (x : Option Json) (candidate : Json) (kept : List KeptField) :
    Prop where
  member : candidate.get? k = x
  others : ∀ field ∈ kept, field.path = [] → field.key ≠ k

theorem Holds.strip (hx : ∀ w, x = some w → IsScalar w) (keep : BoardKeepField)
    (hissues : ∀ issue ∈ issues, issue.path = [] → k ∉ issue.keys) :
    ∀ {candidate : Json} {kept : List KeptField}, Holds k x candidate kept →
      Holds k x (stripFields keep issues candidate kept).1
        (stripFields keep issues candidate kept).2 := by
  induction issues with
  | nil => intro candidate kept h; exact h
  | cons issue rest ih =>
    intro candidate kept h
    have hrest := fun i hi => hissues i (mem_cons_of_mem _ hi)
    have hkeys : issue.path = [] → k ∉ keptKeys keep issue := by
      intro hroot hk
      unfold keptKeys at hk
      split at hk
      · exact hissues issue mem_cons_self hroot (mem_filter.mp hk).1
      · cases hk
    unfold stripFields
    split
    · exact ih hrest h
    · apply ih hrest
      constructor
      · rw [get?_withoutFields (by rw [h.member]; exact hx) hkeys]
        exact h.member
      · intro field hfield hroot
        rcases mem_append.mp hfield with hfield | hfield
        · exact h.others field hfield hroot
        · obtain ⟨key, hkey, rfl⟩ := mem_map.mp hfield
          rintro rfl
          exact hkeys hroot hkey

theorem get?_restoreFields (hothers : ∀ field ∈ kept, field.path = [] → field.key ≠ k) :
    ∀ {v : Json}, (∀ x, v.get? k = some x → IsScalar x) →
      (kept.foldl restoreField v).get? k = v.get? k := by
  induction kept with
  | nil => intro v _; rfl
  | cons field rest ih =>
    intro v hv
    have hhead : (restoreField v field).get? k = v.get? k := by
      have hne := hothers field mem_cons_self
      obtain ⟨path, key, value⟩ := field
      cases path with
      | nil =>
        cases v with
        | obj fs =>
          cases value with
          | none => rfl
          | some w => exact get?_set_ne fs w (hne rfl).symm
        | _ => rfl
      | cons s place =>
        refine get?_updateAt fun x hx => ⟨hv x hx, ?_⟩
        split
        · exact absurd rfl ((hv _ hx).1 _)
        · rfl
    rw [foldl_cons, ih (fun f hf => hothers f (mem_cons_of_mem _ hf)), hhead]
    rw [hhead]
    exact hv

theorem get?_of_parseKeeping {s : Schema} (hshape : schema.shapeOf = some shape)
    (hnodup : (shape.map Prod.fst).Nodup) (hmem : (k, s) ∈ shape) (hs : copies s = true)
    (hvalue : ∀ x, value.get? k = some x → IsScalar x)
    (h : parseKeepingBoardFields schema value keep = .ok y) :
    y.get? k = value.get? k ∧ s.parse (value.get? k) = .ok (value.get? k) := by
  have hparse : ∀ {candidate w : Json}, candidate.get? k = value.get? k →
      schema.parse (some candidate) = .ok (some w) →
      w.get? k = value.get? k ∧ s.parse (value.get? k) = .ok (value.get? k) := by
    intro candidate w hcandidate hw
    rw [Schema.parse_shapeOf hshape] at hw
    obtain ⟨fs, out, hv, hw', -, -, hin, -⟩ := Schema.parse_object_eq_ok hnodup hw
    cases hv
    cases hw'
    have hmember := hin k s hmem
    have hcopy := parse_of_copies hs hmember
    rw [get?_obj] at hcandidate ⊢
    rw [hcandidate] at hcopy hmember
    rw [hcopy] at hmember
    exact ⟨hcopy, hmember⟩
  cases keep with
  | none => exact hparse rfl (parseKeeping_none_eq_ok h)
  | some keep =>
    obtain ⟨candidate, kept, w, hI, hw, rfl⟩ :=
      parseKeepingRounds_end (I := Holds k (value.get? k))
        (fun issues _ _ herror hI => hI.strip hvalue keep
          (not_mem_keys_of_parse hshape (mem_map_of_mem hmem) herror))
        ⟨rfl, by simp⟩ h
    obtain ⟨hcopy, hmember⟩ := hparse hI.member hw
    refine ⟨?_, hmember⟩
    rw [get?_restoreFields kept hI.others (by rw [hcopy]; exact hvalue), hcopy]

theorem boardItemSchema_envelope (h : boardItemSchema rules type = some schema) :
    ∃ shape, schema.shapeOf = some shape ∧ (shape.map Prod.fst).Nodup ∧
      ("parent", .optional boardIdSchema) ∈ shape ∧ ("z", .optional finite) ∈ shape ∧
      schema.keepsText ["parent"] = true := by
  have hmembers : ∃ shape, schema.shapeOf = some shape ∧
      ("parent", .optional boardIdSchema) ∈ shape ∧ ("z", .optional finite) ∈ shape ∧
      schema.keepsText ["parent"] = true := by
    unfold boardItemSchema at h
    split at h
    · have hall : ∀ e ∈ boardItemSchemas rules, ∃ shape, e.2.shapeOf = some shape ∧
          ("parent", .optional boardIdSchema) ∈ shape ∧ ("z", .optional finite) ∈ shape ∧
          e.2.keepsText ["parent"] = true := by
        intro e he
        simp only [boardItemSchemas, mem_cons, not_mem_nil, or_false] at he
        rcases he with rfl | rfl | rfl | rfl | rfl | rfl | rfl | rfl | rfl | rfl | rfl | rfl | rfl <;>
          exact ⟨_, rfl, .tail _ (.head _), .tail _ (.tail _ (.head _)), rfl⟩
      exact hall _ (OrderedMap.mem_of_lookupEntry h)
    · split at h
      · cases h
        exact ⟨_, rfl, .tail _ (.head _), .tail _ (.tail _ (.head _)), rfl⟩
      · cases h
  obtain ⟨shape, hshape, hmem⟩ := hmembers
  exact ⟨shape, hshape, (Schema.lawful_shapeOf hshape (boardItemSchema_lawful h)).1, hmem⟩

theorem isBoardId_of_stringIssues (h : Schema.stringIssues boardIdChecks s = []) :
    isBoardId s = true := by
  unfold isBoardId
  rw [all_eq_true]
  intro c hc
  by_contra hfails
  unfold Schema.stringIssues at h
  rw [map_eq_nil_iff, filter_eq_nil_iff] at h
  exact h c hc (by simpa using hfails)

theorem parseBoardItem_place {path : String} (h : parseBoardItem rules value path keep = .ok item) :
    (∀ q, value.get? "z" = some (.num q) → itemZ item = some q) ∧
      itemParent item = itemParent value ∧ ∀ q, itemParent item = some q → isBoardId q = true := by
  unfold parseBoardItem at h
  split at h
  · cases h
  · split at h
    · cases h
    · next schema hschema =>
      split at h
      · next y hy =>
        cases h
        obtain ⟨shape, hshape, hnodup, hparent, hz, htext⟩ := boardItemSchema_envelope hschema
        have hkept : ∀ q, itemParent value = some q →
            itemParent item = some q ∧ isBoardId q = true := by
          intro q hq
          have hget : value.get? "parent" = some (.str q) := asString?_eq_some.mp hq
          obtain ⟨hcopy, hlegal⟩ := get?_of_parseKeeping hshape hnodup hparent rfl
            (fun x hx => by
              rw [hget] at hx
              cases hx
              exact isScalar_str q) hy
          rw [hget] at hlegal
          refine ⟨by unfold itemParent; rw [hcopy]; exact hq, ?_⟩
          have hlegal : boardIdSchema.parse (some (.str q)) = .ok (some (.str q)) := hlegal
          unfold boardIdSchema at hlegal
          rw [Schema.parse, Schema.conclude_eq_ok] at hlegal
          exact isBoardId_of_stringIssues hlegal.1
        have hcame : ∀ q, itemParent item = some q → itemParent value = some q := fun q hq =>
          itemParent_eq_some.mpr (text_of_parseKeeping (boardItemSchema_lawful hschema) htext hy
            (itemParent_eq_some.mp hq))
        refine ⟨?_, ?_, fun q hq => (hkept q (hcame q hq)).2⟩
        · intro q hq
          obtain ⟨hcopy, -⟩ := get?_of_parseKeeping hshape hnodup hz rfl
            (fun x hx => by
              rw [hq] at hx
              cases hx
              exact isScalar_num q) hy
          unfold itemZ
          rw [hcopy, hq]
          rfl
        · exact Option.ext fun q => ⟨hcame q, fun hq => (hkept q hq).1⟩
      · cases h

end Cohub.Board
