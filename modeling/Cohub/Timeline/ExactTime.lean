import Cohub.Timeline.Retiming
import Cohub.Timeline.Splitting

/-! # How exact time is put in and taken out

    The tracks of an animation after `boardInsertTime` and `boardRemoveTime`.
    Times are rounded to whole milliseconds first.  Apart from that time put in
    changes nothing before it and moves what comes after it.  Where time is
    taken out, two keyframes of different values meet, and the second of them
    is put a millisecond later or left out. -/

namespace Cohub.Timeline

open Number Cohub.Board List OrderedMap Option

/-! ## Plain keyframes stay plain -/

/-- A keyframe with a linear easing, and a number where numbers are wanted. -/
structure PlainKeyframe (numbers : Prop) (k : BoardKeyframe) : Prop where
  linear : LinearEase k.ease
  number : numbers → k.value.asNum?.isSome

section Plain

variable {numbers : Prop} {keyframes : List BoardKeyframe} {value : Json}
  {time : Rat} {parts : List BoardKeyframe × List BoardKeyframe}

theorem CutParts.plain (hparts : CutParts keyframes time value parts)
    (h : ∀ k ∈ keyframes, PlainKeyframe numbers k) (hvalue : numbers → value.asNum?.isSome) :
    (∀ k ∈ parts.1, PlainKeyframe numbers k) ∧ ∀ k ∈ parts.2, PlainKeyframe numbers k := by
  cases hparts with
  | apart front rest heq hfront hrest hmeet =>
    rw [heq] at h
    refine ⟨fun k hk => ?_, fun k hk => h k (mem_append_right _ hk)⟩
    rcases mem_append.mp hk with hk | hk
    · exact h k (mem_append_left _ hk)
    · exact h k (mem_append_right _ (mem_of_mem_filter hk))
  | between front rest a b b' cut cut' heq ha hb hcut hcut' hb' hlinear =>
    rw [heq] at h
    have hplain := h b (by simp)
    obtain ⟨hone, htwo, hthree⟩ := hlinear hplain.linear
    constructor
    · intro k hk
      rcases mem_append.mp hk with hk | hk
      · exact h k (mem_append_left _ hk)
      · rcases mem_cons.mp hk with rfl | hk
        · exact h k (by simp)
        · rw [mem_singleton.mp hk]
          exact ⟨hone, fun hn => hcut.2 ▸ hvalue hn⟩
    · intro k hk
      rcases mem_cons.mp hk with rfl | hk
      · exact ⟨htwo, fun hn => hcut'.2 ▸ hvalue hn⟩
      · rcases mem_cons.mp hk with rfl | hk
        · exact ⟨hthree, fun hn => hb'.2 ▸ hplain.number hn⟩
        · exact h k (by simp [hk])

theorem CutParts.has_values (hparts : CutParts keyframes time value parts) {k : BoardKeyframe}
    (hk : k ∈ keyframes) : ∃ k', (k' ∈ parts.1 ∨ k' ∈ parts.2) ∧ k'.value = k.value := by
  cases hparts with
  | apart front rest heq hfront hrest hmeet =>
    rcases mem_append.mp (heq ▸ hk) with hk | hk
    · exact ⟨k, .inl (mem_append_left _ hk), rfl⟩
    · exact ⟨k, .inr hk, rfl⟩
  | between front rest a b b' cut cut' heq ha hb hcut hcut' hb' hlinear =>
    rw [heq] at hk
    rcases mem_append.mp hk with hk | hk
    · exact ⟨k, .inl (mem_append_left _ hk), rfl⟩
    · rcases mem_cons.mp hk with rfl | hk
      · exact ⟨k, .inl (by simp), rfl⟩
      · rcases mem_cons.mp hk with rfl | hk
        · exact ⟨b', .inr (by simp), hb'.2⟩
        · exact ⟨k, .inr (by simp [hk]), rfl⟩

theorem shiftKeyframes_plain (h : ∀ k ∈ keyframes, PlainKeyframe numbers k) (shift : Rat) :
    ∀ k ∈ shiftKeyframes keyframes shift, PlainKeyframe numbers k := by
  intro k hk
  obtain ⟨k', hk', rfl⟩ := mem_shiftKeyframes.mp hk
  exact ⟨(h k' hk').linear, (h k' hk').number⟩

theorem join_plain {before after : List BoardKeyframe}
    (hbefore : ∀ k ∈ before, PlainKeyframe numbers k)
    (hafter : ∀ k ∈ after, PlainKeyframe numbers k) :
    ∀ k ∈ join before after, PlainKeyframe numbers k := by
  have happend : ∀ l : List BoardKeyframe, (∀ k ∈ l, PlainKeyframe numbers k) →
      ∀ k ∈ before ++ l, PlainKeyframe numbers k := by
    intro l hl k hk
    rcases mem_append.mp hk with hk | hk
    · exact hbefore k hk
    · exact hl k hk
  unfold join
  split
  · rename_i last first rest hlast
    have hfirst := hafter first mem_cons_self
    have hrest : ∀ k ∈ rest, PlainKeyframe numbers k := fun k hk =>
      hafter k (mem_cons_of_mem _ hk)
    split
    · exact happend _ hafter
    · split
      · exact happend _ hrest
      · refine happend _ fun k hk => ?_
        rcases mem_cons.mp hk with rfl | hk
        · exact ⟨hfirst.linear, hfirst.number⟩
        · exact hrest k hk
  · exact happend _ hafter

theorem normalizeVisible_plain (h : ∀ k ∈ keyframes, PlainKeyframe False k) :
    ∀ k ∈ normalizeVisible keyframes, PlainKeyframe False k := by
  have hresult : ∀ k ∈ (sortKeyframes keyframes).foldl normalizeStep [], PlainKeyframe False k := by
    intro k hk
    have hmem := (foldl_normalizeStep_sublist (sortKeyframes keyframes) []).subset hk
    rw [nil_append] at hmem
    exact h k ((perm_insertionSort _ _).subset hmem)
  unfold normalizeVisible
  dsimp only
  split
  · split
    · intro k hk
      rcases mem_cons.mp hk with rfl | hk
      · exact ⟨trivial, fun hfalse => hfalse.elim⟩
      · exact hresult k hk
    · exact hresult
  · exact hresult

theorem valueAt_number {u : Rat} (h : ∀ k ∈ keyframes, k.value.asNum?.isSome)
    (hvalue : valueAt .number keyframes u = some value) : value.asNum?.isSome := by
  induction keyframes with
  | nil => cases hvalue
  | cons a rest ih =>
    have ha := h a mem_cons_self
    cases rest with
    | nil =>
      obtain rfl := Option.some.inj hvalue
      exact ha
    | cons b rest =>
      rw [valueAt] at hvalue
      split at hvalue
      · split at hvalue
        · obtain rfl := Option.some.inj hvalue
          exact ha
        · obtain rfl := Option.some.inj hvalue
          obtain ⟨x, hx⟩ := isSome_iff_exists.mp ha
          obtain ⟨y, hy⟩ := isSome_iff_exists.mp (h b (by simp))
          rw [asNum?_eq_some hx, asNum?_eq_some hy]
          rfl
      · exact ih (fun k hk => h k (mem_cons_of_mem _ hk)) hvalue

end Plain

/-! ## Plain tracks stay plain -/

section Tracks

variable {text : TextRules} {type : String} {track : BoardTrack} {motion : Motion}

/-- The track's kind is read off its own values. -/
def IsParameter (type : String) (track : BoardTrack) : Prop :=
  type = "script" ∨ "script.params.".toList.isPrefixOf track.property.toList

/-- The track is a parameter of numbers, and is one because they are. -/
def IsNumberParameter (type : String) (track : BoardTrack) (motion : Motion) : Prop :=
  motion = .number ∧ IsParameter type track

theorem motionOf_number {interpolation : TrackInterpolation} {kind : BoardValueKind}
    (h : motionOf interpolation kind = some .number) : kind = .number := by
  unfold motionOf at h
  split at h
  · cases h
  · cases kind with
    | number => rfl
    | vec2 => dsimp only at h; split at h <;> cases h
    | _ => cases h

theorem PlainTrack.keyframes_plain (h : PlainTrack text type track motion) :
    ∀ k ∈ track.keyframes, PlainKeyframe (IsNumberParameter type track motion) k := by
  intro k hk
  refine ⟨h.linear k hk, fun hnumber => ?_⟩
  obtain ⟨spec, -, hmotion⟩ := h.moves
  rw [hnumber.1] at hmotion
  have hkind := motionOf_number hmotion
  have hparameter : trackKind text spec track type = parameterKind text track.keyframes :=
    if_pos hnumber.2
  exact parameterKind_eq_number_iff.mp (hparameter.symm.trans hkind) k hk

theorem PlainTrack.withKeyframes (h : PlainTrack text type track motion)
    {keyframes : List BoardKeyframe} (hvalid : ValidKeyframes keyframes)
    (hplain : ∀ k ∈ keyframes, PlainKeyframe (IsNumberParameter type track motion) k)
    (hvalues : motion = .steps → track.interpolation ≠ .step → IsParameter type track →
      ∀ k ∈ track.keyframes, ∃ k' ∈ keyframes, k'.value = k.value) :
    PlainTrack text type { track with keyframes := keyframes } motion := by
  obtain ⟨spec, hspec, hmotion⟩ := h.moves
  refine ⟨hvalid, fun k hk => (hplain k hk).linear, spec, hspec, ?_⟩
  by_cases hparameter : IsParameter type track
  · by_cases hinterpolation : track.interpolation = .step
    · unfold motionOf at hmotion ⊢
      rw [if_pos hinterpolation] at hmotion ⊢
      exact hmotion
    have hkind : trackKind text spec track type = parameterKind text track.keyframes := if_pos hparameter
    have hnewKind : trackKind text spec { track with keyframes := keyframes } type =
        parameterKind text keyframes := if_pos hparameter
    rw [hnewKind]
    rw [hkind] at hmotion
    by_cases hnumber : parameterKind text track.keyframes = .number
    · rw [hnumber] at hmotion
      have hmotionEq : motion = .number := by
        rw [motionOf, if_neg hinterpolation] at hmotion
        exact (Option.some.inj hmotion).symm
      rw [parameterKind_eq_number_iff.mpr fun k hk => (hplain k hk).number ⟨hmotionEq, hparameter⟩]
      exact hmotion
    · -- the values are neither all numbers nor all colors, and they are all kept
      have hnotColor : ¬ ∀ k ∈ track.keyframes,
          ((boardColorSchema text).parse (some k.value)).isOk := by
        intro hcolor
        have hcolorKind : parameterKind text track.keyframes = .color := by
          rw [parameterKind, if_neg (fun hall => hnumber (parameterKind_eq_number_iff.mpr
            (all_eq_true.mp hall))), if_pos (all_eq_true.mpr hcolor)]
        rw [hcolorKind, motionOf, if_neg hinterpolation] at hmotion
        cases hmotion
      have hnotNumber : ¬ ∀ k ∈ track.keyframes, k.value.asNum?.isSome := fun hall =>
        hnumber (parameterKind_eq_number_iff.mpr hall)
      have hdiscrete : parameterKind text track.keyframes = .discrete := by
        rw [parameterKind, if_neg (fun hall => hnotNumber (all_eq_true.mp hall)),
          if_neg (fun hall => hnotColor (all_eq_true.mp hall))]
      have hsteps : motion = .steps := by
        rw [hdiscrete, motionOf, if_neg hinterpolation] at hmotion
        exact (Option.some.inj hmotion).symm
      have hkept := hvalues hsteps hinterpolation hparameter
      have hnewDiscrete : parameterKind text keyframes = .discrete := by
        rw [parameterKind, if_neg, if_neg]
        · intro hall
          refine hnotColor fun k hk => ?_
          obtain ⟨k', hk', heq⟩ := hkept k hk
          exact heq ▸ all_eq_true.mp hall k' hk'
        · intro hall
          refine hnotNumber fun k hk => ?_
          obtain ⟨k', hk', heq⟩ := hkept k hk
          exact heq ▸ all_eq_true.mp hall k' hk'
      rw [hnewDiscrete, ← hdiscrete]
      exact hmotion
  · have hkind : trackKind text spec { track with keyframes := keyframes } type =
        trackKind text spec track type := by
      have hnot : ¬ (type = "script" ∨
        "script.params.".toList.isPrefixOf track.property.toList = true) := hparameter
      rw [trackKind, trackKind, if_neg hnot, if_neg hnot]
    rw [hkind]
    exact hmotion

end Tracks

/-! ## Animations -/

theorem retime_get? (animation : TimelineAnimation) (keyframes : BoardTrack → List BoardKeyframe)
    (markers : List BoardMarker) (duration : Rat) {e : String × BoardTrack}
    (he : e ∈ animation.tracks.entries) :
    (retime animation keyframes markers duration).tracks.get? e.1 = retimeTrack keyframes e.2 := by
  have hsame : ∀ e' ∈ animation.tracks.entries, e'.1 = e.1 → e' = e := by
    intro e' he' heq
    have h1 := (mem_entries_iff _ _ _).mp he
    have h2 := (mem_entries_iff _ _ _).mp he'
    rw [heq, h1] at h2
    exact Prod.ext heq (Option.some.inj h2).symm
  cases hnext : retimeTrack keyframes e.2 with
  | some next =>
    refine (get?_ofList (v := next) fun e' he' hkey => ?_).trans (if_pos ?_)
    · obtain ⟨e'', he'', hmap⟩ := mem_filterMap.mp he'
      obtain ⟨track, htrack, rfl⟩ := map_eq_some_iff.mp hmap
      rw [hsame e'' he'' hkey, hnext] at htrack
      exact (Option.some.inj htrack).symm
    · refine mem_map.mpr ⟨(e.1, next), mem_filterMap.mpr ⟨e, he, ?_⟩, rfl⟩
      rw [hnext]
      rfl
  | none =>
    refine (get?_setAll_of_not_mem ?_ _).trans rfl
    intro hmem
    obtain ⟨e', he', hkey⟩ := mem_map.mp hmem
    obtain ⟨e'', he'', hmap⟩ := mem_filterMap.mp he'
    obtain ⟨track, htrack, rfl⟩ := map_eq_some_iff.mp hmap
    rw [hsame e'' he'' hkey, hnext] at htrack
    cases htrack

section Exact

variable {text : TextRules} {rules : SampleRules}
  {cutCurve : String → Rat → Option String × Option String} {entityId : Tracks → String}
  {document : BoardDocument} {type : String} {track : BoardTrack} {motion : Motion}
  {first : BoardKeyframe}

theorem CutParts.head_first {keyframes : List BoardKeyframe} {time : Rat} {value : Json}
    {parts : List BoardKeyframe × List BoardKeyframe} (hparts : CutParts keyframes time value parts)
    (hfirst : keyframes.head? = some first) (hle : first.at_ ≤ time) :
    parts.1.head? = some first := by
  cases hparts with
  | apart front rest heq hfront hrest hmeet =>
    rw [heq] at hfirst
    cases front with
    | nil =>
      cases rest with
      | nil => cases hfirst
      | cons x rest =>
        obtain rfl := Option.some.inj hfirst
        show ([] ++ (x :: rest).filter fun k : BoardKeyframe => k.at_ ≤ time).head? = some x
        rw [nil_append, filter_cons_of_pos (by simpa using hle)]
        rfl
    | cons x front => exact hfirst
  | between front rest a b b' cut cut' heq ha hb hcut hcut' hb' hlinear =>
    rw [heq] at hfirst
    cases front with
    | nil => exact hfirst
    | cons x front => exact hfirst

/-- What a visible track shows from zero on starts at zero or hidden. -/
def StartsAtZeroOrHidden (track : BoardTrack) : Prop :=
  ∀ first, track.keyframes.head? = some first → first.at_ = 0 ∨ first.value = .bool false

variable (text rules cutCurve entityId document) in
theorem insertedKeyframes_head (h : ValidKeyframes track.keyframes) (time gap : Rat)
    (hfirst : track.keyframes.head? = some first) :
    ∃ first', (insertedKeyframes (timelineCurves text rules cutCurve entityId) document time gap
        track).head? = some first' ∧ first'.value = first.value ∧
      (first'.at_ = first.at_ ∨ first'.at_ = first.at_ + gap ∧ time ≤ first.at_) := by
  have hcut : CutParts track.keyframes time (sampleTrack text rules document track time)
      (cutTrack (timelineCurves text rules cutCurve entityId) document track time) :=
    cutTrack_parts h.toInOrder time
  unfold insertedKeyframes
  dsimp only
  rcases withoutAnchor_cases track with hbody | ⟨x, second, rest, hall, hbody, -, -, -⟩
  · rw [hbody, hfirst]
    split
    · rename_i hle
      refine ⟨{ first with at_ := first.at_ + gap }, ?_, rfl, .inr ⟨rfl, hle⟩⟩
      rw [Nat.sub_self, take_zero, nil_append, head?_shiftKeyframes, hfirst]
      rfl
    · rename_i hgt
      have hhead := hcut.head_first hfirst (not_le.mp hgt).le
      refine ⟨first, ?_, rfl, .inl rfl⟩
      split
      · rw [head?_append, hhead]
        rfl
      · exact hhead
  · obtain rfl : x = first := by
      rw [hall] at hfirst
      exact Option.some.inj hfirst
    refine ⟨x, ?_, rfl, .inl rfl⟩
    rw [hbody]
    split
    · rw [hall]
      simp
    · rename_i hgt
      have hle : x.at_ ≤ time :=
        (h.toInOrder.head_le hfirst second (by simp [hall])).trans (not_le.mp hgt).le
      have hhead := hcut.head_first hfirst hle
      split
      · rw [head?_append, hhead]
        rfl
      · exact hhead

variable (rules cutCurve entityId) in
theorem insertedKeyframes_plain (h : PlainTrack text type track motion)
    (htype : targetType document track.target = some type) (time gap : Rat) :
    (∀ k ∈ insertedKeyframes (timelineCurves text rules cutCurve entityId) document time gap track,
        PlainKeyframe (IsNumberParameter type track motion) k) ∧
      ∀ k ∈ track.keyframes, ∃ k' ∈ insertedKeyframes
        (timelineCurves text rules cutCurve entityId) document time gap track,
          k'.value = k.value := by
  have hplain := h.keyframes_plain
  have hcut : CutParts track.keyframes time (sampleTrack text rules document track time)
      (cutTrack (timelineCurves text rules cutCurve entityId) document track time) :=
    cutTrack_parts h.valid.toInOrder time
  obtain ⟨hone, htwo⟩ := hcut.plain hplain fun hnumber => by
    obtain ⟨rfl, hparameter⟩ := hnumber
    exact valueAt_number (fun k hk => (hplain k hk).number ⟨rfl, hparameter⟩)
      (h.cutValue htype time)
  have hmoved : ∀ (l : List BoardKeyframe) (k : BoardKeyframe), k ∈ l →
      ∃ k' ∈ shiftKeyframes l gap, k'.value = k.value := fun l k hk =>
    ⟨{ k with at_ := k.at_ + gap }, mem_shiftKeyframes.mpr ⟨k, hk, rfl⟩, rfl⟩
  have hbodyPlain : ∀ k ∈ withoutAnchor track, PlainKeyframe (IsNumberParameter type track motion) k := by
    obtain ⟨anchor, hanchor⟩ := withoutAnchor_suffix track
    exact fun k hk => hplain k (hanchor ▸ mem_append_right _ hk)
  unfold insertedKeyframes
  dsimp only
  split
  · constructor
    · intro k hk
      rcases mem_append.mp hk with hk | hk
      · exact hplain k (mem_of_mem_take hk)
      · exact shiftKeyframes_plain hbodyPlain gap k hk
    · obtain ⟨anchor, hanchor⟩ := withoutAnchor_suffix track
      have htake : track.keyframes.take (track.keyframes.length - (withoutAnchor track).length) =
          anchor := by
        rw [← hanchor]
        simp
      rw [htake]
      intro k hk
      rcases mem_append.mp (hanchor ▸ hk) with hk | hk
      · exact ⟨k, mem_append_left _ hk, rfl⟩
      · obtain ⟨k', hk', hvalue⟩ := hmoved _ k hk
        exact ⟨k', mem_append_right _ hk', hvalue⟩
  · split
    · constructor
      · intro k hk
        rcases mem_append.mp hk with hk | hk
        · exact hone k hk
        · exact shiftKeyframes_plain htwo gap k hk
      · intro k hk
        obtain ⟨k', hk' | hk', hvalue⟩ := hcut.has_values hk
        · exact ⟨k', mem_append_left _ hk', hvalue⟩
        · obtain ⟨k'', hk'', hvalue'⟩ := hmoved _ k' hk'
          exact ⟨k'', mem_append_right _ hk'', hvalue'.trans hvalue⟩
    · rename_i hany
      refine ⟨hone, fun k hk => ⟨k, ?_, rfl⟩⟩
      rw [hcut.first_eq (hcut.all_le (by simpa using hany))]
      exact hk

theorem retimeTrack_plain (h : PlainTrack text type track motion)
    {keyframes : BoardTrack → List BoardKeyframe} (horder : InOrder (keyframes track))
    (hne : keyframes track ≠ [])
    (hplain : ∀ k ∈ keyframes track, PlainKeyframe (IsNumberParameter type track motion) k)
    (hvalues : motion = .steps → track.interpolation ≠ .step → IsParameter type track →
      ∀ k ∈ track.keyframes, ∃ k' ∈ keyframes track, k'.value = k.value) :
    ∃ track', retimeTrack keyframes track = some track' ∧ PlainTrack text type track' motion ∧
      track'.keyframes =
        if track.property = visibleProperty then normalizeVisible (keyframes track)
        else keyframes track := by
  by_cases hvisible : track.property = visibleProperty
  · have hnormalNe := normalizeVisible_ne_nil hne
    have hnot : ¬ IsParameter type track := by
      rintro (hscript | hprefix)
      · obtain ⟨spec, hspec, -⟩ := h.moves
        rw [hvisible, hscript] at hspec
        have hnone : ∀ spec', resolveBoardProperty text "script" visibleProperty ≠ .ok spec' := by
          intro spec' hspec'
          unfold resolveBoardProperty at hspec'
          rw [if_neg (by decide), if_neg (by decide), if_pos rfl, if_neg (by decide)] at hspec'
          cases hspec'
        exact hnone spec hspec
      · rw [hvisible] at hprefix
        exact absurd hprefix (by decide)
    have hnormal : ∀ k ∈ normalizeVisible (keyframes track),
        PlainKeyframe (IsNumberParameter type track motion) k := by
      intro k hk
      have := normalizeVisible_plain (fun k hk => ⟨(hplain k hk).linear, fun hf => hf.elim⟩) k hk
      exact ⟨this.linear, fun hnumber => absurd hnumber.2 hnot⟩
    refine ⟨{ track with keyframes := normalizeVisible (keyframes track) }, ?_,
      h.withKeyframes { toInOrder := normalizeVisible_inOrder horder.nonneg, nonempty := hnormalNe }
        hnormal fun _ _ hparameter => absurd hparameter hnot, ?_⟩
    · unfold retimeTrack
      rw [if_pos hvisible]
      dsimp only
      rw [if_neg (by simpa using hnormalNe)]
    · rw [if_pos hvisible]
  · refine ⟨{ track with keyframes := keyframes track }, ?_,
      h.withKeyframes { toInOrder := horder, nonempty := hne } hplain hvalues, ?_⟩
    · unfold retimeTrack
      rw [if_neg hvisible, if_neg (by simpa using hne)]
    · rw [if_neg hvisible]

variable {animation : TimelineAnimation} {e : String × BoardTrack}

theorem boardInsertTime_track
    (he : e ∈ animation.tracks.entries) (htype : targetType document e.2.target = some type)
    (h : PlainTrack text type e.2 motion) (at_ length : Rat) (hgap : 0 < Number.round length) :
    ∃ track', (boardInsertTime (timelineCurves text rules cutCurve entityId) document animation at_
        length).tracks.get? e.1 = some track' ∧
      ∀ (rules' : SampleRules) (u : Rat),
        (e.2.property = visibleProperty → 0 ≤ u ∧ StartsAtZeroOrHidden e.2) →
        (u < maximum 0 (Number.round at_) →
          sampleOf text rules' type track' u = sampleOf text rules' type e.2 u) ∧
        (maximum 0 (Number.round at_) + Number.round length ≤ u →
          sampleOf text rules' type track' u =
            sampleOf text rules' type e.2 (u - Number.round length)) := by
  have hnonneg : 0 ≤ maximum 0 (Number.round at_) := le_maximum_left _ _
  unfold boardInsertTime
  dsimp only
  rw [if_neg (not_le.mpr hgap), retime_get? _ _ _ _ he]
  generalize maximum 0 (Number.round at_) = time at hnonneg ⊢
  generalize Number.round length = gap at hgap ⊢
  obtain ⟨first, hfirst⟩ := exists_head h.valid.nonempty
  obtain ⟨first', hfirst', hvalue, hat⟩ := insertedKeyframes_head text rules cutCurve entityId document
    h.valid time gap hfirst
  obtain ⟨hplain, hvalues⟩ := insertedKeyframes_plain rules cutCurve entityId h htype time gap
  have horder := insertedKeyframes_inOrder (timelineCurves text rules cutCurve entityId) document
    h.valid.toInOrder time hgap.le
  obtain ⟨track', htrack', hplain', hkeyframes⟩ := retimeTrack_plain h horder
    (by rintro hnil; rw [hnil] at hfirst'; cases hfirst') hplain fun _ _ _ => hvalues
  refine ⟨track', htrack', fun rules' u hvisible => ?_⟩
  obtain ⟨hbefore, hafter⟩ := valueAt_insertedKeyframes rules cutCurve entityId h htype hgap u
  rw [hplain'.sampleOf_eq, h.sampleOf_eq, h.sampleOf_eq, hkeyframes]
  split
  · -- a visible track is normalized, which does not show
    rename_i hproperty
    obtain ⟨hu, hstarts⟩ := hvisible hproperty
    rw [h.visible_steps hproperty] at hbefore hafter ⊢
    have hnormal : first'.at_ ≤ u ∨ first'.value = .bool false →
        valueAt .steps (normalizeVisible (insertedKeyframes
          (timelineCurves text rules cutCurve entityId) document time gap e.2)) u =
        valueAt .steps (insertedKeyframes
          (timelineCurves text rules cutCurve entityId) document time gap e.2) u :=
      valueAt_normalizeVisible horder hfirst' hu
    have hshown : u < time ∨ time + gap ≤ u → first'.at_ ≤ u ∨ first'.value = .bool false := by
      intro hwhen
      rcases hstarts first hfirst with hzero | hhidden
      · left
        rcases hat with hat | ⟨hat, hle⟩
        · rw [hat, hzero]
          exact hu
        · rcases hwhen with hlt | hge
          · linarith
          · linarith
      · exact .inr (hvalue.trans hhidden)
    exact ⟨fun hlt => (hnormal (hshown (.inl hlt))).trans (hbefore hlt),
      fun hge => (hnormal (hshown (.inr hge))).trans (hafter hge)⟩
  · exact ⟨hbefore, hafter⟩

/-! ### Time taken out -/

variable (rules cutCurve entityId) in
theorem removedKeyframes_plain (h : PlainTrack text type track motion)
    (htype : targetType document track.target = some type) (start end_ : Rat) :
    ∀ k ∈ removedKeyframes (timelineCurves text rules cutCurve entityId) document start end_ track,
      PlainKeyframe (IsNumberParameter type track motion) k := by
  have hplain := h.keyframes_plain
  have hparts : ∀ time, (∀ k ∈ (cutTrack (timelineCurves text rules cutCurve entityId) document
        track time).1, PlainKeyframe (IsNumberParameter type track motion) k) ∧
      ∀ k ∈ (cutTrack (timelineCurves text rules cutCurve entityId) document track time).2,
        PlainKeyframe (IsNumberParameter type track motion) k := by
    intro time
    have hcut : CutParts track.keyframes time (sampleTrack text rules document track time)
        (cutTrack (timelineCurves text rules cutCurve entityId) document track time) :=
      cutTrack_parts h.valid.toInOrder time
    refine hcut.plain hplain fun hnumber => ?_
    obtain ⟨hmotion, hparameter⟩ := hnumber
    have hvalue : CutValue motion track.keyframes time
        (sampleTrack text rules document track time) := h.cutValue htype time
    rw [hmotion] at hvalue
    exact valueAt_number (fun k hk => (hplain k hk).number ⟨hmotion, hparameter⟩) hvalue
  have hafter := shiftKeyframes_plain (hparts end_).2 (-(end_ - start))
  unfold removedKeyframes
  dsimp only
  split
  · intro k hk
    rcases mem_append.mp hk with hk | hk
    · exact (hparts start).1 k hk
    · exact hafter k hk
  · exact join_plain (hparts start).1 hafter

variable {start end_ : Rat}

variable (text rules cutCurve entityId document) in
theorem removedKeyframes_head (h : ValidKeyframes track.keyframes)
    (hlt : start < end_) (hfirst : track.keyframes.head? = some first)
    (hwhere : ∃ k ∈ track.keyframes, k.at_ ≤ start ∨ end_ ≤ k.at_) :
    ∃ first', (removedKeyframes (timelineCurves text rules cutCurve entityId) document start end_
        track).head? = some first' ∧
      ((first'.at_ = first.at_ ∧ first'.value = first.value ∧ first.at_ ≤ start) ∨
        (first'.at_ = start ∧ start < first.at_ ∧ first.at_ < end_) ∨
        (end_ ≤ first.at_ ∧ first'.value = first.value)) := by
  have horder := h.toInOrder
  have hone : CutParts track.keyframes start (sampleTrack text rules document track start)
      (cutTrack (timelineCurves text rules cutCurve entityId) document track start) :=
    cutTrack_parts horder start
  have htwo : CutParts track.keyframes end_ (sampleTrack text rules document track end_)
      (cutTrack (timelineCurves text rules cutCurve entityId) document track end_) :=
    cutTrack_parts horder end_
  rcases le_or_gt first.at_ start with hle | hgt
  · -- the first part starts as the track does
    have hhead := hone.head_first hfirst hle
    refine ⟨first, ?_, .inl ⟨rfl, rfl, hle⟩⟩
    have happend : ∀ later : List BoardKeyframe, ((cutTrack (timelineCurves text rules cutCurve
        entityId) document track start).1 ++ later).head? = some first := by
      intro later
      rw [head?_append, hhead]
      rfl
    unfold removedKeyframes
    dsimp only
    split
    · exact happend _
    · obtain ⟨later, hlater, -⟩ := join_append (cutTrack (timelineCurves text rules cutCurve
        entityId) document track start).1 (shiftKeyframes (cutTrack (timelineCurves text rules
          cutCurve entityId) document track end_).2 (-(end_ - start)))
      rw [hlater]
      exact happend later
  · rcases le_or_gt end_ first.at_ with hle | hmid
    · refine ⟨{ first with at_ := first.at_ + -(end_ - start) }, ?_, .inr (.inr ⟨hle, rfl⟩)⟩
      rw [removedKeyframes_later _ hone htwo rfl rfl hlt fun k hk =>
        hle.trans (horder.head_le hfirst k hk), head?_shiftKeyframes, hfirst]
      rfl
    · -- the track starts in the time taken out
      have hempty : (cutTrack (timelineCurves text rules cutCurve entityId) document track start).1 =
          [] := hone.first_eq_nil fun k hk => lt_of_lt_of_le hgt (horder.head_le hfirst k hk)
      have hne : (cutTrack (timelineCurves text rules cutCurve entityId) document track end_).2 ≠
          [] := by
        obtain ⟨k, hk, hkstart | hkend⟩ := hwhere
        · exact absurd (horder.head_le hfirst k hk) (not_le.mpr (lt_of_le_of_lt hkstart hgt))
        · exact fun hnil => absurd (htwo.second_eq_nil_iff.mp hnil k hk) (not_lt.mpr hkend)
      obtain ⟨x, hx⟩ := exists_head hne
      refine ⟨{ x with at_ := x.at_ + -(end_ - start) }, ?_, .inr (.inl ⟨?_, hgt, hmid⟩)⟩
      · have hkept : removedKeyframes (timelineCurves text rules cutCurve entityId) document start
            end_ track = shiftKeyframes (cutTrack (timelineCurves text rules cutCurve entityId)
              document track end_).2 (-(end_ - start)) := by
          unfold removedKeyframes
          rw [hempty]
          simp only [join_nil_left, nil_append, ite_self]
        rw [hkept, head?_shiftKeyframes, hx]
        rfl
      · have := htwo.head_at hfirst hmid hx
        show x.at_ + -(end_ - start) = start
        linarith

/-- The values of the track are not of several kinds, or it steps by its own
    interpolation: taking keyframes away cannot change how it moves. -/
def KeepsMotionWithout (type : String) (track : BoardTrack) (motion : Motion) : Prop :=
  motion = .steps → track.interpolation ≠ .step → ¬ IsParameter type track

variable {from_ to_ : Rat}

theorem boardRemoveTime_track
    (he : e ∈ animation.tracks.entries) (htype : targetType document e.2.target = some type)
    (h : PlainTrack text type e.2 motion) (hkeeps : KeepsMotionWithout type e.2 motion)
    (hstartEq : start = maximum 0 (Number.round (minimum from_ to_)))
    (hendEq : end_ = Number.round (maximum from_ to_)) (hlt : start < end_)
    (hwhere : ∃ k ∈ e.2.keyframes, k.at_ ≤ start ∨ end_ ≤ k.at_) :
    ∃ track', (boardRemoveTime (timelineCurves text rules cutCurve entityId) document animation
        from_ to_).tracks.get? e.1 = some track' ∧
      ∀ (rules' : SampleRules) (u : Rat),
        (e.2.property = visibleProperty → 0 ≤ u ∧ StartsAtZeroOrHidden e.2) →
        ((∃ k ∈ e.2.keyframes, k.at_ ≤ start) ∨ (∀ k ∈ e.2.keyframes, end_ ≤ k.at_) → u < start →
          sampleOf text rules' type track' u = sampleOf text rules' type e.2 u) ∧
        ((∀ k ∈ e.2.keyframes, k.at_ ≤ start) ∨ ((∃ k ∈ e.2.keyframes, end_ ≤ k.at_) ∧
            (e.2.property = visibleProperty ∨ (∀ k ∈ e.2.keyframes, start < k.at_) ∨
              Settled (timelineCurves text rules cutCurve entityId) document motion e.2 start end_
                u)) → start ≤ u →
          sampleOf text rules' type track' u =
            sampleOf text rules' type e.2 (u + (end_ - start))) := by
  have hstart : 0 ≤ start := hstartEq ▸ le_maximum_left _ _
  have horder := h.valid.toInOrder
  obtain ⟨first, hfirst⟩ := exists_head h.valid.nonempty
  obtain ⟨first', hfirst', hhead⟩ :=
    removedKeyframes_head text rules cutCurve entityId document h.valid hlt hfirst hwhere
  have hsorted : InOrder (removedKeyframes (timelineCurves text rules cutCurve entityId) document
      start end_ e.2) := removedKeyframes_inOrder _ document horder hstart
  obtain ⟨track', htrack', hplain', hkeyframes⟩ := retimeTrack_plain h hsorted
    (by rintro hnil; rw [hnil] at hfirst'; cases hfirst')
    (removedKeyframes_plain rules cutCurve entityId h htype start end_)
    (fun hsteps hinterpolation hparameter => absurd hparameter (hkeeps hsteps hinterpolation))
  refine ⟨track', ?_, fun rules' u hvisible => ?_⟩
  · unfold boardRemoveTime
    dsimp only
    rw [← hstartEq, ← hendEq, if_neg (by linarith), retime_get? _ _ _ _ he, htrack']
  · have hbefore := fun hw (hu : u < start) =>
      valueAt_removedKeyframes_before rules cutCurve entityId h htype hstart hlt hw hu
    have hafter := fun hw (hu : start ≤ u) =>
      valueAt_removedKeyframes_after rules cutCurve entityId h htype hstart hlt hu hw
    rw [hplain'.sampleOf_eq, h.sampleOf_eq, h.sampleOf_eq, hkeyframes]
    split
    · -- a visible track is normalized, which does not show
      rename_i hproperty
      obtain ⟨hu, hstarts⟩ := hvisible hproperty
      have hsteps := h.visible_steps hproperty
      rw [hsteps] at hbefore hafter ⊢
      have hnormal : first'.at_ ≤ u ∨ first'.value = .bool false →
          valueAt .steps (normalizeVisible (removedKeyframes
            (timelineCurves text rules cutCurve entityId) document start end_ e.2)) u =
          valueAt .steps (removedKeyframes
            (timelineCurves text rules cutCurve entityId) document start end_ e.2) u :=
        valueAt_normalizeVisible hsorted hfirst' hu
      have hlater : end_ ≤ first.at_ → first'.value = first.value →
          first'.value = .bool false := by
        intro hle hvalue
        rcases hstarts first hfirst with hzero | hhidden
        · linarith
        · exact hvalue.trans hhidden
      constructor
      · intro hw hustart
        refine (hnormal ?_).trans (hbefore hw hustart)
        rcases hhead with ⟨hat, hvalue, -⟩ | ⟨-, hgt, hmid⟩ | ⟨hle, hvalue⟩
        · rcases hstarts first hfirst with hzero | hhidden
          · exact .inl (by rw [hat, hzero]; exact hu)
          · exact .inr (hvalue.trans hhidden)
        · rcases hw with ⟨k, hk, hkstart⟩ | hall
          · have := horder.head_le hfirst k hk
            linarith
          · have := hall first (mem_of_mem_head? hfirst)
            linarith
        · exact .inr (hlater hle hvalue)
      · intro hw hustart
        refine (hnormal ?_).trans (hafter hw hustart)
        rcases hhead with ⟨hat, -, hle⟩ | ⟨hat, -, -⟩ | ⟨hle, hvalue⟩
        · exact .inl (by rw [hat]; linarith)
        · exact .inl (by rw [hat]; exact hustart)
        · exact .inr (hlater hle hvalue)
    · exact ⟨hbefore, hafter⟩

theorem boardRemoveTime_drops (he : e ∈ animation.tracks.entries) (horder : InOrder e.2.keyframes)
    (hproperty : e.2.property ≠ visibleProperty)
    (hstartEq : start = maximum 0 (Number.round (minimum from_ to_)))
    (hendEq : end_ = Number.round (maximum from_ to_)) (hlt : start < end_)
    (hinside : ∀ k ∈ e.2.keyframes, start < k.at_ ∧ k.at_ < end_) :
    (boardRemoveTime (timelineCurves text rules cutCurve entityId) document animation
      from_ to_).tracks.get? e.1 = none := by
  have hone : CutParts e.2.keyframes start (sampleTrack text rules document e.2 start)
      (cutTrack (timelineCurves text rules cutCurve entityId) document e.2 start) :=
    cutTrack_parts horder start
  have htwo : CutParts e.2.keyframes end_ (sampleTrack text rules document e.2 end_)
      (cutTrack (timelineCurves text rules cutCurve entityId) document e.2 end_) :=
    cutTrack_parts horder end_
  have hnone : removedKeyframes (timelineCurves text rules cutCurve entityId) document start end_
      e.2 = [] := by
    unfold removedKeyframes
    rw [hone.first_eq_nil fun k hk => (hinside k hk).1,
      htwo.second_eq_nil_iff.mpr fun k hk => (hinside k hk).2]
    dsimp only
    rw [if_neg hproperty]
    rfl
  unfold boardRemoveTime
  dsimp only
  rw [← hstartEq, ← hendEq, if_neg (by linarith), retime_get? _ _ _ _ he, retimeTrack,
    if_neg hproperty, if_pos (by rw [hnone]; rfl)]

/-- Time that is put in or taken out of an animation, on every plain track.

    Before time that was put in a track is worth what it was, and from its end
    on what it was without it.  Before time that was taken out a track is worth
    what it was, unless it starts in that time; from then on it is worth what it
    was later, unless it ends in that time, once the seam no longer shows.  A
    visible track is one that starts at zero or hidden. -/
theorem retiming_exact {animation : TimelineAnimation} {e : String × BoardTrack}
    (he : e ∈ animation.tracks.entries) (htype : targetType document e.2.target = some type)
    (h : PlainTrack text type e.2 motion) :
    (∀ at_ length : Rat, 0 < Number.round length →
      ∃ track', (boardInsertTime (timelineCurves text rules cutCurve entityId) document animation
          at_ length).tracks.get? e.1 = some track' ∧
        ∀ (rules' : SampleRules) (u : Rat),
          (e.2.property = visibleProperty → 0 ≤ u ∧ StartsAtZeroOrHidden e.2) →
          (u < maximum 0 (Number.round at_) →
            sampleOf text rules' type track' u = sampleOf text rules' type e.2 u) ∧
          (maximum 0 (Number.round at_) + Number.round length ≤ u →
            sampleOf text rules' type track' u =
              sampleOf text rules' type e.2 (u - Number.round length))) ∧
      ∀ from_ to_ start end_ : Rat, start = maximum 0 (Number.round (minimum from_ to_)) →
        end_ = Number.round (maximum from_ to_) → start < end_ →
        (KeepsMotionWithout type e.2 motion →
          (∃ k ∈ e.2.keyframes, k.at_ ≤ start ∨ end_ ≤ k.at_) →
          ∃ track', (boardRemoveTime (timelineCurves text rules cutCurve entityId) document
              animation from_ to_).tracks.get? e.1 = some track' ∧
            ∀ (rules' : SampleRules) (u : Rat),
              (e.2.property = visibleProperty → 0 ≤ u ∧ StartsAtZeroOrHidden e.2) →
              ((∃ k ∈ e.2.keyframes, k.at_ ≤ start) ∨ (∀ k ∈ e.2.keyframes, end_ ≤ k.at_) →
                u < start →
                sampleOf text rules' type track' u = sampleOf text rules' type e.2 u) ∧
              ((∀ k ∈ e.2.keyframes, k.at_ ≤ start) ∨ ((∃ k ∈ e.2.keyframes, end_ ≤ k.at_) ∧
                  (e.2.property = visibleProperty ∨ (∀ k ∈ e.2.keyframes, start < k.at_) ∨
                    Settled (timelineCurves text rules cutCurve entityId) document motion e.2 start
                      end_ u)) → start ≤ u →
                sampleOf text rules' type track' u =
                  sampleOf text rules' type e.2 (u + (end_ - start)))) ∧
          (e.2.property ≠ visibleProperty → (∀ k ∈ e.2.keyframes, start < k.at_ ∧ k.at_ < end_) →
            (boardRemoveTime (timelineCurves text rules cutCurve entityId) document animation
              from_ to_).tracks.get? e.1 = none) := by
  refine ⟨fun at_ length => boardInsertTime_track he htype h at_ length,
    fun from_ to_ start end_ hstart hend hlt => ⟨fun hkeeps hwhere => ?_, fun hproperty hinside => ?_⟩⟩
  · exact boardRemoveTime_track he htype h hkeeps hstart hend hlt hwhere
  · exact boardRemoveTime_drops he h.valid.toInOrder hproperty hstart hend hlt hinside

end Exact

/-- Numbers that move in a straight line. -/
def straightTrack : BoardTrack := parameterTrack [keyed 0 (.num 0), keyed 100 (.num 100)]

def plainCurves : TrackCurves :=
  timelineCurves allTextRules (plainRules 0) (fun ease _ => (some ease, some ease)) longId

theorem straightTrack_plain : PlainTrack allTextRules "text" straightTrack .number where
  valid := { sorted := by decide +kernel, nonneg := by decide +kernel, nonempty := by decide }
  linear := by
    intro k hk
    rcases mem_cons.mp hk with rfl | hk
    · exact trivial
    · rw [mem_singleton.mp hk]
      exact trivial
  moves := ⟨scriptParameter, rfl, by decide +kernel⟩

/-- Ten milliseconds in the middle of the way are held, and the way goes on. -/
theorem straight_track_retimed : ∃ track',
    (boardInsertTime plainCurves scriptedDocument (scriptedClip straightTrack.keyframes) 50
      10).tracks.get? "size" = some track' ∧
      ∀ u : Rat, 60 ≤ u → sampleOf allTextRules (plainRules 0) "text" track' u =
        sampleOf allTextRules (plainRules 0) "text" straightTrack (u - 10) := by
  have htype : targetType scriptedDocument straightTrack.target = some "text" := by decide +kernel
  have hround : Number.round 10 = 10 ∧ maximum 0 (Number.round 50) = 50 := by decide +kernel
  obtain ⟨track', htrack', hsame⟩ := (@retiming_exact allTextRules (plainRules 0)
    (fun ease _ => (some ease, some ease)) longId scriptedDocument "text" .number
    (scriptedClip straightTrack.keyframes) ("size", straightTrack)
    ((OrderedMap.mem_entries_iff _ _ _).mpr rfl) htype straightTrack_plain).1 50 10 (by decide +kernel)
  refine ⟨track', htrack', fun u hu => ?_⟩
  have := (hsame (plainRules 0) u (fun hvisible => absurd hvisible (by decide))).2
  rw [hround.1, hround.2] at this
  exact this (by linarith)

def parameterAt (rules : SampleRules) (animation : TimelineAnimation) (u : Rat) : Option Json :=
  (animation.tracks.get? "size").bind fun track => sampleOf allTextRules rules "text" track u

def shades : SampleRules :=
  { ease := fun _ progress => progress
    resolveColor := fun color =>
      if color = .str "#000000" then some { color := 0, alpha := 1 }
      else if color = .str "#010101" then some { color := 0x010101, alpha := 1 }
      else if color = .str "#020202" then some { color := 0x020202, alpha := 1 }
      else none }

theorem shades_not_exact :
    let animation := scriptedClip [keyed 0 (.str "#000000"), keyed 100 (.str "#020202")]
    let curves := timelineCurves allTextRules shades (fun ease _ => (some ease, some ease)) longId
    parameterAt shades (boardInsertTime curves scriptedDocument animation 30 10) 20 =
        some (.str "#010101") ∧
      parameterAt shades animation 20 = some (.str "#000000") := by
  intro animation curves
  have hkeyframes : insertedKeyframes curves scriptedDocument (maximum 0 (Number.round 30))
      (Number.round 10) (parameterTrack [keyed 0 (.str "#000000"), keyed 100 (.str "#020202")]) =
      [keyed 0 (.str "#000000"), keyed 30 (.str "#010101"), keyed 40 (.str "#010101"),
        keyed 110 (.str "#020202")] := by decide +kernel
  have htrack : (boardInsertTime curves scriptedDocument animation 30 10).tracks.get? "size" =
      some (parameterTrack [keyed 0 (.str "#000000"), keyed 30 (.str "#010101"),
        keyed 40 (.str "#010101"), keyed 110 (.str "#020202")]) := by
    unfold boardInsertTime
    dsimp only
    rw [if_neg (by decide +kernel)]
    refine (retime_get? animation _ _ _ ((mem_entries_iff _ "size" _).mpr rfl)).trans ?_
    rw [retimeTrack, if_neg (by decide), hkeyframes]
    rfl
  refine ⟨?_, by decide +kernel⟩
  rw [parameterAt, htrack]
  decide +kernel

/-- A clip that shows up late, and until then too. -/
def lateClip : TimelineAnimation :=
  { duration := 1000
    markers := []
    tracks := OrderedMap.ofList [("size", { target := "i", property := "visible"
                                            keyframes := [visibleAt 100 true, visibleAt 200 false]
                                            composite := .replace, interpolation := .step
                                            orient := none })] }

/-- Time that rounds to nothing is not put in, a jump at the seam takes a
    millisecond, a track that ends in the time taken out stops there, values of
    one kind that are left of several move on their own, a visible track hides
    before it first shows, and a color on the way is rounded. -/
theorem retiming_not_exact :
    (parameterAt (plainRules 0) (boardInsertTime plainCurves scriptedDocument
        (scriptedClip straightTrack.keyframes) 0 (2 / 5)) 1 ≠
      parameterAt (plainRules 0) (scriptedClip straightTrack.keyframes) (1 - 2 / 5)) ∧
    (parameterAt (plainRules 0) (boardRemoveTime plainCurves scriptedDocument
        (scriptedClip straightTrack.keyframes) 20 60) 40 ≠
      parameterAt (plainRules 0) (scriptedClip straightTrack.keyframes) (40 + 40)) ∧
    (parameterAt (plainRules 0) (boardRemoveTime plainCurves scriptedDocument
        (scriptedClip straightTrack.keyframes) 50 150) 60 ≠
      parameterAt (plainRules 0) (scriptedClip straightTrack.keyframes) (60 + 100)) ∧
    (parameterAt (plainRules 0) (boardRemoveTime plainCurves scriptedDocument
        (scriptedClip [keyed 0 (.num 1), keyed 100 (.str "auto"), keyed 120 (.num 2),
          keyed 300 (.num 3)]) 50 150) 125 ≠
      parameterAt (plainRules 0) (scriptedClip [keyed 0 (.num 1), keyed 100 (.str "auto"),
          keyed 120 (.num 2), keyed 300 (.num 3)]) (125 + 100)) ∧
    (parameterAt (plainRules 0) (boardInsertTime plainCurves scriptedDocument lateClip 50 10) 10 ≠
      parameterAt (plainRules 0) lateClip 10) ∧
    (parameterAt shades (boardInsertTime (timelineCurves allTextRules shades
          (fun ease _ => (some ease, some ease)) longId) scriptedDocument
        (scriptedClip [keyed 0 (.str "#000000"), keyed 100 (.str "#020202")]) 30 10) 20 ≠
      parameterAt shades
        (scriptedClip [keyed 0 (.str "#000000"), keyed 100 (.str "#020202")]) 20) := by
  refine ⟨?_, ?_, ?_, ?_, ?_, ?_⟩
  · decide +kernel
  · decide +kernel
  · decide +kernel
  · decide +kernel
  · decide +kernel
  · rw [shades_not_exact.1, shades_not_exact.2]
    decide

end Cohub.Timeline
