import Cohub.Board.Release
import Cohub.Board.View

/-! # What a patch writes

    Invariants of the three loops of `writePatch`: the pending values are
    objects under legal ids, and an arrow's end or a track's target is the one
    the patch names or the one that is stored. -/

namespace Cohub.Board

open Json List Option OrderedMap

/-! ## The names a patch uses -/

/-- An arrow's end in this item is bound to `b`. -/
def bindsEnd (item : Json) (b : String) : Prop :=
  ∃ which, boundItem (arrowEnd item which) = some b

def namesTarget (track : Json) (t : String) : Prop :=
  (track.get? "target").bind Json.asString? = some t

/-- The items that the patch binds arrow ends to. -/
def BoardPatch.boundNames (patch : BoardPatch) : List String :=
  patch.items.entries.flatMap fun e =>
    (boundItem (arrowEnd e.2 .start)).toList ++ (boundItem (arrowEnd e.2 .end_)).toList

/-- The targets that the patch gives to tracks. -/
def BoardPatch.targetNames (patch : BoardPatch) : List String :=
  patch.animations.entries.flatMap fun e =>
    match e.2 with
    | .remove => []
    | .write _ tracks =>
        tracks.entries.filterMap fun t => (t.2.get? "target").bind Json.asString?

variable {id b t : String} {value : Json} {patch : BoardPatch} {track item v : Json}

theorem mem_boundNames
    (hvalue : patch.items.get? id = some value) (hb : bindsEnd value b) : b ∈ patch.boundNames := by
  obtain ⟨which, hwhich⟩ := hb
  unfold BoardPatch.boundNames
  refine mem_flatMap.mpr ⟨(id, value), (patch.items.mem_entries_iff id value).mpr hvalue, ?_⟩
  rw [mem_append, mem_toList, mem_toList]
  cases which with
  | start => exact .inl hwhich
  | end_ => exact .inr hwhich

theorem mem_targetNames {a trackId : String} {header : Fields} {tracks : OrderedMap String Json}
    (htracks : patch.animations.get? a = some (.write header tracks))
    (htrack : tracks.get? trackId = some track) (ht : namesTarget track t) :
    t ∈ patch.targetNames := by
  unfold BoardPatch.targetNames
  refine mem_flatMap.mpr ⟨(a, .write header tracks), ?_, ?_⟩
  · exact (patch.animations.mem_entries_iff a _).mpr htracks
  · exact mem_filterMap.mpr ⟨(trackId, track), (tracks.mem_entries_iff _ _).mpr htrack, ht⟩

theorem mem_arrowBindings_iff :
    b ∈ arrowBindings item ↔ itemType item = some "arrow" ∧ bindsEnd item b := mem_arrowBindings

theorem bindsEnd_iff :
    bindsEnd item b ↔ ∃ which : ArrowSide, item.at? ["props", which.name, "item"] = some (.str b) := by
  unfold bindsEnd
  simp only [boundItem_eq_some]

theorem namesTarget_iff :
    namesTarget track t ↔ track.at? ["target"] = some (.str t) := by
  unfold namesTarget
  rw [asString?_eq_some, at?_cons]
  simp

/-! ## Candidates -/

theorem at?_set_ne {w : Json} {k k' : String} (hk : k' ≠ k) (path : List String) :
    (Json.obj (Fields.set v.fields k w)).at? (k' :: path) = v.at? (k' :: path) := by
  rw [at?_cons, at?_cons, get?_obj, Fields.get?_set_ne _ _ hk]
  rfl

theorem arrowBindings_setZ {z : Json}
    (h : b ∈ arrowBindings (.obj (Fields.set v.fields "z" z))) : b ∈ arrowBindings v := by
  rw [mem_arrowBindings_iff, itemType_eq_some, bindsEnd_iff] at h ⊢
  obtain ⟨htype, which, hwhich⟩ := h
  rw [at?_set_ne (by decide)] at htype hwhich
  exact ⟨htype, which, hwhich⟩

theorem bindsEnd_stripId (h : bindsEnd (.obj (stripId value.fields)) b) : bindsEnd value b := by
  rw [bindsEnd_iff] at h ⊢
  obtain ⟨which, hwhich⟩ := h
  refine ⟨which, ?_⟩
  rw [at?_cons, get?_obj] at hwhich
  rw [at?_cons]
  unfold stripId at hwhich
  rw [Fields.get?_erase_ne _ (by decide)] at hwhich
  exact hwhich

theorem arrowBindings_merged {current : Option Json} {body : Json}
    (h : b ∈ arrowBindings (if isReplacing current body then body else mergePatch current body)) :
    bindsEnd body b ∨ ∃ c, current = some c ∧ b ∈ arrowBindings c := by
  by_cases hreplacing : isReplacing current body = true
  · rw [if_pos hreplacing] at h
    exact .inl (mem_arrowBindings_iff.mp h).2
  · rw [if_neg hreplacing] at h
    obtain ⟨htype, which, hwhich⟩ := mem_arrowBindings.mp h
    rcases text_of_mergePatch (boundItem_eq_some.mp hwhich) with hbody | ⟨c, hc, hstored⟩
    · exact .inl ⟨which, boundItem_eq_some.mpr hbody⟩
    · refine Or.inr ⟨c, hc, mem_arrowBindings.mpr ⟨?_, which, boundItem_eq_some.mpr hstored⟩⟩
      -- the stored item is an arrow already, else it would be replaced
      rcases text_of_mergePatch (itemType_eq_some.mp htype) with hbody | ⟨c', hc', hstored'⟩
      · unfold isReplacing at hreplacing
        rw [hc, itemType_eq_some.mpr hbody] at hreplacing
        simpa using hreplacing
      · rw [hc] at hc'
        cases hc'
        exact itemType_eq_some.mpr hstored'

theorem namesTarget_trackCandidate {existing : Option Json}
    (h : namesTarget (trackCandidate existing value) t) :
    namesTarget value t ∨ ∃ c, existing = some c ∧ namesTarget c t := by
  cases existing with
  | none => exact .inl h
  | some track =>
    rcases text_of_mergePatch (namesTarget_iff.mp h) with hvalue | ⟨c, hc, hstored⟩
    · exact .inl (namesTarget_iff.mpr hvalue)
    · exact .inr ⟨c, hc, namesTarget_iff.mpr hstored⟩

section Written

variable (rules : TextRules) (state : BoardState) (options : BoardApplyOptions)

theorem applyItem_cases (acc : ItemPhase) (id : String) (value : Json) :
    (applyItem rules state options acc id value).phase.1 = acc.phase.1 ∨
    (applyItem rules state options acc id value).phase.1 = acc.phase.1.setItem id none ∨
    ∃ parsed, parsed.isRecord = true ∧
      (∀ b ∈ arrowBindings parsed,
        bindsEnd value b ∨ ∃ c, state.item id = some c ∧ b ∈ arrowBindings c) ∧
      (applyItem rules state options acc id value).phase.1 =
        acc.phase.1.setItem id (some parsed) := by
  unfold applyItem
  split
  · split
    · exact .inr (.inl rfl)
    · exact .inl rfl
  · dsimp only
    generalize hmerged : (if isReplacing (state.item id) (.obj (stripId value.fields)) then
      Json.obj (stripId value.fields) else
        mergePatch (state.item id) (.obj (stripId value.fields))) = merged
    generalize hcandidate : (if (merged.get? "z").isNone then _ else merged) = candidate
    have hbindings : ∀ b ∈ arrowBindings candidate,
        bindsEnd value b ∨ ∃ c, state.item id = some c ∧ b ∈ arrowBindings c := by
      intro b hb
      have hb' : b ∈ arrowBindings merged := by
        rw [← hcandidate] at hb
        split at hb
        · exact arrowBindings_setZ hb
        · exact hb
      rw [← hmerged] at hb'
      rcases arrowBindings_merged hb' with hbody | hstored
      · exact .inl (bindsEnd_stripId hbody)
      · exact .inr hstored
    split
    · exact .inl rfl
    · next parsed hparsed =>
      obtain ⟨hrecord, hkept⟩ := parseBoardItem_spec hparsed
      split
      · exact .inl rfl
      · exact .inr (.inr ⟨parsed, hrecord, fun b hb => hbindings b (hkept b hb), rfl⟩)

theorem applyTrack_cases (id : String) (acc : Phase) (trackId : String) (value : Json) :
    (applyTrack rules state options id acc trackId value).1 = acc.1 ∨
    (applyTrack rules state options id acc trackId value).1 = acc.1.setTrack id trackId none ∨
    ∃ parsed, parsed.isRecord = true ∧
      (∀ t, namesTarget parsed t →
        namesTarget value t ∨ ∃ c, state.track id trackId = some c ∧ namesTarget c t) ∧
      (applyTrack rules state options id acc trackId value).1 =
        acc.1.setTrack id trackId (some parsed) := by
  unfold applyTrack
  dsimp only
  split
  · exact .inl rfl
  · split
    · split
      · exact .inr (.inl rfl)
      · exact .inl rfl
    · split
      · exact .inl rfl
      · next parsed hparsed =>
        obtain ⟨hrecord, hkept⟩ := parseTrack_spec hparsed
        split
        · exact .inl rfl
        · exact .inr (.inr ⟨parsed, hrecord,
            fun t ht => namesTarget_trackCandidate (hkept t ht), rfl⟩)

end Written

/-! ## Own names

    A lookup in a document's records by a name that every object has a member
    of finds something even where the document has nothing.  The results below
    are about boards and patches that use no such name for what they refer to. -/

/-- Nothing on the board has a name that every object has a member of. -/
def BoardView.OwnNames (V : BoardView) : Prop :=
  ∀ id, isInherited id = true → V.item id = none ∧ V.animation id = none ∧ V.script id = false

/-- The patch binds no arrow's end to such a name and gives it to no track as
    its target. -/
def BoardPatch.OwnNames (patch : BoardPatch) : Prop :=
  ∀ name ∈ patch.boundNames ++ patch.targetNames, isInherited name = false

instance (patch : BoardPatch) : Decidable patch.OwnNames :=
  inferInstanceAs (Decidable (∀ name ∈ patch.boundNames ++ patch.targetNames, isInherited name = false))

variable {V : BoardView}

theorem BoardView.OwnNames.of_item (h : V.OwnNames)
    (hid : (V.item id).isSome = true) : isInherited id = false := by
  by_contra hinherited
  rw [(h id (by simpa using hinherited)).1] at hid
  cases hid

theorem BoardView.OwnNames.of_hasTarget (h : V.OwnNames)
    (hid : V.HasTarget id) : isInherited id = false := by
  rcases hid with rfl | hitem | hanimation | hscript
  · decide
  · exact h.of_item hitem
  · by_contra hinherited
    rw [(h id (by simpa using hinherited)).2.1] at hanimation
    cases hanimation
  · by_contra hinherited
    rw [(h id (by simpa using hinherited)).2.2] at hscript
    cases hscript

section Document

variable {document : BoardDocument} {v : Json} {t : String}

theorem own_of_readMember {own : Option Json} {name k : String} {w : Json}
    (h : readMember own name = some v) (hw : v.get? k = some w) : own = some v := by
  cases own with
  | some _ => exact h
  | none =>
    simp only [readMember] at h
    split at h
    · cases h
      cases hw
    · cases h

theorem own_of_itemType {id : String} (h : (createDocumentState document).item id = some v)
    (ht : itemType v = some t) : document.view.item id = some v := by
  unfold itemType at ht
  exact own_of_readMember h (asString?_eq_some.mp ht)

variable {a : String}

theorem own_of_namesTarget {s : String} (h : (createDocumentState document).track a t = some v)
    (hs : namesTarget v s) : document.view.track a t = some v := by
  obtain ⟨animation, hanimation, hv⟩ := bind_eq_some_iff.mp h
  have hown := own_of_readMember hv (asString?_eq_some.mp hs)
  show (document.animations.get? a).bind _ = _
  rw [hanimation]
  exact hown

theorem animation_of_track (h : document.view.track a t = some v) :
    (document.view.animation a).isSome = true := by
  obtain ⟨animation, hanimation, -⟩ := bind_eq_some_iff.mp h
  show ((document.animations.get? a).map _).isSome = true
  rw [hanimation]
  rfl

end Document

/-! ## What all loops keep -/

/-- Pending values are objects under legal ids that name what is the board's
    own, and no animation is written over an item. -/
structure Sound (document : BoardDocument) (p : Pending) : Prop where
  itemId : ∀ id v, p.items.get? id = some v → isBoardId id = true
  item : ∀ id v, p.items.get? id = some (some v) →
    v.isRecord = true ∧ ∀ b ∈ arrowBindings v, isInherited b = false
  animationId : ∀ id v, p.animations.get? id = some v → isBoardId id = true
  animation : ∀ id v, p.animations.get? id = some (some v) → document.items.get? id = none
  track : ∀ a t v, p.trackEntry a t = some (some v) →
    v.isRecord = true ∧ isInherited (trackTarget v) = false

namespace Sound

variable {document : BoardDocument} {p : Pending}

theorem empty : Sound document Pending.empty := by
  constructor <;> intros <;> contradiction

theorem setSettings (h : Sound document p) (settings : Option Json) :
    Sound document { p with settings := settings } :=
  ⟨h.itemId, h.item, h.animationId, h.animation, h.track⟩

variable {v : Option Json}

theorem setItem (h : Sound document p) (hid : isBoardId id = true)
    (hv : ∀ w, v = some w → w.isRecord = true ∧ ∀ b ∈ arrowBindings w, isInherited b = false) :
    Sound document (p.setItem id v) := by
  constructor
  · intro id' v' hv'
    rw [Pending.items_setItem, get?_set] at hv'
    split at hv'
    · next heq => rw [heq]; exact hid
    · exact h.itemId id' v' hv'
  · intro id' v' hv'
    rw [Pending.items_setItem, get?_set] at hv'
    split at hv'
    · cases hv'; exact hv v' rfl
    · exact h.item id' v' hv'
  · exact h.animationId
  · exact h.animation
  · exact h.track

theorem setAnimation (h : Sound document p)
    (hid : isBoardId id = true) (hv : v.isSome = true → document.items.get? id = none) :
    Sound document (p.setAnimation id v) := by
  constructor
  · exact h.itemId
  · exact h.item
  · intro id' v' hv'
    have hset : (p.animations.set id v).get? id' = some v' := hv'
    rw [get?_set] at hset
    split at hset
    · next heq => rw [heq]; exact hid
    · exact h.animationId id' v' hset
  · intro id' v' hv'
    have hset : (p.animations.set id v).get? id' = some (some v') := hv'
    rw [get?_set] at hset
    split at hset
    · next heq =>
      cases hset
      rw [heq]
      exact hv rfl
    · exact h.animation id' v' hset
  · exact h.track

theorem setTrack (h : Sound document p) (a t : String)
    (hv : ∀ w, v = some w → w.isRecord = true ∧ isInherited (trackTarget w) = false) :
    Sound document (p.setTrack a t v) := by
  constructor
  · exact h.itemId
  · exact h.item
  · exact h.animationId
  · exact h.animation
  · intro a' t' v' hv'
    rw [Pending.trackEntry_setTrack] at hv'
    split at hv'
    · cases hv'; exact hv v' rfl
    · exact h.track a' t' v' hv'

end Sound

section Loops

variable {rules : TextRules} {document : BoardDocument} {options : BoardApplyOptions}
  {patch : BoardPatch}

theorem sound_applySettings (board : Option Json) :
    Sound document (applySettings rules (createDocumentState document) options board).1 := by
  unfold applySettings
  split
  · exact Sound.empty
  · dsimp only
    split
    · exact Sound.empty.setSettings _
    · exact Sound.empty

variable {id : String}

theorem sound_applyItem (hwf : document.view.WellFormed) (hown : document.view.OwnNames)
    (hpatch : patch.OwnNames) (hid : isBoardId id = true)
    (hvalue : patch.items.get? id = some value) {acc : ItemPhase} (h : Sound document acc.phase.1) :
    Sound document
      (applyItem rules (createDocumentState document) options acc id value).phase.1 := by
  rcases applyItem_cases rules (createDocumentState document) options acc id value with
    heq | heq | ⟨parsed, hrecord, hbindings, heq⟩
  · rw [heq]
    exact h
  · rw [heq]
    exact h.setItem hid (by simp)
  · rw [heq]
    apply h.setItem hid
    intro w hw
    cases hw
    refine ⟨hrecord, ?_⟩
    intro b hb
    rcases hbindings b hb with hnamed | ⟨c, hc, hstored⟩
    · exact hpatch b (mem_append_left _ (mem_boundNames hvalue hnamed))
    · have hitem := own_of_itemType hc (mem_arrowBindings.mp hstored).1
      obtain ⟨-, target, htarget, -⟩ := hwf.binding id c b hitem hstored
      exact hown.of_item (by rw [htarget]; rfl)

theorem trackTarget_eq {track : Json} {t : String} (h : namesTarget track t) :
    trackTarget track = t := by
  unfold trackTarget
  rw [show (track.get? "target").bind asString? = some t from h]
  rfl

variable {acc : Phase}

theorem sound_applyTrack (hwf : document.view.WellFormed) (hown : document.view.OwnNames)
    (hpatch : patch.OwnNames) {trackId : String} {header : Fields} {tracks : OrderedMap String Json}
    (htracks : patch.animations.get? id = some (.write header tracks))
    (hvalue : tracks.get? trackId = some value) (h : Sound document acc.1) :
    Sound document
      (applyTrack rules (createDocumentState document) options id acc trackId value).1 := by
  rcases applyTrack_cases rules (createDocumentState document) options id acc trackId value with
    heq | heq | ⟨parsed, hrecord, htargets, heq⟩
  · rw [heq]
    exact h
  · rw [heq]
    exact h.setTrack id trackId (by simp)
  · rw [heq]
    apply h.setTrack id trackId
    intro w hw
    cases hw
    refine ⟨hrecord, ?_⟩
    cases htarget : (parsed.get? "target").bind asString? with
    | none =>
      unfold trackTarget
      rw [htarget]
      decide
    | some t =>
      rw [trackTarget_eq htarget]
      rcases htargets t htarget with hnamed | ⟨c, hc, hstored⟩
      · exact hpatch t (mem_append_right _ (mem_targetNames htracks hvalue hnamed))
      · have htrack := own_of_namesTarget hc hstored
        have htarget := hwf.target id trackId c (animation_of_track htrack) htrack
        rw [trackTarget_eq hstored] at htarget
        exact hown.of_hasTarget htarget

theorem sound_applyAnimation (hwf : document.view.WellFormed) (hown : document.view.OwnNames)
    (hpatch : patch.OwnNames) {value : AnimationPatch} (hid : isBoardId id = true)
    (hvalue : patch.animations.get? id = some value) (h : Sound document acc.1) :
    Sound document
      (applyAnimation rules (createDocumentState document) options acc id value).1 := by
  unfold applyAnimation
  split
  · split
    · dsimp only
      apply foldlRecOn _ _ (h.setAnimation hid (by simp))
      intro p hp trackId _
      exact hp.setTrack id trackId (by simp)
    · exact h
  · next fields tracks =>
    dsimp only
    have hwrite : ∀ acc : Phase, Sound document acc.1 → Sound document (tracks.entries.foldl
        (fun acc e => applyTrack rules (createDocumentState document) options id acc e.1 e.2) acc).1 := by
      intro acc hacc
      refine foldlRecOn (motive := fun (acc : Phase) => Sound document acc.1) _ _ hacc ?_
      intro acc hacc e he
      exact sound_applyTrack hwf hown hpatch hvalue ((tracks.mem_entries_iff e.1 e.2).mp he) hacc
    split
    · exact h
    · next hfree =>
      have hitem : document.items.get? id = none := by
        cases hget : document.items.get? id with
        | none => rfl
        | some v =>
          have hstate : (createDocumentState document).item id = some v := by
            show readMember (document.items.get? id) id = some v
            rw [hget]
            rfl
          rw [hstate] at hfree
          simp at hfree
      split
      · split
        · exact h
        · next parsed _ =>
          split
          · exact hwrite acc h
          · exact hwrite _ (h.setAnimation hid fun _ => hitem)
      · exact hwrite acc h

theorem isBoardId_of_keyIssue {path : List Segment} {key : String}
    (h : keyIssue boardIdChecks path key = []) : isBoardId key = true := by
  unfold keyIssue at h
  split at h
  · next hempty => exact isBoardId_of_stringIssues (List.isEmpty_iff.mp hempty)
  · cases h

theorem legal_of_patchIssues (h : patchIssues patch = []) :
    (∀ id v, patch.items.get? id = some v → isBoardId id = true) ∧
      ∀ id v, patch.animations.get? id = some v → isBoardId id = true := by
  unfold patchIssues at h
  simp only [append_eq_nil_iff, flatMap_eq_nil_iff] at h
  obtain ⟨⟨-, hitems⟩, hanimations⟩ := h
  constructor
  · intro id v hv
    exact isBoardId_of_keyIssue (hitems (id, v) ((patch.items.mem_entries_iff id v).mpr hv)).1
  · intro id v hv
    exact isBoardId_of_keyIssue
      (hanimations (id, v) ((patch.animations.mem_entries_iff id v).mpr hv)).1

theorem sound_writePatch (rules : TextRules) (options : BoardApplyOptions)
    (hwf : document.view.WellFormed) (hown : document.view.OwnNames)
    (hpatch : patch.OwnNames) (hissues : patchIssues patch = []) :
    Sound document (writePatch rules (createDocumentState document) options patch).1 := by
  obtain ⟨hitemId, hanimationId⟩ := legal_of_patchIssues hissues
  unfold writePatch
  dsimp only
  refine foldlRecOn (motive := fun (acc : Phase) => Sound document acc.1) _ _ ?_ ?_
  · refine foldlRecOn (motive := fun (acc : ItemPhase) => Sound document acc.phase.1) _ _ ?_ ?_
    · exact sound_applySettings patch.board
    · intro acc hacc e he
      have hvalue := (patch.items.mem_entries_iff e.1 e.2).mp he
      exact sound_applyItem hwf hown hpatch (hitemId e.1 e.2 hvalue) hvalue hacc
  · intro acc hacc e he
    have hvalue := (patch.animations.mem_entries_iff e.1 e.2).mp he
    exact sound_applyAnimation hwf hown hpatch (hanimationId e.1 e.2 hvalue) hvalue hacc

end Loops

/-! ## Ids used once -/

theorem unique_of_idConflicts {state : BoardState} {p : Pending} (h : idConflicts state p = []) :
    (∀ id v, p.items.get? id = some (some v) → p.animation state id = none) ∧
      ∀ id, p.script state id = true → p.item state id = none ∧ p.animation state id = none := by
  unfold idConflicts at h
  rw [append_eq_nil_iff, flatMap_eq_nil_iff, flatMap_eq_nil_iff] at h
  obtain ⟨hitems, hscripts⟩ := h
  constructor
  · intro id v hv
    have hentry := hitems (id, some v) ((p.items.mem_entries_iff id (some v)).mpr hv)
    cases hanimation : p.animation state id with
    | none => rfl
    | some header =>
      rw [hanimation] at hentry
      cases hentry
  · intro id hscript
    obtain ⟨v, hv⟩ := isSome_iff_exists.mp hscript
    have hentry := hscripts (id, v) (mem_of_lookupEntry hv)
    dsimp only at hentry
    cases htaken : takenBy state p id with
    | none =>
      unfold takenBy at htaken
      split at htaken
      · cases htaken
      · next hitem =>
        split at htaken
        · cases htaken
        · next hanimation =>
          exact ⟨by simpa using hitem, by simpa using hanimation⟩
    | some taken =>
      rw [htaken] at hentry
      dsimp only at hentry
      split at hentry
      · cases hentry
      · split at hentry <;> cases hentry

end Cohub.Board
