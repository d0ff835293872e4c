import Cohub.Board.Written

/-! # Patches keep boards well-formed

    `applyBoardPatch` looks at what the patch touched only.  The rest of the
    board stays well-formed because the deletion loops leave nothing that
    refers to what is gone (`Released`), because an item that changed its type
    has everything around it checked again, and because what is below a moved
    item is checked with it. -/

namespace Cohub.Board

open List Option OrderedMap

/-! ## An accepted patch -/

/-- The pending values of an accepted patch: `written` before the deletion
    loops, `p` after them, with no error found in `p`. -/
structure Accepted (rules : TextRules) (document : BoardDocument) (options : BoardApplyOptions)
    (written p : Pending) : Prop where
  sound : Sound document written
  noItem : ∀ id v, written.items.get? id = some (some v) →
    written.animation (createDocumentState document) id = none
  noScript : ∀ id, written.script (createDocumentState document) id = true →
    written.item (createDocumentState document) id = none ∧
      written.animation (createDocumentState document) id = none
  released : Released (createDocumentState document) written p
  items : itemErrors (createDocumentState document) p = []
  retyped : retypedErrors rules (createDocumentState document) options p = []
  tracks : trackErrors rules (createDocumentState document) options p = []

/-! ### The lookups of a document -/

section Lookups

variable {document : BoardDocument} {p : Pending} {id t a : String} {v : Json}

theorem item_of_view (h : (p.view document).item id = some v) :
    p.item (createDocumentState document) id = some v := by
  have hview : (p.items.get? id).getD (document.items.get? id) = some v := h
  unfold Pending.item
  cases hentry : p.items.get? id with
  | some value =>
    rw [hentry] at hview
    exact hview
  | none =>
    rw [hentry] at hview
    show readMember (document.items.get? id) id = some v
    rw [show document.items.get? id = some v from hview]
    rfl

theorem view_item (hid : isInherited id = false) :
    (p.view document).item id = p.item (createDocumentState document) id := by
  unfold Pending.item
  show (p.items.get? id).getD (document.items.get? id) = _
  cases p.items.get? id with
  | some value => rfl
  | none => exact (readMember_eq_own hid).symm

theorem view_of_itemType (h : p.item (createDocumentState document) id = some v)
    (ht : itemType v = some t) : (p.view document).item id = some v := by
  show (p.items.get? id).getD (document.items.get? id) = some v
  cases hentry : p.items.get? id with
  | some value =>
    rw [Pending.item_of_entry hentry] at h
    exact h
  | none =>
    rw [Pending.item_of_none hentry] at h
    exact own_of_itemType h ht

theorem animation_of_view (h : ((p.view document).animation id).isSome = true) :
    (p.animation (createDocumentState document) id).isSome = true := by
  have hview : ((p.animations.get? id).getD
    ((document.animations.get? id).map BoardAnimation.header)).isSome = true := h
  unfold Pending.animation
  cases hentry : p.animations.get? id with
  | some value =>
    rw [hentry] at hview
    exact hview
  | none =>
    rw [hentry] at hview
    show (documentAnimation document id).isSome = true
    unfold documentAnimation
    cases hanimation : document.animations.get? id with
    | some animation => rfl
    | none =>
      rw [hanimation] at hview
      cases hview

theorem view_animation (hid : isInherited id = false) :
    (p.view document).animation id = p.animation (createDocumentState document) id := by
  unfold Pending.animation
  show (p.animations.get? id).getD ((document.animations.get? id).map BoardAnimation.header) = _
  cases p.animations.get? id with
  | some value => rfl
  | none =>
    show _ = documentAnimation document id
    unfold documentAnimation
    cases document.animations.get? id with
    | some animation => rfl
    | none => simp [hid]

theorem view_track_cases (h : (p.view document).track a t = some v) :
    p.trackEntry a t = some (some v) ∨
      (p.trackEntry a t = none ∧ document.view.track a t = some v) := by
  have hview : (if ((p.animations.get? a).getD
      ((document.animations.get? a).map BoardAnimation.header)).isSome then
        (p.trackEntry a t).getD (document.view.track a t) else none) = some v := h
  split at hview
  · cases hentry : p.trackEntry a t with
    | some value =>
      rw [hentry] at hview
      exact .inl (by rw [← hview]; rfl)
    | none =>
      rw [hentry] at hview
      exact .inr ⟨rfl, hview⟩
  · cases hview

theorem track_of_stored (h : document.view.track a t = some v) :
    (createDocumentState document).track a t = some v := by
  obtain ⟨animation, hanimation, hv⟩ := bind_eq_some_iff.mp h
  show (document.animations.get? a).bind _ = some v
  rw [hanimation, bind_some, hv]
  rfl

theorem track_of_view (h : (p.view document).track a t = some v) :
    p.track (createDocumentState document) a t = some v := by
  rcases view_track_cases h with hentry | ⟨hentry, hstored⟩
  · exact Pending.track_of_entry hentry
  · rw [Pending.track_of_none hentry]
    exact track_of_stored hstored

variable {child : String} {item : Json}

theorem mem_children
    (hitem : document.items.get? child = some item) (hparent : itemParent item = some id)
    (hid : id ≠ "") : child ∈ (createDocumentState document).children id := by
  show child ∈ documentChildren document id
  unfold documentChildren
  refine List.mem_map.mpr ⟨(child, item), mem_filter.mpr ⟨?_, ?_⟩, rfl⟩
  · exact (document.items.mem_entries_iff child item).mpr hitem
  · simp [hid, hparent]

theorem children_stored
    (h : child ∈ (createDocumentState document).children id) : child ∈ document.items.keys := by
  obtain ⟨e, he, rfl⟩ := List.mem_map.mp h
  exact List.mem_map_of_mem (mem_of_mem_filter he)

theorem mem_binders {arrow : String} (hitem : document.items.get? arrow = some item)
    (hbound : id ∈ arrowBindings item) : arrow ∈ (createDocumentState document).binders id := by
  show arrow ∈ documentBinders document id
  unfold documentBinders
  refine List.mem_map.mpr ⟨(arrow, item), mem_filter.mpr ⟨?_, ?_⟩, rfl⟩
  · exact (document.items.mem_entries_iff arrow item).mpr hitem
  · simpa using hbound

theorem mem_trackRefs {track : Json}
    (htrack : document.view.track a t = some track) (hrefers : id ∈ trackReferences track) :
    { animation := a, track := t } ∈ (createDocumentState document).trackRefs id := by
  obtain ⟨animation, hanimation, hv⟩ := bind_eq_some_iff.mp htrack
  show _ ∈ documentTrackRefs document id
  unfold documentTrackRefs
  refine mem_flatMap.mpr ⟨(a, animation), ?_, ?_⟩
  · exact (document.animations.mem_entries_iff a animation).mpr hanimation
  · refine List.mem_map.mpr ⟨(t, track), mem_filter.mpr ⟨?_, ?_⟩, rfl⟩
    · exact (animation.tracks.mem_entries_iff t track).mpr hv
    · simpa using hrefers

end Lookups

/-! ## What the checks say -/

section Checks

variable {rules : TextRules} {state : BoardState} {options : BoardApplyOptions} {p : Pending}
  {id : String} {v : Json}

theorem errors_of_pending (h : itemErrors state p = []) (hv : p.items.get? id = some (some v)) :
    parentErrors state p id v = [] ∧ bindingErrors state p id v = [] := by
  unfold itemErrors at h
  rw [flatMap_eq_nil_iff] at h
  have hmem : (id, some v) ∈ validationItems state p :=
    mem_append_left _ ((p.items.mem_entries_iff id (some v)).mpr hv)
  have hnil := h (id, some v) hmem
  exact append_eq_nil_iff.mp hnil

theorem errors_of_descendant (h : itemErrors state p = [])
    (hid : id ∈ movedDescendants state p) (hentry : p.items.get? id = none)
    (hv : p.item state id = some v) : parentErrors state p id v = [] := by
  unfold itemErrors at h
  rw [flatMap_eq_nil_iff] at h
  have hmem : (id, some v) ∈ validationItems state p := by
    apply mem_append_right
    refine List.mem_map.mpr ⟨id, mem_filter.mpr ⟨hid, by rw [hentry]; rfl⟩, ?_⟩
    rw [hv]
  have hnil := h (id, some v) hmem
  exact (append_eq_nil_iff.mp hnil).1

theorem parent_of_no_errors {q : String} (h : parentErrors state p id v = [])
    (hq : itemParent v = some q) :
    ∃ frame, p.item state q = some frame ∧ itemType frame = some "frame" ∧
      parentChainErrors state p id maxParentDepth (some q) = [] := by
  unfold parentErrors at h
  rw [hq] at h
  dsimp only at h
  split at h
  · cases h
  · next frame hframe =>
    split at h
    · cases h
    · next htype => exact ⟨frame, hframe, by simpa using htype, h⟩

theorem binding_of_no_errors {b : String} (h : bindingErrors state p id v = [])
    (hb : b ∈ arrowBindings v) :
    b ≠ id ∧ ∃ target, p.item state b = some target ∧ itemType target ≠ some "arrow" := by
  unfold bindingErrors at h
  rw [flatMap_eq_nil_iff] at h
  have hnil := h b hb
  split at hnil
  · cases hnil
  · next target htarget =>
    split at hnil
    · cases hnil
    · next hok =>
      rw [not_or] at hok
      exact ⟨hok.1, target, htarget, hok.2⟩

theorem retyped_of_no_errors (h : retypedErrors rules state options p = [])
    {stored : Json} (hv : p.items.get? id = some (some v)) (hstored : state.item id = some stored)
    (hne : itemType stored ≠ itemType v) :
    (itemType v ≠ some "frame" → ∀ child ∈ state.children id,
      (p.item state child).bind itemParent ≠ some id) ∧
    (itemType v = some "arrow" → ∀ binder ∈ state.binders id, ∀ arrow,
      p.item state binder = some arrow → id ∉ arrowBindings arrow) := by
  unfold retypedErrors at h
  rw [flatMap_eq_nil_iff] at h
  have hnil := h (id, some v) ((p.items.mem_entries_iff id (some v)).mpr hv)
  rw [hstored] at hnil
  dsimp only at hnil
  rw [if_neg hne] at hnil
  unfold retypeErrors at hnil
  rw [append_eq_nil_iff, append_eq_nil_iff] at hnil
  obtain ⟨⟨hchildren, hbinders⟩, -⟩ := hnil
  constructor
  · intro htype child hchild hparent
    rw [if_pos (by simpa using htype), flatMap_eq_nil_iff] at hchildren
    have hchildNil := hchildren child hchild
    rw [if_pos hparent] at hchildNil
    cases hchildNil
  · intro htype binder hbinder arrow harrow hmem
    rw [if_pos htype, flatMap_eq_nil_iff] at hbinders
    have hbinderNil := hbinders binder hbinder
    rw [harrow] at hbinderNil
    dsimp only at hbinderNil
    rw [if_pos (by simpa using hmem)] at hbinderNil
    cases hbinderNil

variable {a : String}

theorem track_of_no_errors (h : trackErrors rules state options p = []) {t : String}
    (hv : p.trackEntry a t = some (some v)) (ha : (p.animation state a).isSome = true) :
    ∃ path stored, validateTrack rules state p path a v stored = [] := by
  obtain ⟨tracks, htracks, ht⟩ := bind_eq_some_iff.mp hv
  unfold trackErrors at h
  rw [flatMap_eq_nil_iff] at h
  have hnil := h (a, tracks) ((p.tracks.mem_entries_iff a tracks).mpr htracks)
  rw [flatMap_eq_nil_iff] at hnil
  have htrackNil := hnil (t, some v) ((tracks.mem_entries_iff t (some v)).mpr ht)
  dsimp only at htrackNil
  rw [if_neg (by simpa using isSome_iff_ne_none.mp ha)] at htrackNil
  exact ⟨_, _, htrackNil⟩

theorem target_of_no_errors {path : String} {stored : Bool}
    (h : validateTrack rules state p path a v stored = []) :
    targetCycle state p a (trackTarget v) = false ∧
      (targetType state p (trackTarget v)).isSome = true := by
  unfold validateTrack at h
  dsimp only at h
  split at h
  · cases h
  · next hcycle =>
    refine ⟨by simpa using hcycle, ?_⟩
    split at h
    · cases h
    · next type htype => rw [htype]; rfl

end Checks

/-! ## The board after the patch -/

namespace Accepted

variable {rules : TextRules} {document : BoardDocument} {options : BoardApplyOptions}
  {written p : Pending}

theorem proper (h : Accepted rules document options written p) : p.Proper := by
  constructor
  · intro id v hv
    rcases h.released.evolves.item id with hsame | hnone | ⟨w, w', -, hw', hunbound⟩
    · rw [hsame] at hv
      exact (h.sound.item id v hv).1
    · rw [hv] at hnone
      cases hnone
    · rw [hv] at hw'
      cases hw'
      exact hunbound.isRecord
  · intro a t v hv
    rcases h.released.evolves.track a t with hsame | hnone | ⟨w, w', -, hw', hpruned⟩
    · rw [hsame] at hv
      exact (h.sound.track a t v hv).1
    · rw [hv] at hnone
      cases hnone
    · rw [hv] at hw'
      cases hw'
      exact hpruned.isRecord

variable {id : String}

section

variable (h : Accepted rules document options written p)
include h

theorem item_origin {v : Json} (hv : (p.view document).item id = some v) :
    (∃ w, written.items.get? id = some (some w)) ∨ (document.view.item id).isSome = true := by
  have hview : (p.items.get? id).getD (document.items.get? id) = some v := hv
  rcases h.released.evolves.item id with hsame | hnone | ⟨w, w', hw, -, hunbound⟩
  · rw [hsame] at hview
    cases hentry : written.items.get? id with
    | some value =>
      rw [hentry] at hview
      exact .inl ⟨v, by rw [← hview]; rfl⟩
    | none =>
      rw [hentry] at hview
      exact .inr (by rw [show document.view.item id = some v from hview]; rfl)
  · rw [hnone] at hview
    cases hview
  · -- an unbound arrow
    cases hentry : written.items.get? id with
    | some value =>
      rw [Pending.item_of_entry hentry] at hw
      exact .inl ⟨w, by rw [hw]⟩
    | none =>
      rw [Pending.item_of_none hentry] at hw
      exact .inr (by rw [own_of_itemType hw hunbound.arrow]; rfl)

theorem animations_eq :
    p.animations = written.animations := h.released.evolves.animations

theorem animation_eq (id : String) :
    p.animation (createDocumentState document) id =
      written.animation (createDocumentState document) id := by
  unfold Pending.animation
  rw [h.animations_eq]

theorem animation_origin (hid : ((p.view document).animation id).isSome = true) :
    (∃ header, written.animations.get? id = some (some header)) ∨
      (document.view.animation id).isSome = true := by
  have hview : ((p.animations.get? id).getD (document.view.animation id)).isSome = true := hid
  rw [h.animations_eq] at hview
  cases hentry : written.animations.get? id with
  | none =>
    rw [hentry] at hview
    exact .inr hview
  | some value =>
    rw [hentry] at hview
    obtain ⟨header, hheader⟩ := isSome_iff_exists.mp hview
    exact .inl ⟨header, by rw [← hheader]; rfl⟩

/-! ### Ids -/

end

section Ids

variable (h : Accepted rules document options written p) (hwf : document.view.WellFormed)
include h

include hwf in
theorem legal (id : String) (hid : ((p.view document).item id).isSome = true ∨
    ((p.view document).animation id).isSome = true) : isBoardId id = true := by
  rcases hid with hitem | hanimation
  · obtain ⟨v, hv⟩ := isSome_iff_exists.mp hitem
    rcases h.item_origin hv with ⟨w, hw⟩ | hstored
    · exact h.sound.itemId id _ hw
    · exact hwf.legal id (.inl hstored)
  · rcases h.animation_origin hanimation with ⟨header, hheader⟩ | hstored
    · exact h.sound.animationId id _ hheader
    · exact hwf.legal id (.inr hstored)

include hwf in
theorem itemOrAnimation (id : String) : ¬ (((p.view document).item id).isSome = true ∧
    ((p.view document).animation id).isSome = true) := by
  intro ⟨hitem, hanimation⟩
  obtain ⟨v, hv⟩ := isSome_iff_exists.mp hitem
  rcases h.item_origin hv with ⟨w, hw⟩ | hstored
  · have hfound := animation_of_view hanimation
    rw [h.animation_eq, h.noItem id w hw] at hfound
    cases hfound
  · rcases h.animation_origin hanimation with ⟨header, hheader⟩ | hstored'
    · have hnone : document.view.item id = none := h.sound.animation id header hheader
      rw [hnone] at hstored
      cases hstored
    · exact hwf.itemOrAnimation id ⟨hstored, hstored'⟩

theorem itemOrScript (id : String) : ¬ (((p.view document).item id).isSome = true ∧
    (p.view document).script id = true) := by
  intro ⟨hitem, hscript⟩
  obtain ⟨v, hv⟩ := isSome_iff_exists.mp hitem
  have hscript' : p.script (createDocumentState document) id = true := hscript
  rw [h.released.evolves.script] at hscript'
  obtain ⟨w, hw, -⟩ := h.released.evolves.item_found (item_of_view hv)
  rw [(h.noScript id hscript').1] at hw
  cases hw

theorem animationOrScript (id : String) : ¬ (((p.view document).animation id).isSome = true ∧
    (p.view document).script id = true) := by
  intro ⟨hanimation, hscript⟩
  have hscript' : p.script (createDocumentState document) id = true := hscript
  rw [h.released.evolves.script] at hscript'
  have hfound := animation_of_view hanimation
  rw [h.animation_eq, (h.noScript id hscript').2] at hfound
  cases hfound

end Ids

/-! ### Names -/

section Names

variable (h : Accepted rules document options written p) (hwf : document.view.WellFormed)
  (hown : document.view.OwnNames)
include h hwf hown

variable {v : Json}

theorem binding_own {id b : String} (hv : p.item (createDocumentState document) id = some v)
    (hb : b ∈ arrowBindings v) : isInherited b = false := by
  obtain ⟨w, hw, hcase⟩ := h.released.evolves.item_found hv
  have hbw : b ∈ arrowBindings w := by
    rcases hcase with rfl | hunbound
    · exact hb
    · exact hunbound.bindings b hb
  cases hentry : written.items.get? id with
  | some value =>
    rw [Pending.item_of_entry hentry] at hw
    rw [hw] at hentry
    exact (h.sound.item id w hentry).2 b hbw
  | none =>
    rw [Pending.item_of_none hentry] at hw
    have hstored := own_of_itemType hw (mem_arrowBindings.mp hbw).1
    obtain ⟨-, target, htarget, -⟩ := hwf.binding id w b hstored hbw
    exact hown.of_item (by rw [htarget]; rfl)

theorem target_own {a t : String} (hv : p.track (createDocumentState document) a t = some v) :
    isInherited (trackTarget v) = false := by
  obtain ⟨w, hw, hcase⟩ := h.released.evolves.track_found hv
  have htarget : trackTarget v = trackTarget w := by
    rcases hcase with rfl | hpruned
    · rfl
    · exact hpruned.target
  rw [htarget]
  cases hentry : written.trackEntry a t with
  | some value =>
    rw [Pending.track_of_entry hentry] at hw
    rw [hw] at hentry
    exact (h.sound.track a t w hentry).2
  | none =>
    rw [Pending.track_of_none hentry] at hw
    cases hnamed : (w.get? "target").bind Json.asString? with
    | none =>
      unfold trackTarget
      rw [hnamed]
      decide
    | some s =>
      have hstored := own_of_namesTarget hw hnamed
      exact hown.of_hasTarget (hwf.target a t w (animation_of_track hstored) hstored)

end Names

/-! ### Parents and arrows -/

theorem ne_empty_of_item (hwf : document.view.WellFormed) {q : String}
    (hq : (document.view.item q).isSome = true) : q ≠ "" := by
  intro heq
  have hlegal := hwf.legal q (.inl hq)
  rw [heq] at hlegal
  exact absurd hlegal (by decide)

section Items

variable (h : Accepted rules document options written p) (hwf : document.view.WellFormed)
include h hwf

theorem parent (id : String) (item : Json) (q : String)
    (hitem : (p.view document).item id = some item) (hq : itemParent item = some q) :
    ∃ frame, (p.view document).item q = some frame ∧ itemType frame = some "frame" := by
  have hview : (p.items.get? id).getD (document.items.get? id) = some item := hitem
  cases hentry : p.items.get? id with
  | some value =>
    rw [hentry] at hview
    cases (show value = some item from hview)
    obtain ⟨frame, hframe, htype, -⟩ :=
      parent_of_no_errors (errors_of_pending h.items hentry).1 hq
    exact ⟨frame, view_of_itemType hframe htype, htype⟩
  | none =>
    rw [hentry] at hview
    obtain ⟨frame, hframe, htype⟩ := hwf.parent id item q hview hq
    have hqne : q ≠ "" := ne_empty_of_item hwf (by rw [hframe]; rfl)
    have hchild := mem_children hview hq hqne
    have hfound : p.item (createDocumentState document) id = some item := item_of_view hitem
    show ∃ frame, (p.items.get? q).getD (document.items.get? q) = some frame ∧ _
    cases hentryq : p.items.get? q with
    | none => exact ⟨frame, hframe, htype⟩
    | some value =>
      cases value with
      | none =>
        -- the parent is gone, so the child was written
        obtain ⟨value, hvalue, -⟩ := (h.released.items q hentryq).children id hchild
        rw [hentry] at hvalue
        cases hvalue
      | some v =>
        refine ⟨v, rfl, ?_⟩
        by_contra hnot
        have hstored : (createDocumentState document).item q = some frame := by
          show readMember (document.items.get? q) q = some frame
          rw [show document.items.get? q = some frame from hframe]
          rfl
        have hne : itemType frame ≠ itemType v := by
          rw [htype]
          exact fun heq => hnot heq.symm
        apply (retyped_of_no_errors h.retyped hentryq hstored hne).1 hnot id hchild
        rw [hfound]
        exact hq

theorem binding (hown : document.view.OwnNames) (id : String) (arrow : Json) (b : String)
    (hitem : (p.view document).item id = some arrow) (hb : b ∈ arrowBindings arrow) :
    b ≠ id ∧ ∃ target, (p.view document).item b = some target ∧
      itemType target ≠ some "arrow" := by
  have hfound : p.item (createDocumentState document) id = some arrow := item_of_view hitem
  have hview : (p.items.get? id).getD (document.items.get? id) = some arrow := hitem
  cases hentry : p.items.get? id with
  | some value =>
    rw [hentry] at hview
    cases (show value = some arrow from hview)
    rw [view_item (h.binding_own hwf hown hfound hb)]
    exact binding_of_no_errors (errors_of_pending h.items hentry).2 hb
  | none =>
    rw [hentry] at hview
    obtain ⟨hne, target, htarget, htype⟩ := hwf.binding id arrow b hview hb
    have hbinder := mem_binders hview hb
    refine ⟨hne, ?_⟩
    show ∃ target, (p.items.get? b).getD (document.items.get? b) = some target ∧ _
    cases hentryb : p.items.get? b with
    | none => exact ⟨target, htarget, htype⟩
    | some value =>
      cases value with
      | none => exact absurd hb ((h.released.items b hentryb).binders id hbinder arrow hfound)
      | some v =>
        refine ⟨v, rfl, ?_⟩
        intro harrow
        have hstored : (createDocumentState document).item b = some target := by
          show readMember (document.items.get? b) b = some target
          rw [show document.items.get? b = some target from htarget]
          rfl
        have hnetype : itemType target ≠ itemType v := by
          rw [harrow]
          exact htype
        exact (retyped_of_no_errors h.retyped hentryb hstored hnetype).2 harrow id hbinder arrow
          hfound hb

end Items

/-! ### What tracks drive -/

theorem not_isBoardId_camera : isBoardId boardCameraTarget = false := by decide

section Tracks

variable (h : Accepted rules document options written p) (hwf : document.view.WellFormed)
include h hwf

omit hwf in
theorem script_kept {a t : String} {v : Json} (hentry : p.trackEntry a t = none)
    (hstored : document.view.track a t = some v) (hcamera : trackTarget v ≠ boardCameraTarget)
    (hscript : document.view.script (trackTarget v) = true) :
    p.script (createDocumentState document) (trackTarget v) = true := by
  by_contra hgone
  have href := mem_trackRefs hstored (mem_trackReferences.mpr ⟨hcamera, .inl rfl⟩)
  have hfound : p.track (createDocumentState document) a t = some v := by
    rw [Pending.track_of_none hentry]
    exact track_of_stored hstored
  exact h.released.scripts (trackTarget v) hscript (by simpa using hgone) _ href v hfound rfl

theorem target (hown : document.view.OwnNames) (a t : String) (v : Json)
    (ha : ((p.view document).animation a).isSome = true)
    (hv : (p.view document).track a t = some v) :
    (p.view document).HasTarget (trackTarget v) := by
  have hfound := track_of_view hv
  rcases view_track_cases hv with hentry | ⟨hentry, hstored⟩
  · obtain ⟨path, stored, hvalid⟩ := track_of_no_errors h.tracks hentry (animation_of_view ha)
    have htype := (target_of_no_errors hvalid).2
    have hname := h.target_own hwf hown hfound
    unfold targetType at htype
    unfold BoardView.HasTarget
    rw [view_item hname, view_animation hname]
    split at htype
    · next hcamera => exact .inl hcamera
    · split at htype
      · next item hitem => exact .inr (.inl (by rw [hitem]; rfl))
      · split at htype
        · next hanimation => exact .inr (.inr (.inl hanimation))
        · split at htype
          · next hscript => exact .inr (.inr (.inr hscript))
          · cases htype
  · by_cases hcamera : trackTarget v = boardCameraTarget
    · exact .inl hcamera
    · have href := mem_trackRefs hstored (mem_trackReferences.mpr ⟨hcamera, .inl rfl⟩)
      rcases hwf.target a t v (animation_of_track hstored) hstored with heq | hitem | hanimation |
        hscript
      · exact absurd heq hcamera
      · right; left
        show ((p.items.get? (trackTarget v)).getD (document.view.item (trackTarget v))).isSome = true
        cases hget : p.items.get? (trackTarget v) with
        | none => exact hitem
        | some value =>
          cases value with
          | none =>
            exact absurd (mem_trackReferences.mpr ⟨hcamera, .inl rfl⟩)
              ((h.released.items _ hget).tracks _ href v hfound)
          | some w => rfl
      · right; right; left
        show ((p.animations.get? (trackTarget v)).getD
          (document.view.animation (trackTarget v))).isSome = true
        cases hget : p.animations.get? (trackTarget v) with
        | none => exact hanimation
        | some value =>
          cases value with
          | none =>
            by_cases heq : a = trackTarget v
            · have hview : ((p.animations.get? a).getD (document.view.animation a)).isSome = true := ha
              rw [heq, hget] at hview
              cases hview
            · have hgone := h.released.animations _ hget _ href heq
              rw [hfound] at hgone
              cases hgone
          | some w => rfl
      · exact .inr (.inr (.inr (h.script_kept hentry hstored hcamera hscript)))

end Tracks

/-! ### Nested animations -/

section Nesting

variable (h : Accepted rules document options written p) (hwf : document.view.WellFormed)
include h hwf

/-- The nodes of the walk through nested animations. -/
def animationNodes (document : BoardDocument) (p : Pending) : List String :=
  document.animations.keys ++ p.animations.keys ++ inheritedNames

omit h hwf in
theorem mem_animationNodes {id : String}
    (hid : (p.animation (createDocumentState document) id).isSome = true) :
    id ∈ animationNodes document p := by
  unfold animationNodes
  unfold Pending.animation at hid
  cases hentry : p.animations.get? id with
  | some value =>
    apply mem_append_left
    apply mem_append_right
    exact (mem_keys_iff _ _).mpr ((has_iff _ _).mpr ⟨value, hentry⟩)
  | none =>
    rw [hentry] at hid
    have hdocument : (documentAnimation document id).isSome = true := hid
    unfold documentAnimation at hdocument
    cases hget : document.animations.get? id with
    | some animation =>
      apply mem_append_left
      apply mem_append_left
      exact (mem_keys_iff _ _).mpr ((has_iff _ _).mpr ⟨animation, hget⟩)
    | none =>
      rw [hget] at hdocument
      apply mem_append_right
      by_contra hnot
      have hinherited : isInherited id = false := by
        unfold isInherited
        simpa using hnot
      simp [hinherited] at hdocument

omit h hwf in
theorem length_animationNodes :
    (animationNodes document p).length ≤ (createDocumentState document).size + p.animations.size +
      inheritedNames.length + 1 := by
  have hsize : (createDocumentState document).size =
      document.items.size + document.animations.size := rfl
  unfold animationNodes
  rw [length_append, length_append, length_keys, length_keys]
  omega

variable {a b : String}

omit h hwf in
theorem leads_of_nests (hab : (p.view document).Nests a b) :
    Worklist.Leads (fun id => (nestedAnimations (createDocumentState document) p id).reverse) a b := by
  obtain ⟨ha, hb, t, v, hv, htime, htarget⟩ := hab
  have hfound := track_of_view hv
  have hid : t ∈ allTrackIds (createDocumentState document) p a := by
    unfold allTrackIds
    rw [mem_foldl_addNew]
    right
    rw [mem_append]
    rcases view_track_cases hv with hentry | ⟨-, hstored⟩
    · right
      obtain ⟨tracks, htracks, ht⟩ := bind_eq_some_iff.mp hentry
      rw [htracks]
      exact (mem_keys_iff _ _).mpr ((has_iff _ _).mpr ⟨_, ht⟩)
    · left
      obtain ⟨animation, hanimation, ht⟩ := bind_eq_some_iff.mp hstored
      show t ∈ (document.animations.get? a).elim [] _
      rw [hanimation]
      exact (mem_keys_iff _ _).mpr ((has_iff _ _).mpr ⟨_, ht⟩)
  show b ∈ List.reverse _
  rw [mem_reverse]
  unfold nestedAnimations
  rw [if_pos (animation_of_view ha)]
  refine mem_filterMap.mpr ⟨t, hid, ?_⟩
  rw [hfound]
  have hb' := animation_of_view hb
  rw [← htarget] at hb'
  dsimp only
  rw [htime, hb', htarget]
  rfl

omit h hwf in
theorem nestsInto_of_reaches (ha : ((p.view document).animation a).isSome = true)
    (hab : Relation.ReflTransGen (p.view document).Nests a b) :
    nestsInto (createDocumentState document) p a b = true := by
  have hnodes : ∀ c d, d ∈ (nestedAnimations (createDocumentState document) p c).reverse →
      d ∈ animationNodes document p := by
    intro c d hd
    rw [mem_reverse] at hd
    unfold nestedAnimations at hd
    split at hd
    · obtain ⟨t, -, ht⟩ := mem_filterMap.mp hd
      split at ht
      · split at ht
        · next hcond =>
          cases ht
          apply mem_animationNodes
          simpa using (Bool.and_eq_true_iff.mp hcond).2
        · cases ht
      · cases ht
    · cases hd
  have hstart : ∀ c ∈ [a], c ∈ animationNodes document p := by
    intro c hc
    rw [mem_singleton] at hc
    rw [hc]
    exact mem_animationNodes (animation_of_view ha)
  have hrounds : (Worklist.unseen (animationNodes document p) []).length ≤
      (createDocumentState document).size + p.animations.size + inheritedNames.length + 1 :=
    le_trans (length_filter_le _ _) length_animationNodes
  unfold nestsInto
  apply Worklist.finds_complete hnodes hstart hrounds (by simp) (by simp)
  exact ⟨a, mem_singleton_self a,
    Relation.ReflTransGen.mono (fun _ _ hcd => leads_of_nests hcd) _ _ hab⟩

theorem nests_stored (hown : document.view.OwnNames) (hab : (p.view document).Nests a b)
    (hback : Relation.ReflTransGen (p.view document).Nests b a) : document.view.Nests a b := by
  obtain ⟨ha, hb, t, v, hv, htime, htarget⟩ := hab
  have hname := h.target_own hwf hown (track_of_view hv)
  have hcamera : trackTarget v ≠ boardCameraTarget := by
    intro heq
    have hlegal := h.legal hwf b (.inr hb)
    rw [← htarget, heq, not_isBoardId_camera] at hlegal
    cases hlegal
  rcases view_track_cases hv with hentry | ⟨hentry, hstored⟩
  · obtain ⟨path, stored, hvalid⟩ := track_of_no_errors h.tracks hentry (animation_of_view ha)
    have hcycle := (target_of_no_errors hvalid).1
    have hitem : p.item (createDocumentState document) (trackTarget v) = none := by
      rw [← view_item hname, htarget]
      cases hget : (p.view document).item b with
      | none => rfl
      | some w => exact absurd ⟨by rw [hget]; rfl, hb⟩ (h.itemOrAnimation hwf b)
    have hanimation : (p.animation (createDocumentState document) (trackTarget v)).isSome = true := by
      rw [htarget]
      exact animation_of_view hb
    have hfinds : nestsInto (createDocumentState document) p (trackTarget v) a = true := by
      rw [htarget]
      exact nestsInto_of_reaches hb hback
    unfold targetCycle at hcycle
    rw [hitem, hanimation, hfinds] at hcycle
    simp [hcamera] at hcycle
  · refine ⟨animation_of_track hstored, ?_, t, v, hstored, htime, htarget⟩
    rcases h.animation_origin hb with ⟨header, hheader⟩ | hanimation
    · -- an animation written where the track drove something else
      rcases hwf.target a t v (animation_of_track hstored) hstored with heq | hitem | hanimation |
        hscript
      · exact absurd heq hcamera
      · rw [htarget] at hitem
        have hnone : document.view.item b = none := h.sound.animation b header hheader
        rw [hnone] at hitem
        cases hitem
      · rw [htarget] at hanimation
        exact hanimation
      · have hkept := h.script_kept hentry hstored hcamera hscript
        rw [htarget] at hkept
        exact absurd ⟨hb, hkept⟩ (h.animationOrScript b)
    · exact hanimation

theorem nesting (hown : document.view.OwnNames) (a : String) :
    ¬ Relation.TransGen (p.view document).Nests a a := by
  intro hcycle
  apply hwf.nesting a
  -- every edge of the cycle was there before
  have hall : ∀ b, Relation.TransGen (p.view document).Nests a b →
      Relation.ReflTransGen (p.view document).Nests b a →
      Relation.TransGen document.view.Nests a b := by
    intro b hab
    induction hab with
    | single hstep =>
      intro hback
      exact Relation.TransGen.single (h.nests_stored hwf hown hstep hback)
    | tail hpath hstep ih =>
      intro hback
      have hfirst := ih (Relation.ReflTransGen.head hstep hback)
      exact hfirst.tail (h.nests_stored hwf hown hstep (hback.trans hpath.to_reflTransGen))
  exact hall a hcycle Relation.ReflTransGen.refl

end Nesting

/-! ### Depth -/

section Depth

variable (h : Accepted rules document options written p) (hwf : document.view.WellFormed)
include h hwf

variable {id : String}

theorem climb_of_no_errors : ∀ (n : Nat) (cursor : Option String),
    parentChainErrors (createDocumentState document) p id n cursor = [] →
    (∀ c, cursor = some c → ((p.view document).item c).isSome = true) →
    (p.view document).climb n cursor = none := by
  have hne : ∀ c, ((p.view document).item c).isSome = true → c ≠ "" := by
    intro c hc heq
    have hlegal := h.legal hwf c (.inl hc)
    rw [heq] at hlegal
    exact absurd hlegal (by decide)
  intro n
  induction n with
  | zero =>
    intro cursor hok hcursor
    cases cursor with
    | none => rfl
    | some c =>
      unfold parentChainErrors at hok
      rw [if_neg (hne c (hcursor c rfl))] at hok
      cases hok
  | succ n ih =>
    intro cursor hok hcursor
    cases cursor with
    | none => exact BoardView.climb_none _ _
    | some c =>
      unfold parentChainErrors at hok
      rw [if_neg (hne c (hcursor c rfl))] at hok
      split at hok
      · cases hok
      · obtain ⟨v, hv⟩ := isSome_iff_exists.mp (hcursor c rfl)
        have hparent : (p.item (createDocumentState document) c).bind itemParent =
            (p.view document).parent c := by
          unfold BoardView.parent
          rw [item_of_view hv, hv]
        rw [hparent] at hok
        apply ih _ hok
        intro q hq
        unfold BoardView.parent at hq
        rw [hv] at hq
        obtain ⟨frame, hframe, -⟩ := h.parent hwf c v q hv hq
        rw [hframe]
        rfl

theorem depth_of_no_errors {v : Json} (hv : (p.view document).item id = some v)
    (hok : parentErrors (createDocumentState document) p id v = []) :
    (p.view document).climb (maxParentDepth + 1) (some id) = none := by
  have hparent : (p.view document).parent id = itemParent v := by
    unfold BoardView.parent
    rw [hv]
    rfl
  show (p.view document).climb maxParentDepth ((p.view document).parent id) = none
  rw [hparent]
  cases hq : itemParent v with
  | none => exact BoardView.climb_none _ _
  | some q =>
    obtain ⟨-, -, -, hchain⟩ := parent_of_no_errors hok hq
    apply h.climb_of_no_errors hwf maxParentDepth (some q) hchain
    intro c hc
    cases hc
    obtain ⟨frame, hframe, -⟩ := h.parent hwf id v q hv hq
    rw [hframe]
    rfl

/-- An item that did not move and is not below one that did. -/
def Settled (document : BoardDocument) (p : Pending) (id : String) : Prop :=
  id ∉ movedItems (createDocumentState document) p ∧
    id ∉ movedDescendants (createDocumentState document) p

omit h hwf in
theorem settled_parent {q : String} (hsettled : Settled document p id)
    (hchild : id ∈ (createDocumentState document).children q) : Settled document p q := by
  have hnodes : ∀ a b, b ∈ ((createDocumentState document).children a).reverse →
      b ∈ document.items.keys := fun a b hb => children_stored (mem_reverse.mp hb)
  have hstart : ∀ a ∈ ((movedItems (createDocumentState document) p).flatMap
      (createDocumentState document).children).reverse, a ∈ document.items.keys := by
    intro a ha
    obtain ⟨moved, -, ha⟩ := mem_flatMap.mp (mem_reverse.mp ha)
    exact children_stored ha
  have hrounds : (Worklist.unseen document.items.keys []).length ≤
      (createDocumentState document).size := by
    have hle : (Worklist.unseen document.items.keys []).length ≤ document.items.keys.length :=
      length_filter_le _ _
    have hsize : (createDocumentState document).size =
        document.items.size + document.animations.size := rfl
    rw [length_keys] at hle
    omega
  obtain ⟨-, hstack, hclosed⟩ := Worklist.visit_complete hnodes hstart hrounds (by simp)
  constructor
  · intro hmoved
    apply hsettled.2
    unfold movedDescendants
    rw [mem_reverse]
    apply hstack
    exact mem_reverse.mpr (mem_flatMap.mpr ⟨q, hmoved, hchild⟩)
  · intro hbelow
    apply hsettled.2
    unfold movedDescendants at hbelow ⊢
    rw [mem_reverse] at hbelow ⊢
    exact hclosed q hbelow id (mem_reverse.mpr hchild)

theorem climb_settled : ∀ (n : Nat) (id : String), Settled document p id →
    (document.view.item id).isSome = true → ((p.view document).item id).isSome = true →
    (p.view document).climb n (some id) = document.view.climb n (some id) := by
  intro n
  induction n with
  | zero => intro id _ _ _; rfl
  | succ n ih =>
    intro id hsettled hstored hnow
    obtain ⟨u, hu⟩ := isSome_iff_exists.mp hstored
    obtain ⟨v, hv⟩ := isSome_iff_exists.mp hnow
    have hstate : (createDocumentState document).item id = some u := by
      show readMember (document.items.get? id) id = some u
      rw [show document.items.get? id = some u from hu]
      rfl
    have hsame : itemParent v = itemParent u := by
      have hview : (p.items.get? id).getD (document.items.get? id) = some v := hv
      cases hentry : p.items.get? id with
      | none =>
        rw [hentry] at hview
        have hstill : document.view.item id = some v := hview
        rw [hu] at hstill
        cases hstill
        rfl
      | some value =>
        rw [hentry] at hview
        cases (show value = some v from hview)
        by_contra hne
        apply hsettled.1
        unfold movedItems
        refine List.mem_map.mpr ⟨(id, some v), mem_filter.mpr ⟨?_, ?_⟩, rfl⟩
        · exact (p.items.mem_entries_iff id (some v)).mpr hentry
        · rw [hstate]
          simpa using hne
    show (p.view document).climb n ((p.view document).parent id) =
      document.view.climb n (document.view.parent id)
    unfold BoardView.parent
    rw [hu, hv, bind_some, bind_some, hsame]
    cases hq : itemParent u with
    | none => rw [BoardView.climb_none, BoardView.climb_none]
    | some q =>
      obtain ⟨frame, hframe, -⟩ := hwf.parent id u q hu hq
      obtain ⟨frame', hframe', -⟩ := h.parent hwf id v q hv (hsame.trans hq)
      have hchild := mem_children hu hq (ne_empty_of_item hwf (by rw [hframe]; rfl))
      exact ih q (settled_parent hsettled hchild) (by rw [hframe]; rfl) (by rw [hframe']; rfl)

theorem depth (id : String) (hid : ((p.view document).item id).isSome = true) :
    (p.view document).climb (maxParentDepth + 1) (some id) = none := by
  obtain ⟨v, hv⟩ := isSome_iff_exists.mp hid
  have hview : (p.items.get? id).getD (document.items.get? id) = some v := hv
  cases hentry : p.items.get? id with
  | some value =>
    rw [hentry] at hview
    cases (show value = some v from hview)
    exact h.depth_of_no_errors hwf hv (errors_of_pending h.items hentry).1
  | none =>
    rw [hentry] at hview
    have hstored : (document.view.item id).isSome = true := by
      rw [show document.view.item id = some v from hview]
      rfl
    by_cases hbelow : id ∈ movedDescendants (createDocumentState document) p
    · exact h.depth_of_no_errors hwf hv
        (errors_of_descendant h.items hbelow hentry (item_of_view hv))
    · have hmoved : id ∉ movedItems (createDocumentState document) p := by
        intro hmem
        obtain ⟨e, he, rfl⟩ := List.mem_map.mp hmem
        have hget := (p.items.mem_entries_iff e.1 e.2).mp (mem_of_mem_filter he)
        rw [hentry] at hget
        cases hget
      rw [h.climb_settled hwf (maxParentDepth + 1) id ⟨hmoved, hbelow⟩ hstored hid]
      exact hwf.depth id hstored

end Depth

theorem wellFormed (h : Accepted rules document options written p) (hwf : document.view.WellFormed)
    (hown : document.view.OwnNames) : (p.view document).WellFormed :=
  { legal := h.legal hwf
    parent := h.parent hwf
    acyclic := by
      intro id hcycle
      -- whoever is on a cycle has a parent, so it is an item
      have hitem : ((p.view document).item id).isSome = true := by
        obtain ⟨q, hq, -⟩ := Relation.TransGen.head'_iff.mp hcycle
        obtain ⟨v, hv, -⟩ := bind_eq_some_iff.mp hq
        rw [hv]
        rfl
      exact BoardView.acyclic_of_climb (h.depth hwf id hitem) hcycle
    depth := h.depth hwf
    binding := h.binding hwf hown
    target := h.target hwf hown
    nesting := h.nesting hwf hown
    itemOrAnimation := h.itemOrAnimation hwf
    itemOrScript := h.itemOrScript
    animationOrScript := h.animationOrScript }

end Accepted

/-! ## Well-formedness is preserved -/

variable {document : BoardDocument}

theorem accepted_of_applyBoardPatch {rules : TextRules} {layout : BoardLayout}
    {patch : BoardPatch} {options : BoardApplyOptions}
    {before after : BoardDelta} (hwf : document.view.WellFormed) (hown : document.view.OwnNames)
    (hpatch : patch.OwnNames)
    (h : applyBoardPatch rules layout (createDocumentState document) patch options =
      .ok before after) :
    ∃ written p, Accepted rules document options written p ∧
      after = deltaAfter (createDocumentState document) p := by
  unfold applyBoardPatch at h
  split at h
  · cases h
  · next hissues =>
    have hsound := sound_writePatch rules options hwf hown hpatch hissues
    dsimp only at h
    split at h
    · cases h
    · next hwritten =>
      split at h
      · cases h
      · next herrors =>
        cases h
        have hconflicts : idConflicts (createDocumentState document)
            (writePatch rules (createDocumentState document) options patch).1 = [] := by
          have hnil := not_not.mp hwritten
          unfold writePatch at hnil
          exact (append_eq_nil_iff.mp hnil).2
        obtain ⟨hnoItem, hnoScript⟩ := unique_of_idConflicts hconflicts
        rw [not_not, append_eq_nil_iff, append_eq_nil_iff,
          append_eq_nil_iff] at herrors
        obtain ⟨⟨⟨hreleased, hitems⟩, hretyped⟩, htracks⟩ := herrors
        refine ⟨_, _, ⟨hsound, hnoItem, hnoScript, ?_, hitems, hretyped, htracks⟩, rfl⟩
        apply released_of_no_errors layout document.items.keys
        · exact fun id child hchild => children_stored hchild
        · rw [length_keys]
          exact Nat.le_add_right _ _
        · exact hreleased

theorem wellFormed_of_empty (hitems : document.items = OrderedMap.empty)
    (hanimations : document.animations = OrderedMap.empty) : document.view.WellFormed := by
  have hitem : ∀ id, document.view.item id = none := by
    intro id
    show document.items.get? id = none
    rw [hitems]
    rfl
  have hanimation : ∀ id, document.view.animation id = none := by
    intro id
    show (document.animations.get? id).map _ = none
    rw [hanimations]
    rfl
  have hparent : ∀ a b, ¬ document.view.IsParent a b := by
    intro a b hab
    unfold BoardView.IsParent BoardView.parent at hab
    rw [hitem] at hab
    cases hab
  have hnests : ∀ a b, ¬ document.view.Nests a b := by
    intro a b ⟨ha, _⟩
    rw [hanimation] at ha
    cases ha
  constructor
  · intro id hid
    rw [hitem, hanimation] at hid
    simp at hid
  · intro id item q h
    rw [hitem] at h
    cases h
  · intro id hcycle
    obtain ⟨b, hb, -⟩ := Relation.TransGen.head'_iff.mp hcycle
    exact hparent id b hb
  · intro id h
    rw [hitem] at h
    cases h
  · intro id arrow b h
    rw [hitem] at h
    cases h
  · intro a t v h
    rw [hanimation] at h
    cases h
  · intro a hcycle
    obtain ⟨b, hb, -⟩ := Relation.TransGen.head'_iff.mp hcycle
    exact hnests a b hb
  · intro id ⟨h, _⟩
    rw [hitem] at h
    cases h
  · intro id ⟨h, _⟩
    rw [hitem] at h
    cases h
  · intro id ⟨h, _⟩
    rw [hanimation] at h
    cases h

theorem ownNames_of_empty (hitems : document.items = OrderedMap.empty)
    (hanimations : document.animations = OrderedMap.empty)
    (hscripts : document.board.get? "scripts" = none) : document.view.OwnNames := by
  intro id _
  refine ⟨?_, ?_, ?_⟩
  · show document.items.get? id = none
    rw [hitems]
    rfl
  · show (document.animations.get? id).map _ = none
    rw [hanimations]
    rfl
  · show (Fields.get? (((document.board.get? "scripts").map Json.fields).getD []) id).isSome = false
    rw [hscripts]
    rfl

/-- A frame with a shape in it, an arrow to the shape, and an animation of it. -/
def shapePatch : BoardPatch :=
  { board := none
    items := OrderedMap.ofList
      [("frame", record [("type", .str "frame")]),
       ("box", record [("type", .str "shape"), ("parent", .str "frame")]),
       ("arrow", record [("type", .str "arrow"),
          ("props", record [("start", record [("item", .str "box")]),
            ("end", record [("x", .num 3), ("y", .num 4)])])])]
    animations := OrderedMap.ofList
      [("fade", .write [] (OrderedMap.ofList
        [("opacity", record [("target", .str "box"), ("property", .str "opacity"),
          ("keyframes", .arr [record [("at", .num 5), ("value", .num 1)]])])]))] }

/-- An arrow bound to an item that the board does not have, under a name that
    every object has a member of. -/
def inheritedBindingPatch : BoardPatch :=
  { board := none
    items := OrderedMap.ofList
      [("arrow", record [("type", .str "arrow"),
          ("props", record [("start", record [("item", .str "constructor")]),
            ("end", record [("x", .num 3), ("y", .num 4)])])])]
    animations := OrderedMap.empty }

end Cohub.Board
