import Cohub.Board.Deletion

/-! # Deletions are judged on the pending values

    An accepted patch leaves nothing that refers to what is gone, since the
    loops clean up around everything deleted (`Released`) and the checks reject
    what the patch newly binds to it.  With what the loops may drop (`Judged`)
    this says exactly what an accepted patch with cascade drops, and what a
    patch without cascade is rejected for. -/

namespace Cohub.Board

open List

/-! ## What an accepted patch leaves -/

/-- An accepted patch: `w` are the values it leaves, `p` those after the loops,
    which ended without an error, as did the checks. -/
structure Applied (rules : TextRules) (document : BoardDocument) (options : BoardApplyOptions)
    (w p : Pending) : Prop where
  judged   : Judged document w options.cascade (p, [])
  released : Released (createDocumentState document) w p
  items    : itemErrors (createDocumentState document) p = []
  tracks   : trackErrors rules (createDocumentState document) options p = []
  removes  : w.RemovesTracks document
  legal    : ∀ id, Gone document w options.cascade id → isBoardId id = true

namespace Applied

variable {rules : TextRules} {document : BoardDocument} {options : BoardApplyOptions}
  {w p : Pending} {id a t : String} {v : Json}

section

variable (h : Applied rules document options w p)
include h

theorem deleted_of_gone
    (hgone : Gone document w options.cascade id) : p.items.get? id = some none := by
  induction hgone with
  | removed hremoved => exact h.released.evolves.item_removed hremoved
  | @inside id frame item hcascade hframe hitem hparent ih =>
    have hview : (w.items.get? id).getD (document.items.get? id) = some item := hitem
    cases hentry : p.items.get? id with
    | none =>
      -- a stored item is a child that the loop looks at
      rw [h.released.evolves.item_written hentry] at hview
      have hne : frame ≠ "" := by
        rintro rfl
        exact absurd (h.legal "" hframe) (by decide)
      have hchild := mem_children hview hparent hne
      obtain ⟨value, hvalue, -⟩ := (h.released.items frame ih).children id hchild
      rw [hentry] at hvalue
      cases hvalue
    | some value =>
      cases value with
      | none => rfl
      | some v =>
        -- a pending item whose parent is gone is an error
        have hfound := item_of_view (p := w) hitem
        have hparent' : itemParent v = some frame := by
          obtain ⟨u, hu, hcase⟩ := h.judged.item_source (Pending.item_of_entry hentry)
          rw [hfound] at hu
          cases hu
          rcases hcase with rfl | hloose
          · exact hparent
          · rw [hloose.parent]
            exact hparent
        obtain ⟨target, htarget, -⟩ :=
          parent_of_no_errors (errors_of_pending h.items hentry).1 hparent'
        rw [Pending.item_of_entry ih] at htarget
        cases htarget

theorem not_gone_of_binding {b : String} (hv : (p.view document).item id = some v)
    (hb : b ∈ arrowBindings v) : ¬ Gone document w options.cascade b := by
  intro hgone
  have hdeleted := h.deleted_of_gone hgone
  have hview : (p.items.get? id).getD (document.items.get? id) = some v := hv
  cases hentry : p.items.get? id with
  | some value =>
    rw [hentry] at hview
    cases (show value = some v from hview)
    obtain ⟨-, target, htarget, -⟩ :=
      binding_of_no_errors (errors_of_pending h.items hentry).2 hb
    rw [Pending.item_of_entry hdeleted] at htarget
    cases htarget
  | none =>
    rw [hentry] at hview
    exact (h.released.items b hdeleted).binders id (mem_binders hview hb) v (item_of_view hv) hb

theorem left_of_targetType {target : String} (hcamera : target ≠ boardCameraTarget)
    (htype : (targetType (createDocumentState document) p target).isSome = true) :
    Left document w options.cascade target := by
  unfold targetType at htype
  rw [if_neg hcamera] at htype
  split at htype
  · next item hitem =>
    left
    obtain ⟨v, hv, -⟩ := h.judged.item_source (x := (p, [])) hitem
    refine ⟨by rw [hv]; rfl, ?_⟩
    intro hgone
    rw [Pending.item_of_entry (h.deleted_of_gone hgone)] at hitem
    cases hitem
  · split at htype
    · next hanimation =>
      right; left
      unfold Pending.animation at hanimation ⊢
      rw [← h.judged.animations]
      exact hanimation
    · split at htype
      · next hscript =>
        right; right
        rw [← h.released.evolves.script]
        exact hscript
      · cases htype

theorem not_lost_of_track (hv : (p.view document).track a t = some v) :
    ¬ Lost document w options.cascade (trackTarget v) := by
  rintro ⟨hcamera, hremoved, hnotLeft⟩
  have halive : ((p.animations.get? a).getD (document.view.animation a)).isSome = true := by
    by_contra hgone
    have hnone : (p.view document).track a t = none := if_neg hgone
    rw [hnone] at hv
    cases hv
  rcases view_track_cases hv with hentry | ⟨hentry, hstored⟩
  · obtain ⟨path, stored, hvalid⟩ := track_of_no_errors h.tracks hentry (animation_of_view halive)
    exact hnotLeft (h.left_of_targetType hcamera (target_of_no_errors hvalid).2)
  · have hrefers : trackTarget v ∈ trackReferences v :=
      mem_trackReferences.mpr ⟨hcamera, .inl rfl⟩
    have href := mem_trackRefs hstored hrefers
    have hfound := track_of_view hv
    rcases hremoved with hgone | hanimation | ⟨hscript, hno⟩
    · exact (h.released.items _ (h.deleted_of_gone hgone)).tracks _ href v hfound hrefers
    · rw [← h.judged.animations] at hanimation
      by_cases heq : a = trackTarget v
      · rw [heq, show p.animations.get? (trackTarget v) = some none from hanimation] at halive
        cases halive
      · have hnone := h.released.animations _ hanimation _ href heq
        rw [hfound] at hnone
        cases hnone
    · rw [← h.released.evolves.script] at hno
      exact h.released.scripts _ hscript hno _ href v hfound rfl

end

variable {keyframe : Json}

theorem focus_of_no_errors {state : BoardState} {path : String} {stored : Bool}
    (hvalid : validateTrack rules state p path a v stored = []) (hfocus : isFocusTrack v = true)
    (hkeyframe : keyframe ∈ keyframesOf v)
    (hvalue : keyframe.get? "value" = some (.str id)) : (p.item state id).isSome = true := by
  obtain ⟨htarget, hproperty⟩ := Bool.and_eq_true_iff.mp hfocus
  have htarget : trackTarget v = boardCameraTarget := by simpa using htarget
  have hproperty : trackProperty v = "focus" := by simpa using hproperty
  unfold validateTrack at hvalid
  have hcycle : targetCycle state p a (trackTarget v) = false := by
    unfold targetCycle
    rw [htarget]
    simp
  have htype : targetType state p (trackTarget v) = some boardCameraTarget := by
    unfold targetType
    rw [if_pos htarget]
  have hscript : "script.".toList.isPrefixOf "focus".toList = false := by decide
  dsimp only at hvalid
  rw [hcycle, htype, hproperty] at hvalid
  dsimp only at hvalid
  rw [hscript] at hvalid
  simp only [Bool.false_eq_true, if_false, Bool.and_false, Bool.false_and] at hvalid
  obtain ⟨spec, hspec⟩ : ∃ spec, resolveBoardProperty rules boardCameraTarget "focus" = .ok spec :=
    ⟨_, rfl⟩
  rw [hspec] at hvalid
  dsimp only at hvalid
  obtain ⟨hkeyframes, -⟩ := append_eq_nil_iff.mp hvalid
  rw [flatMap_eq_nil_iff] at hkeyframes
  obtain ⟨i, hi⟩ := mem_iff_getElem?.mp hkeyframe
  have hnil := hkeyframes (keyframe, i) (mem_zipIdx_iff_getElem?.mpr hi)
  unfold keyframeErrors at hnil
  dsimp only at hnil
  rw [hvalue] at hnil
  split at hnil
  · cases hnil
  · have hstring : (some (Json.str id)).bind Json.asString? = some id := rfl
    rw [hstring] at hnil
    dsimp only at hnil
    split at hnil
    · cases hnil
    · next hsome => simpa [Option.isSome_iff_ne_none] using hsome

section

variable (h : Applied rules document options w p)
include h

theorem not_focusGone_of_track
    (hv : (p.view document).track a t = some v) (hfocus : isFocusTrack v = true)
    (hkeyframe : keyframe ∈ keyframesOf v) : ¬ FocusGone document w options.cascade keyframe := by
  rintro ⟨id, hvalue, hgone⟩
  have hdeleted := h.deleted_of_gone hgone
  rcases view_track_cases hv with hentry | ⟨hentry, hstored⟩
  · have halive : ((p.view document).animation a).isSome = true := by
      by_contra hnot
      have hnone : (p.view document).track a t = none := if_neg hnot
      rw [hnone] at hv
      cases hv
    obtain ⟨path, stored, hvalid⟩ := track_of_no_errors h.tracks hentry (animation_of_view halive)
    have hsome := focus_of_no_errors hvalid hfocus hkeyframe hvalue
    rw [Pending.item_of_entry hdeleted] at hsome
    cases hsome
  · have hcamera : id ≠ boardCameraTarget := by
      rintro rfl
      exact absurd (h.legal _ hgone) (by decide)
    have hrefers : id ∈ trackReferences v := mem_trackReferences.mpr
      ⟨hcamera, .inr ⟨hfocus, mem_keyframeStrings.mpr ⟨keyframe, hkeyframe, hvalue⟩⟩⟩
    exact (h.released.items id hdeleted).tracks _ (mem_trackRefs hstored hrefers) v
      (track_of_view hv) hrefers

/-! ### Nothing else is dropped -/

theorem item_freed (hid : ¬ Gone document w options.cascade id) :
    Option.Rel (FreedFrom (Gone document w options.cascade)) ((w.view document).item id)
      ((p.view document).item id) := by
  have hviewp : (p.view document).item id = (p.items.get? id).getD (document.items.get? id) := rfl
  have hvieww : (w.view document).item id = (w.items.get? id).getD (document.items.get? id) := rfl
  rcases h.judged.item id with hsame | ⟨-, -, hgone⟩ | ⟨v, v', hv, hv', hloose⟩
  · have heq : (p.view document).item id = (w.view document).item id := by
      rw [hviewp, hvieww, show p.items.get? id = w.items.get? id from hsame]
    cases hitem : (p.view document).item id with
    | none =>
      rw [← heq, hitem]
      exact Option.Rel.none
    | some v =>
      rw [← heq, hitem]
      apply Option.Rel.some
      constructor
      · exact fun _ => rfl
      · exact fun _ _ => rfl
      · exact fun _ _ _ => rfl
      · intro harrow which b hb hgone
        exact absurd hgone (h.not_gone_of_binding hitem (mem_arrowBindings.mpr ⟨harrow, which, hb⟩))
      · exact fun _ _ => rfl
  · exact absurd hgone hid
  · have hitem : (p.view document).item id = some v' := by
      rw [hviewp, show p.items.get? id = some (some v') from hv']
      rfl
    rw [view_of_itemType hv hloose.arrow, hitem]
    apply Option.Rel.some
    constructor
    · exact fun hother => absurd hloose.arrow hother
    · exact hloose.member
    · exact hloose.prop
    · intro _ which b hb hgone
      rcases hloose.ends which with hsame | ⟨-, hpoint⟩
      · rw [← hsame] at hb
        have harrow : itemType v' = some "arrow" := hloose.type.trans hloose.arrow
        exact absurd hgone (h.not_gone_of_binding hitem (mem_arrowBindings.mpr ⟨harrow, which, hb⟩))
      · exact hpoint
    · intro which hfree
      rcases hloose.ends which with hsame | ⟨⟨b, hb, hgone⟩, -⟩
      · exact hsame
      · exact absurd hgone (hfree b hb)

theorem cleanTrack_of_left {v' : Json} (hthin : Thinned (FocusGone document w options.cascade) v v')
    (hv' : (p.view document).track a t = some v') :
    cleanTrack document w options.cascade v = some v' := by
  have hlost := h.not_lost_of_track hv'
  rw [hthin.target] at hlost
  unfold cleanTrack
  rw [if_neg hlost]
  rcases hthin with rfl | ⟨hfocus, keeps, rfl, hne, ⟨keyframe, hkeyframe, hfalse⟩, hdropped⟩
  · apply if_pos
    by_cases hfocus : isFocusTrack v' = true
    · right
      unfold keptKeyframes
      rw [filter_eq_self.mpr]
      intro keyframe hkeyframe
      simpa using h.not_focusGone_of_track hv' hfocus hkeyframe
    · exact .inl (by simpa using hfocus)
  · have hkept : keptKeyframes document w options.cascade v = (keyframesOf v).filter keeps := by
      unfold keptKeyframes
      apply filter_congr
      intro k hk
      cases hkeeps : keeps k with
      | false => simpa using hdropped k hk hkeeps
      | true =>
        have hfocus' : isFocusTrack (withKeyframes v ((keyframesOf v).filter keeps)) = true := by
          rw [isFocusTrack_withKeyframes, hfocus]
        have hmem : k ∈ keyframesOf (withKeyframes v ((keyframesOf v).filter keeps)) := by
          rw [keyframesOf_withKeyframes]
          exact mem_filter.mpr ⟨hk, hkeeps⟩
        have hleft := h.not_focusGone_of_track hv' hfocus' hmem
        simpa using hleft
    have hshorter : ((keyframesOf v).filter keeps).length < (keyframesOf v).length :=
      length_filter_lt_length_iff_exists.mpr ⟨keyframe, hkeyframe, by simp [hfalse]⟩
    rw [hkept, if_neg, if_neg hne]
    rw [not_or]
    exact ⟨by simp [hfocus], ne_of_lt hshorter⟩

theorem animation_view (a : String) :
    (p.view document).animation a = (w.view document).animation a := by
  show (p.animations.get? a).getD _ = (w.animations.get? a).getD _
  rw [show p.animations = w.animations from h.judged.animations]

theorem track_cleaned (hnone : ¬ Misjudged document w options.cascade) (a t : String) :
    (p.view document).track a t =
      ((w.view document).track a t).bind (cleanTrack document w options.cascade) := by
  have hviewp : (p.view document).track a t =
      if ((w.view document).animation a).isSome then
        (p.trackEntry a t).getD (document.view.track a t) else none := by
    rw [← h.animation_view]
    rfl
  have hvieww : (w.view document).track a t =
      if ((w.view document).animation a).isSome then
        (w.trackEntry a t).getD (document.view.track a t) else none := rfl
  by_cases halive : ((w.view document).animation a).isSome = true
  · rcases h.judged.track a t with hsame | ⟨-, hstored, v, hv, hcase⟩
    · have heq : (p.view document).track a t = (w.view document).track a t := by
        rw [hviewp, hvieww, show p.trackEntry a t = w.trackEntry a t from hsame]
      cases htrack : (p.view document).track a t with
      | none =>
        rw [← heq, htrack]
        rfl
      | some v =>
        rw [← heq, htrack]
        exact (h.cleanTrack_of_left (.inl rfl) htrack).symm
    · obtain ⟨stored, hstored⟩ := Option.isSome_iff_exists.mp hstored
      have hview := view_track_of_stored h.removes hstored hv
      rw [hview, Option.bind_some]
      rcases hcase with ⟨hentry, hdrop⟩ | ⟨v', hentry, hthin⟩
      · have hgone : (p.view document).track a t = none := by
          rw [hviewp, if_pos halive, show p.trackEntry a t = some none from hentry]
          rfl
        rw [hgone]
        rcases hdrop with hclean | hblamed
        · exact hclean.symm
        · by_contra hne
          exact hnone ⟨a, t, v, hview, hblamed, fun hclean => hne hclean.symm⟩
      · have hleft : (p.view document).track a t = some v' := by
          rw [hviewp, if_pos halive, show p.trackEntry a t = some (some v') from hentry]
          rfl
        rw [hleft]
        exact (h.cleanTrack_of_left hthin hleft).symm
  · rw [hviewp, hvieww, if_neg halive, if_neg halive]
    rfl

end

end Applied

variable {document : BoardDocument} {w p : Pending}

theorem track_of_blamed {cascade : Bool} {a t : String}
    {v : Json} (hreleased : Released (createDocumentState document) w p)
    (hdeleted : ∀ id, Gone document w cascade id → p.items.get? id = some none)
    (hblamed : Blamed document w cascade a t v) {v' : Json}
    (htarget : trackTarget v' = trackTarget v) :
    p.track (createDocumentState document) a t ≠ some v' := by
  intro hfound
  obtain ⟨stored, id, hstored, hrefers, hcase⟩ := hblamed
  have href := mem_trackRefs hstored hrefers
  have hcamera := (mem_trackReferences.mp hrefers).1
  rcases hcase with ⟨hanimation, hother⟩ | ⟨hgone | ⟨hscript, hno⟩, hdrives⟩
  · rw [← hreleased.evolves.animations] at hanimation
    have hnone := hreleased.animations id hanimation _ href hother
    rw [hfound] at hnone
    cases hnone
  · have hrefers' : id ∈ trackReferences v' :=
      mem_trackReferences.mpr ⟨hcamera, .inl (by rw [htarget, hdrives])⟩
    exact (hreleased.items id (hdeleted id hgone)).tracks _ href v' hfound hrefers'
  · rw [← hreleased.evolves.script] at hno
    exact hreleased.scripts id hscript hno _ href v' hfound (htarget.trans hdrives)

theorem Applied.cascaded_iff {rules : TextRules} {options : BoardApplyOptions}
    (h : Applied rules document options w p) {after : BoardDocument}
    (hboard : after.board = p.settings.getD document.board) (hview : after.view = p.view document) :
    Cascaded document w options.cascade after ↔ ¬ Misjudged document w options.cascade := by
  constructor
  · rintro hcascaded ⟨a, t, v, htrack, hblamed, hclean⟩
    have hexact := hcascaded.track a t
    rw [htrack, Option.bind_some, hview] at hexact
    obtain ⟨v', hv'⟩ := Option.ne_none_iff_exists'.mp hclean
    rw [hv'] at hexact
    have hfound := track_of_view hexact
    obtain ⟨u, hu, hthin, -⟩ := h.judged.track_source (x := (p, [])) hfound
    rw [track_of_view htrack] at hu
    cases hu
    exact track_of_blamed h.released (fun id hgone => h.deleted_of_gone hgone) hblamed hthin.target
      hfound
  · intro hnone
    constructor
    · rw [hboard, show p.settings = w.settings from h.judged.settings]
    · intro a
      rw [hview, h.animation_view]
    · intro id hgone
      rw [hview]
      show (p.items.get? id).getD _ = none
      rw [h.deleted_of_gone hgone]
      rfl
    · intro id hid
      rw [hview]
      exact h.item_freed hid
    · intro a t
      rw [hview]
      exact h.track_cleaned hnone a t

/-! ## Where reference errors come from -/

/-- None of these errors is about a reference to something removed. -/
def NoReference (errors : List BoardDiagnostic) : Prop := ∀ e ∈ errors, e.code ∉ referenceCodes

namespace NoReference

variable {es es' : List BoardDiagnostic}

theorem nil : NoReference [] := by simp [NoReference]

theorem append (h : NoReference es) (h' : NoReference es') : NoReference (es ++ es') := by
  intro e he
  rcases mem_append.mp he with he | he
  · exact h e he
  · exact h' e he

variable {path code : String}

theorem single {message : String} (h : code ∉ referenceCodes) :
    NoReference [boardError path code message] := by
  intro e he
  rw [mem_singleton.mp he]
  exact h

theorem issueErrors {before : List String} {issues : List Issue}
    (h : code ∉ referenceCodes) : NoReference (issueErrors before code issues) := by
  intro e he
  obtain ⟨issue, -, rfl⟩ := mem_map.mp he
  exact h

theorem flatMap {α : Type} {l : List α} {f : α → List BoardDiagnostic}
    (h : ∀ a ∈ l, NoReference (f a)) : NoReference (l.flatMap f) := by
  intro e he
  obtain ⟨a, ha, he⟩ := mem_flatMap.mp he
  exact h a ha e he

theorem of_parseBoardItem {rules : TextRules} {value : Json} {keep : Option BoardKeepField}
    (h : parseBoardItem rules value path keep = .error es) : NoReference es := by
  unfold parseBoardItem at h
  split at h
  · cases h
    exact single (by decide)
  · split at h
    · cases h
      exact single (by decide)
    · split at h
      · cases h
      · cases h
        intro e he
        obtain ⟨issue, -, rfl⟩ := mem_map.mp he
        exact (by decide : "INVALID_ITEM" ∉ referenceCodes)

section Writing

variable (rules : TextRules) (state : BoardState) (options : BoardApplyOptions)

theorem of_applyItem {acc : ItemPhase} (h : NoReference acc.phase.2) (id : String) (value : Json) :
    NoReference (applyItem rules state options acc id value).phase.2 := by
  unfold applyItem
  split
  · split <;> exact h
  · dsimp only
    split
    · next hparse => exact h.append (of_parseBoardItem hparse)
    · split <;> exact h

variable {acc : Phase}

theorem of_applyTrack (h : NoReference acc.2) (a t : String) (value : Json) :
    NoReference (applyTrack rules state options a acc t value).2 := by
  unfold applyTrack
  dsimp only
  split
  · exact h.append (single (by decide))
  · split
    · split <;> exact h
    · split
      · exact h.append (issueErrors (by decide))
      · split <;> exact h

theorem of_applyAnimation (h : NoReference acc.2) (a : String)
    (value : AnimationPatch) : NoReference (applyAnimation rules state options acc a value).2 := by
  unfold applyAnimation
  split
  · split <;> exact h
  · next header tracks =>
    have hwrite : ∀ acc : Phase, NoReference acc.2 → NoReference (tracks.entries.foldl
        (fun acc e => applyTrack rules state options a acc e.1 e.2) acc).2 := fun acc hacc =>
      foldlRecOn (motive := fun acc : Phase => NoReference acc.2) _ _ hacc
        fun acc hacc e _ => of_applyTrack rules state options hacc a e.1 e.2
    dsimp only
    split
    · exact h.append (single (by decide))
    · split
      · split
        · exact h.append (issueErrors (by decide))
        · split
          · exact hwrite _ h
          · exact hwrite _ h
      · exact hwrite _ h

theorem of_idConflicts (p : Pending) : NoReference (idConflicts state p) := by
  unfold idConflicts
  apply append
  · apply flatMap
    intro e _
    split
    · exact single (by decide)
    · exact nil
  · apply flatMap
    intro e _
    split
    · exact nil
    · split
      · exact single (by decide)
      · split <;> exact single (by decide)

theorem of_writePatch (patch : BoardPatch) :
    NoReference (writePatch rules state options patch).2 := by
  unfold writePatch
  apply append _ (of_idConflicts state _)
  apply foldlRecOn (motive := fun acc : Phase => NoReference acc.2)
  · apply foldlRecOn (motive := fun acc : ItemPhase => NoReference acc.phase.2)
    · show NoReference (applySettings rules state options patch.board).2
      unfold applySettings
      split
      · exact nil
      · dsimp only
        split
        · exact nil
        · exact issueErrors (by decide)
    · exact fun acc hacc e _ => of_applyItem rules state options hacc e.1 e.2
  · exact fun acc hacc e _ => of_applyAnimation rules state options hacc e.1 e.2

end Writing

section Checking

variable (rules : TextRules) (state : BoardState) (options : BoardApplyOptions) (p : Pending)

theorem of_parentChainErrors (id : String) (n : Nat) (cursor : Option String) :
    NoReference (parentChainErrors state p id n cursor) := by
  induction n generalizing cursor with
  | zero =>
    cases cursor with
    | none => exact nil
    | some cursor =>
      rw [parentChainErrors]
      split
      · exact nil
      · exact single (by decide)
  | succ n ih =>
    cases cursor with
    | none => exact nil
    | some cursor =>
      rw [parentChainErrors]
      split
      · exact nil
      · split
        · exact single (by decide)
        · exact ih _

theorem of_itemErrors : NoReference (itemErrors state p) := by
  apply flatMap
  intro e _
  split
  · exact nil
  · apply append
    · unfold parentErrors
      split
      · exact nil
      · split
        · exact single (by decide)
        · split
          · exact single (by decide)
          · exact of_parentChainErrors state p _ _ _
    · apply flatMap
      intro bound _
      split
      · exact single (by decide)
      · split
        · exact single (by decide)
        · exact nil

theorem of_validateTrack (path a : String) (value : Json) (stored : Bool) :
    NoReference (validateTrack rules state p path a value stored) := by
  unfold validateTrack
  dsimp only
  split
  · exact single (by decide)
  · split
    · exact single (by decide)
    · split
      · exact single (by decide)
      · split
        · exact single (by decide)
        · split
          · exact nil
          · exact single (by decide)
        · apply append
          · apply flatMap
            intro e _
            unfold keyframeErrors
            dsimp only
            split
            · exact single (by decide)
            · split
              · split
                · exact single (by decide)
                · exact nil
              · exact nil
          · split
            · exact single (by decide)
            · exact nil

theorem of_retypedErrors : NoReference (retypedErrors rules state options p) := by
  apply flatMap
  intro e _
  split
  · split
    · exact nil
    · unfold retypeErrors
      apply append
      · apply append
        · split
          · apply flatMap
            intro child _
            split
            · exact single (by decide)
            · exact nil
          · exact nil
        · split
          · apply flatMap
            intro binder _
            split
            · split
              · exact single (by decide)
              · exact nil
            · exact nil
          · exact nil
      · apply flatMap
        intro ref _
        split
        · exact of_validateTrack rules state p _ _ _ _
        · exact nil
  · exact nil

theorem of_trackErrors : NoReference (trackErrors rules state options p) := by
  apply flatMap
  intro e _
  apply flatMap
  intro t _
  split
  · exact nil
  · dsimp only
    split
    · exact single (by decide)
    · exact of_validateTrack rules state p _ _ _ _

end Checking

end NoReference

/-! ## Deletions are judged on the pending values -/

/-- The values that a patch leaves, before the loops look at what it removes. -/
def patched (rules : TextRules) (document : BoardDocument) (patch : BoardPatch)
    (options : BoardApplyOptions) : Pending :=
  (writePatch rules (createDocumentState document) options patch).1

section Writing

variable (rules : TextRules) (options : BoardApplyOptions) {document : BoardDocument}
  {patch : BoardPatch}

theorem written_of_trackEntry {a t : String} {v : Json}
    (h : (writePatch rules (createDocumentState document) options patch).1.trackEntry a t =
      some (some v)) :
    ∃ header tracks, patch.animations.get? a = some (.write header tracks) := by
  let Ok := fun p : Pending => ∀ a t v, p.trackEntry a t = some (some v) →
    ∃ header tracks, patch.animations.get? a = some (.write header tracks)
  have hset : ∀ (p : Pending) (a t : String), Ok p → Ok (p.setTrack a t none) := by
    intro p a t hp a' t' v' hv'
    rw [Pending.trackEntry_setTrack] at hv'
    split at hv'
    · cases hv'
    · exact hp a' t' v' hv'
  have hall : Ok (writePatch rules (createDocumentState document) options patch).1 := by
    unfold writePatch
    apply foldlRecOn (motive := fun acc : Phase => Ok acc.1)
    · apply foldlRecOn (motive := fun acc : ItemPhase => Ok acc.phase.1)
      · show Ok (applySettings rules (createDocumentState document) options patch.board).1
        intro a' t' v' hv'
        have hnone : (applySettings rules (createDocumentState document) options
            patch.board).1.trackEntry a' t' = none := by
          unfold applySettings
          split
          · rfl
          · dsimp only
            split <;> rfl
        rw [hnone] at hv'
        cases hv'
      · intro acc hacc e _
        rcases applyItem_cases rules (createDocumentState document) options acc e.1 e.2 with
          heq | heq | ⟨parsed, -, -, heq⟩
        · rw [heq]
          exact hacc
        · rw [heq]
          exact hacc
        · rw [heq]
          exact hacc
    · intro acc hacc e he
      have hvalue := (patch.animations.mem_entries_iff e.1 e.2).mp he
      unfold applyAnimation
      split
      · split
        · apply foldlRecOn (motive := Ok)
          · exact hacc
          · exact fun p hp t _ => hset p e.1 t hp
        · exact hacc
      · next header tracks hwrite =>
        have hwritten : ∀ acc : Phase, Ok acc.1 → Ok (tracks.entries.foldl (fun acc t =>
            applyTrack rules (createDocumentState document) options e.1 acc t.1 t.2) acc).1 := by
          intro acc hacc
          apply foldlRecOn (motive := fun acc : Phase => Ok acc.1) _ _ hacc
          intro acc hacc t _
          rcases applyTrack_cases rules (createDocumentState document) options e.1 acc t.1 t.2 with
            heq | heq | ⟨parsed, -, -, heq⟩
          · rw [heq]
            exact hacc
          · rw [heq]
            exact hset acc.1 e.1 t.1 hacc
          · rw [heq]
            intro a' t' v' hv'
            rw [Pending.trackEntry_setTrack] at hv'
            split at hv'
            · next hat =>
              rw [hat.1, hvalue, hwrite]
              exact ⟨header, tracks, rfl⟩
            · exact hacc a' t' v' hv'
        dsimp only
        split
        · exact hacc
        · split
          · split
            · exact hacc
            · split
              · exact hwritten _ hacc
              · exact hwritten _ hacc
          · exact hwritten _ hacc
  exact hall a t v h

theorem removesTracks_writePatch
    (hok : (writePatch rules (createDocumentState document) options patch).2 = []) :
    (patched rules document patch options).RemovesTracks document := by
  intro a t v hgone hv
  have htraced : Traced document patch
      (patched rules document patch options) :=
    traced_writePatch rules options patch
  have hremove := htraced.removed a hgone
  have hsome : ((createDocumentState document).animation a).isSome = true := by
    obtain ⟨header, hheader⟩ := Option.isSome_iff_exists.mp (animation_of_track hv)
    show (documentAnimation document a).isSome = true
    rw [documentAnimation_eq, hheader]
    rfl
  have hwritten := ((writePatch_writes rules (createDocumentState document) options hok).2 a .remove
    hremove).removed rfl hsome
  obtain ⟨entry, hentry⟩ := Option.isSome_iff_exists.mp (hwritten.2 t (trackIds_of_track hv))
  cases entry with
  | none => exact hentry
  | some w =>
    obtain ⟨header, tracks, hwrite⟩ := written_of_trackEntry rules options hentry
    rw [hremove] at hwrite
    cases hwrite

theorem legal_of_gone (hwf : document.view.WellFormed) (hissues : patchIssues patch = [])
    {cascade : Bool} {id : String}
    (h : Gone document (patched rules document patch options) cascade id) :
    isBoardId id = true := by
  have htraced : Traced document patch
      (patched rules document patch options) :=
    traced_writePatch rules options patch
  have hentry : ∀ v, (patched rules document patch options).items.get? id =
      some v → isBoardId id = true := by
    intro v hv
    rcases htraced.item id v hv with hhas | hstored
    · obtain ⟨value, hvalue⟩ := (patch.items.has_iff id).mp hhas
      exact (legal_of_patchIssues hissues).1 id value hvalue
    · exact hwf.legal id (.inl hstored)
  cases h with
  | removed hremoved => exact hentry none hremoved
  | @inside _ frame item hcascade hframe hitem hparent =>
    have hview : ((patched rules document patch options).items.get? id).getD
        (document.items.get? id) = some item := hitem
    cases hget : (patched rules document patch options).items.get? id with
    | some value => exact hentry value hget
    | none =>
      rw [hget] at hview
      exact hwf.legal id (.inl (by rw [show document.view.item id = some item from hview]; rfl))

end Writing

/-- The patch is rejected because something refers to what it removes. -/
def RejectedForReference (result : Except (List BoardDiagnostic) BoardDocument) : Prop :=
  ∃ errors, result = .error errors ∧ ∃ e ∈ errors, e.code ∈ referenceCodes

/-- Each entity that the patch writes is valid by itself. -/
def WritesValid (rules : TextRules) (document : BoardDocument) (patch : BoardPatch)
    (options : BoardApplyOptions) : Prop :=
  patchIssues patch = [] ∧ (writePatch rules (createDocumentState document) options patch).2 = []

section Main

variable (rules : TextRules) (layout : BoardLayout) (document : BoardDocument) (patch : BoardPatch)
  (options : BoardApplyOptions)

theorem result_of_writesValid (h : WritesValid rules document patch options) :
    applyBoardPatchToDocument rules layout document patch options =
      (let p := validatedPending rules layout document patch options
       let errors := (releaseReferences layout (createDocumentState document) options
          (writePatch rules (createDocumentState document) options patch).1).2 ++
          itemErrors (createDocumentState document) p ++
          retypedErrors rules (createDocumentState document) options p ++
          trackErrors rules (createDocumentState document) options p
       if errors ≠ [] then .error errors
       else .ok (applyBoardDelta document (deltaAfter (createDocumentState document) p))) := by
  obtain ⟨hissues, hwritten⟩ := h
  unfold applyBoardPatchToDocument applyBoardPatch validatedPending
  rw [hissues]
  dsimp only
  rw [if_neg (by simpa using hwritten)]
  split
  · next before after hresult =>
    split at hresult
    · cases hresult
    · next hnone =>
      rw [if_neg hnone]
      cases hresult
      rfl
  · next errors hresult =>
    split at hresult
    · next hsome =>
      rw [if_pos hsome]
      cases hresult
      rfl
    · cases hresult

theorem rejectedForReference_iff :
    RejectedForReference (applyBoardPatchToDocument rules layout document patch options) ↔
      WritesValid rules document patch options ∧
        ∃ e ∈ (releaseReferences layout (createDocumentState document) options
          (writePatch rules (createDocumentState document) options patch).1).2,
          e.code ∈ referenceCodes := by
  by_cases hvalid : WritesValid rules document patch options
  · unfold RejectedForReference
    rw [result_of_writesValid rules layout document patch options hvalid]
    dsimp only
    constructor
    · rintro ⟨errors, hresult, e, he, hcode⟩
      refine ⟨hvalid, e, ?_, hcode⟩
      split at hresult
      · cases hresult
        -- the checks report no such error
        rcases mem_append.mp he with he | he
        · rcases mem_append.mp he with he | he
          · rcases mem_append.mp he with he | he
            · exact he
            · exact absurd hcode (NoReference.of_itemErrors _ _ e he)
          · exact absurd hcode (NoReference.of_retypedErrors _ _ _ _ e he)
        · exact absurd hcode (NoReference.of_trackErrors _ _ _ _ e he)
      · cases hresult
    · rintro ⟨-, e, he, hcode⟩
      have hmem := mem_append_left
        (trackErrors rules (createDocumentState document) options
          (validatedPending rules layout document patch options))
        (mem_append_left (retypedErrors rules (createDocumentState document) options
            (validatedPending rules layout document patch options))
          (mem_append_left (itemErrors (createDocumentState document)
            (validatedPending rules layout document patch options)) he))
      exact ⟨_, if_pos (ne_nil_of_mem hmem), e, hmem, hcode⟩
  · constructor
    · rintro ⟨errors, hresult, e, he, hcode⟩
      exfalso
      unfold applyBoardPatchToDocument applyBoardPatch at hresult
      by_cases hissues : patchIssues patch = []
      · rw [hissues] at hresult
        dsimp only at hresult
        have hwritten : (writePatch rules (createDocumentState document) options patch).2 ≠ [] :=
          fun hnil => hvalid ⟨hissues, hnil⟩
        rw [if_pos hwritten] at hresult
        cases hresult
        exact NoReference.of_writePatch _ _ _ _ e he hcode
      · cases hcases : patchIssues patch with
        | nil => exact hissues hcases
        | cons issue issues =>
          rw [hcases] at hresult
          dsimp only at hresult
          cases hresult
          exact NoReference.issueErrors (by decide) e he hcode
    · rintro ⟨h, -⟩
      exact absurd h hvalid

end Main

section Main

variable {rules : TextRules} {layout : BoardLayout} {document : BoardDocument} {patch : BoardPatch}
  {options : BoardApplyOptions} {after : BoardDocument}

theorem writesValid_of_ok
    (h : applyBoardPatchToDocument rules layout document patch options = .ok after) :
    WritesValid rules document patch options := by
  by_contra hvalid
  unfold applyBoardPatchToDocument applyBoardPatch at h
  cases hcases : patchIssues patch with
  | cons issue issues =>
    rw [hcases] at h
    cases h
  | nil =>
    rw [hcases] at h
    dsimp only at h
    have hwritten : (writePatch rules (createDocumentState document) options patch).2 ≠ [] :=
      fun hnil => hvalid ⟨hcases, hnil⟩
    rw [if_pos hwritten] at h
    cases h

theorem judged_of_writesValid (layout : BoardLayout)
    (h : WritesValid rules document patch options) :
    Judged document (patched rules document patch options) options.cascade
      (releaseReferences layout (createDocumentState document) options
        (patched rules document patch options)) :=
  judged_releaseReferences layout (removesTracks_writePatch rules options h.2)

theorem released_of_releaseReferences (layout : BoardLayout)
    (hnil : (releaseReferences layout (createDocumentState document) options
      (patched rules document patch options)).2 = []) :
    Released (createDocumentState document) (patched rules document patch options)
      (validatedPending rules layout document patch options) :=
  released_of_no_errors layout document.items.keys (fun _ _ hchild => children_stored hchild)
    (by rw [OrderedMap.length_keys]; exact Nat.le_add_right _ _) hnil

theorem applied_of_ok (hwf : document.view.WellFormed)
    (h : applyBoardPatchToDocument rules layout document patch options = .ok after) :
    Applied rules document options (patched rules document patch options)
      (validatedPending rules layout document patch options) := by
  have hvalid := writesValid_of_ok h
  rw [result_of_writesValid rules layout document patch options hvalid] at h
  dsimp only at h
  split at h
  · cases h
  · next herrors =>
    rw [not_not, append_eq_nil_iff, append_eq_nil_iff, append_eq_nil_iff] at herrors
    obtain ⟨⟨⟨hnil, hitems⟩, -⟩, htracks⟩ := herrors
    have hjudged := judged_of_writesValid layout hvalid
    rw [show releaseReferences layout (createDocumentState document) options
        (patched rules document patch options) =
        (validatedPending rules layout document patch options, []) from Prod.ext rfl hnil]
      at hjudged
    exact
      { judged := hjudged
        released := released_of_releaseReferences layout hnil
        items := hitems
        tracks := htracks
        removes := removesTracks_writePatch rules options hvalid.2
        legal := fun id hgone => legal_of_gone rules options hwf hvalid.1 hgone }

end Main

/-! ### Concrete patches -/

/-- A frame with a shape in it, and an arrow to the shape. -/
def framePatch : BoardPatch :=
  { board := none
    items := OrderedMap.ofList
      [("frame", record [("type", .str "frame")]),
       ("box", record [("type", .str "shape"), ("parent", .str "frame")]),
       ("arrow", record [("type", .str "arrow"),
          ("props", record [("start", record [("item", .str "box")]),
            ("end", record [("x", .num 3), ("y", .num 4)])])])]
    animations := OrderedMap.empty }

def removeFramePatch : BoardPatch :=
  { board := none
    items := OrderedMap.ofList [("frame", .null)]
    animations := OrderedMap.empty }

def cascadeOptions : BoardApplyOptions := { BoardApplyOptions.none with cascade := true }

/-- An animation of the time of another one, and a third one. -/
def nestedPatch : BoardPatch :=
  { board := none
    items := OrderedMap.empty
    animations := OrderedMap.ofList
      [("first", .write [("duration", .num 1)] OrderedMap.empty),
       ("outer", .write [("duration", .num 1)] (OrderedMap.ofList
        [("inner", record [("target", .str "first"), ("property", .str "time"),
          ("keyframes", .arr [record [("at", .num 0), ("value", .num 0)]])])])),
       ("second", .write [("duration", .num 1)] OrderedMap.empty)] }

/-- The animation goes, and the track that drove it drives the third one. -/
def retargetPatch : BoardPatch :=
  { board := none
    items := OrderedMap.empty
    animations := OrderedMap.ofList
      [("first", .remove),
       ("outer", .write [] (OrderedMap.ofList [("inner", record [("target", .str "second")])]))] }

/-- Nothing that the patch leaves can refer to what it removes: the board has
    no items, and every track drives the third animation. -/
def drivesSecond (document : BoardDocument) (options : BoardApplyOptions) : Bool :=
  let w := patched allTextRules document retargetPatch options
  document.items.entries.isEmpty && w.items.entries.isEmpty &&
    (w.animation (createDocumentState document) "second").isSome &&
    (w.animation (createDocumentState document) "outer").isSome &&
    ((w.trackEntry "outer" "inner").getD none).isSome &&
    (w.tracks.entries.all fun e => e.2.entries.all fun t =>
      t.2.all fun track => trackTarget track = "second" && !isFocusTrack track) &&
    document.animations.entries.all fun e => e.2.tracks.entries.all fun t =>
      (w.trackEntry e.1 t.1).isSome

section Retarget

variable {document : BoardDocument} {options : BoardApplyOptions} (cascade : Bool)

section

variable (h : drivesSecond document options = true)
include h

theorem track_of_drivesSecond {a t : String} {v : Json}
    (hv : ((patched allTextRules document retargetPatch options).view document).track a t =
      some v) :
    trackTarget v = "second" ∧ isFocusTrack v = false := by
  unfold drivesSecond at h
  simp only [Bool.and_eq_true] at h
  obtain ⟨⟨-, hpending⟩, hstored⟩ := h
  rcases view_track_cases hv with hentry | ⟨hentry, htrack⟩
  · obtain ⟨tracks, htracks, ht⟩ := Option.bind_eq_some_iff.mp hentry
    rw [all_eq_true] at hpending
    have hinner := hpending _ ((OrderedMap.mem_entries_iff _ a tracks).mpr htracks)
    rw [all_eq_true] at hinner
    have htest := hinner _ ((OrderedMap.mem_entries_iff _ t (some v)).mpr ht)
    simpa using htest
  · obtain ⟨animation, hanimation, ht⟩ := Option.bind_eq_some_iff.mp htrack
    rw [all_eq_true] at hstored
    have hinner := hstored _ ((OrderedMap.mem_entries_iff _ a animation).mpr hanimation)
    rw [all_eq_true] at hinner
    have htest := hinner _ ((OrderedMap.mem_entries_iff _ t v).mpr ht)
    dsimp only at htest
    rw [hentry] at htest
    cases htest

theorem not_lost_second :
    ¬ Lost document (patched allTextRules document retargetPatch options) cascade "second" := by
  rintro ⟨-, -, hnotLeft⟩
  unfold drivesSecond at h
  simp only [Bool.and_eq_true] at h
  exact hnotLeft (.inr (.inl h.1.1.1.1.2))

theorem not_stillReferenced_of_drivesSecond :
    ¬ StillReferenced document (patched allTextRules document retargetPatch options) cascade := by
  have hitem : ∀ id, ((patched allTextRules document retargetPatch options).view document).item id =
      none := by
    intro id
    have hempty := h
    unfold drivesSecond at hempty
    simp only [Bool.and_eq_true] at hempty
    have hget : ∀ {α : Type} (m : OrderedMap String α),
        m.entries.isEmpty = true → m.get? id = none := by
      intro α m hm
      by_contra hsome
      obtain ⟨v, hv⟩ := Option.ne_none_iff_exists'.mp hsome
      have hmem := (m.mem_entries_iff id v).mpr hv
      rw [List.isEmpty_iff.mp hm] at hmem
      cases hmem
    show ((patched allTextRules document retargetPatch options).items.get? id).getD
      (document.items.get? id) = none
    rw [hget _ hempty.1.1.1.1.1.1, hget _ hempty.1.1.1.1.1.2]
    rfl
  intro hreferenced
  cases hreferenced with
  | parent hsome =>
    rw [hitem] at hsome
    cases hsome
  | binding hsome =>
    rw [hitem] at hsome
    cases hsome
  | track htrack hdangles =>
    obtain ⟨htarget, hfocus⟩ := track_of_drivesSecond h htrack
    rcases hdangles with hlost | ⟨hfocus', -⟩
    · rw [htarget] at hlost
      exact not_lost_second cascade h hlost
    · rw [hfocus] at hfocus'
      cases hfocus'

theorem inner_clean :
    ∃ v, ((patched allTextRules document retargetPatch options).view document).track
        "outer" "inner" = some v ∧
      cleanTrack document (patched allTextRules document retargetPatch options) cascade v =
        some v := by
  have hparts := h
  unfold drivesSecond at hparts
  simp only [Bool.and_eq_true] at hparts
  have halive := hparts.1.1.1.2
  obtain ⟨v, hv⟩ := Option.isSome_iff_exists.mp hparts.1.1.2
  have hentry : (patched allTextRules document retargetPatch options).trackEntry "outer" "inner" =
      some (some v) := by
    cases hget : (patched allTextRules document retargetPatch options).trackEntry
        "outer" "inner" with
    | none =>
      rw [hget] at hv
      cases hv
    | some entry =>
      rw [hget] at hv
      rw [← hv]
      rfl
  have hview : ((patched allTextRules document retargetPatch options).view document).track
      "outer" "inner" = some v := by
    have halive' : (((patched allTextRules document retargetPatch options).view document).animation
        "outer").isSome = true := by
      rw [view_animation (by decide)]
      exact halive
    show (if (((patched allTextRules document retargetPatch options).view document).animation
      "outer").isSome then _ else none) = some v
    rw [if_pos halive', hentry]
    rfl
  obtain ⟨htarget, hfocus⟩ := track_of_drivesSecond h hview
  refine ⟨v, hview, ?_⟩
  unfold cleanTrack
  rw [htarget, if_neg (not_lost_second cascade h), if_pos (.inl hfocus)]

end

end Retarget

end Cohub.Board
