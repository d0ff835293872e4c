import Cohub.Board.Inverse

/-! # What a deletion takes along

    A patch may remove items, scripts and animations and at the same time move
    other things away from them.  The deletion loops look at the pending values,
    so without cascade they reject what the patch leaves referring to something
    removed, and with cascade they take away just that.  One loop looks at the
    stored values only: a track stored on an animation that the patch removes
    is an error, or goes, wherever the patch has moved it (`Blamed`). -/

namespace Cohub.Board

open Fields Json List Option

/-! ## What is gone -/

section Gone

variable (document : BoardDocument) (w : Pending) (cascade : Bool)

/-- The items that the pending values `w` remove, with cascade also those
    inside of them. -/
inductive Gone : String → Prop where
  | removed {id : String} (h : w.items.get? id = some none) : Gone id
  | inside {id frame : String} {item : Json} (hcascade : cascade = true) (hframe : Gone frame)
      (hitem : (w.view document).item id = some item) (hparent : itemParent item = some frame) :
      Gone id

/-- The board has a script of this id that the patch removes. -/
def ScriptRemoved (id : String) : Prop :=
  document.view.script id = true ∧ w.script (createDocumentState document) id = false

/-- Something is left under this id. -/
def Left (id : String) : Prop :=
  ((w.item (createDocumentState document) id).isSome = true ∧ ¬ Gone document w cascade id) ∨
    (w.animation (createDocumentState document) id).isSome = true ∨
    w.script (createDocumentState document) id = true

/-- Something was removed under this id, and nothing is left. -/
def Lost (id : String) : Prop :=
  id ≠ boardCameraTarget ∧
    (Gone document w cascade id ∨ w.animations.get? id = some none ∨ ScriptRemoved document w id) ∧
    ¬ Left document w cascade id

/-- The keyframe focuses on an item that is gone. -/
def FocusGone (keyframe : Json) : Prop :=
  ∃ id, keyframe.get? "value" = some (.str id) ∧ Gone document w cascade id

/-- The track drives something lost, or it focuses on something gone. -/
def Dangles (track : Json) : Prop :=
  Lost document w cascade (trackTarget track) ∨
    (isFocusTrack track = true ∧
      ∃ keyframe ∈ keyframesOf track, FocusGone document w cascade keyframe)

/-- Something that the patch leaves refers to something it removes. -/
inductive StillReferenced : Prop where
  | parent {child frame : String} {item : Json} (hitem : (w.view document).item child = some item)
      (hparent : itemParent item = some frame) (hgone : Gone document w cascade frame)
  | binding {arrow bound : String} {item : Json} (hitem : (w.view document).item arrow = some item)
      (hbound : bound ∈ arrowBindings item) (hgone : Gone document w cascade bound)
  | track {a t : String} {track : Json} (htrack : (w.view document).track a t = some track)
      (hdangles : Dangles document w cascade track)

def withKeyframes (track : Json) (keyframes : List Json) : Json :=
  .obj (Fields.set track.fields "keyframes" (.arr keyframes))

open Classical in
/-- The keyframes that focus on nothing gone. -/
noncomputable def keptKeyframes (track : Json) : List Json :=
  (keyframesOf track).filter fun keyframe => decide (¬ FocusGone document w cascade keyframe)

open Classical in
/-- The track without what is gone: nothing if it drives something lost or if
    all its keyframes focus on something gone. -/
noncomputable def cleanTrack (track : Json) : Option Json :=
  if Lost document w cascade (trackTarget track) then none
  else if isFocusTrack track = false ∨
      (keptKeyframes document w cascade track).length = (keyframesOf track).length then some track
  else if keptKeyframes document w cascade track = [] then none
  else some (withKeyframes track (keptKeyframes document w cascade track))

/-- `v'` is the item `v`; if that is an arrow, its ends bound to something gone
    are points instead. -/
structure FreedFrom (gone : String → Prop) (v v' : Json) : Prop where
  other  : itemType v ≠ some "arrow" → v' = v
  member : ∀ k, k ≠ "props" → v'.get? k = v.get? k
  prop   : ∀ k, k ≠ "start" → k ≠ "end" → v'.at? ["props", k] = v.at? ["props", k]
  bound  : itemType v = some "arrow" → ∀ which b, boundItem (arrowEnd v which) = some b → gone b →
    ∃ point, arrowEnd v' which = some (pointEnd point)
  free   : ∀ which, (∀ b, boundItem (arrowEnd v which) = some b → ¬ gone b) →
    arrowEnd v' which = arrowEnd v which

/-- `after` is the patched board without what is gone and what refers to it,
    and otherwise as the patch left it. -/
structure Cascaded (after : BoardDocument) : Prop where
  board : after.board = w.settings.getD document.board
  animation : ∀ a, after.view.animation a = (w.view document).animation a
  gone : ∀ id, Gone document w cascade id → after.view.item id = none
  item : ∀ id, ¬ Gone document w cascade id →
    Option.Rel (FreedFrom (Gone document w cascade)) ((w.view document).item id)
      (after.view.item id)
  track : ∀ a t, after.view.track a t =
    ((w.view document).track a t).bind (cleanTrack document w cascade)

/-- The loops take the track `value` for one that refers to something removed:
    it was stored referring to an animation that the patch removes, other than
    its own, or it drives an id under which the patch removes an item or a
    script. -/
def Blamed (a t : String) (value : Json) : Prop :=
  ∃ stored id, document.view.track a t = some stored ∧ id ∈ trackReferences stored ∧
    ((w.animations.get? id = some none ∧ a ≠ id) ∨
      ((Gone document w cascade id ∨ ScriptRemoved document w id) ∧ trackTarget value = id))

/-- Such a track is none: something of what it refers to is left. -/
def Misjudged : Prop :=
  ∃ a t value, (w.view document).track a t = some value ∧ Blamed document w cascade a t value ∧
    cleanTrack document w cascade value ≠ none

end Gone

section Facts

variable {document : BoardDocument} {w : Pending} {cascade : Bool}

theorem gone_iff_of_no_cascade {id : String} :
    Gone document w false id ↔ w.items.get? id = some none := by
  constructor
  · intro h
    cases h with
    | removed h => exact h
    | inside hcascade => cases hcascade
  · exact Gone.removed

variable {track : Json}

theorem dangles_of_cleanTrack (h : cleanTrack document w cascade track = none) :
    Dangles document w cascade track := by
  unfold cleanTrack at h
  split at h
  · next hlost => exact .inl hlost
  · split at h
    · cases h
    · next hshort =>
      rw [not_or] at hshort
      obtain ⟨hfocus, hlength⟩ := hshort
      refine Or.inr ⟨by simpa using hfocus, ?_⟩
      by_contra hnone
      apply hlength
      unfold keptKeyframes
      rw [filter_eq_self.mpr]
      intro keyframe hkeyframe
      simpa using fun hgone => hnone ⟨keyframe, hkeyframe, hgone⟩

theorem referenced_or_misjudged {a t : String}
    (htrack : (w.view document).track a t = some track) (h : Blamed document w cascade a t track) :
    StillReferenced document w cascade ∨ Misjudged document w cascade := by
  by_cases hclean : cleanTrack document w cascade track = none
  · exact .inl (StillReferenced.track htrack (dangles_of_cleanTrack hclean))
  · exact .inr ⟨a, t, track, htrack, h, hclean⟩

theorem cleanTrack_eq_none (hfocus : isFocusTrack track = true) (hne : keyframesOf track ≠ [])
    (hall : ∀ keyframe ∈ keyframesOf track, FocusGone document w cascade keyframe) :
    cleanTrack document w cascade track = none := by
  have hkept : keptKeyframes document w cascade track = [] := by
    unfold keptKeyframes
    rw [filter_eq_nil_iff]
    intro keyframe hkeyframe
    simpa using hall keyframe hkeyframe
  have hshort : (0 : Nat) ≠ (keyframesOf track).length := by
    rw [ne_comm, ne_eq, length_eq_zero_iff]
    exact hne
  unfold cleanTrack
  rw [hkept, hfocus]
  split
  · rfl
  · rw [if_neg (by simpa using hshort), if_pos rfl]

end Facts

/-! ## What is stored around others -/

section Stored

variable {document : BoardDocument} {id : String}

theorem item_of_child {child : String} (h : child ∈ (createDocumentState document).children id) :
    ∃ item, document.items.get? child = some item ∧ itemParent item = some id := by
  obtain ⟨e, he, rfl⟩ := List.mem_map.mp h
  obtain ⟨hmem, htest⟩ := mem_filter.mp he
  refine ⟨e.2, (document.items.mem_entries_iff e.1 e.2).mp hmem, ?_⟩
  rw [Bool.and_eq_true] at htest
  simpa using htest.2

theorem track_of_trackRef {ref : TrackRef} (h : ref ∈ (createDocumentState document).trackRefs id) :
    ∃ stored, document.view.track ref.animation ref.track = some stored ∧
      id ∈ trackReferences stored := by
  obtain ⟨e, he, h⟩ := mem_flatMap.mp h
  obtain ⟨track, htrack, rfl⟩ := List.mem_map.mp h
  obtain ⟨hmem, hrefers⟩ := mem_filter.mp htrack
  refine ⟨track.2, ?_, by simpa using hrefers⟩
  show (document.animations.get? e.1).bind _ = some track.2
  rw [(document.animations.mem_entries_iff e.1 e.2).mp he, bind_some]
  exact (e.2.tracks.mem_entries_iff track.1 track.2).mp hmem

theorem view_track_of_stored {w : Pending} (hremoves : w.RemovesTracks document) {a t : String}
    {stored value : Json} (hstored : document.view.track a t = some stored)
    (h : w.track (createDocumentState document) a t = some value) :
    (w.view document).track a t = some value := by
  have halive : ((w.animations.get? a).getD (document.view.animation a)).isSome = true := by
    cases hentry : w.animations.get? a with
    | none => exact animation_of_track hstored
    | some header =>
      cases header with
      | some header => rfl
      | none =>
        -- the tracks of a removed animation are removed
        rw [Pending.track_of_entry (hremoves a t stored hentry hstored)] at h
        cases h
  show (if ((w.animations.get? a).getD (document.view.animation a)).isSome then
    (w.trackEntry a t).getD (document.view.track a t) else none) = some value
  rw [if_pos halive]
  cases hentry : w.trackEntry a t with
  | some entry =>
    rw [Pending.track_of_entry hentry] at h
    exact h
  | none =>
    rw [Pending.track_of_none hentry, track_of_stored hstored] at h
    rw [← h]
    exact hstored

end Stored

/-! ## Ends of arrows and keyframes of tracks -/

/-- `v'` is the arrow `v` with some ends bound to something gone as points. -/
structure Loosened (gone : String → Prop) (v v' : Json) : Prop where
  arrow  : itemType v = some "arrow"
  member : ∀ k, k ≠ "props" → v'.get? k = v.get? k
  prop   : ∀ k, k ≠ "start" → k ≠ "end" → v'.at? ["props", k] = v.at? ["props", k]
  ends   : ∀ which, arrowEnd v' which = arrowEnd v which ∨
    ((∃ b, boundItem (arrowEnd v which) = some b ∧ gone b) ∧
      ∃ point, arrowEnd v' which = some (pointEnd point))

namespace Loosened

variable {gone : String → Prop} {v v' v'' : Json}

theorem type (h : Loosened gone v v') : itemType v' = itemType v := by
  unfold itemType
  rw [h.member "type" (by decide)]

theorem parent (h : Loosened gone v v') : itemParent v' = itemParent v := by
  unfold itemParent
  rw [h.member "parent" (by decide)]

theorem mono {gone' : String → Prop} (h : Loosened gone v v') (hgone : ∀ b, gone b → gone' b) :
    Loosened gone' v v' := by
  refine { h with ends := ?_ }
  intro which
  rcases h.ends which with hsame | ⟨⟨b, hb, hgoneb⟩, hpoint⟩
  · exact .inl hsame
  · exact .inr ⟨⟨b, hb, hgone b hgoneb⟩, hpoint⟩

theorem trans (h : Loosened gone v v') (h' : Loosened gone v' v'') : Loosened gone v v'' := by
  constructor
  · exact h.arrow
  · exact fun k hk => (h'.member k hk).trans (h.member k hk)
  · exact fun k hstart hend => (h'.prop k hstart hend).trans (h.prop k hstart hend)
  · intro which
    rcases h.ends which with hsame | ⟨hbound, point, hpoint⟩
    · rw [← hsame]
      exact h'.ends which
    · -- a point stays
      rcases h'.ends which with hsame' | ⟨⟨b, hb, -⟩, -⟩
      · exact .inr ⟨hbound, point, hsame'.trans hpoint⟩
      · rw [hpoint, boundItem_pointEnd] at hb
        cases hb

end Loosened

section Unbinding

variable {layout : BoardLayout} {state : BoardState} {options : BoardApplyOptions}

theorem get?_unbindEnd_ne {k : String} (id arrowId : String) {which : ArrowSide}
    (hk : k ≠ which.name) (acc : Fields × Deletion layout) :
    Fields.get? (unbindEnd state options id arrowId which acc).1 k = Fields.get? acc.1 k := by
  unfold unbindEnd
  split
  · exact get?_set_ne _ _ hk
  · rfl

theorem get?_unbindEnd (id arrowId : String) (which : ArrowSide) (acc : Fields × Deletion layout) :
    Fields.get? (unbindEnd state options id arrowId which acc).1 which.name =
        Fields.get? acc.1 which.name ∨
      (boundItem (Fields.get? acc.1 which.name) = some id ∧
        ∃ point, Fields.get? (unbindEnd state options id arrowId which acc).1 which.name =
          some (pointEnd point)) := by
  unfold unbindEnd
  split
  · next hbound => exact .inr ⟨hbound, _, get?_set_self _ _ _⟩
  · exact .inl rfl

theorem get?_propsOf (arrow : Json) (k : String) :
    Fields.get? (((arrow.get? "props").map fields).getD []) k = arrow.at? ["props", k] := by
  rw [at?_cons]
  cases arrow.get? "props" with
  | none => rfl
  | some props =>
    rw [bind_some, at?_cons]
    show props.get? k = _
    cases props.get? k <;> rfl

theorem unbindArrow_loosened (id arrowId : String) (d : Deletion layout) :
    unbindArrow state options id d arrowId = d ∨
    ∃ arrow arrow' cache, d.pending.item state arrowId = some arrow ∧
      Loosened (· = id) arrow arrow' ∧ unbindArrow state options id d arrowId =
        { d with pending := d.pending.setItem arrowId (some arrow'), cache := cache } := by
  unfold unbindArrow
  cases hitem : d.pending.item state arrowId with
  | none => exact .inl rfl
  | some arrow =>
    dsimp only
    by_cases htype : itemType arrow = some "arrow"
    · rw [if_pos htype]
      generalize hprops : ((arrow.get? "props").map fields).getD [] = props
      have hget : ∀ k, Fields.get? props k = arrow.at? ["props", k] := by
        intro k
        rw [← hprops]
        exact get?_propsOf arrow k
      generalize hstart : unbindEnd state options id arrowId .start (props, d) = atStart
      generalize hend : unbindEnd state options id arrowId .end_ atStart = atEnd
      have hcache : ∃ cache, atEnd.2 = { d with cache := cache } := by
        obtain ⟨cache, hcache⟩ := unbindEnd_snd state options id arrowId .start (props, d)
        obtain ⟨cache', hcache'⟩ := unbindEnd_snd state options id arrowId .end_ atStart
        rw [hstart] at hcache
        rw [hend, hcache] at hcache'
        exact ⟨cache', hcache'⟩
      obtain ⟨cache, hcache⟩ := hcache
      refine Or.inr ⟨arrow, _, cache, rfl, ?_, by rw [hcache]⟩
      have hread : ∀ k,
          (Json.obj (Fields.set arrow.fields "props" (.obj atEnd.1))).at? ["props", k] =
            Fields.get? atEnd.1 k := by
        intro k
        rw [at?_cons, get?_obj, get?_set_self, bind_some, at?_cons]
        show (Fields.get? atEnd.1 k).bind _ = _
        cases Fields.get? atEnd.1 k <;> rfl
      constructor
      · exact htype
      · exact fun k hk => get?_set_ne _ _ hk
      · intro k hkstart hkend
        rw [hread, ← hend, get?_unbindEnd_ne _ _ (by exact hkend), ← hstart,
          get?_unbindEnd_ne _ _ (by exact hkstart), hget]
      · have hends : ∀ (v : Json) (which : ArrowSide),
            arrowEnd v which = v.at? ["props", which.name] := by
          intro v which
          rw [← get?_propsOf, get?_props]
        intro which
        rw [hends, hends, hread, ← hget]
        cases which with
        | start =>
          rw [← hend, get?_unbindEnd_ne _ _ (by decide), ← hstart]
          rcases @get?_unbindEnd layout state options id arrowId .start (props, d) with
            hsame | ⟨hbound, hpoint⟩
          · exact .inl hsame
          · exact .inr ⟨⟨id, hbound, rfl⟩, hpoint⟩
        | end_ =>
          have hkept : Fields.get? atStart.1 ArrowSide.end_.name =
              Fields.get? props ArrowSide.end_.name := by
            rw [← hstart, get?_unbindEnd_ne _ _ (by decide)]
          rw [← hend, ← hkept]
          rcases @get?_unbindEnd layout state options id arrowId .end_ atStart with
            hsame | ⟨hbound, hpoint⟩
          · exact .inl hsame
          · exact .inr ⟨⟨id, hbound, rfl⟩, hpoint⟩
    · rw [if_neg htype]
      exact .inl rfl

end Unbinding

/-- `v'` is the track `v`, perhaps without some keyframes that focus on something
    gone. -/
def Thinned (focusGone : Json → Prop) (v v' : Json) : Prop :=
  v' = v ∨ (isFocusTrack v = true ∧ ∃ keeps : Json → Bool,
    v' = withKeyframes v ((keyframesOf v).filter keeps) ∧ (keyframesOf v).filter keeps ≠ [] ∧
    (∃ keyframe ∈ keyframesOf v, keeps keyframe = false) ∧
    ∀ keyframe ∈ keyframesOf v, keeps keyframe = false → focusGone keyframe)

section Thinning

variable {focusGone : Json → Prop} {v v' : Json}

theorem trackTarget_withKeyframes (v : Json) (keyframes : List Json) :
    trackTarget (withKeyframes v keyframes) = trackTarget v := (setKeyframes_spec v keyframes).1

theorem keyframesOf_withKeyframes (v : Json) (keyframes : List Json) :
    keyframesOf (withKeyframes v keyframes) = keyframes := (setKeyframes_spec v keyframes).2.2

theorem isFocusTrack_withKeyframes (v : Json) (keyframes : List Json) :
    isFocusTrack (withKeyframes v keyframes) = isFocusTrack v := by
  unfold isFocusTrack
  rw [trackTarget_withKeyframes,
    show trackProperty (withKeyframes v keyframes) = trackProperty v from
      (setKeyframes_spec v keyframes).2.1]

theorem withKeyframes_withKeyframes (v : Json) (keyframes keyframes' : List Json) :
    withKeyframes (withKeyframes v keyframes) keyframes' = withKeyframes v keyframes' := by
  unfold withKeyframes
  rw [fields_obj, Fields.set_set]

theorem Thinned.target (h : Thinned focusGone v v') : trackTarget v' = trackTarget v := by
  rcases h with rfl | ⟨-, keeps, rfl, -⟩
  · rfl
  · exact trackTarget_withKeyframes v _

theorem Thinned.prune (h : Thinned focusGone v v') {id : String} (hrefers : id ∈ trackReferences v')
    (htarget : trackTarget v' ≠ id)
    (hgone : ∀ keyframe : Json, keyframe.get? "value" = some (.str id) → focusGone keyframe) :
    (pruneBoardTrack v' id = none ∧ isFocusTrack v = true ∧ keyframesOf v ≠ [] ∧
      ∀ keyframe ∈ keyframesOf v, focusGone keyframe) ∨
    ∃ v'', pruneBoardTrack v' id = some v'' ∧ Thinned focusGone v v'' := by
  obtain ⟨-, heq | ⟨hfocus, hstring⟩⟩ := mem_trackReferences.mp hrefers
  · exact absurd heq.symm htarget
  · obtain ⟨keyframe, hkeyframe, hvalue⟩ := mem_keyframeStrings.mp hstring
    have hshorter : ((keyframesOf v').filter fun keyframe =>
        keyframe.get? "value" != some (.str id)).length < (keyframesOf v').length :=
      length_filter_lt_length_iff_exists.mpr ⟨keyframe, hkeyframe, by simp [hvalue]⟩
    -- the keyframes that are left of the original ones
    obtain ⟨keeps, hkeeps, hfocusv, hdropped, hmem⟩ : ∃ keeps : Json → Bool,
        ((keyframesOf v').filter fun keyframe => keyframe.get? "value" != some (.str id)) =
          (keyframesOf v).filter keeps ∧ isFocusTrack v = true ∧
        (∀ keyframe ∈ keyframesOf v, keeps keyframe = false → focusGone keyframe) ∧
        keyframe ∈ keyframesOf v ∧ keeps keyframe = false ∧
        ∀ keyframes, withKeyframes v' keyframes = withKeyframes v keyframes := by
      rcases h with rfl | ⟨hfocusv, keeps, rfl, -, -, hdropped⟩
      · refine ⟨_, rfl, hfocus, ?_, hkeyframe, by simp [hvalue], fun _ => rfl⟩
        intro k _ hk
        exact hgone k (by simpa using hk)
      · rw [keyframesOf_withKeyframes] at hkeyframe ⊢
        rw [List.filter_filter]
        refine ⟨_, rfl, hfocusv, ?_, (mem_filter.mp hkeyframe).1, by simp [hvalue],
          fun keyframes => withKeyframes_withKeyframes v _ keyframes⟩
        intro k hk hfalse
        rw [Bool.and_eq_false_iff] at hfalse
        rcases hfalse with hvalue | hkeeps
        · exact hgone k (by simpa using hvalue)
        · exact hdropped k hk hkeeps
    obtain ⟨hmem, hnot, hwith⟩ := hmem
    unfold pruneBoardTrack
    rw [if_neg htarget, hfocus]
    simp only [Bool.not_true, Bool.false_eq_true, if_false]
    rw [if_neg (ne_of_lt hshorter), hkeeps]
    split
    · next hempty =>
      refine Or.inl ⟨rfl, hfocusv, ne_nil_of_mem hmem, ?_⟩
      intro k hk
      apply hdropped k hk
      rw [List.isEmpty_iff] at hempty
      have hno := filter_eq_nil_iff.mp hempty k hk
      simpa using hno
    · next hsome =>
      refine Or.inr ⟨_, rfl, .inr ⟨hfocusv, keeps, hwith _, ?_, ⟨keyframe, hmem, hnot⟩, hdropped⟩⟩
      intro hnil
      rw [hnil] at hsome
      exact hsome rfl

end Thinning

/-! ## What the loops do, judged on the pending values -/

/-- The codes of the errors about references to what the patch removes. -/
def referenceCodes : List String := ["ITEM_REFERENCED", "SCRIPT_REFERENCED", "ANIMATION_REFERENCED"]

section Judgement

variable {document : BoardDocument} {w : Pending} {cascade : Bool}

/-- A track that may go: nothing is left of it, or it is blamed. -/
def Droppable (document : BoardDocument) (w : Pending) (cascade : Bool) (a t : String)
    (track : Json) : Prop :=
  cleanTrack document w cascade track = none ∨ Blamed document w cascade a t track

/-- The pending values and the errors of the loops, in terms of the values `w`
    that the patch leaves. -/
structure Judged (document : BoardDocument) (w : Pending) (cascade : Bool) (x : Phase) : Prop where
  settings   : x.1.settings = w.settings
  animations : x.1.animations = w.animations
  item : ∀ id, x.1.items.get? id = w.items.get? id ∨
    (cascade = true ∧ x.1.items.get? id = some none ∧ Gone document w cascade id) ∨
    ∃ v v', w.item (createDocumentState document) id = some v ∧
      x.1.items.get? id = some (some v') ∧ Loosened (Gone document w cascade) v v'
  track : ∀ a t, x.1.trackEntry a t = w.trackEntry a t ∨
    (cascade = true ∧ (document.view.track a t).isSome = true ∧
      ∃ v, w.track (createDocumentState document) a t = some v ∧
        ((x.1.trackEntry a t = some none ∧ Droppable document w cascade a t v) ∨
          ∃ v', x.1.trackEntry a t = some (some v') ∧
            Thinned (FocusGone document w cascade) v v'))
  codes  : ∀ e ∈ x.2, e.code ∈ referenceCodes
  blamed : x.2 ≠ [] → cascade = false ∧
    (StillReferenced document w cascade ∨ Misjudged document w cascade)

namespace Judged

variable {x : Phase}

theorem start : Judged document w cascade (w, []) := by
  constructor
  · rfl
  · rfl
  · exact fun id => .inl rfl
  · exact fun a t => .inl rfl
  · simp
  · simp

theorem error (h : Judged document w cascade x) {path code message : String}
    (hcode : code ∈ referenceCodes) (hcascade : cascade = false)
    (hblamed : StillReferenced document w cascade ∨ Misjudged document w cascade) :
    Judged document w cascade (x.1, x.2 ++ [boardError path code message]) := by
  refine { h with codes := ?_, blamed := fun _ => ⟨hcascade, hblamed⟩ }
  intro e' he'
  rcases mem_append.mp he' with he' | he'
  · exact h.codes e' he'
  · rw [mem_singleton.mp he']
    exact hcode

variable {id : String} {v' : Json}

theorem removeItem (h : Judged document w cascade x) (hcascade : cascade = true)
    (hgone : Gone document w cascade id) :
    Judged document w cascade (x.1.setItem id none, x.2) := by
  refine { h with item := ?_ }
  intro id'
  rw [Pending.items_setItem, OrderedMap.get?_set]
  split
  · next heq =>
    rw [heq]
    exact .inr (.inl ⟨hcascade, rfl, hgone⟩)
  · exact h.item id'

theorem item_source (h : Judged document w cascade x)
    (hv' : x.1.item (createDocumentState document) id = some v') :
    ∃ v, w.item (createDocumentState document) id = some v ∧
      (v' = v ∨ Loosened (Gone document w cascade) v v') := by
  rcases h.item id with hsame | ⟨-, hnone, -⟩ | ⟨v, w', hv, hw', hloose⟩
  · refine ⟨v', ?_, .inl rfl⟩
    unfold Pending.item at hv' ⊢
    rw [← hsame]
    exact hv'
  · rw [Pending.item_of_entry hnone] at hv'
    cases hv'
  · rw [Pending.item_of_entry hw'] at hv'
    cases hv'
    exact ⟨v, hv, .inr hloose⟩

variable {v : Json} {a t : String}

theorem loosenItem (h : Judged document w cascade x)
    (hv : x.1.item (createDocumentState document) id = some v)
    (hloose : Loosened (Gone document w cascade) v v') :
    Judged document w cascade (x.1.setItem id (some v'), x.2) := by
  refine { h with item := ?_ }
  intro id'
  rw [Pending.items_setItem, OrderedMap.get?_set]
  split
  · next heq =>
    rw [heq]
    obtain ⟨u, hu, rfl | hbefore⟩ := h.item_source hv
    · exact .inr (.inr ⟨v, v', hu, rfl, hloose⟩)
    · exact .inr (.inr ⟨u, v', hu, rfl, hbefore.trans hloose⟩)
  · exact h.item id'

theorem track_source (h : Judged document w cascade x)
    (hv' : x.1.track (createDocumentState document) a t = some v') :
    ∃ v, w.track (createDocumentState document) a t = some v ∧
      Thinned (FocusGone document w cascade) v v' ∧ (cascade = false → v' = v) := by
  rcases h.track a t with hsame | ⟨hcascade, -, v, hv, ⟨hnone, -⟩ | ⟨u, hu, hthin⟩⟩
  · refine ⟨v', ?_, .inl rfl, fun _ => rfl⟩
    unfold Pending.track at hv' ⊢
    rw [← hsame]
    exact hv'
  · rw [Pending.track_of_entry hnone] at hv'
    cases hv'
  · rw [Pending.track_of_entry hu] at hv'
    cases hv'
    refine ⟨v, hv, hthin, ?_⟩
    intro hno
    rw [hno] at hcascade
    cases hcascade

theorem track_same (h : Judged document w false x) (a t : String) :
    x.1.trackEntry a t = w.trackEntry a t := by
  rcases h.track a t with hsame | ⟨hcascade, -⟩
  · exact hsame
  · cases hcascade

theorem releaseTrack (h : Judged document w cascade x) (hcascade : cascade = true)
    (hstored : (document.view.track a t).isSome = true)
    (hv : w.track (createDocumentState document) a t = some v) {value : Option Json}
    (hvalue : (value = none ∧ Droppable document w cascade a t v) ∨
      ∃ v', value = some v' ∧ Thinned (FocusGone document w cascade) v v') :
    Judged document w cascade (x.1.setTrack a t value, x.2) := by
  refine { h with track := ?_ }
  intro a' t'
  rw [Pending.trackEntry_setTrack]
  split
  · next heq =>
    obtain ⟨rfl, rfl⟩ := heq
    refine Or.inr ⟨hcascade, hstored, v, hv, ?_⟩
    rcases hvalue with ⟨rfl, hdrop⟩ | ⟨v', rfl, hthin⟩
    · exact .inl ⟨rfl, hdrop⟩
    · exact .inr ⟨v', rfl, hthin⟩
  · exact h.track a' t'

end Judged

/-! ### One round of the deletion loop -/

variable {layout : BoardLayout} {options : BoardApplyOptions}

/-- The deletion loop's state: what it still looks at is gone. -/
structure JudgedDeletion (document : BoardDocument) (w : Pending) (cascade : Bool)
    (d : Deletion layout) : Prop where
  judged  : Judged document w cascade d.phase
  deletes : ∀ id ∈ d.deletes, Gone document w cascade id

variable {x : Phase} {id : String} {d : Deletion layout} {child : String}

theorem child_on_view (h : Judged document w cascade x)
    (hchild : child ∈ (createDocumentState document).children id)
    (hstays : (x.1.items.get? child).any (fun value => value.bind itemParent != some id) = false) :
    ∃ item, (w.view document).item child = some item ∧ itemParent item = some id := by
  have hview : (w.view document).item child =
      (w.items.get? child).getD (document.items.get? child) := rfl
  cases hentry : x.1.items.get? child with
  | none =>
    have hw : w.items.get? child = none := by
      rcases h.item child with hsame | ⟨-, hnone, -⟩ | ⟨v, v', -, hv', -⟩
      · rw [← hsame, hentry]
      · rw [hentry] at hnone
        cases hnone
      · rw [hentry] at hv'
        cases hv'
    obtain ⟨item, hitem, hparent⟩ := item_of_child hchild
    rw [hview, hw]
    exact ⟨item, hitem, hparent⟩
  | some value =>
    rw [hentry] at hstays
    have hparent : value.bind itemParent = some id := by simpa using hstays
    obtain ⟨v', rfl, hparent'⟩ := bind_eq_some_iff.mp hparent
    rcases h.item child with hsame | ⟨-, hnone, -⟩ | ⟨v, u, hv, hu, hloose⟩
    · rw [hview, ← hsame, hentry]
      exact ⟨v', rfl, hparent'⟩
    · rw [hentry] at hnone
      cases hnone
    · rw [hentry] at hu
      cases hu
      refine ⟨v, view_of_itemType hv hloose.arrow, ?_⟩
      rw [← hloose.parent]
      exact hparent'

theorem judged_deleteChild
    (h : JudgedDeletion document w options.cascade d) (hgone : Gone document w options.cascade id)
    (hchild : child ∈ (createDocumentState document).children id) :
    JudgedDeletion document w options.cascade (deleteChild options id d child) := by
  unfold deleteChild
  dsimp only
  split
  · exact h
  · next hstays =>
    obtain ⟨item, hitem, hparent⟩ := child_on_view h.judged hchild (eq_false_of_ne_true hstays)
    split
    · next hcascade =>
      split
      · exact h
      · have hchildGone := Gone.inside hcascade hgone hitem hparent
        refine ⟨h.judged.removeItem hcascade hchildGone, ?_⟩
        intro other hother
        rcases mem_cons.mp hother with rfl | hother
        · exact hchildGone
        · exact h.deletes other hother
    · next hcascade =>
      refine ⟨h.judged.error (by decide) (by simpa using hcascade) ?_, h.deletes⟩
      exact .inl (StillReferenced.parent hitem hparent hgone)

theorem judged_unbindArrow {arrowId : String}
    (h : JudgedDeletion document w cascade d) (hgone : Gone document w cascade id) :
    JudgedDeletion document w cascade
      (unbindArrow (createDocumentState document) options id d arrowId) := by
  rcases @unbindArrow_loosened layout (createDocumentState document) options id arrowId d with
    heq | ⟨arrow, arrow', cache, harrow, hloose, heq⟩
  · rw [heq]
    exact h
  · rw [heq]
    refine ⟨h.judged.loosenItem harrow (hloose.mono ?_), h.deletes⟩
    intro b hb
    rw [hb]
    exact hgone

section

variable (hremoves : w.RemovesTracks document)
include hremoves

theorem judged_releaseTrack {ref : TrackRef} (h : JudgedDeletion document w options.cascade d)
    (hgone : Gone document w options.cascade id)
    (href : ref ∈ (createDocumentState document).trackRefs id) :
    JudgedDeletion document w options.cascade
      (releaseTrack (createDocumentState document) options id d ref) := by
  obtain ⟨stored, hstored, hstoredId⟩ := track_of_trackRef href
  unfold releaseTrack
  cases htrack : d.pending.track (createDocumentState document) ref.animation ref.track with
  | none => exact h
  | some current =>
    dsimp only
    obtain ⟨v, hv, hthin, hsame⟩ := h.judged.track_source htrack
    have hblamed : trackTarget v = id →
        Blamed document w options.cascade ref.animation ref.track v := fun htarget =>
      ⟨stored, id, hstored, hstoredId, .inr ⟨.inl hgone, htarget⟩⟩
    split
    · next hcontains =>
      have hrefers : id ∈ trackReferences current := by simpa using hcontains
      split
      · next hcascade =>
        refine ⟨h.judged.releaseTrack hcascade (by rw [hstored]; rfl) hv ?_, h.deletes⟩
        by_cases htarget : trackTarget current = id
        · refine Or.inl ⟨?_, .inr (hblamed (hthin.target ▸ htarget))⟩
          unfold pruneBoardTrack
          rw [if_pos htarget]
        · rcases hthin.prune hrefers htarget fun keyframe hvalue => ⟨id, hvalue, hgone⟩ with
            ⟨hnone, hfocus, hne, hall⟩ | hsome
          · exact .inl ⟨hnone, .inl (cleanTrack_eq_none hfocus hne hall)⟩
          · exact .inr hsome
      · next hcascade =>
        have hno : options.cascade = false := by simpa using hcascade
        refine ⟨h.judged.error (by decide) hno ?_, h.deletes⟩
        have hview := view_track_of_stored hremoves hstored hv
        rw [hsame hno] at hrefers
        obtain ⟨-, htarget | ⟨hfocus, hstring⟩⟩ := mem_trackReferences.mp hrefers
        · exact referenced_or_misjudged hview (hblamed htarget.symm)
        · obtain ⟨keyframe, hkeyframe, hvalue⟩ := mem_keyframeStrings.mp hstring
          exact .inl (StillReferenced.track hview
            (.inr ⟨hfocus, keyframe, hkeyframe, id, hvalue, hgone⟩))
    · exact h

theorem judged_deleteOne
    (h : JudgedDeletion document w options.cascade d) (hgone : Gone document w options.cascade id) :
    JudgedDeletion document w options.cascade
      (deleteOne (createDocumentState document) options d id) := by
  unfold deleteOne
  have hchildren := foldlRecOn (motive := fun d => JudgedDeletion document w options.cascade d)
    ((createDocumentState document).children id) (deleteChild options id) h
    fun d hd child hchild => judged_deleteChild hd hgone hchild
  have harrows := foldlRecOn (motive := fun d => JudgedDeletion document w options.cascade d)
    ((createDocumentState document).binders id)
    (unbindArrow (createDocumentState document) options id) hchildren
    fun d hd arrow _ => judged_unbindArrow hd hgone
  exact foldlRecOn (motive := fun d => JudgedDeletion document w options.cascade d) _ _ harrows
    fun d hd ref href => judged_releaseTrack hremoves hd hgone href

theorem judged_deleteRounds (n : Nat) (h : JudgedDeletion document w options.cascade d) :
    Judged document w options.cascade
      (deleteRounds (createDocumentState document) options n d).phase := by
  induction n generalizing d with
  | zero => exact h.judged
  | succ n ih =>
    rw [deleteRounds]
    split
    · exact h.judged
    · next id rest hdeletes =>
      apply ih
      have hgone : Gone document w options.cascade id :=
        h.deletes id (by rw [hdeletes]; exact mem_cons_self)
      have hrest : JudgedDeletion document w options.cascade { d with deletes := rest } := by
        refine ⟨h.judged, fun other hother => h.deletes other ?_⟩
        rw [hdeletes]
        exact mem_cons_of_mem _ hother
      exact judged_deleteOne hremoves hrest hgone

/-! ### Removed scripts and animations -/

theorem judged_releaseScripts (h : Judged document w options.cascade x) :
    Judged document w options.cascade
      (releaseScripts (createDocumentState document) options x) := by
  unfold releaseScripts
  apply foldlRecOn (motive := fun x : Phase => Judged document w options.cascade x) _ _ h
  intro x hx e he
  split
  · exact hx
  · next hscript =>
    have hremoved : ScriptRemoved document w e.1 := by
      constructor
      · have hkey : e.1 ∈ Fields.keys (((document.board.get? "scripts").map fields).getD []) :=
          List.mem_map_of_mem he
        obtain ⟨v, hv⟩ := (mem_keys_iff _ _).mp hkey
        show (Fields.get? _ e.1).isSome = true
        rw [hv]
        rfl
      · unfold Pending.script Pending.scripts at hscript ⊢
        rw [← hx.settings]
        simpa using hscript
    apply foldlRecOn (motive := fun x : Phase => Judged document w options.cascade x) _ _ hx
    intro x hx ref href
    obtain ⟨stored, hstored, hstoredId⟩ := track_of_trackRef href
    unfold releaseScriptTrack
    split
    · next htarget =>
      obtain ⟨current, htrack, htarget⟩ := map_eq_some_iff.mp htarget
      obtain ⟨v, hv, hthin, -⟩ := hx.track_source htrack
      have hblamed : Blamed document w options.cascade ref.animation ref.track v :=
        ⟨stored, e.1, hstored, hstoredId, .inr ⟨.inr hremoved, hthin.target ▸ htarget⟩⟩
      split
      · next hcascade =>
        exact hx.releaseTrack hcascade (by rw [hstored]; rfl) hv (.inl ⟨rfl, .inr hblamed⟩)
      · next hcascade =>
        exact hx.error (by decide) (by simpa using hcascade)
          (referenced_or_misjudged (view_track_of_stored hremoves hstored hv) hblamed)
    · exact hx

theorem judged_releaseAnimations (h : Judged document w options.cascade x) :
    Judged document w options.cascade
      (releaseAnimations (createDocumentState document) options x) := by
  unfold releaseAnimations
  apply foldlRecOn (motive := fun x : Phase => Judged document w options.cascade x) _ _ h
  intro y hy e he
  split
  · exact hy
  · next hsome =>
    have hremoved : w.animations.get? e.1 = some none := by
      rw [← h.animations]
      have hnone : e.2 = none := by simpa using hsome
      have hget := (x.1.animations.mem_entries_iff e.1 e.2).mp he
      rw [hget, hnone]
    apply foldlRecOn (motive := fun x : Phase => Judged document w options.cascade x) _ _ hy
    intro y hy ref href
    obtain ⟨stored, hstored, hstoredId⟩ := track_of_trackRef href
    unfold releaseNestedTrack
    split
    · exact hy
    · next hskip =>
      rw [not_or] at hskip
      obtain ⟨hother, hfound⟩ := hskip
      obtain ⟨current, htrack⟩ := isSome_iff_exists.mp
        (isSome_iff_ne_none.mpr (by simpa using hfound))
      obtain ⟨v, hv, -, -⟩ := hy.track_source htrack
      have hblamed : Blamed document w options.cascade ref.animation ref.track v :=
        ⟨stored, e.1, hstored, hstoredId, .inl ⟨hremoved, hother⟩⟩
      split
      · next hcascade =>
        exact hy.releaseTrack hcascade (by rw [hstored]; rfl) hv (.inl ⟨rfl, .inr hblamed⟩)
      · next hcascade =>
        exact hy.error (by decide) (by simpa using hcascade)
          (referenced_or_misjudged (view_track_of_stored hremoves hstored hv) hblamed)

end

theorem judged_releaseReferences (layout : BoardLayout) (hremoves : w.RemovesTracks document) :
    Judged document w options.cascade
      (releaseReferences layout (createDocumentState document) options w) := by
  unfold releaseReferences
  apply judged_releaseAnimations hremoves
  apply judged_releaseScripts hremoves
  apply judged_deleteRounds hremoves
  refine ⟨Judged.start, ?_⟩
  intro id hid
  exact Gone.removed (mem_deletedItems.mp (mem_reverse.mp hid))

end Judgement

end Cohub.Board
