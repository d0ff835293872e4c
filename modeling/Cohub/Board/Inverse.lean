import Cohub.Board.WellFormed

/-! # A patch and its inverse

    `applyBoardPatch` returns two deltas: `after` leads from the document to
    the pending values it validated, and `before` leads back.

    A lookup in a document's records by a name that every object has a member
    of finds that member where the document has nothing.  Such a member ends up
    in `before`, so a patch that names an item, an animation or a track so is
    not taken back. -/

namespace Cohub.Board

open List Option OrderedMap

/-! ## Applying a delta -/

def BoardDelta.trackEntry (delta : BoardDelta) (a t : String) : Option (Option Json) :=
  (delta.tracks.get? a).bind fun tracks => tracks.get? t

section Deltas

variable (document : BoardDocument) (delta : BoardDelta)

theorem view_item_of_delta (id : String) :
    (applyBoardDelta document delta).view.item id =
      (delta.items.get? id).getD (document.view.item id) :=
  get?_items_of_delta document delta id

theorem view_animation_of_delta (a : String) :
    (applyBoardDelta document delta).view.animation a =
      (delta.animations.get? a).getD (document.view.animation a) := by
  show Option.map _ (get? _ a) = _
  rw [get?_animations_of_delta, Option.map_map]
  exact congrFun Option.map_id _

theorem view_track_of_delta (a t : String) :
    (applyBoardDelta document delta).view.track a t =
      if ((applyBoardDelta document delta).view.animation a).isSome then
        (delta.trackEntry a t).getD (document.view.track a t)
      else none := by
  rw [view_animation_of_delta]
  show Option.bind (get? _ a) _ = _
  rw [get?_animations_of_delta]
  show Option.bind (Option.map _ ((delta.animations.get? a).getD (document.view.animation a))) _ = _
  generalize (delta.animations.get? a).getD (document.view.animation a) = header
  cases header with
  | none => rfl
  | some header =>
    show get? _ t = _
    unfold BoardDelta.trackEntry
    have hstored : document.view.track a t = (storedTracks document a).get? t :=
      (get?_storedTracks document a t).symm
    rw [hstored]
    cases delta.tracks.get? a with
    | none => rfl
    | some tracks => exact get?_writeTracks _ _ _

end Deltas

/-! ## The two deltas of a patch -/

section TwoDeltas

variable (state : BoardState) (p : Pending)

theorem items_deltaAfter (id : String) :
    (deltaAfter state p).items.get? id =
      (p.items.get? id).filter fun value => state.item id != value :=
  get?_filter _ _ _

theorem trackEntry_deltaAfter (a t : String) :
    (deltaAfter state p).trackEntry a t =
      (p.trackEntry a t).filter fun value => state.track a t != value := by
  unfold BoardDelta.trackEntry Pending.trackEntry
  show (get? ((p.tracks.mapValues _).filter _) a).bind _ = _
  rw [get?_filter, get?_mapValues]
  cases p.tracks.get? a with
  | none => rfl
  | some tracks =>
    have hchanged : (changedTracks state a tracks).get? t =
        (tracks.get? t).filter fun value => state.track a t != value :=
      get?_filter _ _ _
    rw [bind_some, ← hchanged, map_some]
    -- tracks are left out where none has changed
    by_cases hsize : (changedTracks state a tracks).size = 0
    · rw [get?_of_size_eq_zero hsize t]
      simp [Option.filter, hsize]
    · simp [Option.filter, hsize]

theorem items_deltaBefore (id : String) :
    (deltaBefore state p).items.get? id =
      ((deltaAfter state p).items.get? id).map fun _ => state.item id :=
  get?_mapValues _ _ _

theorem animations_deltaBefore (a : String) :
    (deltaBefore state p).animations.get? a =
      (p.animations.get? a).map fun _ => state.animation a :=
  get?_mapValues _ _ _

theorem trackEntry_deltaBefore (a t : String) :
    (deltaBefore state p).trackEntry a t =
      ((deltaAfter state p).trackEntry a t).map fun _ => state.track a t := by
  unfold BoardDelta.trackEntry
  show (get? ((deltaAfter state p).tracks.mapValues _) a).bind _ = _
  rw [get?_mapValues]
  cases (deltaAfter state p).tracks.get? a with
  | none => rfl
  | some tracks => exact get?_mapValues _ _ _

end TwoDeltas

/-! ## Taking a patch back -/

/-- Two documents with the same contents; the order of ids in a record is not
    part of them. -/
structure BoardDocument.Same (document document' : BoardDocument) : Prop where
  board : document.board = document'.board
  view  : document.view = document'.view

/-- An animation that goes takes all of its tracks along. -/
def Pending.RemovesTracks (p : Pending) (document : BoardDocument) : Prop :=
  ∀ a t v, p.animations.get? a = some none → document.view.track a t = some v →
    p.trackEntry a t = some none

/-- The delta changes something that the document does not have under a name
    that every object has a member of. -/
def BoardDelta.Misread (delta : BoardDelta) (document : BoardDocument) : Prop :=
  (∃ id, isInherited id = true ∧ (delta.items.get? id).isSome = true ∧
    document.view.item id = none) ∨
  (∃ a, isInherited a = true ∧ (delta.animations.get? a).isSome = true ∧
    document.view.animation a = none) ∨
  ∃ a t, isInherited t = true ∧ (delta.trackEntry a t).isSome = true ∧
    (document.view.animation a).isSome = true ∧ document.view.track a t = none

section Restore

variable {document : BoardDocument} {p : Pending}

/-- The document with a patch applied and taken back. -/
def restored (document : BoardDocument) (p : Pending) : BoardDocument :=
  applyBoardDelta
    (applyBoardDelta document (deltaAfter (createDocumentState document) p))
    (deltaBefore (createDocumentState document) p)

theorem board_restored (document : BoardDocument) (p : Pending) :
    (restored document p).board = document.board := by
  show (Option.map (fun _ => document.board) _).getD (Option.getD _ document.board) = _
  cases (deltaAfter (createDocumentState document) p).board <;> rfl

theorem item_restored (id : String) :
    (restored document p).view.item id =
      if ((deltaAfter (createDocumentState document) p).items.get? id).isSome then
        readMember (document.view.item id) id
      else document.view.item id := by
  unfold restored
  rw [view_item_of_delta, view_item_of_delta, items_deltaBefore]
  cases (deltaAfter (createDocumentState document) p).items.get? id <;> rfl

theorem animation_restored (a : String) :
    (restored document p).view.animation a =
      if (p.animations.get? a).isSome then documentAnimation document a
      else document.view.animation a := by
  unfold restored
  rw [view_animation_of_delta, view_animation_of_delta, animations_deltaBefore]
  show Option.getD _ (Option.getD (p.animations.get? a) _) = _
  cases p.animations.get? a <;> rfl

theorem documentAnimation_eq (document : BoardDocument) (a : String) :
    documentAnimation document a =
      match document.view.animation a with
      | some header => some header
      | none => if isInherited a then some (.obj []) else none := by
  unfold documentAnimation
  show _ = match (document.animations.get? a).map BoardAnimation.header with
    | some header => some header
    | none => if isInherited a then some (.obj []) else none
  cases document.animations.get? a <;> rfl

variable {a : String}

theorem documentTrack_eq (ha : (document.view.animation a).isSome = true) (t : String) :
    documentTrack document a t = readMember (document.view.track a t) t := by
  have ha' : ((document.animations.get? a).map BoardAnimation.header).isSome = true := ha
  unfold documentTrack
  show _ = readMember ((document.animations.get? a).bind _) t
  cases hget : document.animations.get? a with
  | none => simp [hget] at ha'
  | some animation => rfl

theorem track_of_no_animation (ha : document.view.animation a = none) (t : String) :
    document.view.track a t = none := by
  cases htrack : document.view.track a t with
  | none => rfl
  | some v =>
    have hsome := animation_of_track htrack
    rw [ha] at hsome
    cases hsome

theorem track_restored (hremoves : p.RemovesTracks document)
    (ha : (document.view.animation a).isSome = true)
    (hrestored : ((restored document p).view.animation a).isSome = true) (t : String) :
    (restored document p).view.track a t =
      if ((deltaAfter (createDocumentState document) p).trackEntry a t).isSome then
        readMember (document.view.track a t) t
      else document.view.track a t := by
  unfold restored at hrestored ⊢
  rw [view_track_of_delta, if_pos hrestored, trackEntry_deltaBefore]
  have hstate : (createDocumentState document).track a t = readMember (document.view.track a t) t :=
    documentTrack_eq ha t
  cases hentry : (deltaAfter (createDocumentState document) p).trackEntry a t with
  | some value => exact hstate
  | none =>
    show (applyBoardDelta document _).view.track a t = _
    rw [view_track_of_delta, hentry]
    split
    · rfl
    · next hgone =>
      -- the animation goes, so the delta has all of its tracks
      rw [view_animation_of_delta] at hgone
      have hpending : p.animations.get? a = some none := by
        cases hp : p.animations.get? a with
        | none =>
          rw [show (deltaAfter (createDocumentState document) p).animations.get? a = none from hp]
            at hgone
          exact absurd ha hgone
        | some header =>
          cases header with
          | none => rfl
          | some header =>
            rw [show (deltaAfter (createDocumentState document) p).animations.get? a =
              some (some header) from hp] at hgone
            exact absurd rfl hgone
      cases htrack : document.view.track a t with
      | none => rfl
      | some v =>
        rw [trackEntry_deltaAfter, hremoves a t v hpending htrack, hstate, htrack] at hentry
        simp [Option.filter] at hentry

theorem restored_same_iff (hremoves : p.RemovesTracks document) :
    (restored document p).Same document ↔
      ¬ (deltaAfter (createDocumentState document) p).Misread document := by
  constructor
  · rintro ⟨-, hview⟩ (⟨id, hid, hentry, hnone⟩ | ⟨a, ha, hentry, hnone⟩ | ⟨a, t, ht, hentry, ha, hnone⟩)
    · have hitem := congrFun (congrArg BoardView.item hview) id
      rw [item_restored, if_pos hentry, hnone] at hitem
      simp [readMember, hid] at hitem
    · have hanimation := congrFun (congrArg BoardView.animation hview) a
      have hentry' : (p.animations.get? a).isSome = true := hentry
      rw [animation_restored, if_pos hentry', documentAnimation_eq, hnone] at hanimation
      simp [ha] at hanimation
    · have hanimation := congrFun (congrArg BoardView.animation hview) a
      have htrack := congrFun (congrFun (congrArg BoardView.track hview) a) t
      rw [track_restored hremoves ha (by rw [hanimation]; exact ha), if_pos hentry, hnone] at htrack
      simp [readMember, ht] at htrack
  · intro hfine
    unfold BoardDelta.Misread at hfine
    rw [not_or, not_or] at hfine
    obtain ⟨hitems, hanimations, htracks⟩ := hfine
    have hboard := board_restored document p
    -- a read by name finds the document's own
    have hown : ∀ (own : Option Json) (name : String),
        ¬ (isInherited name = true ∧ own = none) → readMember own name = own := by
      intro own name hnot
      by_cases hname : isInherited name = true
      · cases own with
        | some v => rfl
        | none => exact absurd ⟨hname, rfl⟩ hnot
      · exact readMember_eq_own (by simpa using hname)
    have hitem : (restored document p).view.item = document.view.item := by
      funext id
      rw [item_restored]
      split
      · next hentry =>
        apply hown
        rintro ⟨hid, hnone⟩
        exact hitems ⟨id, hid, hentry, hnone⟩
      · rfl
    have hanimation : (restored document p).view.animation = document.view.animation := by
      funext a
      rw [animation_restored]
      split
      · next hentry =>
        rw [documentAnimation_eq]
        cases hnone : document.view.animation a with
        | some header => rfl
        | none =>
          have ha : ¬ isInherited a = true := fun ha => hanimations ⟨a, ha, hentry, hnone⟩
          simp [ha]
      · rfl
    have htrack : (restored document p).view.track = document.view.track := by
      funext a t
      have hsame := congrFun hanimation a
      cases ha : document.view.animation a with
      | none =>
        rw [ha] at hsame
        rw [track_of_no_animation ha, track_of_no_animation hsame]
      | some header =>
        have ha' : (document.view.animation a).isSome = true := by rw [ha]; rfl
        rw [track_restored hremoves ha' (by rw [hsame]; exact ha')]
        split
        · next hentry =>
          apply hown
          rintro ⟨ht, hnone⟩
          exact htracks ⟨a, t, ht, hentry, ha', hnone⟩
        · rfl
    have hscript : (restored document p).view.script = document.view.script := by
      funext id
      show (Fields.get? ((((restored document p).board.get? "scripts").map _).getD []) id).isSome = _
      rw [hboard]
      rfl
    exact ⟨hboard, BoardView.ext hitem hanimation htrack hscript⟩

end Restore

/-! ## What the deletion loops write -/

/-- Kept by removing, unbinding or pruning what is stored around others. -/
structure KeptByRelease (state : BoardState) (P : Pending → Prop) : Prop where
  item  : ∀ p id v, P p → (∃ x, id ∈ state.children x ∨ id ∈ state.binders x) →
    (∀ w, v = some w → w.isRecord = true) → P (p.setItem id v)
  track : ∀ p a t v, P p → (∃ x, ({ animation := a, track := t } : TrackRef) ∈ state.trackRefs x) →
    (∀ w, v = some w → w.isRecord = true) → P (p.setTrack a t v)

section Loops

variable {layout : BoardLayout} {state : BoardState} {P : Pending → Prop}
  {id : String} {d : Deletion layout}

section

variable (hP : KeptByRelease state P)
include hP

theorem keeps_deleteChild (options : BoardApplyOptions)
    {child : String} (hchild : child ∈ state.children id)
    (h : P d.pending) : P (deleteChild options id d child).pending := by
  rcases deleteChild_cases options id child d with ⟨heq, -⟩ | ⟨heq, -⟩ | ⟨error, heq⟩
  · rw [heq]
    exact h
  · rw [heq]
    exact hP.item _ _ _ h ⟨id, .inl hchild⟩ (by simp)
  · rw [heq]
    exact h

theorem keeps_unbindArrow (options : BoardApplyOptions)
    {arrowId : String} (harrow : arrowId ∈ state.binders id)
    (h : P d.pending) : P (unbindArrow state options id d arrowId).pending := by
  rcases unbindArrow_cases state options id arrowId d with
    ⟨heq, -⟩ | ⟨arrow, arrow', cache, -, hunbound, -, heq⟩
  · rw [heq]
    exact h
  · rw [heq]
    apply hP.item _ _ _ h ⟨id, .inr harrow⟩
    rintro w ⟨⟩
    exact hunbound.isRecord

theorem keeps_releaseTrack (options : BoardApplyOptions)
    {ref : TrackRef} (href : ref ∈ state.trackRefs id)
    (h : P d.pending) : P (releaseTrack state options id d ref).pending := by
  rcases releaseTrack_cases state options id d ref with
    ⟨heq, -⟩ | ⟨current, value, -, hvalue, heq⟩ | ⟨error, heq⟩
  · rw [heq]
    exact h
  · rw [heq]
    apply hP.track _ _ _ _ h ⟨id, href⟩
    intro w hw
    exact (hvalue w hw).1.isRecord
  · rw [heq]
    exact h

theorem keeps_deleteOne (options : BoardApplyOptions) (id : String)
    (h : P d.pending) : P (deleteOne state options d id).pending := by
  unfold deleteOne
  have hchildren : P ((state.children id).foldl (deleteChild options id) d).pending :=
    foldlRecOn (motive := fun d : Deletion layout => P d.pending) _ _ h
      fun d hd child hchild => keeps_deleteChild hP options hchild hd
  have harrows := foldlRecOn (motive := fun d : Deletion layout => P d.pending)
    (state.binders id) (unbindArrow state options id) hchildren
    fun d hd arrow harrow => keeps_unbindArrow hP options harrow hd
  exact foldlRecOn (motive := fun d : Deletion layout => P d.pending) _ _ harrows
    fun d hd ref href => keeps_releaseTrack hP options href hd

theorem keeps_deleteRounds (options : BoardApplyOptions) (n : Nat)
    (h : P d.pending) : P (deleteRounds state options n d).pending := by
  induction n generalizing d with
  | zero => exact h
  | succ n ih =>
    rw [deleteRounds]
    split
    · exact h
    · next id rest _ =>
      have hround : P (deleteOne state options { d with deletes := rest } id).pending :=
        keeps_deleteOne hP options id h
      exact ih hround

end

variable {acc : Phase}

theorem keeps_releaseScripts (hP : KeptByRelease state P) (options : BoardApplyOptions)
    (h : P acc.1) : P (releaseScripts state options acc).1 := by
  unfold releaseScripts
  apply foldlRecOn (motive := fun acc : Phase => P acc.1) _ _ h
  intro acc hacc e _
  split
  · exact hacc
  · apply foldlRecOn (motive := fun acc : Phase => P acc.1) _ _ hacc
    intro acc hacc ref href
    unfold releaseScriptTrack
    split
    · split
      · exact hP.track _ _ _ _ hacc ⟨e.1, href⟩ (by simp)
      · exact hacc
    · exact hacc

theorem keeps_releaseAnimations (hP : KeptByRelease state P) (options : BoardApplyOptions)
    (h : P acc.1) : P (releaseAnimations state options acc).1 := by
  unfold releaseAnimations
  apply foldlRecOn (motive := fun acc : Phase => P acc.1) _ _ h
  intro acc hacc e _
  split
  · exact hacc
  · apply foldlRecOn (motive := fun acc : Phase => P acc.1) _ _ hacc
    intro acc hacc ref href
    unfold releaseNestedTrack
    split
    · exact hacc
    · split
      · exact hP.track _ _ _ _ hacc ⟨e.1, href⟩ (by simp)
      · exact hacc

theorem keeps_releaseReferences (hP : KeptByRelease state P) (layout : BoardLayout)
    (options : BoardApplyOptions) {p : Pending} (h : P p) :
    P (releaseReferences layout state options p).1 := by
  unfold releaseReferences
  apply keeps_releaseAnimations hP
  apply keeps_releaseScripts hP
  exact keeps_deleteRounds hP options _ h

end Loops

/-! ### What is stored around others -/

variable {document : BoardDocument} {a t : String}

theorem item_of_neighbour {id : String}
    (h : ∃ x, id ∈ documentChildren document x ∨ id ∈ documentBinders document x) :
    (document.view.item id).isSome = true := by
  obtain ⟨x, h | h⟩ := h
  · obtain ⟨e, he, rfl⟩ := List.mem_map.mp h
    have hget := (document.items.mem_entries_iff e.1 e.2).mp (mem_of_mem_filter he)
    show (document.items.get? e.1).isSome = true
    rw [hget]
    rfl
  · obtain ⟨e, he, rfl⟩ := List.mem_map.mp h
    have hget := (document.items.mem_entries_iff e.1 e.2).mp (mem_of_mem_filter he)
    show (document.items.get? e.1).isSome = true
    rw [hget]
    rfl

theorem track_of_ref
    (h : ∃ x, ({ animation := a, track := t } : TrackRef) ∈ documentTrackRefs document x) :
    (document.view.track a t).isSome = true := by
  obtain ⟨x, h⟩ := h
  obtain ⟨e, he, h⟩ := mem_flatMap.mp h
  obtain ⟨track, htrack, href⟩ := List.mem_map.mp h
  cases href
  have hanimation := (document.animations.mem_entries_iff e.1 e.2).mp he
  have hget := (e.2.tracks.mem_entries_iff track.1 track.2).mp (mem_of_mem_filter htrack)
  show ((document.animations.get? e.1).bind _).isSome = true
  rw [hanimation, bind_some, hget]
  rfl

/-! ## What a patch writes -/

/-- Every pending value is of something that is stored or that the patch
    names. -/
structure Traced (document : BoardDocument) (patch : BoardPatch) (p : Pending) : Prop where
  item : ∀ id v, p.items.get? id = some v →
    patch.items.has id = true ∨ (document.view.item id).isSome = true
  removed : ∀ a, p.animations.get? a = some none → patch.animations.get? a = some .remove
  animation : ∀ a v, p.animations.get? a = some (some v) →
    (createDocumentState document).item a = none
  track : ∀ a t v, p.trackEntry a t = some v → (document.view.track a t).isSome = true ∨
    ∃ header tracks, patch.animations.get? a = some (.write header tracks) ∧ tracks.has t = true
  proper : p.Proper

namespace Traced

variable {document : BoardDocument} {patch : BoardPatch} {p : Pending}

theorem empty (settings : Option Json) :
    Traced document patch { Pending.empty with settings := settings } where
  item _ _ h := by cases h
  removed _ h := by cases h
  animation _ _ h := by cases h
  track _ _ _ h := by cases h
  proper :=
    { item := fun _ _ h => by cases h
      track := fun _ _ _ h => by cases h }

variable {v : Option Json}

theorem setItem (h : Traced document patch p) {id : String}
    (hid : patch.items.has id = true ∨ (document.view.item id).isSome = true)
    (hv : ∀ w, v = some w → w.isRecord = true) : Traced document patch (p.setItem id v) where
  item id' v' h' := by
    rw [Pending.items_setItem, get?_set] at h'
    split at h'
    · next heq => rw [heq]; exact hid
    · exact h.item id' v' h'
  removed := h.removed
  animation := h.animation
  track := h.track
  proper :=
    { item := by
        intro id' v' h'
        rw [Pending.items_setItem, get?_set] at h'
        split at h'
        · exact hv v' (Option.some.inj h')
        · exact h.proper.item id' v' h'
      track := h.proper.track }

variable {a : String}

theorem setTrack (h : Traced document patch p) {t : String}
    (hat : (document.view.track a t).isSome = true ∨
      ∃ header tracks, patch.animations.get? a = some (.write header tracks) ∧ tracks.has t = true)
    (hv : ∀ w, v = some w → w.isRecord = true) : Traced document patch (p.setTrack a t v) where
  item := h.item
  removed := h.removed
  animation := h.animation
  track a' t' v' h' := by
    rw [Pending.trackEntry_setTrack] at h'
    split at h'
    · next heq => rw [heq.1, heq.2]; exact hat
    · exact h.track a' t' v' h'
  proper :=
    { item := h.proper.item
      track := by
        intro a' t' v' h'
        rw [Pending.trackEntry_setTrack] at h'
        split at h'
        · exact hv v' (Option.some.inj h')
        · exact h.proper.track a' t' v' h' }

theorem setAnimation (h : Traced document patch p)
    (hnone : v = none → patch.animations.get? a = some .remove)
    (hsome : v.isSome = true → (createDocumentState document).item a = none) :
    Traced document patch (p.setAnimation a v) where
  item := h.item
  removed a' h' := by
    have hset : (p.animations.set a v).get? a' = some none := h'
    rw [get?_set] at hset
    split at hset
    · next heq => rw [heq]; exact hnone (Option.some.inj hset)
    · exact h.removed a' hset
  animation a' v' h' := by
    have hset : (p.animations.set a v).get? a' = some (some v') := h'
    rw [get?_set] at hset
    split at hset
    · next heq =>
      rw [heq]
      exact hsome (by rw [Option.some.inj hset]; rfl)
    · exact h.animation a' v' hset
  track := h.track
  proper := { item := h.proper.item, track := h.proper.track }

theorem keptByRelease (document : BoardDocument) (patch : BoardPatch) :
    KeptByRelease (createDocumentState document) (Traced document patch) where
  item _ _ _ h hstored hv := h.setItem (.inr (item_of_neighbour hstored)) hv
  track _ _ _ _ h hstored hv := h.setTrack (.inl (track_of_ref hstored)) hv

end Traced

section Write

variable {rules : TextRules} {document : BoardDocument} {options : BoardApplyOptions}
  {patch : BoardPatch} {a t : String}

theorem mem_trackIds (h : t ∈ (createDocumentState document).trackIds a) :
    (document.view.track a t).isSome = true := by
  have hids : t ∈ (document.animations.get? a).elim [] fun a => a.tracks.keys := h
  show ((document.animations.get? a).bind _).isSome = true
  cases hget : document.animations.get? a with
  | none => rw [hget] at hids; exact absurd hids (by simp)
  | some animation =>
    rw [hget] at hids
    exact (animation.tracks.mem_keys_iff t).mp hids

theorem trackIds_of_track {v : Json} (h : document.view.track a t = some v) :
    t ∈ (createDocumentState document).trackIds a := by
  obtain ⟨animation, hanimation, hv⟩ := bind_eq_some_iff.mp h
  show t ∈ (document.animations.get? a).elim [] fun a => a.tracks.keys
  rw [hanimation]
  exact (animation.tracks.mem_keys_iff t).mpr ((animation.tracks.has_iff t).mpr ⟨v, hv⟩)

theorem traced_applySettings (board : Option Json) :
    Traced document patch (applySettings rules (createDocumentState document) options board).1 := by
  unfold applySettings
  split
  · exact Traced.empty none
  · dsimp only
    split
    · exact Traced.empty _
    · exact Traced.empty none

variable {value : Json} {acc : Phase}

theorem traced_applyItem {acc : ItemPhase} {id : String}
    (hid : patch.items.has id = true) (h : Traced document patch acc.phase.1) :
    Traced document patch
      (applyItem rules (createDocumentState document) options acc id value).phase.1 := by
  rcases applyItem_cases rules (createDocumentState document) options acc id value with
    heq | heq | ⟨parsed, hrecord, -, heq⟩
  · rw [heq]
    exact h
  · rw [heq]
    exact h.setItem (.inl hid) (by simp)
  · rw [heq]
    apply h.setItem (.inl hid)
    rintro w ⟨⟩
    exact hrecord

theorem traced_applyTrack {header : Fields} {tracks : OrderedMap String Json}
    (htracks : patch.animations.get? a = some (.write header tracks)) (ht : tracks.has t = true)
    (h : Traced document patch acc.1) :
    Traced document patch (applyTrack rules (createDocumentState document) options a acc t value).1 := by
  rcases applyTrack_cases rules (createDocumentState document) options a acc t value with
    heq | heq | ⟨parsed, hrecord, -, heq⟩
  · rw [heq]
    exact h
  · rw [heq]
    exact h.setTrack (.inr ⟨header, tracks, htracks, ht⟩) (by simp)
  · rw [heq]
    apply h.setTrack (.inr ⟨header, tracks, htracks, ht⟩)
    rintro w ⟨⟩
    exact hrecord

theorem traced_applyAnimation {value : AnimationPatch}
    (hvalue : patch.animations.get? a = some value) (h : Traced document patch acc.1) :
    Traced document patch
      (applyAnimation rules (createDocumentState document) options acc a value).1 := by
  unfold applyAnimation
  split
  · split
    · dsimp only
      apply foldlRecOn _ _ (h.setAnimation (fun _ => hvalue) (by simp))
      intro p hp t ht
      exact hp.setTrack (.inl (mem_trackIds ht)) (by simp)
    · exact h
  · next fields tracks =>
    dsimp only
    have hwrite : ∀ acc : Phase, Traced document patch acc.1 →
        Traced document patch (tracks.entries.foldl
          (fun acc e => applyTrack rules (createDocumentState document) options a acc e.1 e.2)
          acc).1 := by
      intro acc hacc
      refine foldlRecOn (motive := fun (acc : Phase) => Traced document patch acc.1) _ _ hacc ?_
      intro acc hacc e he
      have hhas : tracks.has e.1 = true :=
        (tracks.has_iff e.1).mpr ⟨e.2, (tracks.mem_entries_iff e.1 e.2).mp he⟩
      exact traced_applyTrack hvalue hhas hacc
    split
    · exact h
    · next hfree =>
      have hitem : (createDocumentState document).item a = none := by
        rw [Bool.or_eq_true, not_or] at hfree
        simpa using hfree.1
      split
      · split
        · exact h
        · split
          · exact hwrite acc h
          · exact hwrite _ (h.setAnimation (by simp) fun _ => hitem)
      · exact hwrite acc h

theorem traced_writePatch (rules : TextRules) (options : BoardApplyOptions) (patch : BoardPatch) :
    Traced document patch (writePatch rules (createDocumentState document) options patch).1 := by
  unfold writePatch
  dsimp only
  refine foldlRecOn (motive := fun (acc : Phase) => Traced document patch acc.1) _ _ ?_ ?_
  · refine foldlRecOn
      (motive := fun (acc : ItemPhase) => Traced document patch acc.phase.1) _ _ ?_ ?_
    · exact traced_applySettings patch.board
    · intro acc hacc e he
      have hhas : patch.items.has e.1 = true :=
        (patch.items.has_iff e.1).mpr ⟨e.2, (patch.items.mem_entries_iff e.1 e.2).mp he⟩
      exact traced_applyItem hhas hacc
  · intro acc hacc e he
    exact traced_applyAnimation ((patch.animations.mem_entries_iff e.1 e.2).mp he) hacc

end Write

/-! ## What an accepted patch surely writes -/

/-- `y` comes after `x`: what is pending stays so, and no error gets lost. -/
structure Follows (x y : Phase) : Prop where
  items      : ∀ id, (x.1.items.get? id).isSome = true → (y.1.items.get? id).isSome = true
  animations : ∀ a, (x.1.animations.get? a).isSome = true →
    (y.1.animations.get? a).isSome = true
  tracks     : ∀ a t, (x.1.trackEntry a t).isSome = true → (y.1.trackEntry a t).isSome = true
  errors     : y.2 = [] → x.2 = []

namespace Follows

theorem refl (x : Phase) : Follows x x :=
  ⟨fun _ => id, fun _ => id, fun _ _ => id, id⟩

theorem trans {x y z : Phase} (h : Follows x y) (h' : Follows y z) : Follows x z where
  items id hid := h'.items id (h.items id hid)
  animations a ha := h'.animations a (h.animations a ha)
  tracks a t hat := h'.tracks a t (h.tracks a t hat)
  errors hz := h.errors (h'.errors hz)

variable (p : Pending) (ds : List BoardDiagnostic)

theorem error (es : List BoardDiagnostic) : Follows (p, ds) (p, ds ++ es) where
  items _ := id
  animations _ := id
  tracks _ _ := id
  errors hnil := (append_eq_nil_iff.mp hnil).1

theorem setItem (id : String) (v : Option Json) :
    Follows (p, ds) (p.setItem id v, ds) where
  items id' h := by
    show ((p.items.set id v).get? id').isSome = true
    rw [get?_set]
    split
    · rfl
    · exact h
  animations _ := fun h => h
  tracks _ _ := fun h => h
  errors h := h

theorem setAnimation (a : String) (v : Option Json) :
    Follows (p, ds) (p.setAnimation a v, ds) where
  items _ := fun h => h
  animations a' h := by
    show ((p.animations.set a v).get? a').isSome = true
    rw [get?_set]
    split
    · rfl
    · exact h
  tracks _ _ := fun h => h
  errors h := h

theorem setTrack (a t : String) (v : Option Json) :
    Follows (p, ds) (p.setTrack a t v, ds) where
  items _ := fun h => h
  animations _ := fun h => h
  tracks a' t' h := by
    show ((p.setTrack a t v).trackEntry a' t').isSome = true
    rw [Pending.trackEntry_setTrack]
    split
    · rfl
    · exact h
  errors h := h

theorem setTracks (a : String) (ts : List String) :
    Follows (p, ds) (ts.foldl (fun p t => p.setTrack a t none) p, ds) ∧
      ∀ t ∈ ts, ((ts.foldl (fun p t => p.setTrack a t none) p).trackEntry a t).isSome = true := by
  have hstep : ∀ (p : Pending) (t : String), t ∈ ts → Follows (p, ds) (p.setTrack a t none, ds) :=
    fun p t _ => Follows.setTrack p ds a t none
  have hrefl : ∀ p : Pending, Follows (p, ds) (p, ds) := fun p => Follows.refl _
  have htrans : ∀ p q r : Pending, Follows (p, ds) (q, ds) → Follows (q, ds) (r, ds) →
      Follows (p, ds) (r, ds) := fun p q r h h' => h.trans h'
  constructor
  · exact Loop.foldl_rel (R := fun p q : Pending => Follows (p, ds) (q, ds)) hrefl htrans hstep p
  · refine Loop.foldl_establishes (R := fun p q : Pending => Follows (p, ds) (q, ds))
      (Q := fun t p => (p.trackEntry a t).isSome = true) hrefl htrans hstep ?_ ?_ p
    · intro p t _
      rw [Pending.trackEntry_setTrack, if_pos ⟨rfl, rfl⟩]
      rfl
    · intro t p q ht hpq
      exact hpq.tracks a t ht

end Follows

section Surely

variable (rules : TextRules) (state : BoardState) (options : BoardApplyOptions)

theorem applyItem_follows (acc : ItemPhase) (id : String) (value : Json) :
    Follows acc.phase (applyItem rules state options acc id value).phase ∧
      ((applyItem rules state options acc id value).phase.2 = [] →
        state.item id = some (.native id) →
        ((applyItem rules state options acc id value).phase.1.items.get? id).isSome = true) := by
  have hset : ∀ v, ((acc.phase.1.setItem id v).items.get? id).isSome = true := by
    intro v
    rw [Pending.items_setItem, get?_set_self]
    rfl
  unfold applyItem
  split
  · split
    · exact ⟨Follows.setItem _ _ _ _, fun _ _ => hset none⟩
    · next hnone =>
      refine ⟨Follows.refl _, ?_⟩
      intro _ hnative
      rw [hnative] at hnone
      exact absurd rfl hnone
  · dsimp only
    split
    · next diagnostics hdiagnostics =>
      refine ⟨Follows.error _ _ _, ?_⟩
      intro hnil
      rw [(append_eq_nil_iff.mp hnil).2] at hdiagnostics
      exact absurd hdiagnostics (parseBoardItem_ne_error_nil rules _ _ _)
    · next parsed hparsed =>
      split
      · next hsame =>
        refine ⟨Follows.refl _, ?_⟩
        intro _ hnative
        -- no parsed item is a member of `Object.prototype`
        have hrecord := (parseBoardItem_spec hparsed).1
        rw [hnative] at hsame
        have heq : Json.native id = parsed := by
          unfold boardJsonEquals at hsame
          simpa using hsame
        rw [← heq] at hrecord
        cases hrecord
      · exact ⟨Follows.setItem _ _ _ _, fun _ _ => hset _⟩

theorem applyTrack_follows (a : String) (acc : Phase) (t : String) (value : Json) :
    Follows acc (applyTrack rules state options a acc t value) ∧
      ((applyTrack rules state options a acc t value).2 = [] →
        state.track a t = some (.native t) →
        ((applyTrack rules state options a acc t value).1.trackEntry a t).isSome = true) := by
  have hset : ∀ v, ((acc.1.setTrack a t v).trackEntry a t).isSome = true := by
    intro v
    rw [Pending.trackEntry_setTrack, if_pos ⟨rfl, rfl⟩]
    rfl
  unfold applyTrack
  dsimp only
  split
  · refine ⟨Follows.error _ _ _, ?_⟩
    intro hnil
    exact absurd (append_eq_nil_iff.mp hnil).2 (by simp)
  · split
    · split
      · exact ⟨Follows.setTrack _ _ _ _ _, fun _ _ => hset none⟩
      · next hnone =>
        refine ⟨Follows.refl _, ?_⟩
        intro _ hnative
        rw [hnative] at hnone
        exact absurd rfl hnone
    · split
      · next issues hissues =>
        refine ⟨Follows.error _ _ _, ?_⟩
        intro hnil
        rw [map_eq_nil_iff.mp (append_eq_nil_iff.mp hnil).2] at hissues
        exact absurd hissues (parseKeepingBoardFields_ne_error_nil _ _ _)
      · next parsed hparsed =>
        split
        · next hsame =>
          refine ⟨Follows.refl _, ?_⟩
          intro _ hnative
          have hrecord := (parseTrack_spec hparsed).1
          rw [hnative] at hsame
          have heq : Json.native t = parsed := by
            unfold boardJsonEquals at hsame
            simpa using hsame
          rw [← heq] at hrecord
          cases hrecord
        · exact ⟨Follows.setTrack _ _ _ _ _, fun _ _ => hset _⟩

theorem applyTracks_follows (a : String) (tracks : OrderedMap String Json) (acc : Phase) :
    Follows acc (tracks.entries.foldl
        (fun acc e => applyTrack rules state options a acc e.1 e.2) acc) ∧
      ∀ e ∈ tracks.entries,
        (tracks.entries.foldl (fun acc e => applyTrack rules state options a acc e.1 e.2) acc).2 =
            [] →
          state.track a e.1 = some (.native e.1) →
          ((tracks.entries.foldl (fun acc e => applyTrack rules state options a acc e.1 e.2)
            acc).1.trackEntry a e.1).isSome = true := by
  have hstep : ∀ acc : Phase, ∀ e ∈ tracks.entries,
      Follows acc (applyTrack rules state options a acc e.1 e.2) :=
    fun acc e _ => (applyTrack_follows rules state options a acc e.1 e.2).1
  constructor
  · exact Loop.foldl_rel Follows.refl (fun _ _ _ h h' => h.trans h') hstep acc
  · refine Loop.foldl_establishes (R := Follows)
      (Q := fun e acc => acc.2 = [] → state.track a e.1 = some (.native e.1) →
        (acc.1.trackEntry a e.1).isSome = true)
      Follows.refl (fun _ _ _ h h' => h.trans h') hstep ?_ ?_ acc
    · intro acc e _
      exact (applyTrack_follows rules state options a acc e.1 e.2).2
    · intro e acc acc' hacc hfollows hnil hnative
      exact hfollows.tracks a e.1 (hacc (hfollows.errors hnil) hnative)

/-- What a round of the animations establishes: a removed animation is pending
    with all of its tracks, and so are tracks that only name what every object
    has. -/
structure AnimationWritten (a : String) (value : AnimationPatch) (acc : Phase) : Prop where
  removed : value = .remove → (state.animation a).isSome = true →
    (acc.1.animations.get? a).isSome = true ∧
      ∀ t ∈ state.trackIds a, (acc.1.trackEntry a t).isSome = true
  tracks  : ∀ header tracks t, value = .write header tracks → tracks.has t = true →
    state.track a t = some (.native t) → (acc.1.trackEntry a t).isSome = true

variable (acc : Phase)

theorem applyAnimation_follows (a : String) (value : AnimationPatch) :
    Follows acc (applyAnimation rules state options acc a value) ∧
      ((applyAnimation rules state options acc a value).2 = [] →
        AnimationWritten state a value (applyAnimation rules state options acc a value)) := by
  unfold applyAnimation
  split
  · split
    · obtain ⟨hfollows, hall⟩ := Follows.setTracks (acc.1.setAnimation a none) acc.2 a
        (state.trackIds a)
      have hset := Follows.setAnimation acc.1 acc.2 a none
      refine ⟨hset.trans hfollows, fun _ => ⟨fun _ _ => ⟨?_, hall⟩, ?_⟩⟩
      · apply hfollows.animations
        show ((acc.1.animations.set a none).get? a).isSome = true
        rw [get?_set_self]
        rfl
      · intro header tracks t hvalue
        cases hvalue
    · next hnone =>
      refine ⟨Follows.refl _, fun _ => ⟨fun _ hsome => absurd hsome hnone, ?_⟩⟩
      intro header tracks t hvalue
      cases hvalue
  · next fields tracks =>
    dsimp only
    -- the tracks come last, after the header
    have hwrite : ∀ acc' : Phase, Follows acc acc' →
        Follows acc (tracks.entries.foldl
          (fun acc e => applyTrack rules state options a acc e.1 e.2) acc') ∧
        ((tracks.entries.foldl (fun acc e => applyTrack rules state options a acc e.1 e.2)
            acc').2 = [] →
          AnimationWritten state a (.write fields tracks) (tracks.entries.foldl
            (fun acc e => applyTrack rules state options a acc e.1 e.2) acc')) := by
      intro acc' hacc
      obtain ⟨hfollows, hall⟩ := applyTracks_follows rules state options a tracks acc'
      refine ⟨hacc.trans hfollows, fun hnil => ⟨fun hvalue => (by cases hvalue), ?_⟩⟩
      intro header tracks' t hvalue ht hnative
      cases hvalue
      obtain ⟨v, hv⟩ := (tracks.has_iff t).mp ht
      exact hall (t, v) ((tracks.mem_entries_iff t v).mpr hv) hnil hnative
    have herror : ∀ es : List BoardDiagnostic, es ≠ [] →
        Follows acc (acc.1, acc.2 ++ es) ∧ ((acc.1, acc.2 ++ es).2 = [] →
          AnimationWritten state a (.write fields tracks) (acc.1, acc.2 ++ es)) := by
      intro es hes
      refine ⟨Follows.error _ _ _, ?_⟩
      intro hnil
      exact absurd (append_eq_nil_iff.mp hnil).2 hes
    split
    · exact herror _ (by simp)
    · split
      · split
        · next issues hissues =>
          apply herror
          intro hnil
          rw [map_eq_nil_iff.mp hnil] at hissues
          exact absurd hissues (parseKeepingBoardFields_ne_error_nil _ _ _)
        · split
          · exact hwrite acc (Follows.refl _)
          · exact hwrite _ (Follows.setAnimation _ _ _ _)
      · exact hwrite acc (Follows.refl _)

theorem writePatch_writes {patch : BoardPatch} (hok : (writePatch rules state options patch).2 = []) :
    (∀ id, patch.items.has id = true → state.item id = some (.native id) →
      ((writePatch rules state options patch).1.items.get? id).isSome = true) ∧
    ∀ a value, patch.animations.get? a = some value →
      AnimationWritten state a value (writePatch rules state options patch) := by
  unfold writePatch at hok ⊢
  dsimp only at hok ⊢
  generalize hitems : patch.items.entries.foldl
    (fun acc e => applyItem rules state options acc e.1 e.2)
    { phase := applySettings rules state options patch.board, zByParent := OrderedMap.empty } =
      items at hok ⊢
  generalize hanimations : patch.animations.entries.foldl
    (fun acc e => applyAnimation rules state options acc e.1 e.2) items.phase = animations at hok ⊢
  have hnil := (append_eq_nil_iff.mp hok).1
  have hstep : ∀ acc : Phase, ∀ e ∈ patch.animations.entries,
      Follows acc (applyAnimation rules state options acc e.1 e.2) :=
    fun acc e _ => (applyAnimation_follows rules state options acc e.1 e.2).1
  have hfollows : Follows items.phase animations := by
    rw [← hanimations]
    exact Loop.foldl_rel Follows.refl (fun _ _ _ h h' => h.trans h') hstep items.phase
  constructor
  · intro id hid hnative
    apply hfollows.items
    obtain ⟨v, hv⟩ := (patch.items.has_iff id).mp hid
    have hall := Loop.foldl_establishes (R := fun x y : ItemPhase => Follows x.phase y.phase)
      (Q := fun (e : String × Json) acc => acc.phase.2 = [] →
        state.item e.1 = some (.native e.1) → (acc.phase.1.items.get? e.1).isSome = true)
      (l := patch.items.entries)
      (fun _ => Follows.refl _) (fun _ _ _ h h' => h.trans h')
      (fun acc e _ => (applyItem_follows rules state options acc e.1 e.2).1)
      (fun acc e _ => (applyItem_follows rules state options acc e.1 e.2).2)
      (fun e _ _ hacc hf hnil hnative => hf.items e.1 (hacc (hf.errors hnil) hnative))
      { phase := applySettings rules state options patch.board, zByParent := OrderedMap.empty }
    rw [hitems] at hall
    exact hall (id, v) ((patch.items.mem_entries_iff id v).mpr hv) (hfollows.errors hnil) hnative
  · intro a value hvalue
    have hall := Loop.foldl_establishes (R := Follows)
      (Q := fun (e : String × AnimationPatch) acc => acc.2 = [] →
        AnimationWritten state e.1 e.2 acc)
      (l := patch.animations.entries)
      Follows.refl (fun _ _ _ h h' => h.trans h') hstep
      (fun acc e _ => (applyAnimation_follows rules state options acc e.1 e.2).2)
      (fun e acc acc' hacc hf hnil =>
        { removed := fun hvalue hsome =>
            ⟨hf.animations e.1 ((hacc (hf.errors hnil)).removed hvalue hsome).1,
              fun t ht => hf.tracks e.1 t (((hacc (hf.errors hnil)).removed hvalue hsome).2 t ht)⟩
          tracks := fun header tracks t hvalue ht hnative =>
            hf.tracks e.1 t ((hacc (hf.errors hnil)).tracks header tracks t hvalue ht hnative) })
      items.phase
    rw [hanimations] at hall
    have hwritten := hall (a, value) ((patch.animations.mem_entries_iff a value).mpr hvalue) hnil
    exact ⟨hwritten.removed, hwritten.tracks⟩

end Surely

/-! ## Accepted patches -/

/-- The pending values that `applyBoardPatch` validates. -/
def validatedPending (rules : TextRules) (layout : BoardLayout) (document : BoardDocument)
    (patch : BoardPatch) (options : BoardApplyOptions) : Pending :=
  (releaseReferences layout (createDocumentState document) options
    (writePatch rules (createDocumentState document) options patch).1).1

/-- `reached` is the document with the pending values `p`, in which no check
    found an error. -/
structure ReachesValidated (rules : TextRules) (options : BoardApplyOptions)
    (document : BoardDocument) (p : Pending) (reached : BoardDocument) : Prop where
  items : itemErrors (createDocumentState document) p = []
  retyped : retypedErrors rules (createDocumentState document) options p = []
  tracks : trackErrors rules (createDocumentState document) options p = []
  board : reached.board = p.settings.getD document.board
  view : reached.view = p.view document
  item : ∀ id, isInherited id = false →
    (createDocumentState reached).item id = p.item (createDocumentState document) id
  animation : ∀ a, isInherited a = false →
    (createDocumentState reached).animation a = p.animation (createDocumentState document) a
  track : ∀ a t, isInherited a = false → isInherited t = false →
    (createDocumentState reached).track a t = p.track (createDocumentState document) a t

/-- The record schemas of a patch leave out a key `__proto__`. -/
structure BoardPatch.WithoutProto (patch : BoardPatch) : Prop where
  items      : patch.items.has "__proto__" = false
  animations : patch.animations.has "__proto__" = false
  tracks     : ∀ a header tracks, patch.animations.get? a = some (.write header tracks) →
    tracks.has "__proto__" = false

/-- A name other than `__proto__` that every object has a member of. -/
def isObjectMember (name : String) : Bool := isInherited name && name != "__proto__"

/-- The patch writes or removes something that the document does not have under
    a name that every object has a member of. -/
def BoardPatch.NamesObjectMember (patch : BoardPatch) (document : BoardDocument) : Prop :=
  (∃ id, isObjectMember id = true ∧ patch.items.has id = true ∧ document.view.item id = none) ∨
  (∃ a, isObjectMember a = true ∧ patch.animations.get? a = some .remove ∧
    document.view.animation a = none) ∨
  ∃ a t header tracks, isObjectMember t = true ∧
    patch.animations.get? a = some (.write header tracks) ∧ tracks.has t = true ∧
    (document.view.animation a).isSome = true ∧ document.view.track a t = none

theorem no_track_of_gone {rules : TextRules} {state : BoardState} {options : BoardApplyOptions}
    {p : Pending} (h : trackErrors rules state options p = []) {v : Json}
    (ha : p.animation state a = none) : p.trackEntry a t ≠ some (some v) := by
  intro hv
  obtain ⟨tracks, htracks, ht⟩ := bind_eq_some_iff.mp hv
  unfold trackErrors at h
  rw [flatMap_eq_nil_iff] at h
  have hnil := h (a, tracks) ((p.tracks.mem_entries_iff a tracks).mpr htracks)
  rw [flatMap_eq_nil_iff] at hnil
  have htrackNil := hnil (t, some v) ((tracks.mem_entries_iff t (some v)).mpr ht)
  dsimp only at htrackNil
  rw [if_pos (by rw [ha]; rfl)] at htrackNil
  cases htrackNil

variable {name : String}

theorem isInherited_of_isObjectMember (h : isObjectMember name = true) :
    isInherited name = true := (Bool.and_eq_true_iff.mp h).1

theorem isObjectMember_of_ne (h : isInherited name = true)
    (hne : name ≠ "__proto__") : isObjectMember name = true := by
  unfold isObjectMember
  rw [h]
  simpa using hne

section Outcome

variable {rules : TextRules} {layout : BoardLayout} {document : BoardDocument}
  {patch : BoardPatch} {options : BoardApplyOptions}

/-- What acceptance says: the patch wrote what it had to, the deletion loops
    released what goes, and no check found an error. -/
structure Outcome (rules : TextRules) (document : BoardDocument) (patch : BoardPatch)
    (options : BoardApplyOptions) (p : Pending) : Prop where
  traced   : Traced document patch p
  removes  : p.RemovesTracks document
  items    : itemErrors (createDocumentState document) p = []
  retyped  : retypedErrors rules (createDocumentState document) options p = []
  tracks   : trackErrors rules (createDocumentState document) options p = []
  namedItem  : ∀ id, patch.items.has id = true →
    (createDocumentState document).item id = some (.native id) → (p.items.get? id).isSome = true
  removed  : ∀ a, patch.animations.get? a = some .remove →
    ((createDocumentState document).animation a).isSome = true →
    (p.animations.get? a).isSome = true
  namedTrack : ∀ a header tracks t, patch.animations.get? a = some (.write header tracks) →
    tracks.has t = true → (createDocumentState document).track a t = some (.native t) →
    (p.trackEntry a t).isSome = true

theorem outcome_of_accepted {before after : BoardDelta}
    (h : applyBoardPatch rules layout (createDocumentState document) patch options =
      .ok before after) :
    Outcome rules document patch options (validatedPending rules layout document patch options) ∧
      after = deltaAfter (createDocumentState document)
        (validatedPending rules layout document patch options) ∧
      before = deltaBefore (createDocumentState document)
        (validatedPending rules layout document patch options) := by
  unfold applyBoardPatch at h
  split at h
  · cases h
  · dsimp only at h
    split at h
    · cases h
    · next hwritten =>
      split at h
      · cases h
      · next herrors =>
        injection h with hbefore hafter
        refine ⟨?_, hafter.symm, hbefore.symm⟩
        rw [not_not, append_eq_nil_iff, append_eq_nil_iff,
          append_eq_nil_iff] at herrors
        obtain ⟨⟨⟨hok, hitems⟩, hretyped⟩, htracks⟩ := herrors
        have hreleased := released_of_no_errors layout document.items.keys
          (fun id child hchild => children_stored hchild)
          (by rw [length_keys]; exact Nat.le_add_right _ _) hok
        obtain ⟨hnamed, hanimations⟩ := writePatch_writes rules (createDocumentState document)
          options (not_not.mp hwritten)
        have htraced := keeps_releaseReferences (Traced.keptByRelease document patch) layout options
          (traced_writePatch rules options patch)
        show Outcome rules document patch options (validatedPending rules layout document patch options)
        generalize hp : validatedPending rules layout document patch options = p
        unfold validatedPending at hp
        rw [hp] at hreleased htraced hitems hretyped htracks
        generalize writePatch rules (createDocumentState document) options patch = written at *
        -- what was pending before the loops is pending after them
        have hkeptTrack : ∀ a t, (written.1.trackEntry a t).isSome = true →
            (p.trackEntry a t).isSome = true := by
          intro a t hsome
          rw [isSome_iff_ne_none] at hsome ⊢
          exact fun hnone => hsome (hreleased.evolves.track_written hnone)
        refine ⟨htraced, ?_, hitems, hretyped, htracks, ?_, ?_, ?_⟩
        · intro a t v hgone hv
          have hanimation := animation_of_track hv
          have hstate : ((createDocumentState document).animation a).isSome = true := by
            show (documentAnimation document a).isSome = true
            obtain ⟨header, hheader⟩ := isSome_iff_exists.mp hanimation
            rw [documentAnimation_eq, hheader]
            rfl
          have hall := ((hanimations a .remove (htraced.removed a hgone)).removed rfl hstate).2
          obtain ⟨value, hvalue⟩ := isSome_iff_exists.mp
            (hkeptTrack a t (hall t (trackIds_of_track hv)))
          cases value with
          | none => exact hvalue
          | some w =>
            have hnone : p.animation (createDocumentState document) a = none := by
              unfold Pending.animation
              rw [hgone]
            exact absurd hvalue (no_track_of_gone htracks hnone)
        · intro id hid hnative
          have hsome := hnamed id hid hnative
          rw [isSome_iff_ne_none] at hsome ⊢
          exact fun hnone => hsome (hreleased.evolves.item_written hnone)
        · intro a ha hstate
          rw [hreleased.evolves.animations]
          exact ((hanimations a .remove ha).removed rfl hstate).1
        · intro a header tracks t ha ht hnative
          exact hkeptTrack a t ((hanimations a _ ha).tracks header tracks t rfl ht hnative)

variable {p : Pending}

theorem reachesValidated_of_outcome (h : Outcome rules document patch options p) :
    ReachesValidated rules options document p
      (applyBoardDelta document (deltaAfter (createDocumentState document) p)) := by
  have hview := view_applyBoardDelta document h.traced.proper
  generalize hreached :
    applyBoardDelta document (deltaAfter (createDocumentState document) p) = reached at hview ⊢
  refine ⟨h.items, h.retyped, h.tracks, ?_, hview, ?_, ?_, ?_⟩
  · rw [← hreached]
    show (p.settings.filter fun settings => settings != document.board).getD document.board = _
    cases p.settings with
    | none => rfl
    | some settings =>
      by_cases hsame : settings = document.board
      · simp [Option.filter, hsame]
      · simp [Option.filter, hsame]
  · intro id hid
    have hitem : (p.view document).item id = _ := view_item hid
    rw [← hitem, ← hview]
    exact readMember_eq_own hid
  · intro a ha
    have hanimation : (p.view document).animation a = _ := view_animation ha
    rw [← hanimation, ← hview]
    show documentAnimation reached a = _
    rw [documentAnimation_eq]
    cases reached.view.animation a <;> simp [ha]
  · intro a t ha ht
    have hread : ∀ d : BoardDocument, documentTrack d a t = d.view.track a t := by
      intro d
      unfold documentTrack
      show _ = (d.animations.get? a).bind _
      cases d.animations.get? a with
      | none => rfl
      | some animation => exact readMember_eq_own ht
    have hanimation : (p.view document).animation a = _ := view_animation ha
    show documentTrack reached a t = _
    rw [hread, hview]
    show (if ((p.view document).animation a).isSome then
      (p.trackEntry a t).getD (document.view.track a t) else none) = _
    split
    · unfold Pending.track
      cases p.trackEntry a t with
      | some value => rfl
      | none => exact (hread document).symm
    · next hgone =>
      have hnone : p.animation (createDocumentState document) a = none := by
        rw [← hanimation]
        simpa using hgone
      cases hentry : p.trackEntry a t with
      | some value =>
        rw [Pending.track_of_entry hentry]
        cases value with
        | none => rfl
        | some v => exact absurd hentry (no_track_of_gone h.tracks hnone)
      | none =>
        rw [Pending.track_of_none hentry]
        show none = documentTrack document a t
        rw [hread]
        -- the animation was never there, or it goes with all its tracks
        cases htrack : document.view.track a t with
        | none => rfl
        | some v =>
          have hsome := animation_of_track htrack
          cases hpending : p.animations.get? a with
          | none =>
            have hview' : (p.view document).animation a = document.view.animation a := by
              show (p.animations.get? a).getD _ = _
              rw [hpending]
              rfl
            rw [hview'] at hgone
            exact absurd hsome hgone
          | some header =>
            cases header with
            | none =>
              rw [h.removes a t v hpending htrack] at hentry
              cases hentry
            | some header =>
              have hview' : (p.view document).animation a = some header := by
                show (p.animations.get? a).getD _ = _
                rw [hpending]
                rfl
              rw [hview'] at hgone
              exact absurd rfl hgone

theorem misread_iff (h : Outcome rules document patch options p) (hproto : patch.WithoutProto) :
    (deltaAfter (createDocumentState document) p).Misread document ↔
      patch.NamesObjectMember document := by
  have hread : ∀ own name, isInherited name = true → own = none →
      readMember own name = some (.native name) := by
    rintro own name hname rfl
    simp [readMember, hname]
  -- a pending value is not what every object has
  have hchanged : ∀ (entry : Option (Option Json)) (name : String), entry.isSome = true →
      (∀ v, entry = some (some v) → v.isRecord = true) →
      (entry.filter fun value => some (Json.native name) != value).isSome = true := by
    intro entry name hsome hrecord
    obtain ⟨value, rfl⟩ := isSome_iff_exists.mp hsome
    have hne : some (Json.native name) ≠ value := by
      rintro rfl
      cases hrecord _ rfl
    simp [Option.filter, hne]
  have hpending : ∀ (entry : Option (Option Json)) (q : Option Json → Bool),
      (entry.filter q).isSome = true → ∃ value, entry = some value := by
    intro entry q hsome
    cases entry with
    | none => cases hsome
    | some value => exact ⟨value, rfl⟩
  constructor
  · rintro (⟨id, hid, hentry, hnone⟩ | ⟨a, ha, hentry, hnone⟩ | ⟨a, t, ht, hentry, ha, hnone⟩)
    · rw [items_deltaAfter] at hentry
      obtain ⟨v, hv⟩ := hpending _ _ hentry
      rcases h.traced.item id v hv with hnamed | hstored
      · refine Or.inl ⟨id, isObjectMember_of_ne hid ?_, hnamed, hnone⟩
        rintro rfl
        rw [hproto.items] at hnamed
        cases hnamed
      · rw [hnone] at hstored
        cases hstored
    · obtain ⟨v, hv⟩ := isSome_iff_exists.mp hentry
      cases v with
      | none =>
        have hremove := h.traced.removed a hv
        refine Or.inr (.inl ⟨a, isObjectMember_of_ne ha ?_, hremove, hnone⟩)
        rintro rfl
        have hhas := (patch.animations.has_iff "__proto__").mpr ⟨_, hremove⟩
        rw [hproto.animations] at hhas
        cases hhas
      | some header =>
        -- an animation is never written over what looks like an item
        have hfree : readMember (document.items.get? a) a = none := h.traced.animation a header hv
        cases hown : document.items.get? a with
        | some v =>
          rw [hown] at hfree
          cases hfree
        | none =>
          rw [hread _ _ ha hown] at hfree
          cases hfree
    · rw [trackEntry_deltaAfter] at hentry
      obtain ⟨v, hv⟩ := hpending _ _ hentry
      rcases h.traced.track a t v hv with hstored | ⟨header, tracks, htracks, hnamed⟩
      · rw [hnone] at hstored
        cases hstored
      · refine Or.inr (.inr ⟨a, t, header, tracks, isObjectMember_of_ne ht ?_, htracks, hnamed,
          ha, hnone⟩)
        rintro rfl
        rw [hproto.tracks a header tracks htracks] at hnamed
        cases hnamed
  · rintro (⟨id, hid, hnamed, hnone⟩ | ⟨a, ha, hremove, hnone⟩ |
      ⟨a, t, header, tracks, ht, htracks, hnamed, ha, hnone⟩)
    · have hid' := isInherited_of_isObjectMember hid
      have hnative : (createDocumentState document).item id = some (.native id) :=
        hread _ _ hid' hnone
      refine Or.inl ⟨id, hid', ?_, hnone⟩
      rw [items_deltaAfter, hnative]
      exact hchanged _ id (h.namedItem id hnamed hnative) fun v hv => h.traced.proper.item id v hv
    · have ha' := isInherited_of_isObjectMember ha
      refine Or.inr (.inl ⟨a, ha', ?_, hnone⟩)
      apply h.removed a hremove
      show (documentAnimation document a).isSome = true
      rw [documentAnimation_eq, hnone]
      simp [ha']
    · have ht' := isInherited_of_isObjectMember ht
      have hnative : (createDocumentState document).track a t = some (.native t) := by
        show documentTrack document a t = _
        rw [documentTrack_eq ha]
        exact hread _ _ ht' hnone
      refine Or.inr (.inr ⟨a, t, ht', ?_, ha, hnone⟩)
      rw [trackEntry_deltaAfter, hnative]
      exact hchanged _ t (h.namedTrack a header tracks t htracks hnamed hnative)
        fun v hv => h.traced.proper.track a t v hv

end Outcome

/-- What a successful result satisfies. -/
def BoardPatchResult.satisfies (test : BoardDelta → BoardDelta → Bool) : BoardPatchResult → Bool
  | .ok before after => test before after
  | .failed _ => false

theorem BoardPatchResult.exists_of_satisfies {test : BoardDelta → BoardDelta → Bool}
    {result : BoardPatchResult} (h : result.satisfies test = true) :
    ∃ before after, result = .ok before after ∧ test before after = true := by
  cases result with
  | ok before after => exact ⟨before, after, rfl, h⟩
  | failed diagnostics => cases h

/-- The removal of an item called `constructor`. -/
def memberPatch : BoardPatch :=
  { board := none
    items := OrderedMap.ofList [("constructor", .null)]
    animations := OrderedMap.empty }

end Cohub.Board
