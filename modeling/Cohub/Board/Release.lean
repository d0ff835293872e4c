import Cohub.Lib.Loop
import Cohub.Board.Parsing

/-! # What a deletion leaves behind

    The deletion loop and the two loops over removed scripts and animations
    change pending values in three ways only: an item or a track is removed,
    an arrow's ends are unbound, keyframes are taken out of a track
    (`Evolves`).  So what one round cleans up stays clean, and when the loops
    end without an error nothing refers to what is gone (`Released`). -/

namespace Cohub.Board

open List Option OrderedMap Json Loop

/-! ## How pending values evolve -/

/-- `v'` is the arrow `v` with some ends unbound. -/
structure Unbound (v v' : Json) : Prop where
  arrow    : itemType v = some "arrow"
  isRecord : v'.isRecord = true
  type     : itemType v' = itemType v
  parent   : itemParent v' = itemParent v
  bindings : ∀ b ∈ arrowBindings v', b ∈ arrowBindings v

/-- `v'` is the track `v` with some keyframes taken out. -/
structure Pruned (v v' : Json) : Prop where
  isRecord   : v'.isRecord = true
  target     : trackTarget v' = trackTarget v
  property   : trackProperty v' = trackProperty v
  references : ∀ s ∈ trackReferences v', s ∈ trackReferences v

variable {u v w : Json}

theorem Unbound.trans (h : Unbound u v) (h' : Unbound v w) : Unbound u w :=
  { arrow := h.arrow
    isRecord := h'.isRecord
    type := h'.type.trans h.type
    parent := h'.parent.trans h.parent
    bindings := fun b hb => h.bindings b (h'.bindings b hb) }

theorem Pruned.trans (h : Pruned u v) (h' : Pruned v w) : Pruned u w :=
  { isRecord := h'.isRecord
    target := h'.target.trans h.target
    property := h'.property.trans h.property
    references := fun s hs => h.references s (h'.references s hs) }

namespace Pending

@[simp] theorem items_setItem (p : Pending) (id : String) (v : Option Json) :
    (p.setItem id v).items = p.items.set id v := rfl

@[simp] theorem trackEntry_setItem (p : Pending) (id a t : String) (v : Option Json) :
    (p.setItem id v).trackEntry a t = p.trackEntry a t := rfl

@[simp] theorem items_setTrack (p : Pending) (a t : String) (v : Option Json) :
    (p.setTrack a t v).items = p.items := rfl

@[simp] theorem animations_setTrack (p : Pending) (a t : String) (v : Option Json) :
    (p.setTrack a t v).animations = p.animations := rfl

@[simp] theorem trackEntry_setAnimation (p : Pending) (id a t : String) (v : Option Json) :
    (p.setAnimation id v).trackEntry a t = p.trackEntry a t := rfl

theorem trackEntry_setTrack (p : Pending) (a t a' t' : String) (v : Option Json) :
    (p.setTrack a t v).trackEntry a' t' =
      if a' = a ∧ t' = t then some v else p.trackEntry a' t' := by
  unfold trackEntry setTrack
  simp only [get?_set]
  by_cases ha : a' = a
  · subst ha
    rw [if_pos rfl, bind_some, get?_set]
    by_cases ht : t' = t
    · simp [ht]
    · rw [if_neg ht, if_neg (fun h => ht h.2)]
      cases p.tracks.get? a' <;> rfl
  · rw [if_neg ha, if_neg (fun h => ha h.1)]

variable {p : Pending} {state : BoardState} {id a t : String} {v : Option Json}

theorem item_of_entry (h : p.items.get? id = some v) : p.item state id = v := by
  unfold item
  rw [h]

theorem item_of_none (h : p.items.get? id = none) : p.item state id = state.item id := by
  unfold item
  rw [h]

theorem track_of_entry (h : p.trackEntry a t = some v) : p.track state a t = v := by
  unfold track
  rw [h]

theorem track_of_none (h : p.trackEntry a t = none) : p.track state a t = state.track a t := by
  unfold track
  rw [h]

end Pending

section Evolution

variable {state : BoardState}

/-- The loops lead from the pending values `p` to `p'`. -/
structure Evolves (state : BoardState) (p p' : Pending) : Prop where
  settings   : p'.settings = p.settings
  animations : p'.animations = p.animations
  item : ∀ id, p'.items.get? id = p.items.get? id ∨ p'.items.get? id = some none ∨
    ∃ v v', p.item state id = some v ∧ p'.items.get? id = some (some v') ∧ Unbound v v'
  track : ∀ a t, p'.trackEntry a t = p.trackEntry a t ∨ p'.trackEntry a t = some none ∨
    ∃ v v', p.track state a t = some v ∧ p'.trackEntry a t = some (some v') ∧ Pruned v v'

namespace Evolves

theorem refl (p : Pending) : Evolves state p p :=
  { settings := rfl
    animations := rfl
    item := fun _ => .inl rfl
    track := fun _ _ => .inl rfl }

variable {p p' : Pending} {id : String} {v' : Json} {a t : String}

section

variable (h : Evolves state p p')
include h

theorem item_found (hv' : p'.item state id = some v') :
    ∃ v, p.item state id = some v ∧ (v' = v ∨ Unbound v v') := by
  rcases h.item id with hsame | hnone | ⟨v, w, hv, hw, hunbound⟩
  · refine ⟨v', ?_, .inl rfl⟩
    unfold Pending.item at hv' ⊢
    rw [← hsame]
    exact hv'
  · rw [Pending.item_of_entry hnone] at hv'
    cases hv'
  · rw [Pending.item_of_entry hw] at hv'
    cases hv'
    exact ⟨v, hv, .inr hunbound⟩

theorem track_found (hv' : p'.track state a t = some v') :
    ∃ v, p.track state a t = some v ∧ (v' = v ∨ Pruned v v') := by
  rcases h.track a t with hsame | hnone | ⟨v, w, hv, hw, hpruned⟩
  · refine ⟨v', ?_, .inl rfl⟩
    unfold Pending.track at hv' ⊢
    rw [← hsame]
    exact hv'
  · rw [Pending.track_of_entry hnone] at hv'
    cases hv'
  · rw [Pending.track_of_entry hw] at hv'
    cases hv'
    exact ⟨v, hv, .inr hpruned⟩

theorem trans {p'' : Pending} (h' : Evolves state p' p'') : Evolves state p p'' := by
  constructor
  · exact h'.settings.trans h.settings
  · exact h'.animations.trans h.animations
  · intro id
    rcases h'.item id with hsame | hnone | ⟨v', v'', hv', hv'', hunbound⟩
    · rw [hsame]
      exact h.item id
    · exact .inr (.inl hnone)
    · obtain ⟨v, hv, rfl | hbefore⟩ := h.item_found hv'
      · exact .inr (.inr ⟨v', v'', hv, hv'', hunbound⟩)
      · exact .inr (.inr ⟨v, v'', hv, hv'', hbefore.trans hunbound⟩)
  · intro a t
    rcases h'.track a t with hsame | hnone | ⟨v', v'', hv', hv'', hpruned⟩
    · rw [hsame]
      exact h.track a t
    · exact .inr (.inl hnone)
    · obtain ⟨v, hv, rfl | hbefore⟩ := h.track_found hv'
      · exact .inr (.inr ⟨v', v'', hv, hv'', hpruned⟩)
      · exact .inr (.inr ⟨v, v'', hv, hv'', hbefore.trans hpruned⟩)

theorem item_removed (hid : p.items.get? id = some none) : p'.items.get? id = some none := by
  rcases h.item id with hsame | hnone | ⟨v, v', hv, -, -⟩
  · rw [hsame, hid]
  · exact hnone
  · rw [Pending.item_of_entry hid] at hv
    cases hv

theorem item_written (hid : p'.items.get? id = none) : p.items.get? id = none := by
  rcases h.item id with hsame | hnone | ⟨v, v', -, hv', -⟩
  · rw [← hsame, hid]
  · rw [hid] at hnone
    cases hnone
  · rw [hid] at hv'
    cases hv'

theorem track_written (hid : p'.trackEntry a t = none) : p.trackEntry a t = none := by
  rcases h.track a t with hsame | hnone | ⟨v, v', -, hv', -⟩
  · rw [← hsame, hid]
  · rw [hid] at hnone
    cases hnone
  · rw [hid] at hv'
    cases hv'

theorem script (id : String) : p'.script state id = p.script state id := by
  unfold Pending.script Pending.scripts
  rw [h.settings]

end

end Evolves

theorem evolves_removeItem (p : Pending) (id : String) : Evolves state p (p.setItem id none) := by
  constructor
  · rfl
  · rfl
  · intro id'
    rw [Pending.items_setItem, get?_set]
    split
    · exact .inr (.inl rfl)
    · exact .inl rfl
  · intro a t
    exact .inl rfl

variable {p : Pending} {v : Json}

theorem evolves_unbindItem {id : String} {v' : Json} (hv : p.item state id = some v)
    (h : Unbound v v') : Evolves state p (p.setItem id (some v')) := by
  constructor
  · rfl
  · rfl
  · intro id'
    rw [Pending.items_setItem, get?_set]
    split
    · next hid => exact .inr (.inr ⟨v, v', by rw [hid]; exact hv, rfl, h⟩)
    · exact .inl rfl
  · intro a t
    exact .inl rfl

theorem evolves_releaseTrack {a t : String} {value : Option Json} (hv : p.track state a t = some v)
    (h : ∀ v', value = some v' → Pruned v v') : Evolves state p (p.setTrack a t value) := by
  constructor
  · rfl
  · rfl
  · intro id
    exact .inl rfl
  · intro a' t'
    rw [Pending.trackEntry_setTrack]
    split
    · next hat =>
      obtain ⟨rfl, rfl⟩ := hat
      cases value with
      | none => exact .inr (.inl rfl)
      | some v' => exact .inr (.inr ⟨v, v', hv, rfl, h v' rfl⟩)
    · exact .inl rfl

/-- The loops lead from `x` to `y`, and no error gets lost. -/
structure Progress (state : BoardState) (x y : Phase) : Prop where
  evolves : Evolves state x.1 y.1
  errors  : y.2 = [] → x.2 = []

theorem Progress.refl (x : Phase) : Progress state x x := ⟨Evolves.refl x.1, id⟩

theorem Progress.trans {x y z : Phase} (h : Progress state x y) (h' : Progress state y z) :
    Progress state x z := ⟨h.evolves.trans h'.evolves, fun hz => h.errors (h'.errors hz)⟩

theorem progress_error (p : Pending) (ds : List BoardDiagnostic) (e : BoardDiagnostic) :
    Progress state (p, ds) (p, ds ++ [e]) :=
  ⟨Evolves.refl p, fun h => absurd h (by simp)⟩

theorem progress_evolves {p' : Pending} (ds : List BoardDiagnostic) (h : Evolves state p p') :
    Progress state (p, ds) (p', ds) := ⟨h, id⟩

end Evolution

/-! ## What is cleaned up -/

/-- Nothing refers to the deleted item `id`. -/
structure Clean (state : BoardState) (p : Pending) (id : String) : Prop where
  /-- Its children moved away or are gone. -/
  children : ∀ child ∈ state.children id,
    ∃ value, p.items.get? child = some value ∧ value.bind itemParent ≠ some id
  /-- The arrows bound to it are unbound. -/
  binders : ∀ arrow ∈ state.binders id, ∀ v, p.item state arrow = some v → id ∉ arrowBindings v
  /-- No track refers to it. -/
  tracks : ∀ ref ∈ state.trackRefs id, ∀ v, p.track state ref.animation ref.track = some v →
    id ∉ trackReferences v

section Clean

variable {state : BoardState} {p p' : Pending} {id : String}

theorem Evolves.movedAway (h : Evolves state p p') {child : String}
    (hp : ∃ value, p.items.get? child = some value ∧ value.bind itemParent ≠ some id) :
    ∃ value, p'.items.get? child = some value ∧ value.bind itemParent ≠ some id := by
  obtain ⟨value, hvalue, hparent⟩ := hp
  rcases h.item child with hsame | hnone | ⟨v, v', hv, hv', hunbound⟩
  · exact ⟨value, by rw [hsame, hvalue], hparent⟩
  · exact ⟨none, hnone, by simp⟩
  · refine ⟨some v', hv', ?_⟩
    rw [Pending.item_of_entry hvalue] at hv
    rw [hv] at hparent
    show itemParent v' ≠ some id
    rw [hunbound.parent]
    exact hparent

theorem Evolves.unbound (h : Evolves state p p') {arrow : String}
    (hp : ∀ v, p.item state arrow = some v → id ∉ arrowBindings v) :
    ∀ v, p'.item state arrow = some v → id ∉ arrowBindings v := by
  intro v' hv' hid
  obtain ⟨v, hv, rfl | hunbound⟩ := h.item_found hv'
  · exact hp v' hv hid
  · exact hp v hv (hunbound.bindings id hid)

theorem Evolves.unreferenced (h : Evolves state p p') {ref : TrackRef}
    (hp : ∀ v, p.track state ref.animation ref.track = some v → id ∉ trackReferences v) :
    ∀ v, p'.track state ref.animation ref.track = some v → id ∉ trackReferences v := by
  intro v' hv' hid
  obtain ⟨v, hv, rfl | hpruned⟩ := h.track_found hv'
  · exact hp v' hv hid
  · exact hp v hv (hpruned.references id hid)

theorem Clean.evolves (hclean : Clean state p id) (h : Evolves state p p') : Clean state p' id :=
  { children := fun child hchild => h.movedAway (hclean.children child hchild)
    binders := fun arrow harrow => h.unbound (hclean.binders arrow harrow)
    tracks := fun ref href => h.unreferenced (hclean.tracks ref href) }

end Clean

/-! ## One round of the deletion loop -/

section Round

variable {layout : BoardLayout} {state : BoardState} {options : BoardApplyOptions}

/-- The pending values and the errors. -/
def Deletion.phase (d : Deletion layout) : Phase := (d.pending, d.diagnostics)

def undeleted (nodes : List String) (p : Pending) : List String :=
  nodes.filter fun id => p.items.get? id != some none

variable {p : Pending}

theorem length_undeleted_le {p' : Pending} (nodes : List String) (h : Evolves state p p') :
    (undeleted nodes p').length ≤ (undeleted nodes p).length := by
  apply List.Sublist.length_le
  apply monotone_filter_right
  intro id hid
  rw [bne_iff_ne] at hid ⊢
  intro hnone
  exact hid (h.item_removed hnone)

variable {nodes : List String} {id : String}

theorem length_undeleted_setItem (hid : id ∈ nodes) (hp : p.items.get? id ≠ some none) :
    (undeleted nodes (p.setItem id none)).length < (undeleted nodes p).length := by
  have hsub : undeleted nodes (p.setItem id none) =
      (undeleted nodes p).filter fun other => other != id := by
    unfold undeleted
    rw [List.filter_filter]
    apply filter_congr
    intro other _
    rw [Pending.items_setItem, get?_set]
    by_cases hother : other = id <;> simp [hother]
  rw [hsub]
  apply length_filter_lt_length_iff_exists.mpr
  exact ⟨id, mem_filter.mpr ⟨hid, by simpa using hp⟩, by simp⟩

/-- What one step of a round does: it makes progress, pushes what it deletes,
    and pushes nothing twice. -/
structure Grows (state : BoardState) (nodes : List String) (d d' : Deletion layout) : Prop where
  progress : Progress state d.phase d'.phase
  deletes  : ∀ id ∈ d.deletes, id ∈ d'.deletes
  deleted  : ∀ id, d'.pending.items.get? id = some none →
    d.pending.items.get? id = some none ∨ id ∈ d'.deletes
  budget   : d'.deletes.length + (undeleted nodes d'.pending).length ≤
    d.deletes.length + (undeleted nodes d.pending).length

namespace Grows

variable {nodes : List String}

theorem refl (d : Deletion layout) : Grows state nodes d d :=
  { progress := Progress.refl d.phase
    deletes := fun _ h => h
    deleted := fun _ h => .inl h
    budget := le_rfl }

variable {d d' : Deletion layout}

theorem trans {d'' : Deletion layout} (h : Grows state nodes d d')
    (h' : Grows state nodes d' d'') : Grows state nodes d d'' := by
  constructor
  · exact h.progress.trans h'.progress
  · intro id hid
    exact h'.deletes id (h.deletes id hid)
  · intro id hid
    rcases h'.deleted id hid with hid | hid
    · rcases h.deleted id hid with hid | hid
      · exact .inl hid
      · exact .inr (h'.deletes id hid)
    · exact .inr hid
  · exact le_trans h'.budget h.budget

theorem of_progress (hprogress : Progress state d.phase d'.phase)
    (hdeletes : d'.deletes = d.deletes)
    (hdeleted : ∀ id, d'.pending.items.get? id = some none → d.pending.items.get? id = some none) :
    Grows state nodes d d' := by
  constructor
  · exact hprogress
  · intro id hid
    rw [hdeletes]
    exact hid
  · intro id hid
    exact .inl (hdeleted id hid)
  · have hlen := length_undeleted_le nodes hprogress.evolves
    rw [hdeletes]
    exact Nat.add_le_add_left hlen _

end Grows

theorem deleteChild_cases (options : BoardApplyOptions) (id child : String) (d : Deletion layout) :
    (deleteChild options id d child = d ∧
      ∃ value, d.pending.items.get? child = some value ∧ value.bind itemParent ≠ some id) ∨
    (deleteChild options id d child =
        { d with pending := d.pending.setItem child none, deletes := child :: d.deletes } ∧
      d.pending.items.get? child ≠ some none) ∨
    ∃ error, deleteChild options id d child = { d with diagnostics := d.diagnostics ++ [error] } := by
  unfold deleteChild
  dsimp only
  split
  · next hany =>
    obtain ⟨value, hvalue, hparent⟩ := (Option.any_eq_true _ _).mp hany
    exact .inl ⟨rfl, value, hvalue, by simpa using hparent⟩
  · next hany =>
    have hentry : d.pending.items.get? child ≠ some none := by
      intro hnone
      rw [hnone] at hany
      exact hany rfl
    split
    · exact .inr (.inl ⟨rfl, hentry⟩)
    · exact .inr (.inr ⟨_, rfl⟩)

theorem grows_deleteChild {child : String} (hchild : child ∈ nodes)
    (d : Deletion layout) : Grows state nodes d (deleteChild options id d child) := by
  rcases deleteChild_cases options id child d with ⟨h, -⟩ | ⟨h, hentry⟩ | ⟨error, h⟩
  · rw [h]
    exact Grows.refl d
  · rw [h]
    constructor
    · exact progress_evolves d.diagnostics (evolves_removeItem d.pending child)
    · intro other hother
      exact mem_cons_of_mem _ hother
    · intro other hother
      rw [Pending.items_setItem, get?_set] at hother
      split at hother
      · next heq => exact .inr (by rw [heq]; exact mem_cons_self)
      · exact .inl hother
    · have hlt := length_undeleted_setItem (p := d.pending) hchild hentry
      show d.deletes.length + 1 + (undeleted nodes (d.pending.setItem child none)).length ≤ _
      omega
  · rw [h]
    apply Grows.of_progress
    · exact progress_error d.pending d.diagnostics error
    · rfl
    · exact fun _ h => h

theorem deleteChild_movedAway (id child : String) (d : Deletion layout)
    (hok : (deleteChild options id d child).diagnostics = []) :
    ∃ value, (deleteChild options id d child).pending.items.get? child = some value ∧
      value.bind itemParent ≠ some id := by
  rcases deleteChild_cases options id child d with ⟨h, hvalue⟩ | ⟨h, -⟩ | ⟨error, h⟩
  · rw [h]
    exact hvalue
  · rw [h]
    exact ⟨none, get?_set_self _ _ _, by simp⟩
  · rw [h] at hok
    simp at hok

/-! ### Arrows bound to the deleted item -/

theorem boundItem_pointEnd (point : BoardPoint) : boundItem (some (pointEnd point)) = none := by
  have hitem : (pointEnd point).get? "item" = none := by
    simp only [pointEnd, record, foldl_cons, foldl_nil, get?_obj]
    rw [Fields.get?_set_ne _ _ (by decide), Fields.get?_set_ne _ _ (by decide)]
    rfl
  simp [boundItem, hitem]

theorem unbindEnd_snd (state : BoardState) (options : BoardApplyOptions) (id arrowId : String) (which : ArrowSide)
    (acc : Fields × Deletion layout) :
    ∃ cache, (unbindEnd state options id arrowId which acc).2 = { acc.2 with cache := cache } := by
  unfold unbindEnd
  split
  · exact ⟨_, rfl⟩
  · exact ⟨acc.2.cache, rfl⟩

theorem boundItem_unbindEnd (id arrowId : String) (which which' : ArrowSide)
    (acc : Fields × Deletion layout) {b : String}
    (hb : boundItem (Fields.get? (unbindEnd state options id arrowId which acc).1 which'.name) =
      some b) :
    boundItem (Fields.get? acc.1 which'.name) = some b ∧ (which' = which → b ≠ id) := by
  unfold unbindEnd at hb
  split at hb
  · rw [Fields.get?_set] at hb
    split at hb
    · -- a point has no item
      rw [boundItem_pointEnd] at hb
      cases hb
    · next hne =>
      refine ⟨hb, ?_⟩
      intro hwhich
      exact absurd (by rw [hwhich]) hne
  · next hbound =>
    refine ⟨hb, ?_⟩
    intro hwhich hid
    rw [hwhich, hid] at hb
    exact hbound hb

theorem get?_props (arrow : Json) (which : ArrowSide) :
    Fields.get? (((arrow.get? "props").map fields).getD []) which.name =
      arrowEnd arrow which := by
  unfold arrowEnd
  cases arrow.get? "props" <;> rfl

theorem unbound_setProps {arrow : Json} (harrow : itemType arrow = some "arrow") (props : Fields)
    (h : ∀ which b, boundItem (Fields.get? props which.name) = some b →
      boundItem (arrowEnd arrow which) = some b) :
    Unbound arrow (.obj (Fields.set arrow.fields "props" (.obj props))) := by
  have hkept : ∀ k, k ≠ "props" →
      (Json.obj (Fields.set arrow.fields "props" (.obj props))).get? k = arrow.get? k :=
    fun k hk => Fields.get?_set_ne _ _ hk
  have htype : itemType (.obj (Fields.set arrow.fields "props" (.obj props))) = itemType arrow := by
    unfold itemType
    rw [hkept "type" (by decide)]
  constructor
  · exact harrow
  · rfl
  · exact htype
  · unfold itemParent
    rw [hkept "parent" (by decide)]
  · intro b hb
    obtain ⟨harrow, which, hbound⟩ := mem_arrowBindings.mp hb
    apply mem_arrowBindings.mpr
    refine ⟨by rw [← htype]; exact harrow, which, ?_⟩
    apply h which b
    unfold arrowEnd at hbound
    rw [get?_obj, Fields.get?_set_self] at hbound
    exact hbound

theorem unbindArrow_cases (state : BoardState) (options : BoardApplyOptions) (id arrowId : String)
    (d : Deletion layout) :
    (unbindArrow state options id d arrowId = d ∧
      ∀ v, d.pending.item state arrowId = some v → id ∉ arrowBindings v) ∨
    ∃ arrow arrow' cache, d.pending.item state arrowId = some arrow ∧ Unbound arrow arrow' ∧
      id ∉ arrowBindings arrow' ∧ unbindArrow state options id d arrowId =
        { d with pending := d.pending.setItem arrowId (some arrow'), cache := cache } := by
  unfold unbindArrow
  cases hitem : d.pending.item state arrowId with
  | none => exact .inl ⟨rfl, by simp⟩
  | some arrow =>
    dsimp only
    by_cases htype : itemType arrow = some "arrow"
    · rw [if_pos htype]
      generalize hstart : unbindEnd state options id arrowId .start
        ((((arrow.get? "props").map fields).getD []), d) = atStart
      generalize hend : unbindEnd state options id arrowId .end_ atStart = atEnd
      -- both ends after both changes, in terms of the arrow before
      have hbound : ∀ which b, boundItem (Fields.get? atEnd.1 which.name) = some b →
          boundItem (arrowEnd arrow which) = some b ∧ b ≠ id := by
        intro which b hb
        rw [← hend] at hb
        obtain ⟨hb, hneEnd⟩ := boundItem_unbindEnd _ _ _ _ _ hb
        rw [← hstart] at hb
        obtain ⟨hb, hneStart⟩ := boundItem_unbindEnd _ _ _ _ _ hb
        rw [get?_props] at hb
        cases which with
        | start => exact ⟨hb, hneStart rfl⟩
        | end_ => exact ⟨hb, hneEnd rfl⟩
      have hcache : ∃ cache, atEnd.2 = { d with cache := cache } := by
        obtain ⟨cache, hcache⟩ := unbindEnd_snd state options id arrowId
          .start ((((arrow.get? "props").map fields).getD []), d)
        obtain ⟨cache', hcache'⟩ := unbindEnd_snd state options id arrowId
          .end_ atStart
        rw [hstart] at hcache
        rw [hend, hcache] at hcache'
        exact ⟨cache', hcache'⟩
      obtain ⟨cache, hcache⟩ := hcache
      have hunbound := unbound_setProps htype atEnd.1
        fun which b hb => (hbound which b hb).1
      refine Or.inr ⟨arrow, _, cache, rfl, hunbound, ?_, by rw [hcache]⟩
      intro hid
      obtain ⟨-, which, hwhich⟩ := mem_arrowBindings.mp hid
      unfold arrowEnd at hwhich
      rw [get?_obj, Fields.get?_set_self] at hwhich
      exact (hbound which id hwhich).2 rfl
    · rw [if_neg htype]
      refine Or.inl ⟨rfl, ?_⟩
      intro v hv hid
      cases hv
      exact htype (mem_arrowBindings.mp hid).1

theorem grows_unbindArrow (id arrowId : String) (d : Deletion layout) :
    Grows state nodes d (unbindArrow state options id d arrowId) := by
  rcases unbindArrow_cases state options id arrowId d with
    ⟨h, -⟩ | ⟨arrow, arrow', cache, harrow, hunbound, -, h⟩
  · rw [h]
    exact Grows.refl d
  · rw [h]
    apply Grows.of_progress
    · exact progress_evolves d.diagnostics (evolves_unbindItem harrow hunbound)
    · rfl
    · intro other hother
      show d.pending.items.get? other = some none
      have hset : (d.pending.items.set arrowId (some arrow')).get? other = some none := hother
      rw [get?_set] at hset
      split at hset
      · cases hset
      · exact hset

theorem unbindArrow_unbound (id arrowId : String) (d : Deletion layout) :
    ∀ v, (unbindArrow state options id d arrowId).pending.item state arrowId = some v →
      id ∉ arrowBindings v := by
  rcases unbindArrow_cases state options id arrowId d with
    ⟨h, hnot⟩ | ⟨arrow, arrow', cache, -, -, hnot, h⟩
  · rw [h]
    exact hnot
  · rw [h]
    intro v hv
    rw [Pending.item_of_entry (get?_set_self _ _ _)] at hv
    cases hv
    exact hnot

/-! ### Tracks that refer to the deleted item -/

theorem setKeyframes_spec (track : Json) (kept : List Json) :
    trackTarget (.obj (Fields.set track.fields "keyframes" (.arr kept))) = trackTarget track ∧
    trackProperty (.obj (Fields.set track.fields "keyframes" (.arr kept))) = trackProperty track ∧
    keyframesOf (.obj (Fields.set track.fields "keyframes" (.arr kept))) = kept := by
  have hkept : ∀ k, k ≠ "keyframes" →
      (Json.obj (Fields.set track.fields "keyframes" (.arr kept))).get? k = track.get? k :=
    fun k hk => Fields.get?_set_ne _ _ hk
  refine ⟨?_, ?_, ?_⟩
  · unfold trackTarget
    rw [hkept "target" (by decide)]
  · unfold trackProperty
    rw [hkept "property" (by decide)]
  · unfold keyframesOf
    rw [get?_obj, Fields.get?_set_self]

theorem pruneBoardTrack_spec {track track' : Json}
    (hid : id ∈ trackReferences track) (h : pruneBoardTrack track id = some track') :
    Pruned track track' ∧ id ∉ trackReferences track' := by
  unfold pruneBoardTrack at h
  split at h
  · cases h
  · next htarget =>
    obtain ⟨-, heq | ⟨hfocus, hstring⟩⟩ := mem_trackReferences.mp hid
    · exact absurd heq.symm htarget
    · obtain ⟨keyframe, hkeyframe, hvalue⟩ := mem_keyframeStrings.mp hstring
      have hshorter : ((keyframesOf track).filter fun keyframe =>
          keyframe.get? "value" != some (.str id)).length < (keyframesOf track).length :=
        length_filter_lt_length_iff_exists.mpr ⟨keyframe, hkeyframe, by simp [hvalue]⟩
      rw [hfocus] at h
      simp only [Bool.not_true, Bool.false_eq_true, if_false] at h
      rw [if_neg (ne_of_lt hshorter)] at h
      split at h
      · cases h
      · obtain ⟨htarget', hproperty', hkeyframes'⟩ := setKeyframes_spec track
          ((keyframesOf track).filter fun keyframe => keyframe.get? "value" != some (.str id))
        cases h
        have hreferences : ∀ s ∈ trackReferences (.obj (Fields.set track.fields "keyframes"
            (.arr ((keyframesOf track).filter fun keyframe =>
              keyframe.get? "value" != some (.str id))))),
            s ∈ trackReferences track ∧ s ≠ id := by
          intro s hs
          obtain ⟨hcamera, hs⟩ := mem_trackReferences.mp hs
          rw [htarget', hkeyframes'] at hs
          rcases hs with rfl | ⟨-, hs⟩
          · exact ⟨mem_trackReferences.mpr ⟨hcamera, .inl rfl⟩, htarget⟩
          · obtain ⟨k, hk, hks⟩ := mem_keyframeStrings.mp hs
            obtain ⟨hk, hne⟩ := mem_filter.mp hk
            refine ⟨mem_trackReferences.mpr ⟨hcamera, .inr ⟨hfocus, ?_⟩⟩, ?_⟩
            · exact mem_keyframeStrings.mpr ⟨k, hk, hks⟩
            · intro heq
              rw [hks, heq] at hne
              simp at hne
        constructor
        · exact
            { isRecord := rfl
              target := htarget'
              property := hproperty'
              references := fun s hs => (hreferences s hs).1 }
        · exact fun hmem => (hreferences id hmem).2 rfl

theorem releaseTrack_cases (state : BoardState) (options : BoardApplyOptions) (id : String)
    (d : Deletion layout) (ref : TrackRef) :
    (releaseTrack state options id d ref = d ∧
      ∀ v, d.pending.track state ref.animation ref.track = some v → id ∉ trackReferences v) ∨
    (∃ current value, d.pending.track state ref.animation ref.track = some current ∧
      (∀ v, value = some v → Pruned current v ∧ id ∉ trackReferences v) ∧
      releaseTrack state options id d ref =
        { d with pending := d.pending.setTrack ref.animation ref.track value }) ∨
    ∃ error, releaseTrack state options id d ref =
      { d with diagnostics := d.diagnostics ++ [error] } := by
  unfold releaseTrack
  cases htrack : d.pending.track state ref.animation ref.track with
  | none => exact .inl ⟨rfl, by simp⟩
  | some current =>
    dsimp only
    by_cases hrefers : id ∈ trackReferences current
    · rw [if_pos (by simpa using hrefers)]
      split
      · refine Or.inr (.inl ⟨current, _, rfl, ?_, rfl⟩)
        intro v hv
        exact pruneBoardTrack_spec hrefers hv
      · exact .inr (.inr ⟨_, rfl⟩)
    · rw [if_neg (by simpa using hrefers)]
      refine Or.inl ⟨rfl, ?_⟩
      intro v hv
      cases hv
      exact hrefers

theorem grows_releaseTrack (id : String) (d : Deletion layout)
    (ref : TrackRef) : Grows state nodes d (releaseTrack state options id d ref) := by
  rcases releaseTrack_cases state options id d ref with
    ⟨h, -⟩ | ⟨current, value, hcurrent, hpruned, h⟩ | ⟨error, h⟩
  · rw [h]
    exact Grows.refl d
  · rw [h]
    apply Grows.of_progress
    · exact progress_evolves d.diagnostics
        (evolves_releaseTrack hcurrent fun v hv => (hpruned v hv).1)
    · rfl
    · exact fun _ h => h
  · rw [h]
    apply Grows.of_progress
    · exact progress_error d.pending d.diagnostics error
    · rfl
    · exact fun _ h => h

theorem releaseTrack_unreferenced (id : String) (d : Deletion layout) (ref : TrackRef)
    (hok : (releaseTrack state options id d ref).diagnostics = []) :
    ∀ v, (releaseTrack state options id d ref).pending.track state ref.animation ref.track = some v →
      id ∉ trackReferences v := by
  rcases releaseTrack_cases state options id d ref with
    ⟨h, hnot⟩ | ⟨current, value, -, hpruned, h⟩ | ⟨error, h⟩
  · rw [h]
    exact hnot
  · rw [h]
    intro v hv
    have hentry : (d.pending.setTrack ref.animation ref.track value).trackEntry
        ref.animation ref.track = some value := by
      rw [Pending.trackEntry_setTrack, if_pos ⟨rfl, rfl⟩]
    rw [Pending.track_of_entry hentry] at hv
    exact (hpruned v hv).2
  · rw [h] at hok
    simp at hok

/-! ### A whole round -/

theorem deleteOne_spec (options : BoardApplyOptions)
    (hnodes : ∀ child ∈ state.children id, child ∈ nodes) (d : Deletion layout) :
    Grows state nodes d (deleteOne state options d id) ∧
      ((deleteOne state options d id).diagnostics = [] →
        Clean state (deleteOne state options d id).pending id) := by
  unfold deleteOne
  dsimp only
  generalize hchildren : (state.children id).foldl (deleteChild options id) d = atChildren
  generalize harrows : (state.binders id).foldl (unbindArrow state options id) atChildren = atArrows
  generalize htracks : (state.trackRefs id).foldl (releaseTrack state options id) atArrows = atTracks
  have hgrowsChild : ∀ (b : Deletion layout), ∀ a ∈ state.children id,
      Grows state nodes b (deleteChild options id b a) :=
    fun b a ha => grows_deleteChild (hnodes a ha) b
  have hgrowsArrow : ∀ (b : Deletion layout), ∀ a ∈ state.binders id,
      Grows state nodes b (unbindArrow state options id b a) :=
    fun b a _ => grows_unbindArrow id a b
  have hgrowsTrack : ∀ (b : Deletion layout), ∀ a ∈ state.trackRefs id,
      Grows state nodes b (releaseTrack state options id b a) :=
    fun b a _ => grows_releaseTrack id b a
  have h₁ : Grows state nodes d atChildren := by
    rw [← hchildren]
    exact Loop.foldl_rel Grows.refl (fun _ _ _ => Grows.trans) hgrowsChild d
  have h₂ : Grows state nodes atChildren atArrows := by
    rw [← harrows]
    exact Loop.foldl_rel Grows.refl (fun _ _ _ => Grows.trans) hgrowsArrow atChildren
  have h₃ : Grows state nodes atArrows atTracks := by
    rw [← htracks]
    exact Loop.foldl_rel Grows.refl (fun _ _ _ => Grows.trans) hgrowsTrack atArrows
  refine ⟨(h₁.trans h₂).trans h₃, ?_⟩
  intro hok
  -- what each of the three loops establishes is kept by the later ones
  have hmoved : ∀ child ∈ state.children id, atChildren.diagnostics = [] →
      ∃ value, atChildren.pending.items.get? child = some value ∧
        value.bind itemParent ≠ some id := by
    rw [← hchildren]
    apply foldl_establishes Grows.refl (fun _ _ _ => Grows.trans) hgrowsChild
      (Q := fun child (b : Deletion layout) => b.diagnostics = [] →
        ∃ value, b.pending.items.get? child = some value ∧ value.bind itemParent ≠ some id)
    · exact fun b child _ => deleteChild_movedAway id child b
    · intro child b b' hq hb hok'
      exact hb.progress.evolves.movedAway (hq (hb.progress.errors hok'))
  have hunbound : ∀ arrow ∈ state.binders id, ∀ v, atArrows.pending.item state arrow = some v →
      id ∉ arrowBindings v := by
    rw [← harrows]
    apply foldl_establishes Grows.refl (fun _ _ _ => Grows.trans) hgrowsArrow
      (Q := fun arrow (b : Deletion layout) => ∀ v, b.pending.item state arrow = some v →
        id ∉ arrowBindings v)
    · exact fun b arrow _ => unbindArrow_unbound id arrow b
    · intro arrow b b' hq hb
      exact hb.progress.evolves.unbound hq
  have hreleased : ∀ ref ∈ state.trackRefs id, atTracks.diagnostics = [] →
      ∀ v, atTracks.pending.track state ref.animation ref.track = some v →
        id ∉ trackReferences v := by
    rw [← htracks]
    apply foldl_establishes Grows.refl (fun _ _ _ => Grows.trans) hgrowsTrack
      (Q := fun ref (b : Deletion layout) => b.diagnostics = [] →
        ∀ v, b.pending.track state ref.animation ref.track = some v → id ∉ trackReferences v)
    · exact fun b ref _ => releaseTrack_unreferenced id b ref
    · intro ref b b' hq hb hok'
      exact hb.progress.evolves.unreferenced (hq (hb.progress.errors hok'))
  constructor
  · intro child hchild
    have hlater := (h₂.trans h₃).progress
    exact hlater.evolves.movedAway (hmoved child hchild (hlater.errors hok))
  · intro arrow harrow
    exact h₃.progress.evolves.unbound (hunbound arrow harrow)
  · intro ref href
    exact hreleased ref href hok

end Round

/-! ## The deletion loop -/

section Rounds

variable {layout : BoardLayout} {state : BoardState} {options : BoardApplyOptions}
  {nodes : List String}

theorem deleteRounds_spec (layout : BoardLayout) (options : BoardApplyOptions)
    (hnodes : ∀ id, ∀ child ∈ state.children id, child ∈ nodes) :
    ∀ (n : Nat) (d : Deletion layout),
      d.deletes.length + (undeleted nodes d.pending).length ≤ n →
      Progress state d.phase (deleteRounds state options n d).phase ∧
      ((deleteRounds state options n d).diagnostics = [] →
        (∀ id, d.pending.items.get? id = some none → id ∈ d.deletes ∨ Clean state d.pending id) →
        ∀ id, (deleteRounds state options n d).pending.items.get? id = some none →
          Clean state (deleteRounds state options n d).pending id) := by
  intro n
  induction n with
  | zero =>
    intro d hn
    refine ⟨Progress.refl d.phase, ?_⟩
    intro _ hclean id hid
    have hnil : d.deletes = [] := eq_nil_of_length_eq_zero (by omega)
    rcases hclean id hid with hmem | hmem
    · rw [hnil] at hmem
      cases hmem
    · exact hmem
  | succ n ih =>
    intro d hn
    unfold deleteRounds
    cases hdeletes : d.deletes with
    | nil =>
      refine ⟨Progress.refl d.phase, ?_⟩
      intro _ hclean id hid
      rcases hclean id hid with hmem | hmem
      · cases hmem
      · exact hmem
    | cons id rest =>
      dsimp only
      obtain ⟨hgrows, hround⟩ := deleteOne_spec options (hnodes id)
        { d with deletes := rest }
      generalize deleteOne state options { d with deletes := rest } id = d' at hgrows hround
      have hbudget : d'.deletes.length + (undeleted nodes d'.pending).length ≤ n := by
        have h := hgrows.budget
        rw [hdeletes, length_cons] at hn
        simp only at h
        omega
      obtain ⟨hprogress, hrest⟩ := ih d' hbudget
      refine ⟨hgrows.progress.trans hprogress, ?_⟩
      intro hok hclean
      apply hrest hok
      -- an id popped is clean now, an older one stays clean, a new one is pushed
      intro other hother
      rcases hgrows.deleted other hother with hbefore | hpushed
      · rcases hclean other hbefore with hmem | hmem
        · rcases mem_cons.mp hmem with rfl | hmem
          · exact .inr (hround (hprogress.errors hok))
          · exact .inl (hgrows.deletes other hmem)
        · exact .inr (hmem.evolves hgrows.progress.evolves)
      · exact .inl hpushed

theorem mem_deletedItems {p : Pending} {id : String} :
    id ∈ deletedItems p ↔ p.items.get? id = some none := by
  unfold deletedItems
  rw [List.mem_map]
  constructor
  · intro ⟨e, he, heq⟩
    obtain ⟨hmem, hnone⟩ := mem_filter.mp he
    rw [← p.items.mem_entries_iff, ← heq, ← isNone_iff_eq_none.mp hnone]
    exact hmem
  · intro h
    refine ⟨(id, none), mem_filter.mpr ⟨?_, rfl⟩, rfl⟩
    exact (p.items.mem_entries_iff id none).mpr h

theorem applyDeletions_spec (layout : BoardLayout) (options : BoardApplyOptions)
    (hnodes : ∀ id, ∀ child ∈ state.children id, child ∈ nodes)
    (hsize : nodes.length ≤ state.size) (p : Pending) :
    Progress state (p, []) (applyDeletions layout state options p) ∧
      ((applyDeletions layout state options p).2 = [] →
        ∀ id, (applyDeletions layout state options p).1.items.get? id = some none →
          Clean state (applyDeletions layout state options p).1 id) := by
  have hundeleted : (undeleted nodes p).length ≤ nodes.length := length_filter_le _ _
  obtain ⟨hprogress, hclean⟩ := deleteRounds_spec layout options hnodes
    ((deletedItems p).length + state.size)
    { pending := p, deletes := (deletedItems p).reverse, diagnostics := [], cache := layout.fresh }
    (by simp only [length_reverse]; omega)
  refine ⟨hprogress, ?_⟩
  intro hok
  apply hclean hok
  intro id hid
  exact .inl (mem_reverse.mpr (mem_deletedItems.mpr hid))

end Rounds

/-! ## Removed scripts and animations -/

section Release

variable {state : BoardState} {options : BoardApplyOptions} {p p' : Pending} {a t id : String}

theorem trackTarget_of_pruned (h : Evolves state p p')
    (hp : ∀ v, p.track state a t = some v → trackTarget v ≠ id) :
    ∀ v, p'.track state a t = some v → trackTarget v ≠ id := by
  intro v' hv'
  obtain ⟨v, hv, rfl | hpruned⟩ := h.track_found hv'
  · exact hp v' hv
  · rw [hpruned.target]
    exact hp v hv

theorem track_gone (h : Evolves state p p')
    (hp : p.track state a t = none) : p'.track state a t = none := by
  cases hv' : p'.track state a t with
  | none => rfl
  | some v' =>
    obtain ⟨v, hv, -⟩ := h.track_found hv'
    rw [hp] at hv
    cases hv

theorem progress_removeTrack {acc : Phase} (h : (acc.1.track state a t).isSome = true) :
    Progress state acc (acc.1.setTrack a t none, acc.2) := by
  obtain ⟨v, hv⟩ := isSome_iff_exists.mp h
  exact progress_evolves acc.2 (evolves_releaseTrack hv (by simp))

theorem track_setTrack_self (p : Pending) (a t : String) (v : Option Json) :
    (p.setTrack a t v).track state a t = v := by
  apply Pending.track_of_entry
  rw [Pending.trackEntry_setTrack, if_pos ⟨rfl, rfl⟩]

theorem releaseScriptTrack_spec (id : String) (acc : Phase) (ref : TrackRef) :
    Progress state acc (releaseScriptTrack state options id acc ref) ∧
      ((releaseScriptTrack state options id acc ref).2 = [] →
        ∀ v, (releaseScriptTrack state options id acc ref).1.track state ref.animation ref.track =
          some v → trackTarget v ≠ id) := by
  unfold releaseScriptTrack
  split
  · next htarget =>
    split
    · have hsome : (acc.1.track state ref.animation ref.track).isSome = true := by
        cases htrack : acc.1.track state ref.animation ref.track with
        | none => rw [htrack] at htarget; cases htarget
        | some v => rfl
      refine ⟨progress_removeTrack hsome, ?_⟩
      intro _ v hv
      rw [track_setTrack_self] at hv
      cases hv
    · refine ⟨progress_error acc.1 acc.2 _, ?_⟩
      intro hok
      simp at hok
  · next htarget =>
    refine ⟨Progress.refl acc, ?_⟩
    intro _ v hv heq
    rw [hv, map_some, heq] at htarget
    exact htarget rfl

theorem releaseNestedTrack_spec (id : String) (acc : Phase) (ref : TrackRef) :
    Progress state acc (releaseNestedTrack state options id acc ref) ∧
      ((releaseNestedTrack state options id acc ref).2 = [] → ref.animation ≠ id →
        (releaseNestedTrack state options id acc ref).1.track state ref.animation ref.track =
          none) := by
  unfold releaseNestedTrack
  split
  · next hskip =>
    refine ⟨Progress.refl acc, ?_⟩
    intro _ hne
    rcases hskip with heq | hnone
    · exact absurd heq hne
    · exact isNone_iff_eq_none.mp hnone
  · next hskip =>
    rw [not_or] at hskip
    split
    · have hsome : (acc.1.track state ref.animation ref.track).isSome = true :=
        isSome_iff_ne_none.mpr (by simpa using hskip.2)
      exact ⟨progress_removeTrack hsome, fun _ _ => track_setTrack_self _ _ _ _⟩
    · refine ⟨progress_error acc.1 acc.2 _, ?_⟩
      intro hok
      simp at hok

/-- The scripts a board has before the patch. -/
def storedScripts (state : BoardState) : Fields :=
  ((state.settings.get? "scripts").map Json.fields).getD []

/-- A removed script is no track's target. -/
def ScriptReleased (state : BoardState) (id : String) (p : Pending) : Prop :=
  p.script state id = false → ∀ ref ∈ state.trackRefs id,
    ∀ v, p.track state ref.animation ref.track = some v → trackTarget v ≠ id

/-- A removed animation is nested in no other one. -/
def AnimationReleased (state : BoardState) (id : String) (p : Pending) : Prop :=
  ∀ ref ∈ state.trackRefs id, ref.animation ≠ id →
    p.track state ref.animation ref.track = none

theorem ScriptReleased.evolves (h : ScriptReleased state id p)
    (hevolves : Evolves state p p') : ScriptReleased state id p' := by
  intro hscript ref href
  rw [hevolves.script] at hscript
  exact trackTarget_of_pruned hevolves (h hscript ref href)

theorem AnimationReleased.evolves
    (h : AnimationReleased state id p) (hevolves : Evolves state p p') :
    AnimationReleased state id p' :=
  fun ref href hne => track_gone hevolves (h ref href hne)

theorem releaseScripts_spec (state : BoardState) (options : BoardApplyOptions) (acc : Phase) :
    Progress state acc (releaseScripts state options acc) ∧
      ((releaseScripts state options acc).2 = [] → ∀ e ∈ storedScripts state,
        ScriptReleased state e.1 (releaseScripts state options acc).1) := by
  have hinner : ∀ (id : String) (b : Phase), ∀ ref ∈ state.trackRefs id,
      Progress state b (releaseScriptTrack state options id b ref) :=
    fun id b ref _ => (releaseScriptTrack_spec id b ref).1
  have hstep : ∀ (b : Phase), ∀ e ∈ storedScripts state, Progress state b
      (if b.1.script state e.1 then b
        else (state.trackRefs e.1).foldl (releaseScriptTrack state options e.1) b) := by
    intro b e _
    split
    · exact Progress.refl b
    · exact Loop.foldl_rel Progress.refl (fun _ _ _ => Progress.trans) (hinner e.1) b
  unfold releaseScripts
  constructor
  · exact Loop.foldl_rel Progress.refl (fun _ _ _ => Progress.trans) hstep acc
  · intro hok e he
    refine foldl_establishes Progress.refl (fun _ _ _ => Progress.trans) hstep
      (Q := fun e (b : Phase) => b.2 = [] → ScriptReleased state e.1 b.1) ?_ ?_ acc e he hok
    · intro b e _
      split
      · next hscript =>
        intro _ hgone
        rw [hscript] at hgone
        cases hgone
      · intro hok _ ref href
        exact foldl_establishes Progress.refl (fun _ _ _ => Progress.trans) (hinner e.1)
          (Q := fun ref (b : Phase) => b.2 = [] →
            ∀ v, b.1.track state ref.animation ref.track = some v → trackTarget v ≠ e.1)
          (fun b ref _ => (releaseScriptTrack_spec e.1 b ref).2)
          (fun ref b b' hq hb hok' => trackTarget_of_pruned hb.evolves (hq (hb.errors hok')))
          b ref href hok
    · intro e b b' hq hb hok'
      exact (hq (hb.errors hok')).evolves hb.evolves

theorem releaseAnimations_spec (state : BoardState) (options : BoardApplyOptions) (acc : Phase) :
    Progress state acc (releaseAnimations state options acc) ∧
      ((releaseAnimations state options acc).2 = [] →
        ∀ id, acc.1.animations.get? id = some none →
          AnimationReleased state id (releaseAnimations state options acc).1) := by
  have hinner : ∀ (id : String) (b : Phase), ∀ ref ∈ state.trackRefs id,
      Progress state b (releaseNestedTrack state options id b ref) :=
    fun id b ref _ => (releaseNestedTrack_spec id b ref).1
  have hstep : ∀ (b : Phase), ∀ e ∈ acc.1.animations.entries, Progress state b
      (if e.2.isSome then b
        else (state.trackRefs e.1).foldl (releaseNestedTrack state options e.1) b) := by
    intro b e _
    split
    · exact Progress.refl b
    · exact Loop.foldl_rel Progress.refl (fun _ _ _ => Progress.trans) (hinner e.1) b
  unfold releaseAnimations
  constructor
  · exact Loop.foldl_rel Progress.refl (fun _ _ _ => Progress.trans) hstep acc
  · intro hok id hid
    refine foldl_establishes Progress.refl (fun _ _ _ => Progress.trans) hstep
      (Q := fun e (b : Phase) => b.2 = [] → e.2 = none → AnimationReleased state e.1 b.1)
      ?_ ?_ acc (id, none) ((acc.1.animations.mem_entries_iff id none).mpr hid) hok rfl
    · intro b e _
      split
      · next hsome =>
        intro _ hnone
        rw [hnone] at hsome
        cases hsome
      · intro hok _ ref href
        refine foldl_establishes Progress.refl (fun _ _ _ => Progress.trans) (hinner e.1)
          (Q := fun (ref : TrackRef) (b : Phase) => b.2 = [] → ref.animation ≠ e.1 →
            b.1.track state ref.animation ref.track = none)
          (fun b ref _ => (releaseNestedTrack_spec e.1 b ref).2) ?_ b ref href hok
        intro ref b b' hq hb hok' hne
        exact track_gone hb.evolves (hq (hb.errors hok') hne)
    · intro e b b' hq hb hok' hnone
      exact (hq (hb.errors hok') hnone).evolves hb.evolves

theorem items_releaseScripts (state : BoardState) (options : BoardApplyOptions) (acc : Phase) :
    (releaseScripts state options acc).1.items = acc.1.items := by
  have hinner : ∀ (id : String) (b : Phase), ∀ ref ∈ state.trackRefs id,
      (releaseScriptTrack state options id b ref).1.items = b.1.items := by
    intro id b ref _
    unfold releaseScriptTrack
    split
    · split <;> rfl
    · rfl
  apply Loop.foldl_rel (R := fun (b b' : Phase) => b'.1.items = b.1.items) (fun _ => rfl)
    (fun _ _ _ h h' => h'.trans h)
  intro b e _
  split
  · rfl
  · exact Loop.foldl_rel (R := fun (b b' : Phase) => b'.1.items = b.1.items) (fun _ => rfl)
      (fun _ _ _ h h' => h'.trans h) (hinner e.1) b

theorem items_releaseAnimations (state : BoardState) (options : BoardApplyOptions) (acc : Phase) :
    (releaseAnimations state options acc).1.items = acc.1.items := by
  have hinner : ∀ (id : String) (b : Phase), ∀ ref ∈ state.trackRefs id,
      (releaseNestedTrack state options id b ref).1.items = b.1.items := by
    intro id b ref _
    unfold releaseNestedTrack
    split
    · rfl
    · split <;> rfl
  apply Loop.foldl_rel (R := fun (b b' : Phase) => b'.1.items = b.1.items) (fun _ => rfl)
    (fun _ _ _ h h' => h'.trans h)
  intro b e _
  split
  · rfl
  · exact Loop.foldl_rel (R := fun (b b' : Phase) => b'.1.items = b.1.items) (fun _ => rfl)
      (fun _ _ _ h h' => h'.trans h) (hinner e.1) b

end Release

/-! ## The outcome -/

/-- The loops lead from `p` to `p'`, where nothing refers to what is gone. -/
structure Released (state : BoardState) (p p' : Pending) : Prop where
  evolves    : Evolves state p p'
  items      : ∀ id, p'.items.get? id = some none → Clean state p' id
  scripts    : ∀ id, (Fields.get? (storedScripts state) id).isSome = true →
    ScriptReleased state id p'
  animations : ∀ id, p'.animations.get? id = some none → AnimationReleased state id p'

theorem released_of_no_errors (layout : BoardLayout) {state : BoardState}
    {options : BoardApplyOptions} (nodes : List String)
    (hnodes : ∀ id, ∀ child ∈ state.children id, child ∈ nodes) (hsize : nodes.length ≤ state.size)
    {p : Pending} (hok : (releaseReferences layout state options p).2 = []) :
    Released state p (releaseReferences layout state options p).1 := by
  unfold releaseReferences at hok ⊢
  obtain ⟨hdeletions, hitems⟩ := applyDeletions_spec layout options hnodes hsize p
  generalize applyDeletions layout state options p = x at hok hdeletions hitems ⊢
  obtain ⟨hprogress, hscripts⟩ := releaseScripts_spec state options x
  have hsame := items_releaseScripts state options x
  generalize releaseScripts state options x = y at hok hprogress hscripts hsame ⊢
  obtain ⟨hprogress', hanimations⟩ := releaseAnimations_spec state options y
  have hsame' := items_releaseAnimations state options y
  generalize releaseAnimations state options y = z at hok hprogress' hanimations hsame' ⊢
  have hoky := hprogress'.errors hok
  have hokx := hprogress.errors hoky
  constructor
  · exact (hdeletions.trans (hprogress.trans hprogress')).evolves
  · intro id hid
    -- the last two loops delete no item
    rw [hsame', hsame] at hid
    exact (hitems hokx id hid).evolves (hprogress.trans hprogress').evolves
  · intro id hid
    obtain ⟨v, hv⟩ := isSome_iff_exists.mp hid
    exact (hscripts hoky (id, v) (mem_of_lookupEntry hv)).evolves hprogress'.evolves
  · intro id hid
    rw [hprogress'.evolves.animations] at hid
    exact hanimations hok id hid

end Cohub.Board
