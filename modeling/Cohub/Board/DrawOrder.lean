import Mathlib.Algebra.Order.Ring.Rat
import Mathlib.Data.List.Sort
import Cohub.Board.View
import Cohub.Lib.CodeUnits
import Cohub.Lib.ForestOrder

/-! # The order items are drawn in

    `orderBoardItems` of `packages/sdk/src/board/model/scene.ts`: items are
    grouped by parent, each group is sorted by `z` and then by id, and a
    depth-first walk lists a parent right before its children.

    Whatever the parents are, every item is listed once.  If no item is inside
    itself the order is that of the tree: who is drawn later among siblings is
    drawn above, and the children of an item are drawn with it. -/

namespace Cohub.Board

open List Option OrderedMap

/-! ## The source -/

/-- `items[id]?.z ?? 0`. -/
def drawZ (items : OrderedMap String Json) (id : String) : Rat :=
  ((items.get? id).bind itemZ).getD 0

/-- The group an item is in, `""` for the roots. -/
def drawParent (items : OrderedMap String Json) (id : String) (item : Json) : String :=
  match itemParent item with
  | some parent =>
      if parent ≠ "" ∧ (readMember (items.get? parent) parent).isSome ∧ parent ≠ id then parent
      else ""
  | none => ""

/-- `compare(a, b) <= 0`. -/
def drawnBefore (items : OrderedMap String Json) (a b : String) : Prop :=
  drawZ items a < drawZ items b ∨ drawZ items a = drawZ items b ∧ Text.Le a b

instance (items : OrderedMap String Json) (a b : String) : Decidable (drawnBefore items a b) :=
  inferInstanceAs (Decidable (_ ∨ _ ∧ _))

/-- `children.get(parent ?? "")`, sorted. -/
def drawGroup (items : OrderedMap String Json) (parent : Option String) : List String :=
  ((items.entries.filter fun e => drawParent items e.1 e.2 = parent.getD "").map
    Prod.fst).insertionSort (drawnBefore items)

def orderBoardItems (items : OrderedMap String Json) : List String :=
  ForestOrder.traverse (drawGroup items) (items.size + 1) items.keys

/-! ## Groups -/

variable {items : OrderedMap String Json}

theorem drawnBefore_total (a b : String) : drawnBefore items a b ∨ drawnBefore items b a := by
  unfold drawnBefore
  rcases lt_trichotomy (drawZ items a) (drawZ items b) with h | h | h
  · exact .inl (.inl h)
  · rcases Text.Le.total a b with hle | hle
    · exact .inl (.inr ⟨h, hle⟩)
    · exact .inr (.inr ⟨h.symm, hle⟩)
  · exact .inr (.inl h)

theorem drawnBefore_trans {a b c : String} (hab : drawnBefore items a b)
    (hbc : drawnBefore items b c) : drawnBefore items a c := by
  unfold drawnBefore at hab hbc ⊢
  rcases hab with hab | ⟨hab, hle⟩
  · rcases hbc with hbc | ⟨hbc, -⟩
    · exact .inl (hab.trans hbc)
    · exact .inl (hbc ▸ hab)
  · rcases hbc with hbc | ⟨hbc, hle'⟩
    · exact .inl (hab ▸ hbc)
    · exact .inr ⟨hab.trans hbc, hle.trans hle'⟩

variable {id : String}

theorem mem_drawGroup {parent : Option String} :
    id ∈ drawGroup items parent ↔
      ∃ item, items.get? id = some item ∧ drawParent items id item = parent.getD "" := by
  unfold drawGroup
  simp only [mem_insertionSort, List.mem_map, mem_filter, decide_eq_true_eq]
  constructor
  · rintro ⟨⟨_, item⟩, ⟨hmem, hparent⟩, rfl⟩
    exact ⟨item, (items.mem_entries_iff _ _).mp hmem, hparent⟩
  · rintro ⟨item, hitem, hparent⟩
    exact ⟨(id, item), ⟨(items.mem_entries_iff _ _).mpr hitem, hparent⟩, rfl⟩

theorem mem_keys : id ∈ items.keys ↔ ∃ item, items.get? id = some item := by
  rw [mem_keys_iff, has, isSome_iff_exists]

variable (parent : Option String)

theorem drawGroup_subset : ∀ id ∈ drawGroup items parent, id ∈ items.keys := by
  intro id hid
  obtain ⟨item, hitem, -⟩ := mem_drawGroup.mp hid
  exact mem_keys.mpr ⟨item, hitem⟩

theorem nodup_drawGroup : (drawGroup items parent).Nodup := by
  unfold drawGroup
  rw [(perm_insertionSort _ _).nodup_iff]
  exact items.nodup.sublist (filter_sublist.map Prod.fst)

theorem sorted_drawGroup :
    (drawGroup items parent).Pairwise (drawnBefore items) := by
  have htotal : Std.Total (drawnBefore items) := ⟨drawnBefore_total⟩
  have htrans : IsTrans String (drawnBefore items) := ⟨fun _ _ _ => drawnBefore_trans⟩
  exact pairwise_insertionSort _ _

theorem perm_orderBoardItems (items : OrderedMap String Json) :
    (orderBoardItems items).Perm items.keys :=
  ForestOrder.perm_traverse items.nodup drawGroup_subset items.size

/-! ## Trees -/

/-- The parent of an item, if that is an item. -/
def parentAmong (items : OrderedMap String Json) (id : String) : Option String :=
  ((items.get? id).bind itemParent).filter items.has

/-- The items are a forest. -/
structure Nested (items : OrderedMap String Json) : Prop where
  /-- No id is empty. -/
  named : items.has "" = false
  /-- No parent is only something that every object inherits. -/
  own : ∀ id item q, items.get? id = some item → itemParent item = some q → isInherited q = true →
    items.has q = true
  /-- Nothing is inside itself. -/
  acyclic : ∀ id, ¬ ForestOrder.Below (parentAmong items) id id

theorem parentAmong_eq_some {q : String} :
    parentAmong items id = some q ↔
      ∃ item, items.get? id = some item ∧ itemParent item = some q ∧ items.has q = true := by
  unfold parentAmong
  simp only [filter_eq_some_iff, bind_eq_some_iff]
  constructor
  · rintro ⟨⟨item, hitem, hq⟩, hhas⟩
    exact ⟨item, hitem, hq, hhas⟩
  · rintro ⟨item, hitem, hq, hhas⟩
    exact ⟨⟨item, hitem, hq⟩, hhas⟩

theorem Nested.drawParent_eq (h : Nested items) {item : Json} (hitem : items.get? id = some item) :
    drawParent items id item = (parentAmong items id).getD "" := by
  have hnone : ∀ q, ¬ (itemParent item = some q ∧ items.has q = true) →
      itemParent item = some q → parentAmong items id = none := by
    intro q hnot hq
    rw [eq_none_iff_forall_ne_some]
    intro q' hq'
    obtain ⟨item', hitem', hparent, hhas⟩ := parentAmong_eq_some.mp hq'
    obtain rfl : item = item' := Option.some.inj (hitem.symm.trans hitem')
    obtain rfl : q = q' := Option.some.inj (hq.symm.trans hparent)
    exact hnot ⟨hq, hhas⟩
  unfold drawParent
  cases hq : itemParent item with
  | none =>
    have hroot : parentAmong items id = none := by
      unfold parentAmong
      rw [hitem, bind_some, hq]
      rfl
    rw [hroot]
    rfl
  | some q =>
    by_cases hhas : items.has q = true
    · have hparent : parentAmong items id = some q := parentAmong_eq_some.mpr ⟨item, hitem, hq, hhas⟩
      have hne : q ≠ "" := by
        rintro rfl
        rw [h.named] at hhas
        cases hhas
      have hself : q ≠ id := by
        rintro rfl
        exact h.acyclic q (Relation.TransGen.single hparent)
      obtain ⟨frame, hframe⟩ := (items.has_iff q).mp hhas
      simp only [hframe, readMember_some, isSome_some]
      rw [if_pos ⟨hne, trivial, hself⟩, hparent]
      rfl
    · have hread : (readMember (items.get? q) q).isSome = false := by
        have hget : items.get? q = none := by
          cases hget : items.get? q with
          | none => rfl
          | some v => exact absurd ((items.has_iff q).mpr ⟨v, hget⟩) hhas
        have hown : isInherited q = false := by
          cases hinherited : isInherited q with
          | false => rfl
          | true => exact absurd (h.own id item q hitem hq hinherited) hhas
        rw [hget, readMember_eq_own hown]
        rfl
      simp only [hread]
      rw [if_neg (by simp), hnone q (fun hboth => hhas hboth.2) hq]
      rfl

/-- The groups without that of the empty id, which is no item's. -/
def itemGroup (items : OrderedMap String Json) (parent : Option String) : List String :=
  if parent = some "" then [] else drawGroup items parent

theorem Nested.forest (h : Nested items) :
    ForestOrder.Forest (itemGroup items) (parentAmong items) items.keys := by
  have hne : ∀ id, parentAmong items id ≠ some "" := by
    intro id hid
    obtain ⟨_, _, _, hhas⟩ := parentAmong_eq_some.mp hid
    rw [h.named] at hhas
    cases hhas
  constructor
  · intro p c
    unfold itemGroup
    split
    · next hp =>
      simp only [not_mem_nil, false_iff, not_and]
      intro _ hparent
      exact hne c (hparent.trans hp)
    · next hp =>
      rw [mem_drawGroup, mem_keys]
      constructor
      · intro ⟨item, hitem, hgroup⟩
        refine ⟨⟨item, hitem⟩, ?_⟩
        rw [h.drawParent_eq hitem] at hgroup
        have hnot := hne c
        cases hparent : parentAmong items c with
        | none =>
          rw [hparent] at hgroup
          cases p with
          | none => rfl
          | some q => exact absurd (congrArg some hgroup.symm) hp
        | some q' =>
          rw [hparent] at hgroup hnot
          cases p with
          | none => exact absurd (congrArg some hgroup) hnot
          | some q => exact congrArg some hgroup
      · intro ⟨⟨item, hitem⟩, hparent⟩
        exact ⟨item, hitem, by rw [h.drawParent_eq hitem, hparent]⟩
  · intro c p hparent
    obtain ⟨item, hitem, -, hhas⟩ := parentAmong_eq_some.mp hparent
    exact ⟨mem_keys.mpr ⟨item, hitem⟩, (items.mem_keys_iff p).mpr hhas⟩
  · exact h.acyclic
  · intro p
    unfold itemGroup
    split
    · exact nodup_nil
    · exact nodup_drawGroup p

theorem Nested.listing (h : Nested items) :
    ForestOrder.Listing (itemGroup items) (itemGroup items none) (orderBoardItems items) := by
  have hsame : orderBoardItems items =
      ForestOrder.traverse (itemGroup items) (items.keys.length + 1) items.keys := by
    unfold orderBoardItems
    rw [length_keys]
    have hroots : drawGroup items none = itemGroup items none := by
      unfold itemGroup
      rw [if_neg (by simp)]
    refine ForestOrder.traverse_congr drawGroup_subset hroots ?_ _
    intro q hq
    have hne : q ≠ "" := by
      rintro rfl
      rw [mem_keys_iff, h.named] at hq
      cases hq
    unfold itemGroup
    rw [if_neg (fun heq => hne (Option.some.inj heq))]
  rw [hsame]
  exact h.forest.traverse_listing

/-! ## The order -/

/-- The order lists every item once, no item before one it is inside of, siblings
    by `z` and id, and right after an item what is inside it. -/
structure DrawnInOrder (items : OrderedMap String Json) (order : List String) : Prop where
  perm : order.Perm items.keys
  parents : order.Pairwise fun a b => ¬ ForestOrder.Below (parentAmong items) a b
  siblings : order.Pairwise fun a b =>
    parentAmong items a = parentAmong items b → drawnBefore items a b
  contiguous : ∀ id ∈ order, ∃ before inside after, order = before ++ id :: (inside ++ after) ∧
    ∀ x, x ∈ inside ↔ ForestOrder.Below (parentAmong items) x id

theorem Nested.drawnInOrder (h : Nested items) : DrawnInOrder items (orderBoardItems items) := by
  have hroots : ∀ r ∈ itemGroup items none, parentAmong items r = none :=
    fun r hr => ((h.forest.mem_children none r).mp hr).2
  have hsorted : ∀ p, (itemGroup items p).Pairwise (drawnBefore items) := by
    intro p
    unfold itemGroup
    split
    · exact List.Pairwise.nil
    · exact sorted_drawGroup p
  have hbefore := h.listing.pairwise h.forest hsorted hroots (hsorted none) (h.forest.nodup none)
  exact {
    perm := perm_orderBoardItems items
    parents := hbefore.imp And.left
    siblings := hbefore.imp And.right
    contiguous := fun id hid => h.listing.block h.forest hid }

theorem nested_of_wellFormed {document : BoardDocument} (h : document.view.WellFormed) :
    Nested document.items := by
  have hhas : ∀ id item, document.items.get? id = some item → document.items.has id = true :=
    fun id item hitem => (document.items.has_iff id).mpr ⟨item, hitem⟩
  constructor
  · cases hempty : document.items.has "" with
    | false => rfl
    | true =>
      obtain ⟨item, hitem⟩ := (document.items.has_iff "").mp hempty
      have hlegal := h.legal "" (.inl (by rw [show document.view.item "" = some item from hitem]; rfl))
      exact absurd hlegal (by decide)
  · intro id item q hitem hq _
    obtain ⟨frame, hframe, -⟩ := h.parent id item q hitem hq
    exact hhas q frame hframe
  · intro id hbelow
    have hstep : ∀ a b, parentAmong document.items a = some b → document.view.IsParent a b := by
      intro a b hab
      obtain ⟨item, hitem, hparent, -⟩ := parentAmong_eq_some.mp hab
      show (document.items.get? a).bind itemParent = some b
      rw [hitem]
      exact hparent
    exact h.acyclic id (Relation.TransGen.mono hstep id id hbelow)

end Cohub.Board
