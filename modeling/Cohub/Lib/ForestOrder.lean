import Mathlib.Data.List.Nodup
import Mathlib.Data.List.Dedup
import Mathlib.Data.Finset.Card
import Mathlib.Logic.Relation

/-! # Listing a forest in preorder

    A depth-first walk that appends every node it meets for the first time to
    an order.  The children of a node, and the roots, are given as lists
    (`children none` are the roots).

    Whatever the children are, the walk started at the roots and then at every
    node lists every node once.  If they are the children of a forest, every
    node is followed by all it holds and by nothing else, and siblings come in
    the order they are given in (`Listing`). -/

namespace ForestOrder

open List

variable {α : Type} [DecidableEq α]

/-! ## The walk -/

section Walk

variable (children : Option α → List α)

/-- Append a node and what is below it, unless it is there already.  The first
    argument bounds the depth of the walk. -/
def visit : Nat → List α → α → List α
  | 0, order, _ => order
  | n + 1, order, id =>
      if id ∈ order then order
      else (children (some id)).foldl (fun order child => visit n order child) (order ++ [id])

/-- The walk from several nodes in turn. -/
def visitAll (n : Nat) (order ids : List α) : List α :=
  ids.foldl (fun order id => visit children n order id) order

/-- The roots first, then whatever is left. -/
def traverse (n : Nat) (nodes : List α) : List α :=
  visitAll children n (visitAll children n [] (children none)) nodes

variable {children}

theorem visit_succ (n : Nat) (order : List α) (id : α) :
    visit children (n + 1) order id =
      if id ∈ order then order else visitAll children n (order ++ [id]) (children (some id)) := rfl

@[simp] theorem visitAll_nil (n : Nat) (order : List α) : visitAll children n order [] = order := rfl

@[simp] theorem visitAll_cons (n : Nat) (order : List α) (id : α) (ids : List α) :
    visitAll children n order (id :: ids) =
      visitAll children n (visit children n order id) ids := rfl

variable {I : List α → Prop} {P : α → Prop} {n : Nat}

theorem visitAll_rule (hstep : ∀ order id, I order → P id → I (visit children n order id)) :
    ∀ {ids order : List α}, I order → (∀ id ∈ ids, P id) → I (visitAll children n order ids) := by
  intro ids
  induction ids with
  | nil => intro order h _; exact h
  | cons id ids ih =>
    intro order h hids
    rw [visitAll_cons]
    exact ih (hstep order id h (hids id mem_cons_self))
      fun id' hid' => hids id' (mem_cons_of_mem _ hid')

theorem visit_rule (hchild : ∀ id, P id → ∀ c ∈ children (some id), P c)
    (happend : ∀ order id, I order → P id → id ∉ order → I (order ++ [id])) :
    ∀ n order id, I order → P id → I (visit children n order id) := by
  intro n
  induction n with
  | zero => intro order id h _; exact h
  | succ n ih =>
    intro order id h hid
    rw [visit_succ]
    split
    · exact h
    · next hnew => exact visitAll_rule ih (happend order id h hid hnew) (hchild id hid)

theorem subset_visit (n : Nat) (order : List α) (id : α) : order ⊆ visit children n order id :=
  visit_rule (I := fun order' => order ⊆ order') (P := fun _ => True) (fun _ _ _ _ => trivial)
    (fun _ _ h _ _ => List.Subset.trans h (subset_append_left _ _)) n order id (List.Subset.refl _) trivial

theorem subset_visitAll (n : Nat) (order ids : List α) : order ⊆ visitAll children n order ids :=
  visitAll_rule (I := fun order' => order ⊆ order') (P := fun _ => True)
    (fun order' id h _ => List.Subset.trans h (subset_visit n order' id)) (List.Subset.refl _)
    fun _ _ => trivial

theorem mem_visit (n : Nat) (order : List α) (id : α) : id ∈ visit children (n + 1) order id := by
  rw [visit_succ]
  split
  · assumption
  · exact subset_visitAll n _ _ (by simp)

theorem mem_visitAll {ids : List α} : ∀ {order : List α} {id : α}, id ∈ ids →
    id ∈ visitAll children (n + 1) order ids := by
  induction ids with
  | nil => intro order id h; cases h
  | cons a ids ih =>
    intro order id h
    rw [visitAll_cons]
    rcases mem_cons.mp h with rfl | h
    · exact subset_visitAll _ _ _ (mem_visit n order id)
    · exact ih h

variable {nodes : List α}

theorem perm_traverse (hnodup : nodes.Nodup) (hchildren : ∀ p, ∀ c ∈ children p, c ∈ nodes)
    (n : Nat) : (traverse children (n + 1) nodes).Perm nodes := by
  -- the order lists nodes, none twice
  have happend : ∀ (order : List α) (id : α), (order.Nodup ∧ order ⊆ nodes) → id ∈ nodes →
      id ∉ order → (order ++ [id]).Nodup ∧ order ++ [id] ⊆ nodes := by
    intro order id ⟨hnd, hsub⟩ hid hnew
    refine ⟨?_, by simp [hsub, hid]⟩
    rw [← concat_eq_append]
    exact hnd.concat hnew
  have hvisit : ∀ order id, (order.Nodup ∧ order ⊆ nodes) → id ∈ nodes →
      (visit children (n + 1) order id).Nodup ∧ visit children (n + 1) order id ⊆ nodes :=
    visit_rule (fun id _ => hchildren (some id)) happend (n + 1)
  have hroots : (visitAll children (n + 1) [] (children none)).Nodup ∧
      visitAll children (n + 1) [] (children none) ⊆ nodes :=
    visitAll_rule hvisit ⟨nodup_nil, nil_subset _⟩ (hchildren none)
  obtain ⟨hnd, hsub⟩ := visitAll_rule hvisit hroots fun id (hid : id ∈ nodes) => hid
  exact (perm_ext_iff_of_nodup hnd hnodup).mpr fun id =>
    ⟨fun h => hsub h, fun h => mem_visitAll h⟩

/-- The nodes of the forest that are not listed yet. -/
def unseen (nodes order : List α) : Nat := (nodes.filter fun id => id ∉ order).length

variable {children' : Option α → List α}

theorem visit_congr (hchildren : ∀ p, ∀ c ∈ children p, c ∈ nodes)
    (heq : ∀ q ∈ nodes, children (some q) = children' (some q)) :
    ∀ n order id, id ∈ nodes → visit children n order id = visit children' n order id := by
  intro n
  induction n with
  | zero => intro _ _ _; rfl
  | succ n ih =>
    intro order id hid
    have hrow : ∀ ids, (∀ c ∈ ids, c ∈ nodes) → ∀ order,
        visitAll children n order ids = visitAll children' n order ids := by
      intro ids
      induction ids with
      | nil => intro _ _; rfl
      | cons c ids ihrow =>
        intro hids order
        rw [visitAll_cons, visitAll_cons, ih order c (hids c mem_cons_self)]
        exact ihrow (fun c' hc' => hids c' (mem_cons_of_mem _ hc')) _
    rw [visit_succ, visit_succ, ← heq id hid, hrow _ (hchildren _)]

theorem traverse_congr
    (hchildren : ∀ p, ∀ c ∈ children p, c ∈ nodes) (hroots : children none = children' none)
    (heq : ∀ q ∈ nodes, children (some q) = children' (some q)) (n : Nat) :
    traverse children n nodes = traverse children' n nodes := by
  have hrow : ∀ ids, (∀ c ∈ ids, c ∈ nodes) → ∀ order,
      visitAll children n order ids = visitAll children' n order ids := by
    intro ids
    induction ids with
    | nil => intro _ _; rfl
    | cons c ids ih =>
      intro hids order
      rw [visitAll_cons, visitAll_cons,
        visit_congr hchildren heq n order c (hids c mem_cons_self)]
      exact ih (fun c' hc' => hids c' (mem_cons_of_mem _ hc')) _
  unfold traverse
  rw [← hroots, hrow _ (hchildren none), hrow _ fun _ h => h]

end Walk

/-! ## Forests -/

/-- `a` is somewhere below `b`. -/
def Below (parent : α → Option α) (a b : α) : Prop :=
  Relation.TransGen (fun c p => parent c = some p) a b

/-- `a` is `b` or somewhere below it. -/
def Within (parent : α → Option α) (a b : α) : Prop :=
  Relation.ReflTransGen (fun c p => parent c = some p) a b

/-- The children of a node are the nodes it is the parent of; the roots are
    those without one. -/
structure Forest (children : Option α → List α) (parent : α → Option α) (nodes : List α) :
    Prop where
  mem_children : ∀ p c, c ∈ children p ↔ c ∈ nodes ∧ parent c = p
  parent_mem : ∀ c p, parent c = some p → c ∈ nodes ∧ p ∈ nodes
  acyclic : ∀ id, ¬ Below parent id id
  nodup : ∀ p, (children p).Nodup

namespace Forest

variable {children : Option α → List α} {parent : α → Option α} {nodes : List α} {id a : α}
  {x p b : α}

section

variable (h : Forest children parent nodes)
include h

theorem below_iff :
    Below parent x id ↔ ∃ c ∈ children (some id), Within parent x c := by
  constructor
  · intro hx
    obtain ⟨c, hxc, hparent⟩ := Relation.TransGen.tail'_iff.mp hx
    exact ⟨c, (h.mem_children _ _).mpr ⟨(h.parent_mem _ _ hparent).1, hparent⟩, hxc⟩
  · intro ⟨c, hc, hxc⟩
    exact Relation.TransGen.tail' hxc ((h.mem_children _ _).mp hc).2

theorem not_within (hp : parent a = some p) : ¬ Within parent p a := by
  intro hpa
  have hcycle : Below parent a a := Relation.TransGen.head' (b := p) hp hpa
  exact h.acyclic a hcycle

theorem eq_of_within (hparent : parent a = parent b) (hab : Within parent a b) : a = b := by
  rcases Relation.ReflTransGen.cases_head hab with heq | ⟨p, hap, hpb⟩
  · exact heq
  · have hbp : parent b = some p := hparent ▸ hap
    exact absurd hpb (h.not_within hbp)

theorem apart (hparent : parent a = parent b)
    (ha : Within parent x a) (hb : Within parent x b) : a = b := by
  have hunique : Relator.RightUnique fun c p : α => parent c = some p := by
    intro c p q hp hq
    exact Option.some.inj (hp.symm.trans hq)
  rcases Relation.ReflTransGen.total_of_right_unique hunique ha hb with hab | hba
  · exact h.eq_of_within hparent hab
  · exact (h.eq_of_within hparent.symm hba).symm

/-- How many nodes are above a node; that bounds how deep it is. -/
noncomputable def height (parent : α → Option α) (nodes : List α) (id : α) : Nat := by
  classical exact (nodes.toFinset.filter fun x => Below parent x id).card

theorem height_lt {c : α} (hc : parent c = some p) :
    height parent nodes c < height parent nodes p := by
  classical
  unfold height
  apply Finset.card_lt_card
  rw [Finset.ssubset_iff_of_subset]
  · refine ⟨c, ?_, ?_⟩
    · simp only [Finset.mem_filter, mem_toFinset]
      exact ⟨(h.parent_mem c p hc).1, Relation.TransGen.single hc⟩
    · simp only [Finset.mem_filter, not_and]
      exact fun _ => h.acyclic c
  · intro x hx
    simp only [Finset.mem_filter] at hx ⊢
    exact ⟨hx.1, hx.2.tail hc⟩

theorem height_lt_length (hid : id ∈ nodes) : height parent nodes id < nodes.length := by
  classical
  refine lt_of_lt_of_le ?_ nodes.toFinset_card_le
  unfold height
  apply Finset.card_lt_card
  rw [Finset.ssubset_iff_of_subset (Finset.filter_subset _ _)]
  refine ⟨id, mem_toFinset.mpr hid, ?_⟩
  simp only [Finset.mem_filter, not_and]
  exact fun _ => h.acyclic id

theorem exists_root (hid : id ∈ nodes) : ∃ r ∈ children none, Within parent id r := by
  induction hn : nodes.length - height parent nodes id using Nat.strong_induction_on
    generalizing id with
  | _ n ih =>
    cases hp : parent id with
    | none => exact ⟨id, (h.mem_children none id).mpr ⟨hid, hp⟩, Relation.ReflTransGen.refl⟩
    | some p =>
      have hpmem := (h.parent_mem id p hp).2
      have hlt := h.height_lt hp
      have hbound := h.height_lt_length hpmem
      obtain ⟨r, hr, hpr⟩ := ih _ (by omega) hpmem rfl
      exact ⟨r, hr, Relation.ReflTransGen.head hp hpr⟩

end

end Forest

/-! ## Preorder -/

/-- A row of siblings, each followed by a listing of its children. -/
inductive Listing (children : Option α → List α) : List α → List α → Prop where
  | nil : Listing children [] []
  | cons {id : α} {ids inside rest : List α} (hinside : Listing children (children (some id)) inside)
      (hrest : Listing children ids rest) : Listing children (id :: ids) (id :: (inside ++ rest))

namespace Listing

variable {children : Option α → List α} {parent : α → Option α} {nodes : List α}
variable {ids order : List α}

theorem mem_iff (hforest : Forest children parent nodes) (h : Listing children ids order) {x : α} :
    x ∈ order ↔ ∃ id ∈ ids, Within parent x id := by
  induction h with
  | nil => simp
  | @cons id ids inside rest _ _ ihinside ihrest =>
    have hwithin : Within parent x id ↔ x = id ∨ x ∈ inside := by
      rw [ihinside, ← hforest.below_iff]
      exact Relation.reflTransGen_iff_eq_or_transGen.trans (by rw [eq_comm]; rfl)
    simp only [mem_cons, mem_append, exists_eq_or_imp, hwithin, ihrest, or_assoc]

theorem block (hforest : Forest children parent nodes) (h : Listing children ids order) {id : α}
    (hid : id ∈ order) :
    ∃ before inside after, order = before ++ id :: (inside ++ after) ∧
      ∀ x, x ∈ inside ↔ Below parent x id := by
  induction h with
  | nil => cases hid
  | @cons a ids inside rest hinside _ ihinside ihrest =>
    simp only [mem_cons, mem_append] at hid
    rcases hid with rfl | hid | hid
    · exact ⟨[], inside, rest, rfl, fun x => by rw [hinside.mem_iff hforest, hforest.below_iff]⟩
    · obtain ⟨before, inside', after, rfl, hmem⟩ := ihinside hid
      exact ⟨a :: before, inside', after ++ rest, by simp, hmem⟩
    · obtain ⟨before, inside', after, rfl, hmem⟩ := ihrest hid
      exact ⟨a :: (inside ++ before), inside', after, by simp, hmem⟩

/-- `a` may come before `b`: it is not below it, and if they are siblings it is
    not greater. -/
def Before (parent : α → Option α) (le : α → α → Prop) (a b : α) : Prop :=
  ¬ Below parent a b ∧ (parent a = parent b → le a b)

theorem pairwise {le : α → α → Prop} (hforest : Forest children parent nodes)
    (hsorted : ∀ p, (children p).Pairwise le) (h : Listing children ids order) {p : Option α}
    (hids : ∀ id ∈ ids, parent id = p) (hrow : ids.Pairwise le) (hnodup : ids.Nodup) :
    order.Pairwise (Before parent le) := by
  induction h generalizing p with
  | nil => exact List.Pairwise.nil
  | @cons id ids inside rest hinside hrest ihinside ihrest =>
    rw [pairwise_cons] at hrow
    rw [nodup_cons] at hnodup
    have hidp : parent id = p := hids id mem_cons_self
    have hidsp : ∀ id' ∈ ids, parent id' = p := fun id' hid' => hids id' (mem_cons_of_mem _ hid')
    -- what a sibling holds is not above the node, and only the sibling itself is beside it
    have hsibling : ∀ x, Within parent x id → ∀ y ∈ rest, ¬ Below parent x y ∧
        (parent x = parent y → x = id ∧ y ∈ ids) := by
      intro x hx y hy
      obtain ⟨id', hid', hy⟩ := (hrest.mem_iff hforest).mp hy
      have hsame : parent id = parent id' := hidp.trans (hidsp id' hid').symm
      have hne : id ≠ id' := fun heq => hnodup.1 (heq ▸ hid')
      refine ⟨?_, ?_⟩
      · intro hxy
        exact hne (hforest.apart hsame hx (hxy.to_reflTransGen.trans hy))
      · intro hparents
        rcases Relation.ReflTransGen.cases_head hx with rfl | ⟨q, hxq, hq⟩
        · rcases Relation.ReflTransGen.cases_head hy with rfl | ⟨q, hyq, hq⟩
          · exact ⟨rfl, hid'⟩
          · have hxq : parent id' = some q := by rw [← hsame, hparents, hyq]
            exact absurd hq (hforest.not_within hxq)
        · rcases Relation.ReflTransGen.cases_head hy with rfl | ⟨q', hyq, hq'⟩
          · have hidq : parent id = some q := by rw [hsame, ← hparents, hxq]
            exact absurd hq (hforest.not_within hidq)
          · have hqq : q = q' := Option.some.inj (hxq.symm.trans (hparents.trans hyq))
            exact absurd (hforest.apart hsame hq (hqq ▸ hq')) hne
    have hinsidep : ∀ c ∈ children (some id), parent c = some id :=
      fun c hc => ((hforest.mem_children _ _).mp hc).2
    have hbelow : ∀ x ∈ inside, Below parent x id := fun x hx =>
      hforest.below_iff.mpr ((hinside.mem_iff hforest).mp hx)
    rw [pairwise_cons, pairwise_append]
    refine ⟨?_, ihinside hinsidep (hsorted _) (hforest.nodup _), ihrest hidsp hrow.2 hnodup.2, ?_⟩
    · intro y hy
      rcases mem_append.mp hy with hy | hy
      · have hyid := hbelow y hy
        refine ⟨fun hidy => hforest.acyclic id (hidy.trans hyid), ?_⟩
        intro hparents
        obtain ⟨q, hyq, hq⟩ := Relation.TransGen.head'_iff.mp hyid
        exact absurd hq (hforest.not_within (hparents.trans hyq))
      · obtain ⟨habove, hbeside⟩ := hsibling id Relation.ReflTransGen.refl y hy
        exact ⟨habove, fun hparents => hrow.1 y (hbeside hparents).2⟩
    · intro x hx y hy
      obtain ⟨habove, hbeside⟩ := hsibling x (hbelow x hx).to_reflTransGen y hy
      refine ⟨habove, fun hparents => ?_⟩
      have hxid := (hbeside hparents).1
      exact absurd (hxid ▸ hbelow x hx) (hforest.acyclic id)

end Listing

/-! ## The walk over a forest -/

namespace Forest

variable {children : Option α → List α} {parent : α → Option α} {nodes : List α}

theorem visitAll_listing (h : Forest children parent nodes) :
    ∀ n (ids order : List α) (p : Option α), (∀ id ∈ ids, id ∈ nodes ∧ parent id = p) → ids.Nodup →
      (∀ id ∈ ids, height parent nodes id < n) →
      (∀ id ∈ ids, ∀ x, Within parent x id → x ∉ order) →
      ∃ listing, Listing children ids listing ∧
        visitAll children n order ids = order ++ listing := by
  intro n
  induction n with
  | zero =>
    intro ids order p _ _ hheight _
    cases ids with
    | nil => exact ⟨[], Listing.nil, by simp⟩
    | cons id ids => exact absurd (hheight id mem_cons_self) (Nat.not_lt_zero _)
  | succ n ih =>
    intro ids
    induction ids with
    | nil => exact fun order _ _ _ _ _ => ⟨[], Listing.nil, by simp⟩
    | cons id ids ihrow =>
      intro order p hids hnodup hheight hnew
      obtain ⟨hid, hidp⟩ := hids id mem_cons_self
      rw [nodup_cons] at hnodup
      have hidnew : id ∉ order := hnew id mem_cons_self id Relation.ReflTransGen.refl
      have hchild : ∀ c ∈ children (some id), c ∈ nodes ∧ parent c = some id :=
        fun c hc => (h.mem_children _ _).mp hc
      -- the children first, after the node itself
      obtain ⟨inside, hinside, hvisit⟩ := ih (children (some id)) (order ++ [id]) (some id) hchild
        (h.nodup _)
        (by
          intro c hc
          have hlt := h.height_lt (hchild c hc).2
          have hbound := hheight id mem_cons_self
          omega)
        (by
          intro c hc x hx hmem
          have hbelow : Below parent x id := h.below_iff.mpr ⟨c, hc, hx⟩
          rcases mem_append.mp hmem with hmem | hmem
          · exact hnew id mem_cons_self x hbelow.to_reflTransGen hmem
          · exact h.acyclic id (mem_singleton.mp hmem ▸ hbelow))
      -- then the siblings
      obtain ⟨rest, hrest, hvisitRest⟩ := ihrow (order ++ id :: inside) p
        (fun id' hid' => hids id' (mem_cons_of_mem _ hid')) hnodup.2
        (fun id' hid' => hheight id' (mem_cons_of_mem _ hid'))
        (by
          intro id' hid' x hx hmem
          have hsame : parent id = parent id' :=
            hidp.trans (hids id' (mem_cons_of_mem _ hid')).2.symm
          have hapart : ¬ Within parent x id := fun hxid =>
            hnodup.1 (h.apart hsame hxid hx ▸ hid')
          simp only [mem_append, mem_cons] at hmem
          rcases hmem with hmem | rfl | hmem
          · exact hnew id' (mem_cons_of_mem _ hid') x hx hmem
          · exact hapart Relation.ReflTransGen.refl
          · exact hapart (h.below_iff.mpr ((hinside.mem_iff h).mp hmem)).to_reflTransGen)
      refine ⟨id :: (inside ++ rest), Listing.cons hinside hrest, ?_⟩
      rw [visitAll_cons, visit_succ, if_neg hidnew, hvisit, append_assoc, singleton_append,
        hvisitRest, append_assoc, cons_append]

theorem visitAll_of_subset (n : Nat) (order : List α) {ids : List α} (h : ids ⊆ order) :
    visitAll children (n + 1) order ids = order := by
  induction ids with
  | nil => rfl
  | cons id ids ih =>
    rw [visitAll_cons, visit_succ, if_pos (h mem_cons_self)]
    exact ih fun x hx => h (mem_cons_of_mem _ hx)

theorem traverse_listing (h : Forest children parent nodes) :
    Listing children (children none) (traverse children (nodes.length + 1) nodes) := by
  have hroot : ∀ r ∈ children none, r ∈ nodes ∧ parent r = none :=
    fun r hr => (h.mem_children none r).mp hr
  obtain ⟨listing, hlisting, hvisit⟩ := h.visitAll_listing (nodes.length + 1) (children none) [] none
    hroot (h.nodup none)
    (fun r hr => Nat.lt_succ_of_lt (h.height_lt_length (hroot r hr).1))
    (fun _ _ _ _ => not_mem_nil)
  have hall : nodes ⊆ listing := fun id hid => (hlisting.mem_iff h).mpr (h.exists_root hid)
  unfold traverse
  rw [hvisit, nil_append, visitAll_of_subset _ _ hall]
  exact hlisting

end Forest

end ForestOrder
