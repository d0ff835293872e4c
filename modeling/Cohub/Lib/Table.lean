import Mathlib.Data.List.Sort
import Mathlib.Data.List.Perm.Basic
import Mathlib.Data.List.Pairwise

/-! # Rows in an order

    What `ORDER BY` does to the rows that a query selects, for keys that no two
    rows share: the rows are in the one list that has their keys ascending, and
    to select from ordered rows is to order the selected ones.

    `filter_mem_perm` has the rows of several groups at once. -/

namespace Table

open List

variable {α β γ : Type}

/-- No two rows share their key. -/
def Distinct (key : α → γ) (rows : List α) : Prop := rows.Pairwise fun a b => key a ≠ key b

variable {rows : List α} {a : α}

theorem Distinct.perm {key : α → γ} {rows' : List α} (h : Distinct key rows)
    (hperm : rows.Perm rows') : Distinct key rows' :=
  List.Pairwise.perm h hperm fun hne => hne.symm

theorem Distinct.filter {key : α → γ} (h : Distinct key rows) (p : α → Bool) :
    Distinct key (rows.filter p) :=
  List.Pairwise.filter p h

theorem Distinct.nodup {key : α → γ} (h : Distinct key rows) : (rows.map key).Nodup :=
  pairwise_map.mpr h

theorem Distinct.concat {key : α → γ} {rows : List α} {b : α} (h : Distinct key rows)
    (hnew : ∀ a ∈ rows, key a ≠ key b) : Distinct key (rows ++ [b]) := by
  refine pairwise_append.mpr ⟨h, pairwise_singleton _ _, ?_⟩
  intro a ha last hlast
  rw [mem_singleton.mp hlast]
  exact hnew a ha

theorem Distinct.map {key : α → γ} {f : α → α} (h : Distinct key rows)
    (hkey : ∀ a ∈ rows, key (f a) = key a) : Distinct key (rows.map f) := by
  refine pairwise_map.mpr (List.Pairwise.imp_of_mem ?_ h)
  intro a b ha hb hne
  rw [hkey a ha, hkey b hb]
  exact hne

variable {b : α} {p : α → Bool}

theorem Distinct.eq_of_key {key : α → γ} (h : Distinct key rows)
    (ha : a ∈ rows) (hb : b ∈ rows) (hkey : key a = key b) : a = b := by
  have hsymm : Std.Symm fun a b : α => key a = key b → a = b := ⟨fun _ _ h heq => (h heq.symm).symm⟩
  have hall : rows.Pairwise fun a b => key a = key b → a = b :=
    List.Pairwise.imp (fun hne heq => absurd heq hne) h
  exact hall.forall_of_forall (fun _ _ _ => rfl) ha hb hkey

theorem map_eq_of_map_eq {δ : Type} {key : α → γ} {f : α → δ} {l l' : List α}
    (h : l.map key = l'.map key) (hf : ∀ a ∈ l, ∀ b ∈ l', key a = key b → f a = f b) :
    l.map f = l'.map f := by
  induction l generalizing l' with
  | nil => rw [map_eq_nil_iff.mp h.symm]
  | cons a rest ih =>
    obtain ⟨b, rest', rfl, hkey, hrest⟩ := map_eq_cons_iff.mp h.symm
    rw [map_cons, map_cons, hf a mem_cons_self b mem_cons_self hkey.symm,
      ih hrest.symm fun a ha b hb => hf a (mem_cons_of_mem _ ha) b (mem_cons_of_mem _ hb)]

theorem Distinct.find?_eq_some_iff {key : α → γ} (h : Distinct key rows) {k : γ}
    (hp : ∀ a, p a = true ↔ key a = k) : rows.find? p = some a ↔ a ∈ rows ∧ key a = k := by
  constructor
  · intro hfind
    exact ⟨mem_of_find?_eq_some hfind, (hp a).mp (find?_some hfind)⟩
  · rintro ⟨ha, hkey⟩
    obtain ⟨b, hfind⟩ := Option.isSome_iff_exists.mp
      (find?_isSome.mpr ⟨a, ha, (hp a).mpr hkey⟩)
    have hb := (hp b).mp (find?_some hfind)
    rw [hfind, h.eq_of_key (mem_of_find?_eq_some hfind) ha (hb.trans hkey.symm)]

theorem filter_groups_perm {group : α → γ} {groups : List γ} (h : groups.Nodup)
    {chosen : α → Bool} {each : γ → α → Bool} (hsome : ∀ a, chosen a = true ↔ group a ∈ groups)
    (heach : ∀ g a, each g a = true ↔ group a = g) :
    (rows.filter chosen).Perm (groups.flatMap fun g => rows.filter (each g)) := by
  induction groups generalizing chosen with
  | nil =>
    rw [flatMap_nil, filter_eq_nil_iff.mpr]
    intro a _ ha
    exact absurd ((hsome a).mp ha) not_mem_nil
  | cons g rest ih =>
    obtain ⟨hg, hrest⟩ := nodup_cons.mp h
    -- split by the first group, whose rows are in no other
    have hlater : ∀ a, (!each g a && chosen a) = true ↔ group a ∈ rest := by
      intro a
      rw [Bool.and_eq_true, Bool.not_eq_true', ← Bool.not_eq_true, heach, hsome, mem_cons]
      constructor
      · rintro ⟨hne, heq | hmem⟩
        · exact absurd heq hne
        · exact hmem
      · intro hmem
        exact ⟨fun heq => hg (heq ▸ hmem), .inr hmem⟩
    have hfirst : ∀ a, (each g a && chosen a) = each g a := by
      intro a
      by_cases ha : each g a = true
      · have hmem : chosen a = true := (hsome a).mpr ((heach g a).mp ha ▸ mem_cons_self)
        rw [ha, hmem]
        rfl
      · rw [Bool.not_eq_true] at ha
        rw [ha, Bool.false_and]
    have hsplit := filter_append_perm (each g) (rows.filter chosen)
    rw [filter_filter, filter_filter] at hsplit
    rw [filter_congr fun a _ => hfirst a] at hsplit
    rw [flatMap_cons]
    exact hsplit.symm.trans ((ih hrest hlater).append_left _)

variable [LinearOrder β]

/-- `ORDER BY key ASC`. -/
def orderBy (key : α → β) (rows : List α) : List α :=
  rows.insertionSort fun a b => key a ≤ key b

def Ascending (key : α → β) (rows : List α) : Prop := rows.Pairwise fun a b => key a < key b

variable {key : α → β} {rows rows' : List α}

theorem orderBy_perm (key : α → β) (rows : List α) : (orderBy key rows).Perm rows :=
  perm_insertionSort _ rows

@[simp] theorem mem_orderBy : a ∈ orderBy key rows ↔ a ∈ rows :=
  (orderBy_perm key rows).mem_iff

theorem Ascending.distinct (h : Ascending key rows) : Distinct key rows :=
  List.Pairwise.imp (fun hlt => hlt.ne) h

theorem Ascending.filter (h : Ascending key rows) (p : α → Bool) : Ascending key (rows.filter p) :=
  List.Pairwise.filter p h

theorem orderBy_ascending (h : Distinct key rows) : Ascending key (orderBy key rows) := by
  have hle : (orderBy key rows).Pairwise fun a b => key a ≤ key b :=
    pairwise_insertionSort _ rows
  have hne : (orderBy key rows).Pairwise fun a b => key a ≠ key b :=
    h.perm (orderBy_perm key rows).symm
  exact (hle.and hne).imp fun hboth => lt_of_le_of_ne hboth.1 hboth.2

theorem Ascending.eq_of_perm (h : Ascending key rows) (h' : Ascending key rows')
    (hperm : rows.Perm rows') : rows = rows' :=
  hperm.eq_of_pairwise (fun _ _ _ _ hab hba => absurd hab (lt_asymm hba)) h h'

theorem orderBy_eq (hperm : rows.Perm rows') (h : Ascending key rows') : orderBy key rows = rows' :=
  (orderBy_ascending (h.distinct.perm hperm.symm)).eq_of_perm h
    ((orderBy_perm key rows).trans hperm)

theorem orderBy_filter (h : Distinct key rows) (p : α → Bool) :
    orderBy key (rows.filter p) = (orderBy key rows).filter p :=
  orderBy_eq ((orderBy_perm key rows).filter p).symm ((orderBy_ascending h).filter p)

theorem Ascending.head_le (h : Ascending key rows) (hhead : rows.head? = some a)
    (hb : b ∈ rows) : key a ≤ key b := by
  cases rows with
  | nil => cases hb
  | cons first rest =>
    injection hhead with hhead
    subst hhead
    rcases mem_cons.mp hb with rfl | hb
    · exact le_refl _
    · exact ((pairwise_cons.mp h).1 b hb).le

theorem Ascending.le_last (h : Ascending key rows) {last : α} (hlast : rows.getLast? = some last)
    (ha : a ∈ rows) : key a ≤ key last := by
  obtain ⟨before, rfl⟩ := getLast?_eq_some_iff.mp hlast
  rcases mem_append.mp ha with ha | ha
  · exact ((pairwise_append.mp h).2.2 a ha last (mem_singleton_self _)).le
  · rw [mem_singleton.mp ha]

theorem Ascending.filter_initial (h : Ascending key rows)
    (hp : ∀ a b, key a < key b → p b = true → p a = true) : rows.filter p <+: rows := by
  induction rows with
  | nil => exact prefix_refl _
  | cons first rest ih =>
    obtain ⟨hlater, hrest⟩ := pairwise_cons.mp h
    by_cases hfirst : p first = true
    · rw [filter_cons_of_pos hfirst]
      exact (prefix_cons_inj first).mpr (ih hrest)
    · have hnone : (first :: rest).filter p = [] := by
        rw [filter_eq_nil_iff]
        intro b hb hpb
        rcases mem_cons.mp hb with rfl | hb
        · exact hfirst hpb
        · exact hfirst (hp first b (hlater b hb) hpb)
      rw [hnone]
      exact List.nil_prefix

end Table
