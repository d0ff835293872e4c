import Mathlib.Data.List.Sort
import Mathlib.Data.List.Nodup

/-! # Lists whose elements carry a key

    A list can serve as a finite map when each element carries its key and no
    key occurs twice.  Programs that keep such lists find an element by its
    key, write over it in place, put a new one at the end, take one out, and
    sort.  Each operation gets one lemma that says what the list reads as a map
    afterwards; two sorted lists that read the same are the same
    (`insertionSort_eq_of_lookup`). -/

namespace KeyedList

open List

variable {α κ : Type} [DecidableEq κ] (key : α → κ)

/-! ## Lookups -/

/-- The first element with a key. -/
def lookup (l : List α) (k : κ) : Option α := l.find? fun a => key a = k

/-- The position of the first element with a key. -/
def position (l : List α) (k : κ) : Option Nat := l.findIdx? fun a => key a = k

/-- No key occurs twice. -/
def Distinct (l : List α) : Prop := (l.map key).Nodup

theorem lookup_cons (a : α) (l : List α) (k : κ) :
    lookup key (a :: l) k = if key a = k then some a else lookup key l k := by
  unfold lookup
  rw [find?_cons]
  split <;> simp_all

theorem position_cons (a : α) (l : List α) (k : κ) :
    position key (a :: l) k = if key a = k then some 0 else (position key l k).map (· + 1) := by
  unfold position
  rw [findIdx?_cons]
  simp

variable {l : List α} {k : κ} {a : α} {i : Nat}

theorem key_of_lookup (h : lookup key l k = some a) : key a = k := by
  simpa using find?_some h

theorem mem_of_lookup (h : lookup key l k = some a) : a ∈ l :=
  mem_of_find?_eq_some h

theorem lookup_eq_none_iff (l : List α) (k : κ) : lookup key l k = none ↔ ∀ a ∈ l, key a ≠ k := by
  simp [lookup, find?_eq_none]

theorem position_eq_none_iff (l : List α) (k : κ) : position key l k = none ↔ lookup key l k = none := by
  rw [lookup_eq_none_iff]
  simp [position, findIdx?_eq_none_iff]

omit [DecidableEq κ] in
theorem Distinct.cons {a : α} {l : List α} (h : Distinct key (a :: l)) :
    (∀ b ∈ l, key b ≠ key a) ∧ Distinct key l := by
  unfold Distinct at *
  rw [map_cons, nodup_cons] at h
  exact ⟨fun b hb heq => h.1 (heq ▸ mem_map_of_mem hb), h.2⟩

theorem lookup_eq_some_iff (h : Distinct key l) (k : κ) (a : α) :
    lookup key l k = some a ↔ a ∈ l ∧ key a = k := by
  induction l with
  | nil => simp [lookup]
  | cons b l ih =>
    obtain ⟨hb, hl⟩ := h.cons
    rw [lookup_cons]
    by_cases hk : key b = k
    · rw [if_pos hk, Option.some.injEq, mem_cons]
      constructor
      · rintro rfl
        exact ⟨.inl rfl, hk⟩
      · rintro ⟨rfl | ha, hka⟩
        · rfl
        · exact absurd (hka.trans hk.symm) (hb a ha)
    · rw [if_neg hk, ih hl, mem_cons]
      constructor
      · exact fun hmem => ⟨.inr hmem.1, hmem.2⟩
      · rintro ⟨rfl | ha, hka⟩
        · exact absurd hka hk
        · exact ⟨ha, hka⟩

theorem getElem?_position (h : position key l k = some i) : l[i]? = lookup key l k := by
  induction l generalizing i with
  | nil => cases h
  | cons a l ih =>
    rw [position_cons] at h
    rw [lookup_cons]
    split at h
    · next hk =>
      rw [← Option.some.inj h, if_pos hk]
      rfl
    · next hk =>
      obtain ⟨j, hj, rfl⟩ := Option.map_eq_some_iff.mp h
      rw [if_neg hk, getElem?_cons_succ, ih hj]

theorem findIdx?_and (h : Distinct key l) (q : α → Bool) :
    (l.findIdx? fun a => decide (key a = k) && q a) =
      if (lookup key l k).any q then position key l k else none := by
  induction l with
  | nil => rfl
  | cons a l ih =>
    obtain ⟨ha, hl⟩ := h.cons
    rw [findIdx?_cons, lookup_cons, position_cons, ih hl]
    by_cases hk : key a = k
    · have hnone : lookup key l k = none := by
        rw [lookup_eq_none_iff, ← hk]
        exact ha
      simp [hk, hnone]
    · simp only [hk, decide_false, Bool.false_and, Bool.false_eq_true, if_false]
      split <;> rfl

/-! ## Writes -/

theorem lookup_set (h : Distinct key l) (hi : position key l k = some i) (ha : key a = k) :
    Distinct key (l.set i a) ∧
      ∀ k', lookup key (l.set i a) k' = if k' = k then some a else lookup key l k' := by
  induction l generalizing i with
  | nil => cases hi
  | cons b l ih =>
    obtain ⟨hb, hl⟩ := h.cons
    rw [position_cons] at hi
    split at hi
    · next hk =>
      rw [← Option.some.inj hi, set_cons_zero]
      refine ⟨?_, ?_⟩
      · unfold Distinct at *
        rw [map_cons, ha, ← hk, ← map_cons]
        exact h
      · intro k'
        rw [lookup_cons, lookup_cons, ha, hk]
        by_cases hk' : k = k'
        · rw [if_pos hk', if_pos hk'.symm]
        · rw [if_neg hk', if_neg hk', if_neg (fun heq => hk' heq.symm)]
    · next hk =>
      obtain ⟨j, hj, rfl⟩ := Option.map_eq_some_iff.mp hi
      obtain ⟨hdistinct, hlookup⟩ := ih hl hj
      rw [set_cons_succ]
      refine ⟨?_, ?_⟩
      · have hkeys : ∀ c ∈ l.set j a, key c ≠ key b := by
          intro c hc heq
          rcases mem_or_eq_of_mem_set hc with hc | rfl
          · exact hb c hc heq
          · exact hk (heq.symm.trans ha)
        unfold Distinct at *
        rw [map_cons, nodup_cons]
        refine ⟨?_, hdistinct⟩
        intro hmem
        obtain ⟨c, hc, heq⟩ := mem_map.mp hmem
        exact hkeys c hc heq
      · intro k'
        rw [lookup_cons, lookup_cons, hlookup]
        by_cases hk' : key b = k'
        · have hne : k' ≠ k := fun heq => hk (hk'.trans heq)
          rw [if_pos hk', if_neg hne, if_pos hk']
        · rw [if_neg hk', if_neg hk']

theorem lookup_concat (h : Distinct key l) (ha : lookup key l (key a) = none) :
    Distinct key (l ++ [a]) ∧
      ∀ k', lookup key (l ++ [a]) k' = if k' = key a then some a else lookup key l k' := by
  have hnew := (lookup_eq_none_iff key l (key a)).mp ha
  refine ⟨?_, ?_⟩
  · unfold Distinct at *
    rw [map_append, map_singleton, nodup_append]
    refine ⟨h, nodup_singleton _, ?_⟩
    intro k hk k' hk' heq
    obtain ⟨b, hb, rfl⟩ := mem_map.mp hk
    rw [mem_singleton.mp hk'] at heq
    exact hnew b hb heq
  · intro k'
    unfold lookup at *
    rw [find?_append]
    by_cases hk' : k' = key a
    · subst hk'
      rw [ha, if_pos rfl]
      simp
    · have hne : ¬ key a = k' := fun heq => hk' heq.symm
      simp [hk', hne]

theorem lookup_eraseIdx (h : Distinct key l) (hi : position key l k = some i) :
    Distinct key (l.eraseIdx i) ∧
      ∀ k', lookup key (l.eraseIdx i) k' = if k' = k then none else lookup key l k' := by
  induction l generalizing i with
  | nil => cases hi
  | cons b l ih =>
    obtain ⟨hb, hl⟩ := h.cons
    rw [position_cons] at hi
    split at hi
    · next hk =>
      rw [← Option.some.inj hi, eraseIdx_cons_zero]
      refine ⟨hl, ?_⟩
      intro k'
      rw [lookup_cons, hk]
      by_cases hk' : k' = k
      · rw [if_pos hk', lookup_eq_none_iff, hk', ← hk]
        exact hb
      · rw [if_neg hk', if_neg (fun heq => hk' heq.symm)]
    · next hk =>
      obtain ⟨j, hj, rfl⟩ := Option.map_eq_some_iff.mp hi
      obtain ⟨hdistinct, hlookup⟩ := ih hl hj
      rw [eraseIdx_cons_succ]
      refine ⟨?_, ?_⟩
      · unfold Distinct at *
        rw [map_cons, nodup_cons]
        refine ⟨?_, hdistinct⟩
        intro hmem
        obtain ⟨c, hc, heq⟩ := mem_map.mp hmem
        exact hb c (mem_of_mem_eraseIdx hc) heq
      · intro k'
        rw [lookup_cons, lookup_cons, hlookup]
        by_cases hk' : key b = k'
        · have hne : k' ≠ k := fun heq => hk (hk'.trans heq)
          rw [if_pos hk', if_neg hne, if_pos hk']
        · rw [if_neg hk', if_neg hk']

/-! ## Sorting -/

theorem insertionSort_eq_of_lookup {r : α → α → Prop} [DecidableRel r] [Std.Total r] [IsTrans α r]
    {l' : List α} (hl : Distinct key l) (hl' : Distinct key l') (hsorted : l'.Pairwise r)
    (hkey : ∀ a ∈ l', ∀ b ∈ l', r a b → r b a → key a = key b)
    (h : ∀ k, lookup key l k = lookup key l' k) : l.insertionSort r = l' := by
  have hmem : ∀ a, a ∈ l ↔ a ∈ l' := by
    intro a
    have hiff : a ∈ l ∧ key a = key a ↔ a ∈ l' ∧ key a = key a := by
      rw [← lookup_eq_some_iff key hl, ← lookup_eq_some_iff key hl', h]
    simpa using hiff
  have hperm : l.Perm l' := by
    rw [perm_ext_iff_of_nodup (List.Nodup.of_map _ hl) (List.Nodup.of_map _ hl')]
    exact hmem
  have hsame : (l.insertionSort r).Perm l' := (perm_insertionSort r l).trans hperm
  refine hsame.eq_of_pairwise ?_ (pairwise_insertionSort r l) hsorted
  intro a b ha hb hab hba
  have ha' : a ∈ l' := (hmem a).mp ((mem_insertionSort r).mp ha)
  have hk := hkey a ha' b hb hab hba
  have hlook := (lookup_eq_some_iff key hl' (key b) a).mpr ⟨ha', hk⟩
  rw [(lookup_eq_some_iff key hl' (key b) b).mpr ⟨hb, rfl⟩] at hlook
  exact (Option.some.inj hlook).symm

end KeyedList
