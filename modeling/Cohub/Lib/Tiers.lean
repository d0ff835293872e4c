import Mathlib.Data.List.Count
import Mathlib.Tactic.Ring

/-! # Tiers of merged items

    Items of level 0 are appended to a list, and `fanout` items of one level at
    its end are merged into one of the next, up to the level `top`.  This file
    is about the list of the levels: it does not increase, it has less than
    `fanout` items of each level below the top, and its weight, where an item of
    level `l` stands for `fanout ^ l` of level 0, is kept by a merge. -/

namespace Tiers

open List

variable {fanout top low : Nat} {levels : List Nat}

/-! ## Weights -/

def weight (fanout : Nat) : List Nat → Nat
  | [] => 0
  | level :: rest => Nat.pow fanout level + weight fanout rest

theorem weight_append (xs ys : List Nat) : weight fanout (xs ++ ys) = weight fanout xs + weight fanout ys := by
  induction xs with
  | nil => simp [weight]
  | cons level rest ih =>
    rw [cons_append, weight, weight, ih]
    omega

theorem weight_replicate (n level : Nat) : weight fanout (List.replicate n level) = n * fanout ^ level := by
  induction n with
  | zero => simp [weight]
  | succ n ih =>
    rw [replicate_succ, weight, ih, Nat.pow_eq]
    ring

theorem weight_merge (kept : List Nat) (level : Nat) :
    weight fanout (kept ++ [level + 1]) = weight fanout (kept ++ List.replicate fanout level) := by
  rw [weight_append, weight_append, weight_replicate, weight, weight, Nat.pow_eq]
  ring

variable (level : Nat)

theorem count_mul_le_weight : levels.count level * fanout ^ level ≤ weight fanout levels := by
  induction levels with
  | nil => simp
  | cons l rest ih =>
    rw [weight, Nat.pow_eq, count_cons]
    by_cases h : l = level
    · subst h
      simp only [BEq.rfl, if_true, Nat.add_mul, Nat.one_mul]
      omega
    · have hne : (l == level) = false := by simpa using h
      rw [hne]
      simp only [Bool.false_eq_true, if_false, add_zero]
      omega

/-! ## Shapes -/

/-- Levels do not increase, and there are less than `fanout` items of each level
    below the top. -/
structure Shape (fanout top : Nat) (levels : List Nat) : Prop where
  sorted : levels.Pairwise (· ≥ ·)
  le_top : ∀ l ∈ levels, l ≤ top
  few    : ∀ l, l < top → levels.count l < fanout

/-- The same after an item of the level `low` was added. -/
structure Carrying (fanout top low : Nat) (levels : List Nat) : Prop where
  sorted : levels.Pairwise (· ≥ ·)
  le_top : ∀ l ∈ levels, l ≤ top
  low_le : ∀ l ∈ levels, low ≤ l
  last   : levels.getLast? = some low
  few    : ∀ l, l < top → l ≠ low → levels.count l < fanout
  carry  : low < top → levels.count low ≤ fanout

theorem Shape.concat (h : Shape fanout top levels) (hlow : ∀ l ∈ levels, low ≤ l) (hle : low ≤ top)
    (hfew : low < top → levels.count low < fanout) : Carrying fanout top low (levels ++ [low]) := by
  refine ⟨?_, ?_, ?_, by simp, fun l hl hne => ?_, fun hl => ?_⟩
  · rw [pairwise_append]
    refine ⟨h.sorted, pairwise_singleton _ _, fun a ha b hb => ?_⟩
    rw [mem_singleton] at hb
    subst hb
    exact hlow a ha
  · intro l hl
    rcases mem_append.mp hl with hl | hl
    · exact h.le_top l hl
    · rw [mem_singleton] at hl
      omega
  · intro l hl
    rcases mem_append.mp hl with hl | hl
    · exact hlow l hl
    · rw [mem_singleton] at hl
      omega
  · have hcount : [low].count l = 0 := by
      simp [Ne.symm hne]
    have hold := h.few l hl
    rw [count_append]
    omega
  · have hold := hfew hl
    rw [count_append, count_singleton_self]
    omega

theorem Carrying.level_eq (h : Carrying fanout top low levels) {n level : Nat}
    (htail : levels.drop n = List.replicate fanout level) (hfan : 0 < fanout) : level = low := by
  have hlast : (levels.drop n).getLast? = some low := by
    rw [getLast?_drop, if_neg ?_, h.last]
    intro hle
    rw [drop_eq_nil_of_le hle] at htail
    have hlen := congrArg List.length htail
    rw [length_nil, length_replicate] at hlen
    omega
  rw [htail, getLast?_replicate, if_neg (Nat.pos_iff_ne_zero.mp hfan)] at hlast
  exact Option.some.inj hlast

theorem Carrying.merge (h : Carrying fanout top low levels) {kept : List Nat}
    (heq : levels = kept ++ List.replicate fanout low) (hlow : low < top) :
    Carrying fanout top (low + 1) (kept ++ [low + 1]) := by
  subst heq
  have hsorted := (pairwise_append.mp h.sorted).1
  have hcarry := h.carry hlow
  rw [count_append, count_replicate_self] at hcarry
  have hnone : kept.count low = 0 := by omega
  have hkept : ∀ l ∈ kept, low + 1 ≤ l := by
    intro l hl
    have hle := h.low_le l (mem_append_left _ hl)
    have hne : l ≠ low := by
      rintro rfl
      exact count_eq_zero.mp hnone hl
    omega
  have hfew : ∀ l, l < top → l ≠ low → kept.count l < fanout := by
    intro l hl hne
    have hold := h.few l hl hne
    rw [count_append] at hold
    omega
  have hfan : 0 < fanout := by
    have hold := h.few
    by_contra hzero
    have hlast := h.last
    rw [Nat.eq_zero_of_not_pos hzero, replicate_zero, append_nil] at hlast
    have hmem := mem_of_getLast? hlast
    exact absurd (hkept low hmem) (by omega)
  have hshape : Shape fanout top kept := by
    refine ⟨hsorted, fun l hl => h.le_top l (mem_append_left _ hl), fun l hl => ?_⟩
    by_cases hne : l = low
    · subst hne
      omega
    · exact hfew l hl hne
  exact hshape.concat hkept hlow fun hnext => hfew (low + 1) hnext (by omega)

theorem exists_eq_append_replicate (hsorted : levels.Pairwise (· ≥ ·)) (hlow : ∀ l ∈ levels, low ≤ l) :
    ∃ kept, levels = kept ++ List.replicate (levels.count low) low := by
  induction levels with
  | nil => exact ⟨[], by simp⟩
  | cons l rest ih =>
    obtain ⟨hhead, hrest⟩ := pairwise_cons.mp hsorted
    obtain ⟨kept, hkept⟩ := ih hrest fun l hl => hlow l (mem_cons_of_mem _ hl)
    by_cases h : l = low
    · -- all that follows is of the lowest level too
      subst h
      have hall : ∀ b ∈ rest, b = l := by
        intro b hb
        have h1 := hhead b hb
        have h2 := hlow b (mem_cons_of_mem _ hb)
        omega
      refine ⟨[], ?_⟩
      have hcount : rest.count l = rest.length := count_eq_length.mpr fun b hb => (hall b hb).symm
      rw [count_cons_self, nil_append, replicate_succ, hcount, ← eq_replicate_of_mem hall]
    · refine ⟨l :: kept, ?_⟩
      rw [count_cons_of_ne h, cons_append, ← hkept]

theorem Carrying.shape (h : Carrying fanout top low levels)
    (hnot : ∀ kept level, levels = kept ++ List.replicate fanout level → top ≤ level) :
    Shape fanout top levels := by
  refine ⟨h.sorted, h.le_top, fun l hl => ?_⟩
  by_cases hne : l = low
  · subst hne
    obtain ⟨kept, hkept⟩ := exists_eq_append_replicate h.sorted h.low_le
    have hcarry := h.carry hl
    rcases Nat.lt_or_eq_of_le hcarry with hlt | heq
    · exact hlt
    · rw [heq] at hkept
      exact absurd (hnot kept l hkept) (by omega)
  · exact h.few l hl hne

/-! ## Lengths -/

theorem length_le_of_count_le {k : Nat} (hle : ∀ l ∈ levels, l ≤ top) (hfew : ∀ l, l < top → levels.count l ≤ k) :
    levels.length ≤ levels.count top + k * top := by
  induction top generalizing levels with
  | zero =>
    have hall : ∀ l ∈ levels, l = 0 := fun l hl => Nat.le_zero.mp (hle l hl)
    rw [count_eq_length.mpr fun l hl => (hall l hl).symm]
    omega
  | succ top ih =>
    have hsplit : levels.length = levels.count (top + 1) + (levels.filter fun l => decide (l ≠ top + 1)).length := by
      rw [count_eq_countP, ← countP_eq_length_filter]
      simpa using length_eq_countP_add_countP (fun l => l == top + 1) (l := levels)
    have hbelow : ∀ l ∈ levels.filter fun l => decide (l ≠ top + 1), l ≤ top := by
      intro l hl
      obtain ⟨hmem, hne⟩ := mem_filter.mp hl
      have htop := hle l hmem
      simp only [decide_eq_true_eq] at hne
      omega
    have hrest := ih hbelow fun l hl => le_trans (filter_sublist.count_le _) (hfew l (Nat.lt_succ_of_lt hl))
    have hcount : (levels.filter fun l => decide (l ≠ top + 1)).count top ≤ k :=
      le_trans (filter_sublist.count_le _) (hfew top (Nat.lt_succ_self top))
    rw [hsplit, Nat.mul_add, Nat.mul_one]
    omega

theorem Shape.length_le (h : Shape fanout top levels) (hfan : 0 < fanout) :
    levels.length ≤ weight fanout levels / fanout ^ top + (fanout - 1) * top := by
  have hlen := length_le_of_count_le (k := fanout - 1) h.le_top fun l hl => by
    have hfew := h.few l hl
    omega
  have hcount : levels.count top ≤ weight fanout levels / fanout ^ top :=
    (Nat.le_div_iff_mul_le (Nat.pow_pos hfan)).mpr (count_mul_le_weight top)
  omega

end Tiers
