import Mathlib.Data.List.Basic
import Mathlib.Data.List.Nodup
import Mathlib.Data.List.Perm.Basic

/-! # Numbered items without a gap

    A list of items that carry numbers is a span if the numbers count up by one.
    A sorted list without repetitions is the span of the numbers it has, and the
    parts of a span are spans. -/

namespace Span

open List

variable {α : Type} (number : α → Nat)

/-- The numbers are `lo`, `lo + 1` and so on. -/
def From (lo : Nat) (items : List α) : Prop := items.map number = List.range' lo items.length

variable {number} {lo : Nat} {items : List α}

theorem from_nil (lo : Nat) : From number lo [] := rfl

section

variable (h : From number lo items)
include h

theorem mem_map_iff (n : Nat) : n ∈ items.map number ↔ lo ≤ n ∧ n < lo + items.length := by
  unfold From at h
  rw [h, mem_range'_1]

theorem From.number_lo {first : α} (hfirst : items[0]? = some first) : number first = lo := by
  have hat : (items.map number)[0]? = some (number first) := by simp [hfirst]
  have hlt : 0 < items.length := by
    obtain ⟨hlt, -⟩ := List.getElem?_eq_some_iff.mp hfirst
    exact hlt
  unfold From at h
  rw [h, getElem?_range' hlt] at hat
  simpa using hat.symm

theorem From.number_last {last : α} (hlast : items.getLast? = some last) :
    number last + 1 = lo + items.length := by
  have hpos : 0 < items.length := by
    cases items with
    | nil => simp at hlast
    | cons => simp
  rw [getLast?_eq_getElem?] at hlast
  have hat : (items.map number)[items.length - 1]? = some (number last) := by simp [hlast]
  unfold From at h
  rw [h, getElem?_range' (by omega)] at hat
  simp only [Option.some.injEq] at hat
  omega

theorem From.drop (n : Nat) : From number (lo + n) (items.drop n) := by
  unfold From at h ⊢
  rw [map_drop, h, drop_range', length_drop]
  simp

theorem From.take (n : Nat) : From number lo (items.take n) := by
  unfold From at h ⊢
  rw [map_take, h, length_take]
  rcases Nat.le_total n items.length with hle | hle
  · rw [take_range'_of_length_ge hle, Nat.min_eq_left hle]
  · rw [take_range'_of_length_le hle, Nat.min_eq_right hle]

theorem From.isChain :
    items.IsChain fun a b => number b = number a + 1 := by
  induction items generalizing lo with
  | nil => exact .nil
  | cons a rest ih =>
    have hrest : From number (lo + 1) rest := h.drop 1
    cases rest with
    | nil => exact .singleton a
    | cons b later =>
      refine .cons_cons ?_ (ih hrest)
      have hfirst : number a = lo := h.number_lo rfl
      have hsecond : number b = lo + 1 := hrest.number_lo rfl
      rw [hfirst, hsecond]

end

theorem from_of_sorted (number : α → Nat) {hi : Nat} (hsorted : items.Pairwise fun a b => number a ≤ number b)
    (hnodup : (items.map number).Nodup) (hmem : ∀ n, n ∈ items.map number ↔ lo ≤ n ∧ n < hi) :
    From number lo items ∧ items.length = hi - lo := by
  have hperm : (items.map number).Perm (range' lo (hi - lo)) := by
    refine (perm_ext_iff_of_nodup hnodup nodup_range').mpr fun n => ?_
    rw [hmem, mem_range'_1]
    omega
  have heq : items.map number = range' lo (hi - lo) := by
    have hantisymm : ∀ a b : Nat, a ∈ items.map number → b ∈ range' lo (hi - lo) → a ≤ b → b ≤ a → a = b :=
      fun a b _ _ => Nat.le_antisymm
    refine hperm.eq_of_pairwise hantisymm ?_ ?_
    · exact pairwise_map.mpr hsorted
    · exact (pairwise_lt_range' (s := lo) (n := hi - lo)).imp Nat.le_of_lt
  have hlength : items.length = hi - lo := by
    have := congrArg List.length heq
    simpa using this
  refine ⟨?_, hlength⟩
  unfold From
  rw [heq, hlength]

theorem From.sorted (h : From number lo items) : items.Pairwise fun a b => number a ≤ number b := by
  unfold From at h
  refine pairwise_map.mp ?_
  rw [h]
  exact (pairwise_lt_range' (s := lo)).imp Nat.le_of_lt

end Span
