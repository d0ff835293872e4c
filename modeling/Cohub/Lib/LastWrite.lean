import Mathlib.Data.List.Basic
import Mathlib.Logic.Basic

/-! # The last write wins

    A sequence of updates to one place: `writes u` is what update `u` writes, if
    it writes at all.  The place then has what the last update that writes has
    written, or what it had.  So a sequence may be cut, merged or applied twice
    as long as the last write stays. -/

namespace LastWrite

open List

variable {ι α σ : Type}

/-- What the last update that writes has written. -/
def last (writes : ι → Option α) (updates : List ι) : Option α :=
  updates.reverse.findSome? writes

variable (writes : ι → Option α)

@[simp] theorem last_nil : last writes [] = none := rfl

@[simp] theorem last_append (xs ys : List ι) :
    last writes (xs ++ ys) = (last writes ys).or (last writes xs) := by
  unfold last
  rw [reverse_append, findSome?_append]

@[simp] theorem last_singleton (u : ι) : last writes [u] = writes u := by
  unfold last
  rw [reverse_singleton, findSome?_singleton]

theorem last_cons (u : ι) (us : List ι) : last writes (u :: us) = (last writes us).or (writes u) := by
  rw [← singleton_append, last_append, last_singleton]

theorem read_foldl {apply : σ → ι → σ} {read : σ → α}
    (h : ∀ s u, read (apply s u) = (writes u).getD (read s)) (updates : List ι) (s : σ) :
    read (updates.foldl apply s) = (last writes updates).getD (read s) := by
  induction updates generalizing s with
  | nil => rfl
  | cons u us ih =>
    rw [foldl_cons, ih, h, last_cons]
    cases last writes us <;> rfl

variable {updates : List ι}

theorem last_unique {x : ι} (hmem : x ∈ updates)
    (honly : ∀ y ∈ updates, y ≠ x → writes y = none) : last writes updates = writes x := by
  classical
  induction updates with
  | nil => cases hmem
  | cons u us ih =>
    rw [last_cons]
    by_cases hin : x ∈ us
    · rw [ih hin fun y hy => honly y (mem_cons_of_mem _ hy)]
      by_cases hux : u = x
      · rw [hux]
        cases writes x <;> rfl
      · rw [honly u mem_cons_self hux]
        exact Option.or_none
    · have hux : x = u := (mem_cons.mp hmem).resolve_right hin
      have hnone : last writes us = none := by
        refine findSome?_eq_none_iff.mpr fun y hy => ?_
        have hy' : y ∈ us := mem_reverse.mp hy
        exact honly y (mem_cons_of_mem _ hy') fun heq => hin (heq ▸ hy')
      rw [hnone, hux, Option.none_or]

theorem last_eq_none (h : ∀ y ∈ updates, writes y = none) : last writes updates = none :=
  findSome?_eq_none_iff.mpr fun y hy => h y (mem_reverse.mp hy)

theorem last_suffix {xs ys : List ι} {a b : α} (h : (last writes (xs ++ ys)).getD a = b) :
    (last writes ys).getD b = b := by
  rw [last_append] at h
  cases hys : last writes ys with
  | none => rfl
  | some v =>
    rw [hys] at h
    exact h

end LastWrite
