import Mathlib.Tactic.Common

/-! # Bisection

    The loop that halves a range of indices to find the last one at which a
    predicate holds that never starts to hold again once it fails. -/

namespace Bisect

/-- The last index of `low`, ..., `high` at which `p` holds. -/
def lastIndex (p : Nat → Bool) : Nat → Nat → Nat → Nat
  | 0, low, _ => low
  | fuel + 1, low, high =>
      if low < high then
        let mid := (low + high + 1) / 2
        if p mid then lastIndex p fuel mid high else lastIndex p fuel low (mid - 1)
      else low

variable {p : Nat → Bool}

theorem lastIndex_spec (hp : ∀ i j, i ≤ j → p j = true → p i = true) (fuel low high : Nat)
    (hle : low ≤ high) (hfuel : high - low ≤ fuel) (hlow : p low = true) :
    p (lastIndex p fuel low high) = true ∧ lastIndex p fuel low high ≤ high ∧
      ∀ j, lastIndex p fuel low high < j → j ≤ high → p j = false := by
  induction fuel generalizing low high with
  | zero =>
    rw [lastIndex]
    exact ⟨hlow, hle, fun j _ _ => by omega⟩
  | succ fuel ih =>
    simp only [lastIndex]
    split
    · rename_i hlt
      cases hmid : p ((low + high + 1) / 2) with
      | true =>
        simp only [if_true]
        exact ih _ _ (by omega) (by omega) hmid
      | false =>
        simp only [Bool.false_eq_true, if_false]
        obtain ⟨hr, hrle, hlast⟩ := ih low ((low + high + 1) / 2 - 1) (by omega) (by omega) hlow
        refine ⟨hr, by omega, fun j hj hjhigh => ?_⟩
        -- from the middle on, the predicate has failed
        by_cases hjmid : j ≤ (low + high + 1) / 2 - 1
        · exact hlast j hj hjmid
        · cases hpj : p j with
          | false => rfl
          | true =>
            have := hp _ j (by omega : (low + high + 1) / 2 ≤ j) hpj
            simp_all
    · exact ⟨hlow, hle, fun j _ _ => by omega⟩

end Bisect
