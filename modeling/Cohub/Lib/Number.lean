import Mathlib.Algebra.Order.Ring.Rat
import Mathlib.Tactic.Linarith

/-! # Numbers of scripting languages

    The numeric functions of a scripting language's standard library, over
    the rational numbers: `Math.min`, `Math.max`, `Math.floor`, `Math.ceil`,
    `Math.round` (halves go up) and the remainder `%`. -/

namespace Number

/-- `Math.min`. -/
def minimum (a b : Rat) : Rat := if b < a then b else a

/-- `Math.max`. -/
def maximum (a b : Rat) : Rat := if a < b then b else a

def floor (a : Rat) : Rat := a.floor

def ceil (a : Rat) : Rat := -((-a).floor)

def round (a : Rat) : Rat := (a + 1 / 2).floor

/-- The remainder `a % b`, for numbers that are not negative. -/
def remainder (a b : Rat) : Rat := a - b * (a / b).floor

/-! ## Minimum and maximum -/

theorem minimum_le_left (a b : Rat) : minimum a b ≤ a := by
  unfold minimum
  split <;> linarith

theorem minimum_le_right (a b : Rat) : minimum a b ≤ b := by
  unfold minimum
  split <;> linarith

variable {a b : Rat} {c : Rat}

theorem le_minimum (ha : c ≤ a) (hb : c ≤ b) : c ≤ minimum a b := by
  unfold minimum
  split <;> assumption

theorem minimum_eq_left (h : a ≤ b) : minimum a b = a := by
  unfold minimum
  rw [if_neg (by linarith)]

theorem le_maximum_left (a b : Rat) : a ≤ maximum a b := by
  unfold maximum
  split <;> linarith

theorem le_maximum_right (a b : Rat) : b ≤ maximum a b := by
  unfold maximum
  split <;> linarith

theorem maximum_le (ha : a ≤ c) (hb : b ≤ c) : maximum a b ≤ c := by
  unfold maximum
  split <;> assumption

/-! ## Rounding -/

theorem floor_le (a : Rat) : floor a ≤ a := Rat.floor_le a

theorem le_ceil (a : Rat) : a ≤ ceil a := by
  have h := Rat.floor_le (-a)
  unfold ceil
  linarith

theorem round_mono (h : a ≤ b) : round a ≤ round b := by
  unfold round
  exact_mod_cast Rat.floor_monotone (by linarith)

theorem round_intCast (n : Int) : round n = n := by
  unfold round
  rw [add_comm, Rat.floor_add_intCast]
  have hhalf : (1 / 2 : Rat).floor = 0 := by decide +kernel
  rw [hhalf]
  simp

theorem intCast_le_round {n : Int} (h : (n : Rat) ≤ a) : (n : Rat) ≤ round a := by
  rw [← round_intCast n]
  exact round_mono h

theorem round_nonneg (h : 0 ≤ a) : 0 ≤ round a := by
  have := intCast_le_round (n := 0) (a := a) (by simpa using h)
  simpa using this

theorem round_neg_iff (a : Rat) : round a < 0 ↔ a < -(1 / 2) := by
  unfold round
  constructor
  · intro h
    have hfloor : (a + 1 / 2).floor < 0 := by exact_mod_cast h
    have := Rat.floor_lt_iff.mp hfloor
    push_cast at this
    linarith
  · intro h
    have : (a + 1 / 2).floor < 0 := by
      rw [Rat.floor_lt_iff]
      push_cast
      linarith
    exact_mod_cast this

/-! ## Remainders -/

theorem remainder_nonneg (a : Rat) (hb : 0 < b) : 0 ≤ remainder a b := by
  have h := Rat.floor_le (a / b)
  rw [le_div_iff₀ hb] at h
  unfold remainder
  linarith

theorem remainder_lt (a : Rat) (hb : 0 < b) : remainder a b < b := by
  have h := Rat.lt_floor_add_one (a / b)
  rw [div_lt_iff₀ hb] at h
  unfold remainder
  push_cast at h
  linarith

theorem remainder_eq_self_iff (ha : 0 ≤ a) (hb : 0 < b) : remainder a b = a ↔ a < b := by
  constructor
  · intro h
    rw [← h]
    exact remainder_lt a hb
  · intro h
    have hfloor : (a / b).floor = 0 := by
      apply le_antisymm
      · have : (a / b).floor < 1 := by
          rw [Rat.floor_lt_iff, div_lt_iff₀ hb]
          push_cast
          linarith
        omega
      · rw [Rat.le_floor_iff]
        push_cast
        exact div_nonneg ha hb.le
    unfold remainder
    rw [hfloor]
    simp

end Number
