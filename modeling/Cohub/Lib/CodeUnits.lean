import Mathlib.Data.List.Basic
import Cohub.Lib.Text

/-! # Texts in the order of their code units

    A scripting language compares texts by their UTF-16 code units.  Different
    texts have different code units, so this is a linear order. -/

namespace Text

/-! ## Code units -/

/-- The code units of a character: one, or a surrogate pair. -/
def charUnits (c : Char) : List Nat :=
  if c.toNat < 0x10000 then [c.toNat]
  else [0xD800 + (c.toNat - 0x10000) / 0x400, 0xDC00 + (c.toNat - 0x10000) % 0x400]

def codeUnits (s : String) : List Nat := s.toList.flatMap charUnits

/-! ## The order -/

/-- Dictionary order. -/
def notAfter : List Nat → List Nat → Bool
  | [], _ => true
  | _ :: _, [] => false
  | u :: us, v :: vs => decide (u < v) || (decide (u = v) && notAfter us vs)

theorem notAfter_cons {u v : Nat} {us vs : List Nat} :
    notAfter (u :: us) (v :: vs) = true ↔ u < v ∨ u = v ∧ notAfter us vs = true := by
  simp [notAfter]

theorem notAfter_total : ∀ us vs : List Nat, notAfter us vs = true ∨ notAfter vs us = true
  | [], _ => .inl rfl
  | _ :: _, [] => .inr rfl
  | u :: us, v :: vs => by
    rw [notAfter_cons, notAfter_cons]
    rcases Nat.lt_trichotomy u v with h | h | h
    · exact .inl (.inl h)
    · rcases notAfter_total us vs with hle | hle
      · exact .inl (.inr ⟨h, hle⟩)
      · exact .inr (.inr ⟨h.symm, hle⟩)
    · exact .inr (.inl h)

theorem notAfter_trans : ∀ {us vs ws : List Nat}, notAfter us vs = true → notAfter vs ws = true →
    notAfter us ws = true
  | [], _, _, _, _ => rfl
  | _ :: _, [], _, h, _ => by cases h
  | _ :: _, _ :: _, [], _, h => by cases h
  | u :: us, v :: vs, w :: ws, huv, hvw => by
    rw [notAfter_cons] at huv hvw ⊢
    rcases huv with huv | ⟨rfl, huv⟩
    · left
      omega
    · rcases hvw with hvw | ⟨rfl, hvw⟩
      · exact .inl hvw
      · exact .inr ⟨rfl, notAfter_trans huv hvw⟩

/-- `!(b < a)`. -/
def Le (a b : String) : Prop := notAfter (codeUnits a) (codeUnits b) = true

instance (a b : String) : Decidable (Le a b) := inferInstanceAs (Decidable (_ = true))

theorem Le.total (a b : String) : Le a b ∨ Le b a := notAfter_total _ _

theorem Le.trans {a b c : String} (hab : Le a b) (hbc : Le b c) : Le a c :=
  notAfter_trans hab hbc

end Text
