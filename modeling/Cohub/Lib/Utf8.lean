import Mathlib.Data.Fin.Basic
import Mathlib.Tactic.Common

/-! # Byte strings and UTF-8

    A byte string need not be text.  `coerce` is what becomes of one that has
    to be: every byte that starts no character is replaced by U+FFFD.  It
    changes nothing exactly where the string is valid. -/

namespace Utf8

open List

abbrev Byte := Fin 256

instance instNeZeroByte : @NeZero Nat Zero.ofOfNat0 256 := ⟨Nat.succ_ne_zero 255⟩

/-- There is a byte, in a range. -/
def within (low high : Nat) (b : Option Byte) : Bool := b.any fun b => low ≤ b.val ∧ b.val ≤ high

/-- A continuation byte. -/
def tail (b : Option Byte) : Bool := within 0x80 0xBF b

/-- How many bytes of `rest` belong to the character that `b` starts, if it
    starts one. -/
def following (b : Byte) (rest : List Byte) : Option Nat :=
  let second := rest[0]?
  let third := rest[1]?
  let fourth := rest[2]?
  if b.val < 0x80 then some 0
  else if 0xC2 ≤ b.val ∧ b.val ≤ 0xDF then if tail second then some 1 else none
  else if b.val = 0xE0 then if within 0xA0 0xBF second ∧ tail third then some 2 else none
  else if b.val = 0xED then if within 0x80 0x9F second ∧ tail third then some 2 else none
  else if 0xE1 ≤ b.val ∧ b.val ≤ 0xEF then if tail second ∧ tail third then some 2 else none
  else if b.val = 0xF0 then
    if within 0x90 0xBF second ∧ tail third ∧ tail fourth then some 3 else none
  else if 0xF1 ≤ b.val ∧ b.val ≤ 0xF3 then
    if tail second ∧ tail third ∧ tail fourth then some 3 else none
  else if b.val = 0xF4 then
    if within 0x80 0x8F second ∧ tail third ∧ tail fourth then some 3 else none
  else none

/-- U+FFFD. -/
def replacement : List Byte := [0xEF, 0xBF, 0xBD]

/-- `owed` bytes of the current character are still to come. -/
def coerceFrom : Nat → List Byte → List Byte
  | _, [] => []
  | owed + 1, b :: rest => b :: coerceFrom owed rest
  | 0, b :: rest =>
      match following b rest with
      | some owed => b :: coerceFrom owed rest
      | none => replacement ++ coerceFrom 0 rest

def coerce (s : List Byte) : List Byte := coerceFrom 0 s

def validFrom : Nat → List Byte → Bool
  | _, [] => true
  | owed + 1, _ :: rest => validFrom owed rest
  | 0, b :: rest =>
      match following b rest with
      | some owed => validFrom owed rest
      | none => false

def Valid (s : List Byte) : Prop := validFrom 0 s = true

instance (s : List Byte) : Decidable (Valid s) := inferInstanceAs (Decidable (_ = _))

variable (s : List Byte)

theorem coerceFrom_of_valid :
    ∀ owed, validFrom owed s = true → coerceFrom owed s = s := by
  induction s with
  | nil => intro owed _; cases owed <;> rfl
  | cons b rest ih =>
    intro owed h
    cases owed with
    | succ owed => exact congrArg (b :: ·) (ih owed h)
    | zero =>
      unfold validFrom at h
      unfold coerceFrom
      cases hfollowing : following b rest with
      | some owed =>
        rw [hfollowing] at h
        exact congrArg (b :: ·) (ih owed h)
      | none =>
        rw [hfollowing] at h
        cases h

theorem length_le_coerceFrom :
    ∀ owed, s.length ≤ (coerceFrom owed s).length := by
  induction s with
  | nil => intro owed; exact Nat.zero_le _
  | cons b rest ih =>
    intro owed
    cases owed with
    | succ owed => exact Nat.succ_le_succ (ih owed)
    | zero =>
      unfold coerceFrom
      cases following b rest with
      | some owed => exact Nat.succ_le_succ (ih owed)
      | none =>
        have hrest := ih 0
        simp only [length_append, replacement, length_cons, length_nil]
        omega

theorem valid_of_coerceFrom :
    ∀ owed, coerceFrom owed s = s → validFrom owed s = true := by
  induction s with
  | nil => intro owed _; cases owed <;> rfl
  | cons b rest ih =>
    intro owed h
    cases owed with
    | succ owed => exact ih owed (tail_eq_of_cons_eq h)
    | zero =>
      unfold coerceFrom at h
      unfold validFrom
      cases hfollowing : following b rest with
      | some owed =>
        rw [hfollowing] at h
        exact ih owed (tail_eq_of_cons_eq h)
      | none =>
        rw [hfollowing] at h
        have hlength := congrArg List.length h
        have hrest := length_le_coerceFrom rest 0
        simp only [length_append, replacement, length_cons, length_nil] at hlength
        omega

theorem coerce_eq_self_iff : coerce s = s ↔ Valid s :=
  ⟨valid_of_coerceFrom s 0, coerceFrom_of_valid s 0⟩

theorem valid_of_ascii {s : List Byte} (h : ∀ b ∈ s, b.val < 0x80) : Valid s := by
  induction s with
  | nil => rfl
  | cons b rest ih =>
    have hfollowing : following b rest = some 0 := if_pos (h b mem_cons_self)
    show validFrom 0 (b :: rest) = true
    unfold validFrom
    rw [hfollowing]
    exact ih fun b hb => h b (mem_cons_of_mem _ hb)

/-- A name in ISO 8859-1. -/
example : coerce [0x63, 0x61, 0x66, 0xE9] = [0x63, 0x61, 0x66, 0xEF, 0xBF, 0xBD] := by decide

end Utf8
