import Mathlib.Data.List.DropRight
import Mathlib.Data.List.TakeWhile

/-! # Slices of texts

    Operations of a scripting language on texts, here lists of code units:
    slices with an end that may count from the back, the last index of a
    pattern, and trimming.  What is cut in two is the two parts, and what is
    trimmed is its middle. -/

namespace Slice

open List

variable {α : Type}

/-! ## Slices -/

/-- An index of a text: a negative one counts from its end. -/
def position (l : List α) (index : Int) : Nat :=
  if 0 ≤ index then index.toNat else (l.length + index).toNat

/-- `slice(0, index)`. -/
def sliceTo (l : List α) (index : Int) : List α := l.take (position l index)

/-- `slice(index)`. -/
def sliceFrom (l : List α) (index : Int) : List α := l.drop (position l index)

variable (l : List α)

theorem sliceTo_append_sliceFrom (index : Int) : sliceTo l index ++ sliceFrom l index = l :=
  take_append_drop _ l

variable {index : Int}

theorem position_of_nonneg (h : 0 ≤ index) : position l index = index.toNat :=
  if_pos h

theorem length_sliceTo_le (h : 0 ≤ index) : ((sliceTo l index).length : Int) ≤ index := by
  rw [sliceTo, length_take, position_of_nonneg l h]
  omega

/-! ## The last index of a pattern -/

section LastIndex

variable [DecidableEq α]

/-- `lastIndexOf`: −1 where the pattern is not found. -/
def lastIndexOf (l pattern : List α) : Int :=
  match (List.range (l.length + 1)).reverse.find? fun i => pattern.isPrefixOf (l.drop i) with
  | some i => i
  | none => -1

theorem lastIndexOf_add_length_le (l : List α) {pattern : List α} (h : 0 ≤ lastIndexOf l pattern) :
    lastIndexOf l pattern + pattern.length ≤ l.length := by
  unfold lastIndexOf at h ⊢
  split at h
  · next i hfound =>
    have hmem := mem_of_find?_eq_some hfound
    rw [mem_reverse, mem_range] at hmem
    have hprefix : pattern.isPrefixOf (l.drop i) = true := by simpa using find?_some hfound
    have hpattern : pattern <+: l.drop i := List.isPrefixOf_iff_prefix.mp hprefix
    have hlength := hpattern.length_le
    rw [length_drop] at hlength
    omega
  · omega

end LastIndex

/-! ## Trimming -/

section Trim

variable {p : α → Bool}

/-- The text without what satisfies `p` at its two ends. -/
def trim (p : α → Bool) (l : List α) : List α := (l.dropWhile p).rdropWhile p

/-- Neither end satisfies `p`. -/
structure Trimmed (p : α → Bool) (l : List α) : Prop where
  head : ∀ a ∈ l.head?, p a = false
  last : ∀ a ∈ l.getLast?, p a = false

theorem exists_trim (p : α → Bool) (l : List α) :
    ∃ front back, l = front ++ trim p l ++ back ∧ (∀ a ∈ front, p a = true) ∧
      ∀ a ∈ back, p a = true := by
  refine ⟨l.takeWhile p, (l.dropWhile p).rtakeWhile p, ?_, ?_, ?_⟩
  · rw [trim, append_assoc, rdropWhile_append_rtakeWhile, takeWhile_append_dropWhile]
  · exact fun a ha => mem_takeWhile_imp ha
  · exact fun a ha => mem_rtakeWhile_imp ha

theorem trimmed_trim (p : α → Bool) (l : List α) : Trimmed p (trim p l) := by
  have hlast : ∀ a ∈ (trim p l).getLast?, p a = false := by
    intro a ha
    have hne : trim p l ≠ [] := by
      intro hnil
      rw [hnil] at ha
      cases ha
    rw [getLast?_eq_some_getLast hne] at ha
    obtain rfl := Option.some.inj ha
    exact Bool.eq_false_iff.mpr (rdropWhile_last_not p _ hne)
  refine ⟨fun a ha => ?_, hlast⟩
  -- the head is that of what is left after the front is cut
  have hsame : (l.dropWhile p).head? = some a := by
    obtain ⟨rest, hrest⟩ := head?_eq_some_iff.mp ha
    obtain ⟨back, hback⟩ := List.rdropWhile_prefix p (l := l.dropWhile p)
    rw [← hback]
    show (trim p l ++ back).head? = some a
    rw [hrest]
    rfl
  have hhead := head?_dropWhile_not p l
  rw [hsame] at hhead
  exact hhead

variable {l : List α}

theorem Trimmed.trim_eq (h : Trimmed p l) : trim p l = l := by
  have hfront : l.dropWhile p = l := by
    cases l with
    | nil => rfl
    | cons a rest => exact dropWhile_cons_of_neg (by simpa using h.head a rfl)
  rw [trim, hfront, rdropWhile_eq_self_iff]
  intro hne
  have hlast := h.last (l.getLast hne) (getLast?_eq_getLast_of_ne_nil hne)
  simpa using hlast

theorem length_trim_le (p : α → Bool) (l : List α) : (trim p l).length ≤ l.length := by
  obtain ⟨front, back, hl, -, -⟩ := exists_trim p l
  have hlength := congrArg List.length hl
  rw [length_append, length_append] at hlength
  omega

theorem trim_ne_nil {a : α} (hmem : a ∈ l) (ha : p a = false) : trim p l ≠ [] := by
  intro hnil
  obtain ⟨front, back, hl, hfront, hback⟩ := exists_trim p l
  rw [hnil, append_nil] at hl
  rw [hl] at hmem
  rcases mem_append.mp hmem with hmem | hmem
  · exact absurd (hfront a hmem) (by simp [ha])
  · exact absurd (hback a hmem) (by simp [ha])

theorem Trimmed.append {m : List α} (hl : Trimmed p l) (hm : Trimmed p m) (hne : l ≠ [])
    (hne' : m ≠ []) (middle : List α) : Trimmed p (l ++ middle ++ m) := by
  constructor
  · intro a ha
    obtain ⟨b, rest, rfl⟩ := exists_cons_of_ne_nil hne
    exact hl.head a ha
  · intro a ha
    rw [getLast?_append_of_ne_nil _ hne'] at ha
    exact hm.last a ha

end Trim

end Slice
