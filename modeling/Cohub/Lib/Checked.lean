import Mathlib.Data.List.Basic

/-! # Checked accesses and loops

    A program over byte strings and slices stops with a fault where an index
    or the bounds of a slice are out of range.  This file has the accesses, a
    loop that runs a body until it gives a result, and the rule for it: what a
    body keeps of a specification, the loop has (`loop_eq`). -/

/-- Why a computation stopped without a result. -/
inductive Fault where
  /-- An index or a slice is out of range. -/
  | outOfRange
  /-- A loop ran longer than it was given. -/
  | outOfFuel
  deriving DecidableEq

/-- A computation that may stop with a fault. -/
abbrev Checked (α : Type) := Except Fault α

namespace Checked

open List

variable {α β σ : Type}

/-! ## Accesses -/

/-- `text[i]`. -/
def index (text : List α) (i : Nat) : Checked α :=
  match text[i]? with
  | some a => .ok a
  | none => .error .outOfRange

/-- `text[lo:hi]`. -/
def slice (text : List α) (lo hi : Nat) : Checked (List α) :=
  if lo ≤ hi ∧ hi ≤ text.length then .ok ((text.take hi).drop lo) else .error .outOfRange

@[simp] theorem bind_ok (a : α) (f : α → Checked β) : ((.ok a : Checked α) >>= f) = f a := rfl

@[simp] theorem bind_error (fault : Fault) (f : α → Checked β) :
    ((.error fault : Checked α) >>= f) = .error fault := rfl

@[simp] theorem pure_eq (a : α) : (pure a : Checked α) = .ok a := rfl

variable {text : List α} {i : Nat} {a : α} {rest : List α} {lo : Nat} {body : σ → Checked (σ ⊕ β)}

theorem index_of_getElem? (h : text[i]? = some a) : index text i = .ok a := by
  unfold index
  rw [h]

theorem index_of_le (h : text.length ≤ i) : index text i = .error .outOfRange := by
  unfold index
  rw [getElem?_eq_none h]

theorem index_of_drop (h : text.drop i = a :: rest) : index text i = .ok a := by
  apply index_of_getElem?
  have hhead := congrArg head? h
  rwa [head?_drop] at hhead

theorem slice_of_le {hi : Nat} (hlo : lo ≤ hi) (hhi : hi ≤ text.length) :
    slice text lo hi = .ok ((text.take hi).drop lo) := by
  unfold slice
  rw [if_pos ⟨hlo, hhi⟩]

theorem slice_of_drop {front : List α} (hlo : lo ≤ text.length)
    (h : text.drop lo = front ++ rest) : slice text lo (lo + front.length) = .ok front := by
  have hlength := congrArg List.length h
  rw [length_drop, length_append] at hlength
  rw [slice_of_le (Nat.le_add_right _ _) (by omega), drop_take, h]
  have hsub : lo + front.length - lo = front.length := by omega
  rw [hsub, take_left]

/-! ## Loops -/

/-- Run the body until it gives a result, `fuel` times at most. -/
def loop (body : σ → Checked (σ ⊕ β)) : Nat → σ → Checked β
  | 0, _ => .error .outOfFuel
  | fuel + 1, s =>
      match body s with
      | .ok (.inl s') => loop body fuel s'
      | .ok (.inr b) => .ok b
      | .error fault => .error fault

/-- What one round of a loop does with respect to a specification: it gives the
    specified result, or goes on to a smaller state with the same result. -/
inductive Round (I : σ → Prop) (measure : σ → Nat) (spec : σ → Checked β) (s : σ) :
    Checked (σ ⊕ β) → Prop where
  | next (s' : σ) (hinv : I s') (hless : measure s' < measure s) (hspec : spec s' = spec s) :
      Round I measure spec s (.ok (.inl s'))
  | result (b : β) (hspec : spec s = .ok b) : Round I measure spec s (.ok (.inr b))
  | fault (fault : Fault) (hspec : spec s = .error fault) : Round I measure spec s (.error fault)

theorem loop_eq (I : σ → Prop) (measure : σ → Nat)
    (spec : σ → Checked β) (hround : ∀ s, I s → Round I measure spec s (body s)) :
    ∀ {fuel : Nat} {s : σ}, I s → measure s < fuel → loop body fuel s = spec s := by
  intro fuel
  induction fuel with
  | zero =>
    intro s _ hfuel
    omega
  | succ fuel ih =>
    intro s hinv hfuel
    have hthis := hround s hinv
    unfold loop
    generalize body s = outcome at hthis
    cases hthis with
    | next s' hinv' hless hspec =>
      simp only
      rw [ih hinv' (by omega), hspec]
    | result b hspec => rw [hspec]
    | fault fault hspec => rw [hspec]

/-- One round of a loop that does not fault. -/
inductive Progress (I : σ → Prop) (measure : σ → Nat) (s : σ) : Checked (σ ⊕ β) → Prop where
  | next (s' : σ) (hinv : I s') (hless : measure s' < measure s) :
      Progress I measure s (.ok (.inl s'))
  | result (b : β) : Progress I measure s (.ok (.inr b))

theorem loop_ok (I : σ → Prop) (measure : σ → Nat)
    (hround : ∀ s, I s → Progress I measure s (body s)) :
    ∀ {fuel : Nat} {s : σ}, I s → measure s < fuel → ∃ b, loop body fuel s = .ok b := by
  intro fuel
  induction fuel with
  | zero =>
    intro s _ hfuel
    omega
  | succ fuel ih =>
    intro s hinv hfuel
    have hthis := hround s hinv
    unfold loop
    generalize body s = outcome at hthis
    cases hthis with
    | next s' hinv' hless => exact ih hinv' (by omega)
    | result b => exact ⟨b, rfl⟩

end Checked
