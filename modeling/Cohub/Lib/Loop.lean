import Mathlib.Data.List.Basic

/-! # Loops over a list

    Rules for `List.foldl` read as a loop: `R` relates the state before a round
    to the state after it, and a fact about an element that its own round
    establishes and later rounds keep holds of every element in the end. -/

namespace Loop

variable {α β : Type} {step : β → α → β} {R : β → β → Prop} {l : List α}

section

variable (hrefl : ∀ b, R b b) (htrans : ∀ a b c, R a b → R b c → R a c)
  (hstep : ∀ b, ∀ a ∈ l, R b (step b a))
include hrefl htrans hstep

theorem foldl_rel (b : β) : R b (l.foldl step b) := by
  apply List.foldlRecOn l step (hrefl b)
  intro b' hb a ha
  exact htrans _ _ _ hb (hstep b' a ha)

theorem foldl_establishes {Q : α → β → Prop} (hround : ∀ b, ∀ a ∈ l, Q a (step b a))
    (hkeep : ∀ a b b', Q a b → R b b' → Q a b') (b : β) : ∀ a ∈ l, Q a (l.foldl step b) := by
  induction l generalizing b with
  | nil => simp
  | cons a rest ih =>
    have hrest : ∀ b, ∀ a ∈ rest, R b (step b a) :=
      fun b a ha => hstep b a (List.mem_cons_of_mem _ ha)
    intro a' ha'
    rcases List.mem_cons.mp ha' with rfl | ha'
    · apply hkeep _ _ _ (hround b a' List.mem_cons_self)
      exact foldl_rel hrefl htrans hrest _
    · exact ih hrest (fun b a ha => hround b a (List.mem_cons_of_mem _ ha)) _ a' ha'

end

end Loop
