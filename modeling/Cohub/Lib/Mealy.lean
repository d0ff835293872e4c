import Mathlib.Data.List.Basic
import Mathlib.Data.List.Induction

/-! # Mealy machines and runs

    A deterministic component is a step function that reads one input and
    returns the next state together with the outputs it hands on.  This file
    has the vocabulary for whole runs: the state after a list of inputs, the
    outputs in order, the induction rule for invariants, and the rule for
    invariants that only survive inputs meeting a side condition. -/

/-- A component with states `σ`, inputs `ι` and outputs `ο`. -/
structure Mealy (σ ι ο : Type) where
  step : σ → ι → σ × List ο

namespace Mealy

open List

variable {σ ι ο : Type}

/-! ## Runs -/

/-- The state after the inputs, and the outputs of all steps in order. -/
def run (m : Mealy σ ι ο) (s : σ) : List ι → σ × List ο
  | [] => (s, [])
  | i :: rest =>
      let first := m.step s i
      let later := m.run first.1 rest
      (later.1, first.2 ++ later.2)

@[simp] theorem run_nil (m : Mealy σ ι ο) (s : σ) : m.run s [] = (s, []) := rfl

theorem run_cons (m : Mealy σ ι ο) (s : σ) (i : ι) (rest : List ι) :
    m.run s (i :: rest) =
      ((m.run (m.step s i).1 rest).1, (m.step s i).2 ++ (m.run (m.step s i).1 rest).2) := rfl

theorem run_append (m : Mealy σ ι ο) (s : σ) (xs ys : List ι) :
    m.run s (xs ++ ys) =
      ((m.run (m.run s xs).1 ys).1, (m.run s xs).2 ++ (m.run (m.run s xs).1 ys).2) := by
  induction xs generalizing s with
  | nil => simp
  | cons i rest ih =>
    rw [cons_append, run_cons, ih, run_cons]
    simp only [append_assoc]

theorem run_concat (m : Mealy σ ι ο) (s : σ) (xs : List ι) (i : ι) :
    m.run s (xs ++ [i]) =
      ((m.step (m.run s xs).1 i).1, (m.run s xs).2 ++ (m.step (m.run s xs).1 i).2) := by
  rw [run_append, run_cons]
  simp

/-! ## Invariants -/

/-- Every step of the run meets `C`, a condition on the state before the
    step and the input. -/
def Meets (m : Mealy σ ι ο) (C : σ → ι → Prop) (s : σ) : List ι → Prop
  | [] => True
  | i :: rest => C s i ∧ m.Meets C (m.step s i).1 rest

instance decidableMeets (m : Mealy σ ι ο) (C : σ → ι → Prop) [∀ s i, Decidable (C s i)] (s : σ) :
    (is : List ι) → Decidable (m.Meets C s is)
  | [] => isTrue trivial
  | i :: rest =>
      let _ := decidableMeets m C (m.step s i).1 rest
      inferInstanceAs (Decidable (C s i ∧ m.Meets C (m.step s i).1 rest))

theorem meets_true (m : Mealy σ ι ο) (s : σ) (is : List ι) : m.Meets (fun _ _ => True) s is := by
  induction is generalizing s with
  | nil => trivial
  | cons i rest ih => exact ⟨trivial, ih _⟩

variable {m : Mealy σ ι ο} {C : σ → ι → Prop} {s : σ} {is : List ι}

theorem Meets.and_inputs {P : ι → Prop}
    (h : m.Meets C s is) (hP : ∀ i ∈ is, P i) : m.Meets (fun s i => P i ∧ C s i) s is := by
  induction is generalizing s with
  | nil => trivial
  | cons i rest ih =>
    exact ⟨⟨hP i mem_cons_self, h.1⟩, ih h.2 fun i hi => hP i (mem_cons_of_mem _ hi)⟩

variable {D : σ → ι → Prop} {I : σ → Prop}

theorem Meets.imp (hC : m.Meets C s is) (h : ∀ s i, C s i → D s i) : m.Meets D s is := by
  induction is generalizing s with
  | nil => trivial
  | cons i rest ih => exact ⟨h s i hC.1, ih hC.2⟩

theorem Meets.and
    (hC : m.Meets C s is) (hD : m.Meets D s is) : m.Meets (fun s i => C s i ∧ D s i) s is := by
  induction is generalizing s with
  | nil => trivial
  | cons i rest ih => exact ⟨⟨hC.1, hD.1⟩, ih hC.2 hD.2⟩

theorem meets_append (m : Mealy σ ι ο) (C : σ → ι → Prop) (s : σ) (xs ys : List ι) :
    m.Meets C s (xs ++ ys) ↔ m.Meets C s xs ∧ m.Meets C (m.run s xs).1 ys := by
  induction xs generalizing s with
  | nil => simp [Meets]
  | cons i rest ih =>
    rw [cons_append]
    simp only [Meets, ih, run_cons, and_assoc]

theorem run_invariant {m : Mealy σ ι ο} {C : σ → ι → Prop} {I : σ → Prop}
    (hstep : ∀ s i, I s → C s i → I (m.step s i).1) {s : σ} (h0 : I s) :
    ∀ {is : List ι}, m.Meets C s is → I (m.run s is).1 := by
  intro is
  induction is generalizing s with
  | nil => intro _; exact h0
  | cons i rest ih =>
    intro hC
    exact ih (hstep s i h0 hC.1) hC.2

theorem run_outputs {P : ο → Prop}
    (hstep : ∀ s i, I s → C s i → I (m.step s i).1 ∧ ∀ o ∈ (m.step s i).2, P o) (h0 : I s) :
    ∀ {is : List ι}, m.Meets C s is → ∀ o ∈ (m.run s is).2, P o := by
  intro is
  induction is generalizing s with
  | nil => exact fun _ => nofun
  | cons i rest ih =>
    intro hC o ho
    obtain ⟨hnext, hout⟩ := hstep s i h0 hC.1
    rcases mem_append.mp ho with ho | ho
    · exact hout o ho
    · exact ih hnext hC.2 o ho

theorem run_invariant_of_step (hstep : ∀ s i, I s → I (m.step s i).1) (h0 : I s) (is : List ι) :
    I (m.run s is).1 :=
  run_invariant (C := fun _ _ => True) (fun s i hs _ => hstep s i hs) h0 (m.meets_true s is)

theorem run_history {I : σ → List ο → Prop}
    (hstep : ∀ s outputs i, I s outputs → C s i → I (m.step s i).1 (outputs ++ (m.step s i).2))
    (h0 : I s []) (hC : m.Meets C s is) : I (m.run s is).1 (m.run s is).2 := by
  induction is using reverseRecOn with
  | nil => exact h0
  | append_singleton rest i ih =>
    obtain ⟨hrest, hi, -⟩ := (m.meets_append C s rest [i]).mp hC
    rw [run_concat]
    exact hstep _ _ i (ih hrest) hi

theorem run_outputs_invariant {I : σ → List ο → Prop}
    (hstep : ∀ s outputs i, I s outputs → I (m.step s i).1 (outputs ++ (m.step s i).2))
    (h0 : I s []) (is : List ι) : I (m.run s is).1 (m.run s is).2 :=
  run_history (C := fun _ _ => True) (fun s outputs i hs _ => hstep s outputs i hs) h0
    (m.meets_true s is)

end Mealy
