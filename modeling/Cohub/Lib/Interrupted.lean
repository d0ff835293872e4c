import Mathlib.Data.List.Basic

/-! # Calls that may be interrupted

    A call works on a state effect by effect, and reads what its environment
    shows it.  At each effect the environment decides: it is done, it fails (the
    effect is not taken and the call ends with an error), or the process is
    killed there.

    `Triple` is a specification with a condition for each way to end.  There is
    one rule for each operation, and one for loops. -/

namespace Interrupted

/-- What becomes of an effect. -/
inductive Fate where
  | done
  | failed
  | killed
  deriving DecidableEq

/-- How a call ends. -/
inductive Outcome (α : Type) where
  | ok (a : α)
  | error
  | killed
  deriving DecidableEq

/-- A call in an environment `ω`, on states `σ`. -/
def Call (ω σ α : Type) := ω → σ → Outcome α × σ

variable {ω σ α β γ : Type}

/-! ## Operations -/

def Call.ret (a : α) : Call ω σ α := fun _ s => (.ok a, s)

def Call.andThen (c : Call ω σ α) (f : α → Call ω σ β) : Call ω σ β := fun x s =>
  match c x s with
  | (.ok a, t) => f a x t
  | (.error, t) => (.error, t)
  | (.killed, t) => (.killed, t)

instance : Monad (Call ω σ) where
  pure := Call.ret
  bind := Call.andThen

def fail : Call ω σ α := fun _ s => (.error, s)

/-- A value of the state. -/
def get (f : σ → α) : Call ω σ α := fun _ s => (.ok (f s), s)

/-- A value of the environment. -/
def look (f : ω → α) : Call ω σ α := fun x s => (.ok (f x), s)

/-- A change of the state that cannot fail. -/
def modify (f : σ → σ) : Call ω σ Unit := fun _ s => (.ok (), f s)

def effect (fate : ω → Fate) (f : σ → σ) : Call ω σ Unit := fun x s =>
  match fate x with
  | .done => (.ok (), f s)
  | .failed => (.error, s)
  | .killed => (.killed, s)

def orFail : Option α → Call ω σ α
  | some a => pure a
  | none => fail

/-- Run the call, and change the state if it ends with an error. -/
def onError (c : Call ω σ α) (f : σ → σ) : Call ω σ α := fun x s =>
  match c x s with
  | (.ok a, t) => (.ok a, t)
  | (.error, t) => (.error, f t)
  | (.killed, t) => (.killed, t)

/-! ## Specifications -/

/-- A result with `Q`, an error in `E`, or a kill in `K`. -/
def Ends (Q : α → σ → Prop) (E K : σ → Prop) : Outcome α × σ → Prop
  | (.ok a, t) => Q a t
  | (.error, t) => E t
  | (.killed, t) => K t

/-- From `P` the call ends with `Q`, `E` or `K`. -/
def Triple (x : ω) (P : σ → Prop) (c : Call ω σ α) (Q : α → σ → Prop) (E K : σ → Prop) : Prop :=
  ∀ s, P s → Ends Q E K (c x s)

variable {x : ω} {P P' : σ → Prop} {Q Q' : α → σ → Prop} {E E' K K' : σ → Prop}

theorem Triple.pure {a : α} (h : ∀ s, P s → Q a s) : Triple x P (Pure.pure a) Q E K :=
  fun s hs => h s hs

theorem Triple.bind {R : β → σ → Prop} {c : Call ω σ β} {f : β → Call ω σ α}
    (hc : Triple x P c R E K) (hf : ∀ b, Triple x (R b) (f b) Q E K) :
    Triple x P (c >>= f) Q E K := by
  intro s hs
  have hfirst := hc s hs
  show Ends Q E K (Call.andThen c f x s)
  unfold Call.andThen
  generalize c x s = ended at hfirst ⊢
  rcases ended with ⟨b | _ | _, t⟩
  · exact hf b t hfirst
  · exact hfirst
  · exact hfirst

variable {c : Call ω σ α} {f : σ → σ}

theorem Triple.mono (h : Triple x P' c Q' E' K') (hP : ∀ s, P s → P' s) (hQ : ∀ a s, Q' a s → Q a s)
    (hE : ∀ s, E' s → E s) (hK : ∀ s, K' s → K s) : Triple x P c Q E K := by
  intro s hs
  have hcall := h s (hP s hs)
  generalize c x s = ended at hcall ⊢
  rcases ended with ⟨a | _ | _, t⟩
  · exact hQ a t hcall
  · exact hE t hcall
  · exact hK t hcall

theorem Triple.result (h : Triple x P c Q' E K) (hQ : ∀ a s, Q' a s → Q a s) : Triple x P c Q E K :=
  h.mono (fun _ hs => hs) hQ (fun _ hs => hs) (fun _ hs => hs)

theorem Triple.start (h : Triple x P' c Q E K) (hP : ∀ s, P s → P' s) : Triple x P c Q E K :=
  h.mono hP (fun _ _ hs => hs) (fun _ hs => hs) (fun _ hs => hs)

theorem Triple.of_eq (h : ∀ s, P s → Triple x (fun t => t = s) c Q E K) : Triple x P c Q E K :=
  fun s hs => h s hs s rfl

theorem Triple.fail (h : ∀ s, P s → E s) : Triple x P (fail : Call ω σ α) Q E K :=
  fun s hs => h s hs

theorem Triple.get {f : σ → α} (h : ∀ s, P s → Q (f s) s) : Triple x P (get f) Q E K :=
  fun s hs => h s hs

theorem Triple.look {f : ω → α} (h : ∀ s, P s → Q (f x) s) : Triple x P (look f) Q E K :=
  fun s hs => h s hs

theorem Triple.modify {Q : Unit → σ → Prop} (h : ∀ s, P s → Q () (f s)) :
    Triple x P (modify f) Q E K :=
  fun s hs => h s hs

theorem Triple.effect {fate : ω → Fate} {Q : Unit → σ → Prop}
    (hdone : ∀ s, P s → fate x = .done → Q () (f s)) (hfailed : ∀ s, P s → fate x = .failed → E s)
    (hkilled : ∀ s, P s → fate x = .killed → K s) : Triple x P (effect fate f) Q E K := by
  intro s hs
  unfold Interrupted.effect
  cases hfate : fate x with
  | done => exact hdone s hs hfate
  | failed => exact hfailed s hs hfate
  | killed => exact hkilled s hs hfate

theorem Triple.orFail {o : Option α} (hsome : ∀ a s, o = some a → P s → Q a s)
    (hnone : ∀ s, P s → E s) : Triple x P (orFail o) Q E K := by
  cases o with
  | some a => exact .pure fun s hs => hsome a s rfl hs
  | none => exact .fail hnone

theorem Triple.onError (h : Triple x P c Q E' K)
    (hE : ∀ s, E' s → E (f s)) : Triple x P (onError c f) Q E K := by
  intro s hs
  have hcall := h s hs
  unfold Interrupted.onError
  generalize c x s = ended at hcall ⊢
  rcases ended with ⟨a | _ | _, t⟩
  · exact hcall
  · exact hE t hcall
  · exact hcall

theorem Triple.foldlM {I : List γ → β → σ → Prop} {f : β → γ → Call ω σ β} {l : List γ}
    (hstep : ∀ processed, ∀ c ∈ l, ∀ b,
      Triple x (I processed b) (f b c) (I (processed ++ [c])) E K)
    (processed : List γ) (b : β) :
    Triple x (I processed b) (l.foldlM f b) (I (processed ++ l)) E K := by
  induction l generalizing processed b with
  | nil => exact .pure fun _ hs => by rwa [List.append_nil]
  | cons c rest ih =>
    rw [List.foldlM_cons]
    refine .bind (hstep processed c List.mem_cons_self b) fun b' => ?_
    have hrest := ih (fun p c' hc' => hstep p c' (List.mem_cons_of_mem _ hc')) (processed ++ [c]) b'
    rwa [List.append_assoc, List.singleton_append] at hrest

end Interrupted
