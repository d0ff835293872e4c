import Cohub.Lib.Mealy

/-! # The copy limiter

    `createLimiter` of `apps/worker/src/system/jobs/space-fs-copy/tree.ts`, and
    the same function in `packages/cli/src/space-files/limit.ts`: at most
    `concurrency` tasks at once, the others wait in a queue.

    A task that ends gives up its place and resolves the promise of the first
    caller in the queue.  That caller continues in a later microtask, and only
    then counts itself as active.  Until then it is `woken`, and whatever runs
    in between sees the place as free. -/

namespace Cohub.SpaceFs

open List

/-- The variables of a limiter, with the tasks that run, the callers that are
    woken, and two logs: who had to wait, and who went on after waiting. -/
structure Limiter (κ : Type) where
  active  : Nat
  waiting : List κ
  woken   : List κ
  running : List κ
  queued  : List κ
  served  : List κ

inductive LimiterEvent (κ : Type) where
  /-- A caller hands over its task. -/
  | call (caller : κ)
  /-- The microtask of the first woken caller runs. -/
  | resume
  /-- The task of a caller returns or throws; `finally` runs in both cases. -/
  | settle (caller : κ)
  deriving DecidableEq

namespace Limiter

variable {κ : Type}

def created : Limiter κ :=
  { active := 0, waiting := [], woken := [], running := [], queued := [], served := [] }

/-- `active += 1`, and the task is called. -/
def start (s : Limiter κ) (caller : κ) : Limiter κ :=
  { s with active := s.active + 1, running := s.running ++ [caller] }

/-- `waiting.shift()?.()`. -/
def wake (s : Limiter κ) : Limiter κ :=
  match s.waiting with
  | [] => s
  | caller :: rest => { s with waiting := rest, woken := s.woken ++ [caller] }

/-- A call: it waits while `active >= concurrency`. -/
def call (concurrency : Nat) (s : Limiter κ) (caller : κ) : Limiter κ :=
  if concurrency ≤ s.active then
    { s with waiting := s.waiting ++ [caller], queued := s.queued ++ [caller] }
  else s.start caller

/-- The first woken caller goes on behind its `await`. -/
def resume (s : Limiter κ) : Limiter κ :=
  match s.woken with
  | [] => s
  | caller :: rest => { s with woken := rest, served := s.served ++ [caller] }.start caller

/-- The `finally` of a task. -/
def settle [DecidableEq κ] (s : Limiter κ) (caller : κ) : Limiter κ :=
  if caller ∈ s.running then
    { s with active := s.active - 1, running := s.running.erase caller }.wake
  else s

/-- What an event does.  An event that cannot happen does nothing. -/
def next [DecidableEq κ] (concurrency : Nat) (s : Limiter κ) : LimiterEvent κ → Limiter κ
  | .call caller => s.call concurrency caller
  | .resume => s.resume
  | .settle caller => s.settle caller

def createLimiter [DecidableEq κ] (concurrency : Nat) : Mealy (Limiter κ) (LimiterEvent κ) Unit where
  step s event := (s.next concurrency event, [])

/-! ## What the events keep -/

/-- The invariant of a limiter, whatever the order of the events. -/
structure Ordered (concurrency : Nat) (s : Limiter κ) : Prop where
  counted : s.active = s.running.length
  inOrder : s.queued = s.served ++ (s.woken ++ s.waiting)
  full    : s.waiting ≠ [] → concurrency ≤ s.active + s.woken.length

variable {concurrency : Nat} {s : Limiter κ}

theorem Ordered.wake (hcounted : s.active = s.running.length)
    (horder : s.queued = s.served ++ (s.woken ++ s.waiting))
    (hfull : s.waiting ≠ [] → concurrency ≤ s.active + 1 + s.woken.length) :
    Ordered concurrency s.wake := by
  unfold Limiter.wake
  split
  · next hnone => exact ⟨hcounted, horder, fun hwaiting => absurd hnone hwaiting⟩
  · next caller rest hwaiting =>
    rw [hwaiting] at horder hfull
    refine ⟨hcounted, ?_, fun _ => ?_⟩
    · simp only [horder, append_assoc, singleton_append]
    · have hroom := hfull (cons_ne_nil _ _)
      simp only [length_append, length_singleton]
      omega

theorem Ordered.call (h : Ordered concurrency s) (caller : κ) :
    Ordered concurrency (s.call concurrency caller) := by
  unfold Limiter.call
  split
  · next hfull =>
    refine ⟨h.counted, ?_, fun _ => Nat.le_trans hfull (Nat.le_add_right _ _)⟩
    simp only [h.inOrder, append_assoc]
  · refine ⟨?_, h.inOrder, fun hwaiting => ?_⟩
    · simp only [start, h.counted, length_append, length_singleton]
    · have hfull := h.full hwaiting
      simp only [start]
      omega

theorem Ordered.resume (h : Ordered concurrency s) : Ordered concurrency s.resume := by
  unfold Limiter.resume
  split
  · exact h
  · next caller rest hwoken =>
    refine ⟨?_, ?_, fun hwaiting => ?_⟩
    · simp only [start, h.counted, length_append, length_singleton]
    · simp only [start, h.inOrder, hwoken, append_assoc, cons_append, nil_append]
    · have hfull := h.full hwaiting
      rw [hwoken, length_cons] at hfull
      simp only [start]
      omega

variable {caller : κ}

theorem length_erase [DecidableEq κ] (h : Ordered concurrency s) (hrunning : caller ∈ s.running) :
    s.active - 1 = (s.running.erase caller).length ∧ 0 < s.active := by
  have hpositive := length_pos_of_mem hrunning
  rw [length_erase_of_mem hrunning, h.counted]
  exact ⟨rfl, hpositive⟩

theorem Ordered.settle [DecidableEq κ] (h : Ordered concurrency s) (caller : κ) :
    Ordered concurrency (s.settle caller) := by
  unfold Limiter.settle
  split
  · next hrunning =>
    obtain ⟨hcounted, hpositive⟩ := length_erase h hrunning
    refine Ordered.wake hcounted h.inOrder fun hwaiting => ?_
    have hfull := h.full hwaiting
    dsimp only
    omega
  · exact h

/-! ## The limit -/

/-- The places taken and about to be taken. -/
def taken (s : Limiter κ) : Nat := s.active + s.woken.length

/-- A call that does not slip in: no place is free, or one is free that no
    woken caller is about to take. -/
def InTurn (concurrency : Nat) (s : Limiter κ) : LimiterEvent κ → Prop
  | .call _ => concurrency ≤ s.active ∨ s.taken < concurrency
  | _ => True

theorem taken_wake (s : Limiter κ) : s.wake.taken ≤ s.taken + 1 := by
  unfold wake
  split
  · exact Nat.le_succ _
  · simp only [taken, length_append, length_singleton]
    omega

theorem taken_resume (s : Limiter κ) : s.resume.taken = s.taken := by
  unfold resume
  split
  · rfl
  · next hwoken =>
    simp only [taken, start, hwoken, length_cons]
    omega

theorem taken_settle [DecidableEq κ] (h : Ordered concurrency s) (caller : κ) : (s.settle caller).taken ≤ s.taken := by
  unfold settle
  split
  · next hrunning =>
    obtain ⟨-, hpositive⟩ := length_erase h hrunning
    refine Nat.le_trans (taken_wake _) ?_
    simp only [taken]
    omega
  · exact Nat.le_refl _

theorem taken_call (hlimit : s.taken ≤ concurrency)
    (hturn : concurrency ≤ s.active ∨ s.taken < concurrency) :
    (s.call concurrency caller).taken ≤ concurrency := by
  unfold call
  split
  · exact hlimit
  · next hfree =>
    have hroom := hturn.resolve_left hfree
    simp only [taken, start] at hroom ⊢
    omega

/-- The invariant of a limiter into which no call slips. -/
def Limited (concurrency : Nat) (s : Limiter κ) : Prop :=
  Ordered concurrency s ∧ s.taken ≤ concurrency

theorem Limited.next [DecidableEq κ] (h : Limited concurrency s) (event : LimiterEvent κ)
    (hturn : InTurn concurrency s event) : Limited concurrency (s.next concurrency event) := by
  obtain ⟨hordered, hlimit⟩ := h
  cases event with
  | call caller => exact ⟨hordered.call caller, taken_call hlimit hturn⟩
  | resume => exact ⟨hordered.resume, (taken_resume s).symm ▸ hlimit⟩
  | settle caller => exact ⟨hordered.settle caller, Nat.le_trans (taken_settle hordered caller) hlimit⟩

theorem limited_created (concurrency : Nat) : Limited concurrency (created : Limiter κ) :=
  ⟨⟨rfl, rfl, fun hwaiting => absurd rfl hwaiting⟩, Nat.zero_le _⟩

theorem limiter_limits [DecidableEq κ] (concurrency : Nat) {events : List (LimiterEvent κ)}
    (h : (createLimiter concurrency).Meets (InTurn concurrency) created events) :
    let s := ((createLimiter concurrency).run created events).1
    s.running.length ≤ concurrency ∧ s.queued = s.served ++ (s.woken ++ s.waiting) ∧
      (s.waiting ≠ [] → s.running.length < concurrency → s.woken ≠ []) := by
  intro s
  obtain ⟨hordered, hlimit⟩ : Limited concurrency s :=
    Mealy.run_invariant (fun s event hs hturn => hs.next event hturn)
      (limited_created concurrency) h
  have hcounted := hordered.counted
  refine ⟨?_, hordered.inOrder, fun hwaiting hfree hwoken => ?_⟩
  · unfold taken at hlimit
    omega
  · have hfull := hordered.full hwaiting
    rw [hwoken, List.length_nil] at hfull
    omega

/-- Two tasks, one after the other. -/
def inTurnEvents : List (LimiterEvent Nat) := [.call 1, .call 2, .settle 1, .resume, .settle 2]

theorem limiter_limits_two :
    let s := ((createLimiter 1).run created inTurnEvents).1
    s.running.length ≤ 1 ∧ s.queued = s.served ++ (s.woken ++ s.waiting) ∧
      (s.waiting ≠ [] → s.running.length < 1 → s.woken ≠ []) :=
  limiter_limits 1 (by simp [inTurnEvents, Mealy.Meets, InTurn, createLimiter, next, call, resume,
    settle, start, wake, created, taken])

theorem late_call_slips_in :
    1 < ((createLimiter 1).run (created : Limiter Nat)
      [.call 1, .call 2, .settle 1, .call 3, .resume]).1.running.length := by
  decide

/-- Also where calls slip in, callers start in the order they came, and nobody
    waits for a place that nobody is about to take. -/
theorem limiter_order_and_work [DecidableEq κ] (concurrency : Nat) (events : List (LimiterEvent κ)) :
    let s := ((createLimiter concurrency).run created events).1
    s.active = s.running.length ∧ s.queued = s.served ++ (s.woken ++ s.waiting) ∧
      (s.waiting ≠ [] → concurrency ≤ s.running.length + s.woken.length) := by
  intro s
  have hordered : Ordered concurrency s :=
    Mealy.run_invariant_of_step (I := Ordered concurrency) (fun s event hs => by
      cases event with
      | call caller => exact hs.call caller
      | resume => exact hs.resume
      | settle caller => exact hs.settle caller) (limited_created concurrency).1 events
  exact ⟨hordered.counted, hordered.inOrder, hordered.counted ▸ hordered.full⟩

end Limiter

end Cohub.SpaceFs
