import Mathlib
import Cohub.Lib.Json
import Cohub.Lib.Mealy

/-! # The lease of a running session

    An agent works on a session while it holds a Redis lock with a TTL, and
    renews it.  Its monitor aborts a signal when the lease may be over:

    - An interval timer dispatches a renewal unless one is under way.
    - An expiry timer aborts at the deadline, whatever became of the renewals.
    - Only a renewal that came back with 1 before the deadline moves it.

    Time is a rational number of milliseconds.  The monitor's callbacks take no
    time, and timers are punctual: the clock does not pass what is due.  What
    Redis does with a command is not seen by the monitor: a command may run at
    any time after its dispatch, more than once or never, also when its promise
    has been rejected. -/

namespace Cohub.Sessions

/-! ## The monitor -/

/-- The lease's settings: positive in `env.ts`. -/
structure LeaseConfig where
  ttlMs : ℚ
  intervalMs : ℚ
  ttl_pos : 0 < ttlMs
  interval_pos : 0 < intervalMs

namespace LeaseConfig

/-- `Math.min(intervalMs, ttlMs / 4)`. -/
def margin (cfg : LeaseConfig) : ℚ :=
  if cfg.intervalMs ≤ cfg.ttlMs / 4 then cfg.intervalMs else cfg.ttlMs / 4

/-- `Math.min(intervalMs, ttlMs / 3)`. -/
def period (cfg : LeaseConfig) : ℚ :=
  if cfg.intervalMs ≤ cfg.ttlMs / 3 then cfg.intervalMs else cfg.ttlMs / 3

theorem margin_pos (cfg : LeaseConfig) : 0 < cfg.margin := by
  have httl := cfg.ttl_pos
  unfold margin
  split
  · exact cfg.interval_pos
  · linarith

end LeaseConfig

/-- A renewal whose promise is awaited: its command, and `startedAt`. -/
structure RenewalAttempt where
  command   : Nat
  startedAt : ℚ

/-- The variables of `monitorSessionLease`.  `inFlight` has the attempt while
    the flag is set; `expiry` and `timer` have the moment that is due. -/
structure LeaseMonitor where
  deadline : ℚ
  aborted  : Bool
  closed   : Bool
  inFlight : Option RenewalAttempt
  expiry   : Option ℚ
  timer    : Option ℚ

namespace LeaseMonitor

def lose (monitor : LeaseMonitor) : LeaseMonitor := { monitor with aborted := true }

def arm (monitor : LeaseMonitor) (now : ℚ) : LeaseMonitor :=
  let remaining := monitor.deadline - now
  if remaining ≤ 0 then { monitor with expiry := none }.lose
  else { monitor with expiry := some (now + remaining) }

/-- `monitorSessionLease`. -/
def start (cfg : LeaseConfig) (acquiredAt now : ℚ) : LeaseMonitor :=
  { arm { deadline := acquiredAt + cfg.ttlMs - cfg.margin, aborted := false, closed := false,
          inFlight := none, expiry := none, timer := none } now with
    timer := some (now + cfg.period) }

/-- `tick` up to its `await`, and how many commands it dispatches: none, or
    the given one. -/
def tick (monitor : LeaseMonitor) (now : ℚ) (command : Nat) : LeaseMonitor × Nat :=
  if monitor.closed ∨ monitor.aborted ∨ monitor.inFlight.isSome then (monitor, 0)
  else if monitor.deadline ≤ now then (monitor.lose, 0)
  else ({ monitor with inFlight := some { command, startedAt := now } }, 1)

/-- `tick` after its `await` of a promise that resolved. -/
def renewed (cfg : LeaseConfig) (monitor : LeaseMonitor) (startedAt now : ℚ) (result : Json) :
    LeaseMonitor :=
  let settled := { monitor with inFlight := none }
  if monitor.closed ∨ monitor.aborted then settled
  else if result ≠ .num 1 ∨ monitor.deadline ≤ now then settled.lose
  else { settled with deadline := startedAt + cfg.ttlMs - cfg.margin }.arm now

/-- The same for one that was rejected: the errors given to `onError`. -/
def failed (monitor : LeaseMonitor) (error : Json) : LeaseMonitor × List Json :=
  ({ monitor with inFlight := none }, if monitor.closed then [] else [error])

def stop (monitor : LeaseMonitor) : LeaseMonitor :=
  { monitor with closed := true, timer := none, expiry := none }

/-- The monitor vouches for the lease. -/
def Trusted (monitor : LeaseMonitor) : Prop := monitor.aborted = false ∧ monitor.closed = false

end LeaseMonitor

/-! ## The monitor, its timers and Redis -/

/-- One execution of a renewal command. -/
structure CommandRun where
  command : Nat
  ranAt   : ℚ
  result  : Json

/-- `granted` is when the command ran that last set the TTL: the acquiring
    one, or a renewal with result 1. -/
structure LeaseWorld where
  now : ℚ
  monitor : LeaseMonitor
  dispatched : Nat
  runs : List CommandRun
  granted : ℚ

inductive LeaseEvent where
  /-- The clock goes on to a moment. -/
  | elapse (moment : ℚ)
  | expiryFires
  | timerFires
  /-- Redis runs a dispatched command. -/
  | runs (command : Nat) (result : Json)
  /-- The awaited promise resolves with what a run of its command returned. -/
  | resolves (result : Json)
  | rejects (error : Json)
  | stop

namespace LeaseWorld

/-- The lock was acquired by a command dispatched at `acquiredAt` that ran at
    `granted`, and the monitor starts at `now`. -/
def start (cfg : LeaseConfig) (acquiredAt granted now : ℚ) : LeaseWorld where
  now := now
  monitor := .start cfg acquiredAt now
  dispatched := 0
  runs := []
  granted := granted

/-- Punctual timers: nothing is due before the moment. -/
def notDue (due : Option ℚ) (moment : ℚ) : Bool := due.all (moment ≤ ·)

/-- An event that is not enabled changes nothing. -/
def step (cfg : LeaseConfig) (w : LeaseWorld) : LeaseEvent → LeaseWorld × List Json
  | .elapse moment =>
      if w.now ≤ moment ∧ notDue w.monitor.expiry moment ∧ notDue w.monitor.timer moment then
        ({ w with now := moment }, [])
      else (w, [])
  | .expiryFires =>
      if w.monitor.expiry.any (· ≤ w.now) then
        ({ w with monitor := { w.monitor with expiry := none }.lose }, [])
      else (w, [])
  | .timerFires =>
      match w.monitor.timer with
      | none => (w, [])
      | some due =>
          if due ≤ w.now then
            let ticked := w.monitor.tick w.now w.dispatched
            ({ w with
               monitor := { ticked.1 with timer := some (due + cfg.period) }
               dispatched := w.dispatched + ticked.2 }, [])
          else (w, [])
  | .runs command result =>
      if command < w.dispatched then
        ({ w with
           runs := { command, ranAt := w.now, result } :: w.runs
           granted := if result = .num 1 then w.now else w.granted }, [])
      else (w, [])
  | .resolves result =>
      match w.monitor.inFlight with
      | none => (w, [])
      | some attempt =>
          if w.runs.any fun run => run.command = attempt.command ∧ run.result = result then
            ({ w with monitor := w.monitor.renewed cfg attempt.startedAt w.now result }, [])
          else (w, [])
  | .rejects error =>
      if w.monitor.inFlight.isSome then
        ({ w with monitor := (w.monitor.failed error).1 }, (w.monitor.failed error).2)
      else (w, [])
  | .stop => ({ w with monitor := w.monitor.stop }, [])

/-- The machine of one lease; its outputs are the errors reported. -/
def machine (cfg : LeaseConfig) : Mealy LeaseWorld LeaseEvent Json := ⟨step cfg⟩

/-! ## The deadline is inside the lease

    Two facts carry the argument.  The deadline is the margin short of the TTL
    from a moment that is not after `granted`; and while the monitor vouches
    for the lease its expiry timer is armed with that deadline. -/

/-- What is known of the renewals: when their commands can have run. -/
structure Renewals (w : LeaseWorld) : Prop where
  granted_le : w.granted ≤ w.now
  dispatched : ∀ run ∈ w.runs, run.command < w.dispatched
  successful : ∀ run ∈ w.runs, run.result = .num 1 → run.ranAt ≤ w.granted
  awaited    : ∀ attempt ∈ w.monitor.inFlight, attempt.startedAt ≤ w.now ∧
    attempt.command < w.dispatched ∧
    ∀ run ∈ w.runs, run.command = attempt.command → attempt.startedAt ≤ run.ranAt

/-- The invariant of the runs. -/
structure Sound (cfg : LeaseConfig) (w : LeaseWorld) : Prop where
  renewals : Renewals w
  inside   : w.monitor.deadline ≤ w.granted + cfg.ttlMs - cfg.margin
  armed    : w.monitor.Trusted →
    w.monitor.expiry = some w.monitor.deadline ∧ w.now ≤ w.monitor.deadline

theorem Sound.valid {cfg : LeaseConfig} {w : LeaseWorld} (h : Sound cfg w)
    (htrusted : w.monitor.Trusted) : w.now < w.granted + cfg.ttlMs := by
  have hmargin := cfg.margin_pos
  have hnow := (h.armed htrusted).2
  have hinside := h.inside
  linarith

end LeaseWorld

namespace LeaseMonitor

variable (monitor : LeaseMonitor) (now : ℚ)

theorem arm_cases :
    monitor.arm now = { monitor with expiry := none }.lose ∨
      monitor.arm now = { monitor with expiry := some monitor.deadline } ∧ now < monitor.deadline := by
  by_cases hremaining : monitor.deadline - now ≤ 0
  · exact .inl (if_pos hremaining)
  · refine .inr ⟨?_, by linarith⟩
    have harmed : monitor.arm now = { monitor with expiry := some (now + (monitor.deadline - now)) } :=
      if_neg hremaining
    rw [harmed, add_sub_cancel]

@[simp] theorem arm_deadline :
    (monitor.arm now).deadline = monitor.deadline := by
  rcases monitor.arm_cases now with h | ⟨h, -⟩
  · rw [h]; rfl
  · rw [h]

@[simp] theorem arm_inFlight :
    (monitor.arm now).inFlight = monitor.inFlight := by
  rcases monitor.arm_cases now with h | ⟨h, -⟩
  · rw [h]; rfl
  · rw [h]

theorem arm_aborted_of (haborted : monitor.aborted = true) : (monitor.arm now).aborted = true := by
  rcases monitor.arm_cases now with h | ⟨h, -⟩ <;> rw [h]
  · rfl
  · exact haborted

theorem arm_armed (htrusted : (monitor.arm now).Trusted) :
    (monitor.arm now).expiry = some monitor.deadline ∧ now ≤ monitor.deadline := by
  rcases monitor.arm_cases now with h | ⟨h, hahead⟩
  · rw [h] at htrusted
    exact absurd htrusted.1 (Bool.noConfusion ·)
  · rw [h]
    exact ⟨rfl, hahead.le⟩

theorem tick_cases (command : Nat) :
    monitor.tick now command = (monitor, 0) ∨ monitor.tick now command = (monitor.lose, 0) ∨
      monitor.tick now command =
        ({ monitor with inFlight := some { command, startedAt := now } }, 1) := by
  unfold tick
  split
  · exact .inl rfl
  split
  · exact .inr (.inl rfl)
  · exact .inr (.inr rfl)

theorem renewed_cases (cfg : LeaseConfig) (monitor : LeaseMonitor) (startedAt now : ℚ)
    (result : Json) :
    (monitor.renewed cfg startedAt now result = { monitor with inFlight := none } ∧
      ¬ monitor.Trusted) ∨
    monitor.renewed cfg startedAt now result = { monitor with inFlight := none }.lose ∨
    (monitor.renewed cfg startedAt now result =
      { monitor with inFlight := none, deadline := startedAt + cfg.ttlMs - cfg.margin }.arm now ∧
      result = .num 1) := by
  unfold renewed
  split
  · next hdone =>
    refine .inl ⟨rfl, fun htrusted => ?_⟩
    simp [htrusted.1, htrusted.2] at hdone
  split
  · exact .inr (.inl rfl)
  · next hlost => exact .inr (.inr ⟨rfl, by tauto⟩)

end LeaseMonitor

namespace LeaseWorld

theorem sound_start (cfg : LeaseConfig) {acquiredAt granted now : ℚ} (hacquired : acquiredAt ≤ granted)
    (hgranted : granted ≤ now) : Sound cfg (start cfg acquiredAt granted now) := by
  have hmargin := cfg.margin_pos
  refine ⟨⟨hgranted, nofun, nofun, ?_⟩, ?_, fun htrusted => ?_⟩
  · intro attempt hattempt
    simp [start, LeaseMonitor.start] at hattempt
  · show (LeaseMonitor.arm _ now).deadline ≤ _
    rw [LeaseMonitor.arm_deadline]
    simp only [start]
    linarith
  · obtain ⟨hexpiry, hnow⟩ := LeaseMonitor.arm_armed _ now htrusted
    refine ⟨?_, ?_⟩
    · show (LeaseMonitor.arm _ now).expiry = some (LeaseMonitor.arm _ now).deadline
      rw [LeaseMonitor.arm_deadline, hexpiry]
    · show now ≤ (LeaseMonitor.arm _ now).deadline
      rw [LeaseMonitor.arm_deadline]
      exact hnow

variable {cfg : LeaseConfig} {w : LeaseWorld}

theorem Sound.elapse (h : Sound cfg w) {moment : ℚ} (hforward : w.now ≤ moment)
    (hexpiry : notDue w.monitor.expiry moment) : Sound cfg { w with now := moment } := by
  obtain ⟨hr, hinside, harmed⟩ := h
  refine ⟨⟨hr.granted_le.trans hforward, hr.dispatched, hr.successful, ?_⟩, hinside, ?_⟩
  · intro attempt hattempt
    obtain ⟨hstarted, hrest⟩ := hr.awaited attempt hattempt
    exact ⟨hstarted.trans hforward, hrest⟩
  · intro htrusted
    refine ⟨(harmed htrusted).1, ?_⟩
    rw [(harmed htrusted).1] at hexpiry
    simpa [notDue] using hexpiry

theorem Sound.distrust (h : Sound cfg w) {monitor : LeaseMonitor}
    (hflight : ∀ attempt ∈ monitor.inFlight, attempt ∈ w.monitor.inFlight)
    (hdeadline : monitor.deadline = w.monitor.deadline) (hdistrusted : ¬ monitor.Trusted) :
    Sound cfg { w with monitor } := by
  obtain ⟨hr, hinside, -⟩ := h
  refine ⟨⟨hr.granted_le, hr.dispatched, hr.successful, ?_⟩, ?_, fun ht => absurd ht hdistrusted⟩
  · exact fun attempt hattempt => hr.awaited attempt (hflight attempt hattempt)
  · exact hdeadline.trans_le hinside

theorem not_trusted_lose (monitor : LeaseMonitor) : ¬ monitor.lose.Trusted :=
  fun h => Bool.noConfusion h.1

theorem Renewals.dispatch (h : Renewals w) (timer : Option ℚ) :
    Renewals { w with
      monitor := { w.monitor with
        inFlight := some { command := w.dispatched, startedAt := w.now }, timer }
      dispatched := w.dispatched + 1 } := by
  refine ⟨h.granted_le, ?_, h.successful, ?_⟩
  · exact fun run hrun => Nat.lt_succ_of_lt (h.dispatched run hrun)
  · intro attempt hattempt
    cases hattempt
    refine ⟨le_refl _, Nat.lt_succ_self _, fun run hrun hcommand => ?_⟩
    exact absurd hcommand (h.dispatched run hrun).ne

theorem Sound.timer (h : Sound cfg w) (timer : Option ℚ) :
    Sound cfg { w with monitor := { w.monitor with timer } } :=
  ⟨⟨h.renewals.granted_le, h.renewals.dispatched, h.renewals.successful, h.renewals.awaited⟩,
    h.inside, h.armed⟩

theorem Sound.ran (h : Sound cfg w) {command : Nat}
    (hcommand : command < w.dispatched) (result : Json) :
    Sound cfg { w with
      runs := { command, ranAt := w.now, result } :: w.runs
      granted := if result = .num 1 then w.now else w.granted } := by
  obtain ⟨hr, hinside, harmed⟩ := h
  have hgranted : w.granted ≤ if result = .num 1 then w.now else w.granted := by
    split
    · exact hr.granted_le
    · exact le_refl _
  refine ⟨⟨?_, ?_, ?_, ?_⟩, ?_, harmed⟩
  · show (if result = .num 1 then w.now else w.granted) ≤ w.now
    split
    · exact le_refl _
    · exact hr.granted_le
  · exact List.forall_mem_cons.mpr ⟨hcommand, hr.dispatched⟩
  · refine List.forall_mem_cons.mpr ⟨fun hone => ?_, fun run hrun hone => ?_⟩
    · exact (if_pos hone).ge
    · exact (hr.successful run hrun hone).trans hgranted
  · intro attempt hattempt
    obtain ⟨hstarted, hdispatched, hruns⟩ := hr.awaited attempt hattempt
    exact ⟨hstarted, hdispatched, List.forall_mem_cons.mpr ⟨fun _ => hstarted, hruns⟩⟩
  · show w.monitor.deadline ≤ (if result = .num 1 then w.now else w.granted) + _ - _
    linarith

theorem Sound.resolved (h : Sound cfg w) {attempt : RenewalAttempt}
    (hattempt : w.monitor.inFlight = some attempt) {result : Json}
    (hran : w.runs.any fun run => run.command = attempt.command ∧ run.result = result) :
    Sound cfg { w with monitor := w.monitor.renewed cfg attempt.startedAt w.now result } := by
  rcases w.monitor.renewed_cases cfg attempt.startedAt w.now result with
    ⟨hsettled, hdistrusted⟩ | hlost | ⟨hrenewed, hone⟩
  · rw [hsettled]
    exact h.distrust nofun rfl hdistrusted
  · rw [hlost]
    exact h.distrust nofun rfl (not_trusted_lose _)
  · obtain ⟨run, hrun, hmatch⟩ := List.any_eq_true.mp hran
    obtain ⟨hcommand, hresult⟩ := of_decide_eq_true hmatch
    have hstarted := (h.renewals.awaited attempt hattempt).2.2 run hrun hcommand
    have hgranted := h.renewals.successful run hrun (hresult.trans hone)
    rw [hrenewed]
    refine ⟨⟨h.renewals.granted_le, h.renewals.dispatched, h.renewals.successful, ?_⟩, ?_, ?_⟩
    · intro other hother
      rw [LeaseMonitor.arm_inFlight] at hother
      cases hother
    · rw [LeaseMonitor.arm_deadline]
      show attempt.startedAt + _ - _ ≤ _
      linarith
    · intro htrusted
      rw [LeaseMonitor.arm_deadline]
      exact LeaseMonitor.arm_armed _ _ htrusted

theorem Sound.step {cfg : LeaseConfig} {w : LeaseWorld} (h : Sound cfg w) (event : LeaseEvent) :
    Sound cfg (step cfg w event).1 := by
  cases event with
  | elapse moment =>
    simp only [LeaseWorld.step]
    split
    · next hdue => exact h.elapse hdue.1 hdue.2.1
    · exact h
  | expiryFires =>
    simp only [LeaseWorld.step]
    split
    · exact h.distrust (fun _ => id) rfl (not_trusted_lose _)
    · exact h
  | timerFires =>
    simp only [LeaseWorld.step]
    split
    · exact h
    split
    · rcases w.monitor.tick_cases w.now w.dispatched with hsame | hlost | hdispatched
      · rw [hsame]
        exact h.timer _
      · rw [hlost]
        exact h.distrust (fun _ => id) rfl (not_trusted_lose _)
      · rw [hdispatched]
        exact ⟨h.renewals.dispatch _, h.inside, h.armed⟩
    · exact h
  | runs command result =>
    simp only [LeaseWorld.step]
    split
    · next hcommand => exact h.ran hcommand result
    · exact h
  | resolves result =>
    simp only [LeaseWorld.step]
    split
    · exact h
    · next attempt hattempt =>
      split
      · next hran => exact h.resolved hattempt hran
      · exact h
  | rejects error =>
    simp only [LeaseWorld.step]
    split
    · -- The attempt is over, the deadline and its timer stay.
      obtain ⟨hr, hinside, harmed⟩ := h
      exact ⟨⟨hr.granted_le, hr.dispatched, hr.successful, nofun⟩, hinside, harmed⟩
    · exact h
  | stop => exact h.distrust (fun _ => id) rfl fun htrusted => Bool.noConfusion htrusted.2

theorem step_aborted (cfg : LeaseConfig) (w : LeaseWorld) (event : LeaseEvent)
    (h : w.monitor.aborted = true) : (step cfg w event).1.monitor.aborted = true := by
  cases event with
  | timerFires =>
    simp only [step]
    split
    · exact h
    split
    · rcases w.monitor.tick_cases w.now w.dispatched with hsame | hlost | hdispatched
      · rw [hsame]; exact h
      · rw [hlost]; rfl
      · rw [hdispatched]; exact h
    · exact h
  | resolves result =>
    simp only [step]
    split
    · exact h
    · next attempt _ =>
      split
      · rcases w.monitor.renewed_cases cfg attempt.startedAt w.now result with
          ⟨hsettled, -⟩ | hlost | ⟨hrenewed, -⟩
        · rw [hsettled]; exact h
        · rw [hlost]; rfl
        · rw [hrenewed]; exact LeaseMonitor.arm_aborted_of _ _ h
      · exact h
  | expiryFires => simp only [step]; split <;> first | rfl | exact h
  | elapse | runs | rejects => simp only [step]; split <;> exact h
  | stop => exact h

/-- A signal is trusted only while the lease is valid, in every run, and an
    aborted one stays so.  `granted` is when the command ran that last set the
    TTL, and until `stop` the monitor is not closed. -/
theorem lease_never_trusted_after_expiry (cfg : LeaseConfig) {acquiredAt granted now : ℚ}
    (hacquired : acquiredAt ≤ granted) (hgranted : granted ≤ now) (events : List LeaseEvent) :
    let w := ((machine cfg).run (start cfg acquiredAt granted now) events).1
    (w.monitor.closed = false → w.monitor.aborted = false → w.now < w.granted + cfg.ttlMs) ∧
      ∀ later : List LeaseEvent, w.monitor.aborted = true →
        ((machine cfg).run w later).1.monitor.aborted = true := by
  intro w
  have hsound : Sound cfg w :=
    Mealy.run_invariant_of_step (fun _ event h => h.step event)
      (sound_start cfg hacquired hgranted) events
  refine ⟨fun hclosed haborted => hsound.valid ⟨haborted, hclosed⟩, fun later haborted => ?_⟩
  exact Mealy.run_invariant_of_step (m := machine cfg) (I := fun w => w.monitor.aborted = true)
    (fun w event h => step_aborted cfg w event h) haborted later

/-- A renewal in time, then a hung one: trusted at 115, lost at 120. -/
theorem lease_never_trusted_after_expiry_hung :
    let cfg : LeaseConfig := ⟨120, 30, by norm_num, by norm_num⟩
    let w := ((machine cfg).run (start cfg 0 0 0)
      [.elapse 30, .timerFires, .runs 0 (.num 1), .resolves (.num 1), .elapse 60, .timerFires,
        .elapse 90, .timerFires, .elapse 115]).1
    (w.now = 115 ∧ w.granted = 30 ∧ w.now < w.granted + cfg.ttlMs) ∧
      ((machine cfg).run w [.elapse 120, .expiryFires]).1.monitor.aborted = true :=
  ⟨⟨by decide +kernel, by decide +kernel,
      (lease_never_trusted_after_expiry ⟨120, 30, by norm_num, by norm_num⟩ (le_refl 0) (le_refl 0)
        [.elapse 30, .timerFires, .runs 0 (.num 1), .resolves (.num 1), .elapse 60, .timerFires,
          .elapse 90, .timerFires, .elapse 115]).1 (by decide +kernel) (by decide +kernel)⟩,
    by decide +kernel⟩

end LeaseWorld

end Cohub.Sessions
