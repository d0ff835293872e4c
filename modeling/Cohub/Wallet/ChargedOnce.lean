import Cohub.Wallet.Postprocess
import Mathlib.Data.List.Nodup

/-! # A message is charged once

    As long as no run in wallet mode that may charge has claimed the message,
    every charge is the user's, under its operation id (`Open`).  Once one has,
    it alone charges, each part once (`ClaimedBy`).

    The two do not mix as long as the configuration is not switched with billing
    work done or in flight (`Undisturbed`). -/

namespace Cohub.Wallet.Postprocess

open List

variable (message : SessionMessage)

/-! ## Charges -/

/-- The charge has the operation id of its part. -/
def Proper (charge : Charge) : Prop := charge.operationId = operationId message charge.part ∧ 0 < charge.amount

def chargesLeft : Phase → List Charge
  | .charging main auxiliary _ => main.toList ++ auxiliary
  | _ => []

/-- The charges are proper, of different parts. -/
def ProperAll (charges : List Charge) : Prop := (∀ charge ∈ charges, Proper message charge) ∧ (charges.map (·.part)).Nodup

variable {configured : Bool} {userId : Option String} {charge : Charge}

theorem chargeOf_eq {part : Nat} {usage : Option Usage}
    (h : chargeOf message configured userId part usage = some charge) :
    charge.part = part ∧ Proper message charge ∧ configured = true := by
  unfold chargeOf at h
  split_ifs at h with huser hamount
  simp only [Option.some.injEq] at h
  subst h
  simp only [Bool.or_eq_true, decide_eq_true_eq, Bool.not_eq_true', not_or, Int.not_le, Bool.not_eq_false] at hamount
  exact ⟨rfl, ⟨rfl, hamount.1⟩, hamount.2⟩

theorem callCharge_eq {call : ImageToTextCallRecord × Nat}
    (h : callCharge message configured userId call = some charge) :
    charge.part = call.2 + 1 ∧ Proper message charge ∧ configured = true := by
  unfold callCharge at h
  split_ifs at h
  exact chargeOf_eq message h

theorem mainCharge_eq (h : mainCharge message configured userId = some charge) :
    charge.part = 0 ∧ Proper message charge ∧ configured = true := by
  unfold mainCharge at h
  split_ifs at h
  exact chargeOf_eq message h

theorem mem_auxiliaryCharges (h : charge ∈ auxiliaryCharges message configured userId) :
    0 < charge.part ∧ Proper message charge ∧ configured = true := by
  unfold auxiliaryCharges at h
  split_ifs at h
  · simp at h
  · obtain ⟨call, -, hcall⟩ := mem_filterMap.mp h
    obtain ⟨hpart, hproper, hconfigured⟩ := callCharge_eq message hcall
    exact ⟨by omega, hproper, hconfigured⟩

theorem nodup_filterMap_callCharge (configured : Bool) (userId : Option String)
    {calls : List (ImageToTextCallRecord × Nat)} (h : (calls.map Prod.snd).Nodup) :
    ((calls.filterMap (callCharge message configured userId)).map (·.part)).Nodup := by
  induction calls with
  | nil => exact nodup_nil
  | cons call rest ih =>
    obtain ⟨hnot, hrest⟩ := nodup_cons.mp h
    rw [filterMap_cons]
    cases hcall : callCharge message configured userId call with
    | none => exact ih hrest
    | some charge =>
      refine nodup_cons.mpr ⟨?_, ih hrest⟩
      intro hmem
      obtain ⟨other, hother, hpart⟩ := mem_map.mp hmem
      obtain ⟨call', hcall', hother⟩ := mem_filterMap.mp hother
      have hfirst := (callCharge_eq message hcall).1
      have hsecond := (callCharge_eq message hother).1
      have hsame : other.part = charge.part := hpart
      refine hnot (mem_map.mpr ⟨call', hcall', ?_⟩)
      omega

theorem properAll_chargingPhase (run : Run) : ProperAll message (chargesLeft (chargingPhase message run)) := by
  unfold chargingPhase chargesLeft
  have haux : ((auxiliaryCharges message run.config.billing run.userId).map (·.part)).Nodup := by
    unfold auxiliaryCharges
    split
    · exact nodup_nil
    · refine nodup_filterMap_callCharge message _ _ ?_
      rw [zipIdx_map_snd]
      exact nodup_range'
  refine ⟨?_, ?_⟩
  · intro charge hcharge
    rcases mem_append.mp hcharge with hmain | hother
    · exact (mainCharge_eq message (Option.mem_toList.mp hmain)).2.1
    · exact (mem_auxiliaryCharges message hother).2.1
  · cases hmain : mainCharge message run.config.billing run.userId with
    | none => exact haux
    | some charge =>
      refine nodup_cons.mpr ⟨?_, haux⟩
      intro hmem
      obtain ⟨other, hother, hpart⟩ := mem_map.mp hmem
      have hsame : other.part = charge.part := hpart
      have := (mainCharge_eq message hmain).1
      have := (mem_auxiliaryCharges message hother).1
      omega

variable {run : Run}

theorem billing_of_chargingPhase (h : chargesLeft (chargingPhase message run) ≠ []) :
    run.config.billing = true := by
  obtain ⟨charge, hcharge⟩ := exists_mem_of_ne_nil _ h
  rcases mem_append.mp hcharge with hmain | hother
  · exact (mainCharge_eq message (Option.mem_toList.mp hmain)).2.2
  · exact (mem_auxiliaryCharges message hother).2.2

theorem ProperAll.sublist {charges kept : List Charge} (h : ProperAll message charges) (hsub : kept.Sublist charges) :
    ProperAll message kept :=
  ⟨fun charge hcharge => h.1 charge (hsub.subset hcharge), h.2.sublist (hsub.map _)⟩

/-! ## Payments -/

theorem record_eq (ledger : List (Payer × Charge)) (payer : Payer) (charge : Charge) :
    record ledger payer charge = ledger ∨
      record ledger payer charge = ledger ++ [(payer, charge)] ∧
        ∀ entry ∈ ledger, entry.1 = payer → entry.2.operationId ≠ charge.operationId := by
  unfold record
  split
  · exact .inl rfl
  · next hnew =>
    refine .inr ⟨rfl, fun entry hentry hpayer hsame => hnew ?_⟩
    rw [any_eq_true]
    exact ⟨entry, hentry, by simp [hpayer, hsame]⟩

theorem payCharge_eq (ledger : List (Payer × Charge)) (run : Run) (charge : Charge) (walletPays : Bool)
    (outcome : Outcome) :
    (payCharge message ledger run charge walletPays outcome).1 = ledger ∨
      ∃ payer, (payCharge message ledger run charge walletPays outcome).1 = record ledger payer charge ∧
        (settle run.config none (billedSpace message) run.retryOnly charge.amount walletPays = .to payer ∨
          settle run.config none (billedSpace message) run.retryOnly charge.amount walletPays = .toOnce payer) := by
  unfold payCharge
  split
  · next payer hroute =>
    split
    · exact .inr ⟨payer, rfl, .inl hroute⟩
    · split
      · exact .inr ⟨payer, rfl, .inl hroute⟩
      · exact .inl rfl
  · next payer hroute =>
    split
    · exact .inr ⟨payer, rfl, .inr hroute⟩
    · split
      · exact .inr ⟨payer, rfl, .inr hroute⟩
      · exact .inl rfl
  · exact .inl rfl
  · exact .inl rfl

theorem payer_of_settle {walletPays : Bool} {payer : Payer}
    (h : settle run.config none (billedSpace message) run.retryOnly charge.amount walletPays = .to payer ∨
      settle run.config none (billedSpace message) run.retryOnly charge.amount walletPays = .toOnce payer)
    (hmode : walletMode message run = true → run.retryOnly = true) : payer = .personal := by
  unfold settle walletMode billedSpace at *
  dsimp only at h
  split_ifs at h <;> simp_all

/-! ## The two modes -/

/-- What holds of each run. -/
structure RunKept (attempted : Bool) (run : Run) : Prop where
  proper  : ProperAll message (chargesLeft run.phase)
  billing : chargesLeft run.phase ≠ [] → run.config.billing = true
  claimed : run.claimed = true → walletMode message run = true ∧ attempted = true
  wallet  : chargesLeft run.phase ≠ [] → walletMode message run = true → run.claimed = true

def timesCharged (ledger : List (Payer × Charge)) (part : Nat) : Nat :=
  (ledger.filter fun entry => entry.2.part = part).length

/-- No run that may charge the wallet has claimed the message. -/
structure Open (s : World) : Prop where
  retries  : ∀ (i : Nat) (run : Run), s.runs[i]? = some run → run.claimed = true → run.retryOnly = true
  personal : ∀ entry ∈ s.ledger, entry.1 = .personal
  once     : (s.ledger.map (·.2.operationId)).Nodup

/-- One run charges. -/
structure ClaimedBy (s : World) (i : Nat) : Prop where
  claimer : ∃ run : Run, s.runs[i]? = some run ∧ run.claimed = true ∧ run.retryOnly = false ∧
    ∀ charge ∈ chargesLeft run.phase, timesCharged s.ledger charge.part = 0
  others  : ∀ (j : Nat) (run : Run), s.runs[j]? = some run → j ≠ i → chargesLeft run.phase = []
  once    : ∀ part, timesCharged s.ledger part ≤ 1

structure Kept (s : World) : Prop where
  runs   : ∀ (i : Nat) (run : Run), s.runs[i]? = some run → RunKept message s.walletBillingAttempted run
  ledger : ∀ entry ∈ s.ledger, Proper message entry.2
  mode   : Open s ∨ ∃ i, ClaimedBy s i

section

variable {message} {s : World} {i : Nat} {run : Run}

theorem runs_setRun (hrun : s.runs[i]? = some run) (next : Run) (j : Nat) :
    (s.setRun i next).runs[j]? = if j = i then some next else s.runs[j]? := by
  obtain ⟨hlt, -⟩ := List.getElem?_eq_some_iff.mp hrun
  unfold World.setRun
  dsimp only
  rw [getElem?_set]
  by_cases hij : i = j
  · subst hij
    simp [hlt]
  · simp [hij, Ne.symm hij]

variable {phase : Phase}

theorem kept_quiet (h : Kept message s) (hrun : s.runs[i]? = some run)
    (hphase : chargesLeft phase = []) : Kept message (s.goTo i run phase) := by
  have hruns : ∀ j, (s.goTo i run phase).runs[j]? = if j = i then some { run with phase := phase } else s.runs[j]? :=
    runs_setRun hrun _
  refine ⟨?_, h.ledger, ?_⟩
  · intro j other hother
    rw [hruns] at hother
    split at hother
    · obtain rfl := Option.some.inj hother
      have hkept := h.runs i run hrun
      refine ⟨?_, fun hne => absurd hphase hne, hkept.claimed, fun hne => absurd hphase hne⟩
      dsimp only
      rw [hphase]
      exact ⟨by simp, nodup_nil⟩
    · exact h.runs j other hother
  · rcases h.mode with hopen | ⟨k, hclaimed⟩
    · refine .inl ⟨?_, hopen.personal, hopen.once⟩
      intro j other hother hclaim
      rw [hruns] at hother
      split at hother
      · obtain rfl := Option.some.inj hother
        exact hopen.retries i run hrun hclaim
      · exact hopen.retries j other hother hclaim
    · refine .inr ⟨k, ?_, ?_, hclaimed.once⟩
      · obtain ⟨claimer, hclaimer, hclaim, hretry, hleft⟩ := hclaimed.claimer
        by_cases hk : k = i
        · subst hk
          obtain rfl := Option.some.inj (hrun.symm.trans hclaimer)
          refine ⟨{ run with phase := phase }, by rw [hruns, if_pos rfl], hclaim, hretry, ?_⟩
          dsimp only
          rw [hphase]
          simp
        · exact ⟨claimer, by rw [hruns, if_neg hk, hclaimer], hclaim, hretry, hleft⟩
      · intro j other hother hj
        rw [hruns] at hother
        split at hother
        · obtain rfl := Option.some.inj hother
          exact hphase
        · exact hclaimed.others j other hother hj

theorem timesCharged_concat (ledger : List (Payer × Charge)) (payer : Payer) (charge : Charge) (part : Nat) :
    timesCharged (ledger ++ [(payer, charge)]) part =
      timesCharged ledger part + if charge.part = part then 1 else 0 := by
  unfold timesCharged
  rw [filter_append, length_append, filter_singleton]
  by_cases h : charge.part = part <;> simp [h]

theorem kept_pay (h : Kept message s) (hrun : s.runs[i]? = some run) {charge : Charge} {walletPays : Bool}
    {outcome : Outcome} (hcharge : charge ∈ chargesLeft run.phase)
    (hsub : (chargesLeft phase).Sublist (chargesLeft run.phase))
    (hgone : ∀ other ∈ chargesLeft phase, other.part ≠ charge.part) :
    Kept message (({ s with
      ledger := (payCharge message s.ledger run charge walletPays outcome).1 } : World).goTo i run phase) := by
  have hkept := h.runs i run hrun
  have hne : chargesLeft run.phase ≠ [] := ne_nil_of_mem hcharge
  let t : World := { s with ledger := (payCharge message s.ledger run charge walletPays outcome).1 }
  have hruns : ∀ j, (t.goTo i run phase).runs[j]? = if j = i then some { run with phase := phase } else s.runs[j]? :=
    runs_setRun (s := t) hrun _
  have hledger : t.ledger = s.ledger ∨ ∃ payer, t.ledger = s.ledger ++ [(payer, charge)] ∧
      (∀ entry ∈ s.ledger, entry.1 = payer → entry.2.operationId ≠ charge.operationId) ∧
      ((walletMode message run = true → run.retryOnly = true) → payer = .personal) := by
    rcases payCharge_eq message s.ledger run charge walletPays outcome with hsame | ⟨payer, hpaid, hroute⟩
    · exact .inl hsame
    · rcases record_eq s.ledger payer charge with hsame | ⟨hnew, hfresh⟩
      · exact .inl (hpaid.trans hsame)
      · exact .inr ⟨payer, hpaid.trans hnew, hfresh, payer_of_settle message hroute⟩
  refine ⟨?_, ?_, ?_⟩
  · intro j other hother
    rw [hruns] at hother
    split at hother
    · obtain rfl := Option.some.inj hother
      refine ⟨hkept.proper.sublist message hsub, fun _ => hkept.billing hne, hkept.claimed, fun _ => hkept.wallet hne⟩
    · exact h.runs j other hother
  · show ∀ entry ∈ t.ledger, Proper message entry.2
    rcases hledger with hsame | ⟨payer, hnew, -⟩
    · rw [hsame]
      exact h.ledger
    · rw [hnew]
      intro entry hentry
      rcases mem_append.mp hentry with hentry | hentry
      · exact h.ledger entry hentry
      · rw [mem_singleton.mp hentry]
        exact hkept.proper.1 charge hcharge
  · rcases h.mode with hopen | ⟨k, hclaimed⟩
    · -- The charge is the user's.
      have hpersonal : walletMode message run = true → run.retryOnly = true := fun hmode =>
        hopen.retries i run hrun (hkept.wallet hne hmode)
      refine .inl ⟨?_, ?_, ?_⟩
      · intro j other hother hclaim
        rw [hruns] at hother
        split at hother
        · obtain rfl := Option.some.inj hother
          exact hopen.retries i run hrun hclaim
        · exact hopen.retries j other hother hclaim
      · show ∀ entry ∈ t.ledger, entry.1 = .personal
        rcases hledger with hsame | ⟨payer, hnew, -, hpayer⟩
        · rw [hsame]
          exact hopen.personal
        · rw [hnew]
          intro entry hentry
          rcases mem_append.mp hentry with hentry | hentry
          · exact hopen.personal entry hentry
          · rw [mem_singleton.mp hentry]
            exact hpayer hpersonal
      · show (t.ledger.map (·.2.operationId)).Nodup
        rcases hledger with hsame | ⟨payer, hnew, hfresh, hpayer⟩
        · rw [hsame]
          exact hopen.once
        · rw [hnew, map_append, nodup_append]
          refine ⟨hopen.once, nodup_singleton _, ?_⟩
          intro a ha b hb
          obtain ⟨entry, hentry, rfl⟩ := mem_map.mp ha
          rw [map_singleton, mem_singleton] at hb
          rw [hb]
          exact hfresh entry hentry ((hopen.personal entry hentry).trans (hpayer hpersonal).symm)
    · have hki : k = i := by
        by_contra hki
        exact hne (hclaimed.others i run hrun fun heq => hki heq.symm)
      subst hki
      obtain ⟨claimer, hclaimer, hclaim, hretry, hleft⟩ := hclaimed.claimer
      obtain rfl := Option.some.inj (hrun.symm.trans hclaimer)
      have hcount : ∀ part, timesCharged t.ledger part ≤ timesCharged s.ledger part +
          if charge.part = part then 1 else 0 := by
        intro part
        rcases hledger with hsame | ⟨payer, hnew, -⟩
        · rw [hsame]
          exact Nat.le_add_right _ _
        · rw [hnew]
          exact Nat.le_of_eq (timesCharged_concat _ _ _ _)
      have hzero := hleft charge hcharge
      refine .inr ⟨k, ⟨{ run with phase := phase }, by rw [hruns, if_pos rfl], hclaim, hretry, ?_⟩, ?_, ?_⟩
      · intro other hother
        have hbefore := hleft other (hsub.subset hother)
        have hafter := hcount other.part
        rw [if_neg fun heq => hgone other hother heq.symm, hbefore] at hafter
        exact Nat.le_zero.mp hafter
      · intro j other hother hj
        rw [hruns, if_neg hj] at hother
        exact hclaimed.others j other hother hj
      · intro part
        have hafter := hcount part
        have hbefore := hclaimed.once part
        show timesCharged t.ledger part ≤ 1
        by_cases heq : charge.part = part
        · rw [if_pos heq] at hafter
          rw [heq] at hzero
          omega
        · rw [if_neg heq] at hafter
          omega

theorem pay_kept (h : Kept message s) (hrun : s.runs[i]? = some run) (k : Nat) (walletPays : Bool)
    (outcome : Outcome) : Kept message (pay message s i k run walletPays outcome) := by
  have hproper := (h.runs i run hrun).proper
  unfold pay
  cases hphase : run.phase with
  | charging main auxiliary broken =>
    rw [hphase] at hproper
    cases main with
    | some charge =>
      obtain ⟨hnot, -⟩ := nodup_cons.mp hproper.2
      have hother : ∀ other ∈ auxiliary, other.part ≠ charge.part := by
        intro other hmem heq
        exact hnot (mem_map.mpr ⟨other, hmem, heq⟩)
      have hmem : charge ∈ chargesLeft run.phase := by
        rw [hphase]
        exact mem_cons_self
      dsimp only
      unfold payMain
      dsimp only
      split
      · exact kept_pay h hrun hmem (nil_sublist _) (by simp [chargesLeft])
      · refine kept_pay h hrun hmem ?_ hother
        rw [hphase]
        exact sublist_cons_self _ _
    | none =>
      dsimp only
      cases hat : auxiliary[k]? with
      | none => exact h
      | some charge =>
        dsimp only
        unfold payAuxiliary
        have hsub : (auxiliary.eraseIdx k).Sublist auxiliary := eraseIdx_sublist _ _
        refine kept_pay h hrun ?_ ?_ ?_
        · rw [hphase]
          exact mem_of_getElem? hat
        · rw [hphase]
          exact hsub
        · -- The parts are different, so the one taken out is not left.
          intro other hmem heq
          obtain ⟨hlt, hget⟩ := List.getElem?_eq_some_iff.mp hat
          have hmem' : other ∈ auxiliary.eraseIdx k := hmem
          obtain ⟨j, hj, hne, hother⟩ := mem_eraseIdx_iff_getElem.mp hmem'
          have hj' : j < (auxiliary.map (·.part)).length := by simpa using hj
          have hlt' : k < (auxiliary.map (·.part)).length := by simpa using hlt
          have hparts : (auxiliary.map (·.part))[j] = (auxiliary.map (·.part))[k] := by
            simp [hother, hget, heq]
          exact hne ((List.Nodup.getElem_inj_iff hproper.2).mp hparts)
  | _ => exact h

theorem start_kept (h : Kept message s) (config : Config) (attemptsMade attemptsStarted : Nat)
    (userId : Option String) : Kept message (startRun message s config attemptsMade attemptsStarted userId) := by
  have hruns : ∀ (j : Nat) (other : Run),
      (startRun message s config attemptsMade attemptsStarted userId).runs[j]? = some other →
        s.runs[j]? = some other ∨ (s.runs.length ≤ j ∧ other.claimed = false ∧ chargesLeft other.phase = []) := by
    intro j other hother
    unfold startRun at hother
    dsimp only at hother
    rw [getElem?_append] at hother
    split at hother
    · exact .inl hother
    · next hge =>
      have hmem := mem_of_getElem? hother
      rw [mem_singleton] at hmem
      subst hmem
      refine .inr ⟨Nat.le_of_not_lt hge, rfl, ?_⟩
      dsimp only
      split <;> rfl
  refine ⟨?_, h.ledger, ?_⟩
  · intro j other hother
    rcases hruns j other hother with hold | ⟨-, hclaim, hleft⟩
    · exact h.runs j other hold
    · refine ⟨?_, fun hne => absurd hleft hne, by simp [hclaim], fun hne => absurd hleft hne⟩
      rw [hleft]
      exact ⟨by simp, nodup_nil⟩
  · rcases h.mode with hopen | ⟨k, hclaimed⟩
    · refine .inl ⟨?_, hopen.personal, hopen.once⟩
      intro j other hother hclaim
      rcases hruns j other hother with hold | ⟨-, hnot, -⟩
      · exact hopen.retries j other hold hclaim
      · rw [hnot] at hclaim
        cases hclaim
    · refine .inr ⟨k, ?_, ?_, hclaimed.once⟩
      · obtain ⟨claimer, hclaimer, hrest⟩ := hclaimed.claimer
        obtain ⟨hlt, -⟩ := List.getElem?_eq_some_iff.mp hclaimer
        refine ⟨claimer, ?_, hrest⟩
        unfold startRun
        dsimp only
        rw [getElem?_append_left hlt]
        exact hclaimer
      · intro j other hother hj
        rcases hruns j other hother with hold | ⟨-, -, hleft⟩
        · exact hclaimed.others j other hold hj
        · exact hleft

end

/-! ## Switching the configuration -/

/-- The configuration of the wallet is not switched with work of the message
    done or in flight: a run in wallet mode that is not a retry claims the
    message only while nothing is charged or being charged, and no run outside
    wallet mode begins to charge once one has. -/
def Undisturbed (s : World) : Input → Prop
  | .decide i => ∀ run : Run, s.runs[i]? = some run → run.alreadyAttempted = false → run.aggregated = false →
      message.walletBillingEligible = true → run.config.billing = true →
        if run.config.wallet then
          s.walletBillingAttempted = false → s.usageAggregated = false → run.retryOnly = false →
            s.ledger = [] ∧ ∀ other ∈ s.runs, chargesLeft other.phase = []
        else ∀ other ∈ s.runs, other.claimed = true → other.retryOnly = true
  | _ => True

section

variable {message} {s : World} {i : Nat} {run : Run}

section

variable (h : Kept message s) (hrun : s.runs[i]? = some run)
include h hrun

theorem kept_charging {attempted claimed : Bool}
    (hattempted : s.walletBillingAttempted = true → attempted = true)
    (hclaimed : claimed = true → walletMode message run = true ∧ attempted = true)
    (hwallet : walletMode message run = true → claimed = true)
    (hmode : (Open s ∧ (claimed = true → run.retryOnly = true)) ∨
      (∃ k, ClaimedBy s k) ∧ chargesLeft (chargingPhase message run) = [] ∧ claimed = run.claimed ∨
      claimed = true ∧ run.retryOnly = false ∧ s.ledger = [] ∧
        ∀ (j : Nat) (other : Run), s.runs[j]? = some other → chargesLeft other.phase = []) :
    Kept message (({ s with walletBillingAttempted := attempted } : World).setRun i
      { run with claimed := claimed, phase := chargingPhase message run }) := by
  let t : World := { s with walletBillingAttempted := attempted }
  let next : Run := { run with claimed := claimed, phase := chargingPhase message run }
  have hruns : ∀ j, (t.setRun i next).runs[j]? = if j = i then some next else s.runs[j]? :=
    runs_setRun (s := t) hrun _
  refine ⟨?_, h.ledger, ?_⟩
  · intro j other hother
    rw [hruns] at hother
    split at hother
    · obtain rfl := Option.some.inj hother
      exact ⟨properAll_chargingPhase message run, billing_of_chargingPhase message, hclaimed, fun _ => hwallet⟩
    · have hkept := h.runs j other hother
      exact ⟨hkept.proper, hkept.billing, fun hclaim => ⟨(hkept.claimed hclaim).1, hattempted (hkept.claimed hclaim).2⟩,
        hkept.wallet⟩
  · rcases hmode with ⟨hopen, hretry⟩ | ⟨⟨k, hby⟩, hnone, hsame⟩ | ⟨hclaim, hretry, hledger, hquiet⟩
    · refine .inl ⟨?_, hopen.personal, hopen.once⟩
      intro j other hother hclaim
      rw [hruns] at hother
      split at hother
      · obtain rfl := Option.some.inj hother
        exact hretry hclaim
      · exact hopen.retries j other hother hclaim
    · refine .inr ⟨k, ?_, ?_, hby.once⟩
      · obtain ⟨claimer, hclaimer, hclaim, hretry, hleft⟩ := hby.claimer
        by_cases hk : k = i
        · subst hk
          obtain rfl := Option.some.inj (hrun.symm.trans hclaimer)
          refine ⟨next, by rw [hruns, if_pos rfl], hsame.trans hclaim, hretry, ?_⟩
          show ∀ charge ∈ chargesLeft (chargingPhase message run), _
          rw [hnone]
          simp
        · exact ⟨claimer, by rw [hruns, if_neg hk, hclaimer], hclaim, hretry, hleft⟩
      · intro j other hother hj
        rw [hruns] at hother
        split at hother
        · obtain rfl := Option.some.inj hother
          exact hnone
        · exact hby.others j other hother hj
    · have hzero : ∀ part, timesCharged s.ledger part = 0 := by
        intro part
        rw [hledger]
        rfl
      refine .inr ⟨i, ⟨next, by rw [hruns, if_pos rfl], hclaim, hretry, fun _ _ => hzero _⟩, ?_, ?_⟩
      · intro j other hother hj
        rw [hruns, if_neg hj] at hother
        exact hquiet j other hother
      · intro part
        show timesCharged s.ledger part ≤ 1
        rw [hzero part]
        exact Nat.zero_le _

theorem decide_kept
    (hundisturbed : Undisturbed message s (.decide i)) : Kept message (decide message s i run) := by
  unfold decide
  split
  · exact kept_quiet h hrun rfl
  next hunread =>
  simp only [Bool.or_eq_true, not_or, Bool.not_eq_true] at hunread
  have hcondition := hundisturbed run hrun hunread.2 hunread.1
  by_cases hmode : walletMode message run = true
  · rw [if_pos hmode]
    have hparts := hmode
    unfold walletMode at hparts
    simp only [Bool.and_eq_true] at hparts
    split
    · exact kept_quiet h hrun rfl
    next hunclaimed =>
    simp only [Bool.or_eq_true, not_or, Bool.not_eq_true] at hunclaimed
    refine kept_charging h hrun (fun _ => rfl) (fun _ => ⟨hmode, rfl⟩) (fun _ => rfl) ?_
    cases hretry : run.retryOnly with
    | true =>
      -- A run that claimed before would have left its mark.
      refine .inl ⟨h.mode.resolve_right ?_, fun _ => rfl⟩
      rintro ⟨k, hby⟩
      obtain ⟨claimer, hclaimer, hclaim, -⟩ := hby.claimer
      have := ((h.runs k claimer hclaimer).claimed hclaim).2
      rw [hunclaimed.2] at this
      cases this
    | false =>
      have hswitched := hcondition hparts.1.1 hparts.1.2
      rw [if_pos hparts.2] at hswitched
      obtain ⟨hledger, hquiet⟩ := hswitched hunclaimed.2 hunclaimed.1 hretry
      exact .inr (.inr ⟨rfl, rfl, hledger, fun j other hother => hquiet other (List.mem_of_getElem? hother)⟩)
  · rw [if_neg hmode]
    refine kept_charging h hrun id (h.runs i run hrun).claimed (fun hwallet => absurd hwallet hmode) ?_
    rcases h.mode with hopen | hby
    · exact .inl ⟨hopen, hopen.retries i run hrun⟩
    · refine .inr (.inl ⟨hby, ?_, rfl⟩)
      by_contra hne
      obtain ⟨k, hby⟩ := hby
      obtain ⟨claimer, hclaimer, hclaim, hretry, -⟩ := hby.claimer
      have hclaimerMode := ((h.runs k claimer hclaimer).claimed hclaim).1
      have hbilling := billing_of_chargingPhase message hne
      unfold walletMode at hclaimerMode hmode
      simp only [Bool.and_eq_true] at hclaimerMode hmode
      have hswitched := hcondition hclaimerMode.1.1 hbilling
      rw [if_neg fun hwallet => hmode ⟨⟨hclaimerMode.1.1, hbilling⟩, hwallet⟩] at hswitched
      rw [hswitched claimer (List.mem_of_getElem? hclaimer) hclaim] at hretry
      cases hretry

theorem aggregate_kept (now : Int) : Kept message (aggregate message s i run now) := by
  unfold aggregate
  split
  · exact kept_quiet h hrun rfl
  · have hsame : Kept message { s with
        usageAggregated := true
        statistics := s.statistics ++ incrementsOf message run.userId now } := by
      refine ⟨h.runs, h.ledger, ?_⟩
      rcases h.mode with hopen | ⟨k, hby⟩
      · exact .inl ⟨hopen.retries, hopen.personal, hopen.once⟩
      · exact .inr ⟨k, hby.claimer, hby.others, hby.once⟩
    exact kept_quiet hsame hrun rfl

end

theorem step_kept (h : Kept message s) (input : Input) (hundisturbed : Undisturbed message s input) :
    Kept message (step message s input) := by
  cases input with
  | start config attemptsMade attemptsStarted userId =>
    exact start_kept h config attemptsMade attemptsStarted userId
  | decide i =>
    unfold step
    dsimp only [Input.run]
    cases hrun : s.runs[i]? with
    | none => exact h
    | some run =>
      dsimp only [stepRun]
      split
      · exact decide_kept h hrun hundisturbed
      · exact h
  | pay i k walletPays outcome =>
    unfold step
    dsimp only [Input.run]
    cases hrun : s.runs[i]? with
    | none => exact h
    | some run => exact pay_kept h hrun k walletPays outcome
  | charged i =>
    unfold step
    dsimp only [Input.run]
    cases hrun : s.runs[i]? with
    | none => exact h
    | some run =>
      dsimp only [stepRun]
      split
      · next broken hphase =>
        refine kept_quiet h hrun ?_
        split <;> rfl
      · exact h
  | effects i succeeds =>
    unfold step
    dsimp only [Input.run]
    cases hrun : s.runs[i]? with
    | none => exact h
    | some run =>
      dsimp only [stepRun]
      split
      · refine kept_quiet h hrun ?_
        split <;> rfl
      · exact h
  | aggregate i now =>
    unfold step
    dsimp only [Input.run]
    cases hrun : s.runs[i]? with
    | none => exact h
    | some run =>
      dsimp only [stepRun]
      split
      · exact aggregate_kept h hrun now
      · exact h
  | die i =>
    unfold step
    dsimp only [Input.run]
    cases hrun : s.runs[i]? with
    | none => exact h
    | some run => exact kept_quiet h hrun rfl

theorem timesCharged_of_kept (h : Kept message s) (part : Nat) : timesCharged s.ledger part ≤ 1 := by
  rcases h.mode with hopen | ⟨k, hby⟩
  · unfold timesCharged
    have hsub : ((s.ledger.filter fun entry => entry.2.part = part).map (·.2.operationId)).Nodup :=
      hopen.once.sublist (filter_sublist.map _)
    have hall : ∀ a ∈ (s.ledger.filter fun entry => entry.2.part = part).map (·.2.operationId),
        a = operationId message part := by
      intro a ha
      obtain ⟨entry, hentry, rfl⟩ := mem_map.mp ha
      obtain ⟨hmem, hpart⟩ := mem_filter.mp hentry
      rw [(h.ledger entry hmem).1, decide_eq_true_eq.mp hpart]
    rw [← length_map (f := (·.2.operationId))]
    generalize (s.ledger.filter fun entry => entry.2.part = part).map (·.2.operationId) = ids at hsub hall
    match ids with
    | [] => exact Nat.zero_le _
    | [_] => exact Nat.le_refl _
    | a :: b :: rest =>
      exfalso
      have hne := (nodup_cons.mp hsub).1
      refine hne ?_
      rw [hall a mem_cons_self, ← hall b (mem_cons_of_mem _ mem_cons_self)]
      exact mem_cons_self
  · exact hby.once part

end

/-! ## Statistics -/

/-- The statistics have the rows of one aggregation, or none, and whoever has
    seen or done one is right. -/
structure Added (s : World) : Prop where
  once : (s.usageAggregated = false ∧ s.statistics = []) ∨
    s.usageAggregated = true ∧ ∃ userId now, s.statistics = incrementsOf message userId now
  seen : ∀ run ∈ s.runs, run.aggregated = true → s.usageAggregated = true
  done : ∀ run ∈ s.runs, run.phase = .completed → s.usageAggregated = true

section

variable {message} {s : World} {i : Nat} {run : Run}

section

variable (h : Added message s) (hrun : run ∈ s.runs)
include h hrun

theorem added_setRun {phase : Phase}
    (hdone : phase = .completed → s.usageAggregated = true) (ledger : List (Payer × Charge)) (attempted claimed : Bool) :
    Added message (({ s with ledger := ledger, walletBillingAttempted := attempted } : World).setRun i
      { run with claimed := claimed, phase := phase }) := by
  refine ⟨h.once, ?_, ?_⟩
  · intro other hother haggregated
    rcases mem_or_eq_of_mem_set hother with hold | rfl
    · exact h.seen other hold haggregated
    · exact h.seen run hrun haggregated
  · intro other hother hcompleted
    rcases mem_or_eq_of_mem_set hother with hold | rfl
    · exact h.done other hold hcompleted
    · exact hdone hcompleted

theorem added_aggregate (now : Int) : Added message (aggregate message s i run now) := by
  unfold aggregate
  split
  · next hseen =>
    refine added_setRun (s := s) h hrun (fun _ => ?_) s.ledger s.walletBillingAttempted run.claimed
    rcases Bool.or_eq_true_iff.mp hseen with hbefore | hnow
    · exact h.seen run hrun hbefore
    · exact hnow
  · next hfresh =>
    simp only [Bool.or_eq_true, not_or, Bool.not_eq_true] at hfresh
    have hempty : s.statistics = [] := by
      rcases h.once with ⟨-, hnone⟩ | ⟨hdone, -⟩
      · exact hnone
      · rw [hfresh.2] at hdone
        cases hdone
    refine ⟨.inr ⟨rfl, run.userId, now, ?_⟩, fun _ _ _ => rfl, fun _ _ _ => rfl⟩
    show s.statistics ++ incrementsOf message run.userId now = _
    rw [hempty, List.nil_append]

theorem added_pay (k : Nat) (walletPays : Bool) (outcome : Outcome) :
    Added message (pay message s i k run walletPays outcome) := by
  unfold pay
  split
  · unfold payMain
    refine added_setRun h hrun ?_ _ s.walletBillingAttempted run.claimed
    split <;> simp
  · split
    · unfold payAuxiliary
      exact added_setRun h hrun (by simp) _ s.walletBillingAttempted run.claimed
    · exact h
  · exact h

theorem added_decide : Added message (decide message s i run) := by
  unfold decide
  split
  · exact added_setRun h hrun (by simp) s.ledger s.walletBillingAttempted run.claimed
  · split
    · split
      · exact added_setRun h hrun (by simp) s.ledger s.walletBillingAttempted run.claimed
      · exact added_setRun h hrun (by simp [chargingPhase]) s.ledger true true
    · exact added_setRun h hrun (by simp [chargingPhase]) s.ledger s.walletBillingAttempted run.claimed

end

theorem added_start (h : Added message s) (config : Config) (attemptsMade attemptsStarted : Nat)
    (userId : Option String) : Added message (startRun message s config attemptsMade attemptsStarted userId) := by
  refine ⟨h.once, ?_, ?_⟩
  · intro other hother haggregated
    rcases mem_append.mp hother with hold | hnew
    · exact h.seen other hold haggregated
    · rw [mem_singleton.mp hnew] at haggregated
      exact haggregated
  · intro other hother hcompleted
    rcases mem_append.mp hother with hold | hnew
    · exact h.done other hold hcompleted
    · rw [mem_singleton.mp hnew] at hcompleted
      dsimp only at hcompleted
      split at hcompleted <;> cases hcompleted

theorem added_stepRun (h : Added message s) (hrun : run ∈ s.runs) (input : Input) :
    Added message (stepRun message s i run input) := by
  have hgoes : ∀ phase, phase ≠ .completed → Added message (s.goTo i run phase) := fun phase hphase =>
    added_setRun h hrun (fun hcompleted => absurd hcompleted hphase) s.ledger s.walletBillingAttempted run.claimed
  cases input with
  | start config attemptsMade attemptsStarted userId => exact h
  | decide j =>
    dsimp only [stepRun]
    split
    · exact added_decide h hrun
    · exact h
  | pay j k walletPays outcome => exact added_pay h hrun k walletPays outcome
  | charged j =>
    dsimp only [stepRun]
    split
    · exact hgoes _ (by split <;> simp)
    · exact h
  | effects j succeeds =>
    dsimp only [stepRun]
    split
    · exact hgoes _ (by split <;> simp)
    · exact h
  | aggregate j now =>
    dsimp only [stepRun]
    split
    · exact added_aggregate h hrun now
    · exact h
  | die j => exact hgoes _ (by simp)

theorem step_added (h : Added message s) (input : Input) : Added message (step message s input) := by
  unfold step
  split
  · exact added_start h _ _ _ _
  · split
    · next run hrun => exact added_stepRun h (mem_of_getElem? hrun) _
    · exact h

end

/-! ## Whole runs -/

/-- A part is charged at most once, to one payer, and the statistics are
    increased once if a run completes. -/
theorem message_charged_once {inputs : List Input}
    (hundisturbed : (postprocess message).Meets (Undisturbed message) .start inputs) :
    let s := ((postprocess message).run .start inputs).1
    (∀ part, timesCharged s.ledger part ≤ 1) ∧
      (s.statistics = [] ∨ ∃ userId now, s.statistics = incrementsOf message userId now) ∧
      ((∃ run ∈ s.runs, run.phase = .completed) → ∃ userId now, s.statistics = incrementsOf message userId now) := by
  have hstart : Kept message .start := by
    refine ⟨by simp [World.start], by simp [World.start], .inl ⟨by simp [World.start], by simp [World.start], ?_⟩⟩
    exact List.nodup_nil
  have hkept : Kept message ((postprocess message).run .start inputs).1 :=
    Mealy.run_invariant (m := postprocess message) (I := Kept message)
      (fun s input h hclean => step_kept h input hclean) hstart hundisturbed
  have hadded : Added message ((postprocess message).run .start inputs).1 :=
    Mealy.run_invariant_of_step (m := postprocess message) (I := Added message)
      (fun s input h => step_added h input) ⟨.inl ⟨rfl, rfl⟩, by simp [World.start], by simp [World.start]⟩ inputs
  refine ⟨timesCharged_of_kept hkept, ?_, ?_⟩
  · rcases hadded.once with ⟨-, hnone⟩ | ⟨-, honce⟩
    · exact .inl hnone
    · exact .inr honce
  · rintro ⟨run, hrun, hcompleted⟩
    rcases hadded.once with ⟨hfalse, -⟩ | ⟨-, honce⟩
    · have := hadded.done run hrun hcompleted
      rw [hfalse] at this
      cases this
    · exact honce

/-! ## A message of a space with a wallet -/

def walletMessage : SessionMessage where
  id := "m"
  sessionId := "s"
  spaceId := "p"
  role := .assistant
  messageKind := none
  runtimeLocal := false
  errorMessage := none
  stopReason := none
  provider := none
  model := none
  usage := some ⟨none, none, none, none, none, some ⟨none, none, none, none, some (mkRat 1 2)⟩⟩
  calls := []
  compaction := none
  walletBillingEligible := true
  createdAt := some 0

/-- A job that claims the message and charges the wallet. -/
def sameConfiguration : List Input :=
  [.start ⟨true, true⟩ 0 1 (some "u"), .decide 0, .pay 0 0 true .returns, .charged 0, .effects 0 true,
    .aggregate 0 0]

theorem message_charged_once_in_wallet_mode :
    timesCharged ((postprocess walletMessage).run .start sameConfiguration).1.ledger 0 = 1 ∧
      ∃ userId now, ((postprocess walletMessage).run .start sameConfiguration).1.statistics =
        incrementsOf walletMessage userId now := by
  have hclean : (postprocess walletMessage).Meets (Undisturbed walletMessage) .start sameConfiguration := by
    refine ⟨trivial, ?_, trivial, trivial, trivial, trivial, trivial⟩
    intro run hrun _ _ _ _
    obtain rfl := Option.some.inj hrun
    rw [if_pos rfl]
    intro _ _ _
    refine ⟨rfl, fun other hother => ?_⟩
    rw [List.mem_singleton.mp hother]
    rfl
  have honce := message_charged_once walletMessage hclean
  refine ⟨?_, honce.2.2 ?_⟩
  · decide +kernel
  · decide +kernel

/-- A job charges the user where no wallet is configured and dies, and another
    finds one. -/
def switchedConfiguration : List Input :=
  [.start ⟨true, false⟩ 0 1 (some "u"), .decide 0, .pay 0 0 false .returns, .die 0,
    .start ⟨true, true⟩ 0 1 (some "u"), .decide 1, .pay 1 0 true .returns]

/-- The user pays, and so does the wallet. -/
theorem both_pay :
    timesCharged ((postprocess walletMessage).run .start switchedConfiguration).1.ledger 0 = 2 ∧
      ((postprocess walletMessage).run .start switchedConfiguration).1.ledger.map Prod.fst =
        [.personal, .spaceWallet] := by
  decide +kernel

end Cohub.Wallet.Postprocess
