import Cohub.Wallet.Transfer

/-! # Transfers conserve money

    Over all runs of a transfer's programs, however their steps interleave and
    whichever billing calls fail, what was credited and refunded stays within
    the debit, and a run that reports a terminal state reports a transfer whose
    credits and refund make up the debit.

    `Move` is the guarantee: what a program does to the ledger while it has
    the lock.  A settled ledger allows no move, and that is why a report stays
    true. -/

namespace Cohub.Wallet

open LockedRuns Relation List

/-! ## Amounts and plans -/

/-- A whole number of USD. -/
def Whole (a : Rat) : Prop := ∃ n : Int, a = n

theorem Whole.zero : Whole 0 := ⟨0, by simp⟩

variable {a : Rat} {s s' : Ledger} {debit : Debit} {b : Rat} {list : List Denomination}

theorem Whole.add (ha : Whole a) (hb : Whole b) : Whole (a + b) := by
  obtain ⟨n, rfl⟩ := ha
  obtain ⟨m, rfl⟩ := hb
  exact ⟨n + m, by push_cast; rfl⟩

theorem Whole.sub (ha : Whole a) (hb : Whole b) : Whole (a - b) := by
  obtain ⟨n, rfl⟩ := ha
  obtain ⟨m, rfl⟩ := hb
  exact ⟨n - m, by push_cast; rfl⟩

theorem whole_of_isInteger (h : Rat.isInteger a = true) : Whole a :=
  ⟨a.floor, (of_decide_eq_true h).symm⟩

theorem cents_whole (h : Whole a) : cents a = a * 100 := by
  obtain ⟨n, rfl⟩ := h
  have hround := Number.round_intCast (n * 100)
  push_cast at hround
  exact hround

@[simp] theorem usd_whole (h : Whole a) : usd a = a := by
  unfold usd
  rw [cents_whole h]
  linarith

/-- A whole and positive amount, as denominations and grants have. -/
def Payable (a : Rat) : Prop := Whole a ∧ 0 < a

def sumUsd : List Denomination → Rat
  | [] => 0
  | piece :: rest => piece.amountUsd + sumUsd rest

theorem sumUsd_append (l : List Denomination) (piece : Denomination) :
    sumUsd (l ++ [piece]) = sumUsd l + piece.amountUsd := by
  induction l with
  | nil => simp [sumUsd]
  | cons head rest ih =>
    simp only [cons_append, sumUsd, ih]
    linarith

/-- The loops of a plan keep the sum of the pieces and the remainder, and add
    listed denominations only. -/
structure PlanKept (allowed : Denomination → Prop) (pieces : List Denomination) (remaining : Rat)
    (result : List Denomination × Rat) : Prop where
  sum     : sumUsd result.1 * 100 + result.2 = sumUsd pieces * 100 + remaining
  allowed : ∀ piece ∈ result.1, piece ∈ pieces ∨ allowed piece

theorem addPieces_kept {denomination : Denomination} (hwhole : Whole denomination.amountUsd)
    (rounds : Nat) (pieces : List Denomination) (remaining : Rat) :
    PlanKept (fun piece => piece = denomination) pieces remaining
      (addPieces denomination rounds pieces remaining) := by
  induction rounds generalizing pieces remaining with
  | zero => exact ⟨rfl, fun piece h => .inl h⟩
  | succ rounds ih =>
    unfold addPieces
    split
    · have hkept := ih (pieces ++ [denomination]) (remaining - cents denomination.amountUsd)
      refine ⟨?_, ?_⟩
      · rw [hkept.sum, sumUsd_append, cents_whole hwhole]
        linarith
      · intro piece hpiece
        rcases hkept.allowed piece hpiece with h | h
        · rcases mem_append.mp h with h | h
          · exact .inl h
          · exact .inr (mem_singleton.mp h)
        · exact .inr h
    · exact ⟨rfl, fun piece h => .inl h⟩

theorem addDenominations_kept
    (hlist : ∀ item ∈ list, Whole item.amountUsd) (pieces : List Denomination) (remaining : Rat) :
    PlanKept (fun piece => piece ∈ list) pieces remaining
      (addDenominations list pieces remaining) := by
  induction list generalizing pieces remaining with
  | nil => exact ⟨rfl, fun piece h => .inl h⟩
  | cons item rest ih =>
    have hitem := addPieces_kept (hlist item mem_cons_self) MAX_PIECES pieces remaining
    have hrest := ih (fun other h => hlist other (mem_cons_of_mem _ h))
      (addPieces item MAX_PIECES pieces remaining).1 (addPieces item MAX_PIECES pieces remaining).2
    refine ⟨hrest.sum.trans hitem.sum, ?_⟩
    intro piece hpiece
    rcases hrest.allowed piece hpiece with h | h
    · rcases hitem.allowed piece h with h | rfl
      · exact .inl h
      · exact .inr mem_cons_self
    · exact .inr (mem_cons_of_mem _ h)

theorem plan_pays {amountUsd : Rat} {plan : List Denomination} (hamount : Whole amountUsd)
    (hlist : ∀ item ∈ list, Payable item.amountUsd)
    (h : planSpaceWalletTransfer amountUsd list = some plan) :
    sumUsd plan = amountUsd ∧ plan ≠ [] ∧ ∀ piece ∈ plan, Payable piece.amountUsd := by
  have hkept := addDenominations_kept (fun item hitem => (hlist item hitem).1) [] (cents amountUsd)
  unfold planSpaceWalletTransfer at h
  simp only at h
  split at h
  · next hall =>
    obtain ⟨hzero, hpieces⟩ := hall
    injection h with h
    have hsum := hkept.sum
    rw [hzero, h, cents_whole hamount] at hsum
    refine ⟨?_, ?_, ?_⟩
    · simp only [sumUsd] at hsum
      linarith
    · rw [← h]
      exact ne_nil_of_length_pos hpieces
    · intro piece hpiece
      rw [← h] at hpiece
      rcases hkept.allowed piece hpiece with hnil | hmem
      · exact absurd hnil not_mem_nil
      · exact hlist piece hmem
  · cases h

/-! ## The ledger's invariant -/

theorem total_append (l l' : List (Nat × Rat)) : total (l ++ l') = total l + total l' := by
  induction l with
  | nil => simp [total]
  | cons head rest ih =>
    simp only [cons_append, total, ih]
    linarith

theorem total_whole {l : List (Nat × Rat)} (h : ∀ grant ∈ l, Payable grant.2) : Whole (total l) := by
  induction l with
  | nil => exact Whole.zero
  | cons head rest ih =>
    exact (h head mem_cons_self).1.add
      (ih fun grant hgrant => h grant (mem_cons_of_mem _ hgrant))

/-- What holds of the ledger after a debit. -/
structure Debit.Within (debit : Debit) (s : Ledger) : Prop where
  payable : Payable debit.amountUsd
  covered : s.grants ≠ [] → debit.amountUsd ≤ debit.consumeUsd
  credits : s.creditedUsd ≤ debit.amountUsd
  refunds : ∀ r, s.refund = some r → 0 < r ∧ s.creditedUsd + r = debit.amountUsd

/-- The invariant: the credits have the indices from 0 on, and they stay within
    the debit. -/
structure Consistent (s : Ledger) : Prop where
  undebited : s.debit = none → s.grants = [] ∧ s.refund = none
  indices   : s.grants.map Prod.fst = List.range s.grants.length
  pieces    : s.grants.length ≤ MAX_PIECES
  amounts   : ∀ grant ∈ s.grants, Payable grant.2
  debited   : ∀ debit, s.debit = some debit → debit.Within s

theorem Consistent.empty : Consistent Ledger.empty where
  undebited := fun _ => ⟨rfl, rfl⟩
  indices := rfl
  pieces := Nat.zero_le _
  amounts := fun _ h => absurd h not_mem_nil
  debited := nofun

/-- What a program does to the ledger while it has the lock. -/
inductive Move (s : Ledger) : Ledger → Prop where
  | recordUsage (amountUsd consumeUsd : Rat) (hnew : s.debit = none) (hamount : Payable amountUsd) :
      Move s { s with debit := some { amountUsd, consumeUsd } }
  | grantCredits (debit : Debit) (piece : Rat) (hdebit : s.debit = some debit)
      (hcovered : debit.amountUsd ≤ debit.consumeUsd) (hrefund : s.refund = none)
      (hpiece : Payable piece) (hwithin : s.creditedUsd + piece ≤ debit.amountUsd)
      (hroom : s.grants.length < MAX_PIECES) :
      Move s { s with grants := s.grants ++ [(s.grants.length, piece)] }
  | reverseUsage (debit : Debit) (hdebit : s.debit = some debit) (hrefund : s.refund = none)
      (hrest : s.creditedUsd < debit.amountUsd) :
      Move s { s with refund := some (debit.amountUsd - s.creditedUsd) }

theorem creditedUsd_append (s : Ledger) (piece : Rat) :
    total (s.grants ++ [(s.grants.length, piece)]) = s.creditedUsd + piece := by
  rw [total_append]
  simp [total, Ledger.creditedUsd]

theorem consistent_move (s s' : Ledger) (h : Consistent s) (hmove : Move s s') : Consistent s' := by
  cases hmove with
  | recordUsage amountUsd consumeUsd hnew hamount =>
    obtain ⟨hgrants, hrefund⟩ := h.undebited hnew
    refine ⟨nofun, h.indices, h.pieces, h.amounts, ?_⟩
    intro debit hdebit
    injection hdebit with hdebit
    subst hdebit
    refine ⟨hamount, fun hsome => absurd hgrants hsome, ?_, ?_⟩
    · show total s.grants ≤ amountUsd
      rw [hgrants]
      exact hamount.2.le
    · intro r hr
      have hr : s.refund = some r := hr
      rw [hrefund] at hr
      cases hr
  | grantCredits debit piece hdebit hcovered hrefund hpiece hwithin hroom =>
    refine ⟨?_, ?_, ?_, ?_, ?_⟩
    · intro hnone
      have hnone : s.debit = none := hnone
      rw [hdebit] at hnone
      cases hnone
    · simp [h.indices, range_succ]
    · simp only [length_append, length_singleton]
      omega
    · intro grant hgrant
      rcases mem_append.mp hgrant with hold | hnew
      · exact h.amounts grant hold
      · rw [mem_singleton.mp hnew]
        exact hpiece
    · intro debit' hdebit'
      have hdebit' : s.debit = some debit' := hdebit'
      rw [hdebit] at hdebit'
      injection hdebit' with hdebit'
      subst hdebit'
      refine ⟨(h.debited debit hdebit).payable, fun _ => hcovered, ?_, ?_⟩
      · show total _ ≤ _
        rw [creditedUsd_append]
        exact hwithin
      · intro r hr
        have hr : s.refund = some r := hr
        rw [hrefund] at hr
        cases hr
  | reverseUsage debit hdebit hrefund hrest =>
    refine ⟨?_, h.indices, h.pieces, h.amounts, ?_⟩
    · intro hnone
      have hnone : s.debit = none := hnone
      rw [hdebit] at hnone
      cases hnone
    · intro debit' hdebit'
      have hdebit' : s.debit = some debit' := hdebit'
      rw [hdebit] at hdebit'
      injection hdebit' with hdebit'
      subst hdebit'
      have hwithin := h.debited debit hdebit
      refine ⟨hwithin.payable, hwithin.covered, hwithin.credits, ?_⟩
      intro r hr
      injection hr with hr
      have hcredited : s.creditedUsd + r = debit.amountUsd := by linarith
      exact ⟨by linarith, hcredited⟩

/-- A debit stays, and the credits only grow. -/
structure Grown (s s' : Ledger) : Prop where
  debit  : ∀ debit, s.debit = some debit → s'.debit = some debit
  grants : ∃ more, s'.grants = s.grants ++ more

theorem grown_of_moves (hmoves : ReflTransGen Move s s') : Grown s s' := by
  induction hmoves with
  | refl => exact ⟨fun debit h => h, [], (append_nil _).symm⟩
  | @tail middle last _ hmove ih =>
    obtain ⟨hdebit, more, hgrants⟩ := ih
    cases hmove with
    | recordUsage amountUsd consumeUsd hnew hamount =>
      refine ⟨?_, more, hgrants⟩
      intro debit h
      rw [hdebit debit h] at hnew
      cases hnew
    | grantCredits debit piece hdebit' hcovered hrefund hpiece hwithin hroom =>
      refine ⟨hdebit, more ++ [(middle.grants.length, piece)], ?_⟩
      rw [← append_assoc, ← hgrants]
    | reverseUsage debit hdebit' hrefund hrest => exact ⟨hdebit, more, hgrants⟩

theorem grants_between {s'' : Ledger} (h : ReflTransGen Move s s') (h' : ReflTransGen Move s' s'')
    (heq : s''.grants = s.grants) : s'.grants = s.grants ∧ s''.grants = s'.grants := by
  obtain ⟨more, hmore⟩ := (grown_of_moves h).grants
  obtain ⟨more', hmore'⟩ := (grown_of_moves h').grants
  have hnil : more = [] := by
    rw [hmore', hmore, append_assoc, append_right_eq_self] at heq
    exact (append_eq_nil_iff.mp heq).1
  rw [hnil, append_nil] at hmore
  exact ⟨hmore, heq.trans hmore.symm⟩

/-! ## Settled transfers -/

/-- Credits and refund make up the debit. -/
def Ledger.Settled (s : Ledger) : Prop :=
  ∃ debit, s.debit = some debit ∧ s.creditedUsd + s.refundedUsd = debit.amountUsd

theorem Ledger.Settled.final (h : s.Settled) (hmoves : ReflTransGen Move s s') : s' = s := by
  obtain ⟨debit, hdebit, hsum⟩ := h
  rcases ReflTransGen.cases_head hmoves with heq | ⟨next, hmove, _⟩
  · exact heq.symm
  · have hrefunded : s.refund = none → s.refundedUsd = 0 := by
      intro hnone
      unfold Ledger.refundedUsd
      rw [hnone]
      rfl
    cases hmove with
    | recordUsage amountUsd consumeUsd hnew hamount =>
      rw [hdebit] at hnew
      cases hnew
    | grantCredits debit' piece hdebit' hcovered hrefund hpiece hwithin hroom =>
      rw [hdebit] at hdebit'
      injection hdebit' with heq
      rw [hrefunded hrefund, heq] at hsum
      have hpositive := hpiece.2
      linarith
    | reverseUsage debit' hdebit' hrefund hrest =>
      rw [hdebit] at hdebit'
      injection hdebit' with heq
      rw [hrefunded hrefund, heq] at hsum
      linarith

theorem Consistent.settled_of_refund (h : Consistent s) {r : Rat}
    (hr : s.refund = some r) : s.Settled := by
  cases hdebit : s.debit with
  | none =>
    have hnone := (h.undebited hdebit).2
    rw [hr] at hnone
    cases hnone
  | some debit =>
    refine ⟨debit, hdebit, ?_⟩
    unfold Ledger.refundedUsd
    rw [hr]
    exact ((h.debited debit hdebit).refunds r hr).2

theorem Consistent.refund_none (h : Consistent s)
    (hdebit : s.debit = some debit) (hfull : debit.amountUsd ≤ s.creditedUsd) : s.refund = none := by
  cases hrefund : s.refund with
  | none => rfl
  | some r =>
    obtain ⟨hpositive, hsum⟩ := (h.debited debit hdebit).refunds r hrefund
    linarith

theorem Consistent.refund_none_of_le (h : Consistent s)
    (hdebit : s.debit = some debit) (hzero : s.refundedUsd ≤ 0) : s.refund = none := by
  cases hrefund : s.refund with
  | none => rfl
  | some r =>
    have hpositive := ((h.debited debit hdebit).refunds r hrefund).1
    unfold Ledger.refundedUsd at hzero
    rw [hrefund] at hzero
    have hzero : r ≤ 0 := hzero
    linarith

/-- A status as the ledger has it, of a settled transfer. -/
structure Reports (s : Ledger) (status : TransferStatus) : Prop where
  settled  : s.Settled
  amount   : ∃ debit, s.debit = some debit ∧ status.amountUsd = debit.amountUsd
  credited : status.creditedUsd = s.creditedUsd
  refunded : status.refundedUsd = s.refundedUsd

def TransferStatus.terminal (status : TransferStatus) : Prop :=
  status.state = .completed ∨ status.state = .refunded

/-- What every program ends with: a terminal status is what the ledger has. -/
def Reported (_ : Bool) (s : Ledger) (status : TransferStatus) : Prop :=
  status.terminal → Reports s status

theorem reported_stable : Stable Move Reported := by
  intro held s held' s' status hlater h hterminal
  have hreports := h hterminal
  rw [hreports.settled.final hlater.moves]
  exact hreports

theorem Consistent.reports_completed (h : Consistent s)
    (hdebit : s.debit = some debit) (hfull : debit.amountUsd ≤ s.creditedUsd)
    {status : TransferStatus} (hamount : status.amountUsd = debit.amountUsd)
    (hcredited : status.creditedUsd = debit.amountUsd) (hrefunded : status.refundedUsd = 0) :
    Reports s status := by
  have hnone := h.refund_none hdebit hfull
  have hcredits := le_antisymm (h.debited debit hdebit).credits hfull
  have hzero : s.refundedUsd = 0 := by
    unfold Ledger.refundedUsd
    rw [hnone]
    rfl
  refine ⟨⟨debit, hdebit, ?_⟩, ⟨debit, hdebit, hamount⟩, ?_, ?_⟩
  · rw [hcredits, hzero, add_zero]
  · rw [hcredited, hcredits]
  · rw [hrefunded, hzero]

end Cohub.Wallet
