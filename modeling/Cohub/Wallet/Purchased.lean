import Mathlib
import Cohub.Wallet.Transfer

/-! # Purchased money and the transfers of a user

    All transfers of one user share the user's lock and draw on the user's
    credits.  The store here has one ledger for each transfer, and the account
    beside it has all the grants that the user was ever given; it changes at any
    time.  What is outstanding is what the ledgers' debits have consumed, less
    what reversals have returned of it.

    A debit whose call has failed may still land later (`Late`). -/

namespace Cohub.Wallet

open LockedRuns Relation Function List

/-! ## The account -/

/-- A grant to the user, now. -/
structure AccountGrant where
  grantKind : Option String
  sourceType : Option String
  originalUsd : Rat
  remainingUsd : Rat
  nonneg : 0 ≤ remainingUsd
  within : remainingUsd ≤ originalUsd

def AccountGrant.purchased (grant : AccountGrant) : Bool :=
  grant.grantKind = some "purchased" ∧ grant.sourceType = some "order"

structure Account where
  grants : List AccountGrant
  netUsd : Rat

def AccountGrant.purchasedUsd (grant : AccountGrant) : Rat :=
  if grant.purchased then grant.originalUsd else 0

def Account.purchasedUsd (account : Account) : Rat :=
  (account.grants.map AccountGrant.purchasedUsd).sum

/-- A grant as billing shows it; the original amount may be missing. -/
structure Shown (grant : AccountGrant) (shown : CreditGrant) : Prop where
  kind      : shown.grantKind = grant.grantKind
  source    : shown.sourceType = grant.sourceType
  remaining : shown.remainingAmountUsd = grant.remainingUsd
  original  : shown.originalAmountUsd = none ∨ shown.originalAmountUsd = some grant.originalUsd

/-- Billing shows some of the grants, in some order. -/
structure Account.Shows (account : Account) (credit : CreditStatus) : Prop where
  net    : credit.netUsd = account.netUsd
  grants : ∃ grants : List AccountGrant, grants.Subperm account.grants ∧
    List.Forall₂ Shown grants credit.groups.flatten

/-- The grant with another remaining amount. -/
structure SameGrant (grant grant' : AccountGrant) : Prop where
  kind     : grant'.grantKind = grant.grantKind
  source   : grant'.sourceType = grant.sourceType
  original : grant'.originalUsd = grant.originalUsd

/-- A purchase or another grant, or spending, expiry and their like. -/
inductive AccountMove (account : Account) : Account → Prop where
  | grant (grant : AccountGrant) (netUsd : Rat) :
      AccountMove account { grants := account.grants ++ [grant], netUsd }
  | spend (grants : List AccountGrant) (netUsd : Rat)
      (h : List.Forall₂ SameGrant account.grants grants) : AccountMove account { grants, netUsd }

/-! ## The ledgers of the transfers -/

/-- What credits covered of the debit. -/
def Ledger.consumedUsd (s : Ledger) : Rat := (s.debit.map Debit.consumeUsd).getD 0

/-- What the reversal gave back of it. -/
def Ledger.returnedUsd (s : Ledger) : Rat := Number.minimum s.refundedUsd s.consumedUsd

/-- The transfers that were debited, the ledger of each, and the debits that
    were asked for and have not shown. -/
structure UserLedger where
  ids      : Finset Nat
  ledger   : Nat → Ledger
  inFlight : List (Nat × Rat)

namespace UserLedger

def empty : UserLedger where
  ids := ∅
  ledger _ := Ledger.empty
  inFlight := []

def consumedUsd (s : UserLedger) : Rat := ∑ i ∈ s.ids, (s.ledger i).consumedUsd

def returnedUsd (s : UserLedger) : Rat := ∑ i ∈ s.ids, (s.ledger i).returnedUsd

/-- The transfers' debits, less their reversals. -/
def outstandingUsd (s : UserLedger) : Rat := s.consumedUsd - s.returnedUsd

def write (s : UserLedger) (i : Nat) (ledger : Ledger) : UserLedger :=
  { s with ids := if ledger.debit = none then s.ids else insert i s.ids,
           ledger := Function.update s.ledger i ledger }

end UserLedger

/-- Credits cover a debit in part, at least. -/
def Ledger.Covered (s : Ledger) : Prop :=
  ∀ debit, s.debit = some debit → 0 ≤ debit.consumeUsd ∧ debit.consumeUsd ≤ debit.amountUsd

/-- A call takes effect on the ledger of its transfer, or has none; a debit that
    fails may be in flight. -/
inductive UserEffect (i : Nat) (s : UserLedger) (m : Mutation) :
    UserLedger → Except Failure Unit → Prop where
  | called (ledger : Ledger) (outcome) (h : Effect (s.ledger i) m ledger outcome)
      (hcovered : (s.ledger i).Covered → ledger.Covered) :
      UserEffect i s m (s.write i ledger) outcome
  | timedOut (amountUsd : Rat) (e : Failure) (hm : m = .recordUsage amountUsd) :
      UserEffect i s m { s with inFlight := (i, amountUsd) :: s.inFlight } (.error e)

/-- Answers to a program of one transfer; `shows` are the credit statuses that
    billing may give. -/
def UserAnswers (shows : CreditStatus → Prop) (i : Nat) (s : UserLedger) :
    (q : Query) → Except Failure q.Value → Prop
  | .creditStatus, .ok credit => shows credit
  | .usageTotals, .ok totals => totals.consumeUsd = s.consumedUsd ∧ totals.reversalUsd = s.returnedUsd
  | q, x => Answers (s.ledger i) q x

def userBilling (shows : CreditStatus → Prop) (i : Nat) :
    World Query (fun q => Except Failure q.Value) Mutation Failure UserLedger where
  answers s := UserAnswers shows i s
  effect := UserEffect i

/-- The programs that run for the user's transfers. -/
inductive StartedFor : Prog (Nat × Query) (fun q => Except Failure q.2.Value) (Nat × Mutation)
    Failure (Except Failure TransferStatus) → Prop where
  | program (i : Nat) (p) (hp : Started p) : StartedFor (p.inPlace i)

/-! ## Runs -/

abbrev UserPool := Pool (Nat × Query) (fun q => Except Failure q.2.Value) (Nat × Mutation) Failure
  UserLedger (Except Failure TransferStatus)

structure UserWorld where
  pool    : UserPool
  account : Account

def UserWorld.fresh (account : Account) : UserWorld where
  pool := { store := .empty, holder := none, runs := fun _ => none }
  account := account

/-- A step of a program, or a change of the account. -/
inductive Timely : UserWorld → UserWorld → Prop where
  | run (w : UserWorld) (pool : UserPool)
      (h : Step (World.places (userBilling w.account.Shows)) StartedFor w.pool pool) :
      Timely w { w with pool }
  | account (w : UserWorld) (account : Account) (h : AccountMove w.account account) :
      Timely w { w with account }

/-- A debit that has failed for its caller takes effect. -/
inductive Late : UserWorld → UserWorld → Prop where
  | lands (w : UserWorld) (i : Nat) (debit : Debit) (hasked : (i, debit.amountUsd) ∈ w.pool.store.inFlight)
      (hnew : (w.pool.store.ledger i).debit = none) (hnonneg : 0 ≤ debit.consumeUsd)
      (hle : debit.consumeUsd ≤ debit.amountUsd) :
      Late w { w with pool := { w.pool with
        store := w.pool.store.write i { w.pool.store.ledger i with debit := some debit } } }

/-- The last credit status, after an answer. -/
def noted : Option CreditStatus → (q : Query) → Except Failure q.Value → Option CreditStatus
  | _, .creditStatus, .ok credit => some credit
  | last, _, _ => last

/-- On every path of a program each debit comes after a credit status that
    covers it, the last one read. -/
def Checked : Option CreditStatus →
    Prog Query (fun q => Except Failure q.Value) Mutation Failure (Except Failure TransferStatus) → Prop
  | _, .done _ => True
  | last, .read q next => ∀ x, Checked (noted last q x) (next x)
  | last, .guarded m next =>
      (∀ amountUsd, m = .recordUsage amountUsd → ∃ credit, last = some credit ∧
        amountUsd ≤ (purchasedAndRemaining credit.groups.flatten).2 ∧ amountUsd ≤ credit.netUsd) ∧
        ∀ x, Checked last (next x)
  | last, .lock next => ∀ x, Checked last (next x)
  | last, .unlock next => Checked last next

/-! ## What billing shows and what a ledger nets -/

theorem AccountGrant.purchasedUsd_nonneg (grant : AccountGrant) : 0 ≤ grant.purchasedUsd := by
  unfold AccountGrant.purchasedUsd
  split
  · exact grant.nonneg.trans grant.within
  · exact le_refl _

theorem Account.purchasedUsd_nonneg (account : Account) : 0 ≤ account.purchasedUsd :=
  sum_nonneg fun _ h => by
    obtain ⟨grant, -, rfl⟩ := mem_map.mp h
    exact grant.purchasedUsd_nonneg

variable {account : Account} {credit : CreditStatus}

theorem Account.Shows.purchased_le (h : account.Shows credit) :
    (purchasedAndRemaining credit.groups.flatten).1 ≤ account.purchasedUsd := by
  obtain ⟨grants, hsub, hshown⟩ := h.grants
  have hlisted : (purchasedAndRemaining credit.groups.flatten).1 ≤
      (grants.map AccountGrant.purchasedUsd).sum := by
    clear hsub
    generalize credit.groups.flatten = listed at hshown ⊢
    induction hshown with
    | nil => exact le_refl _
    | @cons grant shown grants rest hgrant _ ih =>
      have hsame : shown.purchased = grant.purchased := by
        unfold CreditGrant.purchased AccountGrant.purchased
        rw [hgrant.kind, hgrant.source]
      rw [map_cons, sum_cons]
      unfold purchasedAndRemaining AccountGrant.purchasedUsd
      dsimp only
      rw [hsame]
      by_cases hpurchased : grant.purchased = true
      · rw [if_pos hpurchased, if_pos hpurchased]
        have hamount : shown.originalAmountUsd.getD shown.remainingAmountUsd ≤ grant.originalUsd := by
          rcases hgrant.original with hnone | hsome
          · rw [hnone, hgrant.remaining]
            exact grant.within
          · rw [hsome]
            exact le_refl _
        exact add_le_add hamount ih
      · rw [if_neg hpurchased, if_neg hpurchased, zero_add]
        exact ih
  obtain ⟨listed, hperm, hsublist⟩ := hsub
  refine hlisted.trans ?_
  rw [← (hperm.map AccountGrant.purchasedUsd).sum_eq]
  refine (hsublist.map AccountGrant.purchasedUsd).sum_le_sum fun _ hmem => ?_
  obtain ⟨grant, -, rfl⟩ := mem_map.mp hmem
  exact grant.purchasedUsd_nonneg

theorem AccountMove.purchasedUsd_le {account' : Account} (h : AccountMove account account') :
    account.purchasedUsd ≤ account'.purchasedUsd := by
  unfold Account.purchasedUsd
  cases h with
  | grant grant netUsd =>
    rw [map_append, sum_append, map_singleton, sum_singleton]
    exact le_add_of_nonneg_right grant.purchasedUsd_nonneg
  | spend grants netUsd hsame =>
    have heq : account.grants.map AccountGrant.purchasedUsd = grants.map AccountGrant.purchasedUsd := by
      generalize account.grants = before at hsame ⊢
      induction hsame with
      | nil => rfl
      | cons hgrant _ ih =>
        rw [map_cons, map_cons, ih]
        unfold AccountGrant.purchasedUsd AccountGrant.purchased
        rw [hgrant.kind, hgrant.source, hgrant.original]
    rw [heq]

theorem transferableUsd_le {transferredUsd amountUsd : Rat}
    (hpositive : 0 < amountUsd) (h : amountUsd ≤ transferableUsd credit transferredUsd) :
    amountUsd ≤ (purchasedAndRemaining credit.groups.flatten).2 ∧
      amountUsd ≤ (purchasedAndRemaining credit.groups.flatten).1 - transferredUsd ∧
      amountUsd ≤ credit.netUsd := by
  unfold transferableUsd at h
  generalize purchasedAndRemaining credit.groups.flatten = amounts at h ⊢
  obtain ⟨purchased, remaining⟩ := amounts
  dsimp only at h ⊢
  generalize havailable : Number.minimum (Number.minimum remaining (purchased - transferredUsd))
    credit.netUsd = available at h
  -- the floor to cents only lowers what is available
  have hfloor : Number.floor (available * 100) / 100 ≤ available := by
    have hle := Number.floor_le (available * 100)
    linarith
  have hamount : amountUsd ≤ available := by
    unfold Number.maximum at h
    split at h <;> linarith
  have hnet := Number.minimum_le_right (Number.minimum remaining (purchased - transferredUsd))
    credit.netUsd
  have hboth := Number.minimum_le_left (Number.minimum remaining (purchased - transferredUsd))
    credit.netUsd
  have hremaining := Number.minimum_le_left remaining (purchased - transferredUsd)
  have hpurchased := Number.minimum_le_right remaining (purchased - transferredUsd)
  rw [havailable] at hnet hboth
  exact ⟨by linarith, by linarith, by linarith⟩

def Ledger.netUsd (s : Ledger) : Rat := s.consumedUsd - s.returnedUsd

namespace UserLedger

theorem outstandingUsd_eq (s : UserLedger) : s.outstandingUsd = ∑ i ∈ s.ids, (s.ledger i).netUsd :=
  (Finset.sum_sub_distrib _ _).symm

/-- The ledgers are sound, and what is outstanding is within the bound. -/
structure Within (bound : Rat) (s : UserLedger) : Prop where
  debited  : ∀ i, i ∈ s.ids ↔ (s.ledger i).debit ≠ none
  covered  : ∀ i, (s.ledger i).Covered
  refunded : ∀ i, 0 ≤ (s.ledger i).refundedUsd
  within   : s.outstandingUsd ≤ bound

end UserLedger

variable {s : Ledger}

theorem Ledger.consumedUsd_nonneg (h : s.Covered) : 0 ≤ s.consumedUsd := by
  unfold Ledger.consumedUsd
  cases hdebit : s.debit with
  | none => exact le_refl _
  | some debit => exact (h debit hdebit).1

theorem Ledger.returnedUsd_nonneg (h : s.Covered) (hrefunded : 0 ≤ s.refundedUsd) :
    0 ≤ s.returnedUsd :=
  Number.le_minimum hrefunded (Ledger.consumedUsd_nonneg h)

theorem Ledger.netUsd_of_none (hdebit : s.debit = none) (hrefunded : 0 ≤ s.refundedUsd) :
    s.netUsd = 0 := by
  have hconsumed : s.consumedUsd = 0 := by
    unfold Ledger.consumedUsd
    rw [hdebit]
    rfl
  unfold Ledger.netUsd Ledger.returnedUsd
  rw [hconsumed]
  unfold Number.minimum
  split
  · exact sub_zero 0
  · next hlt =>
    have hle : s.refundedUsd ≤ 0 := not_lt.mp hlt
    linarith

namespace UserLedger

variable {bound : Rat} {s : UserLedger}

theorem Within.write_self (h : s.Within bound) (i : Nat) : s.write i (s.ledger i) = s := by
  unfold write
  rw [update_eq_self]
  split
  · rfl
  · next hdebit => rw [Finset.insert_eq_of_mem ((h.debited i).mpr hdebit)]

variable {ledger : Ledger}

theorem Within.outstanding_write (h : s.Within bound) (i : Nat)
    (hkept : (s.ledger i).debit ≠ none → ledger.debit ≠ none) (hrefunded : 0 ≤ ledger.refundedUsd) :
    (s.write i ledger).outstandingUsd = s.outstandingUsd - (s.ledger i).netUsd + ledger.netUsd := by
  have hnets : ∀ ids : Finset Nat, ∑ j ∈ ids, (Function.update s.ledger i ledger j).netUsd =
      ∑ j ∈ ids, Function.update (fun j => (s.ledger j).netUsd) i ledger.netUsd j := by
    intro ids
    refine Finset.sum_congr rfl fun j _ => ?_
    by_cases hj : j = i
    · rw [hj, update_self, update_self]
    · rw [update_of_ne hj, update_of_ne hj]
  rw [outstandingUsd_eq, outstandingUsd_eq]
  unfold write
  dsimp only
  rw [hnets]
  by_cases hmem : i ∈ s.ids
  · rw [if_neg (hkept ((h.debited i).mp hmem)), Finset.insert_eq_of_mem hmem,
      Finset.sum_update_of_mem hmem, Finset.sdiff_singleton_eq_erase,
      ← Finset.add_sum_erase s.ids (fun j => (s.ledger j).netUsd) hmem]
    ring
  · have hnone : (s.ledger i).debit = none := by
      by_contra hdebit
      exact hmem ((h.debited i).mpr hdebit)
    rw [Ledger.netUsd_of_none hnone (h.refunded i)]
    by_cases hdebit : ledger.debit = none
    · rw [if_pos hdebit, Finset.sum_update_of_notMem hmem, Ledger.netUsd_of_none hdebit hrefunded]
      ring
    · rw [if_neg hdebit, Finset.sum_insert hmem, update_self,
        Finset.sum_update_of_notMem hmem]
      ring

theorem Within.write (h : s.Within bound) (i : Nat)
    (hkept : (s.ledger i).debit ≠ none → ledger.debit ≠ none) (hcovered : ledger.Covered)
    (hrefunded : 0 ≤ ledger.refundedUsd)
    (hwithin : s.outstandingUsd - (s.ledger i).netUsd + ledger.netUsd ≤ bound) :
    (s.write i ledger).Within bound := by
  have hledger : ∀ j, (s.write i ledger).ledger j = if j = i then ledger else s.ledger j :=
    fun j => update_apply _ _ _ _
  refine ⟨fun j => ?_, fun j => ?_, fun j => ?_, ?_⟩
  · rw [hledger]
    unfold UserLedger.write
    dsimp only
    by_cases hj : j = i
    · subst hj
      rw [if_pos rfl]
      by_cases hdebit : ledger.debit = none
      · rw [if_pos hdebit, h.debited]
        exact ⟨fun hold => absurd hdebit (hkept hold), fun hnew => absurd hdebit hnew⟩
      · rw [if_neg hdebit]
        exact ⟨fun _ => hdebit, fun _ => Finset.mem_insert_self _ _⟩
    · rw [if_neg hj, ← h.debited]
      split
      · rfl
      · rw [Finset.mem_insert, or_iff_right hj]
  · rw [hledger]
    split
    · exact hcovered
    · exact h.covered j
  · rw [hledger]
    split
    · exact hrefunded
    · exact h.refunded j
  · rw [h.outstanding_write i hkept hrefunded]
    exact hwithin

theorem Within.debit (h : s.Within bound) (i : Nat) {debit : Debit}
    (hnew : (s.ledger i).debit = none) (hnonneg : 0 ≤ debit.consumeUsd)
    (hle : debit.consumeUsd ≤ debit.amountUsd) (hfits : debit.amountUsd ≤ bound - s.outstandingUsd) :
    (s.write i { s.ledger i with debit := some debit }).Within bound := by
  have hcovered : Ledger.Covered { s.ledger i with debit := some debit } := by
    intro debit' hdebit'
    rw [← Option.some.inj hdebit']
    exact ⟨hnonneg, hle⟩
  refine h.write i (fun _ => nofun) hcovered (h.refunded i) ?_
  rw [Ledger.netUsd_of_none hnew (h.refunded i)]
  have hreturned := Ledger.returnedUsd_nonneg hcovered (h.refunded i)
  unfold Ledger.netUsd
  have hconsumed : Ledger.consumedUsd { s.ledger i with debit := some debit } = debit.consumeUsd := rfl
  rw [hconsumed]
  linarith

end UserLedger

end Cohub.Wallet
