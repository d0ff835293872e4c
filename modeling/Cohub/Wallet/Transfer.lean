import Cohub.Lib.LockedRuns
import Cohub.Lib.Number

/-! # Transfers to a Space wallet

    A transfer debits a user and grants the amount to a Space wallet in pieces,
    or gives back what it could not grant.  This file has the transfer's
    programs as the code writes them, over the billing operations they call,
    and the ledger those operations keep for one transfer.

    The ledger keeps one entry per operation of the transfer (the debit, the
    credit of each index, the refund).  An operation that failed may have taken
    effect, and one that took effect before has none. -/

namespace Cohub.Wallet

open LockedRuns

/-! ## Plans -/

def MAX_PIECES : Nat := 16

def SPACE_WALLET_TRANSFER_MIN_USD : Rat := 1

def SPACE_WALLET_TRANSFER_MAX_USD : Rat := 5000

/-- Cents, by `Math.round`. -/
def cents (amountUsd : Rat) : Rat := Number.round (amountUsd * 100)

def usd (value : Rat) : Rat := cents value / 100

/-- `BillingCreditDenomination`. -/
structure Denomination where
  key       : String
  amountUsd : Rat
  deriving DecidableEq

/-- The inner loop of the plan: the denomination as often as it fits.  Each
    round adds a piece, so that `MAX_PIECES` rounds end it. -/
def addPieces (denomination : Denomination) :
    Nat → List Denomination → Rat → List Denomination × Rat
  | 0, pieces, remainingCents => (pieces, remainingCents)
  | rounds + 1, pieces, remainingCents =>
      if 0 < cents denomination.amountUsd ∧ cents denomination.amountUsd ≤ remainingCents ∧
          pieces.length < MAX_PIECES then
        addPieces denomination rounds (pieces ++ [denomination])
          (remainingCents - cents denomination.amountUsd)
      else (pieces, remainingCents)

/-- The outer loop of the plan. -/
def addDenominations : List Denomination → List Denomination → Rat → List Denomination × Rat
  | [], pieces, remainingCents => (pieces, remainingCents)
  | denomination :: rest, pieces, remainingCents =>
      let (pieces, remainingCents) := addPieces denomination MAX_PIECES pieces remainingCents
      addDenominations rest pieces remainingCents

def planSpaceWalletTransfer (amountUsd : Rat) (denominations : List Denomination) :
    Option (List Denomination) :=
  let (pieces, remainingCents) := addDenominations denominations [] (cents amountUsd)
  if remainingCents = 0 ∧ 0 < pieces.length then some pieces else none

/-- `BillingCreditGrantStatus`. -/
structure CreditGrant where
  grantKind : Option String
  sourceType : Option String
  status : String
  availableNow : Option Bool
  remainingAmountUsd : Rat
  originalAmountUsd : Option Rat

/-- `BillingCreditStatus`. -/
structure CreditStatus where
  netUsd : Rat
  groups : List (List CreditGrant)

def CreditGrant.purchased (grant : CreditGrant) : Bool :=
  grant.grantKind = some "purchased" ∧ grant.sourceType = some "order"

def purchasedAndRemaining : List CreditGrant → Rat × Rat
  | [] => (0, 0)
  | grant :: rest =>
      let (purchased, remaining) := purchasedAndRemaining rest
      if grant.purchased then
        (grant.originalAmountUsd.getD grant.remainingAmountUsd + purchased,
          if grant.status = "active" ∧ grant.availableNow ≠ some false then
            grant.remainingAmountUsd + remaining
          else remaining)
      else (purchased, remaining)

def transferableUsd (credit : CreditStatus) (transferredUsd : Rat) : Rat :=
  let (purchased, remaining) := purchasedAndRemaining credit.groups.flatten
  let available :=
    Number.minimum (Number.minimum remaining (purchased - transferredUsd)) credit.netUsd
  Number.maximum 0 (Number.floor (available * 100) / 100)

/-! ## Failures -/

/-- The codes of `SpaceWalletTransferError`. -/
inductive TransferErrorCode where
  | transferBusy
  | transferUnavailable
  | transferAmountInvalid
  | transferInsufficient
  | transferConflict
  deriving DecidableEq

inductive Failure where
  | transferError (code : TransferErrorCode) (message : String)
  /-- Any other error, with its `status` if that is a number. -/
  | other (status : Option Rat)
  deriving DecidableEq

def isPermanent : Failure → Bool
  | .other (some status) => 400 ≤ status ∧ status < 500 ∧ status ≠ 408 ∧ status ≠ 429
  | _ => false

def busy : Failure := .transferError .transferBusy "Another transfer is in progress"

/-! ## The ledger -/

/-- `BillingUsageConsumption`. -/
structure Consumption where
  amountUsd   : Rat
  reversedUsd : Rat

/-- `BillingTransactionTotals`. -/
structure Totals where
  grantUsd    : Rat
  consumeUsd  : Rat
  reversalUsd : Rat

/-- A debit, and how much of it credits covered. -/
structure Debit where
  amountUsd  : Rat
  consumeUsd : Rat

structure Ledger where
  debit  : Option Debit
  /-- The amount that each credit operation granted, by its index. -/
  grants : List (Nat × Rat)
  refund : Option Rat

def Ledger.empty : Ledger := { debit := none, grants := [], refund := none }

def total : List (Nat × Rat) → Rat
  | [] => 0
  | (_, amount) :: rest => amount + total rest

def Ledger.creditedUsd (s : Ledger) : Rat := total s.grants

def Ledger.refundedUsd (s : Ledger) : Rat := s.refund.getD 0

def Ledger.grantUsd (s : Ledger) (index : Nat) : Rat := (s.grants.lookup index).getD 0

/-- What the programs ask.  Only the first three are about the transfer's own
    operations; the world answers the others as it likes. -/
inductive Query where
  | usageConsumption
  | debitTotals
  | creditTotals (index : Nat)
  | creditDenominations
  | creditStatus
  | usageTotals
  | walletUsable
  | preflightUsage (estimatedAmountUsd : Rat)
  | ensureCustomer
  | scheduleRecovery

abbrev Query.Value : Query → Type
  | usageConsumption => Option Consumption
  | debitTotals => Totals
  | creditTotals _ => Totals
  | creditDenominations => List Denomination
  | creditStatus => CreditStatus
  | usageTotals => Totals
  | walletUsable => Bool
  | preflightUsage _ => Bool
  | ensureCustomer => Unit
  | scheduleRecovery => Unit

/-- The billing operations that change the ledger. -/
inductive Mutation where
  | recordUsage (amountUsd : Rat)
  | grantCredits (index : Nat) (benefit : Denomination)
  | reverseUsage (amountUsd : Rat)

def Ledger.consumption (s : Ledger) : Option Consumption :=
  s.debit.map fun debit => { amountUsd := debit.amountUsd, reversedUsd := s.refundedUsd }

def Answers (s : Ledger) : (q : Query) → Except Failure q.Value → Prop
  | .usageConsumption, .ok consumption => consumption = s.consumption
  | .debitTotals, .ok totals => ∀ debit, s.debit = some debit → totals.consumeUsd = debit.consumeUsd
  | .creditTotals index, .ok totals => totals.grantUsd = s.grantUsd index
  | _, _ => True

/-- An operation takes effect, if it has not before. -/
inductive Applied (s : Ledger) : Mutation → Ledger → Prop where
  | recordUsage (amountUsd consumeUsd : Rat) (hnew : s.debit = none) :
      Applied s (.recordUsage amountUsd) { s with debit := some { amountUsd, consumeUsd } }
  | grantCredits (index : Nat) (benefit : Denomination) (hnew : s.grants.lookup index = none) :
      Applied s (.grantCredits index benefit)
        { s with grants := s.grants ++ [(index, benefit.amountUsd)] }
  | reverseUsage (amountUsd : Rat) (hnew : s.refund = none) :
      Applied s (.reverseUsage amountUsd) { s with refund := some amountUsd }

/-- The operation has taken effect before. -/
def Ledger.has (s : Ledger) : Mutation → Prop
  | .recordUsage _ => s.debit ≠ none
  | .grantCredits index _ => s.grants.lookup index ≠ none
  | .reverseUsage _ => s.refund ≠ none

/-- A call fails without effect, or its operation takes effect, or has taken
    effect before; in the last two cases too it may fail. -/
inductive Effect (s : Ledger) (m : Mutation) : Ledger → Except Failure Unit → Prop where
  | failed (e : Failure) : Effect s m s (.error e)
  | applied (s' : Ledger) (h : Applied s m s') (outcome) : Effect s m s' outcome
  | repeated (h : s.has m) (outcome) : Effect s m s outcome

def billing : World Query (fun q => Except Failure q.Value) Mutation Failure Ledger where
  answers := Answers
  effect := Effect

/-! ## The programs -/

abbrev Call (α : Type) :=
  LockedRuns.Call Query (fun q => Except Failure q.Value) Mutation Failure α

def getUsageConsumption : Call (Option Consumption) := Call.read Query.usageConsumption

/-- `sumTransactions` for the debit. -/
def sumDebit : Call Totals := Call.read Query.debitTotals

/-- `sumTransactions` for the credit with this index. -/
def sumCredit (index : Nat) : Call Totals := Call.read (Query.creditTotals index)

def listCreditDenominations : Call (List Denomination) := Call.read Query.creditDenominations

def getCreditStatus : Call CreditStatus := Call.read Query.creditStatus

/-- `sumTransactions` for all transfers of the user. -/
def sumUsage : Call Totals := Call.read Query.usageTotals

def walletUsable : Call Bool := Call.read Query.walletUsable

def preflightUsage (estimatedAmountUsd : Rat) : Call Bool :=
  Call.read (Query.preflightUsage estimatedAmountUsd)

def ensureCustomer : Call Unit := Call.read Query.ensureCustomer

def scheduleRecovery : Call Unit := Call.read Query.scheduleRecovery

/-- `SpaceWalletTransferState`. -/
inductive TransferState where
  | none
  | processing
  | completed
  | refunded
  deriving DecidableEq

/-- `SpaceWalletTransferStatus`. -/
structure TransferStatus where
  state       : TransferState
  amountUsd   : Rat
  creditedUsd : Rat
  refundedUsd : Rat
  deriving DecidableEq

def noTransfer : TransferStatus :=
  { state := .none, amountUsd := 0, creditedUsd := 0, refundedUsd := 0 }

def pending (amountUsd : Rat) : TransferStatus :=
  { state := .processing, amountUsd, creditedUsd := 0, refundedUsd := 0 }

def Rat.isInteger (a : Rat) : Bool := Number.floor a = a

def denominations : Call (List Denomination) := do
  let list ← listCreditDenominations
  return list.filter fun item => Rat.isInteger item.amountUsd ∧ 0 < item.amountUsd

/-- The credits that have landed: how many, and their sum. -/
structure Landed where
  count : Nat
  usd   : Rat

/-- The loop of `landed`, with the rounds it has left. -/
def countLanded : Nat → Nat → Rat → Call Landed
  | 0, count, total => return { count, usd := usd total }
  | rounds + 1, count, total => do
      let totals ← sumCredit count
      if totals.grantUsd ≤ 0 then return { count, usd := usd total }
      else countLanded rounds (count + 1) (total + totals.grantUsd)

def landed : Call Landed := countLanded MAX_PIECES 0 0

def status : Call TransferStatus := do
  match ← getUsageConsumption with
  | none => return noTransfer
  | some consumption =>
      let credited := (← landed).usd
      let state :=
        if 0 < consumption.reversedUsd then TransferState.refunded
        else if consumption.amountUsd ≤ credited then .completed
        else .processing
      return {
        state, amountUsd := consumption.amountUsd, creditedUsd := credited,
        refundedUsd := consumption.reversedUsd }

def refund (amountUsd : Rat) : Call TransferStatus := do
  let credited := (← landed).usd
  let remainder := usd (amountUsd - credited)
  if 0 < remainder then
    match ← Call.guarded (.reverseUsage remainder) with
    | .error e => throw e
    | .ok () =>
        return { state := .refunded, amountUsd, creditedUsd := credited, refundedUsd := remainder }
  else
    return {
      state := .completed, amountUsd, creditedUsd := credited,
      refundedUsd := Number.maximum 0 remainder }

def completed (amountUsd : Rat) : TransferStatus :=
  { state := .completed, amountUsd, creditedUsd := amountUsd, refundedUsd := 0 }

/-- The loop of `settle` over the pieces of the plan. -/
def grantPieces (amountUsd : Rat) : Nat → List Denomination → Call TransferStatus
  | _, [] => return completed amountUsd
  | index, piece :: rest => do
      match ← Call.guarded (.grantCredits index piece) with
      | .error e => if isPermanent e then refund amountUsd else throw e
      | .ok () => grantPieces amountUsd (index + 1) rest

inductive Mode where
  | credit
  | refund
  deriving DecidableEq

def settle (mode : Mode) : Call TransferStatus := do
  match ← getUsageConsumption with
  | none => return noTransfer
  | some consumption =>
      if 0 < consumption.reversedUsd then status
      else if mode = .refund then refund consumption.amountUsd
      else
        -- a debit that credits do not cover never funds a wallet
        let covered ← sumDebit
        if covered.consumeUsd < consumption.amountUsd then refund consumption.amountUsd
        else
          let done ← landed
          let remaining := usd (consumption.amountUsd - done.usd)
          if remaining ≤ 0 then return completed consumption.amountUsd
          else
            match planSpaceWalletTransfer remaining (← denominations) with
            | none => refund consumption.amountUsd
            | some plan =>
                if MAX_PIECES < done.count + plan.length then refund consumption.amountUsd
                else grantPieces consumption.amountUsd done.count plan

def trySettle (amountUsd : Rat) : Call TransferStatus :=
  tryCatch (settle .credit) fun _ => return pending amountUsd

def allowance : Call Rat := do
  let credit ← getCreditStatus
  let totals ← sumUsage
  return transferableUsd credit (totals.consumeUsd - totals.reversalUsd)

/-- `start` for a transfer that has been debited before. -/
def startAgain (amountUsd : Rat) (existing : Consumption) : Call TransferStatus := do
  if existing.amountUsd ≠ amountUsd then
    throw (.transferError .transferConflict "This transfer ID was used for a different amount")
  else if 0 < existing.reversedUsd then status
  else
    scheduleRecovery
    trySettle amountUsd

/-- `start` for a transfer that has not been debited.  The three reads that the
    code makes at once come one after the other. -/
def startFirst (amountUsd : Rat) : Call TransferStatus := do
  let plan := planSpaceWalletTransfer amountUsd (← denominations)
  let available ← allowance
  let usable ← walletUsable
  if plan = none ∨ usable = false then
    throw (.transferError .transferUnavailable "This Space wallet cannot accept this transfer")
  else if available < amountUsd then
    throw (.transferError .transferInsufficient "Not enough purchased balance to transfer")
  else
    let allowed ← preflightUsage amountUsd
    if allowed = false then
      throw (.transferError .transferInsufficient "Not enough balance to transfer")
    else
      ensureCustomer
      scheduleRecovery
      match ← Call.guarded (.recordUsage amountUsd) with
      | .error e => if isPermanent e then throw e else return pending amountUsd
      | .ok () => trySettle amountUsd

def start (configured : Bool) (amountUsd : Rat) : Call TransferStatus :=
  if configured = false then
    throw (.transferError .transferUnavailable "Space wallet transfers are unavailable")
  else if Rat.isInteger amountUsd = false ∨ amountUsd < SPACE_WALLET_TRANSFER_MIN_USD ∨
      SPACE_WALLET_TRANSFER_MAX_USD < amountUsd then
    throw (.transferError .transferAmountInvalid
      "Amount must be a whole number of USD between 1 and 5000")
  else
    Call.withLock busy do
      match ← getUsageConsumption with
      | some existing => startAgain amountUsd existing
      | none => startFirst amountUsd

/-- `recover`, with the attempts it has left after this one. -/
def recoverWith (mode : Mode) : Nat → Call TransferStatus
  | 0 => Call.withLock busy (settle mode)
  | attempts + 1 =>
      tryCatch (Call.withLock busy (settle mode)) fun e =>
        match e with
        | .transferError .transferBusy _ => recoverWith mode attempts
        | _ => throw e

def recover (mode : Mode) : Call TransferStatus := recoverWith mode 5

/-- The programs that run for a transfer. -/
inductive Started :
    Prog Query (fun q => Except Failure q.Value) Mutation Failure (Except Failure TransferStatus) →
      Prop where
  | start (configured : Bool) (amountUsd : Rat) : Started (start configured amountUsd).run
  | status : Started status.run
  | recover (mode : Mode) : Started (recover mode).run

end Cohub.Wallet
