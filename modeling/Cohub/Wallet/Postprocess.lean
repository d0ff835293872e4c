import Cohub.Lib.Mealy

/-! # Postprocessing a message

    A job charges what a message used and adds it to the hourly statistics.  It
    may be enqueued any number of times, and each run may be tried again, run
    beside others, and die between any two steps.

    A message whose space had a wallet when it was made is charged by one run
    only, the one that claims it, to the space or to the user.  Other messages
    are charged to the user by any run, under an operation id that the billing
    service applies once. -/

namespace Cohub.Wallet.Postprocess

/-! ## Messages -/

inductive Role where
  | user
  | assistant
  | system
  deriving DecidableEq

/-- Numbers that are not finite are left out. -/
structure UsageCost where
  input : Option Rat
  output : Option Rat
  cacheRead : Option Rat
  cacheWrite : Option Rat
  total : Option Rat
  deriving DecidableEq

structure Usage where
  input : Option Rat
  output : Option Rat
  cacheRead : Option Rat
  cacheWrite : Option Rat
  totalTokens : Option Rat
  cost : Option UsageCost
  deriving DecidableEq

inductive CallStatus where
  | succeeded
  | failed
  deriving DecidableEq

structure ImageToTextCallRecord where
  sourceKey : String
  provider  : String
  model     : String
  status    : CallStatus
  usage     : Option Usage

/-- The numbers of `meta.compaction`. -/
structure Compaction where
  total : Option Rat
  succeeded : Option Rat
  failed : Option Rat
  providerCallCount : Option Rat

/-- What no run changes of a message. -/
structure SessionMessage where
  id : String
  sessionId : String
  spaceId : String
  role : Role
  messageKind : Option String
  /-- `meta.runtime` is `local`. -/
  runtimeLocal : Bool
  errorMessage : Option String
  stopReason : Option String
  provider : Option String
  model : Option String
  usage : Option Usage
  calls : List ImageToTextCallRecord
  compaction : Option Compaction
  walletBillingEligible : Bool
  createdAt : Option Int

def isLlmUsageMessage (message : SessionMessage) : Bool :=
  message.role = .assistant || (message.role = .system && message.messageKind = some "compacted")

def isSuccessfulMessage (message : SessionMessage) : Bool :=
  (message.errorMessage.getD "") = "" && message.stopReason ≠ some "error" && message.stopReason ≠ some "aborted"

/-! ## Charges -/

/-- A number of dollars rounded to eight digits, in units of the last of them. -/
def toFixed8 (amount : Rat) : Int := (amount.num * 200000000 + amount.den) / (2 * amount.den)

def amountUsd (usage : Option Usage) : Int :=
  match (usage.bind Usage.cost).bind UsageCost.total with
  | some amount => if 0 < amount.num then toFixed8 amount else 0
  | none => 0

/-- One usage part.  Part 0 is the message's own, the others are its calls. -/
structure Charge where
  part        : Nat
  operationId : String
  amount      : Int
  deriving DecidableEq

def operationId (message : SessionMessage) : Nat → String
  | 0 => "llm:" ++ message.id
  | k + 1 => "llm:image-to-text:" ++ message.id ++ ":" ++ ((message.calls[k]?.map (·.sourceKey)).getD "")

/-- `recordBillingUsage` up to the call of the billing service. -/
def chargeOf (message : SessionMessage) (configured : Bool) (userId : Option String) (part : Nat)
    (usage : Option Usage) : Option Charge :=
  if userId.isNone then none
  else if amountUsd usage ≤ 0 || !configured then none
  else some ⟨part, operationId message part, amountUsd usage⟩

def mainCharge (message : SessionMessage) (configured : Bool) (userId : Option String) : Option Charge :=
  if message.runtimeLocal || !isSuccessfulMessage message then none
  else chargeOf message configured userId 0 message.usage

def callCharge (message : SessionMessage) (configured : Bool) (userId : Option String)
    (call : ImageToTextCallRecord × Nat) : Option Charge :=
  if call.1.status = .succeeded then chargeOf message configured userId (call.2 + 1) call.1.usage else none

def auxiliaryCharges (message : SessionMessage) (configured : Bool) (userId : Option String) : List Charge :=
  if message.runtimeLocal then [] else message.calls.zipIdx.filterMap (callCharge message configured userId)

/-! ## Statistics -/

def finiteNumberOrZero (value : Option Rat) : Rat := value.getD (mkRat 0 1)

def positiveInteger (value : Option Rat) : Option Nat :=
  value.bind fun value => if value.den = 1 && 0 < value.num then some value.num.toNat else none

def nonNegativeInteger (value : Option Rat) : Option Nat :=
  value.bind fun value => if value.den = 1 && 0 ≤ value.num then some value.num.toNat else none

structure LlmRequestStats where
  requestCount : Nat
  successCount : Nat
  errorCount   : Nat
  deriving DecidableEq

/-- The compaction record of a compaction's message. -/
def compactionOf (message : SessionMessage) : Option Compaction :=
  if message.role = .system && message.messageKind = some "compacted" then message.compaction else none

/-- The counts of the provider's calls, where they add up. -/
def providerCalls (compaction : Compaction) : Option LlmRequestStats :=
  match positiveInteger compaction.total, nonNegativeInteger compaction.succeeded,
    nonNegativeInteger compaction.failed with
  | some requestCount, some successCount, some errorCount =>
      if successCount + errorCount = requestCount then some ⟨requestCount, successCount, errorCount⟩ else none
  | _, _, _ => none

def resolveLlmRequestStats (message : SessionMessage) : LlmRequestStats :=
  match (compactionOf message).bind providerCalls with
  | some stats => stats
  | none =>
      let requestCount := (((compactionOf message).bind fun c => positiveInteger c.providerCallCount)).getD 1
      if isSuccessfulMessage message then ⟨requestCount, requestCount, 0⟩ else ⟨requestCount, 0, requestCount⟩

/-- What is added to the row of its first six fields. -/
structure Increment where
  bucketStartAt : Int
  userId : Option String
  spaceId : String
  sessionId : String
  provider : Option String
  model : Option String
  stats : LlmRequestStats
  inputTokens : Rat
  outputTokens : Rat
  cacheRead : Rat
  cacheWrite : Rat
  totalTokens : Rat
  costInput : Rat
  costOutput : Rat
  costRead : Rat
  costWrite : Rat
  costTotal : Rat
  deriving DecidableEq

def HOUR_MS : Int := 3600000

def increment (message : SessionMessage) (userId : Option String) (now : Int) (provider model : Option String)
    (usage : Option Usage) (stats : LlmRequestStats) : Increment :=
  let createdAt := message.createdAt.getD now
  let cost := usage.bind Usage.cost
  { bucketStartAt := createdAt - createdAt % HOUR_MS
    userId := userId
    spaceId := message.spaceId
    sessionId := message.sessionId
    provider := provider
    model := model
    stats := stats
    inputTokens := finiteNumberOrZero (usage.bind Usage.input)
    outputTokens := finiteNumberOrZero (usage.bind Usage.output)
    cacheRead := finiteNumberOrZero (usage.bind Usage.cacheRead)
    cacheWrite := finiteNumberOrZero (usage.bind Usage.cacheWrite)
    totalTokens := finiteNumberOrZero (usage.bind Usage.totalTokens)
    costInput := finiteNumberOrZero (cost.bind UsageCost.input)
    costOutput := finiteNumberOrZero (cost.bind UsageCost.output)
    costRead := finiteNumberOrZero (cost.bind UsageCost.cacheRead)
    costWrite := finiteNumberOrZero (cost.bind UsageCost.cacheWrite)
    costTotal := finiteNumberOrZero (cost.bind UsageCost.total) }

def callStats : CallStatus → LlmRequestStats
  | .succeeded => ⟨1, 1, 0⟩
  | .failed => ⟨1, 0, 1⟩

/-- The rows of one aggregation. -/
def incrementsOf (message : SessionMessage) (userId : Option String) (now : Int) : List Increment :=
  increment message userId now message.provider message.model message.usage (resolveLlmRequestStats message) ::
    message.calls.map fun call =>
      increment message userId now (some call.provider) (some call.model) call.usage (callStats call.status)

/-! ## Settling a charge -/

structure Config where
  /-- The personal billing service is configured. -/
  billing : Bool
  /-- The service of the wallets is. -/
  wallet  : Bool
  deriving DecidableEq

inductive Payer where
  | personal
  | spaceWallet
  deriving DecidableEq

/-- Where a charge goes. -/
inductive Route where
  /-- An error is the caller's. -/
  | to (payer : Payer)
  /-- An error is logged, since the debit may have taken effect. -/
  | toOnce (payer : Payer)
  | skipped
  | throws
  deriving DecidableEq

/-- `settle`, with what the preview says of the wallet. -/
def settle (config : Config) (payer : Option Payer) (spaceId : Option String) (retryOnly : Bool) (amount : Int)
    (walletPays : Bool) : Route :=
  match payer with
  | some .personal => .to .personal
  | some .spaceWallet => if (spaceId.getD "") = "" then .throws else .to .spaceWallet
  | none =>
      if (spaceId.getD "") = "" || !config.billing || !config.wallet || amount ≤ 0 then .to .personal
      else if retryOnly then .skipped
      else .toOnce (if walletPays then .spaceWallet else .personal)

/-! ## Runs -/

inductive Phase where
  /-- The message has been read. -/
  | loaded
  /-- The charges that are left.  The message's own comes first, the others in
      any order, also once one of them has failed. -/
  | charging (main : Option Charge) (auxiliary : List Charge) (broken : Bool)
  /-- Turns are stopped and a referral is rewarded. -/
  | effects
  | aggregating
  | completed
  | skipped
  | failed
  deriving DecidableEq

structure Run where
  config : Config
  /-- The job was tried before, or its processing started before. -/
  retryOnly : Bool
  userId : Option String
  /-- The message had been attempted when it was read. -/
  alreadyAttempted : Bool
  /-- It had been aggregated. -/
  aggregated : Bool
  /-- The run has claimed the message. -/
  claimed : Bool
  phase : Phase
  deriving DecidableEq

structure World where
  walletBillingAttempted : Bool
  usageAggregated : Bool
  /-- The charges that took effect. -/
  ledger : List (Payer × Charge)
  /-- What was added to the hourly statistics. -/
  statistics : List Increment
  runs : List Run

def World.start : World := ⟨false, false, [], [], []⟩

/-- How the call of a billing service ends. -/
inductive Outcome where
  | returns
  | throws (debited : Bool)
  deriving DecidableEq

inductive Input where
  | start (config : Config) (attemptsMade attemptsStarted : Nat) (userId : Option String)
  | decide (i : Nat)
  /-- The first charge, or the one of the others at `k`. -/
  | pay (i k : Nat) (walletPays : Bool) (outcome : Outcome)
  | charged (i : Nat)
  | effects (i : Nat) (succeeds : Bool)
  | aggregate (i : Nat) (now : Int)
  | die (i : Nat)
  deriving DecidableEq

def World.setRun (s : World) (i : Nat) (run : Run) : World := { s with runs := s.runs.set i run }

def World.goTo (s : World) (i : Nat) (run : Run) (phase : Phase) : World := s.setRun i { run with phase := phase }

/-- Each service applies an operation once. -/
def record (ledger : List (Payer × Charge)) (payer : Payer) (charge : Charge) : List (Payer × Charge) :=
  if ledger.any fun entry => entry.1 = payer && entry.2.operationId = charge.operationId then ledger
  else ledger ++ [(payer, charge)]

section

variable (message : SessionMessage)

def walletMode (run : Run) : Bool := message.walletBillingEligible && run.config.billing && run.config.wallet

/-- The space that `recordBilling` is given. -/
def billedSpace : Option String := if message.walletBillingEligible then some message.spaceId else none

def startRun (s : World) (config : Config) (attemptsMade attemptsStarted : Nat) (userId : Option String) : World :=
  { s with
    runs := s.runs ++ [⟨config, attemptsMade > 0 || attemptsStarted > 1, userId, s.walletBillingAttempted,
      s.usageAggregated, false, if isLlmUsageMessage message then .loaded else .skipped⟩] }

def chargingPhase (run : Run) : Phase :=
  .charging (mainCharge message run.config.billing run.userId)
    (auxiliaryCharges message run.config.billing run.userId) false

/-- `shouldBill`, with the claim. -/
def decide (s : World) (i : Nat) (run : Run) : World :=
  if run.aggregated || run.alreadyAttempted then s.goTo i run .effects
  else if walletMode message run then
    if s.usageAggregated || s.walletBillingAttempted then s.goTo i run .effects
    else
      ({ s with walletBillingAttempted := true } : World).setRun i
        { run with claimed := true, phase := chargingPhase message run }
  else s.goTo i run (chargingPhase message run)

/-- The ledger after a charge, and whether the charge throws. -/
def payCharge (ledger : List (Payer × Charge)) (run : Run) (charge : Charge) (walletPays : Bool)
    (outcome : Outcome) : List (Payer × Charge) × Bool :=
  match settle run.config none (billedSpace message) run.retryOnly charge.amount walletPays with
  | .to payer =>
      match outcome with
      | .returns => (record ledger payer charge, false)
      | .throws debited => (if debited then record ledger payer charge else ledger, true)
  | .toOnce payer =>
      match outcome with
      | .returns => (record ledger payer charge, false)
      | .throws debited => (if debited then record ledger payer charge else ledger, false)
  | .skipped => (ledger, false)
  | .throws => (ledger, true)

def payMain (s : World) (i : Nat) (run : Run) (charge : Charge) (auxiliary : List Charge) (walletPays : Bool)
    (outcome : Outcome) : World :=
  let result := payCharge message s.ledger run charge walletPays outcome
  -- The others are not started if this one throws.
  ({ s with ledger := result.1 } : World).goTo i run
    (if result.2 then .failed else .charging none auxiliary false)

def payAuxiliary (s : World) (i : Nat) (run : Run) (charge : Charge) (auxiliary : List Charge) (broken walletPays : Bool)
    (outcome : Outcome) : World :=
  let result := payCharge message s.ledger run charge walletPays outcome
  ({ s with ledger := result.1 } : World).goTo i run (.charging none auxiliary (broken || result.2))

def pay (s : World) (i k : Nat) (run : Run) (walletPays : Bool) (outcome : Outcome) : World :=
  match run.phase with
  | .charging (some charge) auxiliary _ => payMain message s i run charge auxiliary walletPays outcome
  | .charging none auxiliary broken =>
      match auxiliary[k]? with
      | some charge => payAuxiliary message s i run charge (auxiliary.eraseIdx k) broken walletPays outcome
      | none => s
  | _ => s

/-- The transaction that claims the aggregation. -/
def aggregate (s : World) (i : Nat) (run : Run) (now : Int) : World :=
  if run.aggregated || s.usageAggregated then s.goTo i run .completed
  else
    ({ s with
      usageAggregated := true
      statistics := s.statistics ++ incrementsOf message run.userId now } : World).goTo i run .completed

def stepRun (s : World) (i : Nat) (run : Run) : Input → World
  | .decide _ => if run.phase = .loaded then decide message s i run else s
  | .pay _ k walletPays outcome => pay message s i k run walletPays outcome
  | .charged _ =>
      match run.phase with
      | .charging none [] broken => s.goTo i run (if broken then .failed else .effects)
      | _ => s
  | .effects _ succeeds => if run.phase = .effects then s.goTo i run (if succeeds then .aggregating else .failed) else s
  | .aggregate _ now => if run.phase = .aggregating then aggregate message s i run now else s
  | .die _ => s.goTo i run .failed
  | .start _ _ _ _ => s

def Input.run : Input → Nat
  | .start _ _ _ _ => 0
  | .decide i => i
  | .pay i _ _ _ => i
  | .charged i => i
  | .effects i _ => i
  | .aggregate i _ => i
  | .die i => i

def step (s : World) (input : Input) : World :=
  match input with
  | .start config attemptsMade attemptsStarted userId => startRun message s config attemptsMade attemptsStarted userId
  | input =>
      match s.runs[input.run]? with
      | some run => stepRun message s input.run run input
      | none => s

def postprocess : Mealy World Input Unit := ⟨fun s input => (step message s input, [])⟩

end

end Cohub.Wallet.Postprocess
