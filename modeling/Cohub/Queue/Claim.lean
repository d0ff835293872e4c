import Cohub.Lib.Text
import Cohub.Context.Reader

/-! # Claiming the next batch of a session

    The transaction of `apps/agent/src/batch.ts` that takes queued Turns for an
    execution, and the function that finds them again.  A worker holds the row
    lock of the session for all of it, so a claim is one function from the
    Turns of the session to the Turns after it. -/

namespace Cohub.Queue

open Table
open Cohub.Context (TurnStatus TurnIntent)

/-! ## Turns -/

inductive ExecutionKind where
  | agent
  | directGeneration
  | note
  deriving DecidableEq

/-- A row of `session_turns`, of one session.  Times are in milliseconds. -/
structure TurnRow where
  id : String
  userUuid : Option String
  sequence : Int
  executionKind : ExecutionKind
  status : TurnStatus
  intent : TurnIntent
  userContent : Json
  metadata : Option Json
  updatedAt : Option Int
  deriving DecidableEq

/-- The clocks that a transaction reads. -/
structure Clock where
  dateNow     : Int
  toISOString : String
  now         : Int

def asRecord : Option Json → Fields
  | some value => value.fields
  | none => []

/-- `coalesce(meta, '{}') || patch`: what is no object becomes an array. -/
def patched (metadata : Option Json) (patch : Fields) : Json :=
  match metadata with
  | none => .obj patch
  | some (.obj fields) => .obj (Fields.assign fields patch)
  | some (.arr items) => .arr (items ++ [.obj patch])
  | some scalar => .arr [scalar, .obj patch]

def getMetaString (turn : TurnRow) (key : String) : Option String :=
  match (asRecord turn.metadata).get? key with
  | some (.str value) => if Text.trim value = "" then none else some (Text.trim value)
  | _ => none

def getUserMessageId (turn : TurnRow) : String :=
  ((getMetaString turn "userMessageId").or (getMetaString turn "messageId")).getD turn.id

/-- An update of the rows that a condition selects. -/
def updateRows (p : TurnRow → Bool) (f : TurnRow → TurnRow) (turns : List TurnRow) : List TurnRow :=
  turns.map fun turn => if p turn then f turn else turn

def isActive (turn : TurnRow) : Bool := turn.status = .running ∨ turn.status = .abortRequested

def isActiveAgent (turn : TurnRow) : Bool := turn.executionKind = .agent ∧ isActive turn

def isQueuedAgent (turn : TurnRow) : Bool := turn.executionKind = .agent ∧ turn.status = .queued

/-! ## Stale Turns -/

inductive HarnessKind where
  | cohub
  | pi
  | codex
  | claude
  | workbuddy
  | cursor
  deriving DecidableEq

def resolveHarness (metadata : Option Json) : HarnessKind :=
  match (asRecord metadata).get? "harness" with
  | some (.str "pi") => .pi
  | some (.str "codex") => .codex
  | some (.str "claude") => .claude
  | some (.str "workbuddy") => .workbuddy
  | some (.str "cursor") => .cursor
  | _ => .cohub

def isStaleActiveTurn (staleActiveTurnMs : Int) (clock : Clock) (turn : TurnRow) : Bool :=
  ∃ updatedAt ∈ turn.updatedAt, staleActiveTurnMs < clock.dateNow - updatedAt

def statusText : TurnStatus → String
  | .queued => "queued"
  | .running => "running"
  | .abortRequested => "abort_requested"
  | .completed => "completed"
  | .failed => "failed"
  | .interrupted => "interrupted"
  | .merged => "merged"
  | .cancelled => "cancelled"

def markStaleTurnInterrupted (clock : Clock) (turn : TurnRow) (turns : List TurnRow) :
    List TurnRow :=
  updateRows (fun row => row.id = turn.id ∧ isActive row)
    (fun row => { row with
      status := .interrupted
      metadata := some (patched row.metadata [
        ("previousStatus", .str (statusText turn.status)),
        ("staleActiveRecoveredAt", .str clock.toISOString)])
      updatedAt := some clock.now }) turns

/-! ## Batches -/

structure ExecutionBatch where
  ownerTurnId : String
  turnIds : List String
  mergedTurnIds : List String
  userMessageIds : List String
  anchorUserMessageId : Option String
  deriving DecidableEq

def strings (values : List String) : Json := .arr (values.map Json.str)

def ExecutionBatch.toJson (batch : ExecutionBatch) : Json :=
  .obj [
    ("anchorUserMessageId", (batch.anchorUserMessageId.map Json.str).getD .null),
    ("mergedTurnIds", strings batch.mergedTurnIds),
    ("ownerTurnId", .str batch.ownerTurnId),
    ("turnIds", strings batch.turnIds),
    ("userMessageIds", strings batch.userMessageIds)]

structure ClaimedTurnBatch where
  ownerTurn : TurnRow
  turns : List TurnRow
  mergedTurns : List TurnRow
  executionBatch : ExecutionBatch
  deriving DecidableEq

inductive ClaimResult where
  | claimed (batch : ClaimedTurnBatch)
  | busy (activeTurnId : String) (activeUpdatedAt : Option Int) (activeStatus : TurnStatus)
  | noop

inductive BatchError where
  /-- queued turns are required -/
  | turnsRequired
  /-- failed to merge queued turn -/
  | mergeFailed (turnId : String)
  /-- The queue configuration of the home Space cannot be read. -/
  | config (message : String)
  /-- Invalid execution batch -/
  | invalidBatch
  /-- Execution batch history mismatch -/
  | historyMismatch
  deriving DecidableEq

def createExecutionBatch (queued : List TurnRow) : Except BatchError ExecutionBatch :=
  let userMessageIds := (queued.map getUserMessageId).filter fun value => value ≠ ""
  match queued.getLast? with
  | none => .error .turnsRequired
  | some owner => .ok {
      ownerTurnId := owner.id
      turnIds := queued.map TurnRow.id
      mergedTurnIds := queued.dropLast.map TurnRow.id
      userMessageIds
      anchorUserMessageId := userMessageIds.getLast? }

/-- `ownerMeta`. -/
def ownerMetadata (clock : Clock) (owner : TurnRow) (executionBatch : ExecutionBatch) : Json :=
  let fields := asRecord owner.metadata
  .obj (Fields.assign fields [
    ("executionBatch", executionBatch.toJson),
    ("metrics", .obj (Fields.assign (asRecord (Fields.get? fields "metrics")) [
      ("version", .num 1), ("executionStartedAt", .num clock.dateNow)]))])

def startOwner (clock : Clock) (metadata : Json) (row : TurnRow) : TurnRow :=
  { row with status := .running, metadata := some metadata, updatedAt := some clock.now }

def mergeTurn (clock : Clock) (ownerId : String) (row : TurnRow) : TurnRow :=
  { row with
    status := .merged
    metadata := some (patched row.metadata [
      ("mergedAt", .str clock.toISOString), ("mergedIntoTurnId", .str ownerId)])
    updatedAt := some clock.now }

/-- `where id = ... and status = 'queued'`. -/
def isQueued (id : String) (row : TurnRow) : Bool := row.id = id ∧ row.status = .queued

def mergeTurns (clock : Clock) (ownerId : String) :
    List TurnRow → List TurnRow → Except BatchError (List TurnRow)
  | [], turns => .ok turns
  | turn :: rest, turns =>
      if turns.any (isQueued turn.id) then
        mergeTurns clock ownerId rest (updateRows (isQueued turn.id) (mergeTurn clock ownerId) turns)
      else .error (.mergeFailed turn.id)

def claimQueuedTurns (clock : Clock) (turns queued : List TurnRow) :
    Except BatchError (Option (List TurnRow × ClaimedTurnBatch)) :=
  match queued.getLast?, createExecutionBatch queued with
  | some owner, .ok executionBatch =>
      let merged := queued.dropLast
      let metadata := ownerMetadata clock owner executionBatch
      if turns.any (isQueued owner.id) then
        match mergeTurns clock owner.id merged
            (updateRows (isQueued owner.id) (startOwner clock metadata) turns) with
        | .error error => .error error
        | .ok turns' =>
            let updatedOwner := { owner with
              status := .running, metadata := some metadata, updatedAt := some clock.dateNow }
            .ok (some (turns', {
              ownerTurn := updatedOwner
              turns := merged ++ [updatedOwner]
              mergedTurns := merged
              executionBatch }))
      else .ok none
  | _, .error error => .error error
  | none, _ => .error .turnsRequired

/-! ## Limits -/

def RUNTIME_MAX_BATCH_MESSAGES : Nat := 64
def RUNTIME_MAX_BATCH_INPUT_BYTES : Nat := 2 * 1024 * 1024

section

variable {α : Type}

/-- The loop of `limitBatchSize`, with `batch` and `bytes` so far. -/
def limitLoop (sizeOf : α → Nat) (messages bytes : Nat) (batch : List α) (size : Nat) :
    List α → List α
  | [] => batch
  | turn :: rest =>
      if messages ≤ batch.length then batch
      else if 0 < batch.length ∧ bytes < size + sizeOf turn then batch
      else limitLoop sizeOf messages bytes (batch ++ [turn]) (size + sizeOf turn) rest

def limitBatchSize (sizeOf : α → Nat) (turns : List α) : List α :=
  let batch := limitLoop sizeOf RUNTIME_MAX_BATCH_MESSAGES RUNTIME_MAX_BATCH_INPUT_BYTES [] 0 turns
  if batch = [] then turns.take 1 else batch

end

/-- `(turn.meta as ...).approvalMode`. -/
def modeOf (turn : TurnRow) : Option Json := (asRecord turn.metadata).get? "approvalMode"

/-- `===` on values that were read from different rows. -/
def strictEquals : Option Json → Option Json → Bool
  | some (.arr _), _ => false
  | some (.obj _), _ => false
  | a, b => a = b

/-- The first Turn has its own mode, whatever it is. -/
def limitBatchToApprovalMode : List TurnRow → List TurnRow
  | [] => []
  | first :: rest => first :: rest.takeWhile fun turn => strictEquals (modeOf turn) (modeOf first)

/-! ## The claim -/

inductive FollowupDelivery where
  | together
  | oneByOne
  deriving DecidableEq

/-- The home Space of a user, and the queue configuration in it. -/
structure QueueConfig where
  homeOf : String → Option String
  readMessageQueueConfig : String → Except String (Option FollowupDelivery)

def resolveFollowupDelivery (config : QueueConfig) (userUuid : Option String) :
    Except BatchError FollowupDelivery :=
  match userUuid.filter fun user => user ≠ "" with
  | none => .ok .together
  | some user =>
      match config.homeOf user with
      | none => .ok .together
      | some home =>
          match config.readMessageQueueConfig home with
          | .error message => .error (.config message)
          | .ok delivery => .ok (delivery.getD .together)

def activeTurn (turns : List TurnRow) : Option TurnRow :=
  (orderBy TurnRow.sequence (turns.filter isActiveAgent)).head?

/-- A direct generation that is not settled. -/
def isBlocking (turn : TurnRow) : Bool :=
  turn.executionKind = .directGeneration ∧
    turn.status ∉ [.completed, .failed, .cancelled, .interrupted, .merged]

def blockingSequence (turns : List TurnRow) : Option Int :=
  (orderBy TurnRow.sequence (turns.filter isBlocking)).head?.map TurnRow.sequence

def beforeGeneration (turns : List TurnRow) (turn : TurnRow) : Bool :=
  ∀ sequence ∈ blockingSequence turns, turn.sequence < sequence

/-- `updated_at asc, sequence asc`. -/
def updatedBefore (a b : TurnRow) : Bool :=
  match a.updatedAt, b.updatedAt with
  | some x, some y => x < y ∨ x = y ∧ a.sequence ≤ b.sequence
  | some _, none => true
  | none, some _ => false
  | none, none => a.sequence ≤ b.sequence

def nextSteer (turns : List TurnRow) : Option TurnRow :=
  ((turns.filter fun turn =>
    isQueuedAgent turn ∧ turn.intent = .steer ∧ beforeGeneration turns turn).insertionSort
      fun a b => updatedBefore a b).head?

def followups (turns : List TurnRow) : List TurnRow :=
  orderBy TurnRow.sequence (turns.filter fun turn =>
    isQueuedAgent turn ∧ turn.intent = .followup ∧ beforeGeneration turns turn)

def selectFollowups (byteLength : Json → Nat) (delivery : FollowupDelivery)
    (followups : List TurnRow) : List TurnRow :=
  match delivery with
  | .oneByOne => followups.take 1
  | .together =>
      limitBatchSize (fun turn => byteLength turn.userContent) (limitBatchToApprovalMode followups)

/-- The claim, once no Turn is active.  `byteLength` is the size of the content
    as JSON text. -/
def claimQueue (byteLength : Json → Nat) (config : QueueConfig) (clock : Clock)
    (turns : List TurnRow) : Except BatchError (List TurnRow × ClaimResult) :=
  let claim selected :=
    match claimQueuedTurns clock turns selected with
    | .error error => .error error
    | .ok none => .ok (turns, .noop)
    | .ok (some (turns', batch)) => .ok (turns', .claimed batch)
  match nextSteer turns, followups turns with
  | some steer, _ => claim [steer]
  | none, [] => .ok (turns, .noop)
  | none, first :: rest =>
      match resolveFollowupDelivery config first.userUuid with
      | .error error => .error error
      | .ok delivery => claim (selectFollowups byteLength delivery (first :: rest))

def claimNextTurnBatch (staleActiveTurnMs : Int) (byteLength : Json → Nat) (config : QueueConfig)
    (clock : Clock) (turns : List TurnRow) : Except BatchError (List TurnRow × ClaimResult) :=
  match activeTurn turns with
  | none => claimQueue byteLength config clock turns
  | some active =>
      if resolveHarness active.metadata = .cohub ∧ isStaleActiveTurn staleActiveTurnMs clock active then
        claimQueue byteLength config clock (markStaleTurnInterrupted clock active turns)
      else .ok (turns, .busy active.id active.updatedAt active.status)

/-! ## The replay -/

/-- The strings of an array of strings. -/
def stringItems : List Json → Option (List String)
  | [] => some []
  | .str value :: rest => (stringItems rest).map (value :: ·)
  | _ :: _ => none

/-- The recorded ids, if they are valid. -/
def recordedIds (owner : TurnRow) (recorded : Fields) (turnIds : Json) :
    Except BatchError (List String) :=
  match turnIds with
  | .arr items =>
      match stringItems items with
      | none => .error .invalidBatch
      | some ids =>
          if ids = [] ∨ ¬ ids.Nodup ∨ ids.getLast? ≠ some owner.id ∨
              recorded.get? "ownerTurnId" ≠ some (.str owner.id) then .error .invalidBatch
          else .ok ids
  | _ => .error .invalidBatch

def batchRows (turns : List TurnRow) (ids : List String) : List TurnRow :=
  orderBy TurnRow.sequence (turns.filter fun turn => turn.id ∈ ids)

def isMergedInto (ownerId : String) (row : TurnRow) : Bool :=
  row.status = .merged ∧ (asRecord row.metadata).get? "mergedIntoTurnId" = some (.str ownerId)

def recordedTurns (turns : List TurnRow) (owner : TurnRow) (ids : List String) :
    Except BatchError (List TurnRow) :=
  if 1 < ids.length then
    let rows := batchRows turns ids
    if rows.map TurnRow.id ≠ ids ∨ ¬ rows.dropLast.all (isMergedInto owner.id) then
      .error .historyMismatch
    else .ok (rows.dropLast ++ [owner])
  else .ok [owner]

def replayedTurns (turns : List TurnRow) (owner : TurnRow) : Except BatchError (List TurnRow) :=
  let recorded := asRecord ((asRecord owner.metadata).get? "executionBatch")
  match recorded.get? "turnIds" with
  | none => .ok [owner]
  | some turnIds =>
      match recordedIds owner recorded turnIds with
      | .error error => .error error
      | .ok ids => recordedTurns turns owner ids

def loadClaimedTurnBatch (turns : List TurnRow) (owner : TurnRow) :
    Except BatchError ClaimedTurnBatch :=
  match replayedTurns turns owner with
  | .error error => .error error
  | .ok batchTurns =>
      match createExecutionBatch batchTurns with
      | .error error => .error error
      | .ok executionBatch => .ok {
          ownerTurn := owner
          turns := batchTurns
          mergedTurns := batchTurns.dropLast
          executionBatch }

end Cohub.Queue
