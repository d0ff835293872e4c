import Mathlib
import Cohub.Queue.Claim

/-! # Runs of a session's queue

    The other operations that write a session's Turns, each one statement or one
    transaction, and the runs of them and of claims in any order.  A `World` has
    the Turns, and beside them what happened: the claimed batches, each with the
    Turns that its claim saw, and the Turns that left the queue. -/

namespace Cohub.Queue

open Table
open Cohub.Context (TurnStatus TurnIntent)

/-! ## Other writers -/

/-- Members of a Turn's `meta` that only its prompt or its claim writes. -/
def claimKeys : List String := ["executionBatch", "userMessageId", "messageId"]

/-- A patch of `meta`, and what it leaves alone. -/
structure MetaPatch where
  fields  : Fields
  foreign : ∀ key ∈ claimKeys, Fields.get? fields key = none

def MetaPatch.apply (patch : MetaPatch) (row : TurnRow) : TurnRow :=
  { row with metadata := some (patched row.metadata patch.fields) }

/-- The rest of `meta` is copied: `{ ...readMetaRecord(meta), ... }`. -/
def MetaPatch.rewrite (patch : MetaPatch) (row : TurnRow) : TurnRow :=
  { row with metadata := some (.obj (Fields.assign (asRecord row.metadata) patch.fields)) }

def hasStatus (id : String) (statuses : List TurnStatus) (row : TurnRow) : Bool :=
  row.id = id ∧ row.status ∈ statuses

/-- `finalizeSessionTurnFromMessage` and `finalizeInterruptedTurn`. -/
def finalizeSessionTurn (id : String) (status : TurnStatus) (patch : MetaPatch) (now : Int) :
    List TurnRow → List TurnRow :=
  updateRows (hasStatus id [.running, .abortRequested, .interrupted])
    fun row => { patch.apply row with status, updatedAt := some now }

/-- `failSessionTurn`: also when a prompt could not be enqueued. -/
def failSessionTurn (id : String) (now : Int) : List TurnRow → List TurnRow :=
  updateRows (hasStatus id [.queued, .running, .abortRequested, .interrupted])
    fun row => { row with status := .failed, updatedAt := some now }

/-- `enqueueSessionAbort`, and a steering prompt's on the active Turn. -/
def requestAbort (id : String) (patch : MetaPatch) (now : Int) : List TurnRow → List TurnRow :=
  updateRows (fun row => row.executionKind = .agent ∧ hasStatus id [.running, .abortRequested] row)
    fun row => { patch.apply row with status := .abortRequested, updatedAt := some now }

/-- A steered Turn could not be enqueued: the active Turn goes on. -/
def withdrawAbort (id : String) (now : Int) : List TurnRow → List TurnRow :=
  updateRows (hasStatus id [.abortRequested])
    fun row => { row with status := .running, updatedAt := some now }

/-- `promoteQueuedTurnToSteer`, on the Turn itself. -/
def promoteToSteer (id : String) (patch : MetaPatch) (sequence now : Int) :
    List TurnRow → List TurnRow :=
  updateRows (fun row => isQueued id row ∧ row.executionKind = .agent ∧ row.intent = .followup)
    fun row => { patch.rewrite row with sequence, intent := .steer, updatedAt := some now }

def cancelQueuedTurn (id : String) (patch : MetaPatch) (sequence now : Int) :
    List TurnRow → List TurnRow :=
  updateRows (fun row => isQueued id row ∧ row.intent = .followup)
    fun row => { patch.rewrite row with sequence, status := .cancelled, updatedAt := some now }

/-- A direct generation starts or settles. -/
def setGeneration (id : String) (status : TurnStatus) (now : Int) : List TurnRow → List TurnRow :=
  updateRows (fun row => row.executionKind = .directGeneration ∧ hasStatus id [.queued, .running] row)
    fun row => { row with status, updatedAt := some now }

/-- Metrics, recovery states and sent Turns. -/
def patchTurn (id : String) (patch : MetaPatch) : List TurnRow → List TurnRow :=
  updateRows (fun row => row.id = id) patch.apply

/-- An image gets its description. -/
def describeImage (id : String) (userContent : Json) : List TurnRow → List TurnRow :=
  updateRows (fun row => row.id = id) fun row => { row with userContent }

def renumber (move : Int → Int) (turns : List TurnRow) : List TurnRow :=
  turns.map fun row => { row with sequence := move row.sequence }

/-! ## Worlds -/

structure World where
  turns      : List TurnRow
  claims     : List (List TurnRow × ClaimedTurnBatch)
  departures : List (String × TurnStatus)

def World.empty : World where
  turns := []
  claims := []
  departures := []

/-- A queued agent Turn that is not queued any more, with its status. -/
def departure (after : List TurnRow) (turn : TurnRow) : Option (String × TurnStatus) :=
  if isQueuedAgent turn then
    match after.find? fun row => row.id = turn.id with
    | some row => if row.status = .queued then none else some (turn.id, row.status)
    | none => none
  else none

def departed (before after : List TurnRow) : List (String × TurnStatus) :=
  before.filterMap (departure after)

def World.next (w : World) (turns : List TurnRow) : World :=
  { w with turns, departures := w.departures ++ departed w.turns turns }

/-- What a claim leaves, recorded if it has a batch. -/
def World.afterClaim (w : World) (turns : List TurnRow) : ClaimResult → World
  | .claimed batch => { w.next turns with claims := w.claims ++ [(w.turns, batch)] }
  | _ => w.next turns

/-- A Turn is new in a session and, unless it is a compact Turn, comes last. -/
def World.IsNew (w : World) (row : TurnRow) : Prop := ∀ turn ∈ w.turns, turn.id ≠ row.id

def World.IsLast (w : World) (sequence : Int) : Prop := ∀ turn ∈ w.turns, turn.sequence < sequence

section

variable (staleActiveTurnMs : Int) (byteLength : Json → Nat)

inductive Step : World → World → Prop where
  | queuePrompt (w : World) (row : TurnRow) (hkind : row.executionKind = .agent)
      (hstatus : row.status = .queued) (hintent : row.intent ≠ .compact) (hnew : w.IsNew row)
      (hlast : w.IsLast row.sequence) : Step w (w.next (w.turns ++ [row]))
  /-- A direct generation or a note. -/
  | addOther (w : World) (row : TurnRow) (hkind : row.executionKind ≠ .agent) (hnew : w.IsNew row)
      (hlast : w.IsLast row.sequence) : Step w (w.next (w.turns ++ [row]))
  | claim (w : World) (config : QueueConfig) (clock : Clock) (turns : List TurnRow)
      (result : ClaimResult)
      (hclaim : claimNextTurnBatch staleActiveTurnMs byteLength config clock w.turns =
        .ok (turns, result)) : Step w (w.afterClaim turns result)
  | finalize (w : World) (id : String) (status : TurnStatus) (patch : MetaPatch) (now : Int)
      (hstatus : status ∈ [.completed, .failed, .interrupted]) :
      Step w (w.next (finalizeSessionTurn id status patch now w.turns))
  | fail (w : World) (id : String) (now : Int) : Step w (w.next (failSessionTurn id now w.turns))
  | requestAbort (w : World) (id : String) (patch : MetaPatch) (now : Int) :
      Step w (w.next (requestAbort id patch now w.turns))
  | withdrawAbort (w : World) (id : String) (now : Int) :
      Step w (w.next (withdrawAbort id now w.turns))
  | promote (w : World) (id : String) (patch : MetaPatch) (sequence now : Int)
      (hlast : w.IsLast sequence) : Step w (w.next (promoteToSteer id patch sequence now w.turns))
  | cancel (w : World) (id : String) (patch : MetaPatch) (sequence now : Int)
      (hlast : w.IsLast sequence) : Step w (w.next (cancelQueuedTurn id patch sequence now w.turns))
  | generation (w : World) (id : String) (status : TurnStatus) (now : Int)
      (hstatus : status ∈ [.running, .completed, .failed]) :
      Step w (w.next (setGeneration id status now w.turns))
  | patch (w : World) (id : String) (patch : MetaPatch) : Step w (w.next (patchTurn id patch w.turns))
  | describe (w : World) (id : String) (userContent : Json) :
      Step w (w.next (describeImage id userContent w.turns))
  /-- The later Turns move up, and the compact Turn gets the free place. -/
  | compaction (w : World) (move : Int → Int) (row : TurnRow) (hmove : StrictMono move)
      (hkind : row.executionKind = .agent) (hstatus : row.status = .completed)
      (hintent : row.intent = .compact) (hnew : w.IsNew row)
      (hfree : ∀ turn ∈ w.turns, move turn.sequence ≠ row.sequence) :
      Step w (w.next (renumber move w.turns ++ [row]))

/-! ## What a run keeps -/

/-- The Turns that a claim could take as follow-ups, by sequence. -/
def queuedFollowups (turns : List TurnRow) : List TurnRow :=
  orderBy TurnRow.sequence (turns.filter fun turn => isQueuedAgent turn ∧ turn.intent = .followup)

/-- A batch of follow-ups within the limits. -/
structure FollowupBatch (turns selected : List TurnRow) : Prop where
  isPrefix : selected <+: queuedFollowups turns
  oneMode  : ∀ a ∈ selected, ∀ b ∈ selected, modeOf a = modeOf b
  limits   : selected.length = 1 ∨ selected.length ≤ RUNTIME_MAX_BATCH_MESSAGES ∧
    (selected.map fun turn => byteLength turn.userContent).sum ≤ RUNTIME_MAX_BATCH_INPUT_BYTES

/-- What a claim took of the Turns that it saw: one steering Turn, or
    follow-ups, all of them queued and before the unsettled generations. -/
def Justified (turns : List TurnRow) (batch : ClaimedTurnBatch) : Prop :=
  ∃ selected, selected.map TurnRow.id = batch.executionBatch.turnIds ∧
    ((∃ steer, selected = [steer] ∧ steer.intent = .steer) ∨ FollowupBatch byteLength turns selected) ∧
    ∀ turn ∈ selected, turn ∈ turns ∧ isQueuedAgent turn ∧
      ∀ generation ∈ turns, isBlocking generation → turn.sequence < generation.sequence

def World.batchesOf (w : World) (id : String) : List ClaimedTurnBatch :=
  (w.claims.map Prod.snd).filter fun batch => id ∈ batch.turns.map TurnRow.id

/-- A Turn left the queue as an owner, merged, or before any claim. -/
def World.Accounted (w : World) (departure : String × TurnStatus) : Prop :=
  (departure.2 = .running ∧ ∃ batch, w.batchesOf departure.1 = [batch] ∧
    batch.ownerTurn.id = departure.1) ∨
  (departure.2 = .merged ∧ ∃ batch, w.batchesOf departure.1 = [batch] ∧
    departure.1 ∈ batch.mergedTurns.map TurnRow.id) ∨
  ((departure.2 = .failed ∨ departure.2 = .cancelled) ∧ w.batchesOf departure.1 = [])

structure World.Safe (w : World) : Prop where
  oneActive  : (w.turns.filter isActiveAgent).length ≤ 1
  leavesOnce : ∀ turn ∈ w.turns, turn.executionKind = .agent → turn.intent ≠ .compact →
    (w.departures.map Prod.fst).count turn.id = if turn.status = .queued then 0 else 1
  accounted  : ∀ departure ∈ w.departures, w.Accounted departure
  justified  : ∀ claim ∈ w.claims, Justified byteLength claim.1 claim.2

end

/-- The same Turns in the same roles, with the same record. -/
structure SameBatch (a b : ClaimedTurnBatch) : Prop where
  owner : a.ownerTurn.id = b.ownerTurn.id
  turns : a.turns.map TurnRow.id = b.turns.map TurnRow.id
  merged : a.mergedTurns.map TurnRow.id = b.mergedTurns.map TurnRow.id
  executionBatch : a.executionBatch = b.executionBatch

end Cohub.Queue
