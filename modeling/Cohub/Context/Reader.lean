import Mathlib.Data.Prod.Lex
import Cohub.Lib.Table
import Cohub.Context.Select

/-! # Reading a context page by page

    The bounded reader of `apps/agent/src/runtime/context-reader.ts`, for a call
    that asks for messages: it finds the compaction that bounds the context,
    reads the Turns from there on in pages, and selects.  Each query is a
    selection from the tables, in the order that the query or the code gives
    it.  The tables carry the uniqueness that the database enforces.

    `completeMessages` is what the reader stands for: the messages of all
    visible Turns in Turn and message order. -/

namespace Cohub.Context

open Table

/-! ## Tables -/

/-- `SessionTurnStatus`. -/
inductive TurnStatus where
  | queued
  | running
  | abortRequested
  | completed
  | failed
  | interrupted
  | merged
  | cancelled
  deriving DecidableEq

/-- `SessionTurnIntent`. -/
inductive TurnIntent where
  | steer
  | followup
  | compact
  deriving DecidableEq

/-- A row of `session_turns`.  Times are in milliseconds. -/
structure TurnRow where
  id : String
  sessionId : String
  sequence : Int
  status : TurnStatus
  intent : TurnIntent
  userContent : List ContentBlock
  assistantContent : Option (List ContentBlock)
  provider : Option String
  model : Option String
  metadata : Json
  createdAt : Option Int
  deriving DecidableEq

/-- A row of `session_messages`. -/
structure MessageRow where
  id : String
  sessionId : String
  turnId : Option String
  sequence : Int
  role : Role
  content : List ContentBlock
  provider : Option String
  model : Option String
  usage : Option Json
  stopReason : Option String
  errorMessage : Option String
  metadata : Json
  createdAt : Option Int
  deriving DecidableEq

/-- A row of `session_turn_segments`. -/
structure SegmentRow where
  sessionId : String
  ordinal : Int
  sourceSessionId : String
  fromSequence : Int
  toSequence : Option Int

/-- The tables, with their unique indices.  A compact Turn has its message, as
    the transaction that writes them has it. -/
structure Database where
  sessions : List (String × String)
  turns : List TurnRow
  messages : List MessageRow
  segments : List SegmentRow
  turnIds : Distinct TurnRow.id turns
  turnSequences : Distinct (fun turn : TurnRow => (turn.sessionId, turn.sequence)) turns
  messageSequences :
    Distinct (fun message : MessageRow => (message.sessionId, message.sequence)) messages
  compactTurns : ∀ turn ∈ turns, turn.intent = .compact → ∃ message ∈ messages,
    message.turnId = some turn.id ∧ message.sessionId = turn.sessionId ∧
      message.role = .system ∧ message.content.any isCompactedNote = true

structure TurnRange where
  sourceSessionId : String
  fromSequence    : Int
  toSequence      : Option Int
  deriving DecidableEq

/-! ## Visible Turns -/

section

variable (db : Database) (beforeSequence : Option Int)

/-- `predicate`. -/
def inRange (range : TurnRange) (turn : TurnRow) : Bool :=
  turn.sessionId = range.sourceSessionId ∧ range.fromSequence ≤ turn.sequence ∧
    (∀ last ∈ range.toSequence, turn.sequence ≤ last) ∧
    (∀ before ∈ beforeSequence, turn.sequence < before) ∧ turn.status ≠ .queued

/-- The segments of a session, or the session itself. -/
def turnRanges (sessionId : String) : List TurnRange :=
  let segments := orderBy SegmentRow.ordinal
    (db.segments.filter fun segment => segment.sessionId = sessionId)
  let ranges :=
    if segments = [] then [{ sourceSessionId := sessionId, fromSequence := 1, toSequence := none }]
    else segments.map fun segment => {
      sourceSessionId := segment.sourceSessionId, fromSequence := segment.fromSequence,
      toSequence := segment.toSequence }
  ranges.filter fun range => ∀ before ∈ beforeSequence, range.fromSequence < before

def visibleTurns (range : TurnRange) : List TurnRow :=
  orderBy TurnRow.sequence (db.turns.filter (inRange beforeSequence range))

/-! ## The compaction to start from -/

/-- What is read of a compaction to rank it, and where its Turn is. -/
structure Candidate where
  message      : Message
  rangeIndex   : Nat
  turnSequence : Int

/-- `{ type: "system_note", note_type: "compacted", text: "" }`. -/
def compactedNote : ContentBlock :=
  [("note_type", .str "compacted"), ("text", .str ""), ("type", .str "system_note")]

def compactedAt (metadata : Json) : Option Json :=
  (metadata.get? "compaction").bind fun compaction => compaction.get? "compactedAt"

def toCandidate (rangeIndex : Nat) (turn : TurnRow) (row : MessageRow) : Candidate where
  message := {
    id := row.id, turnId := turn.id, role := .system, content := [compactedNote]
    metadata := some {
      compaction := some (.obj [("compactedAt", (compactedAt row.metadata).getD .null)])
      createdAt := row.createdAt } }
  rangeIndex := rangeIndex
  turnSequence := turn.sequence

/-- The join of the candidates' query. -/
def compactionRows (range : TurnRange) : List (TurnRow × MessageRow) :=
  orderBy (fun row : TurnRow × MessageRow => toLex (row.1.sequence, row.2.sequence))
    ((db.turns.filter (inRange beforeSequence range)).flatMap fun turn =>
      (db.messages.filter fun message =>
        message.turnId = some turn.id ∧ message.sessionId = range.sourceSessionId ∧
          message.sessionId = turn.sessionId ∧ message.role = .system ∧
          message.content.any isCompactedNote = true).map fun message => (turn, message))

def candidates (ranges : List TurnRange) : List Candidate :=
  ranges.zipIdx.flatMap fun entry =>
    (compactionRows db beforeSequence entry.1).map fun row => toCandidate entry.2 row.1 row.2

variable (dateParse : Json → Option Int)

def findCompactionStart (ranges : List TurnRange) : Option Candidate :=
  let candidates := candidates db beforeSequence ranges
  (findLatestCompactionIndex dateParse (candidates.map Candidate.message)).bind fun index =>
    candidates[index]?

end

/-! ## Pages -/

def CONTEXT_TURN_PAGE : Nat := 200

/-- `case when intent = 'steer' then meta->>'intent' end`. -/
def TurnRow.metaIntent (turn : TurnRow) : Option String :=
  if turn.intent = .steer then (turn.metadata.get? "intent").bind Json.asString? else none

/-- `PageTurn`s with what `loadTurnPage` reads of them. -/
structure TurnPage where
  turns    : List TurnRow
  rows     : List MessageRow
  fallback : List TurnRow

/-- `sequenceOf.get(turnId)!`. -/
def sequenceOf (turns : List TurnRow) (turnId : Option String) : Int :=
  ((turns.find? fun turn => some turn.id = turnId).map TurnRow.sequence).getD 0

def loadTurnPage (db : Database) (sessionId : String) (turns : List TurnRow) : TurnPage :=
  let rows := orderBy
    (fun row : MessageRow => toLex (sequenceOf turns row.turnId, row.sequence))
    ((db.messages.filter fun row => row.turnId ∈ turns.map fun turn => some turn.id).filter
      fun row => row.sessionId = sessionId)
  let missing := (turns.filter fun turn =>
    some turn.id ∉ rows.map MessageRow.turnId ∧ turn.status ≠ .cancelled).map TurnRow.id
  let fallback := orderBy TurnRow.sequence
    (db.turns.filter fun turn => turn.sessionId = sessionId ∧ turn.id ∈ missing)
  { turns, rows, fallback }

/-- What `appendFallback` appends for a Turn. -/
def fallbackMessages (turn : TurnRow) : List Message :=
  let userId := (turn.metadata.get? "userMessageId").bind Json.asString?
  let user : List Message :=
    if turn.userContent = [] then []
    else [{ id := userId.getD (turn.id ++ ":user"), turnId := turn.id, role := .user,
            content := turn.userContent }]
  let assistant : List Message :=
    match turn.assistantContent with
    | none => []
    | some content =>
        if content = [] then []
        else [{
          id := turn.id ++ ":assistant", turnId := turn.id
          role := if turn.intent = .compact then .system else .assistant
          content, provider := turn.provider, model := turn.model
          metadata := some {
            compaction := present (turn.metadata.get? "compaction"), createdAt := turn.createdAt } }]
  user ++ assistant

def rowMessage (shellTurn : Bool) (row : MessageRow) : Message where
  id := row.id
  turnId := row.turnId.getD ""
  role := row.role
  content := row.content
  provider := row.provider
  model := row.model
  usage := row.usage
  stopReason := row.stopReason
  errorMessage := row.errorMessage
  metadata := some {
    agentSessionEntryId := some ((row.metadata.get? "agentSessionEntryId").getD .null)
    messageKind :=
      if shellTurn ∧ row.role = .assistant then some (.str "shell_command_result")
      else row.metadata.get? "messageKind"
    compaction := row.metadata.get? "compaction"
    nativeApi := row.metadata.get? "nativeApi"
    generationTaskId := row.metadata.get? "generationTaskId"
    generationStatus := row.metadata.get? "generationStatus"
    command := row.metadata.get? "command"
    llmContextText := row.metadata.get? "llmContextText"
    createdAt := row.createdAt }

def TurnRow.isShellCommand (turn : TurnRow) : Bool := turn.metaIntent = some "shell_command"

/-- `shellTurns.has(turnId)`. -/
def isShellTurn (turns : List TurnRow) (turnId : Option String) : Bool :=
  turns.any fun turn => turn.isShellCommand ∧ some turn.id = turnId

/-- The loop of `appendTurnPage` over the rows, with the fallback Turns it has
    left. -/
def appendRows (turns : List TurnRow) : List MessageRow → List TurnRow → List Message
  | [], fallback => fallback.flatMap fallbackMessages
  | row :: rows, fallback =>
      let earlier := fun turn : TurnRow => decide (turn.sequence < sequenceOf turns row.turnId)
      (fallback.takeWhile earlier).flatMap fallbackMessages ++
        rowMessage (isShellTurn turns row.turnId) row ::
          appendRows turns rows (fallback.dropWhile earlier)

def appendTurnPage (messages : List Message) (page : TurnPage) : List Message :=
  messages ++ appendRows page.turns page.rows page.fallback

section

variable (db : Database) (beforeSequence : Option Int)

/-- The loop over the pages of a range.  Each page goes on after the last
    Turn before, so that there are no more rounds than Turns. -/
def readPages (range : TurnRange) : Nat → Option Int → List Message → List Message
  | 0, _, messages => messages
  | rounds + 1, after, messages =>
      let turns := (orderBy TurnRow.sequence (db.turns.filter fun turn =>
        inRange beforeSequence range turn ∧ ∀ sequence ∈ after, sequence < turn.sequence)).take
          CONTEXT_TURN_PAGE
      match turns.getLast? with
      | none => messages
      | some last =>
          let messages := appendTurnPage messages (loadTurnPage db range.sourceSessionId turns)
          if turns.length < CONTEXT_TURN_PAGE then messages
          else readPages range rounds (some last.sequence) messages

/-- The loop over the ranges, with the index of the next. -/
def readRanges (start : Option Candidate) : List TurnRange → Nat → List Message → List Message
  | [], _, messages => messages
  | range :: ranges, rangeIndex, messages =>
      let skipped := ∃ candidate ∈ start, rangeIndex < candidate.rangeIndex
      let after := start.bind fun candidate =>
        if candidate.rangeIndex = rangeIndex then some (candidate.turnSequence - 1) else none
      readRanges start ranges (rangeIndex + 1)
        (if skipped then messages
          else readPages db beforeSequence range (db.turns.length + 1) after messages)

end

/-! ## The reader -/

inductive ReadError where
  /-- Session does not belong to Space -/
  | foreignSession
  /-- Context boundary turn not found -/
  | unknownBoundary
  /-- Cannot resume before an earlier turn has settled -/
  | unsettled
  deriving DecidableEq

structure ContextInput where
  spaceId        : String
  sessionId      : String
  beforeSequence : Option Int
  throughTurnId  : Option String

/-- The sequence bound of a call. -/
def boundOf (db : Database) (input : ContextInput) : Except ReadError (Option Int) :=
  match input.throughTurnId with
  | none => .ok input.beforeSequence
  | some turnId =>
      match db.turns.find? fun turn => turn.id = turnId ∧ turn.sessionId = input.sessionId with
      | none => .error .unknownBoundary
      | some turn => .ok (some (turn.sequence + 1))

def isUnsettled (turn : TurnRow) : Bool := turn.status = .running ∨ turn.status = .abortRequested

/-- The messages that `load` returns. -/
def load (db : Database) (dateParse : Json → Option Int) (input : ContextInput) :
    Except ReadError (List Message) := do
  if (input.sessionId, input.spaceId) ∉ db.sessions then throw .foreignSession
  let beforeSequence ← boundOf db input
  let ranges := turnRanges db beforeSequence input.sessionId
  if ranges.any fun range => db.turns.any fun turn =>
      inRange beforeSequence range turn ∧ isUnsettled turn then throw .unsettled
  let start := findCompactionStart db beforeSequence dateParse ranges
  return selectRuntimeContextMessages dateParse
    (readRanges db beforeSequence start ranges 0 [])

/-! ## The complete history -/

section

variable (db : Database) (beforeSequence : Option Int)

def turnRows (turn : TurnRow) : List MessageRow :=
  orderBy MessageRow.sequence (db.messages.filter fun row =>
    row.turnId = some turn.id ∧ row.sessionId = turn.sessionId)

/-- The messages of a Turn: its rows, or else what the Turn itself says, unless
    it is cancelled. -/
def turnMessages (turn : TurnRow) : List Message :=
  if turnRows db turn = [] then
    if turn.status = .cancelled then [] else fallbackMessages turn
  else (turnRows db turn).map (rowMessage turn.isShellCommand)

/-- The visible Turns' messages, a list for each. -/
def messagesByTurn (ranges : List TurnRange) : List (List Message) :=
  ranges.flatMap fun range => (visibleTurns db beforeSequence range).map (turnMessages db)

def completeMessages (ranges : List TurnRange) : List Message :=
  (messagesByTurn db beforeSequence ranges).flatten

end

/-- The place of the first message of the list that a place is in. -/
def groupStart {α : Type} : List (List α) → Nat → Nat
  | [], _ => 0
  | group :: rest, place =>
      if place < group.length then 0 else group.length + groupStart rest (place - group.length)

end Cohub.Context
