import Cohub.Context.Reader

/-! # Sessions, their Turns and their forks

    A session sees the Turns of its segments: ranges of sequence numbers of
    other sessions, and then its own Turns.  This file has the operations on
    them: a new Turn (`packages/core/src/sessions/service.ts`), a fork
    (`apps/api/src/session-forks.ts`) and a compaction between Turns
    (`apps/agent/src/persistence.ts`), each one transaction. -/

namespace Cohub.Sessions

open Table
open Cohub.Context (TurnStatus TurnIntent TurnRange)

/-! ## The tables -/

/-- A row of `session_turns`. -/
structure Turn where
  id : String
  sessionId : String
  sequence : Int
  status : TurnStatus
  intent : TurnIntent
  deriving DecidableEq

/-- A row of `session_forks`. -/
structure ForkRow where
  parentSessionId : String
  childSessionId  : String
  anchorTurnId    : String
  anchorSequence  : Int
  deriving DecidableEq

/-- The sessions of a Space.  `segments` has the stored segments of a session,
    by ordinal. -/
structure State where
  sessions : List String
  turns    : List Turn
  segments : String → List TurnRange
  forks    : List ForkRow

def State.empty : State where
  sessions := []
  turns := []
  segments := fun _ => []
  forks := []

/-- The segment of a session that is no fork. -/
def wholeSession (sessionId : String) : TurnRange where
  sourceSessionId := sessionId
  fromSequence := 1
  toSequence := none

/-- `ensureSessionTurnSegments`: what is stored, or else the session itself. -/
def State.segmentsOf (s : State) (sessionId : String) : List TurnRange :=
  if s.segments sessionId = [] then [wholeSession sessionId] else s.segments sessionId

/-- `buildSegmentPredicate`. -/
def inSegment (segment : TurnRange) (turn : Turn) : Bool :=
  turn.sessionId = segment.sourceSessionId ∧ segment.fromSequence ≤ turn.sequence ∧
    ∀ last ∈ segment.toSequence, turn.sequence ≤ last

def segmentTurns (turns : List Turn) (segment : TurnRange) : List Turn :=
  orderBy Turn.sequence (turns.filter (inSegment segment))

/-- `listSessionTurns`, without a limit. -/
def State.listSessionTurns (s : State) (sessionId : String) : List Turn :=
  (s.segmentsOf sessionId).flatMap (segmentTurns s.turns)

/-! ## New Turns -/

/-- `coalesce(max(sequence), 0)`. -/
def maxSequence : List Turn → Int
  | [] => 0
  | turn :: rest => if maxSequence rest < turn.sequence then turn.sequence else maxSequence rest

def State.turnsOf (s : State) (sessionId : String) : List Turn :=
  s.turns.filter fun turn => turn.sessionId = sessionId

/-- The last open segment of a session on itself. -/
def State.localSegment (s : State) (sessionId : String) : Option TurnRange :=
  ((s.segments sessionId).filter fun segment =>
    segment.sourceSessionId = sessionId ∧ segment.toSequence = none).getLast?

def State.nextTurnSequence (s : State) (sessionId : String) : Int :=
  if maxSequence (s.turnsOf sessionId) ≠ 0 then maxSequence (s.turnsOf sessionId) + 1
  else ((s.localSegment sessionId).map TurnRange.fromSequence).getD 1

def State.addTurn (s : State) (sessionId id : String) (status : TurnStatus) (intent : TurnIntent) :
    State :=
  { s with turns := s.turns ++ [{
      id, sessionId, sequence := s.nextTurnSequence sessionId, status, intent }] }

/-! ## Forks -/

def findSegmentForTurn (segments : List TurnRange) (sourceSessionId : String) (sequence : Int) :
    Option TurnRange :=
  segments.find? fun segment =>
    segment.sourceSessionId = sourceSessionId ∧ segment.fromSequence ≤ sequence ∧
      ∀ last ∈ segment.toSequence, sequence ≤ last

/-- `segment.toSequence == null ? anchorSequence : Math.min(...)`. -/
def clippedEnd (segment : TurnRange) (anchorSequence : Int) : Int :=
  match segment.toSequence with
  | none => anchorSequence
  | some last => if last ≤ anchorSequence then last else anchorSequence

def clipSegments : List TurnRange → Int → List TurnRange
  | [], _ => []
  | segment :: rest, anchorSequence =>
      if anchorSequence < segment.fromSequence then []
      else
        { segment with toSequence := some (clippedEnd segment anchorSequence) } ::
          if anchorSequence ≤ clippedEnd segment anchorSequence then []
          else clipSegments rest anchorSequence

def MAX_SESSION_TURN_SEGMENTS : Nat := 128

inductive ForkError where
  /-- Turn not found -/
  | turnNotFound
  /-- Turn source session not found -/
  | sourceNotFound
  /-- Cannot fork a running turn -/
  | turnRunning
  /-- Parent session not found -/
  | parentNotFound
  /-- Session id already exists -/
  | sessionExists
  /-- Turn is not visible in this session -/
  | turnNotVisible
  /-- Fork chain is too deep -/
  | tooDeep
  deriving DecidableEq

structure ForkInput where
  parentSessionId : String
  childSessionId : String
  turnId : String
  sequence : Option Int

/-- The segments of a new fork: the parent's up to the anchor, then its own. -/
def childSegments (parentSegments : List TurnRange) (childSessionId : String) (anchorSequence : Int) :
    List TurnRange :=
  clipSegments parentSegments anchorSequence ++ [{
    sourceSessionId := childSessionId, fromSequence := anchorSequence + 1, toSequence := none }]

def setSegments (segments : String → List TurnRange) (sessionId : String) (rows : List TurnRange) :
    String → List TurnRange :=
  fun other => if other = sessionId then rows else segments other

/-- `createSessionForkInTransaction`, after the checks. -/
def State.insertFork (s : State) (input : ForkInput) (anchorSequence : Int) : State :=
  let parentSegments := s.segmentsOf input.parentSessionId
  { s with
    sessions := s.sessions ++ [input.childSessionId]
    segments := setSegments (setSegments s.segments input.parentSessionId parentSegments)
      input.childSessionId (childSegments parentSegments input.childSessionId anchorSequence)
    forks := s.forks ++ [{
      parentSessionId := input.parentSessionId, childSessionId := input.childSessionId
      anchorTurnId := input.turnId, anchorSequence }] }

def State.createSessionFork (s : State) (input : ForkInput) : Except ForkError State :=
  match s.turns.find? fun turn => turn.id = input.turnId with
  | none => .error .turnNotFound
  | some anchorTurn =>
      let anchorSequence := input.sequence.getD anchorTurn.sequence
      let parentSegments := s.segmentsOf input.parentSessionId
      if anchorTurn.sessionId ∉ s.sessions then .error .sourceNotFound
      else if anchorTurn.status = .running then .error .turnRunning
      else if input.parentSessionId ∉ s.sessions then .error .parentNotFound
      else if input.childSessionId ∈ s.sessions then
        let existing := s.forks.find? fun fork => fork.childSessionId = input.childSessionId
        if existing = some {
            parentSessionId := input.parentSessionId, childSessionId := input.childSessionId
            anchorTurnId := input.turnId, anchorSequence } then .ok s
        else .error .sessionExists
      else if findSegmentForTurn parentSegments anchorTurn.sessionId anchorSequence = none ∨
          anchorTurn.sequence ≠ anchorSequence then .error .turnNotVisible
      else if MAX_SESSION_TURN_SEGMENTS < (clipSegments parentSegments anchorSequence).length then
        .error .tooDeep
      else .ok (s.insertFork input anchorSequence)

/-! ## Compactions -/

/-- An update of the sequence numbers of a session from one on. -/
def moveSequences (sessionId : String) (first offset : Int) (turns : List Turn) : List Turn :=
  turns.map fun turn =>
    if turn.sessionId = sessionId ∧ first ≤ turn.sequence then
      { turn with sequence := turn.sequence + offset }
    else turn

/-- The renumbering of `persistCompactionEvent`, in two updates. -/
def renumber (sessionId : String) (compactSequence : Int) (turns : List Turn) : List Turn :=
  moveSequences sessionId (compactSequence + 1000000) (-999999)
    (moveSequences sessionId compactSequence 1000000 turns)

/-- `persistCompactionEvent` between Turns. -/
def State.persistCompaction (s : State) (sessionId id : String) (compactSequence : Int) : State :=
  { s with turns := renumber sessionId compactSequence s.turns ++ [{
      id, sessionId, sequence := compactSequence, status := .completed, intent := .compact }] }

/-- Where a compaction can insert: before a Turn of the session, or after all. -/
def State.Insertion (s : State) (sessionId : String) (compactSequence : Int) : Prop :=
  (∃ turn ∈ s.turnsOf sessionId, turn.sequence = compactSequence) ∨
    compactSequence = maxSequence (s.turnsOf sessionId) + 1

/-! ## Runs -/

/-- The tables, and for each session the Turns it is to show: those it
    inherited when it was forked and its own since. -/
structure World where
  state   : State
  history : String → List String

def setHistory (history : String → List String) (sessionId : String) (ids : List String) :
    String → List String :=
  fun other => if other = sessionId then ids else history other

/-- A list up to a Turn, and with it. -/
def upTo (turnId : String) : List Turn → List Turn
  | [] => []
  | turn :: rest => if turn.id = turnId then [turn] else turn :: upTo turnId rest

def isOrdinary (turn : Turn) : Bool := turn.intent ≠ .compact

/-- The ids of the Turns, compact ones aside. -/
def ordinaryIds (turns : List Turn) : List String := (turns.filter isOrdinary).map Turn.id

/-- One operation on the sessions of a Space.  `Allowed` restricts where a
    compaction inserts. -/
inductive Step (Allowed : State → String → Int → Prop) : World → World → Prop where
  /-- A session is created, with its segment or without. -/
  | newSession (w : World) (sessionId : String) (rows : List TurnRange)
      (hnew : sessionId ∉ w.state.sessions) (hrows : rows = [] ∨ rows = [wholeSession sessionId]) :
      Step Allowed w {
        state := { w.state with
          sessions := w.state.sessions ++ [sessionId]
          segments := setSegments w.state.segments sessionId rows }
        history := setHistory w.history sessionId [] }
  /-- A Turn is added: a prompt, a native Turn, a generation. -/
  | newTurn (w : World) (sessionId id : String) (status : TurnStatus) (intent : TurnIntent)
      (hsession : sessionId ∈ w.state.sessions) (hintent : intent ≠ .compact)
      (hnew : ∀ turn ∈ w.state.turns, turn.id ≠ id) :
      Step Allowed w {
        state := w.state.addTurn sessionId id status intent
        history := setHistory w.history sessionId (w.history sessionId ++ [id]) }
  /-- A Turn's status changes. -/
  | setStatus (w : World) (id : String) (status : TurnStatus) :
      Step Allowed w { w with state := { w.state with
        turns := w.state.turns.map fun turn => if turn.id = id then { turn with status } else turn } }
  | fork (w : World) (input : ForkInput) (s' : State)
      (hfork : w.state.createSessionFork input = .ok s') :
      Step Allowed w {
        state := s'
        history := if input.childSessionId ∈ w.state.sessions then w.history
          else setHistory w.history input.childSessionId
            (ordinaryIds (upTo input.turnId (w.state.listSessionTurns input.parentSessionId))) }
  | compaction (w : World) (sessionId id : String) (compactSequence : Int)
      (hsession : sessionId ∈ w.state.sessions) (hnew : ∀ turn ∈ w.state.turns, turn.id ≠ id)
      (hinsertion : w.state.Insertion sessionId compactSequence)
      (hallowed : Allowed w.state sessionId compactSequence) :
      Step Allowed w { w with state := w.state.persistCompaction sessionId id compactSequence }

def World.empty : World where
  state := State.empty
  history := fun _ => []

/-- A compaction inserts after all that other sessions inherit of the session,
    and not before the session's own range. -/
def State.SparesForks (s : State) (sessionId : String) (compactSequence : Int) : Prop :=
  (∀ other ∈ s.sessions, ∀ segment ∈ s.segmentsOf other, segment.sourceSessionId = sessionId →
    ∀ last ∈ segment.toSequence, last < compactSequence) ∧
  ∀ segment ∈ s.segmentsOf sessionId, segment.sourceSessionId = sessionId →
    segment.fromSequence ≤ compactSequence

/-- A session shows the Turns it is to show, in order. -/
structure World.Shows (w : World) (sessionId : String) : Prop where
  turns     : ordinaryIds (w.state.listSessionTurns sessionId) = w.history sessionId
  ascending : Ascending Turn.sequence (w.state.listSessionTurns sessionId)

end Cohub.Sessions
