import Cohub.Lib.Json
import Cohub.Lib.Mealy
import Cohub.Lib.Span
import Mathlib.Data.List.Sort

/-! # The turn cache

    The client keeps a part of each session's turns.  A page from the server, or
    single turns, are merged with what is kept by their ids, sorted by sequence,
    and trimmed to a size limit.  Two flags say whether there are older and newer
    turns than the ones kept. -/

namespace Cohub.Chat

/-! ## Turns -/

inductive SessionTurnStatus where
  | queued
  | running
  | abortRequested
  | completed
  | failed
  | interrupted
  | merged
  | cancelled
  deriving DecidableEq

/-- The fields that the cache does not look at are in `others`, by name. -/
structure SessionTurn where
  id : String
  sequence : Nat
  status : SessionTurnStatus
  userUuid : Option String
  updatedAt : String
  metadata : Option (OrderedMap String Json)
  others : OrderedMap String Json

/-- The cached fields that `areSessionTurnRecordsEqual` compares besides the
    ones above. -/
def COMPARED_FIELDS : List String :=
  ["sessionId", "intent", "sourceSessionId", "sourceTurnId", "userText", "assistantText", "provider", "model",
    "stopReason", "errorMessage", "startedAt", "completedAt", "durationMs", "createdAt", "userContent",
    "assistantContent", "finalUsage", "totalUsage", "summary", "intermediateIndex", "intermediateSummary",
    "authorProfile"]

def areSessionTurnRecordsEqual (current next : SessionTurn) : Bool :=
  current.id == next.id && current.sequence == next.sequence && current.status == next.status &&
    current.userUuid == next.userUuid && current.updatedAt == next.updatedAt &&
    current.metadata.map OrderedMap.entries == next.metadata.map OrderedMap.entries &&
    COMPARED_FIELDS.all fun field => current.others.get? field == next.others.get? field

def areTurnListsEqual (currentTurns nextTurns : List SessionTurn) : Bool :=
  currentTurns.length == nextTurns.length &&
    (currentTurns.zip nextTurns).all fun pair => areSessionTurnRecordsEqual pair.1 pair.2

/-- What the cache calls and does not define. -/
structure Env (Session : Type) where
  /-- `Date.parse`, `none` where it is not finite. -/
  dateParse : String → Option Int
  /-- The session is the one the cache entry is for. -/
  sessionMatchesContext : Session → Bool
  /-- The sessions are equal as JSON. -/
  areJsonEqual : Option Session → Session → Bool

/-! ## Merging -/

def isTerminal : SessionTurnStatus → Bool
  | .completed => true
  | .failed => true
  | .interrupted => true
  | .merged => true
  | .cancelled => true
  | _ => false

def isOptimistic (turn : SessionTurn) : Bool :=
  (turn.metadata.bind fun metadata => metadata.get? "optimistic") == some (.bool true)

def truthyText (text : Option String) : Bool := text.any fun text => text ≠ ""

/-- An object, and not `null` or absent. -/
def present (value : Option Json) : Bool := value.any fun value => value ≠ .null

/-- `{ ...first, ...second }` -/
def spread (first second : SessionTurn) : SessionTurn :=
  { second with others := first.others.setAll second.others.entries }

def incomingUserId (incoming : SessionTurn) : Option Json :=
  ((incoming.metadata.getD .empty).get? "userId").filter fun userId => userId ≠ .null

def withUserId (metadata : OrderedMap String Json) (userId : Option Json) : OrderedMap String Json :=
  match userId with
  | some userId => metadata.set "userId" userId
  | none => metadata

def withAuthorProfile (others : OrderedMap String Json) (incoming : Option Json) : OrderedMap String Json :=
  match incoming with
  | some profile => if present (others.get? "authorProfile") then others else others.set "authorProfile" profile
  | none => others

def mergeAuthorIdentity (current incoming : SessionTurn) : SessionTurn :=
  let nextMeta := withUserId (current.metadata.getD .empty) (incomingUserId incoming)
  let changed :=
    (!truthyText current.userUuid && truthyText incoming.userUuid) ||
      (incomingUserId incoming).any (fun userId => (current.metadata.getD .empty).get? "userId" ≠ some userId) ||
      (!present (current.others.get? "authorProfile") && present (incoming.others.get? "authorProfile"))
  if !changed then current
  else
    { current with
      userUuid := current.userUuid.or incoming.userUuid
      others := withAuthorProfile current.others (incoming.others.get? "authorProfile")
      metadata := if nextMeta.entries.isEmpty then current.metadata else some nextMeta }

section

variable {Session : Type} (env : Env Session)

def mergeTurnRecord (current incoming : SessionTurn) (preferIncoming : Bool) : SessionTurn :=
  if isTerminal current.status && !isTerminal incoming.status then mergeAuthorIdentity current incoming
  else if isTerminal incoming.status && !isTerminal current.status then incoming
  else if isOptimistic current && !isOptimistic incoming then incoming
  else
    let either := if preferIncoming then spread current incoming else spread incoming current
    match env.dateParse current.updatedAt, env.dateParse incoming.updatedAt with
    | some currentTime, some incomingTime =>
        if incomingTime > currentTime then spread current incoming
        else if currentTime > incomingTime then mergeAuthorIdentity current incoming
        else either
    | _, _ => either

def mergeInto (preferIncoming : Bool) (byId : OrderedMap String SessionTurn) (turn : SessionTurn) :
    OrderedMap String SessionTurn :=
  match byId.get? turn.id with
  | none => byId.set turn.id turn
  | some current => byId.set turn.id (mergeTurnRecord env current turn preferIncoming)

def sortTurns (turns : List SessionTurn) : List SessionTurn :=
  turns.insertionSort fun a b => a.sequence ≤ b.sequence

def mergeTurnsById (existing incoming : List SessionTurn) (preferIncoming : Bool) : List SessionTurn :=
  let byId := OrderedMap.ofList (existing.map fun turn => (turn.id, turn))
  sortTurns ((incoming.foldl (mergeInto env preferIncoming) byId).entries.map Prod.snd)

/-! ## The kept turns -/

def MAX_TURNS_PER_SESSION_CACHE : Nat := 500

inductive TrimMode where
  | head
  | tail
  deriving DecidableEq

def anchorIndex (turns : List SessionTurn) (anchorSequence : Nat) : Nat :=
  match turns.findIdx? fun turn => turn.sequence ≥ anchorSequence with
  | some foundIndex => foundIndex
  | none => if anchorSequence < (turns[0]?.map SessionTurn.sequence).getD 0 then 0 else turns.length - 1

def trimTurns (turns : List SessionTurn) (mode : Option TrimMode) (anchorSequence : Option Nat) :
    List SessionTurn :=
  if turns.length ≤ MAX_TURNS_PER_SESSION_CACHE then turns
  else
    match anchorSequence with
    | some anchorSequence =>
        let half := MAX_TURNS_PER_SESSION_CACHE / 2
        let start := min (anchorIndex turns anchorSequence - half) (turns.length - MAX_TURNS_PER_SESSION_CACHE)
        (turns.drop start).take MAX_TURNS_PER_SESSION_CACHE
    | none =>
        if mode = some .head then turns.take MAX_TURNS_PER_SESSION_CACHE
        else turns.drop (turns.length - MAX_TURNS_PER_SESSION_CACHE)

def parseTurnUpdatedAt (turn : SessionTurn) : Int :=
  if turn.updatedAt = "" then 0 else (env.dateParse turn.updatedAt).getD 0

def isIncomingTailOlder (currentTurns incomingTurns : List SessionTurn) : Bool :=
  match currentTurns.getLast?, incomingTurns.getLast? with
  | some currentNewest, some incomingNewest =>
      if incomingNewest.sequence < currentNewest.sequence then true
      else if incomingNewest.sequence > currentNewest.sequence then false
      else parseTurnUpdatedAt env incomingNewest < parseTurnUpdatedAt env currentNewest
  | _, _ => false

/-- The sequence of the first turn of a page. -/
def oldestOf (turns : List SessionTurn) : Nat := (turns[0]?.map SessionTurn.sequence).getD 0

def reconcileTailTurns (currentTurns incomingTurns : List SessionTurn) : List SessionTurn :=
  if incomingTurns.isEmpty then []
  else
    let preservedOlderTurns := currentTurns.filter fun turn => turn.sequence < oldestOf incomingTurns
    mergeTurnsById env preservedOlderTurns incomingTurns true

/-! ## Mutations -/

structure SessionTurnsCacheRecord (Session : Type) where
  session      : Option Session
  turns        : List SessionTurn
  hasMoreOlder : Bool
  /-- Absent in the records of an earlier version. -/
  hasMoreNewer : Option Bool

/-- What a mutation returns: the flags of the record, and turns that may be
    more than the record keeps. -/
structure SessionTurnsSnapshot (Session : Type) where
  session : Option Session
  turns : List SessionTurn
  hasMoreOlder : Bool
  hasMoreNewer : Bool
  oldestSequence : Option Nat
  newestSequence : Option Nat

def toSnapshotWithTurns (record : SessionTurnsCacheRecord Session) (turns : List SessionTurn) :
    SessionTurnsSnapshot Session where
  session := record.session
  turns := turns
  hasMoreOlder := record.hasMoreOlder
  hasMoreNewer := record.hasMoreNewer.getD false
  oldestSequence := turns[0]?.map SessionTurn.sequence
  newestSequence := turns.getLast?.map SessionTurn.sequence

def toSnapshot (record : SessionTurnsCacheRecord Session) : SessionTurnsSnapshot Session :=
  toSnapshotWithTurns record record.turns

def readRecord (stored : Option (SessionTurnsCacheRecord Session)) : Option (SessionTurnsCacheRecord Session) :=
  stored.filter fun record => record.session.all env.sessionMatchesContext

/-- `none` where it throws. -/
def writeRecord (input : SessionTurnsCacheRecord Session) (trimMode : Option TrimMode)
    (trimAnchorSequence : Option Nat) : Option (SessionTurnsCacheRecord Session) :=
  if input.session.any fun session => !env.sessionMatchesContext session then none
  else some { input with turns := trimTurns (sortTurns input.turns) trimMode trimAnchorSequence }

structure TailResponse (Session : Type) where
  session : Session
  turns   : List SessionTurn
  hasMore : Bool

structure OlderResponse (Session : Type) where
  session : Option Session
  turns   : List SessionTurn
  hasMore : Bool

structure MergeOptions (Session : Type) where
  session : Option Session
  preferIncoming : Option Bool
  hasMoreOlder : Option Bool
  hasMoreNewer : Option Bool
  trimAnchorSequence : Option Nat

/-- The record after a mutation, and what it returns.  `none` where it
    throws. -/
abbrev Mutation (Session : Type) :=
  Option (Option (SessionTurnsCacheRecord Session) × Option (SessionTurnsSnapshot Session))

abbrev Stored (Session : Type) := Option (SessionTurnsCacheRecord Session)

def turnsOf (current : Stored Session) : List SessionTurn :=
  match current with
  | some record => record.turns
  | none => []

def hasMoreNewerOf (current : Stored Session) : Bool :=
  match current with
  | some record => record.hasMoreNewer.getD false
  | none => false

def nextHasMoreOlder (current : Stored Session) (response : TailResponse Session) : Bool :=
  let keptLocalOlderTurns := !(turnsOf current).isEmpty && !response.turns.isEmpty &&
    (turnsOf current).any fun turn => turn.sequence < oldestOf response.turns
  if keptLocalOlderTurns then current.any fun record => record.hasMoreOlder else response.hasMore

def tailRecord (current : Stored Session) (response : TailResponse Session) : SessionTurnsCacheRecord Session where
  session := some response.session
  turns := reconcileTailTurns env (turnsOf current) response.turns
  hasMoreOlder := nextHasMoreOlder current response
  hasMoreNewer := some false

def sameRecord (record next : SessionTurnsCacheRecord Session) (session : Session) : Bool :=
  env.areJsonEqual record.session session && record.hasMoreOlder == next.hasMoreOlder &&
    record.hasMoreNewer.getD false == false && areTurnListsEqual record.turns next.turns

def replaceTail (stored : Stored Session) (response : TailResponse Session) : Mutation Session :=
  if !env.sessionMatchesContext response.session then none
  else
    let next := tailRecord env (readRecord env stored) response
    match readRecord env stored with
    | some record =>
        if isIncomingTailOlder env record.turns response.turns || sameRecord env record next response.session then
          some (stored, some (toSnapshot record))
        else (writeRecord env next none none).map fun written => (some written, some (toSnapshot written))
    | none => (writeRecord env next none none).map fun written => (some written, some (toSnapshot written))

def mergeRecord (current : Stored Session) (turns : List SessionTurn) (options : MergeOptions Session) :
    SessionTurnsCacheRecord Session where
  session := options.session.or (current.bind SessionTurnsCacheRecord.session)
  turns := mergeTurnsById env (turnsOf current) turns (options.preferIncoming.getD true)
  hasMoreOlder := options.hasMoreOlder.getD (current.any fun record => record.hasMoreOlder)
  hasMoreNewer := some (options.hasMoreNewer.getD (hasMoreNewerOf current))

def mergeTurns (stored : Stored Session) (turns : List SessionTurn) (options : MergeOptions Session) :
    Mutation Session :=
  let next := mergeRecord env (readRecord env stored) turns options
  (writeRecord env next none options.trimAnchorSequence).map fun written =>
    (some written, some (toSnapshotWithTurns written next.turns))

def remapTurn (previousTurnId nextTurnId : String) (turn : SessionTurn) : SessionTurn :=
  if turn.id ≠ previousTurnId then turn
  else { turn with id := nextTurnId, metadata := turn.metadata.map fun metadata => metadata.delete "optimistic" }

def replaceTurnId (stored : Stored Session) (previousTurnId nextTurnId : String) : Mutation Session :=
  if previousTurnId = nextTurnId then some (stored, (readRecord env stored).map toSnapshot)
  else
    match readRecord env stored with
    | none => some (stored, none)
    | some record =>
        let next : SessionTurnsCacheRecord Session :=
          { record with
            turns := mergeTurnsById env [] (record.turns.map (remapTurn previousTurnId nextTurnId)) true
            hasMoreNewer := some (record.hasMoreNewer.getD false) }
        (writeRecord env next none none).map fun written => (some written, some (toSnapshot written))

def olderRecord (current : Stored Session) (response : OlderResponse Session) : SessionTurnsCacheRecord Session where
  session := response.session.or (current.bind SessionTurnsCacheRecord.session)
  turns := mergeTurnsById env (turnsOf current) response.turns false
  hasMoreOlder := response.hasMore
  hasMoreNewer := some (hasMoreNewerOf current)

def loadOlder (stored : Stored Session) (response : OlderResponse Session) : Mutation Session :=
  let next := olderRecord env (readRecord env stored) response
  (writeRecord env next (some .head) none).map fun written =>
    (some written, some (toSnapshotWithTurns written next.turns))

end

end Cohub.Chat
