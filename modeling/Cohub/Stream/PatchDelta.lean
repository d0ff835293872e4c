import Cohub.Stream.Blocks

/-! # Patches of a stream: the producer

    `apps/agent/src/stream/patch-delta.ts`: the producer compares the content
    of a message with what it published last and writes the difference as patch
    operations.  Two module-wide tables carry what it published: a snapshot for
    each block and, for each message, the path of the last append, so that an
    append at the same path can be sent as a bare value.

    The clock is an argument: one reading `now` stands for the readings a call
    makes.  A difference is built from keys (`Edit`); `renderEdit` writes it as
    an operation with its path. -/

namespace Cohub.Stream

open Cohub.Realtime

/-! ## Events and tables -/

/-- `SessionStreamEvent`, a content update of a message. -/
structure SessionStreamEvent where
  spaceId : String
  sessionId : String
  turnId : Option String
  messageId : Option String
  messageOrdinal : Option Nat
  sourceMessageId : Option String
  anchorUserMessageId : Option String
  seq : Int
  baseSeq : Int
  content : List ContentBlock
  snapshotContent : Option (List ContentBlock)
  replaceContent : Bool
  deriving DecidableEq

/-- The envelope that `sendOutput` puts around the operations of an event. -/
def SessionStreamEvent.envelope (event : SessionStreamEvent)
    (ops : List RealtimePatchOperation) : SessionTurnPatch :=
  { spaceId := some event.spaceId
    sessionId := some event.sessionId
    turnId := event.turnId
    messageId := event.messageId
    messageOrdinal := event.messageOrdinal
    sourceMessageId := event.sourceMessageId
    anchorUserMessageId := event.anchorUserMessageId
    seq := event.seq
    baseSeq := event.baseSeq
    ops := ops }

structure AppendPatchCursor where
  p          : String
  lastSeenAt : Int
  deriving DecidableEq

structure StreamBlockSnapshot where
  lastSeenAt : Int
  block      : ContentBlock
  deriving DecidableEq

/-- The tables of the module. -/
structure PatchDelta where
  appendPatchCursors   : OrderedMap String AppendPatchCursor
  streamBlockSnapshots : OrderedMap String StreamBlockSnapshot

/-- The tables when the process starts. -/
def PatchDelta.empty : PatchDelta :=
  { appendPatchCursors := OrderedMap.empty, streamBlockSnapshots := OrderedMap.empty }

def PATCH_CURSOR_MAX_AGE_MS : Int := 10 * 60 * 1000

def patchCursorKey (event : SessionStreamEvent) : String :=
  event.sessionId ++ ":" ++
    (getSessionTurnPatchStreamKey (event.envelope [])).getD "unknown"

/-- A member in a template string.  (The schema of a block makes the members
    that are read so strings.) -/
def templateString : Option Json → String
  | some (.str s) => s
  | some (.num n) => numberToString n
  | some (.bool b) => toString b
  | some .null => "null"
  | none => "undefined"
  | _ => "[object Object]"

def blockSnapshotIdentity (block : ContentBlock) : String :=
  if block.type? = some (.str "tool_use") then "tool_use:" ++ templateString (block.get? "id")
  else if block.type? = some (.str "tool_result") then
    "tool_result:" ++ templateString (block.get? "tool_use_id")
  else templateString block.type?

def streamBlockSnapshotKey (event : SessionStreamEvent) (streamIndex : Rat)
    (block : ContentBlock) : String :=
  patchCursorKey event ++ ":" ++ numberToString streamIndex ++ ":" ++ blockSnapshotIdentity block

def pruneExpired (now : Int) (s : PatchDelta) : PatchDelta :=
  { appendPatchCursors := s.appendPatchCursors.filter fun _ cursor =>
      decide (now - cursor.lastSeenAt ≤ PATCH_CURSOR_MAX_AGE_MS)
    streamBlockSnapshots := s.streamBlockSnapshots.filter fun _ snap =>
      decide (now - snap.lastSeenAt ≤ PATCH_CURSOR_MAX_AGE_MS) }

/-- `key.startsWith(prefix)` for the prefix of the keys of an event's message. -/
def isSnapshotKeyOf (event : SessionStreamEvent) (key : String) : Bool :=
  (patchCursorKey event ++ ":").toList.isPrefixOf key.toList

def clearStreamBlockSnapshotsForEvent (event : SessionStreamEvent) (s : PatchDelta) : PatchDelta :=
  { s with streamBlockSnapshots :=
      s.streamBlockSnapshots.filter fun key _ => !isSnapshotKeyOf event key }

/-! ## Differences -/

/-- What an operation does at its place. -/
inductive Edit where
  | append  (suffix : String)
  | replace (v : Json)
  deriving DecidableEq

def MAX_BLOCK_DIFF_DEPTH : Nat := 48

/-- The keys of both objects, in order. -/
def unionKeys (prev next : Fields) : List String :=
  (prev.keys ++ next.keys).dedup.insertionSort (· ≤ ·)

/-- The loop over the keys of two objects: `none` where the previous object
    has a key that the next one lacks, or where `diff` falls back. -/
def diffMembers (diff : Option Json → Json → Option (List (List String × Edit)))
    (prev next : Fields) : List String → Option (List (List String × Edit))
  | [] => some []
  | k :: rest =>
      match next.get? k with
      | none => none
      | some v =>
          (diff (prev.get? k) v).bind fun child =>
            (diffMembers diff prev next rest).map fun out =>
              child.map (fun e => (k :: e.1, e.2)) ++ out

/-- `diffUnknownToOps`, with the segments relative to the value: `none` is
    `"fallback"`.  The first argument counts the levels that are left; a key is
    only visited where the next value has it. -/
def diffUnknownToOps : Nat → Option Json → Json → Option (List (List String × Edit))
  | 0, _, _ => none
  | _ + 1, none, next => some [([], .replace next)]
  | _ + 1, some (.str prev), .str next =>
      if prev.toList.isPrefixOf next.toList ∧ prev.toList.length < next.toList.length then
        some [([], .append (String.ofList (next.toList.drop prev.toList.length)))]
      else if prev ≠ next then some [([], .replace (.str next))]
      else some []
  | levels + 1, some (.obj prev), .obj next =>
      diffMembers (diffUnknownToOps levels) prev next (unionKeys prev next)
  | _ + 1, some prev, next => if prev ≠ next then some [([], .replace next)] else some []

/-- The edits of `diffContentBlocksToOps`: every member but `type`. -/
def diffContentBlocks (prev : Option ContentBlock) (next : ContentBlock) :
    Option (List (List String × Edit)) :=
  match prev with
  | none => none
  | some prev =>
      if !blockIdentityCompatible prev next then none
      else diffMembers (diffUnknownToOps (MAX_BLOCK_DIFF_DEPTH + 1)) prev next
        ((unionKeys prev next).filter (· ≠ "type"))

def renderEdit (blockBasePath : String) (e : List String × Edit) : RealtimePatchOperation :=
  match e.2 with
  | .append suffix => .append (joinPointerPath blockBasePath e.1) (.str suffix)
  | .replace v => .replace (joinPointerPath blockBasePath e.1) v

def diffContentBlocksToOps (blockBasePath : String) (prev : Option ContentBlock)
    (next : ContentBlock) : Option (List RealtimePatchOperation) :=
  (diffContentBlocks prev next).map (List.map (renderEdit blockBasePath))

/-- `getStreamIndex(block, fallback)`. -/
def streamIndexOr (block : ContentBlock) (fallback : Rat) : Rat :=
  (getStreamIndex block).getD fallback

def resolveFullBlockFromSnapshot (snapshotContent : Option (List ContentBlock)) (streamIndex : Rat)
    (deltaBlock : ContentBlock) : ContentBlock :=
  ((snapshotContent.getD []).find? fun b =>
    streamIndexOr b (-1) = streamIndex && blockIdentityCompatible b deltaBlock).getD deltaBlock

/-! ## Compaction -/

/-- The loop of `compactAppendPatchOps`. -/
def compactLoop (now : Int) :
    Option AppendPatchCursor → List RealtimePatchOperation →
      List RealtimePatchOperation × Option AppendPatchCursor
  | cursor, [] => ([], cursor)
  | cursor, .append p v :: rest =>
      let op := if cursor.map (·.p) = some p then .value v else .append p v
      let later := compactLoop now (some { p := p, lastSeenAt := now }) rest
      (op :: later.1, later.2)
  | cursor, op :: rest =>
      let later := compactLoop now cursor rest
      (op :: later.1, later.2)

def startCursor (event : SessionStreamEvent) (s : PatchDelta) : Option AppendPatchCursor :=
  if event.baseSeq = 0 then none else s.appendPatchCursors.get? (patchCursorKey event)

def compactAppendPatchOps (event : SessionStreamEvent) (now : Int)
    (ops : List RealtimePatchOperation) (s : PatchDelta) :
    List RealtimePatchOperation × PatchDelta :=
  let s := pruneExpired now s
  let compacted := compactLoop now (startCursor event s) ops
  (compacted.1,
    { s with appendPatchCursors :=
        match compacted.2 with
        | some cursor => s.appendPatchCursors.set (patchCursorKey event) cursor
        | none => s.appendPatchCursors.delete (patchCursorKey event) })

def getAppendPathForStreamEvent (event : SessionStreamEvent) (s : PatchDelta) : Option String :=
  (s.appendPatchCursors.get? (patchCursorKey event)).map (·.p)

/-! ## Building a patch -/

def keyframeOps (event : SessionStreamEvent) : List RealtimePatchOperation :=
  [.replace "/message/status" (.str "streaming"), .replace "/message/end_turn" (.bool false),
    .merge "/message/metadata"
      (Fields.assign [("is_complete", .bool false)]
        ([("turnId", event.turnId), ("anchorUserMessageId", event.anchorUserMessageId)].filterMap
          fun (k, id) => (id.filter (· ≠ "")).map fun id => (k, .str id)))]

/-- `Number(key.slice(prefix.length).split(":")[0])`.  (It is read where the
    block has no index of its own; the key then has a position.) -/
def snapshotKeyIndex (event : SessionStreamEvent) (key : String) : Rat :=
  Nat.ofDigitChars 10
    ((key.toList.drop (patchCursorKey event ++ ":").toList.length).takeWhile Char.isDigit) 0

/-- The indices of an event's content. -/
def retainedIndices (event : SessionStreamEvent) : List Rat :=
  (event.snapshotContent.getD event.content).zipIdx.map fun (block, index) =>
    streamIndexOr block index

/-- The index of a stored block of the event's message that the content no
    longer has. -/
def droppedIndex (event : SessionStreamEvent) (key : String) (snap : StreamBlockSnapshot) :
    Option Rat :=
  let index := streamIndexOr snap.block (snapshotKeyIndex event key)
  if isSnapshotKeyOf event key ∧ index ∉ retainedIndices event then some index else none

/-- The indices to remove, from the last to the first. -/
def removedIndices (event : SessionStreamEvent) (s : PatchDelta) : List Rat :=
  (s.streamBlockSnapshots.entries.filterMap fun e => droppedIndex event e.1 e.2).dedup.insertionSort
    (fun a b => b ≤ a)

def blockOps (event : SessionStreamEvent) (s : PatchDelta) (deltaBlock : ContentBlock)
    (index : Nat) : List RealtimePatchOperation :=
  let streamIndex := streamIndexOr deltaBlock index
  let path := blockPath streamIndex
  let nextFull := resolveFullBlockFromSnapshot event.snapshotContent streamIndex deltaBlock
  let prevFull := (s.streamBlockSnapshots.get?
    (streamBlockSnapshotKey event streamIndex deltaBlock)).map (·.block)
  match diffContentBlocksToOps path prevFull nextFull with
  | some diffResult => diffResult
  | none => [.replace path (.obj nextFull)]

/-- The snapshot stored for one block of the content. -/
def storeBlock (event : SessionStreamEvent) (now : Int) (s : PatchDelta)
    (deltaBlock : ContentBlock) (index : Nat) : PatchDelta :=
  let streamIndex := streamIndexOr deltaBlock index
  let snapshot : StreamBlockSnapshot :=
    { lastSeenAt := now
      block := resolveFullBlockFromSnapshot event.snapshotContent streamIndex deltaBlock }
  { s with streamBlockSnapshots :=
      s.streamBlockSnapshots.set (streamBlockSnapshotKey event streamIndex deltaBlock) snapshot }

/-- The loop over the content. -/
def contentOps (event : SessionStreamEvent) (now : Int) :
    PatchDelta → List (ContentBlock × Nat) → List RealtimePatchOperation × PatchDelta
  | s, [] => ([], s)
  | s, (deltaBlock, index) :: rest =>
      let later := contentOps event now (storeBlock event now s deltaBlock index) rest
      (blockOps event s deltaBlock index ++ later.1, later.2)

def keyframePart (event : SessionStreamEvent) (s : PatchDelta) :
    List RealtimePatchOperation × PatchDelta :=
  if event.baseSeq = 0 then (keyframeOps event, clearStreamBlockSnapshotsForEvent event s)
  else ([], s)

/-- The branch for replaced content. -/
def replacePart (event : SessionStreamEvent) (s : PatchDelta) :
    List RealtimePatchOperation × PatchDelta :=
  if event.replaceContent then
    ((removedIndices event s).map fun index => .remove (blockPath index),
      { appendPatchCursors := s.appendPatchCursors.delete (patchCursorKey event)
        streamBlockSnapshots := s.streamBlockSnapshots.filter fun key snap =>
          droppedIndex event key snap = none })
  else ([], s)

/-- The operations of a patch before their compaction, and the tables then. -/
def patchOps (event : SessionStreamEvent) (now : Int) (s : PatchDelta) :
    List RealtimePatchOperation × PatchDelta :=
  let keyframe := keyframePart event s
  let replaced := replacePart event keyframe.2
  let blocks := contentOps event now replaced.2 event.content.zipIdx
  (keyframe.1 ++ replaced.1 ++ blocks.1, blocks.2)

def buildPatchOpsForContentDelta (event : SessionStreamEvent) (now : Int) (s : PatchDelta) :
    List RealtimePatchOperation × PatchDelta :=
  let built := patchOps event now s
  compactAppendPatchOps event now built.1 built.2

end Cohub.Stream
