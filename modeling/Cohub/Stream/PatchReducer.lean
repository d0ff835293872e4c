import Cohub.Stream.Blocks

/-! # Patches of a stream: the client

    `packages/sdk/src/session-patch-reducer.ts`: the reducer keeps the content
    of the message that is being streamed and applies patches to it.  It keeps
    one state for each session; a call reads and writes the state of its own
    session only, so the functions below are about one state. -/

namespace Cohub.Stream

open Cohub.Realtime

/-! ## Writes to blocks -/

def findBlockByStreamIndex (blocks : List ContentBlock) (streamIndex : Rat) : Option Nat :=
  blocks.findIdx? fun block => getStreamIndex block = some streamIndex

def findBlockForReplacement (blocks : List ContentBlock) (streamIndex : Rat)
    (nextBlock : ContentBlock) : Option Nat :=
  let compatibleIndex := blocks.findIdx? fun block =>
    getStreamIndex block = some streamIndex && blockIdentityCompatible block nextBlock
  let sameStreamIndex := findBlockByStreamIndex blocks streamIndex
  compatibleIndex <|> if isToolBlock nextBlock then none else sameStreamIndex

/-- The order of `sortBlocksByStreamIndex`: `a` may stand before `b`. -/
def streamIndexLe (a b : ContentBlock) : Bool :=
  match getStreamIndex a, getStreamIndex b with
  | _, none => true
  | none, some _ => false
  | some aIndex, some bIndex => aIndex ≤ bIndex

def sortBlocksByStreamIndex (blocks : List ContentBlock) : List ContentBlock :=
  blocks.insertionSort fun a b => streamIndexLe a b = true

def setDeepOnContentBlock (value : Json) (root : ContentBlock) (segments : List String) :
    Option ContentBlock :=
  JsonPointer.modify (fun _ => some value) root segments

/-- Add to a string; anything else refuses. -/
def appendToString (suffix : String) : Option Json → Option Json
  | some (.str leaf) => some (.str (leaf ++ suffix))
  | _ => none

def appendDeepOnContentBlock (suffix : String) (root : ContentBlock) (segments : List String) :
    Option ContentBlock :=
  JsonPointer.modify (appendToString suffix) root segments

/-- The empty block `resolveBlockForSubpath` starts when no block has the
    index. -/
def emptyBlock (streamIndex : Rat) (firstSegment : String) : Option ContentBlock :=
  let _meta := Json.obj [("streamIndex", .num streamIndex)]
  if firstSegment = "text" then
    some [("_meta", _meta), ("text", .str ""), ("type", .str "text")]
  else if firstSegment = "thinking" then
    some [("_meta", _meta), ("thinking", .str ""), ("type", .str "thinking")]
  else none

/-- Write below the block that `resolveBlockForSubpath` finds or starts. -/
def writeAtBlockSubpath (write : ContentBlock → List String → Option ContentBlock)
    (blocks : List ContentBlock) (streamIndex : Rat) (encodedTail : String) :
    Option (List ContentBlock) :=
  let segs := JsonPointer.decode encodedTail
  match findBlockByStreamIndex blocks streamIndex with
  | some idx => (blocks[idx]?.bind fun block => write block segs).map fun block => blocks.set idx block
  | none =>
      ((emptyBlock streamIndex (segs.headD "")).bind fun block => write block segs).map
        fun block => blocks ++ [block]

def applyReplaceAtBlockSubpath (blocks : List ContentBlock) (streamIndex : Rat)
    (encodedTail : String) (value : Json) : Option (List ContentBlock) :=
  writeAtBlockSubpath (setDeepOnContentBlock value) blocks streamIndex encodedTail

def applyAppendAtBlockSubpath (blocks : List ContentBlock) (streamIndex : Rat)
    (encodedTail : String) : Json → Option (List ContentBlock)
  | .str suffix => writeAtBlockSubpath (appendDeepOnContentBlock suffix) blocks streamIndex encodedTail
  | _ => none

def appendPatchStreamValue (blocks : List ContentBlock) (path : String) (value : Json) :
    Option (List ContentBlock) :=
  (matchBlockSubPath path).bind fun (streamIndex, encodedTail) =>
    applyAppendAtBlockSubpath blocks streamIndex encodedTail value

/-- The members that spreading a value into an object adds. -/
def spreadMembers : Option Json → Fields
  | some (.obj fs) => fs
  | some (.arr xs) => Fields.assign [] (xs.zipIdx.map fun (x, i) => (toString i, x))
  | some (.str s) =>
      Fields.assign [] (s.toList.zipIdx.map fun (c, i) => (toString i, .str (String.singleton c)))
  | _ => []

/-- The block with its index written into its metadata. -/
def withStreamIndex (block : ContentBlock) (streamIndex : Rat) : ContentBlock :=
  block.set "_meta" (.obj ((spreadMembers (block.get? "_meta")).set "streamIndex" (.num streamIndex)))

/-- A whole block: `replace` and `add` at the path of a block. -/
def replaceBlock (blocks : List ContentBlock) (path : String) (v : Json) : List ContentBlock :=
  match matchBlockPath path, v with
  | some streamIndex, .obj fs =>
      if (Fields.get? fs "type").isSome then
        let block := withStreamIndex fs streamIndex
        match findBlockForReplacement blocks streamIndex block with
        | some blockIndex => blocks.set blockIndex block
        | none => blocks ++ [block]
      else blocks
  | _, _ => blocks

/-- `remove` at the path of a block. -/
def removeBlock (blocks : List ContentBlock) (path : String) : List ContentBlock :=
  match matchBlockPath path with
  | some streamIndex =>
      match findBlockByStreamIndex blocks streamIndex with
      | some blockIndex => blocks.eraseIdx blockIndex
      | none => blocks
  | none => blocks

/-- `merge` at the metadata of a block. -/
def mergeBlockMeta (blocks : List ContentBlock) (path : String) (v : Fields) : List ContentBlock :=
  match matchBlockMetaPath path with
  | some streamIndex =>
      match findBlockByStreamIndex blocks streamIndex with
      | some blockIndex =>
          blocks.modify blockIndex fun block =>
            block.set "_meta" (.obj ((spreadMembers (block.get? "_meta")).assign v))
      | none => blocks
  | none => blocks

/-! ## Patch operations -/

/-- The variables of the loop of `applyPatchOpsToBlocks`. -/
structure PatchBlocks where
  next : List ContentBlock
  anchorUserMessageId : Option String
  appendPath : Option String
  deriving DecidableEq

/-- The anchor that a merge into the message's metadata names. -/
def anchorOf (v : Fields) : Option String :=
  getNonEmptyString ((v.get? "anchorUserMessageId").bind Json.asString?)

/-- One operation: `none` if it fails.  (No path of an append is empty, so an
    empty `appendPath` fails like a missing one.) -/
def applyPatchOp (s : PatchBlocks) : RealtimePatchOperation → Option PatchBlocks
  | .value v =>
      (s.appendPath.bind fun path => appendPatchStreamValue s.next path v).map fun next =>
        { s with next := next }
  | .append p v =>
      (appendPatchStreamValue s.next p v).map fun next =>
        { s with next := next, appendPath := some p }
  | .merge p v =>
      if p = "/message/metadata" then
        some { s with anchorUserMessageId := anchorOf v <|> s.anchorUserMessageId }
      else some { s with next := mergeBlockMeta s.next p v }
  | .replace p v =>
      match matchBlockSubPath p with
      | some (streamIndex, encodedTail) =>
          (applyReplaceAtBlockSubpath s.next streamIndex encodedTail v).map fun next =>
            { s with next := next }
      | none => some { s with next := replaceBlock s.next p v }
  | .add p v => some { s with next := replaceBlock s.next p v }
  | .remove p => some { s with next := removeBlock s.next p }

/-- `applyPatchOpsToBlocks`: `none` if an operation fails. -/
def applyPatchOpsToBlocks (current : List ContentBlock) (ops : List RealtimePatchOperation)
    (initialAppendPath : Option String) : Option PatchBlocks :=
  (ops.foldlM applyPatchOp
    { next := current, anchorUserMessageId := none, appendPath := initialAppendPath }).map
      fun s => { s with next := sortBlocksByStreamIndex s.next }

/-! ## The reducer -/

inductive SessionPatchStatus where
  | idle
  | pending
  | streaming
  | completed
  | failed
  | interrupted
  deriving DecidableEq

def isTerminalPatchStatus : SessionPatchStatus → Bool
  | .completed | .failed | .interrupted => true
  | .idle | .pending | .streaming => false

/-- `SessionPatchState`, without the ids of the space and the session. -/
structure SessionPatchState where
  status : SessionPatchStatus
  contentBlocks : List ContentBlock
  anchorUserMessageId : Option String
  patchSeq : Int
  turnId : Option String
  appendPath : Option String
  deriving DecidableEq

/-- `createIdleState`: what `get` returns for a session without a state. -/
def createIdleState : SessionPatchState :=
  { status := .idle
    contentBlocks := []
    anchorUserMessageId := none
    patchSeq := 0
    turnId := none
    appendPath := none }

structure SessionPatchApplyInput where
  turnId : Option String
  seq : Int
  baseSeq : Int
  ops : List RealtimePatchOperation
  anchorUserMessageId : Option String

structure SessionPatchSnapshotInput where
  turnId : Option String
  seq : Int
  contentBlocks : List ContentBlock
  anchorUserMessageId : Option String
  appendPath : Option String

/-- `SessionPatchApplyResult`, without the state. -/
inductive SessionPatchApplyResult where
  | applied
  | duplicate
  | versionMismatch
  deriving DecidableEq

namespace SessionPatchState

/-- A string that is neither absent nor empty. -/
def isTruthy (s : Option String) : Bool := s.any (· ≠ "")

def isDifferentKnownTurn (current : SessionPatchState) (turnId : Option String) : Bool :=
  isTruthy current.turnId && isTruthy turnId && current.turnId ≠ turnId

def isTerminalSameTurn (current : SessionPatchState) (turnId : Option String) : Bool :=
  isTerminalPatchStatus current.status && isTruthy current.turnId && current.turnId = turnId

def isSameTurnKeyframe (current : SessionPatchState) (input : SessionPatchApplyInput) : Bool :=
  isTruthy current.turnId && isTruthy input.turnId && current.turnId = input.turnId &&
    input.baseSeq = 0 && current.patchSeq ≤ input.seq

def isFreshKnownTurn (current : SessionPatchState) (input : SessionPatchApplyInput) : Bool :=
  current.isDifferentKnownTurn input.turnId && input.baseSeq = 0

def currentSeq (current : SessionPatchState) (input : SessionPatchApplyInput) : Int :=
  if current.isFreshKnownTurn input then 0 else current.patchSeq

def startingFresh (current : SessionPatchState) (input : SessionPatchApplyInput) : Bool :=
  input.baseSeq = 0 || current.isFreshKnownTurn input || current.isSameTurnKeyframe input

/-- The content and the append path a patch is applied to. -/
def base (current : SessionPatchState) (input : SessionPatchApplyInput) :
    List ContentBlock × Option String :=
  if current.startingFresh input then ([], none) else (current.contentBlocks, current.appendPath)

/-- The checks of `applyPatch` before the operations. -/
def refusal (current : SessionPatchState) (input : SessionPatchApplyInput) :
    Option SessionPatchApplyResult :=
  if current.isTerminalSameTurn input.turnId then some .duplicate
  else if current.isDifferentKnownTurn input.turnId && !current.isFreshKnownTurn input then
    some .versionMismatch
  else if !current.isSameTurnKeyframe input && input.seq ≤ current.currentSeq input then
    some .duplicate
  else if !current.isSameTurnKeyframe input && input.baseSeq ≠ current.currentSeq input then
    some .versionMismatch
  else none

def applyPatch (current : SessionPatchState) (input : SessionPatchApplyInput) :
    SessionPatchApplyResult × SessionPatchState :=
  match current.refusal input with
  | some reason => (reason, current)
  | none =>
      match applyPatchOpsToBlocks (current.base input).1 input.ops (current.base input).2 with
      | none => (.versionMismatch, current)
      | some patched =>
          (.applied,
            { status := .streaming
              contentBlocks := patched.next
              anchorUserMessageId := patched.anchorUserMessageId <|> input.anchorUserMessageId
                <|> current.anchorUserMessageId
              patchSeq := input.seq
              turnId := input.turnId <|> current.turnId
              appendPath := patched.appendPath })

def applySnapshot (current : SessionPatchState) (input : SessionPatchSnapshotInput) :
    SessionPatchApplyResult × SessionPatchState :=
  if current.isTerminalSameTurn input.turnId ||
      (!current.isDifferentKnownTurn input.turnId && input.seq < current.patchSeq) then
    (.duplicate, current)
  else
    (.applied,
      { status := .streaming
        contentBlocks := sortBlocksByStreamIndex input.contentBlocks
        anchorUserMessageId := input.anchorUserMessageId <|> current.anchorUserMessageId
        patchSeq := input.seq
        turnId := input.turnId <|> current.turnId
        appendPath := input.appendPath })

def start (current : SessionPatchState) (turnId : Option String) : SessionPatchState :=
  { current with
    status := .pending
    contentBlocks := []
    anchorUserMessageId := none
    patchSeq := 0
    turnId := turnId
    appendPath := none }

def replaceTurnId (current : SessionPatchState) (nextTurnId : Option String) : SessionPatchState :=
  { current with turnId := nextTurnId }

/-- `complete` and `fail`: the content is dropped. -/
def finish (status : SessionPatchStatus) (current : SessionPatchState) (turnId : Option String) :
    SessionPatchState :=
  { current with
    turnId := turnId <|> current.turnId
    status := status
    contentBlocks := []
    anchorUserMessageId := none }

def complete := finish .completed

def fail := finish .failed

/-- `interrupt`: the append path is dropped as well. -/
def interrupt (current : SessionPatchState) (turnId : Option String) : SessionPatchState :=
  { finish .interrupted current turnId with appendPath := none }

theorem base_eq (current : SessionPatchState) (input : SessionPatchApplyInput) :
    current.base input =
      if input.baseSeq = 0 then ([], none) else (current.contentBlocks, current.appendPath) := by
  unfold base startingFresh isFreshKnownTurn isSameTurnKeyframe
  by_cases h : input.baseSeq = 0 <;> simp [h]

variable {current : SessionPatchState} {input : SessionPatchApplyInput}

theorem patchSeq_of_accepted (h : current.refusal input = none) (hbase : input.baseSeq ≠ 0) :
    current.patchSeq = input.baseSeq := by
  have hkey : current.isSameTurnKeyframe input = false := by simp [isSameTurnKeyframe, hbase]
  have hfresh : current.isFreshKnownTurn input = false := by simp [isFreshKnownTurn, hbase]
  unfold refusal currentSeq at h
  rw [hkey, hfresh] at h
  by_contra hne
  have hne' : input.baseSeq ≠ current.patchSeq := fun heq => hne heq.symm
  simp only [Bool.not_false, Bool.and_true, Bool.true_and, Bool.false_eq_true, if_false] at h
  split at h
  · cases h
  · split at h
    · cases h
    · split at h
      · cases h
      · rw [if_pos (by simpa using hne')] at h
        cases h

theorem refusal_ne_applied (current : SessionPatchState) (input : SessionPatchApplyInput) :
    current.refusal input ≠ some .applied := by
  unfold refusal
  split_ifs <;> exact nofun

theorem applyPatch_applied {next : SessionPatchState}
    (h : current.applyPatch input = (.applied, next)) :
    current.refusal input = none ∧
      ∃ patched, applyPatchOpsToBlocks (current.base input).1 input.ops (current.base input).2 =
          some patched ∧
        next.contentBlocks = patched.next ∧ next.patchSeq = input.seq ∧
        next.turnId = (input.turnId <|> current.turnId) ∧ next.status = .streaming ∧
        next.appendPath = patched.appendPath := by
  unfold applyPatch at h
  split at h
  · next reason hrefusal =>
    injection h with hreason
    subst hreason
    exact absurd hrefusal (refusal_ne_applied current input)
  · next hrefusal =>
    split at h
    · injection h with hreason
      cases hreason
    · next patched hpatched =>
      injection h with _ hnext
      subst hnext
      exact ⟨hrefusal, patched, hpatched, rfl, rfl, rfl, rfl, rfl⟩

theorem applyPatch_of_ops {patched : PatchBlocks} (hrefusal : current.refusal input = none)
    (hpatched : applyPatchOpsToBlocks (current.base input).1 input.ops (current.base input).2 =
      some patched) :
    ∃ next, current.applyPatch input = (.applied, next) := by
  unfold applyPatch
  rw [hrefusal]
  simp only [hpatched]
  exact ⟨_, rfl⟩

end SessionPatchState

end Cohub.Stream
