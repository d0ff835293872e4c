import Cohub.Stream.RoundTrip

/-! # The runtime stream

    `createRuntimeStream` of `apps/agent/src/stream/runtime-stream.ts`:
    updates collect in one record for each message, a flush captures the dirty
    ones and chains a publication for each, and the publications run one after
    the other while updates and flushes go on.  A publication that fails makes
    the next one of its message a keyframe.

    The timer only calls `flush`, which can be called at any time; `commit` is
    a flush and the removal of a message, `dispose` drops everything.  Neither
    publishes anything else, and neither is modelled. -/

namespace Cohub.Stream

open Cohub.Realtime

/-! ## Updates -/

/-- The ids of a turn.  `sendOutput` lets only UUIDs out. -/
structure StreamIdentity where
  spaceId : String
  sessionId : String
  turnId : String
  userMessageId : String
  turnId_ne : turnId ≠ ""

inductive TextKind where
  | text
  | thinking
  deriving DecidableEq

/-- `RuntimeExecutionEvent`, as far as the stream reads it. -/
inductive RuntimeExecutionEvent where
  | messageStart (ordinal : Nat)
  | textDelta (ordinal index : Nat) (kind : TextKind) (delta : String)
  | contentReplace (ordinal : Nat) (content : List { block : ContentBlock // IsBlock block })
  | other

structure RuntimeMessage where
  sequence : Nat
  blocks   : OrderedMap Nat ContentBlock
  dirty    : Bool
  replace  : Bool
  resync   : Bool

/-- A captured publication. -/
structure PublishJob where
  ordinal : Nat
  content : List ContentBlock
  replace : Bool

/-- The messages, the publications to come and the one that is under way. -/
structure RuntimeStream where
  messages : OrderedMap Nat RuntimeMessage
  chain    : List PublishJob
  running  : Option (PublishJob × SessionStreamEvent)

/-- The record of a message that starts. -/
def RuntimeMessage.empty : RuntimeMessage :=
  { sequence := 0
    blocks := OrderedMap.empty
    dirty := false
    replace := false
    resync := false }

/-- `[...message.blocks].sort(([a], [b]) => a - b).map(([, block]) => block)`. -/
def RuntimeMessage.content (message : RuntimeMessage) : List ContentBlock :=
  (message.blocks.entries.insertionSort fun a b => a.1 ≤ b.1).map (·.2)

/-- The text a delta goes behind. -/
def previousText (previous : Option ContentBlock) : String :=
  match previous with
  | none => ""
  | some block =>
      if block.type? = some (.str "text") then templateString (block.get? "text")
      else if block.type? = some (.str "thinking") then templateString (block.get? "thinking")
      else ""

def deltaBlock (previous : Option ContentBlock) (index : Nat) (kind : TextKind) (delta : String) :
    ContentBlock :=
  match kind with
  | .text => textBlock index (previousText previous ++ delta)
  | .thinking => thinkingBlock index (previousText previous ++ delta)

def replacedBlocks (content : List { block : ContentBlock // IsBlock block }) :
    OrderedMap Nat ContentBlock :=
  OrderedMap.ofList (content.zipIdx.map fun (block, index) =>
    (index, withStreamIndex block.val index))

namespace RuntimeStream

def init : RuntimeStream := { messages := OrderedMap.empty, chain := [], running := none }

/-- `apply`: an update of a message that was not started is an error. -/
def apply (s : RuntimeStream) : RuntimeExecutionEvent → Except String RuntimeStream
  | .messageStart ordinal =>
      if s.messages.has ordinal then .ok s
      else .ok { s with messages := s.messages.set ordinal RuntimeMessage.empty }
  | .textDelta ordinal index kind delta =>
      match s.messages.get? ordinal with
      | none => .error "Runtime stream message was not started"
      | some message =>
          let block := deltaBlock (message.blocks.get? index) index kind delta
          let message := { message with blocks := message.blocks.set index block, dirty := true }
          .ok { s with messages := s.messages.set ordinal message }
  | .contentReplace ordinal content =>
      match s.messages.get? ordinal with
      | none => .error "Runtime stream message was not started"
      | some message =>
          let message :=
            { message with blocks := replacedBlocks content, replace := true, dirty := true }
          .ok { s with messages := s.messages.set ordinal message }
  | .other => .ok s

/-- The publication a flush captures of a message. -/
def capture (ordinal : Nat) (message : RuntimeMessage) : Option PublishJob :=
  if message.dirty then
    some { ordinal := ordinal, content := message.content, replace := message.replace }
  else none

/-- A message behind a flush. -/
def captured (message : RuntimeMessage) : RuntimeMessage :=
  if message.dirty then { message with dirty := false, replace := false } else message

def flush (s : RuntimeStream) : RuntimeStream :=
  { s with
    messages := s.messages.mapValues fun _ message => captured message
    chain := s.chain ++ s.messages.entries.filterMap fun e => capture e.1 e.2 }

/-- The event of a publication with this sequence number. -/
def eventOf (identity : StreamIdentity) (job : PublishJob) (sequence : Nat) (resync : Bool) :
    SessionStreamEvent :=
  { spaceId := identity.spaceId
    sessionId := identity.sessionId
    turnId := some identity.turnId
    messageId := some ("turn:" ++ identity.turnId ++ ":assistant:" ++ toString job.ordinal)
    messageOrdinal := some job.ordinal
    sourceMessageId := some identity.userMessageId
    anchorUserMessageId := some identity.userMessageId
    seq := sequence
    baseSeq := if resync then 0 else sequence - 1
    content := job.content
    snapshotContent := some job.content
    replaceContent := job.replace || resync }

/-- The next publication starts: everything up to `await publish(event)`. -/
def publishNext (identity : StreamIdentity) (s : RuntimeStream) : RuntimeStream :=
  match s.running, s.chain with
  | none, job :: rest =>
      match s.messages.get? job.ordinal with
      | some message =>
          let sequence := message.sequence + 1
          let published := { message with sequence := sequence }
          { messages := s.messages.set job.ordinal published
            chain := rest
            running := some (job, eventOf identity job sequence message.resync) }
      | none => s
  | _, _ => s

/-- The record of a message behind its publication. -/
def settled (succeeded : Bool) (message : RuntimeMessage) : RuntimeMessage :=
  if succeeded then { message with resync := false }
  else { message with resync := true, dirty := true }

/-- The publication that is under way ends. -/
def settle (s : RuntimeStream) (ordinal : Nat) (succeeded : Bool) : RuntimeStream :=
  match s.messages.get? ordinal with
  | some message =>
      { s with messages := s.messages.set ordinal (settled succeeded message), running := none }
  | none => s

end RuntimeStream

/-! ## The system -/

/-- How a publication ends.  One that fails may have built its patch, and the
    patch may have reached the client all the same. -/
inductive PublishOutcome where
  | succeeded (now : Int)
  | refused
  | lost (now : Int)
  | uncertain (now : Int)

namespace PublishOutcome

def ok : PublishOutcome → Bool
  | .succeeded _ => true
  | _ => false

/-- When the patch was built, if it was. -/
def builtAt : PublishOutcome → Option Int
  | .succeeded now | .lost now | .uncertain now => some now
  | .refused => none

/-- The patch reached the client. -/
def delivered : PublishOutcome → Bool
  | .succeeded _ | .uncertain _ => true
  | _ => false

end PublishOutcome

/-- An event that was published, and how that ended. -/
structure Publication where
  event     : SessionStreamEvent
  succeeded : Bool

/-- The stream, the tables of the patch builder, what was published of each
    message, and for each message a client that is handed its patches. -/
structure RuntimeSystem where
  stream    : RuntimeStream
  delta     : PatchDelta
  published : Nat → List Publication
  clients   : Nat → SessionPatchState

namespace RuntimeSystem

/-- Nothing was started. -/
def init : RuntimeSystem :=
  { stream := RuntimeStream.init
    delta := PatchDelta.empty
    published := fun _ => []
    clients := fun _ => createIdleState }

/-- What can happen.  `expire` is a patch of some other stream: it drops what
    is too old from the tables. -/
inductive Action where
  | update (event : RuntimeExecutionEvent)
  | flush
  | publishNext
  | settle (outcome : PublishOutcome)
  | expire (now : Int)

/-- The event as the patch builder gets it: the schema of `sendOutput` drops
    `replaceContent`, a publication without it keeps it. -/
def received (schema : Bool) (event : SessionStreamEvent) : SessionStreamEvent :=
  { event with replaceContent := event.replaceContent && !schema }

/-- The patch of the event is built and perhaps delivered. -/
def publish (schema : Bool) (s : RuntimeSystem) (ordinal : Nat) (event : SessionStreamEvent)
    (now : Int) (delivered : Bool) : RuntimeSystem :=
  let built := buildPatchOpsForContentDelta (received schema event) now s.delta
  let client := ((s.clients ordinal).applyPatch (applyInput event built.1)).2
  { s with
    delta := built.2
    clients := if delivered then Function.update s.clients ordinal client else s.clients }

/-- The publication that is under way ends. -/
def settle (schema : Bool) (s : RuntimeSystem) (outcome : PublishOutcome) : RuntimeSystem :=
  match s.stream.running with
  | none => s
  | some (job, event) =>
      let s := match outcome.builtAt with
        | some now => publish schema s job.ordinal event now outcome.delivered
        | none => s
      { s with
        stream := s.stream.settle job.ordinal outcome.ok
        published := Function.update s.published job.ordinal
          (s.published job.ordinal ++ [{ event := event, succeeded := outcome.ok }]) }

/-- One action.  An update that is an error changes nothing. -/
def step (schema : Bool) (identity : StreamIdentity) (s : RuntimeSystem) : Action → RuntimeSystem
  | .update event =>
      match s.stream.apply event with
      | .ok stream => { s with stream := stream }
      | .error _ => s
  | .flush => { s with stream := s.stream.flush }
  | .publishNext => { s with stream := s.stream.publishNext identity }
  | .settle outcome => settle schema s outcome
  | .expire now => { s with delta := pruneExpired now s.delta }

def machine (schema : Bool) (identity : StreamIdentity) : Mealy RuntimeSystem Action Empty where
  step s action := (step schema identity s action, [])

/-- The system after these actions. -/
def after (schema : Bool) (identity : StreamIdentity) (actions : List Action) : RuntimeSystem :=
  ((machine schema identity).run init actions).1

end RuntimeSystem

end Cohub.Stream
