import Cohub.Lib.Addressed
import Cohub.Lib.Mealy
import Cohub.Lib.OrderedMap
import Cohub.Lib.Text
import Mathlib.Logic.Function.Basic

/-! # The runtime archive store

    The native file of a local harness is archived once for every Turn.  An
    index lists the segments that the file has beyond the archive of a parent
    Turn, and the segments are kept under their digests.

    Three parties take steps here:

    - A capture, one at a time for a Turn.  It reads the version of the Turn,
      the head of its Session, and the native file, stores segments, and then
      writes the outbox entry, the version and the head, each an atomic file.
    - The drain of the outbox, which uploads and commits parents first.
    - The service, which keeps one final index for a Turn.

    A crash leaves what is on disk and what the service has. -/

namespace Cohub.Runtime

/-! ## Indexes -/

abbrev Bytes := List UInt8

inductive LocalHarness where
  | pi
  | codex
  | claude
  | workbuddy
  | cursor
deriving DecidableEq

def LocalHarness.nativeFormat : LocalHarness → String
  | .pi => "pi.jsonl"
  | .codex => "codex.rollout"
  | .claude => "claude.jsonl"
  | .workbuddy => "codebuddy.jsonl"
  | .cursor => "cursor.jsonl"

structure RuntimeArchiveSegment (δ : Type) where
  offset    : Nat
  sizeBytes : Nat
  sha256    : δ
  md5       : δ
deriving DecidableEq

structure HarnessArchive where
  sessionId : String
  turnId    : String
  harness   : LocalHarness
deriving DecidableEq

structure HarnessArchiveIndex (δ : Type) extends HarnessArchive where
  nativeFormat : String
  nativeSessionId : String
  parentTurnId : Option String
  sizeBytes : Nat
  sha256 : δ
  segments : List (RuntimeArchiveSegment δ)
deriving DecidableEq

/-- The digests of the crypto module, and the test for UUIDs of the schema
    library. -/
structure Host (δ : Type) where
  sha256 : Bytes → δ
  md5    : Bytes → δ
  uuid   : String → Bool

def RUNTIME_ARCHIVE_SEGMENT_BYTES : Nat := 4 * 1024 * 1024

def MAX_SAFE_INTEGER : Nat := 9007199254740991

variable {δ : Type} [DecidableEq δ]

def runtimeArchiveSegmentSchema (segment : RuntimeArchiveSegment δ) : Bool :=
  segment.offset ≤ MAX_SAFE_INTEGER && 1 ≤ segment.sizeBytes
    && segment.sizeBytes ≤ RUNTIME_ARCHIVE_SEGMENT_BYTES

def harnessArchiveIndexSchema (host : Host δ) (index : HarnessArchiveIndex δ) : Bool :=
  host.uuid index.sessionId && host.uuid index.turnId && index.parentTurnId.all host.uuid
    && 1 ≤ Text.utf16Length index.nativeSessionId && Text.utf16Length index.nativeSessionId ≤ 255
    && 1 ≤ index.sizeBytes && index.sizeBytes ≤ MAX_SAFE_INTEGER
    && index.segments.length ≤ 256 && index.segments.all runtimeArchiveSegmentSchema
    && index.nativeFormat == index.harness.nativeFormat

/-- The offset behind the segments, when each starts where the one before ends. -/
def contiguous (offset : Nat) : List (RuntimeArchiveSegment δ) → Option Nat
  | [] => some offset
  | segment :: rest =>
      if segment.offset ≠ offset then none else contiguous (offset + segment.sizeBytes) rest

def validateArchiveBoundary (index : HarnessArchiveIndex δ) (parent : Option (HarnessArchiveIndex δ)) :
    Except String Unit :=
  if index.parentTurnId ≠ parent.map (·.turnId) then .error "Archive parent mismatch"
  else if parent.any fun parent => parent.sessionId ≠ index.sessionId || parent.harness ≠ index.harness
      || parent.nativeSessionId ≠ index.nativeSessionId then .error "Archive identity mismatch"
  else match contiguous ((parent.map (·.sizeBytes)).getD 0) index.segments with
  | none => .error "Archive segments are not contiguous"
  | some offset =>
      if offset ≠ index.sizeBytes || parent.isNone && index.segments.isEmpty then
        .error "Archive is incomplete"
      else if index.segments.isEmpty && parent.map (·.sha256) ≠ some index.sha256 then
        .error "Unchanged archive checksum mismatch"
      else .ok ()

/-! ## The disk -/

/-- The files under the root of the store. -/
structure Disk (δ : Type) where
  objects  : δ → Option Bytes
  pending  : String → Option (HarnessArchiveIndex δ)
  versions : String → Option (HarnessArchiveIndex δ)
  ready    : String → Option δ
  heads    : String × LocalHarness → Option (HarnessArchiveIndex δ)

namespace Disk

def empty : Disk δ :=
  ⟨fun _ => none, fun _ => none, fun _ => none, fun _ => none, fun _ => none⟩

def saveBlob (disk : Disk δ) (sha : δ) (bytes : Bytes) : Disk δ :=
  { disk with objects := Addressed.put disk.objects sha bytes }

def writePending (disk : Disk δ) (index : HarnessArchiveIndex δ) : Disk δ :=
  { disk with pending := Function.update disk.pending index.turnId (some index) }

def removePending (disk : Disk δ) (turnId : String) : Disk δ :=
  { disk with pending := Function.update disk.pending turnId none }

def writeVersion (disk : Disk δ) (index : HarnessArchiveIndex δ) : Disk δ :=
  { disk with versions := Function.update disk.versions index.turnId (some index) }

def writeReady (disk : Disk δ) (index : HarnessArchiveIndex δ) : Disk δ :=
  { disk with ready := Function.update disk.ready index.turnId (some index.sha256) }

def headPath (archive : HarnessArchive) : String × LocalHarness := (archive.sessionId, archive.harness)

def writeHead (disk : Disk δ) (index : HarnessArchiveIndex δ) : Disk δ :=
  { disk with heads := Function.update disk.heads (headPath index.toHarnessArchive) (some index) }

end Disk

/-! ## Captures -/

/-- What `stage` is told about the native file. -/
structure NativeState (δ : Type) where
  sessionId : String
  harness : LocalHarness
  nativeSessionId : String
  sizeBytes : Option Int
  expectedChecksum : Option δ

/-- Where a capture is.  `publishing`, `versioning` and `heading` are before
    the writes of the outbox entry, the version and the head; `bytes` is what
    the native file had when it was read. -/
inductive Phase (δ : Type) where
  | started
  | checking (saved : HarnessArchiveIndex δ)
  | restaging (saved : HarnessArchiveIndex δ)
  | reheading (saved : HarnessArchiveIndex δ)
  | opened (previous : Option (HarnessArchiveIndex δ))
  | storing (parent : Option (HarnessArchiveIndex δ)) (bytes : Bytes)
      (segments : List (RuntimeArchiveSegment δ)) (left : List Bytes)
  | publishing (index : HarnessArchiveIndex δ) (bytes : Bytes)
  | versioning (index : HarnessArchiveIndex δ) (bytes : Bytes)
  | heading (index : HarnessArchiveIndex δ)
deriving DecidableEq

/-- What a step of a capture ends in. -/
inductive Progress (δ : Type) where
  | next (phase : Phase δ)
  | returned
  | thrown (message : String)

/-- The segments of the pieces that start at `offset`. -/
def segmentsOf (host : Host δ) (offset : Nat) : List Bytes → List (RuntimeArchiveSegment δ)
  | [] => []
  | bytes :: rest =>
      ⟨offset, bytes.length, host.sha256 bytes, host.md5 bytes⟩ ::
        segmentsOf host (offset + bytes.length) rest

/-- The archive that the file grew from: the head, where the file still has
    its bytes as a prefix. -/
def parentOf (host : Host δ) (state : NativeState δ) (previous : Option (HarnessArchiveIndex δ))
    (bytes : Bytes) : Option (HarnessArchiveIndex δ) :=
  previous.filter fun previous =>
    previous.nativeSessionId == state.nativeSessionId && previous.sizeBytes ≤ bytes.length
      && host.sha256 (bytes.take previous.sizeBytes) == previous.sha256

/-- Reads the native file, which does not change meanwhile. -/
def scan (host : Host δ) (state : NativeState δ) (previous : Option (HarnessArchiveIndex δ))
    (file : Bytes) : Progress δ :=
  let sizeBytes := state.sizeBytes.getD file.length
  if file.isEmpty then .thrown "Native archive is empty"
  else if sizeBytes < 1 || file.length < sizeBytes then
    .thrown "Native archive boundary is unavailable"
  else
    let bytes := file.take sizeBytes.toNat
    let parent := parentOf host state previous bytes
    let offset := (parent.map (·.sizeBytes)).getD 0
    let suffix := Addressed.pieces RUNTIME_ARCHIVE_SEGMENT_BYTES bytes.length (bytes.drop offset)
    .next (.storing parent bytes (segmentsOf host offset suffix) suffix)

/-- The index of the captured bytes, after its checks. -/
def sealIndex (host : Host δ) (turnId : String) (state : NativeState δ)
    (parent : Option (HarnessArchiveIndex δ)) (bytes : Bytes)
    (segments : List (RuntimeArchiveSegment δ)) : Progress δ :=
  let index : HarnessArchiveIndex δ :=
    { sessionId := state.sessionId, turnId := turnId, harness := state.harness,
      nativeFormat := state.harness.nativeFormat, nativeSessionId := state.nativeSessionId,
      parentTurnId := parent.map (·.turnId), sizeBytes := bytes.length,
      sha256 := host.sha256 bytes, segments := segments }
  if ¬ harnessArchiveIndexSchema host index then .thrown "Invalid archive index"
  else match validateArchiveBoundary index parent with
  | .error message => .thrown message
  | .ok () =>
      if state.expectedChecksum.any (· ≠ index.sha256) then
        .thrown "Native Turn bytes changed during capture; original retained"
      else .next (.publishing index bytes)

/-- The next step of `capture`.  Each writes at most one file. -/
def capture (host : Host δ) (disk : Disk δ) (turnId : String) (state : NativeState δ) (file : Bytes) :
    Phase δ → Disk δ × Progress δ
  | .started =>
      match disk.versions turnId with
      | none => (disk, .next (.opened (disk.heads (state.sessionId, state.harness))))
      | some saved =>
          if saved.sessionId ≠ state.sessionId || saved.harness ≠ state.harness then
            (disk, .thrown "Archive identity mismatch")
          else if state.expectedChecksum.any (· ≠ saved.sha256) then
            (disk, .thrown "Native Turn bytes changed; original archive retained")
          else (disk, .next (.checking saved))
  | .checking saved =>
      match disk.ready turnId with
      | none => (disk, .next (.restaging saved))
      | some _ => (disk, .next (.reheading saved))
  | .restaging saved => (disk.writePending saved, .next (.reheading saved))
  | .reheading saved =>
      match disk.heads (state.sessionId, state.harness) with
      | none => (disk.writeHead saved, .returned)
      | some _ => (disk, .returned)
  | .opened previous => (disk, scan host state previous file)
  | .storing parent bytes segments (blob :: left) =>
      (disk.saveBlob (host.sha256 blob) blob, .next (.storing parent bytes segments left))
  | .storing parent bytes segments [] => (disk, sealIndex host turnId state parent bytes segments)
  | .publishing index bytes => (disk.writePending index, .next (.versioning index bytes))
  | .versioning index _ => (disk.writeVersion index, .next (.heading index))
  | .heading index => (disk.writeHead index, .returned)

/-! ## The service -/

/-- The final indexes by Turn, and the uploaded objects. -/
structure Service (δ : Type) where
  archives : String → Option (HarnessArchiveIndex δ)
  objects  : String × LocalHarness → δ → Option Bytes

/-- A page of an archive: the index, and where its segments are. -/
structure RuntimeArchivePage (δ : Type) where
  index    : HarnessArchiveIndex δ
  segments : List (RuntimeArchiveSegment δ × Option Bytes)

namespace Service

def empty : Service δ := ⟨fun _ => none, fun _ _ => none⟩

/-- A final index, if it is one of this Session. -/
def storedIndex (service : Service δ) (sessionId turnId : String) : Option (HarnessArchiveIndex δ) :=
  (service.archives turnId).filter fun index => index.sessionId == sessionId && index.turnId == turnId

/-- The checks of `validateOwner` on the index itself.  Those on the Turn, its
    owner and its recovery state are part of the answer of the service. -/
def validateOwner (service : Service δ) (index : HarnessArchiveIndex δ) : Bool :=
  match index.parentTurnId with
  | none => (validateArchiveBoundary index none).isOk
  | some parentTurnId =>
      match service.storedIndex index.sessionId parentTurnId with
      | none => false
      | some parent => (validateArchiveBoundary index (some parent)).isOk

def finalized (service : Service δ) (index : HarnessArchiveIndex δ) : Bool :=
  (service.archives index.turnId).all (· == index)

/-- `none` is the failure "Archive segment mismatch". -/
def segmentExists (host : Host δ) (service : Service δ) (index : HarnessArchiveIndex δ)
    (segment : RuntimeArchiveSegment δ) : Option Bool :=
  match service.objects (Disk.headPath index.toHarnessArchive) segment.sha256 with
  | none => some false
  | some object =>
      if object.length ≠ segment.sizeBytes || host.md5 object ≠ segment.md5 then none else some true

/-- One segment for each digest, the last one that has it. -/
def unique (segments : List (RuntimeArchiveSegment δ)) : List (RuntimeArchiveSegment δ) :=
  (OrderedMap.ofList (segments.map fun segment => (segment.sha256, segment))).entries.map (·.2)

/-- The uploads that the service asks for. -/
def prepare (host : Host δ) (service : Service δ) (index : HarnessArchiveIndex δ) :
    Option (List (RuntimeArchiveSegment δ)) :=
  if harnessArchiveIndexSchema host index && service.validateOwner index && service.finalized index then
    (unique index.segments).filterMapM fun segment =>
      (service.segmentExists host index segment).map fun exists_ =>
        if exists_ then none else some segment
  else none

/-- The object storage takes an object once, with the signed length and digest. -/
def upload (host : Host δ) (service : Service δ) (index : HarnessArchiveIndex δ)
    (segment : RuntimeArchiveSegment δ) (bytes : Bytes) : Option (Service δ) :=
  let owner := Disk.headPath index.toHarnessArchive
  match service.objects owner segment.sha256 with
  | some _ => some service
  | none =>
      if bytes.length = segment.sizeBytes && host.md5 bytes = segment.md5 then
        some { service with
          objects := Function.update service.objects owner
            (Addressed.put (service.objects owner) segment.sha256 bytes) }
      else none

def commit (host : Host δ) (service : Service δ) (index : HarnessArchiveIndex δ) :
    Option (Service δ) :=
  if harnessArchiveIndexSchema host index && service.validateOwner index && service.finalized index then
    match service.archives index.turnId with
    | some _ => some service
    | none =>
        if index.segments.all fun segment => service.segmentExists host index segment = some true then
          some { service with archives := Function.update service.archives index.turnId (some index) }
        else none
  else none

def getRuntimeArchive (service : Service δ) (sessionId turnId : String) :
    Option (RuntimeArchivePage δ) :=
  (service.storedIndex sessionId turnId).map fun index =>
    ⟨index, index.segments.map fun segment =>
      (segment, service.objects (Disk.headPath index.toHarnessArchive) segment.sha256)⟩

end Service

/-! ## The drain -/

/-- What becomes of a request: it is carried out and answered, refused, or
    carried out without an answer. -/
inductive Answer where
  | answered
  | refused
  | lost

/-- The index that is being uploaded. -/
inductive Upload (δ : Type) where
  | putting (index : HarnessArchiveIndex δ) (uploads : List (RuntimeArchiveSegment δ))
  | recording (index : HarnessArchiveIndex δ)
  | removing (index : HarnessArchiveIndex δ)

/-- A `drain`: it reads the outbox, name by name, and then takes the queue. -/
inductive Drain (δ : Type) where
  | reading (names : List String) (pending : OrderedMap String (HarnessArchiveIndex δ))
  | sending (pending : OrderedMap String (HarnessArchiveIndex δ)) (queue : List (HarnessArchiveIndex δ))
      (current : Option (Upload δ))

namespace Drain

/-- The parent is in the outbox too. -/
def waits (pending : OrderedMap String (HarnessArchiveIndex δ)) (index : HarnessArchiveIndex δ) : Bool :=
  index.parentTurnId.any pending.has

/-- What can be sent at once. -/
def roots (pending : OrderedMap String (HarnessArchiveIndex δ)) : List (HarnessArchiveIndex δ) :=
  (pending.entries.map (·.2)).filter fun index => !waits pending index

def children (pending : OrderedMap String (HarnessArchiveIndex δ)) (turnId : String) :
    List (HarnessArchiveIndex δ) :=
  (pending.entries.map (·.2)).filter fun index => index.parentTurnId == some turnId

end Drain

/-- The segment's bytes, when the local copy is intact. -/
def readSegment (host : Host δ) (objects : δ → Option Bytes) (segment : RuntimeArchiveSegment δ) :
    Option Bytes :=
  (objects segment.sha256).filter fun bytes =>
    bytes.length == segment.sizeBytes && host.sha256 bytes == segment.sha256

/-- The uploads of the next index are prepared. -/
def prepareNext (host : Host δ) (disk : Disk δ) (service : Service δ) (answer : Answer)
    (pending : OrderedMap String (HarnessArchiveIndex δ)) (index : HarnessArchiveIndex δ)
    (queue : List (HarnessArchiveIndex δ)) : Disk δ × Service δ × Option (Drain δ) :=
  match answer, service.prepare host index with
  | .answered, some uploads =>
      if uploads.length ≤ index.segments.length then
        (disk, service, some (.sending pending queue (some (.putting index uploads))))
      else (disk, service, some (.sending pending queue none))
  | _, _ => (disk, service, some (.sending pending queue none))

/-- One segment of the plan is uploaded. -/
def putSegment (host : Host δ) (disk : Disk δ) (service : Service δ) (answer : Answer)
    (pending : OrderedMap String (HarnessArchiveIndex δ)) (queue : List (HarnessArchiveIndex δ))
    (index : HarnessArchiveIndex δ) (segment : RuntimeArchiveSegment δ)
    (uploads : List (RuntimeArchiveSegment δ)) : Disk δ × Service δ × Option (Drain δ) :=
  let failed := some (.sending pending queue none)
  if segment ∉ index.segments then (disk, service, failed)
  else match readSegment host disk.objects segment with
  | none => (disk, service, failed)
  | some bytes =>
      match answer, service.upload host index segment bytes with
      | .answered, some service =>
          (disk, service, some (.sending pending queue (some (.putting index uploads))))
      | .lost, some service => (disk, service, failed)
      | _, _ => (disk, service, failed)

def commitIndex (host : Host δ) (disk : Disk δ) (service : Service δ) (answer : Answer)
    (pending : OrderedMap String (HarnessArchiveIndex δ)) (queue : List (HarnessArchiveIndex δ))
    (index : HarnessArchiveIndex δ) : Disk δ × Service δ × Option (Drain δ) :=
  match answer, service.commit host index with
  | .answered, some service =>
      (disk, service, some (.sending pending queue (some (.recording index))))
  | .lost, some service => (disk, service, some (.sending pending queue none))
  | _, _ => (disk, service, some (.sending pending queue none))

/-- The next step of `drain`.  A failure of one index leaves its entry, and its
    children, in the outbox. -/
def drain (host : Host δ) (disk : Disk δ) (service : Service δ) (answer : Answer) :
    Drain δ → Disk δ × Service δ × Option (Drain δ)
  | .reading (name :: names) pending =>
      match disk.pending name with
      | none => (disk, service, some (.reading names pending))
      | some index => (disk, service, some (.reading names (pending.set index.turnId index)))
  | .reading [] pending =>
      -- "Cyclic archive outbox"
      if pending.size ≠ 0 && (Drain.roots pending).isEmpty then (disk, service, none)
      else (disk, service, some (.sending pending (Drain.roots pending) none))
  | .sending pending queue (some (.putting index (segment :: uploads))) =>
      putSegment host disk service answer pending queue index segment uploads
  | .sending pending queue (some (.putting index [])) =>
      commitIndex host disk service answer pending queue index
  | .sending pending queue (some (.recording index)) =>
      (disk.writeReady index, service, some (.sending pending queue (some (.removing index))))
  | .sending pending queue (some (.removing index)) =>
      (disk.removePending index.turnId, service,
        some (.sending pending (queue ++ Drain.children pending index.turnId) none))
  | .sending pending (index :: queue) none =>
      prepareNext host disk service answer pending index queue
  | .sending _ [] none => (disk, service, none)

/-! ## Restores -/

/-- The pages from the Turn to the first of its chain. -/
def readPages (host : Host δ) (service : Service δ) (reference : HarnessArchive) :
    Nat → String → List String → Except String (List (RuntimeArchivePage δ))
  | 0, _, _ => .error "Out of fuel"
  | fuel + 1, turnId, visited =>
      if turnId ∈ visited then .error "Cyclic archive"
      else match service.getRuntimeArchive reference.sessionId turnId with
      | none => .error "Archive is not ready"
      | some page =>
          if ¬ harnessArchiveIndexSchema host page.index then .error "Invalid archive index"
          else if page.index.turnId ≠ turnId || page.index.sessionId ≠ reference.sessionId
              || page.index.harness ≠ reference.harness then .error "Archive identity mismatch"
          else match page.index.parentTurnId with
          | none => .ok [page]
          | some parentTurnId =>
              (readPages host service reference fuel parentTurnId (turnId :: visited)).map (page :: ·)

/-- One segment, from the cache or downloaded.  A download is kept. -/
def restoreSegment (host : Host δ) (cache : δ → Option Bytes) (expected : RuntimeArchiveSegment δ)
    (link : Option (RuntimeArchiveSegment δ × Option Bytes)) : (δ → Option Bytes) × Except String Bytes :=
  match cache expected.sha256 with
  | some cached =>
      if cached.length ≠ expected.sizeBytes || host.sha256 cached ≠ expected.sha256 then
        (cache, .error "Cached archive segment is corrupt")
      else (cache, .ok cached)
  | none =>
      match link with
      | none => (cache, .error "Archive segment identity mismatch")
      | some (segment, body) =>
          if segment ≠ expected then (cache, .error "Archive segment identity mismatch")
          else match body with
          | none => (cache, .error "Archive download failed")
          | some body =>
              if expected.sizeBytes < body.length then (cache, .error "Archive size mismatch")
              else if body.length ≠ expected.sizeBytes || host.sha256 body ≠ expected.sha256 then
                (cache, .error "Archive checksum mismatch")
              else (Addressed.put cache expected.sha256 body, .ok body)

/-- The segments of a page, appended to what is written. -/
def restoreSegments (host : Host δ) (links : List (RuntimeArchiveSegment δ × Option Bytes)) :
    Bytes → (δ → Option Bytes) → Nat → List (RuntimeArchiveSegment δ) →
      (δ → Option Bytes) × Except String Bytes
  | written, cache, _, [] => (cache, .ok written)
  | written, cache, ordinal, expected :: rest =>
      match restoreSegment host cache expected links[ordinal]? with
      | (cache, .error message) => (cache, .error message)
      | (cache, .ok bytes) => restoreSegments host links (written ++ bytes) cache (ordinal + 1) rest

/-- The pages in order, parents first. -/
def restorePages (host : Host δ) :
    Bytes → (δ → Option Bytes) → Option (HarnessArchiveIndex δ) → List (RuntimeArchivePage δ) →
      (δ → Option Bytes) × Except String Bytes
  | written, cache, _, [] => (cache, .ok written)
  | written, cache, parent, page :: rest =>
      match validateArchiveBoundary page.index parent with
      | .error message => (cache, .error message)
      | .ok () =>
          if page.segments.length ≠ page.index.segments.length then
            (cache, .error "Missing archive segments")
          else match restoreSegments host page.segments written cache 0 page.index.segments with
          | (cache, .error message) => (cache, .error message)
          | (cache, .ok written) =>
              if host.sha256 written ≠ page.index.sha256 then
                (cache, .error "Archive version checksum mismatch")
              else restorePages host written cache (some page.index) rest

/-- The cache after the downloads, and the index of the Turn with the bytes of
    the target file.  The fuel bounds the pages of the chain. -/
def restore (host : Host δ) (service : Service δ) (fuel : Nat) (cache : δ → Option Bytes)
    (reference : HarnessArchive) : (δ → Option Bytes) × Except String (HarnessArchiveIndex δ × Bytes) :=
  match readPages host service reference fuel reference.turnId [] with
  | .error message => (cache, .error message)
  | .ok pages =>
      match pages.head? with
      | none => (cache, .error "Archive missing")
      | some head =>
          match restorePages host [] cache none pages.reverse with
          | (cache, .error message) => (cache, .error message)
          | (cache, .ok written) =>
              if written.length ≠ head.index.sizeBytes then (cache, .error "Archive length mismatch")
              else (cache, .ok (head.index, written))

/-! ## The system -/

structure Task (δ : Type) where
  state : NativeState δ
  phase : Phase δ

/-- `captured` has the bytes that the native file had at the capture that wrote
    the version of a Turn.  No step reads it. -/
structure World (δ : Type) where
  disk      : Disk δ
  capturing : OrderedMap String (Task δ)
  flushing  : Option (Drain δ)
  service   : Service δ
  captured  : String → Option Bytes

def World.empty : World δ := ⟨Disk.empty, OrderedMap.empty, none, Service.empty, fun _ => none⟩

/-- `file` is what the native file has at that step.  `names` is what the
    outbox directory listed; a name may have gone since. -/
inductive Action (δ : Type) where
  | stage (turnId : String) (state : NativeState δ)
  | advance (turnId : String) (file : Bytes)
  | flush (names : List String)
  | pump (answer : Answer)
  | restore (fuel : Nat) (reference : HarnessArchive)
  | crash

inductive Event where
  | returned (turnId : String)
  | thrown (turnId : String) (message : String)
deriving DecidableEq

/-- What is captured after a step of a capture. -/
def World.capturedAfter (w : World δ) (turnId : String) : Phase δ → String → Option Bytes
  | .versioning _ bytes => Function.update w.captured turnId (some bytes)
  | _ => w.captured

/-- A step of the capture of a Turn. -/
def advance (host : Host δ) (w : World δ) (turnId : String) (task : Task δ) (file : Bytes) :
    World δ × List Event :=
  let result := capture host w.disk turnId task.state file task.phase
  let w' := { w with disk := result.1, captured := w.capturedAfter turnId task.phase }
  match result.2 with
  | .next phase => ({ w' with capturing := w.capturing.set turnId { task with phase := phase } }, [])
  | .returned => ({ w' with capturing := w.capturing.delete turnId }, [.returned turnId])
  | .thrown message => ({ w' with capturing := w.capturing.delete turnId }, [.thrown turnId message])

def step (host : Host δ) (w : World δ) : Action δ → World δ × List Event
  | .stage turnId state =>
      match w.capturing.get? turnId with
      | some _ => (w, [])
      | none => ({ w with capturing := w.capturing.set turnId ⟨state, .started⟩ }, [])
  | .advance turnId file =>
      match w.capturing.get? turnId with
      | none => (w, [])
      | some task => advance host w turnId task file
  | .flush names =>
      match w.flushing with
      | some _ => (w, [])
      | none => ({ w with flushing := some (.reading names OrderedMap.empty) }, [])
  | .pump answer =>
      match w.flushing with
      | none => (w, [])
      | some d =>
          let result := drain host w.disk w.service answer d
          ({ w with disk := result.1, service := result.2.1, flushing := result.2.2 }, [])
  | .restore fuel reference =>
      let objects := (restore host w.service fuel w.disk.objects reference).1
      ({ w with disk := { w.disk with objects := objects } }, [])
  | .crash => ({ w with capturing := OrderedMap.empty, flushing := none }, [])

def machine (host : Host δ) : Mealy (World δ) (Action δ) Event := ⟨step host⟩

end Cohub.Runtime
