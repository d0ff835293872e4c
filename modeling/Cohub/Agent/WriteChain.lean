import Mathlib.Logic.Relation
import Cohub.Agent.Rewrite
import Cohub.Lib.WriteQueue

/-! # The write chain of a session manager

    Entries are appended to memory at once and to the session file by tasks of
    a promise chain.  A task appends one line, or rewrites the file with the
    entries that are in memory when it runs.  `archiveAndRewrite` awaits the
    chain, then the copy of the file, and then the chain again:

    - A flush awaits the tasks that are in the chain when it is called.
    - After an error all tasks are skipped, and none is queued, until
      `removeLastEntry` or a rollback clears it and queues a rewrite.
    - `fileReady` tells an append to queue its own line.

    One `archiveAndRewrite` is under way at a time: its caller has the lock of
    the session, and awaits it. -/

namespace Cohub.Agent

/-! ## The file and its tasks -/

/-- A line of the file.  `fragment` is what a failed or unfinished write left. -/
inductive SessionLine where
  | header (header : SessionHeader)
  | entry (entry : SessionEntry)
  | fragment (text : String)
deriving DecidableEq

/-- The header followed by the entries. -/
def SessionFile.lines (m : SessionFile) : List SessionLine :=
  .header m.header :: m.entries.map .entry

/-- The task that runs: it has passed the check of `writeError`, or it is a
    rewrite that has serialised the entries. -/
inductive WriteJob where
  | started (task : WriteTask SessionLine)
  | writing (lines : List SessionLine)
deriving DecidableEq

/-- Where an `archiveAndRewrite` awaits.  `late` has the entries that were
    appended since the branch was read, and since memory was replaced. -/
inductive ArchivePhase where
  | flushing (remaining : Nat)
  | copying (cut : CompactionCut) (late : List SessionEntry)
  | settling (remaining : Nat) (saved : SessionFile) (late : List SessionEntry)

/-- An `archiveAndRewrite` under way, and the entries appended since its call. -/
structure ArchiveCall where
  compactionEntryId : String
  firstKeptEntryId : String
  awaited : List SessionEntry
  phase : ArchivePhase

namespace ArchiveCall

def appended (call : ArchiveCall) (entry : SessionEntry) : ArchiveCall where
  compactionEntryId := call.compactionEntryId
  firstKeptEntryId := call.firstKeptEntryId
  awaited := call.awaited ++ [entry]
  phase := match call.phase with
    | .flushing remaining => .flushing remaining
    | .copying cut late => .copying cut (late ++ [entry])
    | .settling remaining saved late => .settling remaining saved (late ++ [entry])

def without (removed : SessionEntry) (entries : List SessionEntry) : List SessionEntry :=
  entries.filter fun entry => entry.id ≠ removed.id

/-- A removed entry is not awaited any more. -/
def removed (call : ArchiveCall) (entry : SessionEntry) : ArchiveCall where
  compactionEntryId := call.compactionEntryId
  firstKeptEntryId := call.firstKeptEntryId
  awaited := without entry call.awaited
  phase := match call.phase with
    | .flushing remaining => .flushing remaining
    | .copying cut late => .copying cut (without entry late)
    | .settling remaining saved late => .settling remaining saved (without entry late)

def settledTask (call : ArchiveCall) : ArchiveCall :=
  { call with phase := match call.phase with
    | .flushing remaining => .flushing (remaining - 1)
    | .copying cut late => .copying cut late
    | .settling remaining saved late => .settling (remaining - 1) saved late }

end ArchiveCall

/-- The manager, its write chain, the file, and the calls that await:
    `flushes` has the number of tasks that each `flush` still awaits. -/
structure WriteWorld where
  manager : SessionFile
  fileReady : Bool
  writeError : Bool
  current : Option WriteJob
  queue : List (WriteTask SessionLine)
  disk : List SessionLine
  flushes : List Nat
  call : Option ArchiveCall

namespace WriteWorld

/-! ## Operations -/

def pending (w : WriteWorld) : Nat := w.current.toList.length + w.queue.length

def enqueueWrite (w : WriteWorld) (task : WriteTask SessionLine) : WriteWorld :=
  if w.writeError then w else { w with queue := w.queue ++ [task] }

/-- `appendEntry` with its `appendToFile`. -/
def appendEntry (w : WriteWorld) (id timestamp : String) (data : EntryData) : WriteWorld :=
  let entry : SessionEntry := { id, parentId := leafId w.manager.entries, timestamp, data }
  let appended : WriteWorld := { w with
    manager := { w.manager with entries := appendAt w.manager.entries id timestamp data },
    call := w.call.map fun call => call.appended entry }
  appended.enqueueWrite (if w.fileReady then .append (.entry entry) else .rewrite)

/-- `setSessionFile` of the same path. -/
def rewrite (w : WriteWorld) : WriteWorld := { w with fileReady := false }.enqueueWrite .rewrite

def removeLastEntry (w : WriteWorld) : WriteWorld :=
  match w.manager.entries.getLast? with
  | none => w
  | some removed =>
      if removed.isCompaction then
        enqueueWrite { w with
          manager := w.manager.removeLastEntry, writeError := false, fileReady := false,
          call := w.call.map fun call => call.removed removed } .rewrite
      else w

/-- The running or skipped task settles. -/
def settle (w : WriteWorld) : WriteWorld :=
  { w with
    current := none, flushes := w.flushes.map fun remaining => remaining - 1,
    call := w.call.map ArchiveCall.settledTask }

/-- `archiveAndRewrite` after the copy, for a cut whose entry is a compaction. -/
def swap (w : WriteWorld) (source : IdSource) (now : String) (call : ArchiveCall)
    (cut : CompactionCut) : WriteWorld :=
  let swapped := enqueueWrite { w with
    manager := {
      header := { w.manager.header with compactionArchive := some w.manager.nextArchive },
      entries := rewriteChain source now (ids w.manager.entries) cut },
    fileReady := false } .rewrite
  { swapped with call := some { call with phase := .settling swapped.pending w.manager [] } }

/-- The `catch` of `archiveAndRewrite`. -/
def rollback (w : WriteWorld) (saved : SessionFile) : WriteWorld :=
  enqueueWrite { w with
    manager := saved, writeError := false, fileReady := false, call := none } .rewrite

end WriteWorld

/-! ## Steps -/

inductive WriteOp where
  | append
  | rewrite
  | removeLastEntry
  | flush
  | flushReturns
  | archiveAndRewrite
  /-- The first flush of `archiveAndRewrite` returns or throws. -/
  | flushed
  | copyFails
  | swap
  /-- Its second flush returns. -/
  | settled
  | rollback
  /-- A task of the chain starts, or is skipped after an error. -/
  | start
  | serialize
  | finish
  | fails
  | streamError
deriving DecidableEq

/-- One operation, or one step of the chain or of a call that awaits. -/
inductive WriteStep (w : WriteWorld) : WriteOp → WriteWorld → Prop where
  | append (id timestamp : String) (data : EntryData) (hnonempty : id ≠ "")
      (hfresh : id ∉ ids w.manager.entries) (hcall : ∀ call ∈ w.call, id ≠ call.compactionEntryId) :
      WriteStep w .append (w.appendEntry id timestamp data)
  | rewrite : WriteStep w .rewrite w.rewrite
  | removeLastEntry : WriteStep w .removeLastEntry w.removeLastEntry
  | flush : WriteStep w .flush { w with flushes := w.flushes ++ [w.pending] }
  | flushReturns (before after : List Nat) (hdone : w.flushes = before ++ 0 :: after) :
      WriteStep w .flushReturns { w with flushes := before ++ after }
  | archiveAndRewrite (compactionEntryId firstKeptEntryId : String) (hcall : w.call = none) :
      WriteStep w .archiveAndRewrite
        { w with call := some { compactionEntryId, firstKeptEntryId, awaited := [],
                                phase := .flushing w.pending } }
  /-- It throws, or its entries are not on the branch. -/
  | stopped (call : ArchiveCall) (hcall : w.call = some call) (hphase : call.phase = .flushing 0)
      (hstopped : w.writeError = true ∨ cutBranch (getBranch w.manager.entries)
        call.compactionEntryId call.firstKeptEntryId = none) :
      WriteStep w .flushed { w with call := none }
  | flushed (call : ArchiveCall) (cut : CompactionCut) (hcall : w.call = some call)
      (hphase : call.phase = .flushing 0) (hok : w.writeError = false)
      (hcut : cutBranch (getBranch w.manager.entries) call.compactionEntryId call.firstKeptEntryId =
        some cut) :
      WriteStep w .flushed { w with call := some { call with phase := .copying cut [] } }
  /-- `mkdir` or `copyFile` throws, or the entry is not a compaction. -/
  | copyFails (call : ArchiveCall) (cut : CompactionCut) (late : List SessionEntry)
      (hcall : w.call = some call) (hphase : call.phase = .copying cut late) :
      WriteStep w .copyFails { w with call := none }
  | swap (source : IdSource) (now : String) (call : ArchiveCall) (cut : CompactionCut)
      (late : List SessionEntry) (hcall : w.call = some call)
      (hphase : call.phase = .copying cut late) (hcompaction : cut.compaction.isCompaction)
      (hsource : ∀ existing, source.generate existing ∉ ids cut.branch) :
      WriteStep w .swap (w.swap source now call cut)
  | settled (call : ArchiveCall) (saved : SessionFile) (late : List SessionEntry)
      (hcall : w.call = some call) (hphase : call.phase = .settling 0 saved late)
      (hok : w.writeError = false) : WriteStep w .settled { w with call := none }
  | rollback (call : ArchiveCall) (saved : SessionFile) (late : List SessionEntry)
      (hcall : w.call = some call) (hphase : call.phase = .settling 0 saved late)
      (herror : w.writeError = true) : WriteStep w .rollback (w.rollback saved)
  | start (task : WriteTask SessionLine) (rest : List (WriteTask SessionLine))
      (hidle : w.current = none) (hqueue : w.queue = task :: rest) (hok : w.writeError = false) :
      WriteStep w .start { w with current := some (.started task), queue := rest }
  | skip (task : WriteTask SessionLine) (rest : List (WriteTask SessionLine))
      (hidle : w.current = none) (hqueue : w.queue = task :: rest) (herror : w.writeError = true) :
      WriteStep w .start { w with queue := rest }.settle
  /-- The rewrite serialises the entries, and `writeFile` truncates the file. -/
  | serialize (disk : List SessionLine) (hjob : w.current = some (.started .rewrite)) :
      WriteStep w .serialize { w with current := some (.writing w.manager.lines), disk }
  | written (lines : List SessionLine) (hjob : w.current = some (.writing lines)) :
      WriteStep w .finish { w with disk := lines, fileReady := true }.settle
  | appended (line : SessionLine) (hjob : w.current = some (.started (.append line))) :
      WriteStep w .finish { w with disk := w.disk ++ [line] }.settle
  /-- The running task fails, after a part of its write or none. -/
  | fails (job : WriteJob) (disk : List SessionLine) (hjob : w.current = some job) :
      WriteStep w .fails { w with disk, writeError := true }.settle
  | streamError : WriteStep w .streamError { w with writeError := true }

/-- The steps in which a flush returns. -/
def WriteOp.flushes (op : WriteOp) : Prop := op = .flushReturns ∨ op = .flushed ∨ op = .settled

namespace WriteWorld

/-- The tasks that are still to run, and to serialise. -/
def ahead (w : WriteWorld) : List (WriteTask SessionLine) :=
  match w.current with
  | some (.started task) => task :: w.queue
  | _ => w.queue

/-- What the file has before these. -/
def base (w : WriteWorld) : List SessionLine :=
  match w.current with
  | some (.writing lines) => lines
  | _ => w.disk

def Quiet (w : WriteWorld) : Prop := w.current = none ∧ w.queue = []

/-- No append finds the file ready while a rewrite has yet to serialise, and
    nothing is appended between the moments at which an `archiveAndRewrite`
    reads the branch and replaces memory, or replaces memory and rolls back. -/
def Careful (w : WriteWorld) : WriteOp → Prop
  | .append => w.fileReady = true → w.writeError = false → WriteTask.rewrite ∉ w.ahead
  | .swap => ∀ call ∈ w.call, ∀ cut late, call.phase = .copying cut late → late = []
  | .rollback => ∀ call ∈ w.call, ∀ remaining saved late,
      call.phase = .settling remaining saved late → late = []
  | _ => True

/-- An entry, up to its link. -/
def Has (entries : List SessionEntry) (entry : SessionEntry) : Prop :=
  ∃ same ∈ entries, same.id = entry.id ∧ same.data = entry.data

/-- A new session file, or one that was read with a chain of entries. -/
inductive Start : WriteWorld → Prop where
  | created (header : SessionHeader) :
      Start { manager := { header, entries := [] }, fileReady := false, writeError := false,
              current := none, queue := [.rewrite], disk := [], flushes := [], call := none }
  | opened (m : SessionFile) (hlinear : Linear m.entries) (hnodup : (ids m.entries).Nodup)
      (hnonempty : "" ∉ ids m.entries) :
      Start { manager := m, fileReady := true, writeError := false, current := none, queue := [],
              disk := m.lines, flushes := [], call := none }

end WriteWorld

end Cohub.Agent
