import Mathlib
import Cohub.Lib.Mealy
import Cohub.Lib.OrderedMap

/-! # Watching files

    Changes of one path are merged until the next flush, which hands on one
    batch.  When too many paths are pending, or something asks for it, the
    pending changes are dropped and the next batch asks for a resync.

    The world beside the watcher has the file system and a consumer.  A change
    happens, is given to `enqueue` some time later, and its batch is applied
    later still, so a resync loads a file system that may be ahead of the
    changes that are on their way.  The invariant is that all of these, applied
    to the consumer's paths with today's file system for every resync, give the
    file system.

    `create` adds a path and `delete` removes it.  Whether a `modify` says that
    the path is there is left to the reader of the batch (`Reading`). -/

namespace Cohub.Sandbox

/-! ## The watcher -/

inductive ChangeKind where
  | create
  | modify
  | delete
deriving DecidableEq

structure Change (Path : Type) where
  path     : Path
  kind     : ChangeKind
  nodeType : String
  mtimeMs  : Int
  size     : Int
deriving DecidableEq

structure Batch (Path : Type) where
  seq     : Nat
  resync  : Bool
  changes : List (Change Path)

def maxBatchSize : Nat := 500

/-- What the lock guards; `timer` says that a flush is due. -/
structure Watcher (Path : Type) where
  pending : OrderedMap Path (Change Path)
  resync  : Bool
  seq     : Nat
  timer   : Bool
  closed  : Bool

variable {Path : Type}

def mergeChange (a b : Change Path) : Change Path :=
  if b.kind = .delete then b
  else if a.kind = .delete then { b with kind := .create }
  else if a.kind = .create then { b with kind := .create }
  else b

namespace Watcher

def start : Watcher Path where
  pending := OrderedMap.empty
  resync := false
  seq := 0
  timer := false
  closed := false

section
variable [LinearOrder Path]

/-- `enqueue`, and whether the caller should go on. -/
def enqueue (w : Watcher Path) (change : Change Path) : Watcher Path × Bool :=
  if w.closed then (w, false)
  else if w.resync then ({ w with timer := true }, false)
  else match w.pending.get? change.path with
    | none =>
        if maxBatchSize ≤ w.pending.size then
          ({ w with pending := OrderedMap.empty, resync := true, timer := true }, false)
        else ({ w with pending := w.pending.set change.path change, timer := true }, true)
    | some previous =>
        ({ w with pending := w.pending.set change.path (mergeChange previous change),
                  timer := true }, true)

def enqueueResync (w : Watcher Path) : Watcher Path :=
  if w.closed then w
  else { w with pending := OrderedMap.empty, resync := true, timer := true }

def sortChanges (changes : List (Change Path)) : List (Change Path) :=
  changes.mergeSort fun a b => a.path ≤ b.path

/-- `flush`, and the batch for the handler. -/
def flush (w : Watcher Path) : Watcher Path × Option (Batch Path) :=
  if w.closed then (w, none)
  else
    let changes := w.pending.entries.map Prod.snd
    let w' := { w with pending := OrderedMap.empty, resync := false, timer := false }
    if w.resync = false ∧ changes = [] then (w', none)
    else ({ w' with seq := w.seq + 1 },
      some { seq := w.seq + 1, resync := w.resync, changes := sortChanges changes })

end

end Watcher

/-! ## The consumer and the runs -/

/-- What a `modify` says of the path: that it is there, or nothing. -/
inductive Reading where
  | adds
  | keeps
deriving DecidableEq

/-- Whether the path is there after a change of it, where the change says so. -/
def Reading.effect (reading : Reading) : ChangeKind → Option Bool
  | .create => some true
  | .delete => some false
  | .modify => if reading = .adds then some true else none

section
variable [LinearOrder Path]

def Reading.apply (reading : Reading) (paths : Finset Path) (change : Change Path) : Finset Path :=
  match reading.effect change.kind with
  | some true => insert change.path paths
  | some false => paths.erase change.path
  | none => paths

def Reading.applyAll (reading : Reading) (paths : Finset Path) (changes : List (Change Path)) :
    Finset Path :=
  changes.foldl reading.apply paths

/-- A batch; a resync loads what is there. -/
def Reading.applyBatch (reading : Reading) (present paths : Finset Path) (batch : Batch Path) :
    Finset Path :=
  reading.applyAll (if batch.resync then present else paths) batch.changes

/-- `happened` are all changes so far, of which `waiting` were not enqueued yet.
    `batches` were not applied yet. -/
structure WatchWorld (Path : Type) where
  watcher  : Watcher Path
  happened : List (Change Path)
  waiting  : List (Change Path)
  batches  : List (Batch Path)
  paths    : Finset Path

inductive WatchEvent (Path : Type) where
  | happen (change : Change Path)
  | enqueue
  | resync
  | flush
  | deliver

namespace WatchWorld

def start (paths : Finset Path) : WatchWorld Path where
  watcher := .start
  happened := []
  waiting := []
  batches := []
  paths := paths

def step (reading : Reading) (initial : Finset Path) (w : WatchWorld Path) :
    WatchEvent Path → WatchWorld Path
  | .happen change =>
      { w with happened := w.happened ++ [change], waiting := w.waiting ++ [change] }
  | .enqueue =>
      match w.waiting with
      | [] => w
      | change :: rest => { w with watcher := (w.watcher.enqueue change).1, waiting := rest }
  | .resync => { w with watcher := w.watcher.enqueueResync }
  | .flush =>
      let flushed := w.watcher.flush
      { w with watcher := flushed.1, batches := w.batches ++ flushed.2.toList }
  | .deliver =>
      match w.batches with
      | [] => w
      | batch :: rest =>
          let present := reading.applyAll initial w.happened
          { w with batches := rest, paths := reading.applyBatch present w.paths batch }

def machine (reading : Reading) (initial : Finset Path) :
    Mealy (WatchWorld Path) (WatchEvent Path) Empty where
  step w event := (w.step reading initial event, [])

/-- Nothing is on its way to the consumer. -/
structure Quiet (w : WatchWorld Path) : Prop where
  waiting : w.waiting = []
  pending : w.watcher.pending.entries = []
  resync  : w.watcher.resync = false
  batches : w.batches = []

end WatchWorld

def firstKind (path : Path) (changes : List (Change Path)) : Option ChangeKind :=
  (changes.find? fun change => change.path = path).map Change.kind

/-- No deleted path is modified before it was created again. -/
def Recreated : List (Change Path) → Prop
  | [] => True
  | change :: rest =>
      (change.kind = .delete → firstKind change.path rest ≠ some .modify) ∧ Recreated rest

instance decidableRecreated : (changes : List (Change Path)) → Decidable (Recreated changes)
  | [] => isTrue trivial
  | change :: rest =>
      let _ := decidableRecreated rest
      inferInstanceAs (Decidable ((change.kind = .delete →
        firstKind change.path rest ≠ some .modify) ∧ Recreated rest))

end

end Cohub.Sandbox
