import Cohub.Lib.Mealy
import Cohub.Lib.OrderedMap
import Mathlib.Logic.Function.Basic

/-! # The directory cache of a browser

    Listings of directories are kept in a store that all tabs of a browser share,
    and each tab has some of them in memory.  A space has an epoch that every
    invalidation and every patch raises, and a fetched listing is stored only if
    the epoch is what it was when the fetch began.

    Reads, commits, patches and invalidations wait for a transaction of the
    store and go on after it, and messages to the other tabs arrive later.  Any
    step of any tab may come between. -/

namespace Cohub.SpaceFs

/-! ## Records and invalidations -/

/-- A directory of a space, its path normalized. -/
structure Dir where
  spaceId : String
  dirPath : String
  deriving DecidableEq

/-- A listing.  `began` is the time at which its fetch began. -/
structure Record (ε : Type) where
  dir     : Dir
  entries : List ε
  began   : Nat
  deriving DecidableEq

/-- What an invalidation is for. -/
structure Targets where
  dirs     : List String
  subtrees : List String
  deriving DecidableEq

/-- An invalidation whose transaction was at the time `at_`. -/
structure Invalidation where
  spaceId : String
  targets : Targets
  at_     : Nat
  deriving DecidableEq

/-- The paths that `deleteMatchingRecords` deletes.  Every path below `root/`
    sorts within the range from `root/` up to `root0`. -/
def Targets.has (targets : Targets) (dirPath : String) : Bool :=
  dirPath ∈ targets.dirs ||
    targets.subtrees.any fun root => root == "" || dirPath == root || (root.toList ++ ['/']).isPrefixOf dirPath.toList

def Invalidation.covers (inv : Invalidation) (dir : Dir) : Bool :=
  inv.spaceId == dir.spaceId && inv.targets.has dir.dirPath

variable {ε : Type}

/-! ## Memory -/

/-- The records of a tab's memory, least recently used first. -/
abbrev Memory (ε : Type) := OrderedMap Dir (Record ε)

def MAX_ENTRIES : Nat := 300

def memoryGet (memory : Memory ε) (dir : Dir) : Option (Record ε) × Memory ε :=
  match memory.get? dir with
  | none => (none, memory)
  | some record => (some record, (memory.delete dir).set dir record)

/-- The oldest entries go while there are more than `MAX_ENTRIES`. -/
def evict (memory : Memory ε) : Memory ε := memory.dropOldest (memory.size - MAX_ENTRIES)

def memorySet (memory : Memory ε) (record : Record ε) : Memory ε :=
  evict ((memory.delete record.dir).set record.dir record)

/-! ## Tabs and the store -/

structure Store (ε : Type) where
  dirs   : Dir → Option (Record ε)
  epochs : String → Nat

/-- A message to another tab.  The invalidation is not part of it: the receiver
    is only told that one happened. -/
inductive Message where
  | updated (dir : Dir) (epoch : Nat)
  | invalidated (spaceId : String) (epoch : Nat) (inv : Option Invalidation)

inductive Running where
  /-- Before the transaction. -/
  | committing (targets : Targets) (fallbackEpoch : Nat)
  /-- After it. -/
  | committed (inv : Invalidation) (epoch : Nat)

/-- The pending invalidation of a space and the one that runs. -/
structure Lane where
  pending : Option Targets
  running : Option Running

/-- What a tab is waiting to go on with.  `seen` is how many invalidations the
    tab knew when the transaction was. -/
inductive Op (ε : Type) where
  /-- `readRecord` after a miss in memory.  `returns` is false where it is for a message. -/
  | reading (dir : Dir) (returns : Bool)
  | read (record : Option (Record ε)) (returns : Bool) (seen : Nat)
  | readingEpoch (dir : Dir)
  | readEpoch (dir : Dir) (epoch : Nat)
  | fetching (dir : Dir) (epoch began : Nat)
  | committing (record : Record ε) (expectedEpoch : Nat)
  | committed (record : Record ε) (epoch seen : Nat)
  | rejected (spaceId : String) (epoch : Nat)
  | patching (dir : Dir) (updater : List ε → List ε) (fallbackEpoch : Nat)
  | patched (record : Record ε) (epoch seen : Nat)
  /-- A patch of a directory that the store does not have. -/
  | unpatched (spaceId : String) (epoch : Nat)
  | done

structure Tab (ε : Type) where
  subscribed : Bool
  memory : Memory ε
  epochs : String → Option Nat
  lanes : String → Lane
  ops : List (Op ε)
  inbox : List Message
  /-- The invalidations that the tab completed or was told of. -/
  known : List Invalidation

def Tab.start : Tab ε := ⟨false, .empty, fun _ => none, fun _ => ⟨none, none⟩, [], [], []⟩

structure World (ε : Type) where
  store   : Store ε
  tabs    : Nat → Tab ε
  /-- The invalidations whose transaction was. -/
  history : List Invalidation
  time    : Nat

def World.start : World ε := ⟨⟨fun _ => none, fun _ => 0⟩, fun _ => .start, [], 0⟩

/-- What a `getDir` of a tab returned, with the invalidations that the tab knew. -/
structure Returned (ε : Type) where
  tab    : Nat
  dir    : Dir
  record : Option (Record ε)
  known  : List Invalidation

/-! ## Epochs and messages -/

def Tab.cacheEpoch (tab : Tab ε) (spaceId : String) (epoch : Nat) : Tab ε :=
  { tab with epochs := Function.update tab.epochs spaceId (some (max ((tab.epochs spaceId).getD 0) epoch)) }

/-- A message that a tab posts comes to the others that listen, perhaps twice:
    by the channel and by the storage event. -/
def World.post (s : World ε) (sender : Nat) (message : Message) : World ε :=
  { s with
    tabs := fun t =>
      if t ≠ sender ∧ (s.tabs t).subscribed then { s.tabs t with inbox := (s.tabs t).inbox ++ [message, message] }
      else s.tabs t }

def World.setTab (s : World ε) (t : Nat) (tab : Tab ε) : World ε := { s with tabs := Function.update s.tabs t tab }

def Tab.setOp (tab : Tab ε) (i : Nat) (op : Op ε) : Tab ε := { tab with ops := tab.ops.set i op }

def Tab.addOp (tab : Tab ε) (op : Op ε) : Tab ε := { tab with ops := tab.ops ++ [op] }

def ensureBroadcastSubscription (tab : Tab ε) : Tab ε := { tab with subscribed := true }

def Tab.clear (tab : Tab ε) (spaceId : String) (epoch : Nat) (inv : Option Invalidation) : Tab ε :=
  { tab.cacheEpoch spaceId epoch with memory := .empty, known := tab.known ++ inv.toList }

/-- `inv` is what is published, if it is more than a patch without a record. -/
def publishInvalidation (s : World ε) (t : Nat) (tab : Tab ε) (spaceId : String) (epoch : Nat)
    (inv : Option Invalidation) : World ε :=
  (s.setTab t (tab.clear spaceId epoch inv)).post t (.invalidated spaceId epoch inv)

def publishRecord (s : World ε) (t : Nat) (tab : Tab ε) (record : Record ε) (epoch : Nat) : World ε :=
  (s.setTab t { tab.cacheEpoch record.dir.spaceId epoch with memory := memorySet tab.memory record }).post t
    (.updated record.dir epoch)

/-- The listener of `ensureBroadcastSubscription`. -/
def receive (tab : Tab ε) : Message → Tab ε
  | .invalidated spaceId epoch inv => tab.clear spaceId epoch inv
  | .updated dir epoch =>
      let tab := { tab.cacheEpoch dir.spaceId epoch with memory := tab.memory.delete dir }
      tab.addOp (.reading dir false)

/-! ## Steps -/

variable (normalizeEntries : List ε → List ε)

def createRecord (dir : Dir) (entries : List ε) (began : Nat) : Record ε := ⟨dir, normalizeEntries entries, began⟩

/-- `getDir`, up to a read of the store. -/
def getDir (s : World ε) (t : Nat) (dir : Dir) : World ε × List (Returned ε) :=
  let tab := ensureBroadcastSubscription (s.tabs t)
  match memoryGet tab.memory dir with
  | (some record, memory) => (s.setTab t { tab with memory := memory }, [⟨t, dir, some record, tab.known⟩])
  | (none, _) => (s.setTab t (tab.addOp (.reading dir true)), [])

/-- A fetch begins when `getEpoch` has returned. -/
def fetch (s : World ε) (t : Nat) (dir : Dir) : World ε :=
  let tab := ensureBroadcastSubscription (s.tabs t)
  match tab.epochs dir.spaceId with
  | some epoch => s.setTab t (tab.addOp (.fetching dir epoch s.time))
  | none => s.setTab t (tab.addOp (.readingEpoch dir))

/-- The listing has come, and `setDirIfEpoch` is called. -/
def reply (s : World ε) (t i : Nat) (entries : List ε) : World ε :=
  let tab := ensureBroadcastSubscription (s.tabs t)
  match tab.ops[i]? with
  | some (.fetching dir epoch began) =>
      s.setTab t (tab.setOp i (.committing (createRecord normalizeEntries dir entries began) epoch))
  | _ => s

def patch (s : World ε) (t : Nat) (dir : Dir) (updater : List ε → List ε) : World ε :=
  let tab := ensureBroadcastSubscription (s.tabs t)
  s.setTab t (tab.addOp (.patching dir updater ((tab.epochs dir.spaceId).getD 0 + 1)))

/-- Targets queued while a transaction runs merge into the next one. -/
def invalidateRecords (s : World ε) (t : Nat) (spaceId : String) (targets : Targets) : World ε :=
  let tab := s.tabs t
  let lane := tab.lanes spaceId
  if targets.dirs = [] ∧ targets.subtrees = [] then s
  else
    let merged := match lane.pending with
      | none => targets
      | some pending => ⟨pending.dirs ++ targets.dirs, pending.subtrees ++ targets.subtrees⟩
    s.setTab t { tab with lanes := Function.update tab.lanes spaceId { lane with pending := some merged } }

/-- The transaction of `commitInvalidation`. -/
def commitInvalidation (s : World ε) (t : Nat) (spaceId : String) (lane : Lane) (targets : Targets)
    (fallbackEpoch : Nat) : World ε :=
  let tab := s.tabs t
  let epoch := max (s.store.epochs spaceId) (fallbackEpoch - 1) + 1
  let inv : Invalidation := ⟨spaceId, targets, s.time⟩
  { s.setTab t
      { tab with lanes := Function.update tab.lanes spaceId { lane with running := some (.committed inv epoch) } } with
    store := ⟨fun dir => if inv.covers dir then none else s.store.dirs dir, Function.update s.store.epochs spaceId epoch⟩
    history := s.history ++ [inv] }

/-- The next step of the invalidations of a space in a tab. -/
def runLane (s : World ε) (t : Nat) (spaceId : String) : World ε :=
  let tab := s.tabs t
  let lane := tab.lanes spaceId
  match lane.running with
  | none =>
      match lane.pending with
      | none => s
      | some targets =>
          let tab := ensureBroadcastSubscription tab
          s.setTab t
            { tab with
              lanes := Function.update tab.lanes spaceId
                ⟨none, some (.committing targets ((tab.epochs spaceId).getD 0 + 1))⟩ }
  | some (.committing targets fallbackEpoch) => commitInvalidation s t spaceId lane targets fallbackEpoch
  | some (.committed inv epoch) =>
      publishInvalidation s t
        { tab with lanes := Function.update tab.lanes spaceId { lane with running := none } } spaceId epoch (some inv)

/-- The transaction of `setDirIfEpoch`. -/
def commitDir (s : World ε) (t i : Nat) (tab : Tab ε) (record : Record ε) (expectedEpoch : Nat) : World ε :=
  let spaceId := record.dir.spaceId
  let epoch := max (s.store.epochs spaceId) ((tab.epochs spaceId).getD 0)
  if epoch ≠ expectedEpoch then s.setTab t (tab.setOp i (.rejected spaceId epoch))
  else
    { s.setTab t (tab.setOp i (.committed record epoch tab.known.length)) with
      store := ⟨Function.update s.store.dirs record.dir (some record), Function.update s.store.epochs spaceId epoch⟩ }

/-- The transaction of `patchRecord`. -/
def commitPatch (s : World ε) (t i : Nat) (tab : Tab ε) (dir : Dir) (updater : List ε → List ε)
    (fallbackEpoch : Nat) : World ε :=
  let epoch := max (s.store.epochs dir.spaceId) (fallbackEpoch - 1) + 1
  let epochs := Function.update s.store.epochs dir.spaceId epoch
  match s.store.dirs dir with
  | none =>
      { s.setTab t (tab.setOp i (.unpatched dir.spaceId epoch)) with store := ⟨s.store.dirs, epochs⟩ }
  | some current =>
      let record := createRecord normalizeEntries dir (updater current.entries) current.began
      { s.setTab t (tab.setOp i (.patched record epoch tab.known.length)) with
        store := ⟨Function.update s.store.dirs dir (some record), epochs⟩ }

/-- The next step of what a tab waits for: its transaction, or what comes after. -/
def act (s : World ε) (t i : Nat) : World ε × List (Returned ε) :=
  let tab := s.tabs t
  match tab.ops[i]? with
  | some (.reading dir returns) =>
      (s.setTab t (tab.setOp i (.read (s.store.dirs dir) returns tab.known.length)), [])
  | some (.read none _ _) => (s.setTab t (tab.setOp i .done), [])
  | some (.read (some record) returns _) =>
      (s.setTab t { tab.setOp i .done with memory := memorySet tab.memory record },
        if returns then [⟨t, record.dir, some record, tab.known⟩] else [])
  | some (.readingEpoch dir) => (s.setTab t (tab.setOp i (.readEpoch dir (s.store.epochs dir.spaceId))), [])
  | some (.readEpoch dir epoch) =>
      let tab := tab.cacheEpoch dir.spaceId epoch
      (s.setTab t (tab.setOp i (.fetching dir ((tab.epochs dir.spaceId).getD 0) s.time)), [])
  | some (.committing record expectedEpoch) => (commitDir s t i tab record expectedEpoch, [])
  | some (.committed record epoch _) => (publishRecord s t (tab.setOp i .done) record epoch, [])
  | some (.rejected spaceId epoch) => (s.setTab t ((tab.setOp i .done).cacheEpoch spaceId epoch), [])
  | some (.patching dir updater fallbackEpoch) => (commitPatch normalizeEntries s t i tab dir updater fallbackEpoch, [])
  | some (.patched record epoch _) => (publishRecord s t (tab.setOp i .done) record epoch, [])
  | some (.unpatched spaceId epoch) => (publishInvalidation s t (tab.setOp i .done) spaceId epoch none, [])
  | _ => (s, [])

def deliver (s : World ε) (t k : Nat) : World ε :=
  let tab := s.tabs t
  match tab.inbox[k]? with
  | none => s
  | some message => s.setTab t (receive { tab with inbox := tab.inbox.eraseIdx k } message)

inductive Input (ε : Type) where
  | getDir (t : Nat) (dir : Dir)
  | fetch (t : Nat) (dir : Dir)
  | reply (t i : Nat) (entries : List ε)
  | patch (t : Nat) (dir : Dir) (updater : List ε → List ε)
  | invalidate (t : Nat) (spaceId : String) (targets : Targets)
  | runLane (t : Nat) (spaceId : String)
  | act (t i : Nat)
  | deliver (t k : Nat)

def World.tick (s : World ε) : World ε := { s with time := s.time + 1 }

def next (s : World ε) (input : Input ε) : World ε × List (Returned ε) :=
  let s := s.tick
  match input with
  | .getDir t dir => getDir s t dir
  | .fetch t dir => (fetch s t dir, [])
  | .reply t i entries => (reply normalizeEntries s t i entries, [])
  | .patch t dir updater => (patch s t dir updater, [])
  | .invalidate t spaceId targets => (invalidateRecords s t spaceId targets, [])
  | .runLane t spaceId => (runLane s t spaceId, [])
  | .act t i => act normalizeEntries s t i
  | .deliver t k => (deliver s t k, [])

def browser : Mealy (World ε) (Input ε) (Returned ε) := ⟨next normalizeEntries⟩

end Cohub.SpaceFs
