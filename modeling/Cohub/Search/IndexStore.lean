import Cohub.Lib.Interrupted
import Cohub.Lib.Mealy
import Cohub.Lib.OrderedMap
import Cohub.Lib.Utf8
import Mathlib.Data.List.Sort

/-! # The search index of a workspace

    The service keeps three things on disk: the committed documents, a snapshot
    of the file fingerprints they were made from, and two markers.  It holds a
    snapshot in memory as well, which an incremental update moves ahead of the
    one on disk.

    A call reads the workspace at many moments, and the workspace may be another
    at each.  `Seen` gives what the call finds at each of its points, and whether
    the effect there is done, fails, or never comes because the process is
    killed. -/

namespace Cohub.Search

open Interrupted Utf8 List

/-! ## Paths -/

def slashed (path : List Char) : List Char := path.map fun c => if c = '\\' then '/' else c

def parts (path : List Char) : List (List Char) :=
  ((slashed path).splitOn '/').filter fun part => part ≠ [] && part ≠ ['.']

/-- The text `normalize_relative_path` returns. -/
def normalizeText (path : List Char) : Option (List Char) :=
  if (slashed path).head? = some '/' then none
  else if ['.', '.'] ∈ parts path then none
  else if parts path = [] then none
  else some (['/'].intercalate (parts path))

theorem of_mem_splitOn {part l : List Char} {x : Char} (h : part ∈ l.splitOn x) :
    x ∉ part ∧ part ⊆ l := by
  induction l generalizing part with
  | nil =>
    rw [splitOn_nil, mem_singleton] at h
    simp [h]
  | cons c rest ih =>
    rw [splitOn_cons_eq_if_modifyHead] at h
    split at h
    · rcases mem_cons.mp h with rfl | h
      · simp
      · exact ⟨(ih h).1, fun d hd => mem_cons_of_mem _ ((ih h).2 hd)⟩
    · rename_i hc
      obtain ⟨first, others, hsplit⟩ := exists_cons_of_ne_nil (splitOn_ne_nil x rest)
      rw [hsplit, modifyHead_cons] at h
      rcases mem_cons.mp h with rfl | h
      · obtain ⟨hnot, hsub⟩ := @ih first (by simp [hsplit])
        refine ⟨?_, cons_subset_cons c hsub⟩
        rw [mem_cons]
        rintro (rfl | hx)
        · simp at hc
        · exact hnot hx
      · obtain ⟨hnot, hsub⟩ := @ih part (by simp [hsplit, h])
        exact ⟨hnot, fun d hd => mem_cons_of_mem _ (hsub hd)⟩

theorem of_mem_parts {path part : List Char} (h : part ∈ parts path) :
    part ≠ [] ∧ part ≠ ['.'] ∧ '/' ∉ part ∧ '\\' ∉ part := by
  obtain ⟨hsplit, hkept⟩ := mem_filter.mp h
  obtain ⟨hslash, hsub⟩ := of_mem_splitOn hsplit
  simp only [Bool.and_eq_true, decide_eq_true_eq] at hkept
  refine ⟨hkept.1, hkept.2, hslash, fun hback => ?_⟩
  obtain ⟨c, -, hc⟩ := mem_map.mp (hsub hback)
  split at hc
  · simp at hc
  · exact absurd hc ‹_›

theorem mem_intercalate {sep c : Char} {l : List (List Char)} (h : c ∈ [sep].intercalate l) :
    c = sep ∨ ∃ part ∈ l, c ∈ part := by
  induction l with
  | nil => simp at h
  | cons part rest ih =>
    cases rest with
    | nil => exact .inr ⟨part, by simp, by simpa using h⟩
    | cons next others =>
      rw [intercalate_cons_cons, append_assoc] at h
      rcases mem_append.mp h with h | h
      · exact .inr ⟨part, by simp, h⟩
      · rcases mem_append.mp h with h | h
        · exact .inl (mem_singleton.mp h)
        · rcases ih h with rfl | ⟨found, hfound, hc⟩
          · exact .inl rfl
          · exact .inr ⟨found, mem_cons_of_mem _ hfound, hc⟩

variable {path : List Char}

theorem slashed_of_not_mem (h : '\\' ∉ path) : slashed path = path := by
  unfold slashed
  refine (map_congr_left fun c hc => ?_).trans (map_id path)
  rw [if_neg fun (hback : c = '\\') => h (hback ▸ hc)]
  rfl

theorem normalizeText_idem {p : List Char} (h : normalizeText path = some p) :
    normalizeText p = some p := by
  unfold normalizeText at h
  split at h
  · simp at h
  split at h
  · simp at h
  split at h
  · simp at h
  rename_i hdots hne
  obtain rfl := Option.some.inj h
  -- The joined text has no backslash and splits into the same names.
  have hsame : slashed (['/'].intercalate (parts path)) = ['/'].intercalate (parts path) := by
    refine slashed_of_not_mem fun hback => ?_
    rcases mem_intercalate hback with hslash | ⟨part, hpart, hc⟩
    · simp at hslash
    · exact (of_mem_parts hpart).2.2.2 hc
  have hparts : parts (['/'].intercalate (parts path)) = parts path := by
    rw [parts, hsame, splitOn_intercalate '/' (fun part hpart => (of_mem_parts hpart).2.2.1) hne]
    refine filter_eq_self.mpr fun part hpart => ?_
    simp [(of_mem_parts hpart).1, (of_mem_parts hpart).2.1]
  have hhead : (['/'].intercalate (parts path)).head? ≠ some '/' := by
    obtain ⟨part, rest, hcons⟩ := exists_cons_of_ne_nil hne
    obtain ⟨hpart, -, hslash, -⟩ := @of_mem_parts path part (by simp [hcons])
    obtain ⟨c, others, rfl⟩ := exists_cons_of_ne_nil hpart
    have hc : c ≠ '/' := fun hc => hslash (by simp [hc])
    rw [hcons]
    cases rest <;> simp [hc]
  rw [normalizeText, hsame, hparts, if_neg hhead, if_neg hdots, if_neg hne]

/-- A normalized path: the names from the workspace down, with `/` between them. -/
abbrev Path := { path : List Char // normalizeText path = some path }

def normalizeRelativePath (path : List Char) : Option Path :=
  (normalizeText path).attach.map fun p => ⟨p.1, normalizeText_idem p.2⟩

@[simp] theorem normalizeRelativePath_path (path : Path) : normalizeRelativePath path.1 = some path := by
  unfold normalizeRelativePath
  have h := path.2
  simp [h]

def ignoredDirectories : List String :=
  [".git", ".hg", ".svn", "node_modules", ".pnpm-store", ".yarn", ".bun", "vendor", "dist", "build",
    "out", "target", ".next", ".nuxt", ".svelte-kit", ".vite", ".vercel", ".output", "coverage",
    ".cache", ".turbo", ".parcel-cache", ".rollup.cache", ".pytest_cache", "__pycache__",
    ".mypy_cache", ".ruff_cache", "tmp", "temp", ".tmp"]

def isIgnoredDirectory (name : List Char) : Bool :=
  ignoredDirectories.any fun ignored => ignored.toList == name

def pathHasPrefix (path start : List Char) : Bool :=
  start.isEmpty || path == start || (start ++ ['/']).isPrefixOf path

def pathMatchesIgnorePattern (path pattern : List Char) : Bool :=
  if pattern.contains '/' then pathHasPrefix path pattern
  else (path.splitOn '/').any fun segment => segment == pattern

def isIgnoredPath (path : List Char) (ignorePatterns : List (List Char)) : Bool :=
  (path.splitOn '/').any isIgnoredDirectory ||
    ignorePatterns.any fun pattern => pathMatchesIgnorePattern path pattern

/-- The order of two paths. -/
def pathLe : List Char → List Char → Bool
  | [], _ => true
  | _ :: _, [] => false
  | a :: x, b :: y => a.toNat < b.toNat || (a.toNat == b.toNat && pathLe x y)

def compactPathPrefixes (starts : List Path) : List Path :=
  (starts.insertionSort fun a b => pathLe a.1 b.1).foldl
    (fun compact start =>
      if compact.any fun kept => pathHasPrefix start.1 kept.1 then compact else compact ++ [start]) []

/-! ## The workspace -/

structure FileFingerprint where
  size    : Nat
  mtimeNs : Nat
  deriving DecidableEq

/-- What `symlink_metadata` finds. -/
structure Metadata where
  isFile      : Bool
  fingerprint : FileFingerprint
  deriving DecidableEq

def Metadata.len (m : Metadata) : Nat := m.fingerprint.size

/-- The workspace at a moment.  The path of a node is the list of its names. -/
structure Workspace (Name : Type) where
  /-- `none` where there is nothing. -/
  stat      : List Name → Option Metadata
  /-- `none` where reading fails. -/
  content   : List Name → Option (List Byte)
  /-- The `.gitignore` file of a directory. -/
  gitignore : List Name → Option (List Byte)
  /-- What the walk lists, before the names the service leaves out: a path and
      whether it is a regular file. -/
  entries   : List (List Name × Bool)

inductive Match where
  | none
  | ignore
  | whitelist
  deriving DecidableEq

/-- What the service runs with: the names of the system as text, the configured
    patterns, the matcher of a `.gitignore` file (no result where the file does
    not parse) and the lower case of a text. -/
structure Env (Name : Type) where
  ofText : List Char → Name
  lossy : Name → List Char
  lossy_ofText : ∀ text, lossy (ofText text) = text
  ignorePatterns : List (List Char)
  matched : List Name → List Byte → List Name → Bool → Option Match
  toLowercase : List Byte → List Byte

variable {Name : Type} (env : Env Name)

def Env.text (path : List Name) : List Char := ['/'].intercalate (path.map env.lossy)

/-- The normalized path of a node, from its names. -/
def Env.relative (path : List Name) : Option Path := normalizeRelativePath (env.text path)

/-- The node a normalized path leads to. -/
def Env.absolute (path : Path) : List Name := (path.1.splitOn '/').map env.ofText

def Env.isIgnoredWorkspacePath (path : List Name) : Bool :=
  !(env.text path).isEmpty && isIgnoredPath (slashed (env.text path)) env.ignorePatterns

/-- One `.gitignore` file on the way down to the path. -/
def Env.gitIgnoredBy (w : Workspace Name) (path : List Name) (isDir ignored : Bool)
    (directory : List Name) : Bool :=
  match w.gitignore directory with
  | none => ignored
  | some file =>
      match env.matched directory file path isDir with
      | some .ignore => true
      | some .whitelist => false
      | _ => ignored

def Env.isGitIgnored (w : Workspace Name) (path : List Name) (isDir : Bool) : Bool :=
  path.inits.dropLast.foldl (env.gitIgnoredBy w path isDir) false

/-! ## The store -/

structure Document where
  path    : Path
  content : List Byte
  deriving DecidableEq

abbrev Snapshot := OrderedMap Path FileFingerprint

inductive WriterOp where
  | deleteAll
  | deleteTerm (path : Path)
  | add (document : Document)
  deriving DecidableEq

def WriterOp.apply (index : List Document) : WriterOp → List Document
  | .deleteAll => []
  | .deleteTerm path => index.filter fun document => document.path ≠ path
  | .add document => index ++ [document]

/-- The committed index, the files beside it, and what the process holds. -/
structure Store where
  index : List Document
  /-- `files.json`. -/
  files : Option Snapshot
  /-- `.files-dirty`. -/
  snapshotDirty : Bool
  /-- `.rebuild-dirty`. -/
  rebuildDirty : Bool
  /-- The snapshot in memory. -/
  snapshot : Option Snapshot
  /-- What the writer has been given since its last commit. -/
  pending : List WriterOp

def Store.give (op : WriterOp) (s : Store) : Store := { s with pending := s.pending ++ [op] }

def Store.commit (s : Store) : Store :=
  { s with index := s.pending.foldl WriterOp.apply s.index, pending := [] }

def Store.rollback (s : Store) : Store := { s with pending := [] }

def Store.hold (next : Snapshot) (s : Store) : Store := { s with snapshot := some next }

/-- The places where a call persists a snapshot. -/
inductive Persisting where
  | rebuild
  | update
  | unchanged
  deriving DecidableEq

/-- The points of a call.  A number is the place in the list a loop goes
    through. -/
inductive Point where
  | markRebuildDirty
  | clear
  | clearReload
  | walk
  | fingerprint (k : Nat)
  | documentStat (k : Nat)
  | documentIgnored (k : Nat)
  | documentRead (k : Nat)
  | rebuildAdd (k : Nat)
  | rebuildCommit
  | rebuildReload
  | entryStat (k : Nat)
  | entryIgnored (k : Nat)
  | entryFingerprint (k : Nat)
  | add (k : Nat)
  | commit
  | reload
  | markSnapshotDirty
  | write (place : Persisting)
  | install (place : Persisting)
  | clearSnapshotDirty (place : Persisting)
  | clearRebuildDirty (place : Persisting)
  deriving DecidableEq

/-- What a call meets at its points. -/
structure Seen (Name : Type) where
  workspace : Point → Workspace Name
  fate      : Point → Fate

abbrev StoreCall (Name α : Type) := Call (Seen Name) Store α

def act (point : Point) (f : Store → Store) : StoreCall Name Unit := effect (fun seen => seen.fate point) f

/-- A read of the workspace, which may fail too. -/
def observe {α : Type} (point : Point) (f : Workspace Name → α) : StoreCall Name α := do
  act point id
  look fun seen => f (seen.workspace point)

/-! ## Snapshots and documents -/

def persistSnapshot (place : Persisting) (next : Snapshot) : StoreCall Name Unit := do
  act (.write place) id
  act (.install place) fun s => { s with files := some next }
  act (.clearSnapshotDirty place) fun s => { s with snapshotDirty := false }
  act (.clearRebuildDirty place) fun s => { s with rebuildDirty := false }

/-- The walk leaves the entry out. -/
def Env.skips (entry : List Name × Bool) : Bool := env.isIgnoredWorkspacePath entry.1 || !entry.2

def scanEntry (snapshot : Snapshot) (entry : (List Name × Bool) × Nat) : StoreCall Name Snapshot :=
  if env.skips entry.1 then pure snapshot else do
    let relative ← orFail (env.relative entry.1.1)
    match ← observe (.fingerprint entry.2) fun w => w.stat entry.1.1 with
    | none => pure snapshot
    | some metadata => pure (snapshot.set relative metadata.fingerprint)

def scanWorkspaceSnapshot : StoreCall Name Snapshot := do
  let entries ← observe .walk Workspace.entries
  entries.zipIdx.foldlM (scanEntry env) .empty

def MAX_INDEXED_FILE_BYTES : Nat := 4194304

/-- The document of a file's bytes, if they are text. -/
def Env.documentOf (path : Path) (bytes : List Byte) : Option Document :=
  if (bytes.take 8192).any fun b => b.val == 0 then none
  else if Valid bytes then some ⟨path, env.toLowercase bytes⟩
  else none

def documentForPath (k : Nat) (path : List Name) : StoreCall Name (Option Document) := do
  match ← observe (.documentStat k) fun w => w.stat path with
  | none => pure none
  | some metadata =>
      if !metadata.isFile || metadata.len > MAX_INDEXED_FILE_BYTES then pure none else do
        let relative ← orFail (env.relative path)
        let ignored ← look fun seen => env.isGitIgnored (seen.workspace (.documentIgnored k)) path false
        if isIgnoredPath relative.1 env.ignorePatterns || ignored then pure none else do
          let content ← observe (.documentRead k) fun w => w.content path
          let bytes ← orFail content
          pure (env.documentOf relative bytes)

def documentForRelativePath (k : Nat) (path : List Char) : StoreCall Name (Option Document) := do
  let relative ← orFail (normalizeRelativePath path)
  documentForPath env k (env.absolute relative)

def snapshotEntry (k : Nat) (path : List Char) : StoreCall Name (Option (Path × FileFingerprint)) := do
  let normalized ← orFail (normalizeRelativePath path)
  let absolute := env.absolute normalized
  match ← observe (.entryStat k) fun w => w.stat absolute with
  | none => pure none
  | some metadata => do
      let ignored ← look fun seen => env.isGitIgnored (seen.workspace (.entryIgnored k)) absolute false
      if !metadata.isFile || isIgnoredPath normalized.1 env.ignorePatterns || ignored then pure none
      else do
        let found ← observe (.entryFingerprint k) fun w => w.stat absolute
        let metadata ← orFail found
        pure (some (normalized, metadata.fingerprint))

/-! ## Full rebuild -/

def addDocument (point : Point) : Option Document → StoreCall Name Unit
  | none => pure ()
  | some document => act point (Store.give (.add document))

def rebuildEntry (next : Snapshot) (entry : (List Name × Bool) × Nat) : StoreCall Name Snapshot :=
  if env.skips entry.1 then pure next else do
    let relative ← orFail (env.relative entry.1.1)
    match ← observe (.fingerprint entry.2) fun w => w.stat entry.1.1 with
    | none => pure next
    | some metadata => do
        let document ← documentForPath env entry.2 entry.1.1
        addDocument (.rebuildAdd entry.2) document
        pure (next.set relative metadata.fingerprint)

def rebuild : StoreCall Name Unit := do
  modify (Store.give .deleteAll)
  act .clear Store.commit
  act .clearReload id
  let entries ← observe .walk Workspace.entries
  let next ← entries.zipIdx.foldlM (rebuildEntry env) .empty
  act .rebuildCommit Store.commit
  act .rebuildReload id
  persistSnapshot .rebuild next
  modify (Store.hold next)

def fullRebuild : StoreCall Name Unit := do
  act .markRebuildDirty fun s => { s with rebuildDirty := true }
  onError (rebuild env) Store.rollback

/-! ## Incremental changes -/

structure IndexChange where
  path     : List Char
  oldPath  : Option (List Char)
  kind     : String
  nodeType : Option String
  deriving DecidableEq

def IndexChange.removes (change : IndexChange) : Bool :=
  change.kind == "delete" || change.nodeType == some "dir"

structure Prepared where
  path     : Path
  oldPath  : Option Path
  document : Option Document
  deriving DecidableEq

def normalizeOldPath : Option (List Char) → StoreCall Name (Option Path)
  | none => pure none
  | some oldPath => do
      let normalized ← orFail (normalizeRelativePath oldPath)
      pure (some normalized)

def changedDocument (k : Nat) (change : IndexChange) (path : Path) : StoreCall Name (Option Document) :=
  if change.removes then pure none else documentForRelativePath env k path.1

def prepareChange (prepared : List Prepared) (change : IndexChange × Nat) :
    StoreCall Name (List Prepared) := do
  let path ← orFail (normalizeRelativePath change.1.path)
  let oldPath ← normalizeOldPath change.1.oldPath
  let document ← changedDocument env change.2 change.1 path
  pure (prepared ++ [⟨path, oldPath, document⟩])

def deletePath (path : Path) : StoreCall Name Unit := do
  let normalized ← orFail (normalizeRelativePath path.1)
  modify (Store.give (.deleteTerm normalized))

def deleteOldPath : Option Path → StoreCall Name Unit
  | none => pure ()
  | some oldPath => deletePath oldPath

def writePrepared (prepared : Prepared × Nat) : StoreCall Name Unit := do
  deleteOldPath prepared.1.oldPath
  deletePath prepared.1.path
  addDocument (.add prepared.2) prepared.1.document

def writeDocuments (prepared : List Prepared) : StoreCall Name Unit := do
  prepared.zipIdx.foldlM (fun _ => writePrepared) ()
  act .commit Store.commit

/-- The snapshot file, or the mark that it is behind. -/
def recordSnapshot (next : Snapshot) (persistSnapshotNow : Bool) : StoreCall Name Unit :=
  if persistSnapshotNow then persistSnapshot .update next
  else act .markSnapshotDirty fun s => { s with snapshotDirty := true }

def applyDocumentChanges (changes : List IndexChange) (next : Snapshot) (persistSnapshotNow : Bool) :
    StoreCall Name Unit :=
  if changes = [] then pure () else do
    let prepared ← changes.zipIdx.foldlM (prepareChange env) []
    onError (writeDocuments prepared) Store.rollback
    act .reload id
    recordSnapshot next persistSnapshotNow
    modify (Store.hold next)

def fileChange (kind : String) (path : Path) : IndexChange := ⟨path.1, none, kind, some "file"⟩

def changesBetween (previous current : Snapshot) : List IndexChange :=
  let found := current.entries.filterMap fun entry =>
    match previous.get? entry.1 with
    | none => some (fileChange "create" entry.1)
    | some fingerprint => if fingerprint ≠ entry.2 then some (fileChange "modify" entry.1) else none
  let gone := (previous.keys.filter fun path => !current.has path).map (fileChange "delete")
  (found ++ gone).insertionSort fun a b => pathLe a.path b.path

/-- Nothing to do in the index, so only the snapshot file may be behind. -/
def persistUnchanged (current : Snapshot) : StoreCall Name Unit := do
  if ← get Store.snapshotDirty then
    persistSnapshot .unchanged current
    modify (Store.hold current)

def reconcileFrom (previous : Snapshot) : StoreCall Name Unit := do
  let current ← scanWorkspaceSnapshot env
  if changesBetween previous current = [] then persistUnchanged current
  else applyDocumentChanges env (changesBetween previous current) current true

def reconcile : StoreCall Name Unit := do
  match ← get Store.snapshot with
  | none => fullRebuild env
  | some previous => do
      if ← get Store.rebuildDirty then fullRebuild env
      else reconcileFrom env previous

/-! ## Reported changes -/

def fileName (path : List Char) : Option (List Char) :=
  (((path.splitOn '/').filter fun part => part ≠ [] && part ≠ ['.']).getLast?).filter fun name =>
    name ≠ ['.', '.']

def IndexChange.ofGitignore (change : IndexChange) : Bool := fileName change.path == some ".gitignore".toList

/-- The path a change removes everything under, besides its old one. -/
def deletedPath (change : IndexChange) : StoreCall Name (Option Path) :=
  if change.kind == "delete" then normalizeOldPath (some change.path) else pure none

def collectPrefixes (starts : List Path) (change : IndexChange) : StoreCall Name (List Path) := do
  let oldPath ← normalizeOldPath change.oldPath
  let deleted ← deletedPath change
  pure (starts ++ oldPath.toList ++ deleted.toList)

def applyChange (progress : Snapshot × List IndexChange) (change : IndexChange × Nat) :
    StoreCall Name (Snapshot × List IndexChange) :=
  if change.1.removes then pure progress else do
    let normalized ← orFail (normalizeRelativePath change.1.path)
    match ← snapshotEntry env change.2 normalized.1 with
    | some (path, fingerprint) =>
        pure (progress.1.set path fingerprint, progress.2 ++ [fileChange change.1.kind path])
    | none => pure (progress.1.delete normalized, progress.2 ++ [fileChange "delete" normalized])

def applyChangesFrom (previous : Snapshot) (changes : List IndexChange) : StoreCall Name Unit := do
  let starts ← changes.foldlM collectPrefixes []
  let under := fun path : Path => (compactPathPrefixes starts).any fun start => pathHasPrefix path.1 start.1
  let deleted := ((previous.keys.filter under).map (fileChange "delete")).insertionSort fun a b =>
    pathLe a.path b.path
  let (next, documentChanges) ←
    changes.zipIdx.foldlM (applyChange env) (previous.filter fun path _ => !under path, deleted)
  applyDocumentChanges env documentChanges next false

def applyChanges (changes : List IndexChange) : StoreCall Name Unit := do
  if changes.any IndexChange.ofGitignore then reconcile env
  else match ← get Store.snapshot with
    | none => fullRebuild env
    | some previous => applyChangesFrom env previous changes

/-! ## The service -/

inductive Job where
  | full
  | reconcile
  | update (changes : List IndexChange)
  deriving DecidableEq

def Job.perform : Job → StoreCall Name Unit
  | .full => fullRebuild env
  | .reconcile => Search.reconcile env
  | .update changes => applyChanges env changes

/-- An index directory with nothing in it. -/
def Store.fresh : Store := ⟨[], none, false, false, none, []⟩

/-- What a start of the service reads. -/
def Store.reopened (s : Store) : Store := { s with snapshot := s.files, pending := [] }

inductive Service where
  | running (store : Store)
  | stopped (store : Store)

inductive Step (Name : Type) where
  | call (job : Job) (seen : Seen Name)
  | stop
  | start
  /-- A start that moves a damaged index directory away. -/
  | startFresh

/-- A call that was made, and the store before and after it. -/
structure Report (Name : Type) where
  job     : Job
  seen    : Seen Name
  before  : Store
  outcome : Outcome Unit
  after   : Store

def afterCall : Outcome Unit × Store → Service
  | (.killed, s) => .stopped s
  | (_, s) => .running s

def step : Service → Step Name → Service × List (Report Name)
  | .running s, .call job seen =>
      let ended := job.perform env seen s
      (afterCall ended, [⟨job, seen, s, ended.1, ended.2⟩])
  | .running s, .stop => (.stopped s, [])
  | .stopped s, .start => (.running s.reopened, [])
  | .stopped _, .startFresh => (.running .fresh, [])
  | service, _ => (service, [])

def service : Mealy Service (Step Name) (Report Name) := ⟨step env⟩

end Cohub.Search
