import Cohub.Lib.Mealy
import Cohub.Lib.OrderedMap

/-! # Saves with a stat cache

    A save of a Space scans the workspace, hashes the files that the index of
    an earlier save does not have, and lands on the head.  The index has the
    blob, or the asset, of each file with the stat that was taken before the
    file was read, and a save reuses it where the stat is the same.

    Between any two steps of a save the workspace may change, the head may
    move, and the save may fail. -/

namespace Cohub.Checkpoint.StatCache

/-! ## The workspace -/

inductive FileType where
  | file
  | symlink
  deriving DecidableEq

/-- What one read returns, one character for each byte. -/
abbrev Block := String

structure Inode where
  type : FileType
  executable : Bool
  size : Nat
  mtimeNs : Int
  ctimeNs : Int
  /-- Of a link, its target. -/
  content : List Block
  deriving DecidableEq

/-- The files and links of a workspace. -/
structure Workspace where
  paths : String → Option Nat
  inodes : Nat → Inode
  /-- The inode that opening a path leads to, through links. -/
  opens : String → Option Nat
  opens_file : ∀ path ino, paths path = some ino → (inodes ino).type = .file → opens path = some ino

structure ScannedFile where
  path : String
  type : FileType
  size : Nat
  executable : Bool
  mimeType : Option String
  mtimeNs : Int
  ctimeNs : Int
  ino : Nat
  deriving DecidableEq

def scannedFile (mimeTypeForPath : String → Option String) (path : String) (ino : Nat) (st : Inode) : ScannedFile :=
  match st.type with
  | .file => ⟨path, .file, st.size, st.executable, mimeTypeForPath path, st.mtimeNs, st.ctimeNs, ino⟩
  | .symlink => ⟨path, .symlink, st.size, false, none, st.mtimeNs, st.ctimeNs, ino⟩

/-! ## The index -/

def RACY_WINDOW_NS : Int := 3000000000

structure FileIndexAsset where
  sha256    : String
  objectKey : String
  mimeType  : Option String
  deriving DecidableEq

structure FileIndexEntry where
  type : FileType
  mode : String
  size : Nat
  mtimeNs : Int
  ctimeNs : Int
  ino : Nat
  oid : String
  racy : Bool
  asset : Option FileIndexAsset
  deriving DecidableEq

abbrev Entries := OrderedMap String FileIndexEntry

structure FileIndex where
  commit  : Nat
  entries : Entries

def fileMode (file : ScannedFile) : String :=
  if file.type = .symlink then "120000" else if file.executable then "100755" else "100644"

def reusableEntry (previous : Option FileIndexEntry) (file : ScannedFile) (asset : Bool) : Option FileIndexEntry :=
  match previous with
  | none => none
  | some previous =>
      if previous.racy then none
      else if previous.type ≠ file.type ∨ previous.mode ≠ fileMode file ∨ previous.size ≠ file.size then none
      else if previous.mtimeNs ≠ file.mtimeNs ∨ previous.ctimeNs ≠ file.ctimeNs ∨ previous.ino ≠ file.ino then none
      else if previous.asset.isSome ≠ asset then none
      else some previous

def isRacy (file : ScannedFile) (scanStartedAtNs : Int) : Bool :=
  file.mtimeNs ≥ scanStartedAtNs - RACY_WINDOW_NS || file.ctimeNs ≥ scanStartedAtNs - RACY_WINDOW_NS

/-! ## Snapshots -/

/-- What a save is told about contents and paths, and its configuration. -/
structure Config where
  assetThresholdBytes : Nat
  mimeTypeForPath : String → Option String
  sha256 : String → String
  /-- The id of the blob that git writes. -/
  hashObject : String → String

variable (config : Config)

def buildAssetObjectKey (sha256 : String) : String :=
  "checkpoint-assets/sha256/" ++ sha256.take 2 ++ "/" ++ (sha256.drop 2).take 2 ++ "/" ++ sha256

def assetPointerContent (sha256 : String) (size : Nat) (mimeType : Option String) (objectKey : String) : String :=
  "\n".intercalate
    (["version https://cohub.run/spec/asset-pointer/v1", "sha256 " ++ sha256, "size " ++ toString size]
      ++ (match mimeType with
          | some mimeType => if mimeType = "" then [] else ["mime " ++ mimeType]
          | none => [])
      ++ ["objectKey " ++ objectKey, ""])

def isAsset (file : ScannedFile) : Bool := file.type = .file && file.size > config.assetThresholdBytes

/-- The blob, and the asset, of a content that has been read. -/
def writeContent (mimeType : Option String) (asset : Bool) (content : List Block) :
    String × Option FileIndexAsset :=
  let text := String.join content
  if asset then
    let sha256 := config.sha256 text
    let objectKey := buildAssetObjectKey sha256
    (config.hashObject (assetPointerContent sha256 text.length mimeType objectKey), some ⟨sha256, objectKey, mimeType⟩)
  else (config.hashObject text, none)

def record (scanStartedAtNs : Int) (file : ScannedFile) (content : List Block) : FileIndexEntry :=
  let written := writeContent config file.mimeType (isAsset config file) content
  { type := file.type, mode := fileMode file, size := file.size, mtimeNs := file.mtimeNs, ctimeNs := file.ctimeNs,
    ino := file.ino, oid := written.1, racy := isRacy file scanStartedAtNs, asset := written.2 }

def reusable (previous : Entries) (file : ScannedFile) : Option FileIndexEntry :=
  reusableEntry (previous.get? file.path) file (isAsset config file)

/-- How far the reading of a file has come.  `changed` says whether its content
    changed after it was opened. -/
inductive Reading where
  | pending
  | opened (ino : Nat) (blocks : List Block) (changed : Bool)
  | done (content : List Block) (changed : Bool)

structure HashedFile where
  file    : ScannedFile
  reading : Reading

/-- The files of a scan that are read. -/
def filesToHash (previous : Entries) (files : List ScannedFile) : List HashedFile :=
  (files.filter fun file => (reusable config previous file).isNone).map fun file => ⟨file, .pending⟩

def reusedEntries (previous : Entries) (files : List ScannedFile) : List (String × FileIndexEntry) :=
  files.filterMap fun file => (reusable config previous file).map fun entry => (file.path, entry)

def HashedFile.content? (hashed : HashedFile) : Option (List Block) :=
  match hashed.reading with
  | .done content _ => some content
  | _ => none

def HashedFile.changed (hashed : HashedFile) : Bool :=
  match hashed.reading with
  | .done _ changed => changed
  | _ => false

def recorded (scanStartedAtNs : Int) (hashed : HashedFile) : Option (String × FileIndexEntry) :=
  hashed.content?.map fun content => (hashed.file.path, record config scanStartedAtNs hashed.file content)

/-- The entries of `buildSnapshot`: what is reused, then the blobs, then the
    assets. -/
def snapshotEntries (scanStartedAtNs : Int) (reused : List (String × FileIndexEntry)) (hashed : List HashedFile) :
    Entries :=
  ((OrderedMap.ofList reused).setAll
      ((hashed.filter fun h => !isAsset config h.file).filterMap (recorded config scanStartedAtNs))).setAll
    ((hashed.filter fun h => isAsset config h.file).filterMap (recorded config scanStartedAtNs))

/-! ## Saves -/

inductive Phase where
  | scanning (files : List ScannedFile)
  | hashing (reused : List (String × FileIndexEntry)) (hashed : List HashedFile)
  /-- The checkpoint has been recorded, its index has not. -/
  | finishing (index : FileIndex)

structure Save where
  parent : Option Nat
  previous : Entries
  scanStartedAtNs : Int
  /-- The workspace at the start of the scan and after each change since. -/
  moments : List Workspace
  phase : Phase

/-- A checkpoint.  Its tree and its asset manifest have the blob and the asset
    of each entry. -/
structure CheckpointRow where
  parent  : Option Nat
  entries : Entries
  moments : List Workspace
  /-- The paths whose files changed while they were read. -/
  changed : List String

structure World where
  /-- The clock of the scanner. -/
  nowNs : Int
  workspace : Workspace
  commits : List CheckpointRow
  head : Option Nat
  index : Option FileIndex
  save : Option Save

def World.start (nowNs : Int) (workspace : Workspace) : World := ⟨nowNs, workspace, [], none, none, none⟩

/-- Whether going from parent to parent, `steps` times at most, leads from a
    commit to another. -/
def isAncestor (commits : List CheckpointRow) (ancestor : Nat) : Nat → Nat → Bool
  | 0, _ => false
  | steps + 1, commit =>
      match (commits[commit]?).bind CheckpointRow.parent with
      | none => false
      | some parent => parent == ancestor || isAncestor commits ancestor steps parent

/-- `loadFileIndex` for a save on the head. -/
def previousEntries (s : World) (readable : Bool) : Entries :=
  match s.head, s.index with
  | some parent, some index =>
      if readable && (index.commit == parent || isAncestor s.commits index.commit s.commits.length parent) then
        index.entries
      else .empty
  | _, _ => .empty

inductive Input where
  | tick (ns : Nat)
  | change (workspace : Workspace)
  | begin (readable : Bool)
  /-- The stat of a path that the walk has come to and no rule leaves out. -/
  | scan (path : String)
  | endScan
  | openFile (i : Nat)
  | readBlock (i : Nat)
  | commit
  | writeIndex
  | fail
  | moveHead (commit : Nat)

/-- `Date.now()`, in nanoseconds. -/
def dateNow (s : World) : Int := s.nowNs / 1000000 * 1000000

def Reading.onChange (old new : Workspace) : Reading → Reading
  | .opened ino blocks changed =>
      .opened ino blocks (changed || (old.inodes ino).content != (new.inodes ino).content)
  | reading => reading

def Phase.onChange (old new : Workspace) : Phase → Phase
  | .hashing reused hashed =>
      .hashing reused (hashed.map fun h => { h with reading := h.reading.onChange old new })
  | phase => phase

def Save.onChange (old new : Workspace) (save : Save) : Save :=
  { save with moments := save.moments ++ [new], phase := save.phase.onChange old new }

def World.change (s : World) (workspace : Workspace) : World :=
  { s with workspace := workspace, save := s.save.map (Save.onChange s.workspace workspace) }

def beginSave (s : World) (readable : Bool) : Save :=
  ⟨s.head, previousEntries s readable, dateNow s, [s.workspace], .scanning []⟩

/-- The walk lists each path once. -/
def scan (s : World) (path : String) (files : List ScannedFile) : List ScannedFile :=
  match s.workspace.paths path with
  | none => files
  | some ino => files ++ [scannedFile config.mimeTypeForPath path ino (s.workspace.inodes ino)]

/-- Open a file, or read a link. -/
def openFile (workspace : Workspace) (file : ScannedFile) : Option Reading :=
  match file.type with
  | .file => (workspace.opens file.path).map fun ino => .opened ino [] false
  | .symlink =>
      match workspace.paths file.path with
      | none => none
      | some ino =>
          let st := workspace.inodes ino
          if st.type = .symlink then some (.done st.content false) else none

def readBlock (workspace : Workspace) : Reading → Reading
  | .opened ino blocks changed =>
      match (workspace.inodes ino).content[blocks.length]? with
      | some block => .opened ino (blocks ++ [block]) changed
      | none => .done blocks changed
  | reading => reading

/-- The next step on the file at a position.  A file that cannot be opened fails
    the save. -/
def onFile (step : HashedFile → Option Reading) (save : Save) (i : Nat) : Option Save :=
  match save.phase with
  | .hashing reused hashed =>
      match hashed[i]? with
      | none => some save
      | some h =>
          (step h).map fun reading => { save with phase := .hashing reused (hashed.set i { h with reading := reading }) }
  | _ => some save

/-- A save only lands on the head it was built from. -/
def commitSave (s : World) (save : Save) : World :=
  match save.phase with
  | .hashing reused hashed =>
      if hashed.all fun h => h.content?.isSome then
        if s.head = save.parent then
          let entries := snapshotEntries config save.scanStartedAtNs reused hashed
          let changed := (hashed.filter HashedFile.changed).map (·.file.path)
          let commit := s.commits.length
          { s with
            commits := s.commits ++ [⟨save.parent, entries, save.moments, changed⟩], head := some commit,
            save := some { save with phase := .finishing ⟨commit, entries⟩ } }
        else { s with save := none }
      else s
  | _ => s

def endScan (save : Save) : Save :=
  match save.phase with
  | .scanning files =>
      { save with phase := .hashing (reusedEntries config save.previous files) (filesToHash config save.previous files) }
  | _ => save

def writeIndex (s : World) (save : Save) : World :=
  match save.phase with
  | .finishing index => { s with index := some index, save := none }
  | _ => s

def onSave (s : World) (act : Save → World) : World :=
  match s.save with
  | none => s
  | some save => act save

def next (s : World) : Input → World
  | .tick ns => { s with nowNs := s.nowNs + ns }
  | .change workspace => s.change workspace
  | .begin readable =>
      match s.save with
      | none => { s with save := some (beginSave s readable) }
      | some _ => s
  | .scan path => onSave s fun save =>
      match save.phase with
      | .scanning files => { s with save := some { save with phase := .scanning (scan config s path files) } }
      | _ => s
  | .endScan => onSave s fun save => { s with save := some (endScan config save) }
  | .openFile i => onSave s fun save =>
      { s with
        save := onFile (fun h => match h.reading with
          | .pending => openFile s.workspace h.file
          | reading => some reading) save i }
  | .readBlock i => onSave s fun save =>
      { s with save := onFile (fun h => some (readBlock s.workspace h.reading)) save i }
  | .commit => onSave s (commitSave config s)
  | .writeIndex => onSave s (writeIndex s)
  | .fail => { s with save := none }
  | .moveHead commit => if commit < s.commits.length then { s with head := some commit } else s

def saves : Mealy World Input Unit := ⟨fun s input => (next config s input, [])⟩

end Cohub.Checkpoint.StatCache
