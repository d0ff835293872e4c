import Mathlib
import Cohub.Lib.Mealy
import Cohub.Lib.Stamped
import Cohub.Lib.Text
import Cohub.Lib.Utf8

/-! # Mounts of a local sandbox

    The agent mirrors directories into the sandbox's cache.  A write replaces
    the directory of a mount, and records the agent's revision in a state file;
    a sync drops what is not desired and reports the revisions that are
    recorded.  Requests and clears take turns.  Any file operation in them may
    fail, and a removal that fails leaves what it leaves: each request comes
    with what becomes of its file operations. -/

namespace Cohub.Sandbox

/-! ## Mounts and their directories -/

structure MountConfig where
  isLocal : Bool
  cacheDir : String
  platformAgentsDir : String
  userAgentsDir : String
  modsDir : String

def MountConfig.mountsSupported (cfg : MountConfig) : Bool := cfg.isLocal && cfg.cacheDir ≠ ""

/-- The directory of a mount under the cache. -/
inductive MountDir where
  | platform
  | user
  | mod (slug : List Char)
deriving DecidableEq

def virtualPlatformAgentsRoot : String := "/configs/platform/.agents"

def virtualUserAgentsRoot : String := "/configs/user/.agents"

/-- `virtualModsRoot + "/"`. -/
def modsRoot : List Char := "/mods/".toList

/-- `^[a-z0-9](?:[a-z0-9_-]{0,61}[a-z0-9])?$`. -/
def mountSlugPattern : List Char → Bool
  | [] => false
  | [c] => Text.isSlugChar c
  | c :: d :: rest =>
      Text.isSlugChar c && rest.length ≤ 61 && Text.isSlugChar ((d :: rest).getLast (by simp)) &&
        (d :: rest).dropLast.all fun e => Text.isSlugChar e || e = '_' || e = '-'

/-- `mountHostDir`; `none` is `unsupported mount path`. -/
def mountHostDir (mountPath : String) : Option MountDir :=
  if mountPath = virtualPlatformAgentsRoot then some .platform
  else if mountPath = virtualUserAgentsRoot then some .user
  else if modsRoot <+: mountPath.toList then
    let slug := mountPath.toList.drop modsRoot.length
    if mountSlugPattern slug then some (.mod slug) else none
  else none

def MountConfig.hostPath (cfg : MountConfig) : MountDir → String
  | .platform => cfg.platformAgentsDir
  | .user => cfg.userAgentsDir
  | .mod slug => cfg.modsDir ++ "/" ++ String.ofList slug

/-! ## Files of a write -/

def base64Value (c : Char) : Option Nat :=
  if Text.isUpper c then some (c.toNat - 'A'.toNat)
  else if Text.isLower c then some (c.toNat - 'a'.toNat + 26)
  else if Text.isDigit c then some (c.toNat - '0'.toNat + 52)
  else if c = '+' then some 62
  else if c = '/' then some 63
  else none

/-- Quads of `base64.StdEncoding`; only the last one has padding. -/
def decodeQuads : List Char → Option (List Utf8.Byte)
  | [] => some []
  | a :: b :: c :: d :: rest => do
      let x ← base64Value a
      let y ← base64Value b
      let first := Fin.ofNat 256 (x * 4 + y / 16)
      if c = '=' then if d = '=' ∧ rest = [] then some [first] else none
      else
        let z ← base64Value c
        let second := Fin.ofNat 256 (y * 16 + z / 4)
        if d = '=' then if rest = [] then some [first, second] else none
        else
          let u ← base64Value d
          let bytes ← decodeQuads rest
          return first :: second :: Fin.ofNat 256 (z * 64 + u) :: bytes
  | _ => none

/-- `DecodeString`: line breaks are ignored. -/
def decodeString (s : String) : Option (List Utf8.Byte) :=
  decodeQuads (s.toList.filter fun c => c ≠ '\r' ∧ c ≠ '\n')

structure MountFile where
  path          : String
  contentBase64 : String
  executable    : Bool

/-- A file in a mount's directory: the names on its path, its content, and its
    mode. -/
structure HeldFile where
  path       : List (List Char)
  content    : List Utf8.Byte
  executable : Bool
deriving DecidableEq

abbrev Tree := List HeldFile

/-- The names on a path that `writeMountFile` takes.  The path `.` is the
    directory itself, which is no file. -/
def mountFilePath (rel : String) : Option (List (List Char)) :=
  let names := Text.splitAt (· = '/') rel
  if rel.toList.any (fun c => c = '\\' || c = '\x00' || c = ':') then none
  else if names.all (fun name => name ≠ [] ∧ name ≠ ['.'] ∧ name ≠ ['.', '.']) then some names
  else none

/-- `writeMountFile`: no file is in the place of a directory, no directory in
    that of the file, and a file that exists keeps its mode. -/
def writeMountFile (root : Tree) (file : MountFile) : Option Tree := do
  let path ← mountFilePath file.path
  let content ← decodeString file.contentBase64
  if root.any (fun held => held.path ≠ path && (held.path.isPrefixOf path || path.isPrefixOf held.path)) then
    none
  else if root.any fun held => held.path = path then
    return root.map fun held => if held.path = path then { held with content } else held
  else return root ++ [{ path, content, executable := file.executable }]

/-- The staged files; `none` where one is refused. -/
def stageFiles (files : List MountFile) : Option Tree := files.foldlM writeMountFile []

/-! ## The cache and what happens to it -/

/-- The directories under the cache; `none` is a directory that is missing. -/
structure MountDirs where
  platform : Option Tree
  user     : Option Tree
  mods     : Option (List (List Char × Tree))

namespace MountDirs

def get (dirs : MountDirs) : MountDir → Option Tree
  | .platform => dirs.platform
  | .user => dirs.user
  | .mod slug => dirs.mods.bind (OrderedMap.lookupEntry slug)

/-- The directory is now this one, or missing. -/
def place (dirs : MountDirs) (dir : MountDir) (tree : Option Tree) : MountDirs :=
  match dir with
  | .platform => { dirs with platform := tree }
  | .user => { dirs with user := tree }
  | .mod slug =>
      { dirs with mods := dirs.mods.map fun mods =>
          match tree with
          | some tree => OrderedMap.setEntry slug tree mods
          | none => mods.filter fun entry => entry.1 ≠ slug }

/-- The directory that a mount's directory is in. -/
def hasParent (dirs : MountDirs) : MountDir → Bool
  | .mod _ => dirs.mods.isSome
  | _ => true

end MountDirs

/-- What becomes of `resetDir`: whether the directory can be listed, and what
    is left where its removal or creation fails. -/
structure ResetOutcome (α : Type) where
  listed : Bool
  left   : Option (Option (List α))

/-- `resetDir`, and whether it succeeds. -/
def resetDir {α : Type} [DecidableEq α] (dir : Option (List α)) (outcome : ResetOutcome α) :
    Option (List α) × Bool :=
  if outcome.listed ∧ dir = some [] then (dir, true)
  else match outcome.left with
    | none => (some [], true)
    | some left => (left, false)

/-- The loop of a sync over the Mods' directory: `remove` has what is left
    where a removal fails. -/
def removeUndesired (desired : List Char → Bool) (remove : List Char → Option (Option Tree)) :
    List (List Char × Tree) → List (List Char × Tree) × Bool
  | [] => ([], true)
  | (name, tree) :: rest =>
      if desired name then
        let later := removeUndesired desired remove rest
        ((name, tree) :: later.1, later.2)
      else match remove name with
        | none => removeUndesired desired remove rest
        | some left => (left.toList.map (fun tree => (name, tree)) ++ rest, false)

/-- The file operations of a sync: `true` where one works. -/
structure SyncOutcome where
  stateRead : Bool
  platform : ResetOutcome HeldFile
  user : ResetOutcome HeldFile
  mkdirMods : Bool
  readMods : Bool
  remove : List Char → Option (Option Tree)
  stat : String → Bool
  stateWrite : Bool

structure WriteOutcome where
  mkdirStaging : Bool
  writeFiles : Bool
  moveAway : Bool
  swapIn : Bool
  moveBack : Bool
  stateRead : Bool
  stateWrite : Bool

structure ClearOutcome where
  platform : ResetOutcome HeldFile
  user : ResetOutcome HeldFile
  mods : ResetOutcome (List Char × Tree)
  stateRemove : Bool

structure MountSpec where
  path     : String
  revision : String

structure MountWrite where
  path     : String
  revision : String
  files    : List MountFile

inductive MountEvent where
  | sync (mounts : List MountSpec) (outcome : SyncOutcome)
  | write (params : MountWrite) (outcome : WriteOutcome)
  | clear (outcome : ClearOutcome)

/-- No revision is the empty one. -/
structure MountStatus where
  path     : String
  hostPath : String
  revision : Option String
deriving DecidableEq

inductive MountReply where
  | failed (code : String)
  | mounts (statuses : List MountStatus)
  | written (status : MountStatus)
  | cleared (ok : Bool)
deriving DecidableEq

/-- The directories, the state file, and the writes that completed. -/
structure MountWorld where
  dirs    : MountDirs
  state   : OrderedMap String String
  written : List (String × String × Tree)

namespace MountWorld

/-- What the directory of a mount holds. -/
def content (dirs : MountDirs) (mountPath : String) : Option Tree :=
  (mountHostDir mountPath).bind dirs.get

def readMountState (w : MountWorld) (readable : Bool) : OrderedMap String String :=
  if readable then w.state else OrderedMap.empty

/-! ## Requests -/

/-- The changes of directories in a sync, in the order of the code. -/
def syncDirs (dirs : MountDirs) (desired : String → Bool) (outcome : SyncOutcome) :
    MountDirs × Bool :=
  let platform := if desired virtualPlatformAgentsRoot then (dirs.platform, true)
    else resetDir dirs.platform outcome.platform
  let dirs := { dirs with platform := platform.1 }
  if ¬ platform.2 then (dirs, false) else
  let user := if desired virtualUserAgentsRoot then (dirs.user, true)
    else resetDir dirs.user outcome.user
  let dirs := { dirs with user := user.1 }
  if ¬ user.2 then (dirs, false) else
  if ¬ outcome.mkdirMods then (dirs, false) else
  let mods := dirs.mods.getD []
  let dirs := { dirs with mods := some mods }
  if ¬ outcome.readMods then (dirs, false) else
  let removed := removeUndesired (fun name => desired (String.ofList (modsRoot ++ name)))
    outcome.remove mods
  ({ dirs with mods := some removed.1 }, removed.2)

def isDesired (mounts : List MountSpec) (mountPath : String) : Bool :=
  mounts.any fun mount => mount.path = mountPath

/-- The revisions that stay: of desired mounts whose directory exists. -/
def keptState (w : MountWorld) (dirs : MountDirs) (mounts : List MountSpec) (outcome : SyncOutcome) :
    OrderedMap String String :=
  (w.readMountState outcome.stateRead).filter fun mountPath _ =>
    isDesired mounts mountPath && (content dirs mountPath).isSome && outcome.stat mountPath

def mountStatus (cfg : MountConfig) (state : OrderedMap String String) (mount : MountSpec) :
    MountStatus where
  path := mount.path
  hostPath := ((mountHostDir mount.path).map cfg.hostPath).getD ""
  revision := state.get? mount.path

def handleMountsSync (cfg : MountConfig) (w : MountWorld) (mounts : List MountSpec)
    (outcome : SyncOutcome) : MountWorld × MountReply :=
  if ¬ cfg.mountsSupported then (w, .failed "UNSUPPORTED_METHOD")
  else if mounts.any fun mount => (mountHostDir mount.path).isNone then (w, .failed "BAD_REQUEST")
  else
    let synced := syncDirs w.dirs (isDesired mounts) outcome
    if ¬ synced.2 ∨ ¬ outcome.stateWrite then ({ w with dirs := synced.1 }, .failed "IO_ERROR")
    else
      let state := w.keptState synced.1 mounts outcome
      ({ w with dirs := synced.1, state }, .mounts (mounts.map (mountStatus cfg state)))

/-- The swap of a write: the old directory moves away, and the staged one in. -/
def swapDirs (dirs : MountDirs) (target : MountDir) (tree : Tree) (outcome : WriteOutcome) :
    MountDirs × Bool :=
  if ¬ outcome.moveAway then (dirs, false)
  else if outcome.swapIn ∧ dirs.hasParent target then (dirs.place target (some tree), true)
  else if outcome.moveBack then (dirs, false)
  else (dirs.place target none, false)

def handleMountsWrite (cfg : MountConfig) (w : MountWorld) (params : MountWrite)
    (outcome : WriteOutcome) : MountWorld × MountReply :=
  if ¬ cfg.mountsSupported then (w, .failed "UNSUPPORTED_METHOD")
  else match mountHostDir params.path with
    | none => (w, .failed "BAD_REQUEST")
    | some target =>
        if params.revision = "" ∨ params.revision.utf8ByteSize > 256 then (w, .failed "BAD_REQUEST")
        else if ¬ outcome.mkdirStaging then (w, .failed "IO_ERROR")
        else match stageFiles params.files with
          | none => (w, .failed "BAD_REQUEST")
          | some tree =>
              if ¬ outcome.writeFiles then (w, .failed "BAD_REQUEST")
              else
                let swapped := swapDirs w.dirs target tree outcome
                if ¬ swapped.2 ∨ ¬ outcome.stateWrite then
                  ({ w with dirs := swapped.1 }, .failed "IO_ERROR")
                else
                  ({ dirs := swapped.1,
                     state := (w.readMountState outcome.stateRead).set params.path params.revision,
                     written := w.written ++ [(params.path, params.revision, tree)] },
                    .written { path := params.path, hostPath := cfg.hostPath target,
                               revision := some params.revision })

/-- `ClearMounts`: every step is taken, whatever fails. -/
def clearMounts (cfg : MountConfig) (w : MountWorld) (outcome : ClearOutcome) :
    MountWorld × MountReply :=
  if cfg.cacheDir = "" then (w, .cleared true)
  else
    let platform := resetDir w.dirs.platform outcome.platform
    let user := resetDir w.dirs.user outcome.user
    let mods := resetDir w.dirs.mods outcome.mods
    ({ w with
        dirs := { platform := platform.1, user := user.1, mods := mods.1 },
        state := if outcome.stateRemove then OrderedMap.empty else w.state },
      .cleared (platform.2 && user.2 && mods.2 && outcome.stateRemove))

def handle (cfg : MountConfig) (w : MountWorld) : MountEvent → MountWorld × MountReply
  | .sync mounts outcome => handleMountsSync cfg w mounts outcome
  | .write params outcome => handleMountsWrite cfg w params outcome
  | .clear outcome => clearMounts cfg w outcome

/-- The sandbox's side, one event after another. -/
def machine (cfg : MountConfig) : Mealy MountWorld MountEvent MountReply where
  step w event := ((handle cfg w event).1, [(handle cfg w event).2])

end MountWorld

end Cohub.Sandbox
