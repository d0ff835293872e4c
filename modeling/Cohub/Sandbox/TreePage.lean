import Mathlib
import Cohub.Lib.Pages
import Cohub.Lib.Utf8

/-! # A page of a directory

    The paginated form of the sandbox's `fs.tree`: one level of a directory in
    the order of the names' bytes, with a cursor that has the last name of the
    page.  The cursor travels as JSON in base64; of these the model keeps what
    `encoding/json` documents, that a string becomes valid UTF-8, and the length
    of the text.  Reads of the file system are given with the request. -/

namespace Cohub.Sandbox

open Utf8 (Byte)

/-- A string of Go: bytes, compared one by one. -/
abbrev GoString := List Byte

def ascii (s : String) : GoString := s.toList.map fun c => Fin.ofNat 256 c.toNat

/-! ## Cursors -/

structure TreeCursor where
  version : Int
  scope   : GoString
  after   : GoString
deriving DecidableEq

/-- A text in the place of a cursor: what base64 and `json.Unmarshal` make of
    it, and its length. -/
structure CursorText where
  decoded : Option TreeCursor
  length  : Nat
deriving DecidableEq

/-- The bytes that `json.Marshal` writes for an ASCII character. -/
def asciiLength (b : Byte) : Nat :=
  if (ascii "\"\\").contains b ∨ b.val ∈ [8, 9, 10, 12, 13] then 2
  else if b.val < 0x20 ∨ (ascii "<>&").contains b then 6
  else 1

/-- The bytes of a JSON string's inside: `\u2028`, `\u2029` and the replacement
    of an invalid byte are escapes. -/
def quotedLengthFrom : Nat → GoString → Nat
  | _, [] => 0
  | owed + 1, _ :: rest => 1 + quotedLengthFrom owed rest
  | 0, b :: rest =>
      match Utf8.following b rest with
      | none => 6 + quotedLengthFrom 0 rest
      | some 0 => asciiLength b + quotedLengthFrom 0 rest
      | some (owed + 1) =>
          (if b :: rest.take 2 ∈ ([[0xE2, 0x80, 0xA8], [0xE2, 0x80, 0xA9]] : List GoString) then 4
            else 1) + quotedLengthFrom (owed + 1) rest

/-- The text `{"v":…,"s":"…","a":"…"}`. -/
def TreeCursor.jsonLength (cursor : TreeCursor) : Nat :=
  5 + (toString cursor.version).length + 6 + quotedLengthFrom 0 cursor.scope + 7 +
    quotedLengthFrom 0 cursor.after + 2

/-- `RawURLEncoding.EncodedLen`. -/
def base64Length (n : Nat) : Nat := n / 3 * 4 + (n % 3 * 8 + 5) / 6

/-- `json.Marshal` and base64. -/
def TreeCursor.encode (cursor : TreeCursor) : CursorText where
  decoded := some { version := cursor.version, scope := Utf8.coerce cursor.scope,
                    after := Utf8.coerce cursor.after }
  length := base64Length cursor.jsonLength

/-! ## Requests and the file system -/

structure FsTreeParams where
  depth : Int
  limit : Int
  respectGitignore : Option Bool
  /-- `none` for the empty string. -/
  cursor : Option CursorText

structure FsTreeEntry where
  name    : GoString
  path    : GoString
  type    : String
  size    : Int
  mtimeMs : Int
deriving DecidableEq

structure TreePage where
  path       : GoString
  entries    : List FsTreeEntry
  nextCursor : Option CursorText
  truncated  : Bool

structure RpcFailure where
  code    : String
  message : String
deriving DecidableEq

structure DirEntry where
  name  : GoString
  isDir : Bool
deriving DecidableEq

structure FileInfo where
  isSymlink : Bool
  isDir     : Bool
  size      : Int
  modTime   : Int
deriving DecidableEq

inductive LstatError where
  | notExist
  | other (message : String)

/-- What a request reads: the directory, its files, and the patterns of the
    workspace's `.gitignore`, if there are any. -/
structure TreeReads where
  readDir   : Except String (List DirEntry)
  lstat     : GoString → Except LstatError FileInfo
  gitignore : Option (GoString → Bool)

/-- SHA-256: 32 bytes. -/
structure Digest where
  bytes  : List Byte
  length : bytes.length = 32

def hexDigit (n : Nat) : Byte := if n < 10 then Fin.ofNat 256 (0x30 + n) else Fin.ofNat 256 (0x57 + n)

/-- `%x`. -/
def hex (bytes : List Byte) : GoString :=
  bytes.flatMap fun b => [hexDigit (b.val / 16), hexDigit (b.val % 16)]

/-! ## The handler -/

section Handler

variable (sha256 : GoString → Digest)

def treeScope (root : GoString) (respectGitignore : Bool) : GoString :=
  hex (sha256 (root ++ ascii ":" ++ ascii (if respectGitignore then "true" else "false"))).bytes

def ignore (gi : Option (GoString → Bool)) (relPath : GoString) (isDir : Bool) : Bool :=
  if relPath = ascii ".git" ∨ (ascii ".git/").isPrefixOf relPath then true
  else match gi with
    | none => false
    | some matchesPath => matchesPath relPath || (isDir && matchesPath (relPath ++ ascii "/"))

def loadGitignore (reads : TreeReads) (respect : Bool) : Option (GoString → Bool) :=
  if respect then reads.gitignore else none

def nodeType (stats : FileInfo) : String :=
  if stats.isSymlink then "symlink" else if stats.isDir then "dir" else "file"

/-- The loop over the names of a page. -/
def treeEntries (reads : TreeReads) (matcher : Option (GoString → Bool)) :
    List DirEntry → Except RpcFailure (List FsTreeEntry)
  | [] => .ok []
  | entry :: rest =>
      if ignore matcher entry.name entry.isDir then treeEntries reads matcher rest
      else match reads.lstat entry.name with
        | .error .notExist => treeEntries reads matcher rest
        | .error (.other message) => .error { code := "IO_ERROR", message }
        | .ok stats => do
            let entries ← treeEntries reads matcher rest
            return { name := entry.name, path := entry.name, type := nodeType stats,
                     size := stats.size, mtimeMs := stats.modTime } :: entries

def invalidCursor : RpcFailure :=
  { code := "INVALID_CURSOR", message := "Invalid directory cursor." }

/-- The position of a request: the name that its cursor has. -/
def readCursor (scope : GoString) : Option CursorText → Except RpcFailure TreeCursor
  | none => .ok { version := 1, scope, after := [] }
  | some text =>
      if text.length > 16384 then .error invalidCursor
      else match text.decoded with
        | none => .error invalidCursor
        | some decoded =>
            if decoded.version ≠ 1 ∨ decoded.scope ≠ scope then .error invalidCursor
            else .ok decoded

def listTreePage (reads : TreeReads) (params : FsTreeParams) (root : GoString) :
    Except RpcFailure TreePage :=
  if params.depth > 1 ∨ params.depth < 0 ∨ params.limit < 0 ∨ params.limit > 5000 then
    .error { code := "BAD_REQUEST",
             message := "Directory pagination requires depth 1 and a page size up to 5000." }
  else do
    let limit := if params.limit = 0 then 1000 else params.limit.toNat
    let respectGitignore := params.respectGitignore.getD true
    let scope := treeScope sha256 root respectGitignore
    let cursor ← readCursor scope params.cursor
    let dirEntries ← reads.readDir.mapError fun message => { code := "IO_ERROR", message }
    let names := Table.orderBy DirEntry.name dirEntries
    let start := Pages.search DirEntry.name cursor.after names
    let entries ← treeEntries reads (loadGitignore reads respectGitignore)
      ((names.drop start).take limit)
    -- `names[end-1]`, when the page ends before the names do
    let next := if start + limit < names.length then names[start + limit - 1]? else none
    return { path := root, entries, truncated := false,
             nextCursor := next.map fun last => { cursor with after := last.name }.encode }

end Handler

end Cohub.Sandbox
