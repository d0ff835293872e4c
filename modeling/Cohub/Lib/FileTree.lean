import Mathlib.Data.List.Basic

/-! # File trees with symbolic links

    A file tree has a node at some paths from its root: files, directories,
    symbolic links, and special files.  A path is walked one component at a
    time; where it comes to a link, the walk goes on at the link's target.

    The walk of a path to its end says where it leads: to a node, to a name
    that a directory lacks, or to an error.  It reads of each node only how
    the node looks from the path, so a write to a file changes no walk. -/

namespace FileTree

/-! ## Trees -/

inductive Errno where
  | EEXIST
  | ENOENT
  | ENOTDIR
  | EISDIR
  | EACCES
  | ELOOP
  | ENODEV
  | ENOSPC
deriving DecidableEq

inductive Component where
  | up
  | name (name : String)
deriving DecidableEq

structure LinkTarget where
  absolute : Bool
  path     : List Component
deriving DecidableEq

/-- What a device, a pipe or a socket does when it is opened for writing. -/
inductive Special where
  | accepts
  | refuses
  | blocks
deriving DecidableEq

inductive Node where
  | file (content : List UInt8) (writable : Bool)
  | directory (searchable writable : Bool)
  | link (target : LinkTarget)
  | special (opening : Special)
deriving DecidableEq

def Node.isDirectory : Node → Bool
  | .directory _ _ => true
  | _ => false

/-- What a walk reads of a node. -/
inductive Look where
  | directory (searchable : Bool)
  | link (target : LinkTarget)
  | end_
deriving DecidableEq

def Node.look : Node → Look
  | .directory searchable _ => .directory searchable
  | .link target => .link target
  | _ => .end_

/-- The root is a directory, and so is what a node is in. -/
structure Volume where
  node   : List String → Option Node
  root   : (node []).any Node.isDirectory
  parent : ∀ path name, (node (path ++ [name])).isSome → (node path).any Node.isDirectory

namespace Volume

def look (tree : Volume) (path : List String) : Option Look := (tree.node path).map Node.look

/-- A file can be written at the path: there is one, or a directory lacks it. -/
def holdsFile (tree : Volume) (path : List String) : Bool :=
  match tree.node path with
  | some (.file _ _) => true
  | some _ => false
  | none => (tree.node path.dropLast).any Node.isDirectory

variable {path : List String} {tree : Volume}

theorem not_directory_of_holdsFile
    (h : tree.holdsFile path = true) : (tree.node path).any Node.isDirectory = false := by
  unfold holdsFile at h
  cases hnode : tree.node path with
  | none => rfl
  | some node =>
    rw [hnode] at h
    cases node with
    | file => rfl
    | _ => cases h

/-- The file at a path, written or created. -/
def putFile (tree : Volume) (path : List String) (content : List UInt8) (writable : Bool) :
    Volume where
  node := fun other =>
    if other = path ∧ tree.holdsFile path = true then some (.file content writable)
    else tree.node other
  root := by
    split
    · next h =>
      obtain ⟨rfl, hholds⟩ := h
      exact absurd tree.root (by rw [not_directory_of_holdsFile hholds]; exact Bool.false_ne_true)
    · exact tree.root
  parent := by
    intro above name hsome
    by_cases hself : above = path ∧ tree.holdsFile path = true
    · -- nothing is in a file
      obtain ⟨rfl, hholds⟩ := hself
      rw [if_neg (fun h => by simpa using congrArg List.length h.1)] at hsome
      have hdirectory := tree.parent above name hsome
      rw [not_directory_of_holdsFile hholds] at hdirectory
      cases hdirectory
    · rw [if_neg hself]
      by_cases hnew : above ++ [name] = path ∧ tree.holdsFile path = true
      · obtain ⟨rfl, hholds⟩ := hnew
        unfold holdsFile at hholds
        cases hnode : tree.node (above ++ [name]) with
        | some node => exact tree.parent above name (by rw [hnode]; rfl)
        | none =>
          rw [hnode, List.dropLast_concat] at hholds
          exact hholds
      · rw [if_neg hnew] at hsome
        exact tree.parent above name hsome

theorem node_putFile (h : tree.holdsFile path = true) (content : List UInt8) (writable : Bool) :
    (tree.putFile path content writable).node path = some (.file content writable) :=
  if_pos ⟨rfl, h⟩

theorem node_putFile_ne (tree : Volume) {other : List String} (h : other ≠ path)
    (content : List UInt8) (writable : Bool) :
    (tree.putFile path content writable).node other = tree.node other :=
  if_neg fun hself => h hself.1

theorem parent_isDirectory (tree : Volume) (h : (tree.node path).isSome) :
    (tree.node path.dropLast).any Node.isDirectory := by
  rcases List.eq_nil_or_concat path with rfl | ⟨above, name, rfl⟩
  · exact tree.root
  · rw [List.concat_eq_append, List.dropLast_concat]
    rw [List.concat_eq_append] at h
    exact tree.parent above name h

end Volume

/-! ## Walks -/

/-- Where a walk stops: at a node, at a name that is missing, at a link with
    what is left of the path, or at an error. -/
inductive Walk where
  | reached (path : List String)
  | missing (path : List String)
  | link (directory : List String) (target : LinkTarget) (rest : List Component)
  | failed (error : Errno)
deriving DecidableEq

/-- The walk up to the next link.  A link at the end is `reached` unless it is
    followed. -/
def walk (look : List String → Option Look) (follow : Bool) :
    List String → List Component → Walk
  | directory, [] => .reached directory
  | directory, component :: rest =>
      match look directory with
      | some (.directory true) =>
          match component with
          | .up => walk look follow directory.dropLast rest
          | .name name =>
              match look (directory ++ [name]) with
              | none => if rest = [] then .missing (directory ++ [name]) else .failed .ENOENT
              | some (.link target) =>
                  if rest = [] ∧ follow = false then .reached (directory ++ [name])
                  else .link directory target rest
              | some _ => walk look follow (directory ++ [name]) rest
      | some (.directory false) => .failed .EACCES
      | _ => .failed .ENOTDIR

/-- Where a path leads. -/
inductive Location where
  | found (path : List String)
  | missing (path : List String)
  | failed (error : Errno)
deriving DecidableEq

/-- The end of a walk that stops at no link. -/
def Walk.location? : Walk → Option Location
  | .reached path => some (.found path)
  | .missing path => some (.missing path)
  | .link _ _ _ => none
  | .failed error => some (.failed error)

/-- Where a walk goes on after a link. -/
def LinkTarget.start (target : LinkTarget) (directory : List String) : List String :=
  if target.absolute then [] else directory

/-- The walk to the end, over at most so many links. -/
def resolve (look : List String → Option Look) (follow : Bool) :
    Nat → List String → List Component → Location
  | 0, directory, path => (walk look follow directory path).location?.getD (.failed .ELOOP)
  | links + 1, directory, path =>
      match walk look follow directory path with
      | .reached found => .found found
      | .missing found => .missing found
      | .link above target rest =>
          resolve look follow links (target.start above) (target.path ++ rest)
      | .failed error => .failed error

/-- The links that one path may have. -/
def maxLinks : Nat := 40

def Node.isWritableDirectory : Node → Bool
  | .directory _ writable => writable
  | _ => false

namespace Volume

/-- Where the path leads, links at the end followed. -/
def stat (tree : Volume) (path : List Component) : Location :=
  resolve tree.look true maxLinks [] path

/-- A link at the end is not followed. -/
def lstat (tree : Volume) (path : List Component) : Location :=
  resolve tree.look false maxLinks [] path

/-- The content of the file that the path leads to. -/
def contentAt (tree : Volume) (path : List Component) : Option (List UInt8) :=
  match tree.stat path with
  | .found found =>
      match tree.node found with
      | some (.file content _) => some content
      | _ => none
  | _ => none

/-- `open` with `O_WRONLY|O_CREATE|O_EXCL`: the new file, and the tree with it. -/
def openExclusive (tree : Volume) (path : List Component) : Except Errno (List String × Volume) :=
  match tree.lstat path with
  | .found _ => .error .EEXIST
  | .missing found =>
      if (tree.node found.dropLast).any Node.isWritableDirectory then
        .ok (found, tree.putFile found [] true)
      else .error .EACCES
  | .failed error => .error error

end Volume

/-- An `open` of what exists. -/
inductive Opened where
  | file (path : List String) (tree : Volume)
  | special
  | blocked
  | failed (error : Errno)

def Special.opened : Special → Opened
  | .accepts => .special
  | .refuses => .failed .ENODEV
  | .blocks => .blocked

namespace Volume

/-- `open` with `O_WRONLY|O_TRUNC`. -/
def openTruncate (tree : Volume) (path : List Component) : Opened :=
  match tree.stat path with
  | .found found =>
      match tree.node found with
      | some (.file _ writable) =>
          if writable then .file found (tree.putFile found [] true) else .failed .EACCES
      | some (.directory _ _) => .failed .EISDIR
      | some (.link _) => .failed .ELOOP
      | some (.special opening) => opening.opened
      | none => .failed .ENOENT
  | .missing _ => .failed .ENOENT
  | .failed error => .failed error

end Volume

/-! ## What walks find -/

section Walks

variable {look : List String → Option Look} {follow : Bool}
  {directory : List String} {path : List Component}

theorem walk_failed {error : Errno} (h : walk look follow directory path = .failed error) :
    error = .ENOENT ∨ error = .EACCES ∨ error = .ENOTDIR := by
  induction path generalizing directory with
  | nil => cases h
  | cons component rest ih =>
    unfold walk at h
    split at h
    · cases component with
      | up => exact ih h
      | name name =>
        dsimp only at h
        split at h
        · split at h
          · cases h
          · cases h
            exact .inl rfl
        · split at h
          · cases h
          · cases h
        · exact ih h
    · cases h
      exact .inr (.inl rfl)
    · cases h
      exact .inr (.inr rfl)

variable {components : List Component} {links : Nat}

theorem walk_missing {path : List String}
    (h : walk look follow directory components = .missing path) :
    look path = none ∧ look path.dropLast = some (.directory true) := by
  induction components generalizing directory with
  | nil => cases h
  | cons component rest ih =>
    unfold walk at h
    split at h
    · next hdirectory =>
      cases component with
      | up => exact ih h
      | name name =>
        dsimp only at h
        split at h
        · next hnone =>
          split at h
          · cases h
            exact ⟨hnone, by rw [List.dropLast_concat, hdirectory]⟩
          · cases h
        · split at h
          · cases h
          · cases h
        · exact ih h
    · cases h
    · cases h

theorem resolve_rule {Good : List String → Prop} {P : Location → Prop} (hroot : Good [])
    (hlink : ∀ directory path above target rest, Good directory →
      walk look follow directory path = .link above target rest → Good above)
    (hend : ∀ directory path location, Good directory →
      (walk look follow directory path).location? = some location → P location)
    (hloop : P (.failed .ELOOP)) (links : Nat) :
    ∀ {directory : List String} (path : List Component), Good directory →
      P (resolve look follow links directory path) := by
  induction links with
  | zero =>
    intro directory path hgood
    unfold resolve
    cases hlocation : (walk look follow directory path).location? with
    | none => exact hloop
    | some location => exact hend directory path location hgood hlocation
  | succ links ih =>
    intro directory path hgood
    unfold resolve
    cases hwalk : walk look follow directory path with
    | link above target rest =>
      refine ih _ ?_
      unfold LinkTarget.start
      split
      · exact hroot
      · exact hlink directory path above target rest hgood hwalk
    | _ => exact hend directory path _ hgood (congrArg Walk.location? hwalk)

theorem resolve_ne_exists (links : Nat) (directory : List String) (path : List Component) :
    resolve look follow links directory path ≠ .failed .EEXIST := by
  refine @resolve_rule look follow (fun _ => True) (fun location => location ≠ .failed .EEXIST)
    trivial (fun _ _ _ _ _ _ _ => trivial) ?_ (by decide) links directory path trivial
  rintro last components location - hwalk rfl
  cases hlast : walk look follow last components with
  | failed error =>
    rw [hlast] at hwalk
    cases hwalk
    rcases walk_failed hlast with h | h | h <;> cases h
  | _ =>
    rw [hlast] at hwalk
    cases hwalk

theorem resolve_missing {path : List String}
    (h : resolve look follow links directory components = .missing path) :
    look path = none ∧ look path.dropLast = some (.directory true) := by
  refine @resolve_rule look follow (fun _ => True)
    (fun location => location = .missing path →
      look path = none ∧ look path.dropLast = some (.directory true))
    trivial (fun _ _ _ _ _ _ _ => trivial) ?_ nofun links directory components trivial h
  rintro last components location - hwalk rfl
  cases hlast : walk look follow last components with
  | missing other =>
    rw [hlast] at hwalk
    cases hwalk
    exact walk_missing hlast
  | _ =>
    rw [hlast] at hwalk
    cases hwalk

theorem walk_link {above : List String} {rest : List Component} {target : LinkTarget}
    (h : walk look follow directory path = .link above target rest) :
    look above = some (.directory true) := by
  induction path generalizing directory with
  | nil => cases h
  | cons component path ih =>
    unfold walk at h
    split at h
    · next hdirectory =>
      cases component with
      | up => exact ih h
      | name name =>
        dsimp only at h
        split at h
        · split at h
          · cases h
          · cases h
        · split at h
          · cases h
          · cases h
            exact hdirectory
        · exact ih h
    · cases h
    · cases h

theorem walk_follow {result : Walk} (h : walk look false directory path = result)
    (hend : ∀ found target, result = .reached found → look found ≠ some (.link target)) :
    walk look true directory path = result := by
  induction path generalizing directory with
  | nil => exact h
  | cons component rest ih =>
    unfold walk at h ⊢
    cases hdirectory : look directory with
    | none => rwa [hdirectory] at h
    | some here =>
      rw [hdirectory] at h
      cases here with
      | directory searchable =>
        cases searchable with
        | false => exact h
        | true =>
          cases component with
          | up => exact ih h
          | name name =>
            dsimp only at h ⊢
            cases hchild : look (directory ++ [name]) with
            | none => rwa [hchild] at h
            | some child =>
              rw [hchild] at h
              cases child with
              | link target =>
                dsimp only at h ⊢
                rw [if_neg (show ¬ (rest = [] ∧ true = false) from fun hself => by cases hself.2)]
                by_cases hlast : rest = [] ∧ false = false
                · rw [if_pos hlast] at h
                  exact absurd hchild (hend _ target h.symm)
                · rwa [if_neg hlast] at h
              | directory _ => exact ih h
              | end_ => exact ih h
      | _ => exact h

theorem resolve_follow {location : Location} :
    ∀ {directory : List String} {path : List Component},
      resolve look false links directory path = location →
      (∀ found target, location = .found found → look found ≠ some (.link target)) →
      resolve look true links directory path = location := by
  induction links with
  | zero =>
    intro directory path h hend
    unfold resolve at h ⊢
    rw [walk_follow rfl]
    · exact h
    · intro found target hreached
      rw [hreached] at h
      exact hend found target h.symm
  | succ links ih =>
    intro directory path h hend
    unfold resolve at h ⊢
    rw [walk_follow rfl]
    · cases hwalk : walk look false directory path with
      | link above target rest =>
        rw [hwalk] at h
        exact ih h hend
      | _ => rwa [hwalk] at h
    · intro found target hreached
      rw [hreached] at h
      exact hend found target h.symm

end Walks

/-! ## A new file -/

section Created

variable {look : List String → Option Look} {path : List String}

def withFile (look : List String → Option Look) (path : List String) : List String → Option Look :=
  fun other => if other = path then some .end_ else look other

theorem withFile_self : withFile look path path = some .end_ := if_pos rfl

theorem withFile_of_some (hnone : look path = none) {other : List String} {found : Look}
    (h : look other = some found) : withFile look path other = some found := by
  refine (if_neg ?_).trans h
  rintro rfl
  rw [hnone] at h
  cases h

theorem walk_withFile (hnone : look path = none) {directory : List String}
    {components : List Component} :
    (walk look false directory components = .missing path →
      walk (withFile look path) true directory components = .reached path) ∧
    ∀ above target rest, walk look false directory components = .link above target rest →
      walk (withFile look path) true directory components = .link above target rest := by
  induction components generalizing directory with
  | nil => exact ⟨nofun, nofun⟩
  | cons component rest ih =>
    unfold walk
    cases hdirectory : look directory with
    | none => exact ⟨nofun, nofun⟩
    | some here =>
      rw [withFile_of_some hnone hdirectory]
      cases here with
      | directory searchable =>
        cases searchable with
        | false => exact ⟨nofun, nofun⟩
        | true =>
          cases component with
          | up => exact ih
          | name name =>
            dsimp only
            cases hchild : look (directory ++ [name]) with
            | none =>
              dsimp only
              by_cases hrest : rest = []
              · rw [if_pos hrest]
                refine ⟨fun h => ?_, nofun⟩
                cases h
                rw [withFile_self, hrest]
                rfl
              · rw [if_neg hrest]
                exact ⟨nofun, nofun⟩
            | some child =>
              rw [withFile_of_some hnone hchild]
              cases child with
              | link target =>
                dsimp only
                rw [if_neg (show ¬ (rest = [] ∧ true = false) from fun h => by cases h.2)]
                by_cases hlast : rest = [] ∧ false = false
                · rw [if_pos hlast]
                  exact ⟨nofun, nofun⟩
                · rw [if_neg hlast]
                  exact ⟨nofun, fun _ _ _ h => h⟩
              | directory _ => exact ih
              | end_ => exact ih
      | _ => exact ⟨nofun, nofun⟩

theorem resolve_withFile (hnone : look path = none) {links : Nat} :
    ∀ {directory : List String} {components : List Component},
      resolve look false links directory components = .missing path →
      resolve (withFile look path) true links directory components = .found path := by
  induction links with
  | zero =>
    intro directory components h
    unfold resolve at h ⊢
    cases hwalk : walk look false directory components with
    | missing other =>
      rw [hwalk] at h
      cases h
      rw [(walk_withFile hnone).1 hwalk]
      rfl
    | _ =>
      rw [hwalk] at h
      cases h
  | succ links ih =>
    intro directory components h
    unfold resolve at h ⊢
    cases hwalk : walk look false directory components with
    | missing other =>
      rw [hwalk] at h
      cases h
      rw [(walk_withFile hnone).1 hwalk]
    | link above target rest =>
      rw [hwalk] at h
      rw [(walk_withFile hnone).2 above target rest hwalk]
      exact ih h
    | _ =>
      rw [hwalk] at h
      cases h

end Created

namespace Volume

variable {tree : Volume} {path : List String}

/-! ## Writes and walks -/

variable {content : List UInt8} {writable : Bool}

theorem look_putFile_of_file
    (h : tree.node path = some (.file content writable)) (content' : List UInt8)
    (writable' : Bool) : (tree.putFile path content' writable').look = tree.look := by
  have hholds : tree.holdsFile path = true := by rw [holdsFile, h]
  funext other
  unfold look
  by_cases hself : other = path
  · rw [hself, node_putFile hholds, h]
    rfl
  · rw [node_putFile_ne tree hself]

theorem look_putFile (hholds : tree.holdsFile path = true) (content : List UInt8)
    (writable : Bool) : (tree.putFile path content writable).look = withFile tree.look path := by
  funext other
  unfold look withFile
  by_cases hself : other = path
  · rw [hself, node_putFile hholds, if_pos rfl]
    rfl
  · rw [node_putFile_ne tree hself, if_neg hself]

variable {components : List Component}

theorem holdsFile_of_missing (h : tree.lstat components = .missing path) :
    tree.node path = none ∧ tree.holdsFile path = true := by
  obtain ⟨hnone, hdirectory⟩ := resolve_missing h
  have hnode : tree.node path = none := Option.map_eq_none_iff.mp hnone
  refine ⟨hnode, ?_⟩
  obtain ⟨node, hparent, hlook⟩ := Option.map_eq_some_iff.mp hdirectory
  rw [holdsFile, hnode, hparent]
  cases node with
  | directory searchable writable => rfl
  | _ => cases hlook

theorem stat_of_created (h : tree.lstat components = .missing path) (content : List UInt8)
    (writable : Bool) : (tree.putFile path content writable).stat components = .found path := by
  unfold stat
  rw [look_putFile (holdsFile_of_missing h).2]
  exact resolve_withFile (resolve_missing h).1 h

theorem contentAt_putFile (hholds : tree.holdsFile path = true)
    (hstat : (tree.putFile path content writable).stat components = .found path) :
    (tree.putFile path content writable).contentAt components = some content := by
  unfold contentAt
  rw [hstat]
  dsimp only
  rw [node_putFile hholds]

/-- A directory or the end of a path: no link. -/
def Stands (tree : Volume) (path : List String) : Prop :=
  ∃ here, tree.look path = some here ∧ ∀ target, here ≠ .link target

theorem stands_root (tree : Volume) : tree.Stands [] := by
  have hroot := tree.root
  unfold Stands look
  cases hnode : tree.node [] with
  | none =>
    rw [hnode] at hroot
    cases hroot
  | some node =>
    rw [hnode] at hroot
    cases node with
    | directory searchable writable => exact ⟨_, rfl, nofun⟩
    | _ => cases hroot

theorem stands_dropLast {searchable : Bool} (h : tree.look path = some (.directory searchable)) :
    tree.Stands path.dropLast := by
  have hsome : (tree.node path).isSome := by
    obtain ⟨node, hnode, -⟩ := Option.map_eq_some_iff.mp h
    rw [hnode]
    rfl
  have hparent := tree.parent_isDirectory hsome
  unfold Stands look
  cases hnode : tree.node path.dropLast with
  | none =>
    rw [hnode] at hparent
    cases hparent
  | some node =>
    rw [hnode] at hparent
    cases node with
    | directory searchable writable => exact ⟨_, rfl, nofun⟩
    | _ => cases hparent

theorem walk_stands {directory : List String} (hstart : tree.Stands directory)
    (h : walk tree.look true directory components = .reached path) : tree.Stands path := by
  induction components generalizing directory with
  | nil =>
    cases h
    exact hstart
  | cons component rest ih =>
    unfold walk at h
    split at h
    · next hdirectory =>
      cases component with
      | up => exact ih (stands_dropLast hdirectory) h
      | name name =>
        dsimp only at h
        split at h
        · split at h
          · cases h
          · cases h
        · split at h
          · next hlast => cases hlast.2
          · cases h
        · next here hlink hchild =>
          exact ih ⟨here, hchild, fun target heq => hlink target heq⟩ h
    · cases h
    · cases h

theorem stat_stands (h : tree.stat components = .found path) : tree.Stands path := by
  refine @resolve_rule tree.look true tree.Stands
    (fun location => location = .found path → tree.Stands path) tree.stands_root ?_ ?_ nofun
    maxLinks [] components tree.stands_root h
  · intro _ _ above target rest _ hwalk
    exact ⟨_, walk_link hwalk, nofun⟩
  · rintro last rest location hlast hwalk rfl
    cases hresult : walk tree.look true last rest with
    | reached other =>
      rw [hresult] at hwalk
      cases hwalk
      exact walk_stands hlast hresult
    | _ =>
      rw [hresult] at hwalk
      cases hwalk

end Volume

end FileTree
