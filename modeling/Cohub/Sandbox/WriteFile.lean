import Cohub.Lib.FileTree

/-! # Writing a file of the sandbox

    A file is written by an exclusive create, or, where the path exists, by an
    open that truncates it.  If the second finds nothing, the first is tried
    again: another process has removed the file in between.

    A link that leads to nothing exists for the first open, and does not for
    the second.  As no other process removes it, the loop does not end. -/

namespace Cohub.Sandbox

open FileTree

/-! ## The loop -/

/-- A tree, and the bytes for which there is space. -/
structure FileSystem where
  tree  : Volume
  space : Nat

/-- What `writeFileWithDisposition` returns, and the tree that it leaves. -/
structure Disposition where
  created : Bool
  error   : Option Errno
  tree    : Volume

def isExist (error : Errno) : Bool := error = .EEXIST

def isNotExist (error : Errno) : Bool := error = .ENOENT

/-- The file that was opened is empty. -/
def writeAndClose (space : Nat) (tree : Volume) (path : List String) (content : List UInt8)
    (created : Bool) : Disposition :=
  if content.length ≤ space then
    { created, error := none, tree := tree.putFile path content true }
  else { created, error := some .ENOSPC, tree := tree.putFile path (content.take space) true }

inductive Round where
  | returned (disposition : Disposition)
  | again
  /-- The open of a pipe waits for a reader. -/
  | blocked

/-- The round of a path that exists, after its second open. -/
def truncateRound (fs : FileSystem) (content : List UInt8) : Opened → Round
  | .failed error =>
      if isNotExist error then .again
      else .returned { created := false, error := some error, tree := fs.tree }
  | .file found tree => .returned (writeAndClose fs.space tree found content false)
  | .special => .returned { created := false, error := none, tree := fs.tree }
  | .blocked => .blocked

def round (fs : FileSystem) (path : List Component) (content : List UInt8) : Round :=
  match fs.tree.openExclusive path with
  | .ok (found, tree) => .returned (writeAndClose fs.space tree found content true)
  | .error error =>
      if isExist error then truncateRound fs content (fs.tree.openTruncate path)
      else .returned { created := false, error := some error, tree := fs.tree }

/-- `writeFileWithDisposition`, for at most so many rounds. -/
def writeFileWithDisposition (fs : FileSystem) (path : List Component) (content : List UInt8) :
    Nat → Option Disposition
  | 0 => none
  | rounds + 1 =>
      match round fs path content with
      | .returned disposition => some disposition
      | .again => writeFileWithDisposition fs path content rounds
      | .blocked => none

/-- The write returns, and if it succeeds the path has the content, and
    `created` says that nothing was there. -/
def Writes (fs : FileSystem) (path : List Component) (content : List UInt8) : Prop :=
  ∃ rounds disposition, writeFileWithDisposition fs path content rounds = some disposition ∧
    (disposition.error = none →
      disposition.tree.contentAt path = some content ∧
        (disposition.created = true ↔ ∀ found, fs.tree.lstat path ≠ .found found))

def LinksToNothing (tree : Volume) (path : List Component) : Prop :=
  (∃ found target, tree.lstat path = .found found ∧ tree.node found = some (.link target)) ∧
    ((∃ missing, tree.stat path = .missing missing) ∨ tree.stat path = .failed .ENOENT)

/-- The path leads to a device or a pipe that can be opened. -/
def LeadsToSpecial (tree : Volume) (path : List Component) : Prop :=
  ∃ found opening, tree.stat path = .found found ∧ tree.node found = some (.special opening) ∧
    opening ≠ .refuses

/-! ## Rounds -/

section Rounds

variable {fs : FileSystem} {path : List Component} {content : List UInt8}

theorem writes_iff_of_returned {disposition : Disposition}
    (h : round fs path content = .returned disposition) :
    Writes fs path content ↔ (disposition.error = none →
      disposition.tree.contentAt path = some content ∧
        (disposition.created = true ↔ ∀ found, fs.tree.lstat path ≠ .found found)) := by
  constructor
  · rintro ⟨rounds, other, hreturned, hwrites⟩
    cases rounds with
    | zero => cases hreturned
    | succ rounds =>
      rw [writeFileWithDisposition, h] at hreturned
      cases hreturned
      exact hwrites
  · intro hwrites
    refine ⟨1, disposition, ?_, hwrites⟩
    rw [writeFileWithDisposition, h]

theorem not_writes_of_again (h : round fs path content = .again) : ¬ Writes fs path content := by
  rintro ⟨rounds, disposition, hreturned, -⟩
  induction rounds with
  | zero => cases hreturned
  | succ rounds ih =>
    rw [writeFileWithDisposition, h] at hreturned
    exact ih hreturned

theorem not_writes_of_blocked (h : round fs path content = .blocked) :
    ¬ Writes fs path content := by
  rintro ⟨rounds, disposition, hreturned, -⟩
  cases rounds with
  | zero => cases hreturned
  | succ rounds =>
    rw [writeFileWithDisposition, h] at hreturned
    cases hreturned

variable {found : List String}
  {writable : Bool} {error : Errno} {file : List String} {location : Location}

theorem writeAndClose_content {space : Nat} {tree : Volume} {created : Bool}
    (hfile : tree.node found = some (.file [] writable)) (hstat : tree.stat path = .found found)
    (hok : (writeAndClose space tree found content created).error = none) :
    (writeAndClose space tree found content created).tree.contentAt path = some content := by
  unfold writeAndClose at hok ⊢
  split
  · refine Volume.contentAt_putFile (by rw [Volume.holdsFile, hfile]) ?_
    unfold Volume.stat
    rw [Volume.look_putFile_of_file hfile]
    exact hstat
  · next hspace =>
    rw [if_neg hspace] at hok
    cases hok

theorem writeAndClose_created (space : Nat) (tree : Volume) (found : List String)
    (content : List UInt8) (created : Bool) :
    (writeAndClose space tree found content created).created = created := by
  unfold writeAndClose
  split <;> rfl

theorem writes_of_missing (h : fs.tree.lstat path = .missing found) : Writes fs path content := by
  by_cases hwritable : (fs.tree.node found.dropLast).any Node.isWritableDirectory = true
  · have hround : round fs path content =
        .returned (writeAndClose fs.space (fs.tree.putFile found [] true) found content true) := by
      rw [round, Volume.openExclusive, h]
      dsimp only
      rw [if_pos hwritable]
    refine (writes_iff_of_returned hround).mpr fun hok => ⟨?_, ?_⟩
    · exact writeAndClose_content (Volume.node_putFile (Volume.holdsFile_of_missing h).2 [] true)
        (Volume.stat_of_created h [] true) hok
    · rw [writeAndClose_created, h]
      exact ⟨fun _ _ => nofun, fun _ => rfl⟩
  · have hround : round fs path content =
        .returned { created := false, error := some .EACCES, tree := fs.tree } := by
      rw [round, Volume.openExclusive, h]
      dsimp only
      rw [if_neg hwritable]
      rfl
    exact (writes_iff_of_returned hround).mpr nofun

theorem writes_of_failed (h : fs.tree.lstat path = .failed error) : Writes fs path content := by
  have hround : round fs path content =
      .returned { created := false, error := some error, tree := fs.tree } := by
    rw [round, Volume.openExclusive, h]
    dsimp only
    have hne : error ≠ .EEXIST := fun heq => resolve_ne_exists _ _ _ (heq ▸ h)
    rw [if_neg (by simp [isExist, hne])]
  exact (writes_iff_of_returned hround).mpr nofun

theorem round_of_found {found : List String} (h : fs.tree.lstat path = .found found) :
    round fs path content = truncateRound fs content (fs.tree.openTruncate path) := by
  rw [round, Volume.openExclusive, h]
  rfl

section

variable (h : fs.tree.lstat path = .found found)
include h

theorem writes_iff_of_openFails (hopen : fs.tree.openTruncate path = .failed error) :
    Writes fs path content ↔ error ≠ .ENOENT := by
  have hround := @round_of_found fs path content found h
  rw [hopen, truncateRound] at hround
  by_cases hnone : error = .ENOENT
  · rw [if_pos (by simp [isNotExist, hnone])] at hround
    exact ⟨fun hwrites => absurd hwrites (not_writes_of_again hround), fun hne => absurd hnone hne⟩
  · rw [if_neg (by simp [isNotExist, hnone])] at hround
    exact ⟨fun _ => hnone, fun _ => (writes_iff_of_returned hround).mpr nofun⟩

theorem writes_of_file {old : List UInt8} (hstat : fs.tree.stat path = .found file)
    (hfile : fs.tree.node file = some (.file old writable)) : Writes fs path content := by
  cases writable with
  | false =>
    have hopen : fs.tree.openTruncate path = .failed .EACCES := by
      rw [Volume.openTruncate, hstat]
      dsimp only
      rw [hfile]
      rfl
    exact (writes_iff_of_openFails h hopen).mpr (by decide)
  | true =>
    have hround : round fs path content =
        .returned (writeAndClose fs.space (fs.tree.putFile file [] true) file content false) := by
      rw [round_of_found h, Volume.openTruncate, hstat]
      dsimp only
      rw [hfile]
      rfl
    have hholds : fs.tree.holdsFile file = true := by rw [Volume.holdsFile, hfile]
    refine (writes_iff_of_returned hround).mpr fun hok => ⟨?_, ?_⟩
    · refine writeAndClose_content (Volume.node_putFile hholds [] true) ?_ hok
      unfold Volume.stat
      rw [Volume.look_putFile_of_file hfile]
      exact hstat
    · rw [writeAndClose_created]
      exact ⟨fun hcreated => absurd hcreated Bool.false_ne_true,
        fun hmissing => absurd h (hmissing found)⟩

theorem writes_iff_of_special {opening : Special} (hstat : fs.tree.stat path = .found file)
    (hspecial : fs.tree.node file = some (.special opening)) :
    Writes fs path content ↔ opening = .refuses := by
  have hopen : fs.tree.openTruncate path = opening.opened := by
    rw [Volume.openTruncate, hstat]
    dsimp only
    rw [hspecial]
  have hround := @round_of_found fs path content found h
  rw [hopen] at hround
  cases opening with
  | accepts =>
    refine ⟨fun hwrites => ?_, nofun⟩
    obtain ⟨hcontent, -⟩ := (writes_iff_of_returned hround).mp hwrites rfl
    rw [Volume.contentAt, hstat] at hcontent
    dsimp only at hcontent
    rw [hspecial] at hcontent
    cases hcontent
  | refuses => exact ⟨fun _ => rfl, fun _ => (writes_iff_of_returned hround).mpr nofun⟩
  | blocks => exact ⟨fun hwrites => absurd hwrites (not_writes_of_blocked hround), nofun⟩

theorem linksToNothing_of_found (hstat : (∃ missing, fs.tree.stat path = .missing missing) ∨
      fs.tree.stat path = .failed .ENOENT) : LinksToNothing fs.tree path := by
  refine ⟨?_, hstat⟩
  by_contra hlink
  -- a path that ends with no link leads to its end
  have hfound : fs.tree.stat path = .found found := by
    refine resolve_follow h fun other target heq hlook => ?_
    cases heq
    obtain ⟨node, hnode, htarget⟩ := Option.map_eq_some_iff.mp hlook
    cases node with
    | link same => exact hlink ⟨found, same, h, hnode⟩
    | _ => cases htarget
  rw [hfound] at hstat
  rcases hstat with ⟨missing, hmissing⟩ | hfailed
  · cases hmissing
  · cases hfailed

end

theorem not_linksToNothing (h : fs.tree.stat path = location)
    (hmissing : ∀ missing, location ≠ .missing missing) (hfailed : location ≠ .failed .ENOENT) :
    ¬ LinksToNothing fs.tree path := by
  rintro ⟨-, ⟨missing, hstat⟩ | hstat⟩
  · exact hmissing missing (h.symm.trans hstat)
  · exact hfailed (h.symm.trans hstat)

theorem not_leadsToSpecial (h : fs.tree.stat path = location)
    (hfound : ∀ found, location ≠ .found found) : ¬ LeadsToSpecial fs.tree path := by
  rintro ⟨found, opening, hstat, -, -⟩
  exact hfound found (h.symm.trans hstat)

/-! ## When the write returns -/

theorem writes_iff_of_found (h : fs.tree.lstat path = .found found) :
    Writes fs path content ↔ ¬ LinksToNothing fs.tree path ∧ ¬ LeadsToSpecial fs.tree path := by
  have hfails : ∀ error, fs.tree.openTruncate path = .failed error → error ≠ .ENOENT →
      ¬ LinksToNothing fs.tree path → ¬ LeadsToSpecial fs.tree path →
      (Writes fs path content ↔ ¬ LinksToNothing fs.tree path ∧ ¬ LeadsToSpecial fs.tree path) :=
    fun error hopen hne hlink hspecial =>
      ⟨fun _ => ⟨hlink, hspecial⟩, fun _ => (writes_iff_of_openFails h hopen).mpr hne⟩
  cases hstat : fs.tree.stat path with
  | missing missing =>
    have hopen : fs.tree.openTruncate path = .failed .ENOENT := by rw [Volume.openTruncate, hstat]
    have hnothing := linksToNothing_of_found h (.inl ⟨missing, hstat⟩)
    rw [writes_iff_of_openFails h hopen]
    exact ⟨fun hne => absurd rfl hne, fun hboth => absurd hnothing hboth.1⟩
  | failed error =>
    have hopen : fs.tree.openTruncate path = .failed error := by rw [Volume.openTruncate, hstat]
    by_cases hnone : error = .ENOENT
    · subst hnone
      have hnothing := linksToNothing_of_found h (.inr hstat)
      rw [writes_iff_of_openFails h hopen]
      exact ⟨fun hne => absurd rfl hne, fun hboth => absurd hnothing hboth.1⟩
    · exact hfails error hopen hnone
        (not_linksToNothing hstat (fun _ => nofun) (fun heq => hnone (Location.failed.inj heq)))
        (not_leadsToSpecial hstat fun _ => nofun)
  | found file =>
    have hnothing := not_linksToNothing hstat (fun _ => nofun) nofun
    obtain ⟨here, hlook, hnolink⟩ := Volume.stat_stands hstat
    obtain ⟨node, hnode, rfl⟩ := Option.map_eq_some_iff.mp hlook
    cases node with
    | file old writable =>
      refine ⟨fun _ => ⟨hnothing, ?_⟩, fun _ => writes_of_file h hstat hnode⟩
      rintro ⟨other, opening, hother, hspecial, -⟩
      cases hstat.symm.trans hother
      cases hnode.symm.trans hspecial
    | directory searchable writable =>
      have hopen : fs.tree.openTruncate path = .failed .EISDIR := by
        rw [Volume.openTruncate, hstat]
        dsimp only
        rw [hnode]
      refine hfails .EISDIR hopen (by decide) hnothing ?_
      rintro ⟨other, opening, hother, hspecial, -⟩
      cases hstat.symm.trans hother
      cases hnode.symm.trans hspecial
    | link target => exact absurd rfl (hnolink target)
    | special opening =>
      rw [writes_iff_of_special h hstat hnode]
      constructor
      · rintro rfl
        refine ⟨hnothing, ?_⟩
        rintro ⟨other, opening, hother, hspecial, hne⟩
        cases hstat.symm.trans hother
        cases hnode.symm.trans hspecial
        exact hne rfl
      · rintro ⟨-, hspecial⟩
        by_contra hne
        exact hspecial ⟨file, opening, hstat, hnode, hne⟩

end Rounds

/-- The write returns, with the content and the flag of the path, unless the path
    is a link that leads to nothing, or leads to a device or a pipe. -/
theorem write_file_returns_iff (fs : FileSystem) (path : List Component) (content : List UInt8) :
    Writes fs path content ↔ ¬ LinksToNothing fs.tree path ∧ ¬ LeadsToSpecial fs.tree path := by
  cases hlstat : fs.tree.lstat path with
  | found found => exact writes_iff_of_found hlstat
  | missing missing =>
    have hstat : fs.tree.stat path = .missing missing := resolve_follow hlstat fun _ _ => nofun
    have hspecial := not_leadsToSpecial hstat fun _ => nofun
    refine ⟨fun _ => ⟨?_, hspecial⟩, fun _ => writes_of_missing hlstat⟩
    rintro ⟨⟨found, target, hfound, -⟩, -⟩
    cases hlstat.symm.trans hfound
  | failed error =>
    have hstat : fs.tree.stat path = .failed error := resolve_follow hlstat fun _ _ => nofun
    have hspecial := not_leadsToSpecial hstat fun _ => nofun
    refine ⟨fun _ => ⟨?_, hspecial⟩, fun _ => writes_of_failed hlstat⟩
    rintro ⟨⟨found, target, hfound, -⟩, -⟩
    cases hlstat.symm.trans hfound

/-- A link to a name that its directory lacks. -/
def danglingTree : Volume where
  node := fun path =>
    if path = [] then some (.directory true true)
    else if path = ["a"] then some (.link { absolute := false, path := [.name "b"] })
    else none
  root := rfl
  parent := by
    intro path name hsome
    by_cases hpath : path = []
    · rw [if_pos hpath]
      rfl
    · rw [if_neg (by simp), if_neg] at hsome
      · cases hsome
      · intro heq
        cases path with
        | nil => exact hpath rfl
        | cons first rest => simp at heq

/-- The loop does not end for it, whatever is written. -/
theorem write_file_spins :
    ¬ ∀ (fs : FileSystem) (path : List Component) (content : List UInt8),
      ∃ rounds, (writeFileWithDisposition fs path content rounds).isSome := by
  intro hall
  obtain ⟨rounds, hsome⟩ := hall { tree := danglingTree, space := 0 } [.name "a"] []
  have hround : round { tree := danglingTree, space := 0 } [.name "a"] [] = .again := rfl
  induction rounds with
  | zero => cases hsome
  | succ rounds ih =>
    rw [writeFileWithDisposition, hround] at hsome
    exact ih hsome

end Cohub.Sandbox
