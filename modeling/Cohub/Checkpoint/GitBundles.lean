import Cohub.Lib.GitObjects
import Cohub.Lib.Mealy
import Cohub.Lib.OrderedMap

/-! # Bundle chains of nested repositories

    A save bundles each git repository of the workspace.  A bundle holds what
    the repository gained since the save before, and 16 bundles of one level at
    the end of a chain are merged into one of the next.  A cache in the system
    directory has the refs and the chain of each repository at the last save
    that wrote it.

    Between saves a repository may change in any way, and another may take its
    place. -/

namespace Cohub.Checkpoint.GitBundles

open GitObjects

variable {α : Type} [DecidableEq α]

/-! ## Repositories and bundles -/

def CHECKPOINT_COVER_FANOUT : Nat := 16

def CHECKPOINT_COVER_MAX_LEVEL : Nat := 4

/-- A repository at the time of a save. -/
structure Repo (α : Type) where
  /-- `git rev-parse HEAD`. -/
  head    : Option α
  /-- The lines of `git for-each-ref`, sorted. -/
  refs    : List (String × α)
  /-- What `git cat-file -e` finds. -/
  objects : List α

/-- What `--all` stands for. -/
def Repo.tips (repo : Repo α) : List α := repo.head.toList ++ repo.refs.map Prod.snd

/-- A link of a chain.  Its digest, size and key are those of the file that git
    makes of `tips` and `base`. -/
structure UserGitRepoBundle (α : Type) where
  tips  : List α
  level : Nat
  base  : List α
  deriving DecidableEq

/-- What the fingerprint is a digest of. -/
structure Fingerprint (α : Type) where
  head : α
  refs : List (String × α)
  deriving DecidableEq

structure UserGitRepoRecord (α : Type) where
  path : String
  head : Option α
  fingerprint : Option (Fingerprint α)
  refs : List (String × α)
  bundles : List (UserGitRepoBundle α)

structure CachedRepo (α : Type) where
  fingerprint : Fingerprint α
  refs        : List (String × α)
  bundles     : List (UserGitRepoBundle α)

abbrev BundleCache (α : Type) := OrderedMap String (CachedRepo α)

/-- `head`, `fingerprint` and `refs` of `getRepoState`. -/
def getRepoState (repo : Repo α) : Option (Fingerprint α) := repo.head.map fun head => ⟨head, repo.refs⟩

def existingObjects (repo : Repo α) (oids : List α) : List α := oids.dedup.filter (· ∈ repo.objects)

variable (git : α → Object α) [DecidableRel (Reaches git)]

/-- All tips are reached from the base, so that a bundle would be empty. -/
def covered (tips base : List α) : Bool := tips.all fun tip => base.any fun e => decide (Reaches git e tip)

def createBundle (repo : Repo α) (base : List α) (level : Nat) : Option (UserGitRepoBundle α) :=
  let base := existingObjects repo base
  if covered git repo.tips base then none else some ⟨repo.tips, level, base⟩

/-- The links that are kept and the first of those that are to be merged. -/
def mergeDue (bundles : List (UserGitRepoBundle α)) : Option (List (UserGitRepoBundle α) × UserGitRepoBundle α) :=
  let tail := bundles.drop (bundles.length - CHECKPOINT_COVER_FANOUT)
  match tail.head? with
  | none => none
  | some first =>
      if tail.length < CHECKPOINT_COVER_FANOUT ∨ first.level ≥ CHECKPOINT_COVER_MAX_LEVEL
          ∨ (tail.any fun bundle => bundle.level ≠ first.level) then none
      else some (bundles.take (bundles.length - CHECKPOINT_COVER_FANOUT), first)

/-- One round of the loop, if it does not return. -/
def mergeTail (repo : Repo α) (bundles : List (UserGitRepoBundle α)) : Option (List (UserGitRepoBundle α)) :=
  match mergeDue bundles with
  | none => none
  | some due => (createBundle git repo due.2.base (due.2.level + 1)).map fun merged => due.1 ++ [merged]

def compactChain (repo : Repo α) : Nat → List (UserGitRepoBundle α) → List (UserGitRepoBundle α)
  | 0, bundles => bundles
  | fuel + 1, bundles =>
      match mergeTail git repo bundles with
      | none => bundles
      | some merged => compactChain repo fuel merged

/-- The chain of a repository that is not as in the cache. -/
def extendChain (repo : Repo α) (previous : List (UserGitRepoBundle α)) (refs : List (String × α)) :
    List (UserGitRepoBundle α) :=
  let added :=
    if previous.length > 0 then createBundle git repo (refs.map Prod.snd) 0
    else createBundle git repo [] CHECKPOINT_COVER_MAX_LEVEL
  match added with
  | none => previous
  | some added => compactChain git repo (previous.length + 1) (previous ++ [added])

def nextBundles (repo : Repo α) (fingerprint : Fingerprint α) : Option (CachedRepo α) → List (UserGitRepoBundle α)
  | none => extendChain git repo [] []
  | some cached =>
      if cached.fingerprint = fingerprint then cached.bundles else extendChain git repo cached.bundles cached.refs

/-! ## Saves -/

def collectRepo (cache : BundleCache α) (entry : String × Repo α) : UserGitRepoRecord α :=
  let repo := entry.2
  match getRepoState repo with
  | none => ⟨entry.1, none, none, [], []⟩
  | some fingerprint =>
      ⟨entry.1, repo.head, some fingerprint, repo.refs, nextBundles git repo fingerprint (cache.get? entry.1)⟩

def cacheEntry (record : UserGitRepoRecord α) : Option (String × CachedRepo α) :=
  record.fingerprint.map fun fingerprint => (record.path, ⟨fingerprint, record.refs, record.bundles⟩)

def collectUserGitRepos (cache : BundleCache α) (repos : OrderedMap String (Repo α)) : List (UserGitRepoRecord α) :=
  repos.entries.map (collectRepo git cache)

/-- A save of a workspace with these repositories. -/
structure Input (α : Type) where
  repos    : OrderedMap String (Repo α)
  /-- Whether the cache file can be read. -/
  readable : Bool
  /-- Whether the save comes to write the cache. -/
  written  : Bool

def loadCache (cache : BundleCache α) (readable : Bool) : BundleCache α := if readable then cache else .empty

def save (cache : BundleCache α) (input : Input α) : BundleCache α × List (UserGitRepoRecord α) :=
  if input.written then
    let records := collectUserGitRepos git (loadCache cache input.readable) input.repos
    (.ofList (records.filterMap cacheEntry), records)
  else (cache, [])

def saves : Mealy (BundleCache α) (Input α) (UserGitRepoRecord α) := ⟨save git⟩

end Cohub.Checkpoint.GitBundles
