import Cohub.Checkpoint.Storage
import Cohub.Lib.Mealy
import Mathlib.Logic.Function.Basic

/-! # Saves, compactions and cache repositories

    Object storage has a manifest for a commit and covers for runs of saves.  A
    cache repository of a Space has objects and the markers of the commits that
    are complete in it.  Jobs work on both at once:

    - A save makes a commit on the head of its Space, packs what the parent's
      manifest does not have, and lands on the head by compare-and-swap.
    - A compaction writes the covers that end at a commit.
    - A backfill writes manifests for commits that predate them.
    - A restore prepares the repository of a new Space, and forks the commit.
    - The API ensures a commit in a repository and reads it.

    A job may die at any step.  Its requests to the storage may fail, and the
    downloads that it started go on. -/

namespace Cohub.Checkpoint

open GitObjects

variable {α : Type} [DecidableEq α]

/-! ## Repositories -/

structure Repo (α : Type) where
  objects  : List α
  complete : List α

namespace Repo

def hasCommit (repo : Repo α) (commit : α) : Bool := commit ∈ repo.objects

def install (repo : Repo α) (pack : List α) : Repo α := { repo with objects := repo.objects ++ pack }

def markCheckpointCommitComplete (repo : Repo α) (commit : α) : Repo α :=
  { repo with complete := commit :: repo.complete }

end Repo

/-- What a step is told by its surroundings: whether the storage answers, which
    download is next, what git makes, and which covers it finds. -/
structure Choice (α : Type) where
  reachable : Bool
  pick : Nat
  commit : α
  pack : List α
  visible : α → Nat → Bool

/-- Where `ensureCheckpointCommits` is with a commit. -/
inductive Ensuring (α : Type) where
  | checking
  | reading
  | installing (packs : List (CheckpointPackRef α))
  | verifying
  | marking

/-- `skipped` is a commit that is served without a look at its manifest. -/
inductive Ensured (α : Type) where
  | next (e : Ensuring α)
  | complete
  | skipped
  | unavailable
  | thrown

/-- The next step of `ensureCheckpointCommits` for one commit. -/
def ensureCheckpointCommits (manifests : α → Option (CheckpointStorageManifest α)) (repo : Repo α)
    (commit : α) (choice : Choice α) : Ensuring α → Repo α × Ensured α
  | .checking =>
      if commit ∈ repo.complete then (repo, .complete) else (repo, .next .reading)
  | .reading =>
      if choice.reachable then
        match manifests commit with
        | none => if repo.hasCommit commit then (repo, .next .marking) else (repo, .unavailable)
        | some manifest => (repo, .next (.installing manifest.packs))
      -- object storage is unreachable: what the cache has is served, and not marked
      else if repo.hasCommit commit then (repo, .skipped)
      else (repo, .thrown)
  | .installing [] => (repo, .next .verifying)
  | .installing (ref :: packs) =>
      if choice.reachable then
        match (ref :: packs)[choice.pick]? with
        | none => (repo, .next (.installing (ref :: packs)))
        | some ref' =>
            (repo.install ref'.pack, .next (.installing ((ref :: packs).eraseIdx choice.pick)))
      else (repo, .thrown)
  | .verifying =>
      if repo.hasCommit commit then (repo, .next .marking) else (repo, .unavailable)
  | .marking => (repo.markCheckpointCommitComplete commit, .complete)

/-! ## Jobs -/

/-- Where a save is.  `base` is the manifest of the parent that it builds on. -/
inductive Saving (α : Type) where
  | ensuring (e : Ensuring α)
  | loading (skipped : Bool)
  | building (base : Option (CheckpointStorageManifest α))
  | packing (base : Option (CheckpointStorageManifest α)) (commit : α)
  | installing (base : Option (CheckpointStorageManifest α)) (commit : α) (pack : List α)
  | marking (base : Option (CheckpointStorageManifest α)) (commit : α) (pack : List α)
  | folding (base : Option (CheckpointStorageManifest α)) (commit : α) (pack : List α)
  | checking (value : CheckpointStorageManifest α)
  | putting (value : CheckpointStorageManifest α)
  | recording (value : CheckpointStorageManifest α)

inductive Compacting (α : Type) where
  | ensuring (e : Ensuring α)
  | taking (left : List Nat)
  | packing (level : Nat) (base : α) (left : List Nat)
  | checking (level : Nat) (cover : CheckpointPackRef α) (left : List Nat)
  | putting (level : Nat) (cover : CheckpointPackRef α) (left : List Nat)

inductive Backfilling (α : Type) where
  | listing
  | packing (present : List α)
  | checking (pack : List α) (left : List α)
  | putting (pack : List α) (commit : α) (left : List α)

inductive Restoring (α : Type) where
  | ensuring (e : Ensuring α)
  | fetching
  | aliasing

/-- A checkpoint is known by the number of the job that made it. -/
inductive Job (α : Type) where
  | save (space : String) (parent : Option (Nat × α)) (phase : Saving α)
  | compact (space : String) (commit : α) (seq : Nat) (phase : Compacting α)
  | backfill (space : String) (phase : Backfilling α)
  | restore (space : String) (commit : α) (phase : Restoring α)
  | ensure (space : String) (commit : α) (e : Ensuring α)

/-- `rows` are the checkpoints of a Space, with the number of the save if it has
    one. -/
structure World (α : Type) where
  manifests : α → Option (CheckpointStorageManifest α)
  covers : α → Nat → Option (CheckpointPackRef α)
  repos : String → Repo α
  heads : String → Option (Nat × α)
  rows : String → List (α × Option Nat)
  jobs : Nat → Option (Job α)

namespace World

def setRepo (w : World α) (space : String) (repo : Repo α) : World α :=
  { w with repos := Function.update w.repos space repo }

def setJob (w : World α) (id : Nat) (job : Option (Job α)) : World α :=
  { w with jobs := Function.update w.jobs id job }

def writeManifest (w : World α) (manifest : CheckpointStorageManifest α) : World α :=
  { w with manifests := Function.update w.manifests manifest.commit (some manifest) }

def writeCover (w : World α) (level : Nat) (cover : CheckpointPackRef α) : World α :=
  let levels := Function.update (w.covers cover.tip) level (some cover)
  { w with covers := Function.update w.covers cover.tip levels }

def readCover (w : World α) (visible : α → Nat → Bool) (tip : α) (level : Nat) :
    Option (CheckpointPackRef α) :=
  if visible tip level then w.covers tip level else none

/-- The head moves to a new checkpoint. -/
def record (w : World α) (space : String) (id : Nat) (commit : α) (seq : Option Nat) : World α :=
  { w with heads := Function.update w.heads space (some (id, commit))
           rows := Function.update w.rows space ((commit, seq) :: w.rows space) }

end World

/-! ## The steps of a job

    Each gives the world after it and the job, if it goes on. -/

/-- The manifest of a save: its own pack behind those of its parent. -/
def manifestOf (readCover : α → Nat → Option (CheckpointPackRef α)) (parent : Option α)
    (base : Option (CheckpointStorageManifest α)) (commit : α) (pack : List α) :
    CheckpointStorageManifest α :=
  let seq := match base with
    | none => 0
    | some manifest => manifest.seq + 1
  let basePacks := match base with
    | none => []
    | some manifest => foldCovers readCover manifest.packs
  ⟨commit, parent, seq, basePacks ++ [⟨pack, seq, seq, commit⟩]⟩

def saveCheckpoint (w : World α) (id : Nat) (space : String) (parent : Option (Nat × α))
    (choice : Choice α) : Saving α → World α × Option (Saving α)
  | .ensuring e =>
      match parent with
      | none => (w, some (.building none))
      | some (_, commit) =>
          let result := ensureCheckpointCommits w.manifests (w.repos space) commit choice e
          let w' := w.setRepo space result.1
          match result.2 with
          | .next e => (w', some (.ensuring e))
          | .complete => (w', some (.loading false))
          | .skipped => (w', some (.loading true))
          | .unavailable | .thrown => (w', none)
  | .loading _ =>
      match parent with
      | none => (w, some (.building none))
      | some (_, commit) =>
          if choice.reachable then
            (w, some (.building
              ((w.manifests commit).filter fun manifest => tilesSequence manifest.packs 0 manifest.seq)))
          else (w, none)
  | .building base => (w, some (.packing base choice.commit))
  | .packing base commit => (w, some (.installing base commit choice.pack))
  | .installing base commit pack =>
      (w.setRepo space ((w.repos space).install pack), some (.marking base commit pack))
  | .marking base commit pack =>
      (w.setRepo space ((w.repos space).markCheckpointCommitComplete commit),
        some (.folding base commit pack))
  | .folding base commit pack =>
      if choice.reachable then
        (w, some (.checking
          (manifestOf (w.readCover choice.visible) (parent.map (·.2)) base commit pack)))
      else (w, none)
  | .checking value =>
      if choice.reachable then
        match w.manifests value.commit with
        | none => (w, some (.putting value))
        | some _ => (w, some (.recording value))
      else (w, none)
  | .putting value =>
      if choice.reachable then (w.writeManifest value, some (.recording value)) else (w, none)
  | .recording value =>
      if w.heads space = parent then (w.record space id value.commit (some value.seq), none)
      else (w, none)

def compactCheckpointCovers (git : α → Object α) (w : World α) (space : String) (commit : α) (seq : Nat)
    (choice : Choice α) : Compacting α → World α × Option (Compacting α)
  | .ensuring e =>
      let result := ensureCheckpointCommits w.manifests (w.repos space) commit choice e
      let w' := w.setRepo space result.1
      match result.2 with
      | .next e => (w', some (.ensuring e))
      | .complete | .skipped => (w', some (.taking (coverLevelsEndingAt seq)))
      | .unavailable | .thrown => (w', none)
  | .taking [] => (w, none)
  | .taking (level :: left) =>
      if choice.reachable then
        match w.covers commit level with
        | some _ => (w, some (.taking left))
        | none =>
            match ancestor git (spanOf level) commit with
            | none => (w, none)
            | some base => (w, some (.packing level base left))
      else (w, none)
  | .packing level _ left =>
      (w, some (.checking level ⟨choice.pack, seq - spanOf level + 1, seq, commit⟩ left))
  | .checking level cover left =>
      if choice.reachable then
        match w.covers cover.tip level with
        | none => (w, some (.putting level cover left))
        | some _ => (w, some (.taking left))
      else (w, none)
  | .putting level cover left =>
      if choice.reachable then (w.writeCover level cover, some (.taking left)) else (w, none)

def backfillSpaceCheckpointStorage (w : World α) (space : String) (choice : Choice α) :
    Backfilling α → World α × Option (Backfilling α)
  | .listing =>
      let commits := ((w.rows space).map (·.1)).dedup
      let missing := commits.filter fun commit => (w.manifests commit).isNone
      let present := missing.filter (w.repos space).hasCommit
      if choice.reachable && !present.isEmpty then (w, some (.packing present)) else (w, none)
  | .packing present => (w, some (.checking choice.pack present))
  | .checking _ [] => (w, none)
  | .checking pack (commit :: left) =>
      if choice.reachable then
        match w.manifests commit with
        | none => (w, some (.putting pack commit left))
        | some _ => (w, some (.checking pack left))
      else (w, none)
  | .putting pack commit left =>
      if choice.reachable then
        (w.writeManifest ⟨commit, none, 0, [⟨pack, 0, 0, commit⟩]⟩, some (.checking pack left))
      else (w, none)

/-- `prepareCheckpointRepo` and the alias of the fork. -/
def restoreCheckpoint (w : World α) (id : Nat) (space : String) (commit : α) (choice : Choice α) :
    Restoring α → World α × Option (Restoring α)
  | .ensuring e =>
      let result := ensureCheckpointCommits w.manifests (w.repos space) commit choice e
      let w' := w.setRepo space result.1
      match result.2 with
      | .next e => (w', some (.ensuring e))
      | .complete | .skipped => (w', some .aliasing)
      | .unavailable => (w', some .fetching)
      | .thrown => (w', none)
  | .fetching =>
      (w.setRepo space
        (((w.repos space).install choice.pack).markCheckpointCommitComplete commit), some .aliasing)
  | .aliasing => (w.record space id commit none, none)

def ensureCommit (w : World α) (space : String) (commit : α) (choice : Choice α) (e : Ensuring α) :
    World α × Option (Ensuring α) :=
  let result := ensureCheckpointCommits w.manifests (w.repos space) commit choice e
  let w' := w.setRepo space result.1
  match result.2 with
  | .next e => (w', some e)
  | _ => (w', none)

def stepJob (git : α → Object α) (w : World α) (id : Nat) (choice : Choice α) :
    Job α → World α × Option (Job α)
  | .save space parent phase =>
      let result := saveCheckpoint w id space parent choice phase
      (result.1, result.2.map (Job.save space parent))
  | .compact space commit seq phase =>
      let result := compactCheckpointCovers git w space commit seq choice phase
      (result.1, result.2.map (Job.compact space commit seq))
  | .backfill space phase =>
      let result := backfillSpaceCheckpointStorage w space choice phase
      (result.1, result.2.map (Job.backfill space))
  | .restore space commit phase =>
      let result := restoreCheckpoint w id space commit choice phase
      (result.1, result.2.map (Job.restore space commit))
  | .ensure space commit e =>
      let result := ensureCommit w space commit choice e
      (result.1, result.2.map (Job.ensure space commit))

/-! ## The system -/

/-- Jobs start on checkpoints that have a row.  `download` is a download that a
    job left behind. -/
inductive Action (α : Type) where
  | save (id : Nat) (space : String)
  | compact (id : Nat) (space : String) (commit : α) (seq : Nat)
  | backfill (id : Nat) (space : String)
  | restore (id : Nat) (target source : String) (commit : α)
  | ensure (id : Nat) (repo space : String) (commit : α)
  | step (id : Nat) (choice : Choice α)
  | die (id : Nat)
  | download (repo : String) (commit : α) (pick : Nat)

def hasRow (w : World α) (space : String) (commit : α) : Bool :=
  (w.rows space).any fun row => row.1 == commit

/-- Starts a job under a number that is not in use. -/
def start (w : World α) (id : Nat) (job : Job α) : World α :=
  match w.jobs id with
  | some _ => w
  | none => w.setJob id (some job)

def step (git : α → Object α) (w : World α) : Action α → World α
  | .save id space => start w id (.save space (w.heads space) (.ensuring .checking))
  | .compact id space commit seq =>
      if (commit, some seq) ∈ w.rows space then
        start w id (.compact space commit seq (.ensuring .checking))
      else w
  | .backfill id space => start w id (.backfill space .listing)
  | .restore id target source commit =>
      if hasRow w source commit then start w id (.restore target commit (.ensuring .checking)) else w
  | .ensure id repo space commit =>
      if hasRow w space commit then start w id (.ensure repo commit .checking) else w
  | .step id choice =>
      match w.jobs id with
      | none => w
      | some job =>
          let result := stepJob git w id choice job
          result.1.setJob id result.2
  | .die id => w.setJob id none
  | .download repo commit pick =>
      match (w.manifests commit).bind fun manifest => manifest.packs[pick]? with
      | none => w
      | some ref => w.setRepo repo ((w.repos repo).install ref.pack)

def machine (git : α → Object α) : Mealy (World α) (Action α) Unit :=
  ⟨fun w a => (step git w a, [])⟩

end Cohub.Checkpoint
