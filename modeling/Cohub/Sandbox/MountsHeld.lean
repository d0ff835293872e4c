import Cohub.Sandbox.Mounts

/-! # What a mount holds

    A sync reports the revisions that the state file has, of directories that
    exist.  They are truthful as long as a request that does not get to write
    the state file leaves the directories with a recorded revision as they
    were, or gone:

    - A write replaces the directory before it records the revision.
    - A sync empties or removes directories before it forgets their revisions.
    - A clear empties all directories before it removes the state file. -/

namespace Cohub.Sandbox

open Option OrderedMap

open Stamped (Truthful Spares)

/-! ## Directories of mounts -/

variable {dir : MountDir}

theorem mountHostDir_cases {mountPath : String} (h : mountHostDir mountPath = some dir) :
    (mountPath = virtualPlatformAgentsRoot ∧ dir = .platform) ∨
      (mountPath = virtualUserAgentsRoot ∧ dir = .user) ∨
      ∃ slug, mountPath = String.ofList (modsRoot ++ slug) ∧ dir = .mod slug := by
  unfold mountHostDir at h
  split at h
  · next hplatform => exact .inl ⟨hplatform, (Option.some.inj h).symm⟩
  split at h
  · next huser => exact .inr (.inl ⟨huser, (Option.some.inj h).symm⟩)
  split at h
  · next hmods =>
    obtain ⟨slug, hslug⟩ := hmods
    dsimp only at h
    rw [← hslug, List.drop_left] at h
    split at h
    · refine .inr (.inr ⟨slug, ?_, (Option.some.inj h).symm⟩)
      rw [hslug, String.ofList_toList]
    · cases h
  · cases h

theorem mountHostDir_injective {a b : String} (ha : mountHostDir a = some dir)
    (hb : mountHostDir b = some dir) : a = b := by
  rcases mountHostDir_cases ha with ⟨rfl, rfl⟩ | ⟨rfl, rfl⟩ | ⟨slug, rfl, rfl⟩
  · rcases mountHostDir_cases hb with ⟨rfl, -⟩ | ⟨-, hdir⟩ | ⟨_, -, hdir⟩
    · rfl
    · cases hdir
    · cases hdir
  · rcases mountHostDir_cases hb with ⟨-, hdir⟩ | ⟨rfl, -⟩ | ⟨_, -, hdir⟩
    · cases hdir
    · rfl
    · cases hdir
  · rcases mountHostDir_cases hb with ⟨-, hdir⟩ | ⟨-, hdir⟩ | ⟨_, rfl, hdir⟩
    · cases hdir
    · cases hdir
    · injection hdir with hdir
      rw [hdir]

namespace MountDirs

variable {dir : MountDir}

theorem get_place_self {dirs : MountDirs} (h : dirs.hasParent dir = true)
    (tree : Tree) : (dirs.place dir (some tree)).get dir = some tree := by
  cases dir with
  | platform => rfl
  | user => rfl
  | mod slug =>
    obtain ⟨mods, hmods⟩ := isSome_iff_exists.mp (show dirs.mods.isSome from h)
    show (dirs.mods.map _).bind _ = _
    rw [hmods, map_some, bind_some, lookupEntry_setEntry, if_pos rfl]

theorem get_place_ne (dirs : MountDirs) {other : MountDir} (h : other ≠ dir)
    (tree : Option Tree) : (dirs.place dir tree).get other = dirs.get other := by
  cases dir with
  | platform => cases other <;> first | rfl | exact absurd rfl h
  | user => cases other <;> first | rfl | exact absurd rfl h
  | mod slug =>
    cases other with
    | platform => rfl
    | user => rfl
    | mod name =>
      have hne : name ≠ slug := fun heq => h (heq ▸ rfl)
      show (dirs.mods.map _).bind _ = dirs.mods.bind _
      cases dirs.mods with
      | none => rfl
      | some mods =>
        rw [map_some, bind_some, bind_some]
        cases tree with
        | some tree => exact (lookupEntry_setEntry _ _ _ _).trans (if_neg hne)
        | none =>
          refine (lookupEntry_filter (fun k => decide (k ≠ slug)) name mods).trans ?_
          simp [hne]

end MountDirs

theorem lookup_removeUndesired {desired : List Char → Bool}
    {remove : List Char → Option (Option Tree)} {name : List Char} (h : desired name = true)
    (mods : List (List Char × Tree)) :
    lookupEntry name (removeUndesired desired remove mods).1 =
      lookupEntry name mods := by
  induction mods with
  | nil => rfl
  | cons entry rest ih =>
    obtain ⟨first, tree⟩ := entry
    by_cases hfirst : desired first = true
    · rw [removeUndesired, if_pos hfirst]
      dsimp only
      rw [lookupEntry, lookupEntry, ih]
    · -- a Mod that is removed, or left in part, is another one
      have hne : ¬ name = first := fun heq => hfirst (heq ▸ h)
      have hskip : ∀ (t : Tree) (later : List (List Char × Tree)),
          lookupEntry name ((first, t) :: later) = lookupEntry name later :=
        fun t later => if_neg hne
      rw [removeUndesired, if_neg hfirst, hskip]
      cases remove first with
      | none => exact ih
      | some left =>
        cases left with
        | none => rfl
        | some left => exact hskip left rest

namespace MountWorld

theorem content_syncDirs {desired : String → Bool} {mountPath : String}
    (h : desired mountPath = true) (dirs : MountDirs) (outcome : SyncOutcome) :
    content (syncDirs dirs desired outcome).1 mountPath = content dirs mountPath := by
  unfold content
  cases hdir : mountHostDir mountPath with
  | none => rfl
  | some dir =>
    rw [bind_some, bind_some]
    rcases mountHostDir_cases hdir with ⟨rfl, rfl⟩ | ⟨rfl, rfl⟩ | ⟨slug, rfl, rfl⟩
    · show (syncDirs dirs desired outcome).1.platform = dirs.platform
      unfold syncDirs
      dsimp only
      rw [if_pos h]
      repeat' split
      all_goals rfl
    · show (syncDirs dirs desired outcome).1.user = dirs.user
      unfold syncDirs
      dsimp only
      rw [if_pos h]
      repeat' split
      all_goals rfl
    · have hmods : ((some (dirs.mods.getD []) : Option (List (List Char × Tree))).bind
          (lookupEntry slug)) = dirs.mods.bind (lookupEntry slug) := by
        cases dirs.mods <;> rfl
      have hloop := @lookup_removeUndesired (fun name => desired (String.ofList (modsRoot ++ name)))
        outcome.remove slug h (dirs.mods.getD [])
      show (syncDirs dirs desired outcome).1.mods.bind _ = _
      unfold syncDirs
      dsimp only
      generalize (if desired virtualPlatformAgentsRoot = true then (dirs.platform, true)
        else resetDir dirs.platform outcome.platform) = platform
      generalize (if desired virtualUserAgentsRoot = true then (dirs.user, true)
        else resetDir dirs.user outcome.user) = user
      -- a sync that fails early leaves all Mods, and so does a new directory
      split
      · rfl
      split
      · rfl
      split
      · rfl
      split
      · exact hmods
      · rw [bind_some, hloop]
        exact hmods

/-! ## Requests that leave the state file -/

/-- The state file is not written: a request fails, or a clear cannot remove
    the file. -/
def LeavesState (cfg : MountConfig) (w : MountWorld) (event : MountEvent) : Prop :=
  match event with
  | .sync mounts outcome => ∃ code, (handleMountsSync cfg w mounts outcome).2 = .failed code
  | .write params outcome => ∃ code, (handleMountsWrite cfg w params outcome).2 = .failed code
  | .clear outcome => outcome.stateRemove = false

/-- Then directories with a recorded revision stay as they were, or are gone. -/
def Orderly (cfg : MountConfig) (w : MountWorld) (event : MountEvent) : Prop :=
  LeavesState cfg w event →
    Spares w.state (content w.dirs) (content (handle cfg w event).1.dirs)

def Inv (w : MountWorld) : Prop := Truthful w.written (content w.dirs) w.state

theorem Inv.read {w : MountWorld} (h : w.Inv) (readable : Bool) :
    Truthful w.written (content w.dirs) (w.readMountState readable) := by
  unfold readMountState
  cases readable with
  | true => exact h
  | false => exact Stamped.truthful_empty _ _

section Steps

variable {cfg : MountConfig} {w : MountWorld}

theorem handleMountsSync_cases (cfg : MountConfig) (w : MountWorld) (mounts : List MountSpec)
    (outcome : SyncOutcome) :
    (∃ code dirs, handleMountsSync cfg w mounts outcome = ({ w with dirs }, .failed code)) ∨
      ∃ dirs, dirs = (syncDirs w.dirs (isDesired mounts) outcome).1 ∧
        handleMountsSync cfg w mounts outcome =
          ({ w with dirs, state := w.keptState dirs mounts outcome },
            .mounts (mounts.map (mountStatus cfg (w.keptState dirs mounts outcome)))) := by
  unfold handleMountsSync
  split
  · exact .inl ⟨_, w.dirs, rfl⟩
  split
  · exact .inl ⟨_, w.dirs, rfl⟩
  dsimp only
  split
  · exact .inl ⟨_, _, rfl⟩
  · exact .inr ⟨_, rfl, rfl⟩

theorem swapDirs_of_ok {dirs : MountDirs} {target : MountDir} {tree : Tree} {outcome : WriteOutcome}
    (h : (swapDirs dirs target tree outcome).2 = true) :
    dirs.hasParent target = true ∧
      (swapDirs dirs target tree outcome).1 = dirs.place target (some tree) := by
  unfold swapDirs at h ⊢
  by_cases haway : outcome.moveAway = true
  · rw [if_neg (by simpa using haway)] at h ⊢
    by_cases hin : outcome.swapIn = true ∧ dirs.hasParent target = true
    · rw [if_pos hin]
      exact ⟨hin.2, rfl⟩
    · rw [if_neg hin] at h
      split at h
      · cases h
      · cases h
  · rw [if_pos haway] at h
    cases h

theorem handleMountsWrite_cases (cfg : MountConfig) (w : MountWorld) (params : MountWrite)
    (outcome : WriteOutcome) :
    (∃ code dirs, handleMountsWrite cfg w params outcome = ({ w with dirs }, .failed code)) ∨
      ∃ target tree reply, mountHostDir params.path = some target ∧
        stageFiles params.files = some tree ∧ w.dirs.hasParent target = true ∧
        handleMountsWrite cfg w params outcome =
          ({ dirs := w.dirs.place target (some tree),
             state := (w.readMountState outcome.stateRead).set params.path params.revision,
             written := w.written ++ [(params.path, params.revision, tree)] }, .written reply) := by
  unfold handleMountsWrite
  split
  · exact .inl ⟨_, w.dirs, rfl⟩
  split
  · exact .inl ⟨_, w.dirs, rfl⟩
  next target htarget =>
  split
  · exact .inl ⟨_, w.dirs, rfl⟩
  split
  · exact .inl ⟨_, w.dirs, rfl⟩
  split
  · exact .inl ⟨_, w.dirs, rfl⟩
  next tree htree =>
  split
  · exact .inl ⟨_, w.dirs, rfl⟩
  dsimp only
  split
  · exact .inl ⟨_, _, rfl⟩
  · next hok =>
    rw [not_or, not_not] at hok
    obtain ⟨hparent, hdirs⟩ := swapDirs_of_ok hok.1
    rw [hdirs]
    exact .inr ⟨target, tree, _, htarget, htree, hparent, rfl⟩

theorem Inv.sync (h : w.Inv) (mounts : List MountSpec) (outcome : SyncOutcome)
    (horderly : Orderly cfg w (.sync mounts outcome)) :
    (handleMountsSync cfg w mounts outcome).1.Inv := by
  change (∃ code, (handleMountsSync cfg w mounts outcome).2 = .failed code) →
    Spares w.state _ (content (handleMountsSync cfg w mounts outcome).1.dirs) at horderly
  rcases handleMountsSync_cases cfg w mounts outcome with ⟨code, dirs, heq⟩ | ⟨dirs, hdirs, heq⟩
  · rw [heq] at horderly ⊢
    exact h.spares (horderly ⟨code, rfl⟩)
  · -- what is recorded after a sync is desired, and so its directory is untouched
    rw [heq]
    refine ((h.read outcome.stateRead).forget ?_).spares (Spares.forget ?_)
    · intro path revision hrevision
      rw [keptState, get?_filter] at hrevision
      exact (filter_eq_some_iff.mp hrevision).1
    · intro path hrecorded
      rw [keptState, get?_filter] at hrecorded
      obtain ⟨revision, hrevision⟩ := isSome_iff_exists.mp hrecorded
      have hpasses := (filter_eq_some_iff.mp hrevision).2
      rw [Bool.and_eq_true, Bool.and_eq_true] at hpasses
      rw [hdirs]
      exact content_syncDirs hpasses.1.1 _ _

theorem Inv.write (h : w.Inv) (params : MountWrite) (outcome : WriteOutcome)
    (horderly : Orderly cfg w (.write params outcome)) :
    (handleMountsWrite cfg w params outcome).1.Inv := by
  change (∃ code, (handleMountsWrite cfg w params outcome).2 = .failed code) →
    Spares w.state _ (content (handleMountsWrite cfg w params outcome).1.dirs) at horderly
  rcases handleMountsWrite_cases cfg w params outcome with
    ⟨code, dirs, heq⟩ | ⟨target, tree, reply, htarget, _, hparent, heq⟩
  · rw [heq] at horderly ⊢
    exact h.spares (horderly ⟨code, rfl⟩)
  · -- the files are in place before the revision is recorded
    rw [heq]
    refine (h.read outcome.stateRead).write params.path params.revision tree ?_ ?_
    · unfold content
      rw [htarget]
      exact MountDirs.get_place_self hparent tree
    · intro other hother
      unfold content
      cases hdir : mountHostDir other with
      | none => rfl
      | some dir =>
        refine MountDirs.get_place_ne _ ?_ _
        rintro rfl
        exact hother (mountHostDir_injective hdir htarget)

theorem Inv.clear (h : w.Inv) (outcome : ClearOutcome) (horderly : Orderly cfg w (.clear outcome)) :
    (clearMounts cfg w outcome).1.Inv := by
  change outcome.stateRemove = false →
    Spares w.state _ (content (clearMounts cfg w outcome).1.dirs) at horderly
  unfold clearMounts at horderly ⊢
  by_cases hcache : cfg.cacheDir = ""
  · rw [if_pos hcache]
    exact h
  · rw [if_neg hcache] at horderly ⊢
    dsimp only at horderly ⊢
    cases hremove : outcome.stateRemove with
    | true => exact Stamped.truthful_empty _ _
    | false => exact h.spares (horderly hremove)

theorem Inv.handle (h : w.Inv) (event : MountEvent) (horderly : Orderly cfg w event) :
    (handle cfg w event).1.Inv := by
  cases event with
  | sync mounts outcome => exact h.sync mounts outcome horderly
  | write params outcome => exact h.write params outcome horderly
  | clear outcome => exact h.clear outcome horderly

theorem sync_reports {mounts : List MountSpec} {outcome : SyncOutcome} {statuses : List MountStatus}
    (hreply : (handleMountsSync cfg w mounts outcome).2 = .mounts statuses) {status : MountStatus}
    (hstatus : status ∈ statuses) {revision : String} (hrevision : status.revision = some revision) :
    w.state.get? status.path = some revision ∧
      content (handleMountsSync cfg w mounts outcome).1.dirs status.path = content w.dirs status.path ∧
      (content w.dirs status.path).isSome ∧
      (handleMountsSync cfg w mounts outcome).1.written = w.written := by
  rcases handleMountsSync_cases cfg w mounts outcome with ⟨code, dirs, heq⟩ | ⟨dirs, hdirs, heq⟩
  · rw [heq] at hreply
    cases hreply
  · rw [heq] at hreply ⊢
    injection hreply with hreply
    rw [← hreply] at hstatus
    obtain ⟨mount, hmount, rfl⟩ := List.mem_map.mp hstatus
    change (w.keptState dirs mounts outcome).get? mount.path = some revision at hrevision
    rw [keptState, get?_filter] at hrevision
    obtain ⟨hread, hpasses⟩ := filter_eq_some_iff.mp hrevision
    rw [Bool.and_eq_true, Bool.and_eq_true] at hpasses
    have hsame : content dirs mount.path = content w.dirs mount.path := by
      rw [hdirs]
      exact content_syncDirs hpasses.1.1 _ _
    refine ⟨?_, hsame, hsame ▸ hpasses.1.2, rfl⟩
    unfold readMountState at hread
    split at hread
    · exact hread
    · cases hread

end Steps

/-! ## Runs -/

/-- Before any request: nothing is recorded, whatever the directories hold. -/
def start (dirs : MountDirs) : MountWorld where
  dirs := dirs
  state := OrderedMap.empty
  written := []

def localConfig : MountConfig where
  isLocal := true
  cacheDir := "/c"
  platformAgentsDir := "/c/p"
  userAgentsDir := "/c/u"
  modsDir := "/c/m"

def emptyDirs : MountDirs := { platform := some [], user := some [], mods := some [] }

/-- A write of one file, whose state file is written or not. -/
def writeDemo (revision name : String) (stateWrite : Bool) : MountEvent :=
  .write
    { path := "/mods/demo", revision,
      files := [{ path := name, contentBase64 := "", executable := false }] }
    { mkdirStaging := true, writeFiles := true, moveAway := true, swapIn := true, moveBack := true,
      stateRead := true, stateWrite }

def demoMounts : List MountSpec := [{ path := "/mods/demo", revision := "" }]

/-- A sync in which nothing fails. -/
def soundSync : SyncOutcome where
  stateRead := true
  platform := { listed := true, left := none }
  user := { listed := true, left := none }
  mkdirMods := true
  readMods := true
  remove := fun _ => none
  stat := fun _ => true
  stateWrite := true

def demoStatus (revision : String) : MountStatus where
  path := "/mods/demo"
  hostPath := "/c/m/demo"
  revision := some revision

end MountWorld

end Cohub.Sandbox
