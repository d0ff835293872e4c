import Cohub.Checkpoint.Saves
import Mathlib.Data.List.TakeWhile

/-! # Checkpoint packs are closed

    Manifests and covers are sound whatever the caches hold, since a pack holds
    what its range of saves added and no more is asked of it.  A cache is another
    matter: a save marks its commit as complete on the word that its parent is
    complete, and a parent that was served while the storage was unreachable need
    not be.  `ServesComplete` is the condition on that one step.

    A commit without a manifest is legacy.  A repository that has one has all
    that it reaches, and packs keep it so: their commits are exact, so a legacy
    commit comes only in a pack that is whole. -/

namespace Cohub.Checkpoint

open GitObjects List

variable {α : Type} {git : α → Object α} {legacy : α → Prop}

/-! ## The invariant -/

/-- A manifest whose packs are sound, and whose saves are not legacy. -/
structure Stored (git : α → Object α) (legacy : α → Prop) (manifest : CheckpointStorageManifest α) :
    Prop where
  sound  : Sound git legacy manifest.commit manifest.seq manifest.packs
  linear : Linear git (fun a => ¬ legacy a) manifest.seq manifest.commit

def Known (git : α → Object α) (legacy : α → Prop) (w : World α) (commit : α) : Prop :=
  (legacy commit ∧ isCommit git commit = true) ∨ (w.manifests commit).isSome

structure RepoHolds (git : α → Object α) (legacy : α → Prop) (repo : Repo α) : Prop where
  whole  : Whole git legacy repo.objects
  marked : ∀ commit ∈ repo.complete, Complete git repo.objects commit

/-- What holds of the storage, the repositories and the rows. -/
structure Kept (git : α → Object α) (legacy : α → Prop) (w : World α) : Prop where
  manifests : ∀ c m, w.manifests c = some m → m.commit = c ∧ Stored git legacy m
  covers : Covers git legacy w.covers
  repos : ∀ r, RepoHolds git legacy (w.repos r)
  heads : ∀ s id c, w.heads s = some (id, c) → Known git legacy w c
  rows : ∀ s, ∀ row ∈ w.rows s, Known git legacy w row.1 ∧
    ∀ seq, row.2 = some seq → Linear git (fun a => ¬ legacy a) seq row.1

/-- What holds while a commit is ensured in a repository. -/
def EnsuringHolds (git : α → Object α) (legacy : α → Prop) (repo : Repo α) (commit : α) :
    Ensuring α → Prop
  | .checking | .reading => True
  | .installing packs => ∃ manifest, Stored git legacy manifest ∧ manifest.commit = commit ∧
      (∀ ref ∈ packs, ref ∈ manifest.packs) ∧
        ∀ ref ∈ manifest.packs, ref ∈ packs ∨ ∀ a ∈ ref.pack, a ∈ repo.objects
  | .verifying | .marking => Complete git repo.objects commit

/-- The manifest that a save builds on is its parent's, and the parent is
    complete in the cache. -/
def BaseHolds (git : α → Object α) (legacy : α → Prop) (repo : Repo α) (parent : Option α)
    (base : Option (CheckpointStorageManifest α)) : Prop :=
  ∀ manifest, base = some manifest → parent = some manifest.commit ∧ Stored git legacy manifest ∧
    Complete git repo.objects manifest.commit

def CommitHolds (git : α → Object α) (legacy : α → Prop) (parent : Option α) (commit : α) : Prop :=
  (∃ tree, git commit = .commit tree parent.toList) ∧ ¬ legacy commit

/-- What a save excludes from its pack. -/
def excluded (parent : Option α) (base : Option (CheckpointStorageManifest α)) : List α :=
  if base.isSome then parent.toList else []

def SavingHolds (git : α → Object α) (legacy : α → Prop) (w : World α) (space : String)
    (parent : Option α) : Saving α → Prop
  | .ensuring e => ∀ p, parent = some p →
      Known git legacy w p ∧ EnsuringHolds git legacy (w.repos space) p e
  | .loading skipped => ∀ p, parent = some p → skipped = false →
      Complete git (w.repos space).objects p
  | .building base => BaseHolds git legacy (w.repos space) parent base
  | .packing base commit =>
      BaseHolds git legacy (w.repos space) parent base ∧ CommitHolds git legacy parent commit
  | .installing base commit pack =>
      BaseHolds git legacy (w.repos space) parent base ∧ CommitHolds git legacy parent commit ∧
        Packs git [commit] (excluded parent base) pack
  | .marking base commit pack =>
      BaseHolds git legacy (w.repos space) parent base ∧ CommitHolds git legacy parent commit ∧
        Packs git [commit] (excluded parent base) pack ∧ Complete git (w.repos space).objects commit
  | .folding base commit pack =>
      BaseHolds git legacy (w.repos space) parent base ∧ CommitHolds git legacy parent commit ∧
        Packs git [commit] (excluded parent base) pack
  | .checking value | .putting value => Stored git legacy value
  | .recording value => Stored git legacy value ∧ Known git legacy w value.commit

def CompactingHolds (git : α → Object α) (legacy : α → Prop) (w : World α) (space : String) (commit : α)
    (seq : Nat) : Compacting α → Prop
  | .ensuring e => Known git legacy w commit ∧ EnsuringHolds git legacy (w.repos space) commit e
  | .taking left => ∀ level ∈ left, spanOf level ≤ seq
  | .packing level base left => spanOf level ≤ seq ∧
      ancestor git (spanOf level) commit = some base ∧ ∀ level ∈ left, spanOf level ≤ seq
  | .checking _ cover left | .putting _ cover left =>
      Holds git legacy cover ∧ ∀ level ∈ left, spanOf level ≤ seq

def BackfillingHolds (git : α → Object α) (legacy : α → Prop) : Backfilling α → Prop
  | .listing | .packing _ => True
  | .checking pack left => Whole git legacy pack ∧ ∀ c ∈ left, Complete git pack c
  | .putting pack commit left =>
      Whole git legacy pack ∧ Complete git pack commit ∧ ∀ c ∈ left, Complete git pack c

def JobHolds (git : α → Object α) (legacy : α → Prop) (w : World α) : Job α → Prop
  | .save space parent phase => SavingHolds git legacy w space (parent.map (·.2)) phase
  | .compact space commit seq phase =>
      Linear git (fun a => ¬ legacy a) seq commit ∧ CompactingHolds git legacy w space commit seq phase
  | .backfill _ phase => BackfillingHolds git legacy phase
  | .restore space commit phase => Known git legacy w commit ∧
      ∀ e, phase = .ensuring e → EnsuringHolds git legacy (w.repos space) commit e
  | .ensure space commit e =>
      Known git legacy w commit ∧ EnsuringHolds git legacy (w.repos space) commit e

structure Closed (git : α → Object α) (legacy : α → Prop) (w : World α) : Prop where
  kept : Kept git legacy w
  jobs : ∀ id job, w.jobs id = some job → JobHolds git legacy w job

/-! ## What is assumed of git, and the condition -/

/-- A commit has the parent that it was made with and is not legacy; a pack holds
    at least what it is made for, its commits being exact; and a fetch brings all
    that its commit reaches. -/
def GitSteps (git : α → Object α) (legacy : α → Prop) (w : World α) : Action α → Prop
  | .step id choice => ∀ job, w.jobs id = some job →
      match job with
      | .save _ parent (.building _) => CommitHolds git legacy (parent.map (·.2)) choice.commit
      | .save _ parent (.packing base commit) =>
          Packs git [commit] (excluded (parent.map (·.2)) base) choice.pack
      | .compact _ commit _ (.packing _ base _) => Packs git [commit] [base] choice.pack
      | .backfill _ (.packing present) => Packs git present [] choice.pack
      | .restore space commit .fetching =>
          Complete git ((w.repos space).objects ++ choice.pack) commit ∧
            ∀ a ∈ choice.pack, isCommit git a = true → Reaches git commit a
      | _ => True
  | _ => True

/-- A save that goes on from a parent it was served without its manifest finds
    the parent complete in the cache. -/
def ServesComplete (git : α → Object α) (w : World α) : Action α → Prop
  | .step id choice => ∀ space n p, w.jobs id = some (.save space (some (n, p)) (.loading true)) →
      choice.reachable = true → (w.manifests p).isSome → Complete git (w.repos space).objects p
  | _ => True

/-! ## Later worlds -/

/-- Manifests stay, and repositories grow. -/
structure Later (w w' : World α) : Prop where
  manifests : ∀ c, (w.manifests c).isSome → (w'.manifests c).isSome
  objects   : ∀ r, ∀ a ∈ (w.repos r).objects, a ∈ (w'.repos r).objects

variable {w w' : World α}

theorem Later.refl (w : World α) : Later w w := ⟨fun _ => id, fun _ _ => id⟩

theorem Known.later {c : α} (h : Known git legacy w c) (hw : Later w w') : Known git legacy w' c :=
  h.imp_right (hw.manifests c)

variable {repo' : Repo α} {e : Ensuring α} {base : Option (CheckpointStorageManifest α)}
    {space : String} {job : Job α} {repo : Repo α} {phase : Saving α}

theorem EnsuringHolds.grow {commit : α} (h : EnsuringHolds git legacy repo commit e)
    (hsub : ∀ a ∈ repo.objects, a ∈ repo'.objects) : EnsuringHolds git legacy repo' commit e := by
  cases e with
  | checking | reading => trivial
  | installing packs =>
    obtain ⟨m, hm, hcommit, hpacks, hinstalled⟩ := h
    exact ⟨m, hm, hcommit, hpacks, fun ref hr =>
      (hinstalled ref hr).imp_right fun hall a ha => hsub a (hall a ha)⟩
  | verifying | marking => exact Complete.mono h hsub

theorem BaseHolds.grow {parent : Option α} (h : BaseHolds git legacy repo parent base)
    (hsub : ∀ a ∈ repo.objects, a ∈ repo'.objects) : BaseHolds git legacy repo' parent base := by
  intro m hm
  obtain ⟨hparent, hstored, hcomplete⟩ := h m hm
  exact ⟨hparent, hstored, hcomplete.mono hsub⟩

theorem SavingHolds.later {parent : Option α} (h : SavingHolds git legacy w space parent phase)
    (hw : Later w w') : SavingHolds git legacy w' space parent phase := by
  have hsub := hw.objects space
  cases phase with
  | ensuring e =>
    intro p hp
    exact ⟨(h p hp).1.later hw, (h p hp).2.grow hsub⟩
  | loading skipped => exact fun p hp hs => (h p hp hs).mono hsub
  | building base => exact BaseHolds.grow h hsub
  | packing base commit => exact ⟨h.1.grow hsub, h.2⟩
  | installing base commit pack => exact ⟨h.1.grow hsub, h.2⟩
  | marking base commit pack => exact ⟨h.1.grow hsub, h.2.1, h.2.2.1, h.2.2.2.mono hsub⟩
  | folding base commit pack => exact ⟨h.1.grow hsub, h.2⟩
  | checking value | putting value => exact h
  | recording value => exact ⟨h.1, h.2.later hw⟩

theorem JobHolds.later (h : JobHolds git legacy w job) (hw : Later w w') :
    JobHolds git legacy w' job := by
  cases job with
  | save space parent phase => exact SavingHolds.later h hw
  | compact space commit seq phase =>
    refine ⟨h.1, ?_⟩
    cases phase with
    | ensuring e => exact ⟨h.2.1.later hw, h.2.2.grow (hw.objects space)⟩
    | taking left => exact h.2
    | packing level base left => exact h.2
    | checking level cover left | putting level cover left => exact h.2
  | backfill space phase => exact h
  | restore space commit phase =>
    exact ⟨h.1.later hw, fun e he => (h.2 e he).grow (hw.objects space)⟩
  | ensure space commit e => exact ⟨h.1.later hw, h.2.grow (hw.objects space)⟩

/-! ## Repositories -/

variable {repo : Repo α} {commit : α} {pack : List α} {objects : List α}

theorem Whole.append (h : Whole git legacy objects) (h' : Whole git legacy pack) :
    Whole git legacy (objects ++ pack) := by
  intro a ha hlegacy hcommit
  rcases mem_append.mp ha with ha | ha
  · exact (h a ha hlegacy hcommit).mono fun b => mem_append_left _
  · exact (h' a ha hlegacy hcommit).mono fun b => mem_append_right _

theorem RepoHolds.install (h : RepoHolds git legacy repo)
    (hwhole : Whole git legacy (repo.objects ++ pack)) : RepoHolds git legacy (repo.install pack) where
  whole := hwhole
  marked c hc := (h.marked c hc).mono fun _ => mem_append_left _

theorem RepoHolds.mark (h : RepoHolds git legacy repo) (hcommit : Complete git repo.objects commit) :
    RepoHolds git legacy (repo.markCheckpointCommitComplete commit) where
  whole := h.whole
  marked c hc := by
    rcases mem_cons.mp hc with rfl | hc
    · exact hcommit
    · exact h.marked c hc

theorem Stored.complete {manifest : CheckpointStorageManifest α} (h : Stored git legacy manifest)
    (hall : ∀ ref ∈ manifest.packs, ∀ a ∈ ref.pack, a ∈ objects) :
    Complete git objects manifest.commit := by
  intro a ha
  obtain ⟨ref, hmem, hpack⟩ := h.sound.complete a ha
  exact hall ref hmem a hpack

theorem eq_or_mem_eraseIdx {β : Type} {l : List β} {a b : β} {k : Nat} (ha : a ∈ l)
    (hb : l[k]? = some b) : a = b ∨ a ∈ l.eraseIdx k := by
  obtain ⟨i, hi, rfl⟩ := mem_iff_getElem.mp ha
  by_cases hik : i = k
  · subst hik
    exact .inl (Option.some.inj ((getElem?_eq_getElem hi).symm.trans hb))
  · exact .inr (mem_eraseIdx_iff_getElem.mpr ⟨i, hi, hik, rfl⟩)

variable [DecidableEq α]

/-- What a step of an ensure leaves in the repository. -/
structure EnsuredHolds (git : α → Object α) (legacy : α → Prop) (repo : Repo α) (commit : α)
    (result : Repo α × Ensured α) : Prop where
  holds    : RepoHolds git legacy result.1
  grows    : ∀ a ∈ repo.objects, a ∈ result.1.objects
  next     : ∀ e, result.2 = .next e → EnsuringHolds git legacy result.1 commit e
  complete : result.2 = .complete → Complete git result.1.objects commit

omit [DecidableEq α] in
theorem RepoHolds.ensured (h : RepoHolds git legacy repo) (result : Ensured α)
    (hnext : ∀ e, result = .next e → EnsuringHolds git legacy repo commit e)
    (hcomplete : result = .complete → Complete git repo.objects commit) :
    EnsuredHolds git legacy repo commit (repo, result) :=
  ⟨h, fun _ => id, hnext, hcomplete⟩

theorem ensure_holds (hw : Kept git legacy w) (hrepo : RepoHolds git legacy repo)
    (hknown : Known git legacy w commit) (choice : Choice α)
    (he : EnsuringHolds git legacy repo commit e) :
    EnsuredHolds git legacy repo commit
      (ensureCheckpointCommits w.manifests repo commit choice e) := by
  cases e with
  | checking =>
    rw [ensureCheckpointCommits]
    by_cases hmarked : commit ∈ repo.complete
    · rw [if_pos hmarked]
      exact hrepo.ensured _ (by simp) fun _ => hrepo.marked commit hmarked
    · rw [if_neg hmarked]
      exact hrepo.ensured _ (by simp [EnsuringHolds]) (by simp)
  | reading =>
    rw [ensureCheckpointCommits]
    split
    · cases hm : w.manifests commit with
      | none =>
        dsimp only
        split
        · next hhas =>
          -- the commit is legacy, so the repository has all that it reaches
          refine hrepo.ensured _ ?_ (by simp)
          intro e heq
          obtain rfl := Ensured.next.inj heq
          rcases hknown with ⟨hlegacy, hcommit⟩ | hsome
          · exact hrepo.whole commit (by simpa [Repo.hasCommit] using hhas) hlegacy hcommit
          · rw [hm] at hsome
            cases hsome
        · exact hrepo.ensured _ (by simp) (by simp)
      | some manifest =>
        obtain ⟨hcommit, hstored⟩ := hw.manifests commit manifest hm
        refine hrepo.ensured _ ?_ (by simp)
        intro e heq
        obtain rfl := Ensured.next.inj heq
        exact ⟨manifest, hstored, hcommit, fun _ => id, fun _ => .inl⟩
    · split
      · exact hrepo.ensured _ (by simp) (by simp)
      · exact hrepo.ensured _ (by simp) (by simp)
  | installing packs =>
    obtain ⟨manifest, hstored, hcommit, hpacks, hinstalled⟩ := he
    cases packs with
    | nil =>
      refine hrepo.ensured _ ?_ (by simp)
      intro e heq
      obtain rfl := Ensured.next.inj heq
      exact hcommit ▸ hstored.complete fun ref hr => (hinstalled ref hr).resolve_left not_mem_nil
    | cons ref packs =>
      rw [ensureCheckpointCommits]
      split
      · cases hpick : (ref :: packs)[choice.pick]? with
        | none =>
          refine hrepo.ensured _ ?_ (by simp)
          intro e heq
          obtain rfl := Ensured.next.inj heq
          exact ⟨manifest, hstored, hcommit, hpacks, hinstalled⟩
        | some next =>
          have hmem := hpacks next (mem_of_getElem? hpick)
          have hwhole := (hstored.sound.holds next hmem).whole
          refine ⟨hrepo.install (hrepo.whole.append hwhole), fun _ => mem_append_left _, ?_, by simp⟩
          intro e heq
          obtain rfl := Ensured.next.inj heq
          refine ⟨manifest, hstored, hcommit, fun r hr => hpacks r (mem_of_mem_eraseIdx hr), ?_⟩
          intro r hr
          rcases hinstalled r hr with hleft | hall
          · rcases eq_or_mem_eraseIdx hleft hpick with rfl | hlater
            · exact .inr fun a => mem_append_right _
            · exact .inl hlater
          · exact .inr fun a ha => mem_append_left _ (hall a ha)
      · exact hrepo.ensured _ (by simp) (by simp)
  | verifying =>
    have hhas : repo.hasCommit commit = true := by simpa [Repo.hasCommit] using he commit (.refl commit)
    rw [ensureCheckpointCommits, if_pos hhas]
    refine hrepo.ensured _ ?_ (by simp)
    intro e heq
    obtain rfl := Ensured.next.inj heq
    exact he
  | marking => exact ⟨hrepo.mark he, fun _ => id, by simp [ensureCheckpointCommits], fun _ => he⟩

/-! ## Writes -/

omit [DecidableEq α] in
theorem Kept.later (h : Kept git legacy w) (hw : Later w w') (hmanifests : w'.manifests = w.manifests)
    (hcovers : w'.covers = w.covers) (hrepos : ∀ r, RepoHolds git legacy (w'.repos r))
    (hheads : w'.heads = w.heads) (hrows : w'.rows = w.rows) : Kept git legacy w' where
  manifests := by rw [hmanifests]; exact h.manifests
  covers := by rw [hcovers]; exact h.covers
  repos := hrepos
  heads s id c hc := (h.heads s id c (hheads ▸ hc)).later hw
  rows s row hr := by
    rw [hrows] at hr
    exact ⟨(h.rows s row hr).1.later hw, (h.rows s row hr).2⟩

omit [DecidableEq α] in
theorem later_setRepo
    (hgrows : ∀ a ∈ (w.repos space).objects, a ∈ repo'.objects) : Later w (w.setRepo space repo') where
  manifests _ := id
  objects r a ha := by
    by_cases hr : r = space
    · subst hr
      simpa [World.setRepo] using hgrows a ha
    · simpa [World.setRepo, hr] using ha

omit [DecidableEq α] in
theorem Kept.setRepo (h : Kept git legacy w)
    (hrepo : RepoHolds git legacy repo') (hgrows : ∀ a ∈ (w.repos space).objects, a ∈ repo'.objects) :
    Kept git legacy (w.setRepo space repo') := by
  refine h.later (later_setRepo hgrows) rfl rfl (fun r => ?_) rfl rfl
  by_cases hr : r = space
  · subst hr
    simpa [World.setRepo] using hrepo
  · simpa [World.setRepo, hr] using h.repos r

theorem later_writeManifest (w : World α) (m : CheckpointStorageManifest α) :
    Later w (w.writeManifest m) where
  manifests c hc := by
    by_cases heq : c = m.commit
    · simp [World.writeManifest, heq]
    · simpa [World.writeManifest, heq] using hc
  objects _ _ := id

theorem Kept.writeManifest (h : Kept git legacy w) {m : CheckpointStorageManifest α}
    (hm : Stored git legacy m) : Kept git legacy (w.writeManifest m) where
  manifests c m' hc := by
    by_cases heq : c = m.commit
    · subst heq
      obtain rfl : m = m' := by simpa [World.writeManifest] using hc
      exact ⟨rfl, hm⟩
    · exact h.manifests c m' (by simpa [World.writeManifest, heq] using hc)
  covers := h.covers
  repos := h.repos
  heads s id c hc := (h.heads s id c hc).later (later_writeManifest w m)
  rows s row hr := ⟨(h.rows s row hr).1.later (later_writeManifest w m), (h.rows s row hr).2⟩

theorem Kept.writeCover (h : Kept git legacy w) {cover : CheckpointPackRef α} (level : Nat)
    (hcover : Holds git legacy cover) : Kept git legacy (w.writeCover level cover) := by
  refine { h with covers := fun tip l ref href => ?_ }
  by_cases htip : tip = cover.tip
  · subst htip
    by_cases hl : l = level
    · subst hl
      obtain rfl : cover = ref := by simpa [World.writeCover] using href
      exact hcover
    · exact h.covers cover.tip l ref (by simpa [World.writeCover, hl] using href)
  · exact h.covers tip l ref (by simpa [World.writeCover, htip] using href)

omit [DecidableEq α] in
theorem Kept.record (h : Kept git legacy w) (space : String) (id : Nat) {seq : Option Nat}
    (hknown : Known git legacy w commit)
    (hseq : ∀ n, seq = some n → Linear git (fun a => ¬ legacy a) n commit) :
    Kept git legacy (w.record space id commit seq) := by
  refine { h with heads := fun s n c hc => ?_, rows := fun s row hr => ?_ }
  · by_cases hs : s = space
    · subst hs
      obtain ⟨rfl, rfl⟩ : id = n ∧ commit = c := by simpa [World.record] using hc
      exact hknown
    · exact h.heads s n c (by simpa [World.record, hs] using hc)
  · by_cases hs : s = space
    · subst hs
      have hr' : row ∈ (commit, seq) :: w.rows s := by simpa [World.record] using hr
      rcases mem_cons.mp hr' with rfl | hr'
      · exact ⟨hknown, hseq⟩
      · exact h.rows s row hr'
    · exact h.rows s row (by simpa [World.record, hs] using hr)

/-- What a step of a job leaves. -/
structure Stepped (git : α → Object α) (legacy : α → Prop) (w w' : World α) (next : Option (Job α)) :
    Prop where
  kept  : Kept git legacy w'
  later : Later w w'
  jobs  : w'.jobs = w.jobs
  next  : ∀ job, next = some job → JobHolds git legacy w' job

variable {next : Option (Job α)}

omit [DecidableEq α] in
theorem Kept.stepped (h : Kept git legacy w)
    (hnext : ∀ job, next = some job → JobHolds git legacy w job) : Stepped git legacy w w next :=
  ⟨h, Later.refl w, rfl, hnext⟩

omit [DecidableEq α] in
theorem Kept.stepped_repo (h : Kept git legacy w)
    (hrepo : RepoHolds git legacy repo') (hgrows : ∀ a ∈ (w.repos space).objects, a ∈ repo'.objects)
    (hnext : ∀ job, next = some job → JobHolds git legacy (w.setRepo space repo') job) :
    Stepped git legacy w (w.setRepo space repo') next :=
  ⟨h.setRepo hrepo hgrows, later_setRepo hgrows, rfl, hnext⟩

omit [DecidableEq α] in
theorem repos_setRepo (w : World α) (space : String) (repo' : Repo α) :
    (w.setRepo space repo').repos space = repo' := by
  simp [World.setRepo]

/-! ## Saves -/

variable {space : String} {parent : Option (Nat × α)} {choice : Choice α}

theorem manifestOf_stored (hw : Kept git legacy w) {parent : Option α}
    (hbase : BaseHolds git legacy repo parent base) (hcommit : CommitHolds git legacy parent commit)
    (hpack : Packs git [commit] (excluded parent base) pack) (visible : α → Nat → Bool) :
    Stored git legacy (manifestOf (w.readCover visible) parent base commit pack) := by
  have hcovers : Covers git legacy (w.readCover visible) := by
    intro tip level cover hread
    unfold World.readCover at hread
    split at hread
    · exact hw.covers tip level cover hread
    · cases hread
  obtain ⟨⟨tree, htree⟩, hnew⟩ := hcommit
  cases base with
  | none =>
    have hpack : Packs git [commit] [] pack := hpack
    refine ⟨sound_baseline (hpack.complete (mem_singleton_self _)) ?_, trivial⟩
    exact fun a ha _ hcommit => hpack.complete_commit ha hcommit
  | some m =>
    obtain ⟨rfl, hstored, -⟩ := hbase m rfl
    have hparent : firstParent git commit = some m.commit := by simp [firstParent, htree]
    have hadds : ∀ a, Reaches git commit a → Reaches git m.commit a ∨ a ∈ pack := by
      intro a ha
      by_cases hold : Reaches git m.commit a
      · exact .inl hold
      · exact .inr (hpack.holds commit (mem_singleton_self _) a ha (by simpa [excluded] using hold))
    refine ⟨(hstored.sound.foldCovers hcovers).next hparent hadds ?_, hnew, tree, m.commit, htree,
      hstored.linear⟩
    -- the only commit in the pack is the one of this save
    intro a ha hlegacy hcommit
    obtain ⟨⟨top, htop, hreach⟩, hnot⟩ := hpack.commits a ha hcommit
    obtain rfl := mem_singleton.mp htop
    rcases hreach.commit_cases htree hcommit with rfl | ⟨p, hp, hreach⟩
    · exact absurd hlegacy hnew
    · obtain rfl : p = m.commit := by simpa using hp
      exact absurd hreach (hnot m.commit (by simp [excluded]))

omit [DecidableEq α] in
theorem complete_installed {parent : Option α} (hbase : BaseHolds git legacy repo parent base)
    (hpack : Packs git [commit] (excluded parent base) pack) :
    Complete git (repo.install pack).objects commit := by
  intro a ha
  cases base with
  | none => exact mem_append_right _ (Packs.complete hpack (mem_singleton_self _) a ha)
  | some m =>
    obtain ⟨rfl, -, hparent⟩ := hbase m rfl
    by_cases hold : Reaches git m.commit a
    · exact mem_append_left _ (hparent a hold)
    · exact mem_append_right _
        (hpack.holds commit (mem_singleton_self _) a ha (by simpa [excluded] using hold))

theorem whole_pack {parent : Option α} (hw : Kept git legacy w)
    (hbase : BaseHolds git legacy repo parent base) (hcommit : CommitHolds git legacy parent commit)
    (hpack : Packs git [commit] (excluded parent base) pack) : Whole git legacy pack := by
  have hstored := manifestOf_stored hw hbase hcommit hpack fun _ _ => false
  unfold manifestOf at hstored
  exact (hstored.sound.holds _ (mem_append_right _ (mem_singleton_self _))).whole

variable {n : Nat}

theorem saveCheckpoint_stepped (hw : Kept git legacy w)
    (h : SavingHolds git legacy w space (parent.map (·.2)) phase)
    (hjob : w.jobs n = some (.save space parent phase))
    (hgit : GitSteps git legacy w (.step n choice)) (hserves : ServesComplete git w (.step n choice)) :
    Stepped git legacy w (saveCheckpoint w n space parent choice phase).1
      ((saveCheckpoint w n space parent choice phase).2.map (Job.save space parent)) := by
  have hgit := hgit _ hjob
  cases phase with
  | ensuring e =>
    obtain - | ⟨m, p⟩ := parent
    · refine hw.stepped ?_
      intro job hnext
      obtain rfl := Option.some.inj hnext
      exact fun manifest hm => by cases hm
    · obtain ⟨hknown, he⟩ := h p rfl
      have hresult := ensure_holds hw (hw.repos space) hknown choice he
      unfold saveCheckpoint
      dsimp only
      generalize ensureCheckpointCommits w.manifests (w.repos space) p choice e = result at hresult
      have hlater := later_setRepo hresult.grows
      split
      · next e' hnext =>
        refine hw.stepped_repo hresult.holds hresult.grows ?_
        intro job hjob
        obtain rfl := Option.some.inj hjob
        intro p' hp'
        obtain rfl : p = p' := Option.some.inj hp'
        refine ⟨hknown.later hlater, ?_⟩
        rw [repos_setRepo]
        exact hresult.next e' hnext
      · next hcomplete =>
        refine hw.stepped_repo hresult.holds hresult.grows ?_
        intro job hjob
        obtain rfl := Option.some.inj hjob
        intro p' hp' _
        obtain rfl : p = p' := Option.some.inj hp'
        rw [repos_setRepo]
        exact hresult.complete hcomplete
      · refine hw.stepped_repo hresult.holds hresult.grows ?_
        intro job hjob
        obtain rfl := Option.some.inj hjob
        exact fun _ _ hskipped => by cases hskipped
      all_goals exact hw.stepped_repo hresult.holds hresult.grows (by simp)
  | loading skipped =>
    obtain - | ⟨m, p⟩ := parent
    · refine hw.stepped ?_
      intro job hnext
      obtain rfl := Option.some.inj hnext
      exact fun manifest hm => by cases hm
    · rw [saveCheckpoint]
      split
      · next hreachable =>
        refine hw.stepped ?_
        intro job hnext
        obtain rfl := Option.some.inj hnext
        intro manifest hbase
        have hm := (Option.filter_eq_some_iff.mp hbase).1
        obtain ⟨rfl, hstored⟩ := hw.manifests p manifest hm
        refine ⟨rfl, hstored, ?_⟩
        cases skipped with
        | false => exact h _ rfl rfl
        | true => exact hserves space m _ hjob hreachable (by rw [hm]; rfl)
      · exact hw.stepped (by simp)
  | building base =>
    refine hw.stepped ?_
    intro job hnext
    obtain rfl := Option.some.inj hnext
    exact ⟨h, hgit⟩
  | packing base commit =>
    refine hw.stepped ?_
    intro job hnext
    obtain rfl := Option.some.inj hnext
    exact ⟨h.1, h.2, hgit⟩
  | installing base commit pack =>
    obtain ⟨hbase, hcommit, hpack⟩ := h
    have hgrows : ∀ a ∈ (w.repos space).objects, a ∈ ((w.repos space).install pack).objects :=
      fun a => mem_append_left _
    refine hw.stepped_repo ((hw.repos space).install
      ((hw.repos space).whole.append (whole_pack hw hbase hcommit hpack))) hgrows ?_
    intro job hnext
    obtain rfl := Option.some.inj hnext
    refine ⟨?_, hcommit, hpack, ?_⟩
    · rw [repos_setRepo]
      exact hbase.grow hgrows
    · rw [repos_setRepo]
      exact complete_installed hbase hpack
  | marking base commit pack =>
    obtain ⟨hbase, hcommit, hpack, hcomplete⟩ := h
    refine hw.stepped_repo ((hw.repos space).mark hcomplete) (fun _ => id) ?_
    intro job hnext
    obtain rfl := Option.some.inj hnext
    refine ⟨?_, hcommit, hpack⟩
    rw [repos_setRepo]
    exact hbase.grow fun _ => id
  | folding base commit pack =>
    obtain ⟨hbase, hcommit, hpack⟩ := h
    have hstored := manifestOf_stored hw hbase hcommit hpack choice.visible
    rw [saveCheckpoint]
    split
    · refine hw.stepped ?_
      intro job hnext
      obtain rfl := Option.some.inj hnext
      exact hstored
    · exact hw.stepped (by simp)
  | checking value =>
    rw [saveCheckpoint]
    split
    · cases hm : w.manifests value.commit with
      | none =>
        refine hw.stepped ?_
        intro job hnext
        obtain rfl := Option.some.inj hnext
        exact h
      | some m =>
        refine hw.stepped ?_
        intro job hnext
        obtain rfl := Option.some.inj hnext
        exact ⟨h, .inr (by rw [hm]; rfl)⟩
    · exact hw.stepped (by simp)
  | putting value =>
    rw [saveCheckpoint]
    split
    · refine ⟨hw.writeManifest h, later_writeManifest w value, rfl, ?_⟩
      intro job hnext
      obtain rfl := Option.some.inj hnext
      exact ⟨h, .inr (by simp [World.writeManifest])⟩
    · exact hw.stepped (by simp)
  | recording value =>
    rw [saveCheckpoint]
    split
    · refine ⟨hw.record space n h.2 ?_, ⟨fun _ => id, fun _ _ => id⟩, rfl, by simp⟩
      intro seq hseq
      obtain rfl := Option.some.inj hseq
      exact h.1.linear
    · exact hw.stepped (by simp)

/-! ## Other jobs -/

variable {seq : Nat} {a : Action Nat}

theorem coverLevelsEndingAt_le {level : Nat} (h : level ∈ coverLevelsEndingAt seq) :
    spanOf level ≤ seq := by
  have hlevel := mem_takeWhile_imp h
  simp only [Bool.and_eq_true, decide_eq_true_eq] at hlevel
  exact hlevel.1

theorem spanOf_pos (level : Nat) : 0 < spanOf level := Nat.pow_pos (by decide)

theorem compactCheckpointCovers_stepped (hw : Kept git legacy w) {phase : Compacting α}
    (hlinear : Linear git (fun a => ¬ legacy a) seq commit)
    (h : CompactingHolds git legacy w space commit seq phase)
    (hjob : w.jobs n = some (.compact space commit seq phase))
    (hgit : GitSteps git legacy w (.step n choice)) :
    Stepped git legacy w (compactCheckpointCovers git w space commit seq choice phase).1
      ((compactCheckpointCovers git w space commit seq choice phase).2.map
        (Job.compact space commit seq)) := by
  have hgit := hgit _ hjob
  cases phase with
  | ensuring e =>
    obtain ⟨hknown, he⟩ := h
    have hresult := ensure_holds hw (hw.repos space) hknown choice he
    unfold compactCheckpointCovers
    dsimp only
    generalize ensureCheckpointCommits w.manifests (w.repos space) commit choice e = result at hresult
    have hlater := later_setRepo hresult.grows
    split
    · next e' hnext =>
      refine hw.stepped_repo hresult.holds hresult.grows ?_
      intro job hjob
      obtain rfl := Option.some.inj hjob
      refine ⟨hlinear, hknown.later hlater, ?_⟩
      rw [repos_setRepo]
      exact hresult.next e' hnext
    iterate 2
      · refine hw.stepped_repo hresult.holds hresult.grows ?_
        intro job hjob
        obtain rfl := Option.some.inj hjob
        exact ⟨hlinear, fun level hl => coverLevelsEndingAt_le hl⟩
    all_goals exact hw.stepped_repo hresult.holds hresult.grows (by simp)
  | taking left =>
    cases left with
    | nil => exact hw.stepped (by simp [compactCheckpointCovers])
    | cons level left =>
      obtain ⟨hspan, hleft⟩ := forall_mem_cons.mp h
      rw [compactCheckpointCovers]
      split
      · split
        · refine hw.stepped ?_
          intro job hnext
          obtain rfl := Option.some.inj hnext
          exact ⟨hlinear, hleft⟩
        · split
          · exact hw.stepped (by simp)
          · next base hbase =>
            refine hw.stepped ?_
            intro job hnext
            obtain rfl := Option.some.inj hnext
            exact ⟨hlinear, hspan, hbase, hleft⟩
      · exact hw.stepped (by simp)
  | packing level base left =>
    obtain ⟨hspan, hbase, hleft⟩ := h
    refine hw.stepped ?_
    intro job hnext
    obtain rfl := Option.some.inj hnext
    exact ⟨hlinear, holds_cover (spanOf_pos level) hspan hbase hgit (hlinear.mono hspan), hleft⟩
  | checking level cover left =>
    rw [compactCheckpointCovers]
    split
    · split
      · refine hw.stepped ?_
        intro job hnext
        obtain rfl := Option.some.inj hnext
        exact ⟨hlinear, h⟩
      · refine hw.stepped ?_
        intro job hnext
        obtain rfl := Option.some.inj hnext
        exact ⟨hlinear, h.2⟩
    · exact hw.stepped (by simp)
  | putting level cover left =>
    rw [compactCheckpointCovers]
    split
    · refine ⟨hw.writeCover level h.1, ⟨fun _ => id, fun _ _ => id⟩, rfl, ?_⟩
      intro job hnext
      obtain rfl := Option.some.inj hnext
      exact ⟨hlinear, h.2⟩
    · exact hw.stepped (by simp)

theorem backfill_stepped (hw : Kept git legacy w) {phase : Backfilling α}
    (h : BackfillingHolds git legacy phase) (hjob : w.jobs n = some (.backfill space phase))
    (hgit : GitSteps git legacy w (.step n choice)) :
    Stepped git legacy w (backfillSpaceCheckpointStorage w space choice phase).1
      ((backfillSpaceCheckpointStorage w space choice phase).2.map (Job.backfill space)) := by
  have hgit := hgit _ hjob
  cases phase with
  | listing =>
    unfold backfillSpaceCheckpointStorage
    dsimp only
    split
    · refine hw.stepped ?_
      intro job hnext
      obtain rfl := Option.some.inj hnext
      trivial
    · exact hw.stepped (by simp)
  | packing present =>
    have hpack : Packs git present [] choice.pack := hgit
    refine hw.stepped ?_
    intro job hnext
    obtain rfl := Option.some.inj hnext
    exact ⟨fun a ha _ hcommit => hpack.complete_commit ha hcommit, fun c hc => hpack.complete hc⟩
  | checking pack left =>
    obtain ⟨hwhole, hleft⟩ := h
    cases left with
    | nil => exact hw.stepped (by simp [backfillSpaceCheckpointStorage])
    | cons commit left =>
      obtain ⟨hcommit, hleft⟩ := forall_mem_cons.mp hleft
      rw [backfillSpaceCheckpointStorage]
      split
      · split
        · refine hw.stepped ?_
          intro job hnext
          obtain rfl := Option.some.inj hnext
          exact ⟨hwhole, hcommit, hleft⟩
        · refine hw.stepped ?_
          intro job hnext
          obtain rfl := Option.some.inj hnext
          exact ⟨hwhole, hleft⟩
      · exact hw.stepped (by simp)
  | putting pack commit left =>
    obtain ⟨hwhole, hcommit, hleft⟩ := h
    rw [backfillSpaceCheckpointStorage]
    split
    · refine ⟨hw.writeManifest ⟨sound_baseline hcommit hwhole, trivial⟩, later_writeManifest w _, rfl, ?_⟩
      intro job hnext
      obtain rfl := Option.some.inj hnext
      exact ⟨hwhole, hleft⟩
    · exact hw.stepped (by simp)

theorem restoreCheckpoint_stepped (hw : Kept git legacy w) {phase : Restoring α}
    (h : JobHolds git legacy w (.restore space commit phase))
    (hjob : w.jobs n = some (.restore space commit phase))
    (hgit : GitSteps git legacy w (.step n choice)) :
    Stepped git legacy w (restoreCheckpoint w n space commit choice phase).1
      ((restoreCheckpoint w n space commit choice phase).2.map (Job.restore space commit)) := by
  have hgit := hgit _ hjob
  obtain ⟨hknown, he⟩ := h
  cases phase with
  | ensuring e =>
    have hresult := ensure_holds hw (hw.repos space) hknown choice (he e rfl)
    unfold restoreCheckpoint
    dsimp only
    generalize ensureCheckpointCommits w.manifests (w.repos space) commit choice e = result at hresult
    have hlater := later_setRepo hresult.grows
    split
    · next e' hnext =>
      refine hw.stepped_repo hresult.holds hresult.grows ?_
      intro job hjob
      obtain rfl := Option.some.inj hjob
      refine ⟨hknown.later hlater, fun e'' heq => ?_⟩
      obtain rfl := Restoring.ensuring.inj heq
      rw [repos_setRepo]
      exact hresult.next e' hnext
    iterate 3
      · refine hw.stepped_repo hresult.holds hresult.grows ?_
        intro job hjob
        obtain rfl := Option.some.inj hjob
        exact ⟨hknown.later hlater, fun _ heq => by cases heq⟩
    · exact hw.stepped_repo hresult.holds hresult.grows (by simp)
  | fetching =>
    obtain ⟨hcomplete, hreached⟩ := hgit
    have hwhole : Whole git legacy ((w.repos space).objects ++ choice.pack) := by
      intro a ha hlegacy hcommit
      rcases mem_append.mp ha with ha | ha
      · exact ((hw.repos space).whole a ha hlegacy hcommit).mono fun _ => mem_append_left _
      · exact hcomplete.reached (hreached a ha hcommit)
    have hrepo := ((hw.repos space).install hwhole).mark hcomplete
    have hgrows : ∀ a ∈ (w.repos space).objects,
        a ∈ (((w.repos space).install choice.pack).markCheckpointCommitComplete commit).objects :=
      fun _ => mem_append_left _
    refine hw.stepped_repo hrepo hgrows ?_
    intro job hnext
    obtain rfl := Option.some.inj hnext
    exact ⟨hknown.later (later_setRepo hgrows), fun _ heq => by cases heq⟩
  | aliasing =>
    exact ⟨hw.record space n hknown (by simp), ⟨fun _ => id, fun _ _ => id⟩, rfl,
      by simp [restoreCheckpoint]⟩

theorem ensureCommit_stepped (hw : Kept git legacy w)
    (h : JobHolds git legacy w (.ensure space commit e)) :
    Stepped git legacy w (ensureCommit w space commit choice e).1
      ((ensureCommit w space commit choice e).2.map (Job.ensure space commit)) := by
  have hresult := ensure_holds hw (hw.repos space) h.1 choice h.2
  unfold ensureCommit
  dsimp only
  generalize ensureCheckpointCommits w.manifests (w.repos space) commit choice e = result at hresult
  split
  · next e' hnext =>
    refine hw.stepped_repo hresult.holds hresult.grows ?_
    intro job hjob
    obtain rfl := Option.some.inj hjob
    refine ⟨h.1.later (later_setRepo hresult.grows), ?_⟩
    rw [repos_setRepo]
    exact hresult.next e' hnext
  · exact hw.stepped_repo hresult.holds hresult.grows (by simp)

theorem stepJob_stepped (hw : Closed git legacy w) (hjob : w.jobs n = some job)
    (hgit : GitSteps git legacy w (.step n choice)) (hserves : ServesComplete git w (.step n choice)) :
    Stepped git legacy w (stepJob git w n choice job).1 (stepJob git w n choice job).2 := by
  have h := hw.jobs n job hjob
  cases job with
  | save space parent phase => exact saveCheckpoint_stepped hw.kept h hjob hgit hserves
  | compact space commit seq phase =>
    exact compactCheckpointCovers_stepped hw.kept h.1 h.2 hjob hgit
  | backfill space phase => exact backfill_stepped hw.kept h hjob hgit
  | restore space commit phase => exact restoreCheckpoint_stepped hw.kept h hjob hgit
  | ensure space commit e => exact ensureCommit_stepped hw.kept h

/-! ## Runs -/

omit [DecidableEq α] in
theorem Closed.setJob (h : Closed git legacy w) (n : Nat) {job : Option (Job α)}
    (hjob : ∀ j, job = some j → JobHolds git legacy w j) : Closed git legacy (w.setJob n job) where
  kept := h.kept.later ⟨fun _ => id, fun _ _ => id⟩ rfl rfl h.kept.repos rfl rfl
  jobs m j hj := by
    refine JobHolds.later ?_ ⟨fun _ => id, fun _ _ => id⟩
    by_cases hm : m = n
    · subst hm
      exact hjob j (by simpa [World.setJob] using hj)
    · exact h.jobs m j (by simpa [World.setJob, hm] using hj)

omit [DecidableEq α] in
theorem Closed.start (h : Closed git legacy w) (n : Nat) (hjob : JobHolds git legacy w job) :
    Closed git legacy (start w n job) := by
  unfold Checkpoint.start
  split
  · exact h
  · refine h.setJob n fun j hj => ?_
    obtain rfl := Option.some.inj hj
    exact hjob

theorem Kept.known_of_hasRow (h : Kept git legacy w) (hrow : hasRow w space commit = true) :
    Known git legacy w commit := by
  obtain ⟨row, hmem, heq⟩ := any_eq_true.mp hrow
  exact (beq_iff_eq.mp heq) ▸ (h.rows space row hmem).1

theorem step_closed (h : Closed git legacy w) {a : Action α} (hgit : GitSteps git legacy w a)
    (hserves : ServesComplete git w a) : Closed git legacy (step git w a) := by
  cases a with
  | save n space =>
    refine h.start n fun p hp => ⟨?_, trivial⟩
    obtain ⟨⟨m, q⟩, hhead, rfl⟩ := Option.map_eq_some_iff.mp hp
    exact h.kept.heads space m q hhead
  | compact n space commit seq =>
    rw [step]
    split
    · next hrow =>
      obtain ⟨hknown, hlinear⟩ := h.kept.rows space _ hrow
      exact h.start n ⟨hlinear seq rfl, hknown, trivial⟩
    · exact h
  | backfill n space => exact h.start n trivial
  | restore n target source commit =>
    rw [step]
    split
    · next hrow =>
      refine h.start n ⟨h.kept.known_of_hasRow hrow, fun e he => ?_⟩
      obtain rfl := Restoring.ensuring.inj he
      trivial
    · exact h
  | ensure n repo space commit =>
    rw [step]
    split
    · next hrow => exact h.start n ⟨h.kept.known_of_hasRow hrow, trivial⟩
    · exact h
  | step n choice =>
    rw [step]
    cases hjob : w.jobs n with
    | none => exact h
    | some job =>
      have hstep := stepJob_stepped h hjob hgit hserves
      refine Closed.setJob ⟨hstep.kept, fun m j hj => ?_⟩ n hstep.next
      rw [hstep.jobs] at hj
      exact (h.jobs m j hj).later hstep.later
  | die n => exact h.setJob n (by simp)
  | download repo commit pick =>
    rw [step]
    split
    · exact h
    · next ref href =>
      obtain ⟨m, hm, hpick⟩ := Option.bind_eq_some_iff.mp href
      have hwhole := ((h.kept.manifests commit m hm).2.sound.holds ref
        (mem_of_getElem? hpick)).whole
      have hgrows : ∀ a ∈ (w.repos repo).objects, a ∈ ((w.repos repo).install ref.pack).objects :=
        fun _ => mem_append_left _
      refine ⟨h.kept.setRepo ((h.kept.repos repo).install ((h.kept.repos repo).whole.append hwhole))
        hgrows, fun n j hj => ?_⟩
      exact (h.jobs n j hj).later (later_setRepo hgrows)

/-- A system with legacy commits only: their Spaces have rows and heads for them,
    and a repository that has one has all that it reaches. -/
structure Starts (git : α → Object α) (legacy : α → Prop) (w : World α) : Prop where
  manifests : ∀ c, w.manifests c = none
  covers : ∀ c level, w.covers c level = none
  whole : ∀ r, Whole git legacy (w.repos r).objects
  unmarked : ∀ r, (w.repos r).complete = []
  heads : ∀ s n c, w.heads s = some (n, c) → legacy c ∧ isCommit git c = true
  rows : ∀ s, ∀ row ∈ w.rows s, (legacy row.1 ∧ isCommit git row.1 = true) ∧ row.2 = none
  jobs : ∀ n, w.jobs n = none

omit [DecidableEq α] in
theorem Starts.closed (h : Starts git legacy w) : Closed git legacy w where
  kept :=
    { manifests := fun c m hm => by rw [h.manifests] at hm; cases hm
      covers := fun c level cover hc => by rw [h.covers] at hc; cases hc
      repos := fun r => ⟨h.whole r, fun c hc => by rw [h.unmarked] at hc; cases hc⟩
      heads := fun s n c hc => .inl (h.heads s n c hc)
      rows := fun s row hr => ⟨.inl (h.rows s row hr).1, fun seq hseq => by
        rw [(h.rows s row hr).2] at hseq
        cases hseq⟩ }
  jobs n j hj := by rw [h.jobs] at hj; cases hj

theorem run_closed (h : Starts git legacy w) {actions : List (Action α)}
    (hgit : (machine git).Meets (GitSteps git legacy) w actions)
    (hserves : (machine git).Meets (ServesComplete git) w actions) :
    Closed git legacy ((machine git).run w actions).1 :=
  Mealy.run_invariant (m := machine git) (I := Closed git legacy)
    (fun _ _ hs hC => step_closed hs hC.1 hC.2) h.closed (hgit.and hserves)

/-- In every run in which saves that go on from a parent served without its
    manifest find it complete: the packs of every manifest hold all that its
    commit reaches, and a repository with the marker of a commit has all of it. -/
theorem checkpoint_packs_closed (git : α → Object α) (legacy : α → Prop) (w : World α)
    (h : Starts git legacy w) (actions : List (Action α))
    (hgit : (machine git).Meets (GitSteps git legacy) w actions)
    (hserves : (machine git).Meets (ServesComplete git) w actions) :
    (∀ c m, ((machine git).run w actions).1.manifests c = some m →
      ∀ a, Reaches git c a → ∃ ref ∈ m.packs, a ∈ ref.pack) ∧
    ∀ r, ∀ c ∈ (((machine git).run w actions).1.repos r).complete,
      Complete git (((machine git).run w actions).1.repos r).objects c := by
  have hclosed := (run_closed h hgit hserves).kept
  refine ⟨fun c m hm a ha => ?_, fun r c hc => (hclosed.repos r).marked c hc⟩
  obtain ⟨rfl, hstored⟩ := hclosed.manifests c m hm
  exact hstored.sound.complete a ha

/-! ## Two runs -/

/-- Three commits in a row, each with an empty tree. -/
def chainGit : Nat → Object Nat
  | 1 => .commit 11 []
  | 2 => .commit 12 [1]
  | 3 => .commit 13 [2]
  | 11 | 12 | 13 => .tree []
  | _ => .blob

def chainReach : Nat → List Nat
  | 1 => [1, 11]
  | 2 => [2, 12, 1, 11]
  | 3 => [3, 13, 2, 12, 1, 11]
  | a => [a]

theorem reaches_chain (a b : Nat) : Reaches chainGit a b ↔ b ∈ chainReach a := by
  constructor
  · intro h
    induction h with
    | refl => unfold chainReach; split <;> simp
    | @tail b c _ hedge ih =>
      have hstep : ∀ top ∈ [1, 2, 3], ∀ b ∈ chainReach top, ∀ c ∈ edges chainGit b,
          c ∈ chainReach top := by decide
      by_cases htop : a ∈ [1, 2, 3]
      · exact hstep a htop b ih c hedge
      · -- no other object names anything
        simp only [mem_cons, not_mem_nil, or_false, not_or] at htop
        obtain ⟨h1, h2, h3⟩ := htop
        have hself : chainReach a = [a] := by unfold chainReach; split <;> simp_all
        rw [hself, mem_singleton] at ih
        subst ih
        have hgit : chainGit b = .tree [] ∨ chainGit b = .blob := by
          unfold chainGit
          split <;> simp_all
        rcases hgit with hgit | hgit <;> simp [edges, hgit] at hedge
  · intro h
    have hedge : ∀ x y, y ∈ edges chainGit x → Reaches chainGit x y := fun _ _ => .of_edge
    have h1 : Reaches chainGit 1 11 := hedge 1 11 (by decide)
    have h2 : Reaches chainGit 2 12 := hedge 2 12 (by decide)
    have h21 : Reaches chainGit 2 1 := hedge 2 1 (by decide)
    have h3 : Reaches chainGit 3 13 := hedge 3 13 (by decide)
    have h32 : Reaches chainGit 3 2 := hedge 3 2 (by decide)
    unfold chainReach at h
    split at h
    · rcases mem_cons.mp h with rfl | h
      · exact .refl _
      · exact (mem_singleton.mp h) ▸ h1
    · simp only [mem_cons, not_mem_nil, or_false] at h
      rcases h with rfl | rfl | rfl | rfl
      exacts [.refl _, h2, h21, h21.trans h1]
    · simp only [mem_cons, not_mem_nil, or_false] at h
      rcases h with rfl | rfl | rfl | rfl | rfl | rfl
      exacts [.refl _, h3, h32, h32.trans h2, h32.trans h21, h32.trans (h21.trans h1)]
    · exact (mem_singleton.mp h) ▸ .refl _

/-- The pack of a commit minus others in the chain, as git makes it. -/
def chainPack (commit : Nat) (excluded : List Nat) : List Nat :=
  (chainReach commit).filter fun b => excluded.all fun e => !(chainReach e).contains b

theorem packs_chain (commit : Nat) (excluded : List Nat) :
    Packs chainGit [commit] excluded (chainPack commit excluded) where
  holds a ha b hb hnot := by
    obtain rfl := mem_singleton.mp ha
    refine mem_filter.mpr ⟨(reaches_chain a b).mp hb, all_eq_true.mpr fun e he => ?_⟩
    simpa [reaches_chain] using hnot e he
  commits b hb _ := by
    obtain ⟨hreach, hnot⟩ := mem_filter.mp hb
    refine ⟨⟨commit, mem_singleton_self _, (reaches_chain _ _).mpr hreach⟩, fun e he => ?_⟩
    simpa [reaches_chain] using all_eq_true.mp hnot e he

/-- A check of `GitSteps` for the chain. -/
def chainStep (w : World Nat) : Action Nat → Bool
  | .step n choice =>
      match w.jobs n with
      | some (.save _ parent (.building _)) =>
          [11, 12, 13].any fun tree => chainGit choice.commit = .commit tree (parent.map (·.2)).toList
      | some (.save _ parent (.packing base commit)) =>
          choice.pack == chainPack commit (excluded (parent.map (·.2)) base)
      | some (.compact _ _ _ (.packing _ _ _)) | some (.backfill _ (.packing _))
      | some (.restore _ _ .fetching) => false
      | _ => true
  | _ => true

theorem gitSteps_chain {w : World Nat} (h : chainStep w a = true) :
    GitSteps chainGit (fun _ => False) w a := by
  cases a with
  | step n choice =>
    intro job hjob
    simp only [chainStep, hjob] at h
    split
    · obtain ⟨tree, -, htree⟩ := any_eq_true.mp h
      exact ⟨⟨tree, of_decide_eq_true htree⟩, id⟩
    · rw [beq_iff_eq.mp h]
      exact packs_chain _ _
    · cases h
    · cases h
    · cases h
    · trivial
  | _ => trivial

def emptyWorld : World Nat where
  manifests _ := none
  covers _ _ := none
  repos _ := ⟨[], []⟩
  heads _ := none
  rows _ := []
  jobs _ := none

/-- All steps of one save: each takes from the choice what it needs. -/
def saveSteps (n count commit : Nat) (pack : List Nat) : List (Action Nat) :=
  List.replicate count (.step n ⟨true, 0, commit, pack, fun _ _ => true⟩)

def offline (n : Nat) : Action Nat := .step n ⟨false, 0, 0, [], fun _ _ => false⟩

def savedRun : List (Action Nat) :=
  .save 0 "a" :: saveSteps 0 9 1 [1, 11] ++ .save 1 "a" :: saveSteps 1 10 2 [2, 12]

/-- A restore dies after the download of one pack of two.  It is repeated while
    the storage is unreachable, and so is the ensure of the next save. -/
def servedRun : List (Action Nat) :=
  savedRun ++
    .restore 2 "b" "a" 2 :: List.replicate 3 (.step 2 ⟨true, 1, 0, [], fun _ _ => false⟩) ++
    [.die 2, .restore 3 "b" "a" 2, offline 3, offline 3, offline 3, .save 4 "b", offline 4, offline 4] ++
      saveSteps 4 5 3 [3, 13]

theorem starts_empty : Starts chainGit (fun _ => False) emptyWorld where
  manifests _ := rfl
  covers _ _ := rfl
  whole _ a ha := absurd ha not_mem_nil
  unmarked _ := rfl
  heads _ _ _ h := by cases h
  rows _ _ h := absurd h not_mem_nil
  jobs _ := rfl

/-- No save goes on from a parent that was served. -/
def nothingServed (w : World Nat) : Action Nat → Bool
  | .step n _ =>
      match w.jobs n with
      | some (.save _ _ (.loading skipped)) => !skipped
      | _ => true
  | _ => true

theorem servesComplete_of_nothingServed {w : World Nat} (h : nothingServed w a = true) :
    ServesComplete chainGit w a := by
  cases a with
  | step n choice =>
    intro space m p hjob
    simp [nothingServed, hjob] at h
  | _ => trivial

theorem checkpoint_packs_closed_saved :
    Complete chainGit (((machine chainGit).run emptyWorld savedRun).1.repos "a").objects 2 := by
  have hsteps : (machine chainGit).Meets (fun w a => chainStep w a = true) emptyWorld savedRun := by
    decide +kernel
  have hserved : (machine chainGit).Meets (fun w a => nothingServed w a = true) emptyWorld savedRun := by
    decide +kernel
  exact (checkpoint_packs_closed chainGit (fun _ => False) emptyWorld starts_empty savedRun
    (hsteps.imp fun _ _ => gitSteps_chain) (hserved.imp fun _ _ => servesComplete_of_nothingServed)).2
    "a" 2 (by decide +kernel)

/-- The third commit has its marker, and the first is not there. -/
theorem served_parent_marks_incomplete :
    Starts chainGit (fun _ => False) emptyWorld ∧
      (machine chainGit).Meets (GitSteps chainGit fun _ => False) emptyWorld servedRun ∧
      3 ∈ (((machine chainGit).run emptyWorld servedRun).1.repos "b").complete ∧
      ¬ Complete chainGit (((machine chainGit).run emptyWorld servedRun).1.repos "b").objects 3 := by
  have hsteps : (machine chainGit).Meets (fun w a => chainStep w a = true) emptyWorld servedRun := by
    decide +kernel
  refine ⟨starts_empty, hsteps.imp fun _ _ => gitSteps_chain, by decide +kernel, fun h => ?_⟩
  have hmissing : (1 : Nat) ∉ (((machine chainGit).run emptyWorld servedRun).1.repos "b").objects := by
    decide +kernel
  exact hmissing (h 1 ((reaches_chain 3 1).mpr (by decide)))

end Cohub.Checkpoint
