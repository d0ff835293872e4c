import Cohub.Search.Converges

/-! # Runs of the search index

    Over a whole run a snapshot is honest if each document of the index is the
    one of the fingerprint the snapshot has for its path.  The snapshot in memory
    stays honest as long as every commit is recorded and the service only starts
    on a snapshot file that is not behind.  A rebuild needs neither, since the
    marker it leaves makes the next reconcile rebuild too. -/

namespace Cohub.Search

open Interrupted Utf8 List OrderedMap

variable {Name : Type} (env : Env Name)

/-! ## Honest snapshots -/

section

variable (docOf : Path → FileFingerprint → Option Document)

/-- The documents of a path, by the snapshot. -/
def expected (snapshot : Snapshot) (path : Path) : List Document :=
  match snapshot.get? path with
  | none => []
  | some fingerprint => (docOf path fingerprint).toList

def Honest (snapshot : Snapshot) (docs : Path → List Document) : Prop :=
  ∀ path, docs path = expected docOf snapshot path

/-- Files with the same fingerprint have the same document, and the walk lists
    each file once, under a name that its normalized path leads back to. -/
structure Settled (w : Workspace Name) : Prop where
  files  : ∀ path metadata, w.stat (env.absolute path) = some metadata → metadata.isFile = true →
    documentAt env w (env.absolute path) = docOf path metadata.fingerprint
  listed : ∀ entry ∈ w.entries, env.skips entry = false →
    ∃ path metadata, Lists env w entry path metadata ∧ metadata.isFile = true ∧ env.absolute path = entry.1
  nodup  : (w.entries.map Prod.fst).Nodup

variable {env docOf} {w : Workspace Name} {current : Snapshot} {path : Path}

theorem documentAt_of_lists (h : Settled env docOf w) {entry : List Name × Bool} (hentry : entry ∈ w.entries)
    {metadata : Metadata} (hlists : Lists env w entry path metadata) :
    env.absolute path = entry.1 ∧
      documentAt env w (env.absolute path) = docOf path metadata.fingerprint := by
  obtain ⟨path', metadata', hlists', hfile, habsolute⟩ := h.listed entry hentry hlists.1
  obtain rfl : path = path' := Option.some.inj (hlists.2.1.symm.trans hlists'.2.1)
  obtain rfl : metadata = metadata' := Option.some.inj (hlists.2.2.symm.trans hlists'.2.2)
  exact ⟨habsolute, h.files path metadata (habsolute ▸ hlists.2.2) hfile⟩

theorem expected_of_has (h : Settled env docOf w) (hscan : scanOf env w = some current)
    (hhas : current.has path = true) :
    expected docOf current path = (documentAt env w (env.absolute path)).toList := by
  obtain ⟨fingerprint, hfingerprint⟩ := (current.has_iff path).mp hhas
  rcases (scan_fold env hscan).2.2 path fingerprint hfingerprint with hfirst | ⟨entry, hentry, metadata, hlists, rfl⟩
  · simp [OrderedMap.empty, get?, lookupEntry] at hfirst
  · rw [(documentAt_of_lists h hentry hlists).2]
    simp [expected, hfingerprint]

theorem expected_of_not_has (hhas : ¬current.has path = true) :
    expected docOf current path = [] := by
  have hnone : current.get? path = none := by simpa [has] using hhas
  simp [expected, hnone]

variable {previous : Snapshot}

theorem expected_congr (h : previous.get? path = current.get? path) :
    expected docOf previous path = expected docOf current path := by
  unfold expected
  rw [h]

section

variable (h : Settled env docOf w) (hscan : scanOf env w = some current)
include h hscan

theorem honest_rebuilt :
    Honest docOf current (docsAt (rebuilt env w)) := by
  intro path
  by_cases hhas : current.has path = true
  · obtain ⟨fingerprint, hfingerprint⟩ := (current.has_iff path).mp hhas
    rcases (scan_fold env hscan).2.2 path fingerprint hfingerprint with hfirst | ⟨entry, hentry, metadata, hlists, rfl⟩
    · simp [OrderedMap.empty, get?, lookupEntry] at hfirst
    rw [expected_of_has h hscan hhas, (documentAt_of_lists h hentry hlists).1]
    -- No other entry has a document of this path.
    obtain ⟨front, back, hsplit⟩ := append_of_mem hentry
    have hother : ∀ other ∈ w.entries, other.1 ≠ entry.1 → ∀ document,
        entryDocument env w other = some document → document.path ≠ path := by
      rintro other hmem hne document hdocument rfl
      unfold entryDocument at hdocument
      split at hdocument
      · simp at hdocument
      rename_i hskip
      obtain ⟨metadata', hstat, -⟩ := Option.bind_eq_some_iff.mp hdocument
      have hlists' : Lists env w other document.path metadata' :=
        ⟨by simpa using hskip, relative_of_documentAt env hdocument, hstat⟩
      exact hne ((documentAt_of_lists h hmem hlists').1.symm.trans (documentAt_of_lists h hentry hlists).1)
    have hnodup := h.nodup
    rw [hsplit, map_append, map_cons, nodup_append] at hnodup
    have hnone : ∀ part : List (List Name × Bool), (∀ other ∈ part, other ∈ w.entries ∧ other.1 ≠ entry.1) →
        (part.filterMap (entryDocument env w)).filter (fun document => document.path = path) = [] := by
      intro part hpart
      refine filter_eq_nil_iff.mpr fun document hdocument hpath => ?_
      obtain ⟨other, hother', hdocument⟩ := mem_filterMap.mp hdocument
      exact hother other (hpart other hother').1 (hpart other hother').2 document hdocument
        (of_decide_eq_true hpath)
    have hfront := hnone front fun other hmem => ⟨by simp [hsplit, hmem],
      hnodup.2.2 _ (mem_map_of_mem hmem) _ mem_cons_self⟩
    have hback := hnone back fun other hmem => ⟨by simp [hsplit, hmem], fun heq =>
      (nodup_cons.mp hnodup.2.1).1 (heq ▸ mem_map_of_mem hmem)⟩
    have hentryDocument : entryDocument env w entry = documentAt env w entry.1 := by
      rw [entryDocument, if_neg (by simp [hlists.1])]
    unfold docsAt rebuilt
    rw [hsplit, filterMap_append, filter_append, hfront, nil_append, filterMap_cons,
      hentryDocument]
    cases hdocument : documentAt env w entry.1 with
    | none => simpa using hback
    | some document =>
      have hpath : document.path = path :=
        Option.some.inj ((relative_of_documentAt env hdocument).symm.trans hlists.2.1)
      dsimp only
      rw [filter_cons, if_pos (by simpa using hpath), hback]
      rfl
  · rw [expected_of_not_has hhas]
    refine filter_eq_nil_iff.mpr fun document hdocument hpath => hhas ?_
    obtain ⟨entry, hentry, metadata, hlists, -⟩ := lists_of_mem_rebuilt env hdocument
    rw [← of_decide_eq_true hpath]
    exact (scan_fold env hscan).2.1 entry hentry _ metadata hlists

theorem perm_rebuilt_of_honest
    {index : List Document} (hindex : Honest docOf current (docsAt index)) : index.Perm (rebuilt env w) := by
  refine perm_iff_docsAt.mpr fun path => ?_
  rw [hindex path, honest_rebuilt h hscan path]

theorem honest_reconciled {before after : List Document}
    (hreconciled : Reconciled env w previous current before after)
    (hbefore : Honest docOf previous (docsAt before)) : Honest docOf current (docsAt after) := by
  intro path
  rw [hreconciled path]
  split
  · rw [hbefore path, expected_congr ‹_›]
  · split
    · exact (expected_of_has h hscan ‹_›).symm
    · exact (expected_of_not_has ‹_›).symm

end

end

/-! ## Reported changes -/

section

variable {env} {docOf : Path → FileFingerprint → Option Document} {seen : Seen Name} {P : Store → Prop}

theorem normalizeOldPath_spec (oldPath : Option (List Char)) :
    Triple seen P (normalizeOldPath oldPath) (fun _ => P) P P := by
  unfold normalizeOldPath
  cases oldPath with
  | none => exact .pure fun _ hs => hs
  | some oldPath => exact bind_spec (orFail_spec _) fun _ _ => .pure fun _ hs => hs

theorem collectPrefixes_spec (starts : List Path) (change : IndexChange) :
    Triple seen P (collectPrefixes starts change) (fun _ => P) P P := by
  unfold collectPrefixes
  refine .bind (normalizeOldPath_spec _) fun oldPath => .bind ?_ fun deleted => .pure fun _ hs => hs
  unfold deletedPath
  split
  · exact normalizeOldPath_spec _
  · exact .pure fun _ hs => hs

theorem putsOf_append (w : Workspace Name) (changes changes' : List IndexChange) :
    putsOf env w (changes ++ changes') = putsOf env w changes ++ putsOf env w changes' :=
  filterMap_append

theorem putAll_append (docs : Path → List Document) (puts puts' : List Put) :
    putAll docs (puts ++ puts') = putAll (putAll docs puts) puts' :=
  foldl_append

/-- The changes to documents so far make the next snapshot honest, if the
    previous one is. -/
def Follows (env : Env Name) (docOf : Path → FileFingerprint → Option Document) (seen : Seen Name)
    (previous : Snapshot) (docs : Path → List Document) (next : Snapshot) (changes : List IndexChange) : Prop :=
  (∀ change ∈ changes, change.oldPath = none) ∧ (Honest docOf previous docs →
    ∀ w, Still seen w → Settled env docOf w → Honest docOf next (putAll docs (putsOf env w changes)))

theorem follows_removed (docs : Path → List Document) (previous : Snapshot) (under : Path → Bool) :
    Follows env docOf seen previous docs (previous.filter fun path _ => !under path)
      (((previous.keys.filter under).map (fileChange "delete")).insertionSort fun a b =>
        pathLe a.path b.path) := by
  have hmem : ∀ change, change ∈ ((previous.keys.filter under).map (fileChange "delete")).insertionSort
      (fun a b => pathLe a.path b.path) ↔
        ∃ path, previous.has path = true ∧ under path = true ∧ change = fileChange "delete" path := by
    intro change
    rw [mem_insertionSort, mem_map]
    constructor
    · rintro ⟨path, hpath, rfl⟩
      obtain ⟨hkey, hunder⟩ := mem_filter.mp hpath
      exact ⟨path, (previous.mem_keys_iff path).mp hkey, hunder, rfl⟩
    · rintro ⟨path, hhas, hunder, rfl⟩
      exact ⟨path, mem_filter.mpr ⟨(previous.mem_keys_iff path).mpr hhas, hunder⟩, rfl⟩
  refine ⟨fun change hchange => ?_, fun h w _ _ path => ?_⟩
  · obtain ⟨path, -, -, rfl⟩ := (hmem change).mp hchange
    rfl
  generalize hsorted : ((previous.keys.filter under).map (fileChange "delete")).insertionSort
    (fun a b => pathLe a.path b.path) = changes at hmem
  have hputs : ∀ put, put ∈ putsOf env w changes ↔
      ∃ path, previous.has path = true ∧ under path = true ∧ put = ⟨path, none⟩ := by
    intro put
    unfold putsOf
    rw [mem_filterMap]
    constructor
    · rintro ⟨change, hchange, hput⟩
      obtain ⟨path, hhas, hunder, rfl⟩ := (hmem change).mp hchange
      rw [putOf_fileChange] at hput
      exact ⟨path, hhas, hunder, (Option.some.inj hput).symm⟩
    · rintro ⟨path, hhas, hunder, rfl⟩
      exact ⟨_, (hmem _).mpr ⟨path, hhas, hunder, rfl⟩, putOf_fileChange env w _ _⟩
  rw [putAll_eq (d := fun _ => none) fun put hput => by
    obtain ⟨_, -, -, rfl⟩ := (hputs put).mp hput
    rfl]
  have hin : path ∈ (putsOf env w changes).map Put.path ↔ previous.has path = true ∧ under path = true := by
    rw [mem_map]
    constructor
    · rintro ⟨put, hput, rfl⟩
      obtain ⟨_, hhas, hunder, rfl⟩ := (hputs put).mp hput
      exact ⟨hhas, hunder⟩
    · intro hpath
      exact ⟨_, (hputs _).mpr ⟨path, hpath.1, hpath.2, rfl⟩, rfl⟩
  unfold expected
  rw [get?_filter]
  by_cases hunder : under path = true
  · cases hprevious : previous.get? path with
    | none =>
      rw [if_neg fun hmem' => by simpa [has, hprevious] using (hin.mp hmem').1, h path]
      simp [expected, hprevious]
    | some fingerprint =>
      rw [if_pos (hin.mpr ⟨by simp [has, hprevious], hunder⟩)]
      simp [hunder]
  · rw [if_neg fun hmem' => hunder (hin.mp hmem').2, h path]
    unfold expected
    cases previous.get? path <;> simp [Option.filter, hunder]

variable {previous : Snapshot} {docs : Path → List Document}

theorem follows_put {next next' : Snapshot}
    {changes : List IndexChange} (h : Follows env docOf seen previous docs next changes) (kind : String) (path : Path)
    (hother : ∀ other, other ≠ path → next'.get? other = next.get? other)
    (hpath : ∀ w, Still seen w → Settled env docOf w → expected docOf next' path =
      (if kind = "delete" then none else documentAt env w (env.absolute path)).toList) :
    Follows env docOf seen previous docs next' (changes ++ [fileChange kind path]) := by
  refine ⟨fun change hchange => ?_, fun hhonest w hw hsettled path' => ?_⟩
  · rcases mem_append.mp hchange with hchange | hchange
    · exact h.1 change hchange
    · rw [mem_singleton.mp hchange]
      rfl
  · rw [putsOf_append, putAll_append]
    have hput : putsOf env w [fileChange kind path] =
        [⟨path, if kind = "delete" then none else documentAt env w (env.absolute path)⟩] := by
      rw [putsOf, filterMap_cons, putOf_fileChange]
      rfl
    rw [hput]
    show Function.update (putAll docs (putsOf env w changes)) path _ path' = _
    rw [Function.update_apply]
    split
    · rename_i heq
      rw [heq, hpath w hw hsettled]
    · rename_i hne
      rw [h.2 hhonest w hw hsettled path', expected_congr (hother path' hne).symm]

theorem applyChange_spec {progress : Snapshot × List IndexChange}
    (h : Follows env docOf seen previous docs progress.1 progress.2) (change : IndexChange × Nat) :
    Triple seen P (applyChange env progress change)
      (fun progress' s => P s ∧ Follows env docOf seen previous docs progress'.1 progress'.2) P P := by
  unfold applyChange
  split
  · exact pure_spec h
  rename_i hremoves
  have hkind : change.1.kind ≠ "delete" := fun hdelete => hremoves (by simp [IndexChange.removes, hdelete])
  refine bind_spec (orFail_spec _) fun path _ => ?_
  refine bind_spec (snapshotEntry_spec env change.2 path) fun entry hentry => ?_
  cases entry with
  | none =>
    refine pure_spec (follows_put h "delete" path (fun other hne => ?_) fun w _ _ => ?_)
    · rw [get?_delete, if_neg hne]
    · simp [expected]
  | some found =>
    obtain ⟨path', fingerprint⟩ := found
    obtain rfl : path' = path := hentry.1 _ rfl
    refine pure_spec (follows_put h change.1.kind path' (fun other hne => ?_) fun w hw hsettled => ?_)
    · rw [get?_set, if_neg hne]
    · obtain ⟨metadata, hstat, hrest⟩ := Option.bind_eq_some_iff.mp (hentry.2 w hw).symm
      split at hrest
      · simp at hrest
      rename_i hskip
      obtain rfl : metadata.fingerprint = fingerprint := congrArg Prod.snd (Option.some.inj hrest)
      have hfile : metadata.isFile = true := by
        by_contra hfile
        simp [hfile] at hskip
      rw [if_neg hkind, hsettled.files path' metadata hstat hfile]
      simp [expected]

/-- How reported changes leave the store: the snapshot in memory goes on, and the
    file is marked. -/
structure Updated (env : Env Name) (docOf : Path → FileFingerprint → Option Document) (seen : Seen Name)
    (previous : Snapshot) (s t : Store) : Prop where
  pending       : t.pending = []
  snapshotDirty : t.snapshotDirty = true
  rebuildDirty  : t.rebuildDirty = s.rebuildDirty
  snapshot      : Honest docOf previous (docsAt s.index) → ∀ next, t.snapshot = some next →
    ∀ w, Still seen w → Settled env docOf w → Honest docOf next (docsAt t.index)

theorem applyChangesFrom_spec {s : Store} (hs : s.pending = []) (previous : Snapshot)
    (changes : List IndexChange) :
    Triple seen (fun t => t = s) (applyChangesFrom env previous changes)
      (fun _ t => t = s ∨ Updated env docOf seen previous s t)
      (fun t => t.pending = [] ∧ Left seen s t) (Left seen s) := by
  have herror : ∀ t, t = s → t.pending = [] ∧ Left seen s t := by
    rintro t rfl
    exact ⟨hs, .inl ⟨t.pending, rfl⟩⟩
  unfold applyChangesFrom
  let I := fun (_ : List IndexChange) (_ : List Path) (t : Store) => t = s
  have hstarts : Triple seen (fun t => t = s) (changes.foldlM collectPrefixes [])
      (fun _ t => t = s) (fun t => t = s) (fun t => t = s) :=
    Triple.foldlM (I := I) (fun _ change _ starts => collectPrefixes_spec starts change) [] []
  refine .bind (hstarts.mono (fun _ ht => ht) (fun _ _ ht => ht) herror fun t ht => (herror t ht).2)
    fun starts => ?_
  let J := fun (_ : List (IndexChange × Nat)) (progress : Snapshot × List IndexChange) (t : Store) =>
    t = s ∧ Follows env docOf seen previous (docsAt s.index) progress.1 progress.2
  refine bind_spec (F := fun progress => Follows env docOf seen previous (docsAt s.index) progress.1 progress.2)
    ((Triple.foldlM (I := J) (fun _ change _ progress => ?_) [] _).mono
      (fun t ht => ⟨ht, follows_removed _ _ _⟩) (fun _ _ ht => ht) herror fun t ht => (herror t ht).2)
    fun progress hprogress => ?_
  · exact .of_eq fun t ht => ((applyChange_spec ht.2 change).start fun t' ht' => ht'.trans ht.1)
  obtain ⟨next, documentChanges⟩ := progress
  by_cases hnil : documentChanges = []
  · show Triple seen _ (applyDocumentChanges env documentChanges next false) _ _ _
    unfold applyDocumentChanges
    rw [if_pos hnil]
    exact .pure fun t ht => .inl ht
  · refine (applyDocumentChanges_spec env hs hnil hprogress.1 next false).mono (fun _ ht => ht) ?_ ?_ ?_
    · rintro - t ⟨prepared, rfl, hprepared⟩
      refine .inr ⟨rfl, rfl, rfl, ?_⟩
      intro hhonest next' hnext w hw hsettled
      obtain rfl : next = next' := Option.some.inj hnext
      show Honest docOf next (docsAt ((prepared.flatMap Prepared.ops).foldl WriterOp.apply s.index))
      rw [hprepared w hw, flatMap_map, docsAt_allOps fun put hput => ?_]
      · exact hprogress.2 hhonest w hw hsettled
      · obtain ⟨change, -, hchange⟩ := mem_filterMap.mp hput
        exact put_at env hchange
    · rintro t ⟨hpending, rfl | hrecorded⟩
      · exact herror t rfl
      · exact ⟨hpending, .inr (.inr (.inr hrecorded))⟩
    · rintro t (hgiven | hrecorded)
      · exact .inl hgiven
      · exact .inr (.inr (.inr hrecorded))

end

/-! ## Runs -/

/-- The job comes to a full rebuild. -/
def Job.rebuilds (s : Store) : Job → Prop
  | .full => True
  | .reconcile => Rebuilds s
  | .update changes =>
      if changes.any IndexChange.ofGitignore then Rebuilds s else s.snapshot = none

/-- The job comes to a reconcile from the snapshot in memory. -/
def Job.reconciles (s : Store) : Job → Prop
  | .full => False
  | .reconcile => ¬Rebuilds s
  | .update changes => changes.any IndexChange.ofGitignore = true ∧ ¬Rebuilds s

/-- How a job that is done leaves the store. -/
inductive Ended (env : Env Name) (docOf : Path → FileFingerprint → Option Document) (seen : Seen Name)
    (job : Job) (s t : Store) : Prop where
  | same (job_ne : ¬job.rebuilds s ∧ ¬job.reconciles s) (eq : t = s)
  | rebuilt (job_rebuilds : job.rebuilds s) (rebuilt : Rebuilt env seen t)
  | reconciled (job_reconciles : job.reconciles s) (previous current : Snapshot)
      (snapshot : s.snapshot = some previous) (reconciled : ReconciledFrom env seen previous current s t)
  | updated (job_ne : ¬job.rebuilds s ∧ ¬job.reconciles s) (previous : Snapshot)
      (snapshot : s.snapshot = some previous) (updated : Updated env docOf seen previous s t)

theorem perform_spec (docOf : Path → FileFingerprint → Option Document) {seen : Seen Name} (job : Job)
    {s : Store} (hs : s.pending = []) :
    Triple seen (fun t => t = s) (job.perform env) (fun _ => Ended env docOf seen job s)
      (fun t => t.pending = [] ∧ Left seen s t) (Left seen s) := by
  have hreconcile : ∀ job : Job, (Rebuilds s → job.rebuilds s) → (¬Rebuilds s → job.reconciles s) →
      Triple seen (fun t => t = s) (reconcile env) (fun _ => Ended env docOf seen job s)
        (fun t => t.pending = [] ∧ Left seen s t) (Left seen s) := by
    intro job hrebuilds hreconciles
    refine (reconcile_spec env hs).result fun _ t ht => ?_
    rcases ht with ⟨hr, ht⟩ | ⟨previous, current, hprevious, hmark, ht⟩
    · exact .rebuilt (hrebuilds hr) ht
    · exact .reconciled (hreconciles fun hr => by simp [Rebuilds, hprevious, hmark] at hr) previous current
        hprevious ht
  cases job with
  | full => exact (fullRebuild_left env hs).result fun _ t ht => .rebuilt trivial ht
  | reconcile => exact hreconcile .reconcile id id
  | update changes =>
    show Triple seen _ (applyChanges env changes) _ _ _
    unfold applyChanges
    split
    · rename_i hignore
      exact hreconcile _ (fun hr => by rwa [Job.rebuilds, if_pos hignore]) fun hr => ⟨hignore, hr⟩
    rename_i hignore
    refine bind_spec (F := fun held => held = s.snapshot) (.get fun t ht => ⟨ht, by rw [ht]⟩)
      fun held hheld => ?_
    cases held with
    | none =>
      refine (fullRebuild_left env hs).result fun _ t ht => .rebuilt ?_ ht
      rw [Job.rebuilds, if_neg hignore]
      exact hheld.symm
    | some previous =>
      have hne : ¬(Job.update changes).rebuilds s ∧ ¬(Job.update changes).reconciles s := by
        refine ⟨?_, fun h => hignore h.1⟩
        rw [Job.rebuilds, if_neg hignore, ← hheld]
        simp
      have hspec : Triple seen _ _ (fun _ t => t = s ∨ Updated env docOf seen previous s t) _ _ :=
        applyChangesFrom_spec hs previous changes
      refine hspec.result fun _ t ht => ?_
      rcases ht with rfl | ht
      · exact .same hne rfl
      · exact .updated hne previous hheld.symm ht

/-- The snapshot is honest, or a rebuild is marked. -/
def Good (docOf : Path → FileFingerprint → Option Document) (held : Option Snapshot) (s : Store) : Prop :=
  Marked s ∨ ∀ snapshot, held = some snapshot → Honest docOf snapshot (docsAt s.index)

/-- What holds of the files of the index directory. -/
def GoodFiles (docOf : Path → FileFingerprint → Option Document) (s : Store) : Prop :=
  s.snapshotDirty = true ∨ Good docOf s.files s

/-- What holds between two calls. -/
structure GoodStore (docOf : Path → FileFingerprint → Option Document) (s : Store) : Prop where
  pending  : s.pending = []
  snapshot : Good docOf s.snapshot s
  files    : GoodFiles docOf s

variable {env} {docOf : Path → FileFingerprint → Option Document} {seen : Seen Name} {s t : Store}

theorem goodStore_of_persisted {next : Snapshot} (h : Persisted next s)
    (hnext : Honest docOf next (docsAt s.index)) : GoodStore docOf s := by
  refine ⟨h.pending, .inr fun snapshot hsnapshot => ?_, .inr (.inr fun snapshot hsnapshot => ?_)⟩
  · rw [h.snapshot] at hsnapshot
    rwa [← Option.some.inj hsnapshot]
  · rw [h.files] at hsnapshot
    rwa [← Option.some.inj hsnapshot]

variable {job : Job}

theorem not_rebuilds_of_reconciles (h : job.reconciles s) : ¬Rebuilds s := by
  cases job with
  | full => exact h.elim
  | reconcile => exact h
  | update changes => exact h.2

theorem honest_of_reconciles (h : job.reconciles s) (hs : Good docOf s.snapshot s)
    {previous : Snapshot} (hprevious : s.snapshot = some previous) :
    Honest docOf previous (docsAt s.index) := by
  rcases hs with hmarked | hhonest
  · exact absurd (.inr hmarked) (not_rebuilds_of_reconciles h)
  · exact hhonest previous hprevious

theorem goodStore_of_ended {w : Workspace Name} (hw : Still seen w) (hsettled : Settled env docOf w)
    (hs : GoodStore docOf s) (h : Ended env docOf seen job s t) : GoodStore docOf t := by
  cases h with
  | same _ heq => rwa [heq]
  | rebuilt _ hrebuilt =>
    obtain ⟨next, hpersisted, hindex⟩ := hrebuilt
    refine goodStore_of_persisted hpersisted ?_
    rw [(hindex w hw).1]
    exact honest_rebuilt hsettled (hindex w hw).2
  | reconciled hjob previous current hprevious hreconciled =>
    obtain ⟨hscan, hindex⟩ := hreconciled.index w hw
    rcases hreconciled.end_or with ⟨heq, -⟩ | hpersisted
    · rwa [heq]
    · exact goodStore_of_persisted hpersisted
        (honest_reconciled hsettled hscan hindex (honest_of_reconciles hjob hs.snapshot hprevious))
  | updated _ previous hprevious hupdated =>
    refine ⟨hupdated.pending, ?_, .inl hupdated.snapshotDirty⟩
    rcases hs.snapshot with hmarked | hhonest
    · exact .inl (hupdated.rebuildDirty.trans hmarked)
    · exact .inr fun next hnext => hupdated.snapshot (hhonest previous hprevious) next hnext w hw hsettled

theorem good_of_left (hs : GoodStore docOf s) (hrecorded : Recorded seen) (h : Left seen s t) :
    Good docOf t.snapshot t ∧ GoodFiles docOf t := by
  rcases h with ⟨ops, rfl⟩ | hmarked | ⟨previous, current, hprevious, hsame, hpartly⟩ | hnot
  · exact ⟨hs.snapshot, hs.files⟩
  · exact ⟨.inl hmarked, .inr (.inl hmarked)⟩
  · have hcurrent : Marked s ∨ Honest docOf current (docsAt s.index) := by
      rcases hs.snapshot with hmarked | hhonest
      · exact .inl hmarked
      · exact .inr fun path => (hhonest previous hprevious path).trans (expected_congr (hsame path))
    cases hpartly with
    | before => exact ⟨hs.snapshot, hs.files⟩
    | installed =>
      refine ⟨hs.snapshot, .inr (hcurrent.imp_right fun h snapshot hsnapshot => ?_)⟩
      rwa [← Option.some.inj hsnapshot]
    | cleared =>
      refine ⟨hs.snapshot, .inr (hcurrent.imp_right fun h snapshot hsnapshot => ?_)⟩
      rwa [← Option.some.inj hsnapshot]
  · exact absurd hrecorded hnot

/-- What holds of the service along every run. -/
def Service.Idle : Service → Prop
  | .running s => s.pending = []
  | .stopped _ => True

/-- What holds of it along a run whose steps all meet `Records`. -/
def Service.Good (docOf : Path → FileFingerprint → Option Document) : Service → Prop
  | .running s => GoodStore docOf s
  | .stopped s => GoodFiles docOf s

/-- No file changes during a call, nothing fails after its commit, and the
    service does not start on a snapshot file that is marked as behind. -/
def Records (env : Env Name) (docOf : Path → FileFingerprint → Option Document) :
    Service → Step Name → Prop
  | .running _, .call _ seen => Recorded seen ∧ ∃ w, Still seen w ∧ Settled env docOf w
  | .stopped s, .start => s.snapshotDirty = false ∨ s.rebuildDirty = true
  | _, _ => True

/-- The call has come to a reconcile or a rebuild, and is done. -/
def Report.Finished (report : Report Name) : Prop :=
  report.outcome = .ok () ∧
    (report.job.rebuilds report.before ∨ report.job.reconciles report.before)

/-- The index is the one a rebuild makes of the workspace. -/
def Report.Right (env : Env Name) (report : Report Name) : Prop :=
  ∀ w, Still report.seen w → report.after.index.Perm (rebuilt env w)

/-- The report is of a rebuild, or what its reconcile relies on is so. -/
def Report.Relies (env : Env Name) (report : Report Name) : Prop :=
  report.job.rebuilds report.before ∨ ∀ w, Still report.seen w →
    ∀ previous current, report.before.snapshot = some previous → scanOf env w = some current →
      Trusted env w previous current report.before.index

theorem not_job_rebuilds (h : job.reconciles s) : ¬job.rebuilds s := by
  cases job with
  | full => exact h.elim
  | reconcile => exact h
  | update changes =>
    rw [Job.rebuilds, if_pos h.1]
    exact h.2

theorem right_iff_of_ended (h : Ended env docOf seen job s t)
    (hjob : job.rebuilds s ∨ job.reconciles s) :
    Report.Right env ⟨job, seen, s, .ok (), t⟩ ↔ Report.Relies env ⟨job, seen, s, .ok (), t⟩ := by
  cases h with
  | same hne => exact absurd hjob (not_or.mpr hne)
  | updated hne => exact absurd hjob (not_or.mpr hne)
  | rebuilt hrebuilds hrebuilt =>
    obtain ⟨next, -, hindex⟩ := hrebuilt
    exact iff_of_true (fun w hw => .of_eq (hindex w hw).1) (.inl hrebuilds)
  | reconciled hreconciles previous current hprevious hreconciled =>
    constructor
    · intro hright
      refine .inr fun w hw previous' current' hprevious' hscan' => ?_
      obtain ⟨hscan, hindex⟩ := hreconciled.index w hw
      obtain rfl : previous = previous' := Option.some.inj (hprevious.symm.trans hprevious')
      obtain rfl : current = current' := Option.some.inj (hscan.symm.trans hscan')
      exact (perm_rebuilt_iff env hscan hindex).mp (hright w hw)
    · rintro (hrebuilds | htrusted) w hw
      · exact absurd hrebuilds (not_job_rebuilds hreconciles)
      · obtain ⟨hscan, hindex⟩ := hreconciled.index w hw
        exact (perm_rebuilt_iff env hscan hindex).mpr (htrusted w hw previous current hprevious hscan)

theorem idle_of_ended (hs : s.pending = []) (h : Ended env docOf seen job s t) :
    t.pending = [] := by
  cases h with
  | same _ heq => rwa [heq]
  | rebuilt _ hrebuilt =>
    obtain ⟨next, hpersisted, -⟩ := hrebuilt
    exact hpersisted.pending
  | reconciled _ _ _ _ hreconciled => exact hreconciled.pending
  | updated _ _ _ hupdated => exact hupdated.pending

theorem step_call (s : Store) (job : Job) (seen : Seen Name) :
    step env (.running s) (.call job seen) =
      (afterCall (job.perform env seen s),
        [⟨job, seen, s, (job.perform env seen s).1, (job.perform env seen s).2⟩]) := rfl

theorem step_of_no_call (service : Service) (next : Step Name) :
    (∃ s job seen, service = .running s ∧ next = .call job seen) ∨
      (step env service next).2 = [] ∧
        ((step env service next).1 = service ∨
          (∃ s, service = .running s ∧ (step env service next).1 = .stopped s) ∨
          (∃ s, service = .stopped s ∧ next = .start ∧ (step env service next).1 = .running s.reopened) ∨
          (step env service next).1 = .running .fresh) := by
  rcases service with s | s <;> cases next <;> simp [step]

theorem idle_step (service : Service) (next : Step Name) (h : service.Idle) :
    (step env service next).1.Idle ∧
      ∀ report ∈ (step env service next).2, report.Finished → (report.Right env ↔ report.Relies env) := by
  rcases @step_of_no_call _ env service next with ⟨s, job, seen, rfl, rfl⟩ | ⟨hout, hservice⟩
  · -- No fingerprint has a document here: only the writer's state is asked for.
    have hcall := @perform_spec _ env (fun _ _ => none) seen job s h s rfl
    rw [step_call]
    generalize job.perform env seen s = ended at hcall
    rcases ended with ⟨_ | _ | _, t⟩
    · refine ⟨idle_of_ended h hcall, fun report hreport hfinished => ?_⟩
      obtain rfl := mem_singleton.mp hreport
      exact right_iff_of_ended hcall hfinished.2
    · refine ⟨hcall.1, fun report hreport hfinished => ?_⟩
      obtain rfl := mem_singleton.mp hreport
      exact nomatch hfinished.1
    · refine ⟨trivial, fun report hreport hfinished => ?_⟩
      obtain rfl := mem_singleton.mp hreport
      exact nomatch hfinished.1
  · rw [hout]
    refine ⟨?_, by simp⟩
    rcases hservice with heq | ⟨s, -, heq⟩ | ⟨s, -, -, heq⟩ | heq
    · rwa [heq]
    · rw [heq]
      trivial
    · rw [heq]
      rfl
    · rw [heq]
      rfl

theorem goodStore_reopened (h : GoodFiles docOf s) (hstart : s.snapshotDirty = false ∨ s.rebuildDirty = true) :
    GoodStore docOf s.reopened := by
  have hgood : Good docOf s.files s := by
    rcases h with hdirty | hgood
    · rcases hstart with hclean | hmarked
      · rw [hclean] at hdirty
        cases hdirty
      · exact .inl hmarked
    · exact hgood
  exact ⟨rfl, hgood, h⟩

theorem goodStore_fresh : GoodStore docOf Store.fresh :=
  ⟨rfl, .inr fun _ hsnapshot => by simp [Store.fresh] at hsnapshot,
    .inr (.inr fun _ hsnapshot => by simp [Store.fresh] at hsnapshot)⟩

theorem good_step (service : Service) (next : Step Name) (h : service.Good docOf)
    (hnext : Records env docOf service next) :
    (step env service next).1.Good docOf ∧
      ∀ report ∈ (step env service next).2, report.Finished → report.Right env := by
  rcases @step_of_no_call _ env service next with ⟨s, job, seen, rfl, rfl⟩ | ⟨hout, hservice⟩
  · obtain ⟨hrecorded, w, hw, hsettled⟩ := hnext
    have hcall := @perform_spec _ env docOf seen job s h.pending s rfl
    rw [step_call]
    generalize job.perform env seen s = ended at hcall
    rcases ended with ⟨_ | _ | _, t⟩
    · refine ⟨goodStore_of_ended hw hsettled h hcall, fun report hreport hfinished => ?_⟩
      obtain rfl := mem_singleton.mp hreport
      intro w' hw'
      obtain rfl : w = w' := (hw .walk).symm.trans (hw' .walk)
      cases hcall with
      | same hne => exact absurd hfinished.2 (not_or.mpr hne)
      | updated hne => exact absurd hfinished.2 (not_or.mpr hne)
      | rebuilt _ hrebuilt =>
        obtain ⟨next, -, hindex⟩ := hrebuilt
        exact .of_eq (hindex w hw).1
      | reconciled hjob previous current hprevious hreconciled =>
        obtain ⟨hscan, hindex⟩ := hreconciled.index w hw
        exact perm_rebuilt_of_honest hsettled hscan
          (honest_reconciled hsettled hscan hindex (honest_of_reconciles hjob h.snapshot hprevious))
    · obtain ⟨hpending, hleft⟩ := hcall
      obtain ⟨hsnapshot, hfiles⟩ := good_of_left h hrecorded hleft
      refine ⟨⟨hpending, hsnapshot, hfiles⟩, fun report hreport hfinished => ?_⟩
      obtain rfl := mem_singleton.mp hreport
      exact nomatch hfinished.1
    · refine ⟨(good_of_left h hrecorded hcall).2, fun report hreport hfinished => ?_⟩
      obtain rfl := mem_singleton.mp hreport
      exact nomatch hfinished.1
  · rw [hout]
    refine ⟨?_, by simp⟩
    rcases hservice with heq | ⟨s, rfl, heq⟩ | ⟨s, rfl, rfl, heq⟩ | heq
    · rwa [heq]
    · rw [heq]
      exact h.files
    · rw [heq]
      exact goodStore_reopened h hnext
    · rw [heq]
      exact goodStore_fresh

/-- In every run, a finished rebuild leaves the index a rebuild makes of the
    workspace, and a finished reconcile leaves it exactly if what it relies on is
    so: where the snapshot in memory and the walk agree, the index has what a
    rebuild would add, and the files it takes again are found under their
    normalized paths.  In a run whose steps all meet `Records` it always does. -/
theorem index_right_iff_relies (env : Env Name) :
    (∀ (steps : List (Step Name)), ∀ report ∈ ((service env).run (.stopped .fresh) steps).2,
      report.Finished → (report.Right env ↔ report.Relies env)) ∧
    ∀ (docOf : Path → FileFingerprint → Option Document) (steps : List (Step Name)),
      (service env).Meets (Records env docOf) (.stopped .fresh) steps →
        ∀ report ∈ ((service env).run (.stopped .fresh) steps).2, report.Finished → report.Right env := by
  refine ⟨fun steps => ?_, fun docOf steps hmeets => ?_⟩
  · let P := fun report : Report Name => report.Finished → (report.Right env ↔ report.Relies env)
    have hstart : (Service.stopped .fresh).Idle := trivial
    exact Mealy.run_outputs (m := service env) (C := fun _ _ => True) (P := P)
      (fun service next h _ => idle_step service next h) hstart (Mealy.meets_true _ _ _)
  · let P := fun report : Report Name => report.Finished → report.Right env
    have hstart : (Service.stopped .fresh).Good docOf := (@goodStore_fresh docOf).files
    exact Mealy.run_outputs (m := service env) (P := P)
      (fun service next h hnext => good_step service next h hnext) hstart hmeets

/-- Names as they are, and no ignore rules. -/
def plainEnv : Env (List Char) := ⟨fun text => text, id, fun _ => rfl, [], fun _ _ _ _ => none, id⟩

def emptyWorkspace : Workspace (List Char) := ⟨fun _ => none, fun _ => none, fun _ => none, []⟩

def notePath : List (List Char) := [['a']]

def noteWorkspace : Workspace (List Char) where
  stat path := if path = notePath then some ⟨true, ⟨1, 1⟩⟩ else none
  content path := if path = notePath then some [97] else none
  gitignore _ := none
  entries := [(notePath, true)]

/-- Nothing fails, and the workspace stays as it is. -/
def undisturbed (w : Workspace (List Char)) : Seen (List Char) := ⟨fun _ => w, fun _ => .done⟩

def createNote : Job := .update [⟨['a'], none, "create", some "file"⟩]

/-- The note is created, the service restarts, and the note is gone. -/
def restartSteps : List (Step (List Char)) :=
  [.start, .call .full (undisturbed emptyWorkspace), .call createNote (undisturbed noteWorkspace),
    .stop, .start, .call .reconcile (undisturbed emptyWorkspace)]

/-- The index still has the note. -/
theorem restart_keeps_removed_file :
    ¬∀ report ∈ ((service plainEnv).run (.stopped .fresh) restartSteps).2,
      report.Finished → report.Right plainEnv := by
  intro h
  have hlast : (((service plainEnv).run (.stopped .fresh) restartSteps).2.getLast?.map fun report =>
      (report.job, report.outcome, report.after.index.length)) = some (.reconcile, .ok (), 1) := by
    decide +kernel
  obtain ⟨report, hreport, hvalues⟩ := Option.map_eq_some_iff.mp hlast
  simp only [Prod.mk.injEq] at hvalues
  obtain ⟨hjob, houtcome, hlength⟩ := hvalues
  have hseen : ∀ report ∈ ((service plainEnv).run (.stopped .fresh) restartSteps).2.getLast?,
      Still report.seen emptyWorkspace := by
    intro report hreport
    obtain rfl := Option.some.inj hreport
    exact fun _ => rfl
  have hmem := List.mem_of_getLast? hreport
  have hfinished : report.Finished := ⟨houtcome, by
    rw [hjob]
    exact Classical.em _⟩
  have hperm := h report hmem hfinished emptyWorkspace (hseen report hreport)
  have hnone : rebuilt plainEnv emptyWorkspace = [] := rfl
  rw [hnone, List.perm_nil] at hperm
  simp [hperm] at hlength

def noteDocument (path : Path) (_ : FileFingerprint) : Option Document :=
  documentAt plainEnv noteWorkspace (plainEnv.absolute path)

theorem settled_empty : Settled plainEnv noteDocument emptyWorkspace :=
  ⟨fun _ _ h => by simp [emptyWorkspace] at h, fun _ h => by simp [emptyWorkspace] at h, nodup_nil⟩

theorem settled_note : Settled plainEnv noteDocument noteWorkspace := by
  refine ⟨fun _ _ _ _ => rfl, fun entry hentry _ => ?_, nodup_singleton _⟩
  obtain rfl := mem_singleton.mp hentry
  exact ⟨⟨['a'], by decide +kernel⟩, ⟨true, ⟨1, 1⟩⟩, ⟨by decide +kernel, by decide +kernel, rfl⟩, rfl, rfl⟩

theorem recorded_undisturbed (w : Workspace (List Char)) : Recorded (undisturbed w) :=
  ⟨rfl, rfl, rfl, rfl, rfl, rfl⟩

def createSteps : List (Step (List Char)) :=
  [.start, .call .full (undisturbed emptyWorkspace), .call createNote (undisturbed noteWorkspace),
    .call .reconcile (undisturbed noteWorkspace)]

theorem index_right_iff_relies_created :
    ∃ report ∈ ((service plainEnv).run (.stopped .fresh) createSteps).2,
      report.Finished ∧ report.job = .reconcile ∧ report.Right plainEnv := by
  have hmeets : (service plainEnv).Meets (Records plainEnv noteDocument) (.stopped .fresh) createSteps :=
    ⟨.inl rfl, ⟨recorded_undisturbed _, _, fun _ => rfl, settled_empty⟩,
      ⟨recorded_undisturbed _, _, fun _ => rfl, settled_note⟩,
      ⟨recorded_undisturbed _, _, fun _ => rfl, settled_note⟩, trivial⟩
  have hlast : (((service plainEnv).run (.stopped .fresh) createSteps).2.getLast?.map fun report =>
      (report.job, report.outcome)) = some (.reconcile, .ok ()) := by
    decide +kernel
  obtain ⟨report, hreport, hvalues⟩ := Option.map_eq_some_iff.mp hlast
  simp only [Prod.mk.injEq] at hvalues
  have hfinished : report.Finished := ⟨hvalues.2, by
    rw [hvalues.1]
    exact Classical.em _⟩
  have hmem := List.mem_of_getLast? hreport
  exact ⟨report, hmem, hfinished, hvalues.1,
    (index_right_iff_relies plainEnv).2 noteDocument createSteps hmeets report hmem hfinished⟩

end Cohub.Search
