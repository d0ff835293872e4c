import Cohub.Search.IndexStore
import Mathlib.Data.List.Perm.Basic

/-! # What a reconcile leaves in the index

    `rebuilt` is what a rebuild into an empty index adds.  While no file
    changes, a full rebuild leaves exactly that.  A reconcile goes by the
    snapshot it holds: at the paths where the snapshot and the walk differ it
    puts the file's document in place, and elsewhere it leaves the index as it
    is. -/

namespace Cohub.Search

open Interrupted Utf8 List Option OrderedMap

variable {Name : Type} (env : Env Name)

/-! ## The index as a function of the path -/

def docsAt (index : List Document) (path : Path) : List Document :=
  index.filter fun document => document.path = path

variable {index : List Document}

theorem perm_iff_docsAt {index' : List Document} :
    index.Perm index' ↔ ∀ path, (docsAt index path).Perm (docsAt index' path) := by
  constructor
  · intro h path
    exact h.filter _
  · intro h
    rw [perm_iff_count]
    intro document
    have hcount := perm_iff_count.mp (h document.path) document
    unfold docsAt at hcount
    rwa [count_filter (by simp), count_filter (by simp)] at hcount

variable (path : Path)

@[simp] theorem docsAt_nil : docsAt [] path = [] := rfl

theorem docsAt_deleteTerm (index : List Document) (path path' : Path) :
    docsAt (WriterOp.apply index (.deleteTerm path)) path' =
      if path' = path then [] else docsAt index path' := by
  unfold docsAt WriterOp.apply
  rw [List.filter_filter]
  split
  · rename_i heq
    subst heq
    rw [filter_eq_nil_iff]
    intro document _
    simp
  · rename_i hne
    apply filter_congr
    intro document _
    by_cases hpath : document.path = path'
    · simp [hpath, hne]
    · simp [hpath]

theorem docsAt_add (index : List Document) (document : Document) (path : Path) :
    docsAt (WriterOp.apply index (.add document)) path =
      docsAt index path ++ if document.path = path then [document] else [] := by
  unfold docsAt WriterOp.apply
  rw [filter_append]
  split <;> simp_all

/-- The writer's operations for a change. -/
def Prepared.ops (prepared : Prepared) : List WriterOp :=
  (prepared.oldPath.toList.map .deleteTerm) ++ .deleteTerm prepared.path ::
    prepared.document.toList.map .add

/-- The document put in place for a path. -/
structure Put where
  path     : Path
  document : Option Document

def Put.At (put : Put) : Prop := ∀ document, put.document = some document → document.path = put.path

def putAll (docs : Path → List Document) (puts : List Put) : Path → List Document :=
  puts.foldl (fun docs put => Function.update docs put.path put.document.toList) docs

def Put.prepared (put : Put) : Prepared := ⟨put.path, none, put.document⟩

variable {put : Put} {puts : List Put}

theorem docsAt_ops (h : put.At) (index : List Document) :
    docsAt (put.prepared.ops.foldl WriterOp.apply index) =
      Function.update (docsAt index) put.path put.document.toList := by
  funext path
  rcases put with ⟨at', _ | document⟩
  · simp only [Put.prepared, Prepared.ops, Option.toList, map_nil, nil_append,
      foldl_cons, foldl_nil, docsAt_deleteTerm, Function.update_apply]
  · have hpath : document.path = at' := h document rfl
    simp only [Put.prepared, Prepared.ops, Option.toList, map_nil, nil_append, map_cons,
      foldl_cons, foldl_nil, docsAt_add, docsAt_deleteTerm, Function.update_apply, hpath]
    by_cases heq : path = at'
    · simp [heq]
    · simp [heq, Ne.symm heq]

theorem docsAt_allOps (h : ∀ put ∈ puts, put.At) (index : List Document) :
    docsAt ((puts.flatMap fun put => put.prepared.ops).foldl WriterOp.apply index) =
      putAll (docsAt index) puts := by
  induction puts generalizing index with
  | nil => rfl
  | cons put rest ih =>
    rw [flatMap_cons, foldl_append, ih fun p hp => h p (mem_cons_of_mem _ hp),
      docsAt_ops (h put mem_cons_self)]
    rfl

/-! ## Reads while no file changes -/

/-- The call finds the one workspace all along. -/
def Still (seen : Seen Name) (w : Workspace Name) : Prop := ∀ point, seen.workspace point = w

def documentAt (w : Workspace Name) (path : List Name) : Option Document :=
  (w.stat path).bind fun metadata =>
    if !metadata.isFile || metadata.len > MAX_INDEXED_FILE_BYTES then none
    else (env.relative path).bind fun relative =>
      if isIgnoredPath relative.1 env.ignorePatterns || env.isGitIgnored w path false then none
      else (w.content path).bind (env.documentOf relative)

def entryAt (w : Workspace Name) (path : Path) : Option (Path × FileFingerprint) :=
  (w.stat (env.absolute path)).bind fun metadata =>
    if !metadata.isFile || isIgnoredPath path.1 env.ignorePatterns ||
        env.isGitIgnored w (env.absolute path) false then none
    else some (path, metadata.fingerprint)

def scanStep (w : Workspace Name) (snapshot : Snapshot) (entry : List Name × Bool) : Option Snapshot :=
  if env.skips entry then some snapshot
  else (env.relative entry.1).map fun relative =>
    match w.stat entry.1 with
    | none => snapshot
    | some metadata => snapshot.set relative metadata.fingerprint

/-- What a walk of the workspace records, if every name has a normalized path. -/
def scanOf (w : Workspace Name) : Option Snapshot := w.entries.foldlM (scanStep env w) .empty

def entryDocument (w : Workspace Name) (entry : List Name × Bool) : Option Document :=
  if env.skips entry then none else documentAt env w entry.1

/-- The documents a rebuild into an empty index adds. -/
def rebuilt (w : Workspace Name) : List Document := w.entries.filterMap (entryDocument env w)

variable {seen : Seen Name} {P : Store → Prop}
  {E K : Store → Prop} {α : Type} {s : Store} {w : Workspace Name} {change : IndexChange}
    {previous current : Snapshot}
  {point : Point} {F : α → Prop} {document : Document} {changes : List IndexChange}

theorem act_spec {f : Store → Store} {Q : Unit → Store → Prop}
    (hdone : ∀ s, P s → seen.fate point = .done → Q () (f s))
    (hfailed : ∀ s, P s → seen.fate point = .failed → E s)
    (hkilled : ∀ s, P s → seen.fate point = .killed → K s) : Triple seen P (act point f) Q E K :=
  .effect hdone hfailed hkilled

theorem act_id_spec :
    Triple seen P (act point id) (fun _ s => P s ∧ seen.fate point = .done) P P :=
  act_spec (fun _ hs hfate => ⟨hs, hfate⟩) (fun _ hs _ => hs) (fun _ hs _ => hs)

theorem observe_spec (point : Point) (f : Workspace Name → α) :
    Triple seen P (observe point f) (fun a s => P s ∧ a = f (seen.workspace point)) P P :=
  .bind act_id_spec fun _ => .look fun _ hs => ⟨hs.1, rfl⟩

theorem orFail_spec (o : Option α) : Triple seen P (orFail o) (fun a s => P s ∧ o = some a) P P :=
  .orFail (fun _ _ ho hs => ⟨hs, ho⟩) fun _ hs => hs

theorem look_spec (f : Seen Name → α) : Triple seen P (look f) (fun a s => P s ∧ a = f seen) P P :=
  .look fun _ hs => ⟨hs, rfl⟩

theorem pure_spec {a : α} (h : F a) : Triple seen P (pure a) (fun b s => P s ∧ F b) P P :=
  .pure fun _ hs => ⟨hs, h⟩

theorem bind_spec {β : Type} {c : StoreCall Name α} {f : α → StoreCall Name β}
    {Q : β → Store → Prop} (hc : Triple seen P c (fun a s => P s ∧ F a) E K)
    (hf : ∀ a, F a → Triple seen P (f a) Q E K) : Triple seen P (c >>= f) Q E K := by
  refine .bind hc fun a => ?_
  exact .of_eq fun s hs => (hf a hs.2).start fun t ht => ht ▸ hs.1

variable (k : Nat)

theorem documentForPath_spec (path : List Name) :
    Triple seen P (documentForPath env k path)
      (fun document s => P s ∧ ∀ w, Still seen w → document = documentAt env w path) P P := by
  unfold documentForPath
  refine bind_spec (observe_spec _ _) fun found hfound => ?_
  cases found with
  | none =>
    refine pure_spec fun w hw => ?_
    rw [hw] at hfound
    simp [documentAt, ← hfound]
  | some metadata =>
    dsimp only
    split
    · rename_i hfile
      refine pure_spec fun w hw => ?_
      rw [hw] at hfound
      rw [documentAt, ← hfound, bind_some, if_pos hfile]
    rename_i hfile
    refine bind_spec (orFail_spec _) fun relative hrelative => ?_
    refine bind_spec (look_spec _) fun ignored hignored => ?_
    split
    · rename_i hskip
      refine pure_spec fun w hw => ?_
      rw [hw] at hfound hignored
      rw [documentAt, ← hfound, bind_some, if_neg hfile, hrelative, bind_some, ← hignored,
        if_pos hskip]
    rename_i hskip
    refine bind_spec (observe_spec _ _) fun content hcontent => ?_
    refine bind_spec (orFail_spec _) fun bytes hbytes => ?_
    refine pure_spec fun w hw => ?_
    rw [hw] at hfound hignored hcontent
    rw [documentAt, ← hfound, bind_some, if_neg hfile, hrelative, bind_some, ← hignored,
      if_neg hskip, ← hcontent, hbytes, bind_some]

theorem documentForRelativePath_spec (path : Path) :
    Triple seen P (documentForRelativePath env k path.1)
      (fun document s => P s ∧ ∀ w, Still seen w → document = documentAt env w (env.absolute path))
      P P := by
  unfold documentForRelativePath
  rw [normalizeRelativePath_path]
  exact bind_spec (pure_spec (F := fun a => a = path) rfl) fun _ h => h ▸ documentForPath_spec env k _

theorem snapshotEntry_spec (path : Path) :
    Triple seen P (snapshotEntry env k path.1)
      (fun entry s => P s ∧ (∀ e, entry = some e → e.1 = path) ∧
        ∀ w, Still seen w → entry = entryAt env w path) P P := by
  unfold snapshotEntry
  rw [normalizeRelativePath_path]
  refine bind_spec (pure_spec (F := fun a => a = path) rfl) fun _ h => ?_
  subst h
  refine bind_spec (observe_spec _ _) fun found hfound => ?_
  cases found with
  | none =>
    refine pure_spec ⟨nofun, fun w hw => ?_⟩
    rw [hw] at hfound
    simp [entryAt, ← hfound]
  | some metadata =>
    dsimp only
    refine bind_spec (look_spec _) fun ignored hignored => ?_
    split
    · rename_i hskip
      refine pure_spec ⟨nofun, fun w hw => ?_⟩
      rw [hw] at hfound hignored
      rw [entryAt, ← hfound, bind_some, ← hignored, if_pos hskip]
    rename_i hskip
    refine bind_spec (observe_spec _ _) fun again hagain => ?_
    refine bind_spec (orFail_spec _) fun metadata' hmetadata => ?_
    refine pure_spec ⟨fun e he => by rw [← Option.some.inj he], fun w hw => ?_⟩
    rw [hw] at hfound hignored hagain
    obtain rfl : metadata = metadata' := by simpa [← hfound, hmetadata] using hagain.symm
    rw [entryAt, ← hfound, bind_some, ← hignored, if_neg hskip]

theorem scanEntry_spec (snapshot : Snapshot) (entry : (List Name × Bool) × Nat) :
    Triple seen P (scanEntry env snapshot entry)
      (fun next s => P s ∧ ∀ w, Still seen w → scanStep env w snapshot entry.1 = some next) P P := by
  unfold scanEntry
  split
  · rename_i hskip
    exact pure_spec fun w _ => by rw [scanStep, if_pos hskip]
  rename_i hskip
  refine bind_spec (orFail_spec _) fun relative hrelative => ?_
  refine bind_spec (observe_spec _ _) fun found hfound => ?_
  cases found with
  | none =>
    refine pure_spec fun w hw => ?_
    rw [hw] at hfound
    rw [scanStep, if_neg hskip, hrelative, map_some, ← hfound]
  | some metadata =>
    refine pure_spec fun w hw => ?_
    rw [hw] at hfound
    rw [scanStep, if_neg hskip, hrelative, map_some, ← hfound]

theorem scanWorkspaceSnapshot_spec :
    Triple seen P (scanWorkspaceSnapshot env)
      (fun snapshot s => P s ∧ ∀ w, Still seen w → scanOf env w = some snapshot) P P := by
  unfold scanWorkspaceSnapshot
  refine bind_spec (observe_spec _ _) fun entries hentries => ?_
  let I := fun (processed : List ((List Name × Bool) × Nat)) (snapshot : Snapshot) (s : Store) =>
    P s ∧ ∀ w, Still seen w → (processed.map Prod.fst).foldlM (scanStep env w) .empty = some snapshot
  refine ((Triple.foldlM (I := I) ?_ [] _).start fun s hs => ?_).result fun snapshot s hs => ?_
  · intro processed entry _ snapshot
    refine .of_eq fun s hs => ?_
    have hentry : Triple seen P _ _ _ _ := scanEntry_spec env snapshot entry
    refine hentry.mono ?_ ?_ (fun _ ht => ht) fun _ ht => ht
    · rintro t rfl
      exact hs.1
    · intro next t ht
      refine ⟨ht.1, fun w hw => ?_⟩
      rw [map_append, foldlM_append, hs.2 w hw]
      simp [ht.2 w hw]
  · exact ⟨hs, fun w _ => rfl⟩
  · refine ⟨hs.1, fun w hw => ?_⟩
    have := hs.2 w hw
    rw [nil_append, zipIdx_map_fst] at this
    rw [scanOf, ← this, hentries, hw]

/-! ## A full rebuild -/

/-- The snapshot and its file are `next`, and nothing is marked. -/
structure Persisted (next : Snapshot) (s : Store) : Prop where
  pending : s.pending = []
  files : s.files = some next
  snapshot : s.snapshot = some next
  snapshotDirty : s.snapshotDirty = false
  rebuildDirty : s.rebuildDirty = false

/-- A snapshot was being persisted when the call ended. -/
inductive Persisting.Partly (s : Store) (next : Snapshot) : Store → Prop where
  | before : Partly s next s
  | installed : Partly s next { s with files := some next }
  | cleared : Partly s next { s with files := some next, snapshotDirty := false }

/-- No point of the persisting fails. -/
def Persisting.Done (place : Persisting) (seen : Seen Name) : Prop :=
  seen.fate (.write place) = .done ∧ seen.fate (.install place) = .done ∧
    seen.fate (.clearSnapshotDirty place) = .done ∧ seen.fate (.clearRebuildDirty place) = .done

theorem persistSnapshot_spec (place : Persisting) (next : Snapshot) (s : Store) :
    Triple seen (fun t => t = s) (persistSnapshot place next)
      (fun _ t => t = { s with files := some next, snapshotDirty := false, rebuildDirty := false })
      (fun t => Persisting.Partly s next t ∧ ¬place.Done seen)
      (fun t => Persisting.Partly s next t ∧ ¬place.Done seen) := by
  unfold persistSnapshot Persisting.Done
  refine .bind (R := fun _ t => t = s) (act_spec (fun t ht _ => ht) ?_ ?_) fun _ => ?_
  · rintro t rfl hfate
    exact ⟨.before, by simp [hfate]⟩
  · rintro t rfl hfate
    exact ⟨.before, by simp [hfate]⟩
  refine .bind (R := fun _ t => t = { s with files := some next }) (act_spec ?_ ?_ ?_) fun _ => ?_
  · rintro t rfl -
    rfl
  · rintro t rfl hfate
    exact ⟨.before, by simp [hfate]⟩
  · rintro t rfl hfate
    exact ⟨.before, by simp [hfate]⟩
  refine .bind (R := fun _ t => t = { s with files := some next, snapshotDirty := false })
    (act_spec ?_ ?_ ?_) fun _ => act_spec ?_ ?_ ?_
  · rintro t rfl -
    rfl
  · rintro t rfl hfate
    exact ⟨.installed, by simp [hfate]⟩
  · rintro t rfl hfate
    exact ⟨.installed, by simp [hfate]⟩
  · rintro t rfl -
    rfl
  · rintro t rfl hfate
    exact ⟨.cleared, by simp [hfate]⟩
  · rintro t rfl hfate
    exact ⟨.cleared, by simp [hfate]⟩

theorem Persisting.Partly.rebuildDirty {t : Store} {next : Snapshot} (h : Persisting.Partly s next t) :
    t.rebuildDirty = s.rebuildDirty := by
  cases h <;> rfl

/-- In the middle of a rebuild, after the entries `processed`. -/
structure Rebuilding (seen : Seen Name) (processed : List (List Name × Bool)) (next : Snapshot)
    (s : Store) : Prop where
  marked  : s.rebuildDirty = true
  index   : s.index = []
  pending : ∀ w, Still seen w → s.pending = (processed.filterMap (entryDocument env w)).map .add
  next    : ∀ w, Still seen w → processed.foldlM (scanStep env w) .empty = some next

def Marked (s : Store) : Prop := s.rebuildDirty = true

theorem rebuildEntry_spec (processed : List (List Name × Bool)) (snapshot : Snapshot)
    (entry : (List Name × Bool) × Nat) :
    Triple seen (Rebuilding env seen processed snapshot) (rebuildEntry env snapshot entry)
      (Rebuilding env seen (processed ++ [entry.1])) Marked Marked := by
  -- What the entry adds is known once it is read.
  have hgoes : ∀ {next : Snapshot} {document : Option Document} {s t : Store},
      Rebuilding env seen processed snapshot s →
      (∀ w, Still seen w → scanStep env w snapshot entry.1 = some next) →
      (∀ w, Still seen w → document = entryDocument env w entry.1) → t.rebuildDirty = true →
      t.index = s.index → t.pending = s.pending ++ document.toList.map .add →
      Rebuilding env seen (processed ++ [entry.1]) next t := by
    intro next document s t hs hnext hdocument hmarked hindex hpending
    refine ⟨hmarked, hindex.trans hs.index, fun w hw => ?_, fun w hw => ?_⟩
    · rw [hpending, hs.pending w hw, filterMap_append, map_append, hdocument w hw]
      cases hentry : entryDocument env w entry.1 <;> simp [hentry]
    · rw [foldlM_append, hs.next w hw]
      simp [hnext w hw]
  have hmarked : ∀ s, Rebuilding env seen processed snapshot s → Marked s := fun s hs => hs.marked
  unfold rebuildEntry
  split
  · rename_i hskip
    refine .pure fun s hs => @hgoes _ none _ _ hs (fun w _ => ?_) (fun w _ => ?_) hs.marked rfl ?_
    · rw [scanStep, if_pos hskip]
    · rw [entryDocument, if_pos hskip]
    · simp
  rename_i hskip
  refine bind_spec ((orFail_spec _).mono (fun _ hs => hs) (fun _ _ hs => hs) hmarked hmarked)
    fun relative hrelative => ?_
  refine bind_spec ((observe_spec _ _).mono (fun _ hs => hs) (fun _ _ hs => hs) hmarked hmarked)
    fun found hfound => ?_
  cases found with
  | none =>
    refine .pure fun s hs => @hgoes _ none _ _ hs (fun w hw => ?_) (fun w hw => ?_) hs.marked rfl ?_
    · rw [hw] at hfound
      rw [scanStep, if_neg hskip, hrelative, map_some, ← hfound]
    · rw [hw] at hfound
      rw [entryDocument, if_neg hskip, documentAt, ← hfound, bind_none]
    · simp
  | some metadata =>
    refine bind_spec ((documentForPath_spec env entry.2 entry.1.1).mono (fun _ hs => hs)
      (fun _ _ hs => hs) hmarked hmarked) fun document hdocument => ?_
    have hnext : ∀ w, Still seen w →
        scanStep env w snapshot entry.1 = some (snapshot.set relative metadata.fingerprint) := by
      intro w hw
      rw [hw] at hfound
      rw [scanStep, if_neg hskip, hrelative, map_some, ← hfound]
    have hentry : ∀ w, Still seen w → document = entryDocument env w entry.1 := by
      intro w hw
      rw [entryDocument, if_neg hskip, ← hdocument w hw]
    refine .bind (R := fun _ => Rebuilding env seen (processed ++ [entry.1])
      (snapshot.set relative metadata.fingerprint)) ?_ fun _ => .pure fun _ hs => hs
    cases document with
    | none => exact .pure fun s hs => hgoes hs hnext hentry hs.marked rfl (by simp)
    | some document =>
      exact act_spec (fun s hs _ => hgoes hs hnext hentry hs.marked rfl rfl)
        (fun s hs _ => hs.marked) fun s hs _ => hs.marked

theorem applyAll_add (index documents : List Document) :
    (documents.map .add).foldl WriterOp.apply index = index ++ documents := by
  induction documents generalizing index with
  | nil => simp
  | cons document rest ih =>
    rw [map_cons, foldl_cons, ih]
    simp [WriterOp.apply]

/-- A call that gives a result while no file changes has rebuilt the index. -/
def Rebuilt (seen : Seen Name) (s : Store) : Prop :=
  ∃ next, Persisted next s ∧ ∀ w, Still seen w → s.index = rebuilt env w ∧ scanOf env w = some next

theorem rebuild_spec :
    Triple seen (fun s => s.rebuildDirty = true ∧ s.pending = []) (rebuild env)
      (fun _ => Rebuilt env seen) Marked Marked := by
  unfold rebuild
  refine .bind (R := fun _ s => s.rebuildDirty = true ∧ s.pending = [.deleteAll])
    (.modify fun s hs => ⟨hs.1, by simp [Store.give, hs.2]⟩) fun _ => ?_
  refine .bind (R := fun _ s => s.rebuildDirty = true ∧ s.pending = [] ∧ s.index = [])
    (act_spec (fun s hs _ => ⟨hs.1, rfl, by simp [Store.commit, hs.2, WriterOp.apply]⟩)
      (fun s hs _ => hs.1) fun s hs _ => hs.1) fun _ => ?_
  refine .bind (R := fun _ s => s.rebuildDirty = true ∧ s.pending = [] ∧ s.index = [])
    (act_spec (fun s hs _ => hs) (fun s hs _ => hs.1) fun s hs _ => hs.1) fun _ => ?_
  refine bind_spec ((observe_spec _ _).mono (fun _ hs => hs) (fun _ _ hs => hs)
    (fun _ hs => hs.1) fun _ hs => hs.1) fun entries hentries => ?_
  let I := fun (processed : List ((List Name × Bool) × Nat)) =>
    Rebuilding env seen (processed.map Prod.fst)
  have hloop : Triple seen (I [] OrderedMap.empty) (entries.zipIdx.foldlM (rebuildEntry env) .empty)
      (I ([] ++ entries.zipIdx)) Marked Marked := by
    refine .foldlM (fun processed entry _ snapshot => ?_) [] _
    have h := @rebuildEntry_spec _ env seen (processed.map Prod.fst) snapshot entry
    rwa [← map_singleton, ← map_append] at h
  refine .bind (hloop.start fun s hs => ⟨hs.1, hs.2.2, fun w _ => hs.2.1, fun w _ => rfl⟩) fun next => ?_
  have hall : (([] ++ entries.zipIdx).map Prod.fst) = entries := by
    rw [nil_append, zipIdx_map_fst]
  let R := fun s : Store => s.rebuildDirty = true ∧ s.pending = [] ∧
    ∀ w, Still seen w → s.index = rebuilt env w ∧ scanOf env w = some next
  refine .bind (R := fun _ => R) (act_spec (fun s hs _ => ⟨hs.marked, rfl, fun w hw => ?_⟩)
    (fun s hs _ => hs.marked) fun s hs _ => hs.marked) fun _ => ?_
  · have hpending := hs.pending w hw
    have hnext := hs.next w hw
    rw [hall, hentries, hw] at hpending hnext
    refine ⟨?_, hnext⟩
    show s.pending.foldl WriterOp.apply s.index = _
    rw [hpending, hs.index, applyAll_add]
    rfl
  refine .bind (R := fun _ => R) (act_spec (fun s hs _ => hs) (fun s hs _ => hs.1) fun s hs _ => hs.1)
    fun _ => ?_
  refine .of_eq fun s hs => ?_
  refine .bind ((persistSnapshot_spec .rebuild next s).mono (fun _ ht => ht) (fun _ _ ht => ht) ?_ ?_)
    fun _ => .modify ?_
  · exact fun t ht => ht.1.rebuildDirty.trans hs.1
  · exact fun t ht => ht.1.rebuildDirty.trans hs.1
  · rintro t rfl
    exact ⟨next, ⟨hs.2.1, rfl, rfl, rfl, rfl⟩, hs.2.2⟩

theorem fullRebuild_spec (hs : s.pending = []) :
    Triple seen (fun t => t = s) (fullRebuild env) (fun _ => Rebuilt env seen)
      (fun t => t = s ∨ Marked t ∧ t.pending = []) (fun t => t = s ∨ Marked t) := by
  unfold fullRebuild
  refine .bind (R := fun _ t => t.rebuildDirty = true ∧ t.pending = []) (act_spec ?_ ?_ ?_) fun _ => ?_
  · rintro t rfl -
    exact ⟨rfl, hs⟩
  · exact fun t ht _ => .inl ht
  · exact fun t ht _ => .inl ht
  refine .onError ((rebuild_spec env).mono (fun _ ht => ht) (fun _ _ ht => ht) (fun _ ht => ht)
    fun _ ht => .inr ht) ?_
  exact fun t ht => .inr ⟨ht, rfl⟩

/-! ## Changes to documents -/

theorem relative_absolute : env.relative (env.absolute path) = some path := by
  unfold Env.relative Env.text Env.absolute
  rw [List.map_map]
  have hsame : env.lossy ∘ env.ofText = id := funext env.lossy_ofText
  rw [hsame, List.map_id, intercalate_splitOn, normalizeRelativePath_path]

theorem relative_of_documentAt {path : List Name}
    (h : documentAt env w path = some document) : env.relative path = some document.path := by
  unfold documentAt at h
  obtain ⟨metadata, -, h⟩ := bind_eq_some_iff.mp h
  split at h
  · simp at h
  obtain ⟨relative, hrelative, h⟩ := bind_eq_some_iff.mp h
  split at h
  · simp at h
  obtain ⟨bytes, -, h⟩ := bind_eq_some_iff.mp h
  unfold Env.documentOf at h
  split at h
  · simp at h
  split at h
  · rw [hrelative, ← Option.some.inj h]
  · simp at h

/-- What a change puts in place for its path. -/
def putOf (w : Workspace Name) (change : IndexChange) : Option Put :=
  (normalizeRelativePath change.path).map fun path =>
    ⟨path, if change.removes then none else documentAt env w (env.absolute path)⟩

theorem put_at (h : putOf env w change = some put) : put.At := by
  obtain ⟨path, -, rfl⟩ := map_eq_some_iff.mp h
  intro document hdocument
  dsimp only at hdocument ⊢
  split at hdocument
  · simp at hdocument
  · have hpath := relative_of_documentAt env hdocument
    rw [relative_absolute] at hpath
    exact (Option.some.inj hpath).symm

def putsOf (w : Workspace Name) (changes : List IndexChange) : List Put := changes.filterMap (putOf env w)

theorem prepareChange_spec {prepared : List Prepared} {change : IndexChange × Nat}
    (hold : change.1.oldPath = none) :
    Triple seen P (prepareChange env prepared change)
      (fun prepared' s => P s ∧ ∀ w, Still seen w →
        prepared' = prepared ++ (putOf env w change.1).toList.map Put.prepared) P P := by
  unfold prepareChange
  refine bind_spec (orFail_spec _) fun path hpath => ?_
  rw [hold]
  refine bind_spec (pure_spec (F := fun oldPath => oldPath = none) rfl) fun oldPath holdPath => ?_
  subst holdPath
  let F := fun document => ∀ w, Still seen w →
    document = if change.1.removes then none else documentAt env w (env.absolute path)
  have hread : Triple seen P (changedDocument env change.2 change.1 path)
      (fun document s => P s ∧ F document) P P := by
    unfold changedDocument
    split
    · exact pure_spec fun w _ => by rw [if_pos ‹_›]
    · refine (documentForRelativePath_spec env change.2 path).result fun document s hs => ⟨hs.1, fun w hw => ?_⟩
      rw [if_neg ‹_›, hs.2 w hw]
  refine bind_spec hread fun document hdocument => .pure fun s hs => ⟨hs, fun w hw => ?_⟩
  rw [putOf, hpath, hdocument w hw]
  rfl

theorem prepareChanges_spec (hold : ∀ c ∈ changes, c.oldPath = none) :
    Triple seen P (changes.zipIdx.foldlM (prepareChange env) [])
      (fun prepared s => P s ∧ ∀ w, Still seen w → prepared = (putsOf env w changes).map Put.prepared)
      P P := by
  let I := fun (processed : List (IndexChange × Nat)) (prepared : List Prepared) (s : Store) =>
    P s ∧ ∀ w, Still seen w → prepared = (putsOf env w (processed.map Prod.fst)).map Put.prepared
  refine ((Triple.foldlM (I := I) ?_ [] _).start fun s hs => ?_).result fun prepared s hs => ?_
  · intro processed change hchange prepared
    refine .of_eq fun s hs => ?_
    have hnone := hold _ (fst_mem_of_mem_zipIdx hchange)
    refine (prepareChange_spec env (P := P) hnone).mono ?_ ?_ (fun _ ht => ht) fun _ ht => ht
    · rintro t rfl
      exact hs.1
    · intro next t ht
      refine ⟨ht.1, fun w hw => ?_⟩
      rw [ht.2 w hw, hs.2 w hw, putsOf, putsOf, map_append, filterMap_append, map_append]
      cases hput : putOf env w change.1 <;> simp [hput]
  · exact ⟨hs, fun w _ => rfl⟩
  · refine ⟨hs.1, fun w hw => ?_⟩
    have := hs.2 w hw
    rwa [nil_append, zipIdx_map_fst] at this

/-- The store with operations given to the writer. -/
def Store.given (s : Store) (ops : List WriterOp) : Store := { s with pending := ops }

def Given (s : Store) (t : Store) : Prop := ∃ ops, t = s.given ops

theorem give_spec {ops : List WriterOp} (op : WriterOp) :
    Triple seen (fun t => t = s.given ops) (modify (Store.give op))
      (fun _ t => t = s.given (ops ++ [op])) E K := by
  refine .modify ?_
  rintro t rfl
  rfl

theorem deletePath_spec {ops : List WriterOp} :
    Triple seen (fun t => t = s.given ops) (deletePath path)
      (fun _ t => t = s.given (ops ++ [.deleteTerm path])) (Given s) (Given s) := by
  unfold deletePath
  rw [normalizeRelativePath_path]
  refine bind_spec (F := fun p => p = path) (.pure fun _ ht => ⟨ht, rfl⟩) fun _ h => ?_
  subst h
  exact give_spec _

theorem writePrepared_spec {ops : List WriterOp} (prepared : Prepared × Nat) :
    Triple seen (fun t => t = s.given ops) (writePrepared prepared)
      (fun _ t => t = s.given (ops ++ prepared.1.ops)) (Given s) (Given s) := by
  obtain ⟨⟨path, oldPath, document⟩, k⟩ := prepared
  unfold writePrepared
  refine .bind (R := fun _ t => t = s.given (ops ++ oldPath.toList.map .deleteTerm)) ?_ fun _ => ?_
  · cases oldPath with
    | none => exact .pure fun t ht => by rw [ht]; simp
    | some oldPath => exact deletePath_spec oldPath
  refine .bind (deletePath_spec path) fun _ => ?_
  have hops : ∀ adds : List WriterOp,
      ops ++ oldPath.toList.map .deleteTerm ++ [.deleteTerm path] ++ adds =
        ops ++ (oldPath.toList.map .deleteTerm ++ .deleteTerm path :: adds) := by
    intro adds
    simp
  cases document with
  | none =>
    refine .pure fun t ht => ?_
    rw [ht, Prepared.ops, ← hops]
    simp
  | some document =>
    refine act_spec (fun t ht _ => ?_) (fun t ht _ => ⟨_, ht⟩) fun t ht _ => ⟨_, ht⟩
    rw [ht, Prepared.ops, ← hops]
    rfl

/-- The store after the prepared changes are committed. -/
def Store.written (s : Store) (prepared : List Prepared) : Store :=
  { s with index := (prepared.flatMap Prepared.ops).foldl WriterOp.apply s.index, pending := [] }

theorem writeDocuments_spec (hs : s.pending = []) (prepared : List Prepared) :
    Triple seen (fun t => t = s) (writeDocuments prepared) (fun _ t => t = s.written prepared)
      (Given s) (Given s) := by
  unfold writeDocuments
  let I := fun (processed : List (Prepared × Nat)) (_ : Unit) (t : Store) =>
    t = s.given ((processed.map Prod.fst).flatMap Prepared.ops)
  have hloop : Triple seen (I [] ()) (prepared.zipIdx.foldlM (fun _ => writePrepared) ())
      (I ([] ++ prepared.zipIdx)) (Given s) (Given s) := by
    refine .foldlM (fun processed change _ _ => ?_) [] ()
    refine (writePrepared_spec change).result fun _ t ht => ?_
    show t = _
    rw [ht, map_append, flatMap_append]
    simp
  refine .bind (hloop.start fun t ht => ?_) fun _ => act_spec (fun t ht _ => ?_) (fun t ht _ => ⟨_, ht⟩)
    fun t ht _ => ⟨_, ht⟩
  · rw [ht]
    show s = { s with pending := [] }
    rw [← hs]
  · rw [ht, nil_append, zipIdx_map_fst]
    rfl

/-- After the commit of an incremental change, nothing fails. -/
def Recorded (seen : Seen Name) : Prop :=
  seen.fate .reload = .done ∧ seen.fate .markSnapshotDirty = .done ∧ Persisting.update.Done seen

def Store.recorded (s : Store) (next : Snapshot) (persistSnapshotNow : Bool) : Store :=
  if persistSnapshotNow then
    { s with files := some next, snapshotDirty := false, rebuildDirty := false, snapshot := some next }
  else { s with snapshotDirty := true, snapshot := some next }

theorem applyDocumentChanges_spec (hs : s.pending = [])
    (hne : changes ≠ []) (hold : ∀ c ∈ changes, c.oldPath = none) (next : Snapshot) (now : Bool) :
    Triple seen (fun t => t = s) (applyDocumentChanges env changes next now)
      (fun _ t => ∃ prepared, t = (s.written prepared).recorded next now ∧
        ∀ w, Still seen w → prepared = (putsOf env w changes).map Put.prepared)
      (fun t => t.pending = [] ∧ (t = s ∨ ¬Recorded seen)) (fun t => Given s t ∨ ¬Recorded seen) := by
  unfold applyDocumentChanges
  rw [if_neg hne]
  have herror : ∀ t, t = s → t.pending = [] ∧ (t = s ∨ ¬Recorded seen) := by
    rintro t rfl
    exact ⟨hs, .inl rfl⟩
  have hkilled : ∀ t, t = s → Given s t ∨ ¬Recorded seen := by
    rintro t rfl
    exact .inl ⟨t.pending, rfl⟩
  refine bind_spec ((prepareChanges_spec env hold).mono (fun _ ht => ht) (fun _ _ ht => ht) herror hkilled)
    fun prepared hprepared => ?_
  refine .bind (R := fun _ t => t = s.written prepared) ?_ fun _ => ?_
  · refine .onError ((writeDocuments_spec hs prepared).mono (fun _ ht => ht) (fun _ _ ht => ht)
      (fun _ ht => ht) fun _ ht => .inl ht) ?_
    rintro t ⟨ops, rfl⟩
    refine herror _ ?_
    show { s with pending := [] } = s
    rw [← hs]
  refine .bind (R := fun _ t => t = s.written prepared)
    (act_spec (fun t ht _ => ht) ?_ ?_) fun _ => ?_
  · rintro t rfl hfate
    exact ⟨rfl, .inr fun h => by simp [h.1] at hfate⟩
  · rintro t rfl hfate
    exact .inr fun h => by simp [h.1] at hfate
  refine .bind (R := fun _ t => Store.hold next t = (s.written prepared).recorded next now) ?_ fun _ =>
    .modify fun t ht => ⟨prepared, ht, hprepared⟩
  unfold recordSnapshot
  cases now with
  | true =>
    refine (persistSnapshot_spec .update next (s.written prepared)).mono (fun _ ht => ht) ?_ ?_ ?_
    · rintro - t rfl
      rfl
    · rintro t ⟨hpartly, hdone⟩
      exact ⟨by cases hpartly <;> rfl, .inr fun h => hdone h.2.2⟩
    · exact fun t ht => .inr fun h => ht.2 h.2.2
  | false =>
    refine act_spec ?_ ?_ ?_
    · rintro t rfl -
      rfl
    · rintro t rfl hfate
      exact ⟨rfl, .inr fun h => by simp [h.2.1] at hfate⟩
    · rintro t rfl hfate
      exact .inr fun h => by simp [h.2.1] at hfate

/-! ## A reconcile -/

theorem putAll_eq {docs : Path → List Document} {d : Path → Option Document}
    (h : ∀ put ∈ puts, put.document = d put.path) (path : Path) :
    putAll docs puts path = if path ∈ puts.map Put.path then (d path).toList else docs path := by
  induction puts generalizing docs with
  | nil => simp [putAll]
  | cons put rest ih =>
    have hrest := @ih (Function.update docs put.path put.document.toList)
      fun p hp => h p (mem_cons_of_mem _ hp)
    show putAll (Function.update docs put.path put.document.toList) rest path = _
    rw [hrest, Function.update_apply]
    simp only [map_cons, mem_cons]
    by_cases hin : path ∈ rest.map Put.path
    · simp [hin]
    · by_cases hpath : path = put.path
      · simp [hpath, h put mem_cons_self]
      · simp [hin, hpath]

theorem putOf_fileChange (w : Workspace Name) (kind : String) (path : Path) :
    putOf env w (fileChange kind path) =
      some ⟨path, if kind = "delete" then none else documentAt env w (env.absolute path)⟩ := by
  unfold putOf fileChange IndexChange.removes
  simp

def changeKind (previous current : Snapshot) (path : Path) : String :=
  match current.get? path, previous.get? path with
  | none, _ => "delete"
  | some _, none => "create"
  | some _, some _ => "modify"

theorem mem_changesBetween :
    change ∈ changesBetween previous current ↔
      ∃ path, previous.get? path ≠ current.get? path ∧
        change = fileChange (changeKind previous current path) path := by
  unfold changesBetween changeKind
  dsimp only
  rw [mem_insertionSort, mem_append, mem_filterMap, List.mem_map]
  constructor
  · rintro (⟨⟨path, fingerprint⟩, hmem, hchange⟩ | ⟨path, hmem, rfl⟩)
    · have hcurrent := (current.mem_entries_iff path fingerprint).mp hmem
      refine ⟨path, ?_⟩
      cases hprevious : previous.get? path with
      | none => simp_all
      | some old =>
        rw [hprevious] at hchange
        by_cases hold : old = fingerprint
        · simp [hold] at hchange
        · simp_all
    · obtain ⟨hkey, hgone⟩ := mem_filter.mp hmem
      obtain ⟨old, hold⟩ := (previous.has_iff path).mp ((previous.mem_keys_iff path).mp hkey)
      have hcurrent : current.get? path = none := by simpa [has] using hgone
      exact ⟨path, by simp [hold, hcurrent], by simp [hcurrent]⟩
  · rintro ⟨path, hne, rfl⟩
    cases hcurrent : current.get? path with
    | none =>
      right
      obtain ⟨old, hold⟩ := ne_none_iff_exists'.mp (hcurrent ▸ hne)
      refine ⟨path, mem_filter.mpr ⟨?_, by simp [has, hcurrent]⟩, rfl⟩
      exact (previous.mem_keys_iff path).mpr ((previous.has_iff path).mpr ⟨old, hold⟩)
    | some fingerprint =>
      left
      refine ⟨(path, fingerprint), (current.mem_entries_iff path fingerprint).mpr hcurrent, ?_⟩
      cases hprevious : previous.get? path with
      | none => rfl
      | some old =>
        have hold : old ≠ fingerprint := fun heq => hne (by rw [hprevious, hcurrent, heq])
        simp [hold]

theorem oldPath_of_mem_changesBetween
    (h : change ∈ changesBetween previous current) : change.oldPath = none := by
  obtain ⟨path, -, rfl⟩ := mem_changesBetween.mp h
  rfl

theorem changesBetween_eq_nil :
    changesBetween previous current = [] ↔ ∀ path, previous.get? path = current.get? path := by
  rw [eq_nil_iff_forall_not_mem]
  constructor
  · intro h path
    by_contra hne
    exact h _ (mem_changesBetween.mpr ⟨path, hne, rfl⟩)
  · intro h change hchange
    obtain ⟨path, hne, -⟩ := mem_changesBetween.mp hchange
    exact hne (h path)

/-- What a reconcile makes of the index: where the snapshots agree, nothing, and
    elsewhere what is found under the normalized path. -/
def Reconciled (w : Workspace Name) (previous current : Snapshot) (before after : List Document) : Prop :=
  ∀ path, docsAt after path =
    if previous.get? path = current.get? path then docsAt before path
    else if current.has path then (documentAt env w (env.absolute path)).toList
    else []

theorem reconciled_written (w : Workspace Name) {prepared : List Prepared}
    (h : prepared = (putsOf env w (changesBetween previous current)).map Put.prepared) :
    Reconciled env w previous current s.index (s.written prepared).index := by
  intro path
  subst h
  let d := fun path => if current.has path then documentAt env w (env.absolute path) else none
  have hputs : ∀ put ∈ putsOf env w (changesBetween previous current), put.At ∧
      put.document = d put.path ∧ previous.get? put.path ≠ current.get? put.path := by
    intro put hput
    obtain ⟨change, hchange, hputOf⟩ := mem_filterMap.mp hput
    refine ⟨put_at env hputOf, ?_⟩
    obtain ⟨path, hne, rfl⟩ := mem_changesBetween.mp hchange
    rw [putOf_fileChange] at hputOf
    obtain rfl := Option.some.inj hputOf
    refine ⟨?_, hne⟩
    unfold changeKind
    dsimp only [d]
    cases hcurrent : current.get? path with
    | none => simp [has, hcurrent]
    | some fingerprint => cases previous.get? path <;> simp [has, hcurrent]
  have hmem : path ∈ (putsOf env w (changesBetween previous current)).map Put.path ↔
      previous.get? path ≠ current.get? path := by
    rw [List.mem_map]
    constructor
    · rintro ⟨put, hput, rfl⟩
      exact (hputs put hput).2.2
    · intro hne
      exact ⟨_, mem_filterMap.mpr ⟨_, mem_changesBetween.mpr ⟨path, hne, rfl⟩,
        putOf_fileChange env w _ path⟩, rfl⟩
  show docsAt (((putsOf env w (changesBetween previous current)).map Put.prepared).flatMap Prepared.ops
    |>.foldl WriterOp.apply s.index) path = _
  rw [flatMap_map, docsAt_allOps fun put hput => (hputs put hput).1,
    putAll_eq fun put hput => (hputs put hput).2.1]
  by_cases hsame : previous.get? path = current.get? path
  · rw [if_neg fun hin => hmem.mp hin hsame, if_pos hsame]
  · rw [if_pos (hmem.mpr hsame), if_neg hsame]
    dsimp only [d]
    split <;> rfl

/-- The walk found what the snapshot in memory says, and the file was being
    brought up to it. -/
def Unmoved (s t : Store) : Prop :=
  ∃ previous current, s.snapshot = some previous ∧ (∀ path, previous.get? path = current.get? path) ∧
    Persisting.Partly s current t

/-- How a call that is not done leaves the store. -/
def Left (seen : Seen Name) (s t : Store) : Prop :=
  Given s t ∨ Marked t ∨ Unmoved s t ∨ ¬Recorded seen

/-- How a reconcile from a snapshot leaves the store. -/
structure ReconciledFrom (seen : Seen Name) (previous current : Snapshot) (s t : Store) : Prop where
  end_or  : t = s ∧ (∀ path, previous.get? path = current.get? path) ∨ Persisted current t
  pending : t.pending = []
  index   : ∀ w, Still seen w →
    scanOf env w = some current ∧ Reconciled env w previous current s.index t.index

theorem reconciled_of_same (w : Workspace Name)
    (h : ∀ path, previous.get? path = current.get? path) :
    Reconciled env w previous current index index :=
  fun path => (if_pos (h path)).symm

theorem reconcileFrom_spec (hs : s.pending = [])
    (hprevious : s.snapshot = some previous) (hmark : s.rebuildDirty = false) :
    Triple seen (fun t => t = s) (reconcileFrom env previous)
      (fun _ t => ∃ current, ReconciledFrom env seen previous current s t)
      (fun t => t.pending = [] ∧ Left seen s t) (Left seen s) := by
  have hgiven : Given s s := ⟨s.pending, rfl⟩
  unfold reconcileFrom
  refine bind_spec ((scanWorkspaceSnapshot_spec env).mono (fun _ ht => ht) (fun _ _ ht => ht) ?_ ?_)
    fun current hcurrent => ?_
  · rintro t rfl
    exact ⟨hs, .inl hgiven⟩
  · rintro t rfl
    exact .inl hgiven
  split
  · rename_i hnil
    have hsame := changesBetween_eq_nil.mp hnil
    unfold persistUnchanged
    refine bind_spec (F := fun dirty => dirty = s.snapshotDirty) (.get fun t ht => ⟨ht, by rw [ht]⟩)
      fun dirty hdirty => ?_
    split
    · refine .bind ((persistSnapshot_spec .unchanged current s).mono (fun _ ht => ht) (fun _ _ ht => ht)
        ?_ ?_) fun _ => .modify ?_
      · exact fun t ht => ⟨by cases ht.1 <;> exact hs, .inr (.inr (.inl ⟨_, _, hprevious, hsame, ht.1⟩))⟩
      · exact fun t ht => .inr (.inr (.inl ⟨_, _, hprevious, hsame, ht.1⟩))
      · rintro t rfl
        refine ⟨current, .inr ⟨hs, rfl, rfl, rfl, rfl⟩, hs, fun w hw => ⟨hcurrent w hw, ?_⟩⟩
        exact reconciled_of_same env w hsame
    · refine .pure ?_
      rintro t rfl
      exact ⟨current, .inl ⟨rfl, hsame⟩, hs, fun w hw => ⟨hcurrent w hw, reconciled_of_same env w hsame⟩⟩
  · rename_i hne
    refine (applyDocumentChanges_spec env hs hne (fun c hc => oldPath_of_mem_changesBetween hc) current
      true).mono (fun _ ht => ht) ?_ ?_ ?_
    · rintro - t ⟨prepared, rfl, hprepared⟩
      exact ⟨current, .inr ⟨rfl, rfl, rfl, rfl, rfl⟩, rfl, fun w hw =>
        ⟨hcurrent w hw, reconciled_written env w (hprepared w hw)⟩⟩
    · rintro t ⟨hpending, rfl | hrecorded⟩
      · exact ⟨hpending, .inl hgiven⟩
      · exact ⟨hpending, .inr (.inr (.inr hrecorded))⟩
    · rintro t (hgiven | hrecorded)
      · exact .inl hgiven
      · exact .inr (.inr (.inr hrecorded))

theorem fullRebuild_left (hs : s.pending = []) :
    Triple seen (fun t => t = s) (fullRebuild env) (fun _ => Rebuilt env seen)
      (fun t => t.pending = [] ∧ Left seen s t) (Left seen s) := by
  refine (fullRebuild_spec env hs).mono (fun _ ht => ht) (fun _ _ ht => ht) ?_ ?_
  · rintro t (rfl | ⟨hmarked, hpending⟩)
    · exact ⟨hs, .inl ⟨t.pending, rfl⟩⟩
    · exact ⟨hpending, .inr (.inl hmarked)⟩
  · rintro t (rfl | hmarked)
    · exact .inl ⟨t.pending, rfl⟩
    · exact .inr (.inl hmarked)

/-- A reconcile does not trust a snapshot while a rebuild is marked. -/
def Rebuilds (s : Store) : Prop := s.snapshot = none ∨ s.rebuildDirty = true

theorem reconcile_spec (hs : s.pending = []) :
    Triple seen (fun t => t = s) (reconcile env)
      (fun _ t => Rebuilds s ∧ Rebuilt env seen t ∨
        ∃ previous current, s.snapshot = some previous ∧ s.rebuildDirty = false ∧
          ReconciledFrom env seen previous current s t)
      (fun t => t.pending = [] ∧ Left seen s t) (Left seen s) := by
  unfold reconcile
  refine bind_spec (F := fun held => held = s.snapshot) (.get fun t ht => ⟨ht, by rw [ht]⟩)
    fun held hheld => ?_
  cases held with
  | none => exact (fullRebuild_left env hs).result fun _ t ht => .inl ⟨.inl hheld.symm, ht⟩
  | some previous =>
    refine bind_spec (F := fun mark => mark = s.rebuildDirty) (.get fun t ht => ⟨ht, by rw [ht]⟩)
      fun mark hmark => ?_
    split
    · rename_i hmarked
      exact (fullRebuild_left env hs).result fun _ t ht => .inl ⟨.inr (hmark ▸ hmarked), ht⟩
    · rename_i hunmarked
      have hfalse : s.rebuildDirty = false := by simpa [hmark] using hunmarked
      exact (reconcileFrom_spec env hs hheld.symm hfalse).result fun _ t ht =>
        .inr ⟨previous, ht.choose, hheld.symm, hfalse, ht.choose_spec⟩

/-! ## When a reconcile is right -/

/-- The walk lists the entry as a file of the path. -/
def Lists (w : Workspace Name) (entry : List Name × Bool) (path : Path) (metadata : Metadata) : Prop :=
  env.skips entry = false ∧ env.relative entry.1 = some path ∧ w.stat entry.1 = some metadata

theorem scan_fold {entries : List (List Name × Bool)} {first : Snapshot}
    (h : entries.foldlM (scanStep env w) first = some current) :
    (∀ path, first.has path = true → current.has path = true) ∧
      (∀ entry ∈ entries, ∀ path metadata, Lists env w entry path metadata → current.has path = true) ∧
      ∀ path fingerprint, current.get? path = some fingerprint → first.get? path = some fingerprint ∨
        ∃ entry ∈ entries, ∃ metadata, Lists env w entry path metadata ∧
          metadata.fingerprint = fingerprint := by
  induction entries generalizing first with
  | nil =>
    obtain rfl : first = current := Option.some.inj h
    exact ⟨fun _ hp => hp, nofun, fun _ _ hp => .inl hp⟩
  | cons entry rest ih =>
    rw [foldlM_cons] at h
    obtain ⟨next, hnext, hrest⟩ := bind_eq_some_iff.mp h
    obtain ⟨hkept, hlisted, hfrom⟩ := ih hrest
    have hstep : next = first ∧ (∀ path metadata, ¬Lists env w entry path metadata) ∨
        ∃ path metadata, Lists env w entry path metadata ∧ next = first.set path metadata.fingerprint := by
      unfold scanStep at hnext
      split at hnext
      · rename_i hskip
        exact .inl ⟨(Option.some.inj hnext).symm, fun _ _ hl => by simp [hl.1] at hskip⟩
      rename_i hskip
      obtain ⟨path, hpath, rfl⟩ := map_eq_some_iff.mp hnext
      cases hstat : w.stat entry.1 with
      | none => exact .inl ⟨rfl, fun _ _ hl => by simp [hl.2.2] at hstat⟩
      | some metadata =>
        exact .inr ⟨path, metadata, ⟨by simpa using hskip, hpath, hstat⟩, rfl⟩
    rcases hstep with ⟨rfl, hnot⟩ | ⟨path, metadata, hlists, rfl⟩
    · refine ⟨hkept, fun e he => ?_, fun p fp hp => (hfrom p fp hp).imp_right ?_⟩
      · rcases mem_cons.mp he with rfl | he
        · exact fun path metadata hl => absurd hl (hnot path metadata)
        · exact hlisted e he
      · exact fun ⟨e, he, hl⟩ => ⟨e, mem_cons_of_mem _ he, hl⟩
    · have hset : ∀ p, (first.set path metadata.fingerprint).has p = true ↔ p = path ∨ first.has p = true := by
        intro p
        unfold has
        rw [get?_set]
        split <;> simp_all
      refine ⟨fun p hp => hkept p ((hset p).mpr (.inr hp)), fun e he => ?_, fun p fp hp => ?_⟩
      · rcases mem_cons.mp he with rfl | he
        · intro path' metadata' hl
          obtain rfl : path = path' := Option.some.inj (hlists.2.1.symm.trans hl.2.1)
          exact hkept path ((hset path).mpr (.inl rfl))
        · exact hlisted e he
      · rcases hfrom p fp hp with hp | ⟨e, he, hl⟩
        · rw [get?_set] at hp
          split at hp
          · rename_i heq
            subst heq
            exact .inr ⟨entry, mem_cons_self, metadata, hlists, Option.some.inj hp⟩
          · exact .inl hp
        · exact .inr ⟨e, mem_cons_of_mem _ he, hl⟩

theorem lists_of_mem_rebuilt (h : document ∈ rebuilt env w) :
    ∃ entry ∈ w.entries, ∃ metadata, Lists env w entry document.path metadata ∧
      documentAt env w entry.1 = some document := by
  obtain ⟨entry, hentry, hdocument⟩ := mem_filterMap.mp h
  unfold entryDocument at hdocument
  split at hdocument
  · simp at hdocument
  rename_i hskip
  obtain ⟨metadata, hstat, -⟩ := bind_eq_some_iff.mp hdocument
  exact ⟨entry, hentry, metadata, ⟨by simpa using hskip, relative_of_documentAt env hdocument, hstat⟩,
    hdocument⟩

/-- What a reconcile relies on: where the snapshot and the walk agree, the index
    has what a rebuild would add, and where they differ, the file is the one its
    normalized path leads to. -/
def Trusted (w : Workspace Name) (previous current : Snapshot) (index : List Document) : Prop :=
  (∀ path, previous.get? path = current.get? path →
    (docsAt index path).Perm (docsAt (rebuilt env w) path)) ∧
  ∀ path, previous.get? path ≠ current.get? path → current.has path = true →
    (documentAt env w (env.absolute path)).toList.Perm (docsAt (rebuilt env w) path)

theorem perm_rebuilt_iff {before after : List Document}
    (hscan : scanOf env w = some current) (h : Reconciled env w previous current before after) :
    after.Perm (rebuilt env w) ↔ Trusted env w previous current before := by
  rw [perm_iff_docsAt]
  constructor
  · intro hall
    refine ⟨fun path hsame => ?_, fun path hne hhas => ?_⟩
    · have := hall path
      rwa [h path, if_pos hsame] at this
    · have := hall path
      rwa [h path, if_neg hne, if_pos hhas] at this
  · rintro ⟨hsame, hdiffer⟩ path
    rw [h path]
    split
    · exact hsame path ‹_›
    · rename_i hne
      split
      · exact hdiffer path hne ‹_›
      · rename_i hhas
        -- A rebuild adds nothing for a path that the walk does not list.
        have hnil : docsAt (rebuilt env w) path = [] := by
          refine filter_eq_nil_iff.mpr fun document hdocument hpath => hhas ?_
          obtain ⟨entry, hentry, metadata, hlists, -⟩ := lists_of_mem_rebuilt env hdocument
          rw [← of_decide_eq_true hpath]
          exact (scan_fold env hscan).2.1 entry hentry _ metadata hlists
        rw [hnil]

end Cohub.Search
