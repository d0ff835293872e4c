import Cohub.Agent.WriteChain

/-! # The file after a flush

    `Synced` says what the file has once the chain has run, if nothing else
    happens: the entries in memory.  A step keeps it so:

    - An append that queues its line adds the line at the end.  No rewrite that
      is still to serialise may write it as well.
    - An append that queues a rewrite, and everything that replaces memory,
      leave a rewrite at the end of the chain.
    - A task that fails leaves nothing synced, until a rewrite is queued.

    Entries appended while an `archiveAndRewrite` awaits follow its compaction
    in memory, so they are in the chain that replaces memory, unless they were
    appended after the branch was read. -/

namespace Cohub.Agent

open List Option

namespace WriteWorld

variable {w w' : WriteWorld}

/-! ## The chain writes what memory has -/

def Synced (w : WriteWorld) : Prop :=
  w.writeError = false → WriteTask.drain w.manager.lines w.ahead w.base = w.manager.lines

theorem ahead_concat (w : WriteWorld) (task : WriteTask SessionLine) :
    ({ w with queue := w.queue ++ [task] } : WriteWorld).ahead = w.ahead ++ [task] := by
  unfold ahead
  dsimp only
  split <;> rfl

theorem enqueueWrite_of_ok (h : w.writeError = false) (task : WriteTask SessionLine) :
    w.enqueueWrite task = { w with queue := w.queue ++ [task] } := by
  rw [enqueueWrite, if_neg (by simp [h])]

@[simp] theorem enqueueWrite_manager (w : WriteWorld) (task : WriteTask SessionLine) :
    (w.enqueueWrite task).manager = w.manager := by
  unfold enqueueWrite
  split <;> rfl

@[simp] theorem enqueueWrite_call (w : WriteWorld) (task : WriteTask SessionLine) :
    (w.enqueueWrite task).call = w.call := by
  unfold enqueueWrite
  split <;> rfl

theorem synced_rewrite (w : WriteWorld) : (w.enqueueWrite .rewrite).Synced := by
  by_cases herror : w.writeError = true
  · -- nothing is queued, and nothing is promised
    intro hok
    rw [enqueueWrite, if_pos herror, herror] at hok
    cases hok
  · rw [Bool.not_eq_true] at herror
    intro _
    rw [enqueueWrite_of_ok herror, ahead_concat]
    exact WriteTask.drain_concat_rewrite _ _ _

theorem synced_append (w : WriteWorld) (line : SessionLine)
    (h : w.writeError = false →
      WriteTask.drain w.manager.lines w.ahead w.base ++ [line] = w.manager.lines) :
    (w.enqueueWrite (.append line)).Synced := by
  by_cases herror : w.writeError = true
  · intro hok
    rw [enqueueWrite, if_pos herror, herror] at hok
    cases hok
  · rw [Bool.not_eq_true] at herror
    intro _
    rw [enqueueWrite_of_ok herror, ahead_concat]
    exact (WriteTask.drain_concat_append _ _ _ _).trans (h herror)

theorem lines_append (m : SessionFile) (id timestamp : String) (data : EntryData) :
    ({ m with entries := appendAt m.entries id timestamp data } : SessionFile).lines =
      m.lines ++ [.entry { id, parentId := leafId m.entries, timestamp, data }] := by
  simp [SessionFile.lines, appendAt]

theorem Synced.append (h : w.Synced)
    (hcareful : w.fileReady = true → w.writeError = false → WriteTask.rewrite ∉ w.ahead)
    (id timestamp : String) (data : EntryData) : (w.appendEntry id timestamp data).Synced := by
  unfold appendEntry
  dsimp only
  by_cases hready : w.fileReady = true
  · rw [if_pos hready]
    refine synced_append _ _ fun hok => ?_
    have hok' : w.writeError = false := hok
    -- the tasks before do not read memory, so they write the old entries
    rw [lines_append]
    refine congrArg (· ++ [_]) ?_
    exact (WriteTask.drain_congr (hcareful hready hok') _ w.manager.lines w.base).trans (h hok')
  · rw [if_neg hready]
    exact synced_rewrite _

theorem Synced.removeLast (h : w.Synced) : w.removeLastEntry.Synced := by
  unfold removeLastEntry
  split
  · exact h
  · split
    · exact synced_rewrite _
    · exact h

theorem Synced.step (h : w.Synced) {op : WriteOp} (hstep : WriteStep w op w')
    (hcareful : w.Careful op) : w'.Synced := by
  cases hstep with
  | append id timestamp data => exact h.append hcareful id timestamp data
  | rewrite => exact synced_rewrite _
  | removeLastEntry => exact h.removeLast
  | flush => exact h
  | flushReturns => exact h
  | archiveAndRewrite => exact h
  | stopped => exact h
  | flushed => exact h
  | copyFails => exact h
  | swap source now call cut => exact synced_rewrite { w with fileReady := false, manager := _ }
  | settled => exact h
  | rollback => exact synced_rewrite _
  | start task rest hidle hqueue hok =>
    intro _
    have hold := h hok
    unfold ahead base at hold
    rw [hidle, hqueue] at hold
    exact hold
  | skip task rest hidle hqueue herror =>
    intro hok
    exact absurd (show w.writeError = false from hok) (by simp [herror])
  | serialize disk hjob =>
    intro hok
    have hold := h hok
    unfold ahead base at hold
    rw [hjob] at hold
    exact hold
  | written lines hjob =>
    intro hok
    have hold := h hok
    unfold ahead base at hold
    rw [hjob] at hold
    exact hold
  | appended line hjob =>
    intro hok
    have hold := h hok
    unfold ahead base at hold
    rw [hjob] at hold
    exact hold
  | fails job disk => exact nofun
  | streamError => exact nofun

theorem Synced.quiet (h : w.Synced) (hok : w.writeError = false) (hquiet : w.Quiet) :
    w.disk = w.manager.lines := by
  have hdone := h hok
  unfold ahead base at hdone
  rw [hquiet.1, hquiet.2] at hdone
  exact hdone

theorem Start.synced (h : Start w) : w.Synced := by
  cases h with
  | created header => exact fun _ => rfl
  | opened m => exact fun _ => rfl

/-! ## Entries that are awaited -/

/-- A chain of entries with ids of their own. -/
structure Chained (entries : List SessionEntry) : Prop where
  linear   : Linear entries
  nodup    : (ids entries).Nodup
  nonempty : "" ∉ ids entries

variable {entries : List SessionEntry} {entry : SessionEntry} {cut : CompactionCut}
    {call : ArchiveCall}

theorem Has.of_subset {entries' : List SessionEntry}
    (h : Has entries entry) (hsubset : entries ⊆ entries') : Has entries' entry := by
  obtain ⟨same, hmem, hsame⟩ := h
  exact ⟨same, hsubset hmem, hsame⟩

variable {removed : SessionEntry} {source : IdSource}

theorem Has.of_concat
    (h : Has (entries ++ [removed]) entry) (hne : entry.id ≠ removed.id) : Has entries entry := by
  obtain ⟨same, hmem, hid, hdata⟩ := h
  rcases mem_append.mp hmem with hold | hnew
  · exact ⟨same, hold, hid, hdata⟩
  · exact absurd (hid.symm.trans (congrArg SessionEntry.id (mem_singleton.mp hnew))) hne

theorem Chained.concat {entries : List SessionEntry} (h : Chained entries) {id timestamp : String}
    {data : EntryData} (hnonempty : id ≠ "") (hfresh : id ∉ ids entries) :
    Chained (appendAt entries id timestamp data) where
  linear := h.linear.concat rfl
  nodup := by
    rw [appendAt, ids_concat]
    exact nodup_append.mpr ⟨h.nodup, nodup_singleton _, fun a ha b hb heq =>
      hfresh (by rwa [heq, mem_singleton.mp hb] at ha)⟩
  nonempty := by
    rw [appendAt, ids_concat, mem_append, mem_singleton, not_or]
    exact ⟨h.nonempty, fun heq => hnonempty heq.symm⟩

theorem Chained.of_concat (h : Chained (entries ++ [entry])) : Chained entries := by
  obtain ⟨hlinear, hnodup, hnonempty⟩ := h
  rw [ids_concat] at hnodup hnonempty
  exact ⟨hlinear.of_concat.1, (nodup_append.mp hnodup).1,
    fun hmem => hnonempty (mem_append_left _ hmem)⟩

theorem Chained.branch (h : Chained entries) : getBranch entries = entries :=
  (h.linear.wellLinked h.nodup h.nonempty).2

theorem Chained.rewriteChain (h : Chained cut.branch)
    (hsource : ∀ existing, source.generate existing ∉ ids cut.branch) (now : String)
    (existing : List String) : Chained (rewriteChain source now existing cut) := by
  have hids := @rewriteChain_ids source now existing cut h.nodup h.nonempty <| by
    intro id hid
    obtain ⟨entry, hentry, rfl⟩ := List.mem_map.mp hid
    obtain ⟨taken, htaken⟩ := createSettingEntries_generated entry hentry
    rw [htaken]
    exact hsource taken
  exact ⟨linear_rechain _, hids.1, hids.2⟩

theorem rechain_has (parentId : Option String)
    (h : entry ∈ entries) : Has (rechain parentId entries) entry := by
  induction entries generalizing parentId with
  | nil => cases h
  | cons first rest ih =>
    rcases mem_cons.mp h with rfl | hrest
    · exact ⟨_, mem_cons_self, rfl, rfl⟩
    · exact (ih _ hrest).of_subset (subset_cons_self _ _)

theorem Has.rewriteChain (h : Has cut.after entry) (source : IdSource) (now : String)
    (existing : List String) : Has (rewriteChain source now existing cut) entry := by
  obtain ⟨same, hmem, hid, hdata⟩ := h
  have hchain : same ∈ cut.compaction :: createSettingEntries source existing now
      (resolveSessionSettings cut.dropped) ++ cut.kept.filter (!·.isCompaction) ++ cut.after :=
    mem_append_right _ hmem
  obtain ⟨linked, hlinked, hid', hdata'⟩ := rechain_has none hchain
  exact ⟨linked, hlinked, hid'.trans hid, hdata'.trans hdata⟩

/-- Where the awaited entries are, for each phase of the call. -/
def PhaseInv (w : WriteWorld) (call : ArchiveCall) : Prop :=
  match call.phase with
  | .flushing _ => ∀ before compaction after, w.manager.entries = before ++ compaction :: after →
      compaction.id = call.compactionEntryId → ∀ entry ∈ call.awaited, Has after entry
  | .copying cut late => Chained cut.branch ∧ ∀ entry ∈ call.awaited, entry ∈ late ∨ Has cut.after entry
  | .settling _ saved late => Chained saved.entries ∧
      ∀ entry ∈ call.awaited, entry ∈ late ∨ Has saved.entries entry

structure Inv (w : WriteWorld) : Prop where
  synced  : w.Synced
  chained : Chained w.manager.entries
  awaited : ∀ call ∈ w.call, ∀ entry ∈ call.awaited, Has w.manager.entries entry
  phase   : ∀ call ∈ w.call, w.PhaseInv call

theorem Start.inv (h : Start w) : w.Inv := by
  refine ⟨h.synced, ?_, ?_, ?_⟩
  · cases h with
    | created header => exact ⟨rfl, nodup_nil, not_mem_nil⟩
    | opened m hlinear hnodup hnonempty => exact ⟨hlinear, hnodup, hnonempty⟩
  · cases h <;> exact fun call hcall => nomatch hcall
  · cases h <;> exact fun call hcall => nomatch hcall

/-! ## Steps of memory -/

theorem Inv.frame (h : w.Inv) (hsynced : w'.Synced) (hmanager : w'.manager = w.manager)
    (hcall : w'.call = w.call) : w'.Inv where
  synced := hsynced
  chained := hmanager ▸ h.chained
  awaited := by
    rw [hmanager, hcall]
    exact h.awaited
  phase := by
    rw [hcall]
    unfold PhaseInv
    rw [hmanager]
    exact h.phase

theorem Inv.ended (h : w.Inv) (hsynced : w'.Synced) (hmanager : w'.manager = w.manager)
    (hcall : w'.call = none) : w'.Inv where
  synced := hsynced
  chained := hmanager ▸ h.chained
  awaited := by
    rw [hcall]
    exact fun call hnone => nomatch hnone
  phase := by
    rw [hcall]
    exact fun call hnone => nomatch hnone

theorem after_concat {before after : List SessionEntry} {compaction : SessionEntry}
    (hsplit : entries ++ [entry] = before ++ compaction :: after) (hne : compaction.id ≠ entry.id) :
    ∃ rest, after = rest ++ [entry] ∧ entries = before ++ compaction :: rest := by
  rcases eq_nil_or_concat after with rfl | ⟨rest, last, rfl⟩
  · obtain rfl := singleton_inj.mp (append_inj' hsplit rfl).2
    exact absurd rfl hne
  · rw [concat_eq_append, ← cons_append, ← append_assoc] at hsplit
    obtain ⟨hentries, hlast⟩ := append_inj' hsplit rfl
    obtain rfl := singleton_inj.mp hlast
    exact ⟨rest, concat_eq_append, hentries⟩

theorem Inv.append (h : w.Inv) {id timestamp : String} {data : EntryData} (hnonempty : id ≠ "")
    (hfresh : id ∉ ids w.manager.entries) (hcall : ∀ call ∈ w.call, id ≠ call.compactionEntryId)
    (hsynced : (w.appendEntry id timestamp data).Synced) :
    (w.appendEntry id timestamp data).Inv := by
  let entry : SessionEntry := { id, parentId := leafId w.manager.entries, timestamp, data }
  have hentries : (w.appendEntry id timestamp data).manager.entries = w.manager.entries ++ [entry] := by
    rw [appendEntry, enqueueWrite_manager]
    rfl
  have hself : Has (w.manager.entries ++ [entry]) entry :=
    ⟨entry, mem_concat_self, rfl, rfl⟩
  refine ⟨hsynced, ?_, ?_, ?_⟩
  · rw [hentries]
    exact h.chained.concat hnonempty hfresh
  · intro call' hcall' e he
    rw [appendEntry, enqueueWrite_call] at hcall'
    obtain ⟨call, hsome, rfl⟩ := map_eq_some_iff.mp hcall'
    rw [hentries]
    rcases mem_append.mp he with hold | hnew
    · exact (h.awaited call hsome e hold).of_subset (subset_append_left _ _)
    · rw [mem_singleton.mp hnew]
      exact hself
  · intro call' hcall'
    rw [appendEntry, enqueueWrite_call] at hcall'
    obtain ⟨call, hsome, rfl⟩ := map_eq_some_iff.mp hcall'
    have hphase := h.phase call hsome
    obtain ⟨compactionEntryId, firstKeptEntryId, awaited, phase⟩ := call
    unfold PhaseInv at hphase ⊢
    rw [hentries]
    cases phase with
    | flushing remaining =>
      intro before compaction after hsplit hid e he
      have hne : compaction.id ≠ entry.id := fun heq => hcall _ hsome (heq.symm.trans hid)
      obtain ⟨rest, rfl, hrest⟩ := after_concat hsplit hne
      rcases mem_append.mp he with hold | hnew
      · exact (hphase before compaction rest hrest hid e hold).of_subset
          (subset_append_left _ _)
      · rw [mem_singleton.mp hnew]
        exact ⟨entry, mem_concat_self, rfl, rfl⟩
    | copying cut late =>
      refine ⟨hphase.1, fun e he => ?_⟩
      rcases mem_append.mp he with hold | hnew
      · exact (hphase.2 e hold).imp_left (mem_append_left _)
      · exact .inl (mem_append_right _ hnew)
    | settling remaining saved late =>
      refine ⟨hphase.1, fun e he => ?_⟩
      rcases mem_append.mp he with hold | hnew
      · exact (hphase.2 e hold).imp_left (mem_append_left _)
      · exact .inl (mem_append_right _ hnew)

theorem mem_without :
    entry ∈ ArchiveCall.without removed entries ↔ entry ∈ entries ∧ entry.id ≠ removed.id := by
  rw [ArchiveCall.without, mem_filter, decide_eq_true_iff]

theorem Inv.removeLast (h : w.Inv) (hsynced : w.removeLastEntry.Synced) :
    w.removeLastEntry.Inv := by
  have hentries := h.chained
  unfold removeLastEntry at hsynced ⊢
  cases hlast : w.manager.entries.getLast? with
  | none => exact h
  | some removed =>
    rw [hlast] at hsynced
    dsimp only at hsynced ⊢
    by_cases hcompaction : removed.isCompaction = true
    · rw [if_pos hcompaction] at hsynced ⊢
      obtain ⟨entries, hsplit⟩ : ∃ entries, w.manager.entries = entries ++ [removed] :=
        getLast?_eq_some_iff.mp hlast
      have hmanager : w.manager.removeLastEntry.entries = entries := by
        unfold SessionFile.removeLastEntry
        rw [hlast]
        dsimp only
        rw [if_pos hcompaction]
        simp [hsplit]
      have hchained : Chained entries := by
        rw [hsplit] at hentries
        exact hentries.of_concat
      refine ⟨hsynced, ?_, ?_, ?_⟩
      · rw [enqueueWrite_manager]
        exact hmanager.symm ▸ hchained
      · intro call' hcall' e he
        rw [enqueueWrite_call] at hcall'
        obtain ⟨call, hsome, rfl⟩ := map_eq_some_iff.mp hcall'
        rw [enqueueWrite_manager]
        dsimp only
        rw [hmanager]
        obtain ⟨hold, hne⟩ := mem_without.mp he
        have hhas := h.awaited call hsome e hold
        rw [hsplit] at hhas
        exact hhas.of_concat hne
      · intro call' hcall'
        rw [enqueueWrite_call] at hcall'
        obtain ⟨call, hsome, rfl⟩ := map_eq_some_iff.mp hcall'
        have hphase := h.phase call hsome
        obtain ⟨compactionEntryId, firstKeptEntryId, awaited, phase⟩ := call
        unfold PhaseInv at hphase ⊢
        rw [enqueueWrite_manager]
        cases phase with
        | flushing remaining =>
          intro before compaction after hrest hid e he
          obtain ⟨hold, hne⟩ := mem_without.mp he
          refine Has.of_concat (hphase before compaction (after ++ [removed]) ?_ hid e hold) hne
          rw [hsplit, ← hmanager, hrest, append_assoc, cons_append]
        | copying cut late =>
          refine ⟨hphase.1, fun e he => ?_⟩
          obtain ⟨hold, hne⟩ := mem_without.mp he
          exact (hphase.2 e hold).imp_left fun hlate => mem_without.mpr ⟨hlate, hne⟩
        | settling remaining saved late =>
          refine ⟨hphase.1, fun e he => ?_⟩
          obtain ⟨hold, hne⟩ := mem_without.mp he
          exact (hphase.2 e hold).imp_left fun hlate => mem_without.mpr ⟨hlate, hne⟩
    · rw [if_neg hcompaction]
      exact h

theorem Inv.flushed (h : w.Inv)
    (hcall : w.call = some call) (hphase : call.phase = .flushing 0)
    (hcut : cutBranch (getBranch w.manager.entries) call.compactionEntryId call.firstKeptEntryId =
      some cut) :
    ({ w with call := some { call with phase := .copying cut [] } } : WriteWorld).Inv := by
  rw [h.chained.branch] at hcut
  obtain ⟨hbranch, hid, -, -⟩ := cutBranch_some hcut
  have hold := h.phase call hcall
  unfold PhaseInv at hold
  rw [hphase] at hold
  refine ⟨h.synced, h.chained, ?_, ?_⟩
  · intro call' hcall'
    obtain rfl := Option.some.inj hcall'
    exact h.awaited call hcall
  · intro call' hcall'
    obtain rfl := Option.some.inj hcall'
    refine ⟨?_, fun e he => .inr (hold _ _ _ hbranch hid e he)⟩
    show Chained (cut.dropped ++ cut.kept ++ cut.compaction :: cut.after)
    rw [← hbranch]
    exact h.chained

theorem Inv.swap (h : w.Inv) (hcall : w.call = some call) (hphase : call.phase = .copying cut [])
    (hsource : ∀ existing, source.generate existing ∉ ids cut.branch) (now : String)
    (hsynced : (w.swap source now call cut).Synced) : (w.swap source now call cut).Inv := by
  have hold := h.phase call hcall
  unfold PhaseInv at hold
  rw [hphase] at hold
  have hafter : ∀ e ∈ call.awaited, Has cut.after e := fun e he =>
    (hold.2 e he).resolve_left not_mem_nil
  have hmanager : (w.swap source now call cut).manager.entries =
      rewriteChain source now (ids w.manager.entries) cut := by
    show (enqueueWrite _ _).manager.entries = _
    rw [enqueueWrite_manager]
  refine ⟨hsynced, ?_, ?_, ?_⟩
  · rw [hmanager]
    exact hold.1.rewriteChain hsource now _
  · intro call' hcall' e he
    obtain rfl := Option.some.inj hcall'
    rw [hmanager]
    exact (hafter e he).rewriteChain source now _
  · intro call' hcall'
    obtain rfl := Option.some.inj hcall'
    exact ⟨h.chained, fun e he => .inr (h.awaited call hcall e he)⟩

theorem Inv.rollback (h : w.Inv) {saved : SessionFile} {late : List SessionEntry}
    (hcall : w.call = some call) (hphase : call.phase = .settling 0 saved late) :
    (w.rollback saved).Inv := by
  have hold := h.phase call hcall
  unfold PhaseInv at hold
  rw [hphase] at hold
  refine ⟨synced_rewrite _, ?_, ?_, ?_⟩
  · rw [WriteWorld.rollback, enqueueWrite_manager]
    exact hold.1
  · rw [WriteWorld.rollback, enqueueWrite_call]
    exact fun call hnone => nomatch hnone
  · rw [WriteWorld.rollback, enqueueWrite_call]
    exact fun call hnone => nomatch hnone

theorem Inv.settle (h : w.Inv) (hsynced : w'.Synced) (hmanager : w'.manager = w.manager)
    (hcall : w'.call = w.call.map ArchiveCall.settledTask) : w'.Inv where
  synced := hsynced
  chained := hmanager ▸ h.chained
  awaited := by
    rw [hmanager, hcall]
    intro call' hcall'
    obtain ⟨call, hsome, rfl⟩ := map_eq_some_iff.mp hcall'
    exact h.awaited call hsome
  phase := by
    rw [hcall]
    intro call' hcall'
    obtain ⟨call, hsome, rfl⟩ := map_eq_some_iff.mp hcall'
    have hphase := h.phase call hsome
    obtain ⟨compactionEntryId, firstKeptEntryId, awaited, phase⟩ := call
    unfold PhaseInv at hphase ⊢
    rw [hmanager]
    cases phase <;> exact hphase

theorem Inv.step (h : w.Inv) {op : WriteOp} (hstep : WriteStep w op w') (hcareful : w.Careful op) :
    w'.Inv := by
  have hsynced := h.synced.step hstep hcareful
  cases hstep with
  | append id timestamp data hnonempty hfresh hcall => exact h.append hnonempty hfresh hcall hsynced
  | rewrite => exact h.frame hsynced (enqueueWrite_manager _ _) (enqueueWrite_call _ _)
  | removeLastEntry => exact h.removeLast hsynced
  | flush => exact h.frame hsynced rfl rfl
  | flushReturns => exact h.frame hsynced rfl rfl
  | archiveAndRewrite compactionEntryId firstKeptEntryId hcall =>
    refine ⟨hsynced, h.chained, ?_, ?_⟩
    · intro call hsome e he
      obtain rfl := Option.some.inj hsome
      cases he
    · intro call hsome
      obtain rfl := Option.some.inj hsome
      intro before compaction after _ _ e he
      cases he
  | stopped => exact h.ended hsynced rfl rfl
  | flushed call cut hcall hphase hok hcut => exact h.flushed hcall hphase hcut
  | copyFails => exact h.ended hsynced rfl rfl
  | swap source now call cut late hcall hphase hcompaction hsource =>
    obtain rfl := hcareful call hcall cut late hphase
    exact h.swap hcall hphase hsource now hsynced
  | settled => exact h.ended hsynced rfl rfl
  | rollback call saved late hcall hphase => exact h.rollback hcall hphase
  | start => exact h.frame hsynced rfl rfl
  | skip => exact h.settle hsynced rfl rfl
  | serialize => exact h.frame hsynced rfl rfl
  | written => exact h.settle hsynced rfl rfl
  | appended => exact h.settle hsynced rfl rfl
  | fails => exact h.settle hsynced rfl rfl
  | streamError => exact h.frame hsynced rfl rfl

/-! ## Runs -/

/-- States of careful runs. -/
def Reached (start : WriteWorld) : WriteWorld → Prop :=
  Relation.ReflTransGen (fun w w' => ∃ op, WriteStep w op w' ∧ w.Careful op) start

theorem Reached.inv {start : WriteWorld} (hstart : Start start) (h : Reached start w) : w.Inv := by
  induction h with
  | refl => exact hstart.inv
  | tail _ hstep ih =>
    obtain ⟨op, hstep, hcareful⟩ := hstep
    exact ih.step hstep hcareful

theorem Inv.keeps (h : w.Inv) {op : WriteOp} (hstep : WriteStep w op w') (hcareful : w.Careful op)
    (hcall : w.call = some call) (hentry : entry ∈ call.awaited) :
    Has w'.manager.entries entry ∨
      op = .removeLastEntry ∧ leafId w.manager.entries = some entry.id := by
  have hhas := h.awaited call hcall entry hentry
  have hnext := h.step hstep hcareful
  cases hstep with
  | append id timestamp data =>
    left
    rw [appendEntry, enqueueWrite_manager]
    exact hhas.of_subset (subset_append_left _ _)
  | rewrite =>
    left
    rw [WriteWorld.rewrite, enqueueWrite_manager]
    exact hhas
  | removeLastEntry =>
    by_cases hlast : leafId w.manager.entries = some entry.id
    · exact .inr ⟨rfl, hlast⟩
    · left
      unfold removeLastEntry
      split
      · exact hhas
      · next removed hremoved =>
        split
        · next hcompaction =>
          rw [enqueueWrite_manager]
          obtain ⟨entries, hsplit⟩ := getLast?_eq_some_iff.mp hremoved
          have hne : entry.id ≠ removed.id := by
            intro heq
            rw [leafId, hremoved, heq] at hlast
            exact hlast rfl
          show Has w.manager.removeLastEntry.entries entry
          unfold SessionFile.removeLastEntry
          rw [hremoved]
          dsimp only
          rw [if_pos hcompaction, hsplit, dropLast_concat]
          exact (hsplit ▸ hhas).of_concat hne
        · exact hhas
  | swap source now call' cut late hcall' hphase =>
    left
    obtain rfl := Option.some.inj (hcall.symm.trans hcall')
    exact hnext.awaited _ rfl entry hentry
  | rollback call' saved late hcall' hphase =>
    left
    obtain rfl := Option.some.inj (hcall.symm.trans hcall')
    obtain rfl := hcareful call hcall 0 saved late hphase
    have hsaved := h.phase call hcall
    unfold PhaseInv at hsaved
    rw [hphase] at hsaved
    rw [WriteWorld.rollback, enqueueWrite_manager]
    exact (hsaved.2 entry hentry).resolve_left not_mem_nil
  | flush => exact .inl hhas
  | flushReturns => exact .inl hhas
  | archiveAndRewrite => exact .inl hhas
  | stopped => exact .inl hhas
  | flushed => exact .inl hhas
  | copyFails => exact .inl hhas
  | settled => exact .inl hhas
  | start => exact .inl hhas
  | skip => exact .inl hhas
  | serialize => exact .inl hhas
  | written => exact .inl hhas
  | appended => exact .inl hhas
  | fails => exact .inl hhas
  | streamError => exact .inl hhas

/-- In careful runs the file has what memory has when a flush returns and no
    write is left, and no entry is lost that was appended while an
    `archiveAndRewrite` awaits. -/
theorem session_file_equals_memory {start : WriteWorld} (hstart : Start start)
    (hreached : Reached start w) {op : WriteOp} (hstep : WriteStep w op w')
    (hcareful : w.Careful op) :
    (op.flushes → w.writeError = false → w.Quiet → w.disk = w.manager.lines) ∧
      ∀ call ∈ w.call, ∀ entry ∈ call.awaited, Has w'.manager.entries entry ∨
        op = .removeLastEntry ∧ leafId w.manager.entries = some entry.id := by
  have hinv := hreached.inv hstart
  exact ⟨fun _ hok hquiet => hinv.synced.quiet hok hquiet,
    fun call hcall entry hentry => hinv.keeps hstep hcareful hcall hentry⟩

/-! ## Careless runs -/

def AnyRun (start : WriteWorld) : WriteWorld → Prop :=
  Relation.ReflTransGen (fun w w' => ∃ op, WriteStep w op w') start

def sampleData : EntryData := .message sampleMessage

/-- Two messages and a compaction that keeps the second. -/
def sampleFile : SessionFile :=
  { sampleManager sampleData with
    entries := appendAt (sampleManager sampleData).entries "c" "t" (.compaction sampleCompaction) }

def sampleCut : CompactionCut where
  dropped := [{ id := "a", parentId := none, timestamp := "t", data := sampleData }]
  kept := [{ id := "b", parentId := some "a", timestamp := "t", data := sampleData }]
  compaction := { id := "c", parentId := some "b", timestamp := "t",
                  data := .compaction sampleCompaction }
  after := []

def opened : WriteWorld where
  manager := sampleFile
  fileReady := true
  writeError := false
  current := none
  queue := []
  disk := sampleFile.lines
  flushes := []
  call := none

def created : WriteWorld where
  manager := { header := sampleFile.header, entries := [] }
  fileReady := false
  writeError := false
  current := none
  queue := [.rewrite]
  disk := []
  flushes := []
  call := none

theorem start_opened : Start opened :=
  .opened sampleFile rfl (by decide +kernel) (by decide +kernel)

def writtenTwice : WriteWorld :=
  let entry (id : String) (parentId : Option String) : SessionEntry :=
    { id, parentId, timestamp := "t", data := sampleData }
  { created with
    manager := { header := sampleFile.header, entries := [entry "d" none, entry "e" (some "d")] },
    fileReady := true, queue := [],
    disk := [.header sampleFile.header, .entry (entry "d" none), .entry (entry "e" (some "d")),
      .entry (entry "e" (some "d"))],
    flushes := [0] }

theorem anyRun_writtenTwice : AnyRun created writtenTwice :=
  ((((((((((Relation.ReflTransGen.refl.tail ⟨_, .append "d" "t" sampleData (by decide) (by decide) nofun⟩).tail
    ⟨_, .start _ _ rfl rfl rfl⟩).tail
    ⟨_, .serialize [] rfl⟩).tail
    ⟨_, .written _ rfl⟩).tail
    -- the first rewrite is done, the second has not begun
    ⟨_, .append "e" "t" sampleData (by decide) (by decide) nofun⟩).tail
    ⟨_, .start _ _ rfl rfl rfl⟩).tail
    ⟨_, .serialize [] rfl⟩).tail
    ⟨_, .written _ rfl⟩).tail
    ⟨_, .start _ _ rfl rfl rfl⟩).tail
    ⟨_, .appended _ rfl⟩).tail
    ⟨_, .flush⟩

/-- An entry that is appended while the file is copied. -/
def lateEntry : SessionEntry where
  id := "d"
  parentId := some "c"
  timestamp := "t"
  data := sampleData

def sampleCall (phase : ArchivePhase) (awaited : List SessionEntry) : ArchiveCall where
  compactionEntryId := "c"
  firstKeptEntryId := "b"
  awaited := awaited
  phase := phase

def copying : WriteWorld where
  manager := { sampleFile with entries := sampleFile.entries ++ [lateEntry] }
  fileReady := true
  writeError := false
  current := none
  queue := [.append (.entry lateEntry)]
  disk := sampleFile.lines
  flushes := []
  call := some (sampleCall (.copying sampleCut [lateEntry]) [lateEntry])

theorem late_ne (phase : ArchivePhase) : ∀ call ∈ some (sampleCall phase []),
    "d" ≠ call.compactionEntryId := by
  intro call hcall
  obtain rfl := Option.some.inj hcall
  exact show "d" ≠ "c" by decide

theorem anyRun_copying : AnyRun opened copying :=
  ((Relation.ReflTransGen.refl.tail ⟨_, .archiveAndRewrite "c" "b" rfl⟩).tail
    ⟨_, .flushed _ sampleCut rfl rfl rfl rfl⟩).tail
    ⟨_, .append "d" "t" sampleData (by decide) (by decide) (late_ne _)⟩

theorem sampleCut_unseen (existing : List String) : longerIds.generate existing ∉ ids sampleCut.branch :=
  longerId_not_mem existing

/-- Neither half holds of any run.  A file is written by two rewrites, and an
    append between them is written twice.  What is appended while the file is
    copied is not in the entries that replace memory. -/
theorem careless_runs :
    (¬ ∀ start w : WriteWorld, Start start → AnyRun start w → ∀ op w', WriteStep w op w' →
      op.flushes → w.writeError = false → w.Quiet → w.disk = w.manager.lines) ∧
    ¬ ∀ start w : WriteWorld, Start start → AnyRun start w → ∀ op w', WriteStep w op w' →
      ∀ call ∈ w.call, ∀ entry ∈ call.awaited, Has w'.manager.entries entry ∨
        op = .removeLastEntry ∧ leafId w.manager.entries = some entry.id := by
  constructor
  · intro hall
    refine absurd (hall created writtenTwice (.created _) anyRun_writtenTwice .flushReturns _
      (.flushReturns [] [] rfl) (.inl rfl) rfl ⟨rfl, rfl⟩) ?_
    decide +kernel
  · intro hall
    rcases hall opened copying start_opened anyRun_copying .swap _
      (.swap longerIds "u" _ sampleCut _ rfl rfl rfl sampleCut_unseen) _ rfl lateEntry
      (List.mem_singleton_self _) with ⟨same, hmem, hid, -⟩ | ⟨hop, -⟩
    · have hids : "d" ∈ ids (rewriteChain longerIds "u" (ids copying.manager.entries) sampleCut) :=
        List.mem_map.mpr ⟨same, hmem, hid⟩
      exact absurd hids (by decide +kernel)
    · cases hop

/-- An entry that is appended while the chain is flushed. -/
theorem session_file_equals_memory_flushing :
    ∃ w : WriteWorld, Reached opened w ∧ w.disk = w.manager.lines ∧
      Has w.manager.entries lateEntry := by
  let line : WriteWorld := { opened with
    manager := { sampleFile with entries := sampleFile.entries ++ [lateEntry] },
    disk := sampleFile.lines ++ [.entry lateEntry],
    flushes := [0],
    call := some (sampleCall (.flushing 0) [lateEntry]) }
  have hreached : Reached opened line :=
    (((((Relation.ReflTransGen.refl.tail ⟨.archiveAndRewrite, .archiveAndRewrite "c" "b" rfl, trivial⟩).tail
      ⟨.append, .append "d" "t" sampleData (by decide) (by decide) (late_ne _), fun _ _ => List.not_mem_nil⟩).tail
      ⟨.start, .start _ _ rfl rfl rfl, trivial⟩).tail
      ⟨.finish, .appended _ rfl, trivial⟩).tail
      ⟨.flush, .flush, trivial⟩)
  obtain ⟨hfile, hkept⟩ := session_file_equals_memory start_opened hreached
    (.flushReturns [] [] rfl) trivial
  refine ⟨line, hreached, hfile (.inl rfl) rfl ⟨rfl, rfl⟩, ?_⟩
  exact (hkept _ rfl lateEntry (List.mem_singleton_self _)).resolve_right fun hop => nomatch hop.1

end WriteWorld

end Cohub.Agent
