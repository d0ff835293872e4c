import Mathlib.Data.List.TakeWhile
import Cohub.Agent.SessionManager

/-! # What the model sees of a rewrite

    Before a rewrite the entries that a compaction keeps stand before it, with
    older compactions among them; after it they follow the compaction and the
    pinned settings.  Both layouts give the same messages and the same model.
    The thinking level is the same unless the dropped entries leave an empty
    one, which is not pinned, and no kept entry sets another. -/

namespace Cohub.Agent

open List

/-! ## What does not depend on links -/

/-- An entry without its link. -/
def SessionEntry.unlink (entry : SessionEntry) : SessionEntry := { entry with parentId := none }

theorem map_unlink_rechain (parentId : Option String) (entries : List SessionEntry) :
    (rechain parentId entries).map SessionEntry.unlink = entries.map SessionEntry.unlink := by
  induction entries generalizing parentId with
  | nil => rfl
  | cons entry rest ih => exact congrArg (entry.unlink :: ·) (ih _)

variable (entries : List SessionEntry)

theorem resolveSessionSettings_unlink :
    resolveSessionSettings (entries.map SessionEntry.unlink) = resolveSessionSettings entries := by
  rw [resolveSessionSettings, foldl_map]
  rfl

theorem splitAtCompaction_unlink :
    splitAtCompaction (entries.map SessionEntry.unlink) =
      (splitAtCompaction entries).map fun found =>
        (found.1.map SessionEntry.unlink, found.2.1.unlink, found.2.2.1,
          found.2.2.2.map SessionEntry.unlink) := by
  induction entries with
  | nil => rfl
  | cons entry rest ih =>
    rw [map_cons]
    unfold splitAtCompaction
    rw [ih]
    cases splitAtCompaction rest with
    | some found => rfl
    | none =>
      show entry.compaction?.map _ = (entry.compaction?.map _).map _
      rw [Option.map_map]
      rfl

theorem dropWhile_unlink (id : String) (entries : List SessionEntry) :
    (entries.map SessionEntry.unlink).dropWhile (fun e => e.id ≠ id) =
      (entries.dropWhile fun e => e.id ≠ id).map SessionEntry.unlink := by
  rw [dropWhile_map]
  rfl

variable (branch : List SessionEntry)

theorem resolveCompactedBranch_unlink :
    resolveCompactedBranch (branch.map SessionEntry.unlink) =
      { compaction := (resolveCompactedBranch branch).compaction.map fun found =>
          (found.1.unlink, found.2),
        kept := (resolveCompactedBranch branch).kept.map SessionEntry.unlink } := by
  unfold resolveCompactedBranch
  rw [splitAtCompaction_unlink]
  rcases splitAtCompaction branch with _ | ⟨before, entry, compaction, after⟩
  · rfl
  · simp only [Option.map_some, dropWhile_unlink, map_eq_nil_iff]
    split
    · rfl
    split
    · simp
    · simp

theorem contextOfBranch_unlink :
    contextOfBranch (branch.map SessionEntry.unlink) = contextOfBranch branch := by
  unfold contextOfBranch
  rw [resolveCompactedBranch_unlink, resolveSessionSettings_unlink]
  simp only [Option.map_map, filterMap_map]
  rfl

theorem piMessages_unlink (seq : Nat) (entries : List SessionEntry) :
    piMessages seq (entries.map SessionEntry.unlink) =
      (piMessages seq entries).map PiEntry.unlinked := by
  induction entries generalizing seq with
  | nil => rfl
  | cons entry rest ih =>
    rw [map_cons]
    unfold piMessages
    rw [show entryToContextMessage entry.unlink = entryToContextMessage entry from rfl]
    cases entryToContextMessage entry with
    | none => exact ih seq
    | some message => exact congrArg _ (ih (seq + 1))

theorem compactionEntriesOfBranch_unlink :
    compactionEntriesOfBranch (branch.map SessionEntry.unlink) =
      (compactionEntriesOfBranch branch).map PiEntry.unlinked := by
  unfold compactionEntriesOfBranch
  rw [resolveCompactedBranch_unlink]
  rcases resolveCompactedBranch branch with ⟨_ | ⟨entry, compaction⟩, kept⟩
  · exact piMessages_unlink 0 kept
  · exact congrArg _ (piMessages_unlink 1 kept)

/-! ## The two layouts -/

theorem splitAtCompaction_none {entries : List SessionEntry}
    (h : ∀ entry ∈ entries, entry.isCompaction = false) : splitAtCompaction entries = none := by
  induction entries with
  | nil => rfl
  | cons entry rest ih =>
    have hentry : entry.compaction? = none := by
      simpa [SessionEntry.isCompaction] using h entry mem_cons_self
    rw [splitAtCompaction, ih fun e he => h e (mem_cons_of_mem _ he)]
    simp [hentry]

variable {entry : SessionEntry} {compaction : Compaction}

theorem splitAtCompaction_concat
    (hentry : entry.compaction? = some compaction) (before : List SessionEntry) :
    splitAtCompaction (before ++ [entry]) = some (before, entry, compaction, []) := by
  induction before with
  | nil => simp [splitAtCompaction, hentry]
  | cons first rest ih =>
    rw [cons_append, splitAtCompaction, ih]

theorem splitAtCompaction_root (hentry : entry.compaction? = some compaction)
    {rest : List SessionEntry} (hrest : ∀ entry ∈ rest, entry.isCompaction = false) :
    splitAtCompaction (entry :: rest) = some ([], entry, compaction, rest) := by
  rw [splitAtCompaction, splitAtCompaction_none hrest]
  simp [hentry]

theorem scanSetting_compaction (h : entry.isCompaction = true)
    (settings : SessionSettings) : scanSetting settings entry = settings := by
  obtain ⟨id, parentId, timestamp, data⟩ := entry
  cases data <;> first | rfl | cases h

theorem contextMessage_compaction (h : entry.isCompaction = true) :
    entryToContextMessage entry = none := by
  obtain ⟨id, parentId, timestamp, data⟩ := entry
  cases data <;> first | rfl | cases h

theorem foldl_scanSetting_filter (settings : SessionSettings) (entries : List SessionEntry) :
    (entries.filter (!·.isCompaction)).foldl scanSetting settings =
      entries.foldl scanSetting settings := by
  induction entries generalizing settings with
  | nil => rfl
  | cons entry rest ih =>
    by_cases h : entry.isCompaction = true
    · rw [filter_cons_of_neg (by simp [h]), foldl_cons, scanSetting_compaction h, ih]
    · rw [filter_cons_of_pos (by simp [h]), foldl_cons, foldl_cons, ih]

theorem filterMap_contextMessage_filter :
    (entries.filter (!·.isCompaction)).filterMap entryToContextMessage =
      entries.filterMap entryToContextMessage := by
  induction entries with
  | nil => rfl
  | cons entry rest ih =>
    by_cases h : entry.isCompaction = true
    · rw [filter_cons_of_neg (by simp [h]), filterMap_cons_none
        (contextMessage_compaction h), ih]
    · rw [filter_cons_of_pos (by simp [h]), filterMap_cons, filterMap_cons, ih]

theorem piMessages_filter (seq : Nat) (entries : List SessionEntry) :
    piMessages seq (entries.filter (!·.isCompaction)) = piMessages seq entries := by
  induction entries generalizing seq with
  | nil => rfl
  | cons entry rest ih =>
    by_cases h : entry.isCompaction = true
    · rw [filter_cons_of_neg (by simp [h]), ih]
      conv_rhs => rw [piMessages, contextMessage_compaction h]
    · rw [filter_cons_of_pos (by simp [h]), piMessages, piMessages]
      cases entryToContextMessage entry with
      | none => exact ih seq
      | some message => exact congrArg _ (ih (seq + 1))

/-! ## Pinned settings -/

theorem scanSetting_createSettingEntries (source : IdSource) (existing : List String)
    (timestamp : String) (settings : SessionSettings) :
    (createSettingEntries source existing timestamp settings).foldl scanSetting
        { thinkingLevel := none, model := none } =
      { settings with thinkingLevel := truthy settings.thinkingLevel } := by
  obtain ⟨thinkingLevel, model⟩ := settings
  unfold createSettingEntries
  dsimp only
  cases truthy thinkingLevel with
  | none => cases model <;> rfl
  | some level => cases model <;> rfl

theorem createSettingEntries_silent {source : IdSource} {existing : List String}
    {timestamp : String} {settings : SessionSettings} :
    ∀ entry ∈ createSettingEntries source existing timestamp settings,
      entry.isCompaction = false ∧ entryToContextMessage entry = none := by
  intro entry hentry
  rcases mem_append.mp hentry with hmem | hmem
  · obtain ⟨model, -, rfl⟩ := mem_map.mp hmem
    exact ⟨rfl, rfl⟩
  · obtain ⟨level, -, rfl⟩ := mem_map.mp hmem
    exact ⟨rfl, rfl⟩

theorem piMessages_silent {silent : List SessionEntry}
    (h : ∀ entry ∈ silent, entryToContextMessage entry = none) (seq : Nat)
    (rest : List SessionEntry) : piMessages seq (silent ++ rest) = piMessages seq rest := by
  induction silent with
  | nil => rfl
  | cons entry silent ih =>
    rw [cons_append]
    conv_lhs => rw [piMessages, h entry mem_cons_self]
    exact ih fun e he => h e (mem_cons_of_mem _ he)

theorem scanSetting_model {a b : SessionSettings} (h : a.model = b.model) (entry : SessionEntry) :
    (scanSetting a entry).model = (scanSetting b entry).model := by
  obtain ⟨id, parentId, timestamp, data⟩ := entry
  cases data with
  | message message =>
    simp only [scanSetting]
    split
    · split
      · rfl
      · exact h
    · exact h
  | modelChange provider modelId => rfl
  | _ => exact h

theorem foldl_scanSetting_model :
    ∀ {a b : SessionSettings}, a.model = b.model →
      (entries.foldl scanSetting a).model = (entries.foldl scanSetting b).model := by
  induction entries with
  | nil => exact id
  | cons entry rest ih => exact fun h => ih (scanSetting_model h entry)

theorem scanSetting_thinkingLevel (entry : SessionEntry) (a b : SessionSettings) :
    (scanSetting a entry).thinkingLevel = (scanSetting b entry).thinkingLevel ↔
      a.thinkingLevel = b.thinkingLevel ∨ entry.isThinkingLevelChange = true := by
  obtain ⟨id, parentId, timestamp, data⟩ := entry
  cases data with
  | message message =>
    simp only [scanSetting, SessionEntry.isThinkingLevelChange]
    split
    · split <;> simp
    · simp
  | thinkingLevelChange level => simp [scanSetting, SessionEntry.isThinkingLevelChange]
  | _ => simp [scanSetting, SessionEntry.isThinkingLevelChange]

theorem foldl_scanSetting_thinkingLevel :
    ∀ (a b : SessionSettings),
      (entries.foldl scanSetting a).thinkingLevel = (entries.foldl scanSetting b).thinkingLevel ↔
        a.thinkingLevel = b.thinkingLevel ∨ entries.any (·.isThinkingLevelChange) = true := by
  induction entries with
  | nil => intro a b; simp
  | cons entry rest ih =>
    intro a b
    rw [foldl_cons, foldl_cons, ih, scanSetting_thinkingLevel, any_cons,
      Bool.or_eq_true, or_assoc]

/-! ## Before and after -/

section Layouts

variable {dropped kept : List SessionEntry} {entry : SessionEntry} {compaction : Compaction}

theorem resolveCompactedBranch_before (hentry : entry.compaction? = some compaction)
    (hdropped : compaction.firstKeptEntryId ∉ ids dropped)
    (hkept : (kept.head?.map SessionEntry.id) = some compaction.firstKeptEntryId) :
    resolveCompactedBranch (dropped ++ kept ++ [entry]) =
      { compaction := some (entry, compaction), kept } := by
  obtain ⟨first, hhead, hfirst⟩ := Option.map_eq_some_iff.mp hkept
  obtain ⟨rest, rfl⟩ := head?_eq_some_iff.mp hhead
  have hfound : (dropped ++ first :: rest).dropWhile
      (fun e => e.id ≠ compaction.firstKeptEntryId) = first :: rest := by
    rw [dropWhile_append_of_pos]
    · rw [dropWhile_cons_of_neg (by simpa using hfirst)]
    · intro e he
      exact decide_eq_true fun heq => hdropped (heq ▸ mem_map_of_mem he)
  unfold resolveCompactedBranch
  rw [splitAtCompaction_concat hentry]
  dsimp only
  rw [if_neg (by simp), hfound, if_neg (by simp), append_nil]

theorem resolveCompactedBranch_after (hentry : entry.compaction? = some compaction)
    {rest : List SessionEntry} (hrest : ∀ e ∈ rest, e.isCompaction = false) :
    resolveCompactedBranch (entry :: rest) = { compaction := some (entry, compaction), kept := rest } := by
  unfold resolveCompactedBranch
  rw [splitAtCompaction_root hentry hrest]
  rfl

end Layouts

/-! ## Rewrites and restores -/

/-- The dropped entries leave no empty thinking level, or a kept entry sets
    another. -/
def KeepsThinkingLevel (branch : List SessionEntry) (firstKeptEntryId : String) : Prop :=
  (resolveSessionSettings (branch.takeWhile fun e => e.id ≠ firstKeptEntryId)).thinkingLevel ≠
      some "" ∨
    (branch.dropWhile fun e => e.id ≠ firstKeptEntryId).any (·.isThinkingLevelChange) = true

theorem truthy_eq_self_iff (text : Option String) : truthy text = text ↔ text ≠ some "" := by
  cases text with
  | none => simp [truthy]
  | some text =>
    by_cases h : text = ""
    · simp [truthy, h]
    · simp [truthy, h]

theorem head_dropWhile {branch : List SessionEntry} {id : String} (h : id ∈ ids branch) :
    ((branch.dropWhile fun e => e.id ≠ id).head?.map SessionEntry.id) = some id := by
  induction branch with
  | nil => cases h
  | cons entry rest ih =>
    by_cases hid : entry.id = id
    · rw [dropWhile_cons_of_neg (by simpa using hid)]
      exact congrArg some hid
    · rw [dropWhile_cons_of_pos (by simpa using hid)]
      exact ih ((mem_cons.mp h).resolve_left fun heq => hid heq.symm)

theorem not_mem_takeWhile (id : String) : id ∉ ids (branch.takeWhile fun e => e.id ≠ id) := by
  intro h
  obtain ⟨entry, hentry, hid⟩ := mem_map.mp h
  have htest := mem_takeWhile_imp hentry
  simp [hid] at htest

section Contexts

variable {dropped kept : List SessionEntry} {entry : SessionEntry} {compaction : Compaction}
  {source : IdSource} {existing : List String} {timestamp : String}

theorem context_before (hentry : entry.compaction? = some compaction)
    (hdropped : compaction.firstKeptEntryId ∉ ids dropped)
    (hkept : (kept.head?.map SessionEntry.id) = some compaction.firstKeptEntryId) :
    contextOfBranch (dropped ++ kept ++ [entry]) =
      { messages := .compactionSummary compaction.summary compaction.tokensBefore entry.timestamp ::
          kept.filterMap entryToContextMessage,
        thinkingLevel := (kept.foldl scanSetting (resolveSessionSettings dropped)).thinkingLevel,
        model := (kept.foldl scanSetting (resolveSessionSettings dropped)).model } := by
  have hsettings : resolveSessionSettings (dropped ++ kept ++ [entry]) =
      kept.foldl scanSetting (resolveSessionSettings dropped) := by
    rw [resolveSessionSettings, foldl_append, foldl_append, foldl_cons,
      scanSetting_compaction (by rw [SessionEntry.isCompaction, hentry]; rfl)]
    rfl
  unfold contextOfBranch
  rw [resolveCompactedBranch_before hentry hdropped hkept, hsettings]
  rfl

theorem resolveCompactedBranch_rewritten (hentry : entry.compaction? = some compaction) :
    resolveCompactedBranch (entry :: createSettingEntries source existing timestamp
        (resolveSessionSettings dropped) ++ kept.filter (!·.isCompaction) ++ []) =
      { compaction := some (entry, compaction),
        kept := createSettingEntries source existing timestamp (resolveSessionSettings dropped) ++
          kept.filter (!·.isCompaction) } := by
  rw [append_nil]
  refine resolveCompactedBranch_after hentry fun e he => ?_
  rcases mem_append.mp he with hpinned | hkept
  · exact (createSettingEntries_silent e hpinned).1
  · simpa using (mem_filter.mp hkept).2

theorem contextOfBranch_rechain (parentId : Option String) (entries : List SessionEntry) :
    contextOfBranch (rechain parentId entries) = contextOfBranch entries := by
  rw [← contextOfBranch_unlink, map_unlink_rechain, contextOfBranch_unlink]

theorem context_after (hentry : entry.compaction? = some compaction) :
    contextOfBranch (rewriteChain source timestamp existing
        { dropped, kept, compaction := entry, after := [] }) =
      let settings := resolveSessionSettings dropped
      let scanned := kept.foldl scanSetting
        { settings with thinkingLevel := truthy settings.thinkingLevel }
      { messages := .compactionSummary compaction.summary compaction.tokensBefore entry.timestamp ::
          kept.filterMap entryToContextMessage,
        thinkingLevel := scanned.thinkingLevel, model := scanned.model } := by
  have hsettings : resolveSessionSettings (entry :: createSettingEntries source existing timestamp
        (resolveSessionSettings dropped) ++ kept.filter (!·.isCompaction) ++ []) =
      kept.foldl scanSetting { resolveSessionSettings dropped with
        thinkingLevel := truthy (resolveSessionSettings dropped).thinkingLevel } := by
    rw [append_nil, cons_append, resolveSessionSettings, foldl_cons,
      scanSetting_compaction (by rw [SessionEntry.isCompaction, hentry]; rfl), foldl_append,
      scanSetting_createSettingEntries, foldl_scanSetting_filter]
  have hsilent : (createSettingEntries source existing timestamp
      (resolveSessionSettings dropped)).filterMap entryToContextMessage = [] :=
    filterMap_eq_nil_iff.mpr fun e he => (createSettingEntries_silent e he).2
  rw [rewriteChain, contextOfBranch_rechain]
  unfold contextOfBranch
  rw [resolveCompactedBranch_rewritten hentry, hsettings]
  simp only [filterMap_append, hsilent, filterMap_contextMessage_filter]
  rfl

theorem compactionEntries_before (hentry : entry.compaction? = some compaction)
    (hdropped : compaction.firstKeptEntryId ∉ ids dropped)
    (hkept : (kept.head?.map SessionEntry.id) = some compaction.firstKeptEntryId) :
    compactionEntriesOfBranch (dropped ++ kept ++ [entry]) =
      .compaction entry.id entry.parentId 0 entry.timestamp compaction.summary
        compaction.tokensBefore compaction.details (compaction.fromHook.getD false) ::
        piMessages 1 kept := by
  unfold compactionEntriesOfBranch
  rw [resolveCompactedBranch_before hentry hdropped hkept]

theorem compactionEntries_after (hentry : entry.compaction? = some compaction) :
    (compactionEntriesOfBranch (rewriteChain source timestamp existing
        { dropped, kept, compaction := entry, after := [] })).map PiEntry.unlinked =
      (PiEntry.compaction entry.id entry.parentId 0 entry.timestamp compaction.summary
        compaction.tokensBefore compaction.details (compaction.fromHook.getD false) ::
        piMessages 1 kept).map PiEntry.unlinked := by
  rw [rewriteChain, ← compactionEntriesOfBranch_unlink, map_unlink_rechain,
    compactionEntriesOfBranch_unlink]
  unfold compactionEntriesOfBranch
  rw [resolveCompactedBranch_rewritten hentry]
  dsimp only
  rw [piMessages_silent (fun e he => (createSettingEntries_silent e he).2), piMessages_filter]

end Contexts

/-- What the model sees of a manager: the context, and the compaction's input
    without its links. -/
def SeesSame (m m' : SessionFile) : Prop :=
  m'.buildSessionContext = m.buildSessionContext ∧
    m'.getCompactionEntries.map PiEntry.unlinked = m.getCompactionEntries.map PiEntry.unlinked

/-- A compaction of a session branch is rewritten, and neither the rewrite nor
    the restore changes what the model sees, exactly where the thinking level
    is kept. -/
theorem rewrite_sees_same (source : IdSource) (m : SessionFile) (h : WellLinked m.entries)
    (compaction : Compaction) (hvalid : compaction.firstKeptEntryId ∈ ids (getBranch m.entries))
    (stamp now : String) :
    let compacted := m.append source stamp (.compaction compaction)
    ∃ rewritten, compacted.archiveAndRewrite source now (m.nextId source)
        compaction.firstKeptEntryId = some rewritten ∧
      (SeesSame compacted rewritten ∧ SeesSame compacted compacted.restoreFromArchive ↔
        KeepsThinkingLevel (getBranch m.entries) compaction.firstKeptEntryId) := by
  intro compacted
  let dropped := (getBranch m.entries).takeWhile fun e => e.id ≠ compaction.firstKeptEntryId
  let kept := (getBranch m.entries).dropWhile fun e => e.id ≠ compaction.firstKeptEntryId
  let entry : SessionEntry :=
    { id := m.nextId source, parentId := leafId m.entries, timestamp := stamp,
      data := .compaction compaction }
  have hsplit : dropped ++ kept = getBranch m.entries := List.takeWhile_append_dropWhile
  have hdropped : compaction.firstKeptEntryId ∉ ids dropped := not_mem_takeWhile _ _
  have hkept : (kept.head?.map SessionEntry.id) = some compaction.firstKeptEntryId :=
    head_dropWhile hvalid
  have hfresh : m.nextId source ∉ ids m.entries := source.fresh _
  have hentry : entry.compaction? = some compaction := rfl
  have hbranch : getBranch compacted.entries = dropped ++ kept ++ [entry] := by
    rw [hsplit]
    exact getBranch_appendAt h (source.nonempty _) hfresh stamp _
  have hcut : cutBranch (getBranch compacted.entries) (m.nextId source)
      compaction.firstKeptEntryId = some { dropped, kept, compaction := entry, after := [] } := by
    rw [hbranch]
    refine cutBranch_append (fun hmem => hfresh ?_) hdropped hkept
    rw [hsplit] at hmem
    exact ((walk_sublist h _).map _).subset hmem
  have hlinked : WellLinked compacted.entries := h.appendAt (source.nonempty _) hfresh stamp _
  let rewritten : SessionFile :=
    { header := { compacted.header with compactionArchive := some compacted.nextArchive },
      entries := rewriteChain source now (ids compacted.entries)
        { dropped, kept, compaction := entry, after := [] } }
  have hrewritten : compacted.archiveAndRewrite source now (m.nextId source)
      compaction.firstKeptEntryId = some rewritten := by
    unfold SessionFile.archiveAndRewrite
    rw [hcut]
    rfl
  refine ⟨rewritten, hrewritten, ?_⟩
  have hchain : getBranch rewritten.entries = rewritten.entries :=
    (rewriteChain_linked hlinked hcut).2.2
  have hbefore : compacted.buildSessionContext = _ :=
    (congrArg contextOfBranch hbranch).trans (context_before hentry hdropped hkept)
  have hafter : rewritten.buildSessionContext = _ :=
    (congrArg contextOfBranch hchain).trans (context_after hentry)
  have hentries : rewritten.getCompactionEntries.map PiEntry.unlinked =
      compacted.getCompactionEntries.map PiEntry.unlinked := by
    have hbefore : compacted.getCompactionEntries = _ :=
      (congrArg compactionEntriesOfBranch hbranch).trans
        (compactionEntries_before hentry hdropped hkept)
    have hafter : rewritten.getCompactionEntries = _ :=
      congrArg compactionEntriesOfBranch hchain
    rw [hbefore, hafter]
    exact compactionEntries_after hentry
  have hmodel : (kept.foldl scanSetting { resolveSessionSettings dropped with
      thinkingLevel := truthy (resolveSessionSettings dropped).thinkingLevel }).model =
      (kept.foldl scanSetting (resolveSessionSettings dropped)).model :=
    foldl_scanSetting_model kept rfl
  have hthinking := foldl_scanSetting_thinkingLevel kept { resolveSessionSettings dropped with
    thinkingLevel := truthy (resolveSessionSettings dropped).thinkingLevel }
    (resolveSessionSettings dropped)
  rw [truthy_eq_self_iff] at hthinking
  -- the restored manager has the entries of the archive, which are these
  have hrestored : SeesSame compacted compacted.restoreFromArchive := ⟨rfl, rfl⟩
  rw [KeepsThinkingLevel, ← hthinking, and_iff_left hrestored, SeesSame, and_iff_left hentries,
    hbefore, hafter]
  constructor
  · exact fun hsame => congrArg SessionContext.thinkingLevel hsame
  · intro hsame
    dsimp only
    rw [hsame, hmodel]

/-! ## A rewrite of two entries -/

def sampleMessage : AgentMessage :=
  { role := "user", provider := none, model := none, rest := .null }

def sampleManager (data : EntryData) : SessionFile :=
  { header := { version := 3, id := "s", timestamp := "t", cwd := "/", parentSession := none,
                affinity := none, compactionArchive := none },
    entries := [{ id := "a", parentId := none, timestamp := "t", data },
      { id := "b", parentId := some "a", timestamp := "t", data := .message sampleMessage }] }

def sampleCompaction : Compaction :=
  { summary := "s", firstKeptEntryId := "b", tokensBefore := 0, details := none, fromHook := none }

theorem sampleManager_linked (data : EntryData) : WellLinked (sampleManager data).entries := by
  have hlinear : Linear (sampleManager data).entries := rfl
  exact (hlinear.wellLinked (by simp [sampleManager, ids]) (by simp [sampleManager, ids])).1

theorem rewrite_sees_same_message :
    let m := sampleManager (.message sampleMessage)
    let compacted := m.append longerIds "t" (.compaction sampleCompaction)
    ∃ rewritten, compacted.archiveAndRewrite longerIds "u" (m.nextId longerIds) "b" =
        some rewritten ∧
      SeesSame compacted rewritten ∧ SeesSame compacted compacted.restoreFromArchive := by
  obtain ⟨rewritten, hrewritten, hsame⟩ := rewrite_sees_same longerIds
    (sampleManager (.message sampleMessage)) (sampleManager_linked _) sampleCompaction
    (by decide +kernel) "t" "u"
  exact ⟨rewritten, hrewritten, hsame.mpr (Or.inl (by decide +kernel))⟩

/-- An empty thinking level in the dropped entries is not pinned. -/
theorem rewrite_forgets_empty_level :
    ¬ ∀ (source : IdSource) (m : SessionFile), WellLinked m.entries →
      ∀ compaction : Compaction, compaction.firstKeptEntryId ∈ ids (getBranch m.entries) →
      ∀ stamp now : String,
      let compacted := m.append source stamp (.compaction compaction)
      ∃ rewritten, compacted.archiveAndRewrite source now (m.nextId source)
          compaction.firstKeptEntryId = some rewritten ∧
        SeesSame compacted rewritten ∧ SeesSame compacted compacted.restoreFromArchive := by
  intro hall
  obtain ⟨rewritten, hrewritten, hsame, -⟩ := hall longerIds
    (sampleManager (.thinkingLevelChange "")) (sampleManager_linked _) sampleCompaction
    (by decide +kernel) "t" "u"
  have hlost : ((((sampleManager (.thinkingLevelChange "")).append longerIds "t"
      (.compaction sampleCompaction)).archiveAndRewrite longerIds "u"
        ((sampleManager (.thinkingLevelChange "")).nextId longerIds)
          sampleCompaction.firstKeptEntryId).map
          fun rewritten => rewritten.buildSessionContext.thinkingLevel) = some none := by
    decide +kernel
  have hlevel : rewritten.buildSessionContext.thinkingLevel = some "" :=
    (congrArg SessionContext.thinkingLevel hsame.1).trans (by decide +kernel)
  rw [hrewritten, Option.map_some, hlevel] at hlost
  cases hlost

end Cohub.Agent
