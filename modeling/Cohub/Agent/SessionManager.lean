import Mathlib.Data.List.Induction
import Cohub.Agent.SessionEntries

/-! # The entries of a session manager

    A manager has the entries of its file in memory, each linked to its parent.
    `walk` follows the links up from an entry.  Where every parent is an earlier
    entry and no two share their id, it finds the branch in as many steps as
    there are entries, and appending an entry leaves the branches of the others.

    After a compaction the file is rewritten as one chain: the compaction, the
    settings of what is dropped, and the entries that it keeps. -/

namespace Cohub.Agent

open List Option

/-! ## Branches -/

/-- `byId.get`. -/
def findEntry (entries : List SessionEntry) (id : String) : Option SessionEntry :=
  entries.reverse.find? fun entry => entry.id = id

/-- The walk from an id to its root, for at most the given steps. -/
def walk (entries : List SessionEntry) : Nat → Option String → List SessionEntry
  | 0, _ => []
  | steps + 1, target =>
      match (truthy target).bind (findEntry entries) with
      | none => []
      | some entry => walk entries steps entry.parentId ++ [entry]

/-- The branch that ends at an id. -/
def pathTo (entries : List SessionEntry) (id : String) : List SessionEntry :=
  walk entries entries.length (some id)

def leafId (entries : List SessionEntry) : Option String := entries.getLast?.map SessionEntry.id

/-- `getBranch` without an argument. -/
def getBranch (entries : List SessionEntry) : List SessionEntry :=
  walk entries entries.length (leafId entries)

def ids (entries : List SessionEntry) : List String := entries.map SessionEntry.id

/-- Every parent is an earlier entry, and ids are distinct and not empty. -/
inductive WellLinked : List SessionEntry → Prop where
  | nil : WellLinked []
  | concat {entries : List SessionEntry} {entry : SessionEntry} (h : WellLinked entries)
      (hnonempty : entry.id ≠ "") (hfresh : entry.id ∉ ids entries)
      (hparent : ∀ parent ∈ entry.parentId, parent ∈ ids entries) :
      WellLinked (entries ++ [entry])

/-! ## Writing entries -/

/-- New ids: `generateEntryId` of the ids that exist. -/
structure IdSource where
  generate : List String → String
  fresh    : ∀ existing, generate existing ∉ existing
  nonempty : ∀ existing, generate existing ≠ ""

/-- An id that is longer than all others. -/
def longerId (existing : List String) : String :=
  String.ofList (List.replicate (existing.foldr (fun id total => id.length + total) 1) 'x')

theorem length_longerId (existing : List String) :
    (longerId existing).length = existing.foldr (fun id total => id.length + total) 1 := by
  rw [longerId, String.length_ofList, length_replicate]

theorem length_longerId_pos (existing : List String) : 0 < (longerId existing).length := by
  rw [length_longerId]
  induction existing with
  | nil => exact Nat.one_pos
  | cons first rest ih =>
    rw [foldr_cons]
    omega

variable {id firstKeptEntryId : String} {entries : List SessionEntry} {entry : SessionEntry}
  {existing : List String} {α : Type} {p : α → Bool} {compactionEntryId timestamp : String}
    {source : IdSource}

theorem length_lt_longerId (h : id ∈ existing) : id.length < (longerId existing).length := by
  rw [length_longerId]
  induction existing with
  | nil => cases h
  | cons first rest ih =>
    rw [foldr_cons]
    rcases mem_cons.mp h with rfl | hrest
    · have hpos := length_longerId_pos rest
      rw [length_longerId] at hpos
      omega
    · have hlt := ih hrest
      omega

theorem longerId_not_mem (existing : List String) : longerId existing ∉ ["a", "b", "c"] := by
  have hstart : ∀ c ∈ (longerId existing).toList, c = 'x' := by
    intro c hc
    rw [longerId, String.toList_ofList] at hc
    exact eq_of_mem_replicate hc
  intro hmem
  rcases mem_cons.mp hmem with heq | hmem
  · exact absurd (hstart 'a' (by rw [heq]; decide)) (by decide)
  rcases mem_cons.mp hmem with heq | hmem
  · exact absurd (hstart 'b' (by rw [heq]; decide)) (by decide)
  · exact absurd (hstart 'c' (by rw [mem_singleton.mp hmem]; decide)) (by decide)

def longerIds : IdSource where
  generate := longerId
  fresh existing h := Nat.lt_irrefl _ (length_lt_longerId h)
  nonempty existing h := by
    have hpos := length_longerId_pos existing
    rw [h] at hpos
    exact Nat.lt_irrefl 0 hpos

def appendAt (entries : List SessionEntry) (id timestamp : String) (data : EntryData) :
    List SessionEntry :=
  entries ++ [{ id, parentId := leafId entries, timestamp, data }]

/-- `createSettingEntries`: detached entries for the settings that are set. -/
def createSettingEntries (source : IdSource) (existing : List String) (timestamp : String)
    (settings : SessionSettings) : List SessionEntry :=
  let model := settings.model.toList.map fun model : ModelChoice =>
    ({ id := source.generate existing, parentId := none, timestamp,
       data := .modelChange model.provider model.modelId } : SessionEntry)
  let thinking := (truthy settings.thinkingLevel).toList.map fun level =>
    ({ id := source.generate (existing ++ ids model), parentId := none, timestamp,
       data := .thinkingLevelChange level } : SessionEntry)
  model ++ thinking

/-- Each entry the child of the one before it. -/
def rechain : Option String → List SessionEntry → List SessionEntry
  | _, [] => []
  | parentId, entry :: rest => { entry with parentId } :: rechain (some entry.id) rest

/-- The parts of a branch around a compaction and its first kept entry. -/
structure CompactionCut where
  dropped : List SessionEntry
  kept : List SessionEntry
  compaction : SessionEntry
  after : List SessionEntry

def CompactionCut.branch (cut : CompactionCut) : List SessionEntry :=
  cut.dropped ++ cut.kept ++ cut.compaction :: cut.after

/-- `archiveAndRewrite` up to the copy: the indexes of the two entries. -/
def cutBranch (branch : List SessionEntry) (compactionEntryId firstKeptEntryId : String) :
    Option CompactionCut := do
  let compactionIdx ← branch.findIdx? fun entry => entry.id = compactionEntryId
  let firstKeptIdx ← branch.findIdx? fun entry => entry.id = firstKeptEntryId
  if compactionIdx ≤ firstKeptIdx then none
  else
    let compaction ← branch[compactionIdx]?
    return { dropped := branch.take firstKeptIdx,
             kept := (branch.take compactionIdx).drop firstKeptIdx,
             compaction, after := branch.drop (compactionIdx + 1) }

/-- The chain of the rewritten file.  Older compactions are not kept. -/
def rewriteChain (source : IdSource) (timestamp : String) (existing : List String)
    (cut : CompactionCut) : List SessionEntry :=
  let pinned := createSettingEntries source existing timestamp (resolveSessionSettings cut.dropped)
  rechain none (cut.compaction :: pinned ++ cut.kept.filter (!·.isCompaction) ++ cut.after)

/-! ## Files, archives and the manager's operations -/

/-- `archives/<session>.<number>.jsonl`. -/
structure ArchivePath where
  session : String
  number  : Nat
deriving DecidableEq

structure SessionAffinity where
  sessionId : String
  threadId  : String
deriving DecidableEq

structure SessionHeader where
  version : Nat
  id : String
  timestamp : String
  cwd : String
  parentSession : Option String
  affinity : Option SessionAffinity
  compactionArchive : Option ArchivePath
deriving DecidableEq

/-- A header and entries: what a file has, and what a manager has of it. -/
structure SessionFile where
  header  : SessionHeader
  entries : List SessionEntry
deriving DecidableEq

namespace SessionFile

def buildSessionContext (m : SessionFile) : SessionContext := contextOfBranch (getBranch m.entries)

def getCompactionEntries (m : SessionFile) : List PiEntry :=
  compactionEntriesOfBranch (getBranch m.entries)

/-- `appendEntry` of a new entry with a generated id. -/
def append (source : IdSource) (m : SessionFile) (timestamp : String) (data : EntryData) :
    SessionFile :=
  { m with entries := appendAt m.entries (source.generate (ids m.entries)) timestamp data }

/-- The id that the next entry gets. -/
def nextId (source : IdSource) (m : SessionFile) : String := source.generate (ids m.entries)

/-- `header.id.replace(/[^a-zA-Z0-9-]/g, "")`. -/
def safeId (m : SessionFile) : String :=
  String.ofList (m.header.id.toList.filter fun c => c.isAlphanum || c = '-')

def nextArchiveNumber (m : SessionFile) : Nat :=
  match m.header.compactionArchive with
  | none => 1
  | some path => path.number + 1

/-- Where the next compaction puts the old file. -/
def nextArchive (m : SessionFile) : ArchivePath where
  session := m.safeId
  number := m.nextArchiveNumber

/-- The manager after `archiveAndRewrite`, which copies the file to
    `nextArchive` first; `none` where it refuses. -/
def archiveAndRewrite (source : IdSource) (m : SessionFile) (timestamp : String)
    (compactionEntryId firstKeptEntryId : String) : Option SessionFile := do
  let cut ← cutBranch (getBranch m.entries) compactionEntryId firstKeptEntryId
  if cut.compaction.isCompaction then
    return { header := { m.header with compactionArchive := some m.nextArchive },
             entries := rewriteChain source timestamp (ids m.entries) cut }
  else none

/-- `restoreFromArchive`, of what the archive has. -/
def restoreFromArchive (archive : SessionFile) : SessionFile :=
  { archive with header := { archive.header with compactionArchive := none } }

/-- `removeLastEntry`: a compaction at the end only. -/
def removeLastEntry (m : SessionFile) : SessionFile :=
  match m.entries.getLast? with
  | none => m
  | some removed => if removed.isCompaction then { m with entries := m.entries.dropLast } else m

end SessionFile

/-! ## Branches of well-linked entries -/

theorem ids_append (entries entries' : List SessionEntry) :
    ids (entries ++ entries') = ids entries ++ ids entries' :=
  map_append

theorem ids_concat (entries : List SessionEntry) (entry : SessionEntry) :
    ids (entries ++ [entry]) = ids entries ++ [entry.id] := by
  simp [ids]

theorem truthy_some (h : id ≠ "") : truthy (some id) = some id := by
  simp [truthy, h]

theorem findEntry_concat (entries : List SessionEntry) (entry : SessionEntry) (id : String) :
    findEntry (entries ++ [entry]) id =
      if entry.id = id then some entry else findEntry entries id := by
  unfold findEntry
  rw [reverse_append, reverse_singleton, singleton_append, find?_cons]
  by_cases h : entry.id = id
  · rw [if_pos h]
    simp [h]
  · rw [if_neg h]
    simp [h]

theorem mem_of_findEntry
    (h : findEntry entries id = some entry) : entry ∈ entries ∧ entry.id = id :=
  ⟨mem_reverse.mp (mem_of_find?_eq_some h), by simpa using find?_some h⟩

theorem WellLinked.of_concat
    (h : WellLinked (entries ++ [entry])) : WellLinked entries ∧ entry.id ≠ "" ∧
      entry.id ∉ ids entries ∧ ∀ parent ∈ entry.parentId, parent ∈ ids entries := by
  generalize hall : entries ++ [entry] = all at h
  cases h with
  | nil => exact absurd hall (concat_ne_nil _ _)
  | concat h hnonempty hfresh hparent =>
    obtain ⟨rfl, hlast⟩ := append_inj' hall rfl
    obtain rfl := singleton_inj.mp hlast
    exact ⟨h, hnonempty, hfresh, hparent⟩

theorem WellLinked.parent (h : WellLinked entries) :
    ∀ entry ∈ entries, ∀ parent ∈ entry.parentId, parent ∈ ids entries := by
  induction h with
  | nil => exact fun _ hentry => absurd hentry not_mem_nil
  | concat _ _ _ hparent ih =>
    intro entry hentry parent hp
    rw [ids_concat]
    rcases mem_append.mp hentry with hold | hnew
    · exact mem_append_left _ (ih entry hold parent hp)
    · rw [mem_singleton.mp hnew] at hp
      exact mem_append_left _ (hparent parent hp)

theorem walk_concat_of_ne (h : WellLinked entries) (hfresh : entry.id ∉ ids entries) (steps : Nat) :
    ∀ {target : Option String}, target ≠ some entry.id →
      walk (entries ++ [entry]) steps target = walk entries steps target := by
  induction steps with
  | zero => intro target _; rfl
  | succ steps ih =>
    intro target htarget
    have hsame : (truthy target).bind (findEntry (entries ++ [entry])) =
        (truthy target).bind (findEntry entries) := by
      cases htruthy : truthy target with
      | none => rfl
      | some id =>
        have htarget' : target = some id := by
          have := mem_filter_iff.mp (show id ∈ truthy target from htruthy)
          exact this.1
        rw [bind_some, bind_some, findEntry_concat, if_neg]
        rintro rfl
        exact htarget htarget'
    unfold walk
    rw [hsame]
    cases hfound : (truthy target).bind (findEntry entries) with
    | none => rfl
    | some found =>
      obtain ⟨id, -, hfind⟩ := bind_eq_some_iff.mp hfound
      have hmem := (mem_of_findEntry hfind).1
      dsimp only
      rw [ih]
      intro hparent
      exact hfresh (h.parent found hmem entry.id hparent)

theorem walk_concat_self (h : WellLinked (entries ++ [entry])) (steps : Nat) :
    walk (entries ++ [entry]) (steps + 1) (some entry.id) =
      walk entries steps entry.parentId ++ [entry] := by
  obtain ⟨hentries, hnonempty, hfresh, hparent⟩ := h.of_concat
  have hfound : (truthy (some entry.id)).bind (findEntry (entries ++ [entry])) = some entry := by
    rw [truthy_some hnonempty, bind_some, findEntry_concat, if_pos rfl]
  rw [walk, hfound]
  dsimp only
  rw [walk_concat_of_ne hentries hfresh]
  exact fun hself => hfresh (hparent entry.id hself)

theorem walk_of_length_le (h : WellLinked entries) :
    ∀ {steps : Nat} {target : Option String}, entries.length ≤ steps →
      walk entries steps target = walk entries entries.length target := by
  induction h with
  | nil =>
    intro steps target _
    cases steps with
    | zero => rfl
    | succ steps =>
      unfold walk
      cases truthy target <;> rfl
  | @concat entries entry h hnonempty hfresh hparent ih =>
    intro steps target hsteps
    rw [length_append, length_singleton] at hsteps ⊢
    by_cases htarget : target = some entry.id
    · -- one step to the parent, and the rest among the earlier entries
      obtain ⟨steps, rfl⟩ : ∃ rest, steps = rest + 1 := ⟨steps - 1, by omega⟩
      have hall := h.concat hnonempty hfresh hparent
      rw [htarget, walk_concat_self hall, walk_concat_self hall, ih (by omega)]
    · rw [walk_concat_of_ne h hfresh _ htarget, walk_concat_of_ne h hfresh _ htarget,
        ih (by omega), ih (Nat.le_succ _)]

theorem pathTo_concat_self (h : WellLinked (entries ++ [entry])) :
    pathTo (entries ++ [entry]) entry.id = walk entries entries.length entry.parentId ++ [entry] := by
  rw [pathTo, length_append, length_singleton, walk_concat_self h]

theorem pathTo_concat_of_ne (h : WellLinked (entries ++ [entry])) (hne : id ≠ entry.id) :
    pathTo (entries ++ [entry]) id = pathTo entries id := by
  obtain ⟨hentries, -, hfresh, -⟩ := h.of_concat
  rw [pathTo, walk_concat_of_ne hentries hfresh _ (fun heq => hne (Option.some.inj heq)),
    walk_of_length_le hentries (by simp)]
  rfl

theorem leafId_concat (entries : List SessionEntry) (entry : SessionEntry) :
    leafId (entries ++ [entry]) = some entry.id := by
  simp [leafId]

theorem leafId_mem (h : leafId entries = some id) : id ∈ ids entries := by
  obtain ⟨entry, hlast, rfl⟩ := map_eq_some_iff.mp h
  exact List.mem_map_of_mem (mem_of_getLast? hlast)

theorem getBranch_concat
    (h : WellLinked (entries ++ [entry])) (hparent : entry.parentId = leafId entries) :
    getBranch (entries ++ [entry]) = getBranch entries ++ [entry] := by
  rw [getBranch, leafId_concat]
  exact (pathTo_concat_self h).trans (by rw [hparent, getBranch])

section

variable (h : WellLinked entries)
include h

theorem WellLinked.appendAt (hnonempty : id ≠ "") (hfresh : id ∉ ids entries) (timestamp : String)
    (data : EntryData) : WellLinked (appendAt entries id timestamp data) :=
  h.concat hnonempty hfresh fun _ hparent => leafId_mem hparent

theorem getBranch_appendAt
    (hnonempty : id ≠ "") (hfresh : id ∉ ids entries) (timestamp : String) (data : EntryData) :
    getBranch (appendAt entries id timestamp data) =
      getBranch entries ++ [{ id, parentId := leafId entries, timestamp, data }] :=
  getBranch_concat (h.appendAt hnonempty hfresh timestamp data) rfl

theorem walk_sublist :
    ∀ target, (walk entries entries.length target).Sublist entries := by
  induction h with
  | nil => exact fun _ => List.Sublist.slnil
  | @concat entries entry h hnonempty hfresh hparent ih =>
    intro target
    have hall := h.concat hnonempty hfresh hparent
    rw [length_append, length_singleton]
    by_cases htarget : target = some entry.id
    · rw [htarget, walk_concat_self hall]
      exact (ih _).append_right _
    · rw [walk_concat_of_ne h hfresh _ htarget, walk_of_length_le h (Nat.le_succ _)]
      exact (ih target).trans (sublist_append_left _ _)

theorem WellLinked.nodup :
    (ids entries).Nodup := by
  induction h with
  | nil => exact nodup_nil
  | concat _ _ hfresh _ ih =>
    rw [ids_concat]
    exact nodup_append.mpr ⟨ih, nodup_singleton _, fun a ha b hb heq =>
      hfresh (by rwa [heq, mem_singleton.mp hb] at ha)⟩

theorem WellLinked.nonempty :
    "" ∉ ids entries := by
  induction h with
  | nil => exact not_mem_nil
  | concat _ hnonempty _ _ ih =>
    rw [ids_concat, mem_append, mem_singleton]
    rintro (hold | hnew)
    · exact ih hold
    · exact hnonempty hnew.symm

theorem nodup_getBranch :
    (ids (getBranch entries)).Nodup :=
  h.nodup.sublist ((walk_sublist h _).map _)

/-! ## Chains -/

/-- Each entry's parent is the one before it. -/
def Linear (entries : List SessionEntry) : Prop := rechain none entries = entries

end

variable (parentId : Option String)

theorem rechain_concat (entries : List SessionEntry) (entry : SessionEntry) :
    rechain parentId (entries ++ [entry]) =
      rechain parentId entries ++ [{ entry with parentId := (leafId entries).or parentId }] := by
  induction entries generalizing parentId with
  | nil => rfl
  | cons first rest ih =>
    have hleaf : (leafId (first :: rest)).or parentId = (leafId rest).or (some first.id) := by
      cases rest with
      | nil => rfl
      | cons second rest => simp [leafId, getLast?_cons]
    rw [hleaf, cons_append, rechain, ih]
    rfl

theorem ids_rechain (entries : List SessionEntry) :
    ids (rechain parentId entries) = ids entries := by
  induction entries generalizing parentId with
  | nil => rfl
  | cons entry rest ih => exact congrArg (entry.id :: ·) (ih _)

theorem mem_rechain {parentId : Option String} (h : entry ∈ rechain parentId entries) :
    ∃ old ∈ entries, entry.id = old.id ∧ entry.data = old.data := by
  induction entries generalizing parentId with
  | nil => cases h
  | cons first rest ih =>
    rcases mem_cons.mp h with rfl | hrest
    · exact ⟨first, mem_cons_self, rfl, rfl⟩
    · obtain ⟨old, hold, hsame⟩ := ih hrest
      exact ⟨old, mem_cons_of_mem _ hold, hsame⟩

theorem rechain_rechain (other : Option String) (entries : List SessionEntry) :
    rechain parentId (rechain other entries) = rechain parentId entries := by
  induction entries generalizing parentId other with
  | nil => rfl
  | cons entry rest ih =>
    show { entry with parentId := parentId } :: rechain (some entry.id) (rechain (some entry.id) rest) = _
    rw [ih]
    rfl

theorem linear_rechain (entries : List SessionEntry) : Linear (rechain none entries) :=
  rechain_rechain none none entries

theorem Linear.of_concat
    (h : Linear (entries ++ [entry])) : Linear entries ∧ entry.parentId = leafId entries := by
  unfold Linear at h
  rw [rechain_concat, or_none] at h
  obtain ⟨hentries, hlast⟩ := append_inj' h rfl
  exact ⟨hentries, (congrArg SessionEntry.parentId (singleton_inj.mp hlast)).symm⟩

theorem Linear.concat {entries : List SessionEntry} {entry : SessionEntry} (h : Linear entries)
    (hparent : entry.parentId = leafId entries) : Linear (entries ++ [entry]) := by
  unfold Linear at *
  rw [rechain_concat, h, or_none, ← hparent]

theorem Linear.wellLinked (h : Linear entries) (hnodup : (ids entries).Nodup)
    (hnonempty : "" ∉ ids entries) : WellLinked entries ∧ getBranch entries = entries := by
  induction entries using reverseRecOn with
  | nil => exact ⟨.nil, rfl⟩
  | append_singleton entries entry ih =>
    obtain ⟨hentries, hparent⟩ := h.of_concat
    rw [ids_concat] at hnodup hnonempty
    obtain ⟨hold, -, hacross⟩ := nodup_append.mp hnodup
    rw [mem_append, not_or, mem_singleton] at hnonempty
    obtain ⟨hlinked, hbranch⟩ := ih hentries hold hnonempty.1
    have hall : WellLinked (entries ++ [entry]) := by
      refine hlinked.concat (fun heq => hnonempty.2 heq.symm) ?_ ?_
      · exact fun hmem => hacross _ hmem _ (mem_singleton_self _) rfl
      · exact fun parent hp => leafId_mem (hparent ▸ hp)
    exact ⟨hall, by rw [getBranch_concat hall hparent, hbranch]⟩

/-! ## Cuts -/

theorem findIdx?_append_cons {before : List α} {a : α}
    (hbefore : ∀ b ∈ before, p b = false) (ha : p a = true) (after : List α) :
    (before ++ a :: after).findIdx? p = some before.length := by
  induction before with
  | nil => simp [findIdx?_cons, ha]
  | cons b rest ih =>
    rw [cons_append, findIdx?_cons, hbefore b mem_cons_self,
      ih fun c hc => hbefore c (mem_cons_of_mem _ hc)]
    simp

theorem findIdx?_split {l : List α} {i : Nat} (h : l.findIdx? p = some i) :
    ∃ before a after, l = before ++ a :: after ∧ before.length = i ∧ p a = true ∧
      ∀ b ∈ before, p b = false := by
  induction l generalizing i with
  | nil => cases h
  | cons first rest ih =>
    rw [findIdx?_cons] at h
    by_cases hfirst : p first = true
    · rw [if_pos hfirst] at h
      injection h with h
      exact ⟨[], first, rest, rfl, h, hfirst, nofun⟩
    · rw [if_neg hfirst] at h
      obtain ⟨j, hj, rfl⟩ := map_eq_some_iff.mp h
      obtain ⟨before, a, after, rfl, rfl, ha, hbefore⟩ := ih hj
      refine ⟨first :: before, a, after, rfl, rfl, ha, ?_⟩
      exact forall_mem_cons.mpr ⟨by simpa using hfirst, hbefore⟩

theorem cutBranch_append {dropped kept after : List SessionEntry} {compaction : SessionEntry}
    (hcompaction : compaction.id ∉ ids (dropped ++ kept))
    (hdropped : firstKeptEntryId ∉ ids dropped)
    (hkept : (kept.head?.map SessionEntry.id) = some firstKeptEntryId) :
    cutBranch (dropped ++ kept ++ compaction :: after) compaction.id firstKeptEntryId =
      some { dropped, kept, compaction, after } := by
  obtain ⟨first, hhead, rfl⟩ := map_eq_some_iff.mp hkept
  obtain ⟨rest, rfl⟩ := head?_eq_some_iff.mp hhead
  have hcut : (dropped ++ first :: rest ++ compaction :: after).findIdx?
      (fun entry => decide (entry.id = compaction.id)) = some (dropped ++ first :: rest).length := by
    refine findIdx?_append_cons (fun entry hentry => decide_eq_false fun heq => ?_) (by simp) after
    exact hcompaction (heq ▸ List.mem_map_of_mem hentry)
  have hfirst : (dropped ++ first :: rest ++ compaction :: after).findIdx?
      (fun entry => decide (entry.id = first.id)) = some dropped.length := by
    rw [append_assoc, cons_append]
    refine findIdx?_append_cons (fun entry hentry => decide_eq_false fun heq => ?_) (by simp) _
    exact hdropped (heq ▸ List.mem_map_of_mem hentry)
  have hentry : (dropped ++ first :: rest ++ compaction :: after)[(dropped ++ first :: rest).length]? =
      some compaction := by
    rw [getElem?_append_right le_rfl, Nat.sub_self]
    rfl
  have hdrop : (dropped ++ first :: rest ++ compaction :: after).take dropped.length = dropped := by
    rw [append_assoc, take_left]
  have hafter : (dropped ++ first :: rest ++ compaction :: after).drop
      ((dropped ++ first :: rest).length + 1) = after := by
    rw [← drop_drop, drop_left]
    rfl
  unfold cutBranch
  rw [hcut, hfirst]
  simp only [bind_eq_bind, bind_some]
  rw [if_neg (by simp), hentry, hdrop, hafter, take_left, drop_left]
  rfl

variable {cut : CompactionCut}

theorem cutBranch_some {branch : List SessionEntry}
    (h : cutBranch branch compactionEntryId firstKeptEntryId = some cut) :
    branch = cut.dropped ++ cut.kept ++ cut.compaction :: cut.after ∧
      cut.compaction.id = compactionEntryId ∧ firstKeptEntryId ∉ ids cut.dropped ∧
      (cut.kept.head?.map SessionEntry.id) = some firstKeptEntryId := by
  unfold cutBranch at h
  obtain ⟨compactionIdx, hcompaction, h⟩ := bind_eq_some_iff.mp h
  obtain ⟨firstKeptIdx, hfirst, h⟩ := bind_eq_some_iff.mp h
  split at h
  · cases h
  · next hlt =>
    obtain ⟨entry, hentry, h⟩ := bind_eq_some_iff.mp h
    injection h with h
    subst h
    obtain ⟨before, found, after, rfl, rfl, hid, -⟩ := findIdx?_split hcompaction
    rw [getElem?_append_right le_rfl, Nat.sub_self] at hentry
    injection hentry with hentry
    subst hentry
    have hafter : (before ++ found :: after).drop (before.length + 1) = after := by
      rw [← drop_drop, drop_left]
      rfl
    obtain ⟨dropped, first, rest, hsplit, rfl, hfirstId, hdropped⟩ := findIdx?_split hfirst
    have htake : (before ++ found :: after).take dropped.length = before.take dropped.length := by
      rw [take_append_of_le_length (by omega)]
    have hdrop : before.take dropped.length = dropped := by
      rw [← htake, hsplit, take_left]
    dsimp only
    rw [take_left, htake, hdrop, hafter]
    have hbefore : dropped ++ before.drop dropped.length = before := by
      conv_rhs => rw [← take_append_drop dropped.length before, hdrop]
    refine ⟨by rw [hbefore], of_decide_eq_true hid, ?_, ?_⟩
    · intro hmem
      obtain ⟨other, hother, hotherId⟩ := List.mem_map.mp hmem
      exact absurd hotherId (of_decide_eq_false (hdropped other hother))
    · -- the first kept entry stands where the dropped ones end
      rw [head?_drop]
      have hat : (before ++ found :: after)[dropped.length]? = some first := by
        rw [hsplit, getElem?_append_right le_rfl, Nat.sub_self]
        rfl
      rw [getElem?_append_left (by omega)] at hat
      rw [hat]
      exact congrArg some (of_decide_eq_true hfirstId)

/-! ## The rewritten chain -/

theorem createSettingEntries_ids (source : IdSource) (existing : List String) (timestamp : String)
    (settings : SessionSettings) :
    (ids (createSettingEntries source existing timestamp settings)).Nodup ∧
      ∀ id ∈ ids (createSettingEntries source existing timestamp settings),
        id ∉ existing ∧ id ≠ "" := by
  unfold createSettingEntries ids
  have hfirst := source.fresh existing
  have hfirst' := source.nonempty existing
  cases settings.model with
  | none =>
    have hsecond := source.fresh (existing ++ ids [])
    cases truthy settings.thinkingLevel with
    | none => simp
    | some level => simpa [ids, source.nonempty] using hsecond
  | some model =>
    cases truthy settings.thinkingLevel with
    | none => simpa [source.nonempty] using hfirst
    | some level =>
      have hsecond := source.fresh (existing ++ [source.generate existing])
      rw [mem_append, not_or, mem_singleton] at hsecond
      refine ⟨?_, ?_⟩
      · simpa [ids] using fun heq => hsecond.2 heq.symm
      · simpa [ids, source.nonempty] using ⟨hfirst, hsecond.1⟩

theorem createSettingEntries_generated {settings : SessionSettings} :
    ∀ entry ∈ createSettingEntries source existing timestamp settings,
      ∃ taken, entry.id = source.generate taken := by
  intro entry hentry
  rcases mem_append.mp hentry with hmem | hmem
  · obtain ⟨model, -, rfl⟩ := List.mem_map.mp hmem
    exact ⟨_, rfl⟩
  · obtain ⟨level, -, rfl⟩ := List.mem_map.mp hmem
    exact ⟨_, rfl⟩

theorem rewriteChain_ids {source : IdSource} {timestamp : String} {existing : List String}
    {cut : CompactionCut} (hnodup : (ids cut.branch).Nodup) (hnonempty : "" ∉ ids cut.branch)
    (hfresh : ∀ id ∈ ids (createSettingEntries source existing timestamp
      (resolveSessionSettings cut.dropped)), id ∉ ids cut.branch) :
    (ids (rewriteChain source timestamp existing cut)).Nodup ∧
      "" ∉ ids (rewriteChain source timestamp existing cut) := by
  obtain ⟨hpinnedNodup, hpinned⟩ := createSettingEntries_ids source existing timestamp
    (resolveSessionSettings cut.dropped)
  have hkept : (ids (cut.kept.filter (!·.isCompaction))).Sublist (ids cut.kept) :=
    filter_sublist.map _
  -- the ids that stay, in the order of the chain, and those of the new entries
  let stay := cut.compaction.id :: (ids (cut.kept.filter (!·.isCompaction)) ++ ids cut.after)
  have hstaySub : (ids (cut.kept.filter (!·.isCompaction)) ++ cut.compaction.id :: ids cut.after).Sublist
      (ids cut.branch) := by
    rw [CompactionCut.branch, ids_append, ids_append, append_assoc]
    exact (hkept.append_right _).trans (sublist_append_right _ _)
  have hstayPerm : stay.Perm
      (ids (cut.kept.filter (!·.isCompaction)) ++ cut.compaction.id :: ids cut.after) :=
    perm_middle.symm
  have hstay : stay.Nodup := hstayPerm.nodup_iff.mpr (hnodup.sublist hstaySub)
  have hstayOld : ∀ id ∈ stay, id ∈ ids cut.branch := fun id hid =>
    hstaySub.subset (hstayPerm.subset hid)
  have hids : ids (rewriteChain source timestamp existing cut) = cut.compaction.id ::
      (ids (createSettingEntries source existing timestamp (resolveSessionSettings cut.dropped)) ++
        (ids (cut.kept.filter (!·.isCompaction)) ++ ids cut.after)) := by
    rw [rewriteChain, ids_rechain]
    simp [ids]
  have hperm : (ids (rewriteChain source timestamp existing cut)).Perm
      (ids (createSettingEntries source existing timestamp
        (resolveSessionSettings cut.dropped)) ++ stay) := by
    rw [hids]
    exact perm_middle.symm
  constructor
  · refine hperm.nodup_iff.mpr (nodup_append.mpr ⟨hpinnedNodup, hstay, ?_⟩)
    rintro id hid other hother rfl
    exact hfresh id hid (hstayOld id hother)
  · rw [hperm.mem_iff, mem_append, not_or]
    exact ⟨fun hid => (hpinned "" hid).2 rfl, fun hid => hnonempty (hstayOld "" hid)⟩

theorem rewriteChain_linked (h : WellLinked entries)
    (hcut : cutBranch (getBranch entries) compactionEntryId firstKeptEntryId = some cut) :
    Linear (rewriteChain source timestamp (ids entries) cut) ∧
      WellLinked (rewriteChain source timestamp (ids entries) cut) ∧
      getBranch (rewriteChain source timestamp (ids entries) cut) =
        rewriteChain source timestamp (ids entries) cut := by
  have hbranch : cut.branch = getBranch entries := (cutBranch_some hcut).1.symm
  have hold : ∀ id ∈ ids cut.branch, id ∈ ids entries := by
    rw [hbranch]
    exact ((walk_sublist h _).map _).subset
  have hfresh : ∀ id ∈ ids (createSettingEntries source (ids entries) timestamp
      (resolveSessionSettings cut.dropped)), id ∉ ids cut.branch := fun id hid hmem =>
    ((createSettingEntries_ids source (ids entries) timestamp
      (resolveSessionSettings cut.dropped)).2 id hid).1 (hold id hmem)
  obtain ⟨hnodup, hnonempty⟩ := rewriteChain_ids (hbranch ▸ nodup_getBranch h)
    (fun hid => h.nonempty (hold "" hid)) hfresh
  exact ⟨linear_rechain _, (linear_rechain _).wellLinked hnodup hnonempty⟩

end Cohub.Agent
