import Mathlib.Logic.Relation
import Cohub.Lib.Text
import Cohub.Agent.SessionManager

/-! # The indexes of a session manager

    Next to its entries a manager has four structures that follow from them:
    the entries by id, the id of the leaf, the user messages of the branch, and
    the entry of each.  An append adds to each of them; the other operations
    rebuild or clear them.

    - The entries of a manager are well linked in every state, so the walk up
      from the leaf ends.
    - `Indexed` says that the four are what a rebuild would give.  Each
      operation keeps it, but `newSession`, which leaves the entries of the
      user messages behind. -/

namespace Cohub.Agent

open List OrderedMap

/-! ## User messages -/

/-- `meta`, if it is an object. -/
def getAgentMessageMeta (message : AgentMessage) : Option Json :=
  (message.rest.get? "meta").filter Json.isRecord

def trimmedMember (metadata : Json) (key : String) : Option String :=
  truthy (((metadata.get? key).bind Json.asString?).map Text.trim)

def getSessionUserMessageId (message : AgentMessage) : Option String :=
  (getAgentMessageMeta message).bind fun metadata =>
    (trimmedMember metadata "messageId").or (trimmedMember metadata "userMessageId")

/-- The id of the user message that an entry is. -/
def SessionEntry.userMessageId? (entry : SessionEntry) : Option String :=
  match entry.data with
  | .message message => getSessionUserMessageId message
  | _ => none

/-- The user messages of a branch, and the last entry of each. -/
structure UserMessages where
  userMessageIds      : List String
  userMessageEntryIds : OrderedMap String String

namespace UserMessages

def empty : UserMessages where
  userMessageIds := []
  userMessageEntryIds := .empty

/-- `indexBranchUserMessage`. -/
def index (messages : UserMessages) (entry : SessionEntry) : UserMessages :=
  match entry.userMessageId? with
  | none => messages
  | some id =>
      { userMessageIds := messages.userMessageIds.insert id,
        userMessageEntryIds := messages.userMessageEntryIds.set id entry.id }

def ofBranch (branch : List SessionEntry) : UserMessages := branch.foldl index empty

end UserMessages

/-! ## The manager -/

/-- A line of a session file that was parsed. -/
inductive FileEntry where
  | session (header : SessionHeader)
  | entry (entry : SessionEntry)

def FileEntry.header? : FileEntry → Option SessionHeader
  | .session header => some header
  | .entry _ => none

def FileEntry.entry? : FileEntry → Option SessionEntry
  | .session _ => none
  | .entry found => some found

structure SessionManager where
  header : Option SessionHeader
  entries : List SessionEntry
  byId : OrderedMap String SessionEntry
  userMessages : UserMessages
  leafId : Option String
  sessionFile : Option String

/-- The walk of `getBranch`, for at most the given steps. -/
def walkById (byId : OrderedMap String SessionEntry) : Nat → Option String → List SessionEntry
  | 0, _ => []
  | steps + 1, target =>
      match (truthy target).bind byId.get? with
      | none => []
      | some entry => walkById byId steps entry.parentId ++ [entry]

namespace SessionManager

/-- A walk that visits no entry twice has no more steps than there are entries. -/
def getBranch (m : SessionManager) : List SessionEntry := walkById m.byId m.byId.size m.leafId

def hasUserMessage (m : SessionManager) (userMessageId : String) : Bool :=
  let id := Text.trim userMessageId
  if id = "" then false else decide (id ∈ m.userMessages.userMessageIds)

def findUserMessageEntryId (m : SessionManager) (userMessageId : String) : Option String :=
  m.userMessages.userMessageEntryIds.get? (Text.trim userMessageId)

def rebuildBranchUserMessageIndex (m : SessionManager) : SessionManager :=
  { m with userMessages := .ofBranch m.getBranch }

def rebuildIndex (m : SessionManager) : SessionManager :=
  rebuildBranchUserMessageIndex { m with
    byId := .ofList (m.entries.map fun entry => (entry.id, entry)),
    leafId := m.entries.getLast?.map SessionEntry.id }

def create : SessionManager where
  header := none
  entries := []
  byId := .empty
  userMessages := .empty
  leafId := none
  sessionFile := none

/-- `open`, of what the file has. -/
def ofFile (path : String) (parsed : List FileEntry) : SessionManager :=
  if parsed = [] then { create with sessionFile := some path }
  else
    rebuildIndex { create with
      header := parsed.findSome? FileEntry.header?,
      entries := parsed.filterMap FileEntry.entry?,
      sessionFile := some path }

def setSessionFile (m : SessionManager) (path : String) : SessionManager :=
  { m with sessionFile := some path }

def newSession (m : SessionManager) (header : SessionHeader) : SessionManager :=
  -- the source clears one of the two indexes of user messages
  { m with
    header := some header, entries := [], byId := .empty,
    userMessages := { m.userMessages with userMessageIds := [] }, leafId := none }

def appendEntry (m : SessionManager) (entry : SessionEntry) : SessionManager :=
  { m with
    entries := m.entries ++ [entry], byId := m.byId.set entry.id entry, leafId := some entry.id,
    userMessages := m.userMessages.index entry }

/-- An entry with a generated id. -/
def append (source : IdSource) (m : SessionManager) (timestamp : String) (data : EntryData) :
    SessionManager :=
  m.appendEntry { id := source.generate m.byId.keys, parentId := m.leafId, timestamp, data }

def appendMessage (source : IdSource) (m : SessionManager) (timestamp : String)
    (message : AgentMessage) (id : Option String) : SessionManager :=
  match truthy id with
  | none => m.append source timestamp (.message message)
  | some given =>
      if m.byId.has given then m.append source timestamp (.message message)
      else m.appendEntry { id := given, parentId := m.leafId, timestamp, data := .message message }

def removeLastEntry (m : SessionManager) : SessionManager :=
  match m.entries.getLast? with
  | none => m
  | some removed =>
      if removed.isCompaction then
        rebuildBranchUserMessageIndex { m with
          entries := m.entries.dropLast, byId := m.byId.delete removed.id,
          leafId := m.entries.dropLast.getLast?.map SessionEntry.id }
      else m

/-- `archiveAndRewrite` once the file is copied. -/
def rewrite (source : IdSource) (m : SessionManager) (timestamp : String) (archive : ArchivePath)
    (cut : CompactionCut) : SessionManager :=
  rebuildIndex { m with
    header := m.header.map fun header => { header with compactionArchive := some archive },
    entries := rewriteChain source timestamp m.byId.keys cut }

/-- Its rollback. -/
def rollback (m : SessionManager) (savedHeader : Option SessionHeader)
    (savedEntries : List SessionEntry) : SessionManager :=
  rebuildIndex { m with header := savedHeader, entries := savedEntries }

/-- `restoreFromArchive`, of what the archive has. -/
def restoreFromArchive (m : SessionManager) (parsed : List FileEntry) : SessionManager :=
  match parsed.findSome? FileEntry.header? with
  | none => m
  | some header =>
      rebuildIndex { m with
        header := some { header with compactionArchive := none },
        entries := parsed.filterMap FileEntry.entry? }

end SessionManager

/-! ## Runs -/

/-- Where an `archiveAndRewrite` awaits: the copy of the file, with the branch
    that was read; or the flush of the new file, with what it replaced. -/
inductive PendingRewrite where
  | copying (archive : ArchivePath) (cut : CompactionCut)
  | flushing (savedHeader : Option SessionHeader) (savedEntries : List SessionEntry)

structure ManagerWorld where
  manager : SessionManager
  calls   : List PendingRewrite

inductive ManagerOp where
  | newSession
  | setSessionFile
  | append
  | removeLastEntry
  | archiveAndRewrite
  | rewrite
  | rollback
  /-- A call ends and leaves the manager as it is. -/
  | ends
  | restoreFromArchive (parsed : List FileEntry)

/-- One operation; an `archiveAndRewrite` is three, and others may come between. -/
inductive ManagerStep (w : ManagerWorld) : ManagerOp → ManagerWorld → Prop where
  | newSession (header : SessionHeader) :
      ManagerStep w .newSession { w with manager := w.manager.newSession header }
  | setSessionFile (path : String) :
      ManagerStep w .setSessionFile { w with manager := w.manager.setSessionFile path }
  | append (source : IdSource) (timestamp : String) (data : EntryData) :
      ManagerStep w .append { w with manager := w.manager.append source timestamp data }
  | appendMessage (source : IdSource) (timestamp : String) (message : AgentMessage)
      (id : Option String) :
      ManagerStep w .append
        { w with manager := w.manager.appendMessage source timestamp message id }
  | removeLastEntry :
      ManagerStep w .removeLastEntry { w with manager := w.manager.removeLastEntry }
  | archiveAndRewrite (compactionEntryId firstKeptEntryId : String) (header : SessionHeader)
      (cut : CompactionCut) (hfile : w.manager.sessionFile.isSome)
      (hheader : w.manager.header = some header)
      (hcut : cutBranch w.manager.getBranch compactionEntryId firstKeptEntryId = some cut) :
      ManagerStep w .archiveAndRewrite { w with
        calls := w.calls ++
          [.copying (SessionFile.nextArchive { header, entries := w.manager.entries }) cut] }
  /-- Generated ids are random: none is that of an entry of the branch that was
      read. -/
  | rewrite (source : IdSource) (timestamp : String) (archive : ArchivePath) (cut : CompactionCut)
      (before after : List PendingRewrite)
      (hcalls : w.calls = before ++ .copying archive cut :: after)
      (hcompaction : cut.compaction.isCompaction)
      (hsource : ∀ existing, source.generate existing ∉ ids cut.branch) :
      ManagerStep w .rewrite
        { manager := w.manager.rewrite source timestamp archive cut,
          calls := before ++ .flushing w.manager.header w.manager.entries :: after }
  | rollback (savedHeader : Option SessionHeader) (savedEntries : List SessionEntry)
      (before after : List PendingRewrite)
      (hcalls : w.calls = before ++ .flushing savedHeader savedEntries :: after) :
      ManagerStep w .rollback
        { manager := w.manager.rollback savedHeader savedEntries, calls := before ++ after }
  | ends (call : PendingRewrite) (before after : List PendingRewrite)
      (hcalls : w.calls = before ++ call :: after) :
      ManagerStep w .ends { w with calls := before ++ after }
  | restoreFromArchive (parsed : List FileEntry) (hfile : w.manager.sessionFile.isSome) :
      ManagerStep w (.restoreFromArchive parsed)
        { w with manager := w.manager.restoreFromArchive parsed }

/-- A file has each entry once, after the entry that it is linked to. -/
def WellFormedFile (parsed : List FileEntry) : Prop :=
  WellLinked (parsed.filterMap FileEntry.entry?)

namespace ManagerWorld

/-- A new manager, or one of a file. -/
inductive Start : ManagerWorld → Prop where
  | created : Start { manager := .create, calls := [] }
  | opened (path : String) (parsed : List FileEntry) (hfile : WellFormedFile parsed) :
      Start { manager := .ofFile path parsed, calls := [] }

/-- No user message is on the branch when a session is started, and an archive
    that is restored has each entry once. -/
def Careful (w : ManagerWorld) : ManagerOp → Prop
  | .newSession => ∀ entry ∈ w.manager.getBranch, entry.userMessageId? = none
  | .restoreFromArchive parsed => WellFormedFile parsed
  | _ => True

def Reached : ManagerWorld → ManagerWorld → Prop :=
  Relation.ReflTransGen fun w w' => ∃ op, ManagerStep w op w' ∧ w.Careful op

end ManagerWorld

namespace SessionManager

/-- The indexes are those of the entries, and the answers those of a rebuild. -/
structure Matches (m : SessionManager) : Prop where
  byId   : m.byId.entries = m.entries.map fun entry => (entry.id, entry)
  leafId : m.leafId = m.entries.getLast?.map SessionEntry.id
  has    : ∀ id, m.hasUserMessage id = m.rebuildBranchUserMessageIndex.hasUserMessage id
  find   : ∀ id, m.findUserMessageEntryId id =
    m.rebuildBranchUserMessageIndex.findUserMessageEntryId id

/-! ## Branches by id -/

/-- The entries are well linked, and every index is that of the entries. -/
structure Indexed (m : SessionManager) : Prop where
  linked : WellLinked m.entries
  byId : m.byId.entries = m.entries.map fun entry => (entry.id, entry)
  leafId : m.leafId = Agent.leafId m.entries
  userMessages : m.userMessages = .ofBranch (Agent.getBranch m.entries)

end SessionManager

variable {byId : OrderedMap String SessionEntry} {entries : List SessionEntry}

section

variable (h : byId.entries = entries.map fun entry => (entry.id, entry))
include h

theorem keys_byId : byId.keys = ids entries := by
  unfold OrderedMap.keys
  rw [h, map_map]
  rfl

theorem get?_byId (id : String) : byId.get? id = findEntry entries id := by
  cases hfind : findEntry entries id with
  | some entry =>
    obtain ⟨hmem, rfl⟩ := mem_of_findEntry hfind
    rw [← mem_entries_iff, h]
    exact mem_map_of_mem hmem
  | none =>
    by_contra hsome
    obtain ⟨entry, hentry⟩ := Option.ne_none_iff_exists'.mp hsome
    rw [← mem_entries_iff, h] at hentry
    obtain ⟨same, hmem, heq⟩ := mem_map.mp hentry
    have hnone := find?_eq_none.mp hfind same (mem_reverse.mpr hmem)
    exact hnone (decide_eq_true (congrArg Prod.fst heq))

theorem walkById_eq_walk (steps : Nat) :
    ∀ target, walkById byId steps target = walk entries steps target := by
  induction steps with
  | zero => exact fun _ => rfl
  | succ steps ih =>
    intro target
    have hget : byId.get? = findEntry entries := funext (get?_byId h)
    unfold walkById walk
    rw [hget]
    cases (truthy target).bind (findEntry entries) with
    | none => rfl
    | some entry => exact congrArg (· ++ [entry]) (ih entry.parentId)

end

namespace SessionManager

variable {m : SessionManager}

theorem getBranch_eq (hbyId : m.byId.entries = m.entries.map fun entry => (entry.id, entry))
    (hleafId : m.leafId = Agent.leafId m.entries) : m.getBranch = Agent.getBranch m.entries := by
  have hsize : m.byId.size = m.entries.length := by
    rw [OrderedMap.size, hbyId, length_map]
  rw [getBranch, hsize, hleafId, walkById_eq_walk hbyId]
  rfl

theorem Indexed.getBranch (h : m.Indexed) : m.getBranch = Agent.getBranch m.entries :=
  getBranch_eq h.byId h.leafId

theorem Indexed.rebuilt (h : m.Indexed) : m.rebuildBranchUserMessageIndex = m := by
  unfold rebuildBranchUserMessageIndex
  rw [h.getBranch, ← h.userMessages]

theorem Indexed.matches (h : m.Indexed) : m.Matches where
  byId := h.byId
  leafId := h.leafId
  has _ := by rw [h.rebuilt]
  find _ := by rw [h.rebuilt]

/-! ## Each operation -/

theorem indexed_rebuildIndex (h : WellLinked m.entries) : m.rebuildIndex.Indexed := by
  have hbyId : m.rebuildIndex.byId.entries = m.entries.map fun entry => (entry.id, entry) := by
    refine entries_ofList ?_
    rw [map_map]
    exact h.nodup
  have hbranch : m.rebuildIndex.getBranch = Agent.getBranch m.entries :=
    @getBranch_eq m.rebuildIndex hbyId rfl
  exact ⟨h, hbyId, rfl, congrArg UserMessages.ofBranch hbranch⟩

theorem indexed_create : create.Indexed where
  linked := .nil
  byId := rfl
  leafId := rfl
  userMessages := rfl

variable {parsed : List FileEntry}

theorem indexed_ofFile (path : String) (h : WellFormedFile parsed) :
    (ofFile path parsed).Indexed := by
  unfold ofFile
  split
  · exact ⟨.nil, rfl, rfl, rfl⟩
  · exact indexed_rebuildIndex h

theorem Indexed.appendEntry (h : m.Indexed) {entry : SessionEntry} (hnonempty : entry.id ≠ "")
    (hfresh : m.byId.has entry.id = false) (hparent : entry.parentId = m.leafId) :
    (m.appendEntry entry).Indexed := by
  have hkeys : entry.id ∉ m.byId.keys := by
    rw [mem_keys_iff, hfresh]
    exact Bool.false_ne_true
  have hids : entry.id ∉ ids m.entries := keys_byId h.byId ▸ hkeys
  rw [h.leafId] at hparent
  have hlinked : WellLinked (m.entries ++ [entry]) :=
    h.linked.concat hnonempty hids fun _ hp => leafId_mem (hparent ▸ hp)
  have hbranch : Agent.getBranch (m.entries ++ [entry]) = Agent.getBranch m.entries ++ [entry] :=
    getBranch_concat hlinked hparent
  refine ⟨hlinked, ?_, (leafId_concat m.entries entry).symm, ?_⟩
  · show OrderedMap.setEntry entry.id entry m.byId.entries =
      (m.entries ++ [entry]).map fun entry => (entry.id, entry)
    rw [setEntry_of_not_mem entry hkeys, h.byId, map_append]
    rfl
  · show m.userMessages.index entry = .ofBranch (Agent.getBranch (m.entries ++ [entry]))
    rw [hbranch, h.userMessages]
    exact (foldl_concat UserMessages.index _ entry _).symm

theorem Indexed.append (h : m.Indexed) (source : IdSource) (timestamp : String) (data : EntryData) :
    (m.append source timestamp data).Indexed := by
  refine h.appendEntry (source.nonempty _) ?_ rfl
  have hfresh := source.fresh m.byId.keys
  rw [mem_keys_iff, Bool.not_eq_true] at hfresh
  exact hfresh

theorem Indexed.appendMessage (h : m.Indexed) (source : IdSource) (timestamp : String)
    (message : AgentMessage) (id : Option String) :
    (m.appendMessage source timestamp message id).Indexed := by
  unfold SessionManager.appendMessage
  cases hgiven : truthy id with
  | none => exact h.append source timestamp _
  | some given =>
    dsimp only
    by_cases htaken : m.byId.has given = true
    · rw [if_pos htaken]
      exact h.append source timestamp _
    · rw [if_neg htaken]
      rw [Bool.not_eq_true] at htaken
      have hnonempty := (Option.mem_filter_iff.mp (show given ∈ truthy id from hgiven)).2
      exact h.appendEntry (of_decide_eq_true hnonempty) htaken rfl

theorem Indexed.removeLastEntry (h : m.Indexed) : m.removeLastEntry.Indexed := by
  unfold SessionManager.removeLastEntry
  cases hlast : m.entries.getLast? with
  | none => exact h
  | some removed =>
    dsimp only
    by_cases hcompaction : removed.isCompaction = true
    · rw [if_pos hcompaction]
      obtain ⟨entries, hentries⟩ := getLast?_eq_some_iff.mp hlast
      obtain ⟨hlinked, -, hfresh, -⟩ := (hentries ▸ h.linked).of_concat
      have hdrop : m.entries.dropLast = entries := by rw [hentries, dropLast_concat]
      have hbyId : (m.byId.delete removed.id).entries =
          entries.map fun entry => (entry.id, entry) := by
        show m.byId.entries.filter _ = _
        rw [h.byId, hentries, map_append, filter_append]
        have hself : (List.map (fun entry : SessionEntry => (entry.id, entry)) [removed]).filter
            (fun e => decide (e.1 ≠ removed.id)) = [] := by
          simp
        rw [hself, append_nil]
        refine filter_eq_self.mpr fun e he => ?_
        obtain ⟨entry, hentry, rfl⟩ := mem_map.mp he
        exact decide_eq_true fun heq => hfresh (heq ▸ mem_map_of_mem hentry)
      rw [hdrop]
      have hbranch := @getBranch_eq { m with
        entries, byId := m.byId.delete removed.id,
        leafId := entries.getLast?.map SessionEntry.id } hbyId rfl
      exact ⟨hlinked, hbyId, rfl, congrArg UserMessages.ofBranch hbranch⟩
    · rw [if_neg hcompaction]
      exact h

theorem Indexed.restoreFromArchive (h : m.Indexed)
    (hfile : WellFormedFile parsed) : (m.restoreFromArchive parsed).Indexed := by
  unfold SessionManager.restoreFromArchive
  cases parsed.findSome? FileEntry.header? with
  | none => exact h
  | some header => exact indexed_rebuildIndex hfile

end SessionManager

/-! ## A new session -/

theorem UserMessages.ofBranch_concat (branch : List SessionEntry) (entry : SessionEntry) :
    ofBranch (branch ++ [entry]) = (ofBranch branch).index entry :=
  foldl_concat _ _ _ _

variable {branch : List SessionEntry} {entry : SessionEntry} {id : String}

theorem UserMessages.ofBranch_of_none
    (h : ∀ entry ∈ branch, entry.userMessageId? = none) : ofBranch branch = empty := by
  induction branch using reverseRecOn with
  | nil => rfl
  | append_singleton branch entry ih =>
    rw [ofBranch_concat, ih fun e he => h e (mem_append_left _ he), index,
      h entry mem_concat_self]

theorem UserMessages.ofBranch_isSome
    (hentry : entry ∈ branch) (hid : entry.userMessageId? = some id) :
    ((ofBranch branch).userMessageEntryIds.get? id).isSome := by
  induction branch using reverseRecOn with
  | nil => cases hentry
  | append_singleton branch last ih =>
    rw [ofBranch_concat, index]
    cases hlast : last.userMessageId? with
    | none =>
      rcases mem_append.mp hentry with hold | hnew
      · exact ih hold
      · rw [mem_singleton.mp hnew, hlast] at hid
        cases hid
    | some other =>
      dsimp only
      rw [get?_set]
      split
      · rfl
      · next hne =>
        rcases mem_append.mp hentry with hold | hnew
        · exact ih hold
        · rw [mem_singleton.mp hnew, hlast] at hid
          exact absurd (Option.some.inj hid).symm hne

theorem trimmed_of_userMessageId?
    (h : entry.userMessageId? = some id) : ∃ value, id = Text.trim value := by
  have hmember : ∀ {metadata : Json} {key : String}, trimmedMember metadata key = some id →
      ∃ value, id = Text.trim value := by
    intro metadata key hkey
    obtain ⟨hvalue, -⟩ := Option.mem_filter_iff.mp (show id ∈ trimmedMember metadata key from hkey)
    obtain ⟨value, -, rfl⟩ := Option.map_eq_some_iff.mp hvalue
    exact ⟨value, rfl⟩
  unfold SessionEntry.userMessageId? at h
  split at h
  · obtain ⟨metadata, -, hid⟩ := Option.bind_eq_some_iff.mp h
    rcases Option.or_eq_some_iff.mp hid with hid | ⟨-, hid⟩
    · exact hmember hid
    · exact hmember hid
  · cases h

namespace SessionManager

variable {m : SessionManager}

theorem Indexed.newSession (h : m.Indexed)
    (hnone : ∀ entry ∈ m.getBranch, entry.userMessageId? = none) (header : SessionHeader) :
    (m.newSession header).Indexed := by
  rw [h.getBranch] at hnone
  refine ⟨.nil, rfl, rfl, ?_⟩
  show ({ m.userMessages with userMessageIds := [] } : UserMessages) = .empty
  rw [h.userMessages, UserMessages.ofBranch_of_none hnone]
  rfl

theorem Indexed.newSession_matches_iff (h : m.Indexed) (header : SessionHeader) :
    (m.newSession header).Matches ↔ ∀ entry ∈ m.getBranch, entry.userMessageId? = none := by
  constructor
  · intro hmatches entry hentry
    by_contra hsome
    obtain ⟨id, hid⟩ := Option.ne_none_iff_exists'.mp hsome
    rw [h.getBranch] at hentry
    have hold := UserMessages.ofBranch_isSome hentry hid
    rw [← h.userMessages] at hold
    obtain ⟨value, rfl⟩ := trimmed_of_userMessageId? hid
    have hfind : m.userMessages.userMessageEntryIds.get? (Text.trim value) = none :=
      hmatches.find value
    rw [hfind] at hold
    cases hold
  · exact fun hnone => (h.newSession hnone header).matches

end SessionManager

/-! ## Runs -/

/-- What a call holds can be put in place of the entries. -/
def PendingRewrite.Sound : PendingRewrite → Prop
  | .copying _ cut => (ids cut.branch).Nodup ∧ "" ∉ ids cut.branch
  | .flushing _ savedEntries => WellLinked savedEntries

namespace ManagerWorld

variable {start w w' : ManagerWorld}

structure Inv (w : ManagerWorld) : Prop where
  manager : w.manager.Indexed
  calls   : ∀ call ∈ w.calls, call.Sound

theorem Start.inv (h : Start w) : w.Inv := by
  cases h with
  | created => exact ⟨SessionManager.indexed_create, fun _ hcall => absurd hcall not_mem_nil⟩
  | opened path parsed hfile =>
    exact ⟨SessionManager.indexed_ofFile path hfile, fun _ hcall => absurd hcall not_mem_nil⟩

theorem Inv.split (h : w.Inv) {call : PendingRewrite} {before after : List PendingRewrite}
    (hcalls : w.calls = before ++ call :: after) :
    call.Sound ∧ ∀ other ∈ before ++ after, other.Sound := by
  have hall := h.calls
  rw [hcalls] at hall
  refine ⟨hall call (mem_append_right _ mem_cons_self), fun other hother => hall other ?_⟩
  exact mem_append.mpr ((mem_append.mp hother).imp_right (mem_cons_of_mem _))

theorem wellLinked_rewriteChain {source : IdSource} {timestamp : String} {existing : List String}
    {cut : CompactionCut} (hnodup : (ids cut.branch).Nodup) (hnonempty : "" ∉ ids cut.branch)
    (hsource : ∀ existing, source.generate existing ∉ ids cut.branch) :
    WellLinked (rewriteChain source timestamp existing cut) := by
  have hids := @rewriteChain_ids source timestamp existing cut hnodup hnonempty <| by
    intro id hid
    obtain ⟨entry, hentry, rfl⟩ := mem_map.mp hid
    obtain ⟨taken, htaken⟩ := createSettingEntries_generated entry hentry
    rw [htaken]
    exact hsource taken
  exact ((linear_rechain _).wellLinked hids.1 hids.2).1

theorem Inv.step (h : w.Inv) {op : ManagerOp} (hstep : ManagerStep w op w')
    (hcareful : w.Careful op) : w'.Inv := by
  cases hstep with
  | newSession header => exact ⟨h.manager.newSession hcareful header, h.calls⟩
  | setSessionFile path =>
    exact ⟨⟨h.manager.linked, h.manager.byId, h.manager.leafId, h.manager.userMessages⟩, h.calls⟩
  | append source timestamp data => exact ⟨h.manager.append source timestamp data, h.calls⟩
  | appendMessage source timestamp message id =>
    exact ⟨h.manager.appendMessage source timestamp message id, h.calls⟩
  | removeLastEntry => exact ⟨h.manager.removeLastEntry, h.calls⟩
  | archiveAndRewrite compactionEntryId firstKeptEntryId header cut hfile hheader hcut =>
    refine ⟨h.manager, fun call hcall => ?_⟩
    rcases mem_append.mp hcall with hold | hnew
    · exact h.calls call hold
    · rw [mem_singleton.mp hnew]
      rw [h.manager.getBranch] at hcut
      have hbranch : cut.branch = Agent.getBranch w.manager.entries := (cutBranch_some hcut).1.symm
      refine ⟨hbranch ▸ nodup_getBranch h.manager.linked, fun hempty => ?_⟩
      rw [hbranch] at hempty
      exact h.manager.linked.nonempty (((walk_sublist h.manager.linked _).map _).subset hempty)
  | rewrite source timestamp archive cut before after hcalls hcompaction hsource =>
    obtain ⟨⟨hnodup, hnonempty⟩, hothers⟩ := h.split hcalls
    have hchain := @wellLinked_rewriteChain source timestamp w.manager.byId.keys cut hnodup
      hnonempty hsource
    refine ⟨SessionManager.indexed_rebuildIndex hchain, fun call hcall => ?_⟩
    rcases mem_append.mp hcall with hbefore | hrest
    · exact hothers call (mem_append_left _ hbefore)
    · rcases mem_cons.mp hrest with rfl | hafter
      · exact h.manager.linked
      · exact hothers call (mem_append_right _ hafter)
  | rollback savedHeader savedEntries before after hcalls =>
    obtain ⟨hsaved, hothers⟩ := h.split hcalls
    exact ⟨@SessionManager.indexed_rebuildIndex
      { w.manager with header := savedHeader, entries := savedEntries } hsaved, hothers⟩
  | ends call before after hcalls => exact ⟨h.manager, (h.split hcalls).2⟩
  | restoreFromArchive parsed hfile => exact ⟨h.manager.restoreFromArchive hcareful, h.calls⟩

theorem Reached.inv (hstart : Start start) (h : Reached start w) : w.Inv := by
  induction h with
  | refl => exact hstart.inv
  | tail _ hstep ih =>
    obtain ⟨op, hstep, hcareful⟩ := hstep
    exact ih.step hstep hcareful

/-- In every state of a careful run the indexes are those of the entries.  A
    new session keeps them so exactly where it is careful. -/
theorem session_indexes_match (hstart : Start start) (hreached : Reached start w) :
    w.manager.Matches ∧ ∀ header, (w.manager.newSession header).Matches ↔
      ∀ entry ∈ w.manager.getBranch, entry.userMessageId? = none := by
  have hinv := hreached.inv hstart
  exact ⟨hinv.manager.matches, hinv.manager.newSession_matches_iff⟩

/-! ## Runs that are not careful -/

def AnyRun : ManagerWorld → ManagerWorld → Prop :=
  Relation.ReflTransGen fun w w' => ∃ op, ManagerStep w op w'

def sampleHeader (id : String) : SessionHeader where
  version := 3
  id := id
  timestamp := "t"
  cwd := "/"
  parentSession := none
  affinity := none
  compactionArchive := none

def userMessage (messageId : String) : AgentMessage where
  role := "user"
  provider := none
  model := none
  rest := .obj [("meta", .obj [("messageId", .str messageId)])]

/-- A new session with the message `u` at the entry `a`. -/
def promptedSession : ManagerWorld where
  manager := (SessionManager.create.newSession (sampleHeader "s")).appendMessage longerIds "t"
    (userMessage "u") (some "a")
  calls := []

theorem reached_promptedSession : Reached { manager := .create, calls := [] } promptedSession :=
  (Relation.ReflTransGen.refl.tail ⟨.newSession, .newSession (sampleHeader "s"),
    fun _ h => absurd h not_mem_nil⟩).tail
    ⟨.append, .appendMessage longerIds "t" (userMessage "u") (some "a"), trivial⟩

/-- A compaction that is written twice, by a rewrite and by its own line. -/
def doubledFile : List FileEntry :=
  let compaction : SessionEntry :=
    { id := "c", parentId := some "a", timestamp := "t",
      data := .compaction { summary := "", firstKeptEntryId := "a", tokensBefore := 0,
                            details := none, fromHook := none } }
  [.session (sampleHeader "s"),
    .entry { id := "a", parentId := none, timestamp := "t", data := .message (userMessage "u") },
    .entry compaction, .entry compaction]

/-- A new session still finds the entry of an old message.  Where an archive has
    an entry twice, the removal of one takes the other out of the map. -/
theorem stale_session_indexes :
    (¬ ∀ start w : ManagerWorld, Start start → AnyRun start w → w.manager.Matches) ∧
      ∃ w : ManagerWorld, AnyRun promptedSession w ∧
        w.manager.entries.map SessionEntry.id = ["a", "c"] ∧ w.manager.byId.keys = ["a"] := by
  constructor
  · intro hall
    have hrun : AnyRun { manager := .create, calls := [] } promptedSession :=
      reached_promptedSession.lift id fun _ _ ⟨op, hstep, _⟩ => ⟨op, hstep⟩
    have hmatches := hall _ _ .created (hrun.tail ⟨_, .newSession (sampleHeader "s'")⟩)
    exact absurd (hmatches.find "u") (by decide +kernel)
  · let restored := (promptedSession.manager.setSessionFile "p").restoreFromArchive doubledFile
    refine ⟨{ manager := restored.removeLastEntry, calls := [] }, ?_, by decide +kernel,
      by decide +kernel⟩
    exact ((Relation.ReflTransGen.refl.tail ⟨_, .setSessionFile "p"⟩).tail
      ⟨_, .restoreFromArchive doubledFile rfl⟩).tail ⟨_, .removeLastEntry⟩

theorem session_indexes_match_prompted :
    promptedSession.manager.Matches ∧
      ¬ (promptedSession.manager.newSession (sampleHeader "s'")).Matches := by
  obtain ⟨hmatches, hnew⟩ := session_indexes_match .created reached_promptedSession
  refine ⟨hmatches, fun h => ?_⟩
  have hnone := (hnew _).mp h
    { id := "a", parentId := none, timestamp := "t", data := .message (userMessage "u") }
  exact absurd (hnone (by decide +kernel)) (by decide +kernel)

end ManagerWorld

end Cohub.Agent
