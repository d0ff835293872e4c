import Mathlib.Logic.Relation
import Cohub.Agent.Rewrite

/-! # The archives of a session

    A compaction copies the session's file to an archive and links the new file
    to it, so the dropped entries are found through the chain of links.  Each
    archive has the number after the one that its file links to:

    - Numbers fall along a chain, so a new archive replaces none of its files.
    - A message is in the first file of the chain that has its id.
    - An undone compaction takes the link away.  Older archives are then lost,
      unless the current file has every message of the past. -/

namespace Cohub.Agent

open List

/-! ## Branches from archives -/

/-- The files in `archives`. -/
abbrev Archives := ArchivePath → Option SessionFile

def Archives.store (archives : Archives) (path : ArchivePath) (file : SessionFile) : Archives :=
  fun other => if other = path then some file else archives other

/-- `recoverBranchFromArchive`, with the number of links that it may follow. -/
def recoverBranchFromArchive (archives : Archives) (leafId : String) :
    Nat → Option ArchivePath → List SessionEntry
  | 0, _ => []
  | _, none => []
  | depth + 1, some archivePath =>
      match archives archivePath with
      | none => []
      | some archive =>
          let path := pathTo archive.entries leafId
          if path = [] then recoverBranchFromArchive archives leafId depth archive.header.compactionArchive
          else path

/-- The entries of the file that `createBranchedSession` writes; `none` where
    it throws. -/
def createBranchedSession (archives : Archives) (m : SessionFile) (leafId : String) :
    Option (List SessionEntry) :=
  let pathEntries := pathTo m.entries leafId
  let pathEntries :=
    if pathEntries = [] then recoverBranchFromArchive archives leafId 32 m.header.compactionArchive
    else pathEntries
  if pathEntries = [] then none else some pathEntries

/-- `restoreFromArchive` of an archive that exists. -/
def restore (archives : Archives) (archivePath : ArchivePath) : Option SessionFile :=
  (archives archivePath).map SessionFile.restoreFromArchive

/-- `appendMessage`: a given id is taken if no entry has it. -/
def SessionFile.appendMessage (source : IdSource) (m : SessionFile) (timestamp : String)
    (message : AgentMessage) (id : Option String) : SessionFile :=
  match truthy id with
  | none => m.append source timestamp (.message message)
  | some given =>
      if given ∈ ids m.entries then m.append source timestamp (.message message)
      else { m with entries := appendAt m.entries given timestamp (.message message) }

/-! ## A session with its archives -/

/-- `history` has the branch to each message that was ever on it, as it was
    last. -/
structure SessionWorld where
  manager  : SessionFile
  archives : Archives
  history  : String → Option (List SessionEntry)

namespace SessionWorld

def newSession (header : SessionHeader) : SessionWorld where
  manager := { header, entries := [] }
  archives := fun _ => none
  history := fun _ => none

/-- The session goes on with a manager and archives. -/
def next (w : SessionWorld) (m : SessionFile) (archives : Archives) : SessionWorld where
  manager := m
  archives := archives
  history := fun id =>
    if m.entries.any (fun entry => entry.isMessage && decide (entry.id = id)) then
      some (pathTo m.entries id)
    else w.history id

/-- Generated ids are random: none is that of a message of the past. -/
def Unseen (w : SessionWorld) (source : IdSource) : Prop :=
  ∀ existing, w.history (source.generate existing) = none

/-- The current file has every message of the past. -/
def Whole (w : SessionWorld) : Prop := ∀ id, (w.history id).isSome → id ∈ ids w.manager.entries

end SessionWorld

inductive SessionOp where
  | append
  | compacted
  | compactionFailed
  | compactionUndone
deriving DecidableEq

inductive SessionStep (w : SessionWorld) : SessionOp → SessionWorld → Prop where
  | message (source : IdSource) (hsource : w.Unseen source) (timestamp : String)
      (message : AgentMessage) (id : Option String) :
      SessionStep w .append (w.next (w.manager.appendMessage source timestamp message id) w.archives)
  /-- Any entry with a generated id. -/
  | append (source : IdSource) (hsource : w.Unseen source) (timestamp : String) (data : EntryData) :
      SessionStep w .append (w.next (w.manager.append source timestamp data) w.archives)
  | compacted (source : IdSource) (hsource : w.Unseen source) (stamp now : String)
      (compaction : Compaction) (rewritten : SessionFile)
      (hrewrite : (w.manager.append source stamp (.compaction compaction)).archiveAndRewrite source now
        (w.manager.nextId source) compaction.firstKeptEntryId = some rewritten) :
      SessionStep w .compacted (w.next rewritten (w.archives.store w.manager.nextArchive
        (w.manager.append source stamp (.compaction compaction))))
  /-- The rewrite refuses or fails, with its archive not written, or partly, or
      as a whole. -/
  | compactionFailed (source : IdSource) (hsource : w.Unseen source) (stamp : String)
      (compaction : Compaction) (archives : Archives)
      (hothers : ∀ path ≠ w.manager.nextArchive, archives path = w.archives path) :
      SessionStep w .compactionFailed
        (w.next (w.manager.append source stamp (.compaction compaction)).removeLastEntry archives)
  /-- The rewrite succeeds, and its archive is restored. -/
  | compactionUndone (source : IdSource) (hsource : w.Unseen source) (stamp now : String)
      (compaction : Compaction) (rewritten restored : SessionFile)
      (hrewrite : (w.manager.append source stamp (.compaction compaction)).archiveAndRewrite source now
        (w.manager.nextId source) compaction.firstKeptEntryId = some rewritten)
      (hrestored : restore (w.archives.store w.manager.nextArchive
        (w.manager.append source stamp (.compaction compaction))) w.manager.nextArchive =
          some restored) :
      SessionStep w .compactionUndone (w.next restored (w.archives.store w.manager.nextArchive
        (w.manager.append source stamp (.compaction compaction))))

/-- A file of the chain, so many links from the first. -/
inductive Chain (archives : Archives) : SessionFile → Nat → SessionFile → Prop where
  | here (m : SessionFile) : Chain archives m 0 m
  | link {m archive file : SessionFile} {path : ArchivePath} {depth : Nat}
      (hlink : m.header.compactionArchive = some path) (harchive : archives path = some archive)
      (h : Chain archives archive depth file) : Chain archives m (depth + 1) file

/-- A file of the chain links to the archive. -/
def SessionWorld.Referenced (w : SessionWorld) (path : ArchivePath) : Prop :=
  ∃ depth file, Chain w.archives w.manager depth file ∧ file.header.compactionArchive = some path

/-- A message of the past is in a file of the chain, and a session branches
    off from it if it is within 32 links. -/
def SessionWorld.Retains (w : SessionWorld) (id : String) (path : List SessionEntry) : Prop :=
  ∃ depth file, Chain w.archives w.manager depth file ∧ pathTo file.entries id = path ∧
    (depth ≤ 32 → createBranchedSession w.archives w.manager id = some path)

/-! ## Where a message is found -/

/-- The first file of the chain that has the id is so many links away. -/
inductive FirstAt (archives : Archives) (id : String) (path : List SessionEntry) :
    SessionFile → Nat → Prop where
  | here {m : SessionFile} (hpath : pathTo m.entries id = path) (hne : path ≠ []) :
      FirstAt archives id path m 0
  | link {m archive : SessionFile} {archivePath : ArchivePath} {depth : Nat}
      (hmissing : pathTo m.entries id = [])
      (hlink : m.header.compactionArchive = some archivePath)
      (harchive : archives archivePath = some archive)
      (h : FirstAt archives id path archive depth) : FirstAt archives id path m (depth + 1)

section FirstAt

variable {archives : Archives} {id : String} {path : List SessionEntry} {m : SessionFile}
  {depth : Nat}

section

variable (h : FirstAt archives id path m depth)
include h

theorem FirstAt.ne_nil : path ≠ [] := by
  induction h with
  | here _ hne => exact hne
  | link _ _ _ _ ih => exact ih

theorem FirstAt.chain :
    ∃ file, Chain archives m depth file ∧ pathTo file.entries id = path := by
  induction h with
  | here hpath _ => exact ⟨_, .here _, hpath⟩
  | link _ hlink harchive _ ih =>
    obtain ⟨file, hchain, hfile⟩ := ih
    exact ⟨file, .link hlink harchive hchain, hfile⟩

theorem FirstAt.congr {m' : SessionFile} (hsame : pathTo m'.entries id = pathTo m.entries id)
    (hlink' : m'.header.compactionArchive = m.header.compactionArchive) :
    FirstAt archives id path m' depth := by
  cases h with
  | here hpath hne => exact .here (hsame.trans hpath) hne
  | link hmissing hlink harchive h =>
    exact .link (hsame.trans hmissing) (hlink'.trans hlink) harchive h

theorem FirstAt.recover :
    ∀ {archivePath : ArchivePath} {fuel : Nat}, archives archivePath = some m → depth < fuel →
      recoverBranchFromArchive archives id fuel (some archivePath) = path := by
  induction h with
  | here hpath hne =>
    intro archivePath fuel harchive hfuel
    obtain ⟨fuel, rfl⟩ : ∃ rest, fuel = rest + 1 := ⟨fuel - 1, by omega⟩
    rw [recoverBranchFromArchive, harchive]
    dsimp only
    rw [hpath, if_neg hne]
  | link hmissing hlink hnext _ ih =>
    intro archivePath fuel harchive hfuel
    obtain ⟨fuel, rfl⟩ : ∃ rest, fuel = rest + 1 := ⟨fuel - 1, by omega⟩
    rw [recoverBranchFromArchive, harchive]
    dsimp only
    rw [if_pos hmissing, hlink]
    exact ih hnext (by omega)

theorem FirstAt.branched (hdepth : depth ≤ 32) :
    createBranchedSession archives m id = some path := by
  have hne := h.ne_nil
  unfold createBranchedSession
  cases h with
  | here hpath _ =>
    dsimp only
    rw [hpath, if_neg hne, if_neg hne]
  | link hmissing hlink harchive h =>
    dsimp only
    rw [if_pos hmissing, hlink, h.recover harchive (by omega), if_neg hne]

end

end FirstAt

/-! ## Archive numbers -/

/-- Numbers fall along the links, from below `bound`. -/
inductive Below (archives : Archives) : Nat → Option ArchivePath → Prop where
  | root (bound : Nat) : Below archives bound none
  | link {bound : Nat} {path : ArchivePath} {archive : SessionFile} (hlt : path.number < bound)
      (harchive : archives path = some archive)
      (h : Below archives path.number archive.header.compactionArchive) :
      Below archives bound (some path)

section Below

variable {archives archives' : Archives} {bound : Nat}

theorem Below.frame {link : Option ArchivePath} (h : Below archives bound link)
    (hsame : ∀ path : ArchivePath, path.number < bound → archives' path = archives path) :
    Below archives' bound link := by
  induction h with
  | root bound => exact .root bound
  | link hlt harchive _ ih =>
    exact .link hlt ((hsame _ hlt).trans harchive) (ih fun path hpath => hsame path (hpath.trans hlt))

variable {m : SessionFile} {depth : Nat}

theorem FirstAt.frame {id : String} {path : List SessionEntry}
    (h : FirstAt archives id path m depth) :
    ∀ {bound : Nat}, Below archives bound m.header.compactionArchive →
      (∀ path : ArchivePath, path.number < bound → archives' path = archives path) →
      FirstAt archives' id path m depth := by
  induction h with
  | here hpath hne => exact fun _ _ => .here hpath hne
  | link hmissing hlink harchive _ ih =>
    intro bound hbelow hsame
    rw [hlink] at hbelow
    cases hbelow with
    | link hlt harchive' hbelow =>
      obtain rfl := Option.some.inj (harchive.symm.trans harchive')
      exact .link hmissing hlink ((hsame _ hlt).trans harchive)
        (ih hbelow fun path hpath => hsame path (hpath.trans hlt))

theorem Chain.number_lt {file : SessionFile} (h : Chain archives m depth file) :
    ∀ {bound : Nat}, Below archives bound m.header.compactionArchive →
      ∀ path ∈ file.header.compactionArchive, path.number < bound := by
  induction h with
  | here m =>
    intro bound hbelow path hpath
    rw [hpath] at hbelow
    cases hbelow with
    | link hlt _ _ => exact hlt
  | link hlink harchive _ ih =>
    intro bound hbelow path hpath
    rw [hlink] at hbelow
    cases hbelow with
    | link hlt harchive' hbelow =>
      obtain rfl := Option.some.inj (harchive.symm.trans harchive')
      exact (ih hbelow path hpath).trans hlt

theorem store_nextArchive (archives : Archives) (m file : SessionFile) :
    ∀ path : ArchivePath, path.number < m.nextArchiveNumber →
      archives.store m.nextArchive file path = archives path := by
  intro path hpath
  refine if_neg ?_
  rintro rfl
  exact lt_irrefl _ hpath

end Below

/-! ## Entries with an id -/

variable {entries : List SessionEntry} {id : String}

theorem pathTo_eq_nil (h : id ∉ ids entries) : pathTo entries id = [] := by
  have hfind : (truthy (some id)).bind (findEntry entries) = none := by
    refine Option.eq_none_iff_forall_ne_some.mpr fun entry hentry => ?_
    obtain ⟨other, hother, hfound⟩ := Option.bind_eq_some_iff.mp hentry
    obtain ⟨hmem, rfl⟩ := mem_of_findEntry hfound
    have hid := (Option.mem_filter_iff.mp (show entry.id ∈ truthy (some id) from hother)).1
    exact h (Option.some.inj hid ▸ mem_map_of_mem hmem)
  unfold pathTo
  cases entries.length with
  | zero => rfl
  | succ steps => rw [walk, hfind]

theorem pathTo_ne_nil (h : WellLinked entries)
    (hid : id ∈ ids entries) : pathTo entries id ≠ [] := by
  induction h with
  | nil => cases hid
  | @concat entries entry h hnonempty hfresh hparent ih =>
    have hall := h.concat hnonempty hfresh hparent
    by_cases hself : id = entry.id
    · rw [hself, pathTo_concat_self hall]
      exact concat_ne_nil _ _
    · rw [pathTo_concat_of_ne hall hself]
      rw [ids_concat, mem_append, mem_singleton] at hid
      exact ih (hid.resolve_right hself)

theorem mem_rewriteChain {source : IdSource} {timestamp : String}
    {compactionEntryId firstKeptEntryId : String} {cut : CompactionCut} (h : WellLinked entries)
    (hcut : cutBranch (getBranch entries) compactionEntryId firstKeptEntryId = some cut)
    {entry : SessionEntry} (hentry : entry ∈ rewriteChain source timestamp (ids entries) cut) :
    (∃ taken, entry.id = source.generate taken) ∨
      ∃ old ∈ entries, entry.id = old.id ∧ entry.data = old.data := by
  obtain ⟨hbranch, -, -, -⟩ := cutBranch_some hcut
  have hmem : ∀ old ∈ cut.dropped ++ cut.kept ++ cut.compaction :: cut.after, old ∈ entries := by
    rw [← hbranch]
    exact (walk_sublist h _).subset
  obtain ⟨old, hold, hid, hdata⟩ := mem_rechain hentry
  rw [cons_append, cons_append, mem_cons, mem_append, mem_append] at hold
  rcases hold with rfl | (hpinned | hkept) | hafter
  · exact .inr ⟨_, hmem _ (by simp), hid, hdata⟩
  · obtain ⟨taken, htaken⟩ := createSettingEntries_generated old hpinned
    exact .inl ⟨taken, hid.trans htaken⟩
  · exact .inr ⟨old, hmem old (by simp [mem_of_mem_filter hkept]), hid, hdata⟩
  · exact .inr ⟨old, hmem old (by simp [hafter]), hid, hdata⟩

/-! ## The invariant -/

namespace SessionWorld

structure Inv (w : SessionWorld) : Prop where
  linked : WellLinked w.manager.entries
  below  : Below w.archives w.manager.nextArchiveNumber w.manager.header.compactionArchive
  /-- Ids of other entries are not those of messages. -/
  silent : ∀ entry ∈ w.manager.entries, entry.isMessage = false → w.history entry.id = none
  first  : ∀ id path, w.history id = some path → ∃ depth, FirstAt w.archives id path w.manager depth

variable {w : SessionWorld} {header : SessionHeader}

theorem inv_newSession (hnew : header.compactionArchive = none) :
    (newSession header).Inv where
  linked := .nil
  below := by
    show Below _ _ header.compactionArchive
    rw [hnew]
    exact .root _
  silent _ hentry := absurd hentry not_mem_nil
  first _ _ hpath := by cases hpath

variable {m : SessionFile} {id : String} {archives : Archives}

theorem inv_next (hlinked : WellLinked m.entries)
    (hbelow : Below archives m.nextArchiveNumber m.header.compactionArchive)
    (hsilent : ∀ entry ∈ m.entries, entry.isMessage = false → w.history entry.id = none)
    (hgone : ∀ id path, w.history id = some path → id ∉ ids m.entries →
      ∃ depth, FirstAt archives id path m depth) :
    (w.next m archives).Inv where
  linked := hlinked
  below := hbelow
  silent := by
    intro entry hentry hother
    show (if _ then _ else _) = none
    rw [if_neg, hsilent entry hentry hother]
    rw [any_eq_true]
    rintro ⟨message, hmessage, hsame⟩
    rw [Bool.and_eq_true, decide_eq_true_iff] at hsame
    -- two entries of the file with the same id are one
    obtain rfl : message = entry :=
      inj_on_of_nodup_map hlinked.nodup hmessage hentry hsame.2
    rw [hother] at hsame
    exact Bool.false_ne_true hsame.1
  first := by
    intro id path hpath
    change (if _ then _ else _) = some path at hpath
    split at hpath
    · next hany =>
      obtain ⟨message, hmessage, hsame⟩ := any_eq_true.mp hany
      rw [Bool.and_eq_true, decide_eq_true_iff] at hsame
      have hid : id ∈ ids m.entries := hsame.2 ▸ mem_map_of_mem hmessage
      injection hpath with hpath
      exact ⟨0, .here hpath (hpath ▸ pathTo_ne_nil hlinked hid)⟩
    · next hany =>
      refine hgone id path hpath fun hid => ?_
      obtain ⟨entry, hentry, rfl⟩ := mem_map.mp hid
      cases hmessage : entry.isMessage with
      | true => exact hany (any_eq_true.mpr ⟨entry, hentry, by simp [hmessage]⟩)
      | false =>
        rw [hsilent entry hentry hmessage] at hpath
        cases hpath

theorem Inv.pathTo_append (h : w.Inv) (hnonempty : id ≠ "") (hfresh : id ∉ ids w.manager.entries)
    (timestamp : String) (data : EntryData) {other : String} (hne : other ≠ id) :
    pathTo (appendAt w.manager.entries id timestamp data) other = pathTo w.manager.entries other :=
  pathTo_concat_of_ne (h.linked.appendAt hnonempty hfresh timestamp data) hne

theorem Inv.append (h : w.Inv) (hnonempty : id ≠ "")
    (hfresh : id ∉ ids w.manager.entries) (timestamp : String) (data : EntryData)
    (hdata : ({ id, parentId := leafId w.manager.entries, timestamp, data } : SessionEntry).isMessage =
      false → w.history id = none) :
    (w.next { w.manager with entries := appendAt w.manager.entries id timestamp data }
      w.archives).Inv := by
  refine inv_next (h.linked.appendAt hnonempty hfresh timestamp data) h.below ?_ ?_
  · intro entry hentry hother
    rcases mem_append.mp hentry with hold | hnew
    · exact h.silent entry hold hother
    · obtain rfl := mem_singleton.mp hnew
      exact hdata hother
  · intro other path hpath hgone
    obtain ⟨depth, hfirst⟩ := h.first other path hpath
    refine ⟨depth, hfirst.congr (h.pathTo_append hnonempty hfresh timestamp data ?_) rfl⟩
    rintro rfl
    exact hgone (by simp [appendAt, ids])

theorem appendMessage_cases (source : IdSource) (m : SessionFile) (timestamp : String)
    (message : AgentMessage) (id : Option String) :
    ∃ taken, taken ≠ "" ∧ taken ∉ ids m.entries ∧
      m.appendMessage source timestamp message id =
        { m with entries := appendAt m.entries taken timestamp (.message message) } := by
  have hgenerated : source.generate (ids m.entries) ≠ "" ∧
      source.generate (ids m.entries) ∉ ids m.entries := ⟨source.nonempty _, source.fresh _⟩
  unfold SessionFile.appendMessage
  cases hid : truthy id with
  | none => exact ⟨_, hgenerated.1, hgenerated.2, rfl⟩
  | some given =>
    dsimp only
    split
    · exact ⟨_, hgenerated.1, hgenerated.2, rfl⟩
    · next hfresh =>
      have hgiven := Option.mem_filter_iff.mp (show given ∈ truthy id from hid)
      exact ⟨given, of_decide_eq_true hgiven.2, hfresh, rfl⟩

theorem archiveAndRewrite_some {source : IdSource} {rewritten : SessionFile}
    {now compactionEntryId firstKeptEntryId : String}
    (h : m.archiveAndRewrite source now compactionEntryId firstKeptEntryId = some rewritten) :
    ∃ cut, cutBranch (getBranch m.entries) compactionEntryId firstKeptEntryId = some cut ∧
      rewritten = { header := { m.header with compactionArchive := some m.nextArchive },
                    entries := rewriteChain source now (ids m.entries) cut } := by
  obtain ⟨cut, hcut, h⟩ := Option.bind_eq_some_iff.mp h
  split at h
  · injection h with h
    exact ⟨cut, hcut, h.symm⟩
  · cases h

section Compaction

variable {source : IdSource} {stamp : String} {compaction : Compaction}

theorem Inv.compacted (h : w.Inv) (hsource : w.Unseen source) :
    (w.next (w.manager.append source stamp (.compaction compaction)) w.archives).Inv :=
  h.append (source.nonempty _) (source.fresh _) _ _ fun _ => hsource _

theorem Inv.first_compacted (h : w.Inv) (hsource : w.Unseen source) {id : String}
    {path : List SessionEntry} (hpath : w.history id = some path) (file : SessionFile) :
    ∃ depth, FirstAt (w.archives.store w.manager.nextArchive file) id path
      (w.manager.append source stamp (.compaction compaction)) depth := by
  obtain ⟨depth, hfirst⟩ := h.first id path hpath
  have hframe := hfirst.frame h.below (store_nextArchive w.archives w.manager file)
  refine ⟨depth, hframe.congr (h.pathTo_append (source.nonempty _) (source.fresh _) _ _ ?_) rfl⟩
  rintro rfl
  rw [hsource] at hpath
  cases hpath

theorem Inv.rewritten (h : w.Inv) (hsource : w.Unseen source) {now : String}
    {rewritten : SessionFile}
    (hrewrite : (w.manager.append source stamp (.compaction compaction)).archiveAndRewrite source now
      (w.manager.nextId source) compaction.firstKeptEntryId = some rewritten) :
    (w.next rewritten (w.archives.store w.manager.nextArchive
      (w.manager.append source stamp (.compaction compaction)))).Inv := by
  have hcompacted := @Inv.compacted w source stamp compaction h hsource
  obtain ⟨cut, hcut, rfl⟩ := archiveAndRewrite_some hrewrite
  have hstored : w.archives.store w.manager.nextArchive
      (w.manager.append source stamp (.compaction compaction)) w.manager.nextArchive =
        some (w.manager.append source stamp (.compaction compaction)) := if_pos rfl
  refine inv_next (rewriteChain_linked hcompacted.linked hcut).2.1 ?_ ?_ ?_
  · refine .link (Nat.lt_succ_self _) hstored ?_
    exact h.below.frame (store_nextArchive _ _ _)
  · intro entry hentry hother
    rcases mem_rewriteChain hcompacted.linked hcut hentry with ⟨taken, hid⟩ | ⟨old, hold, hid, hdata⟩
    · rw [hid]
      exact hsource taken
    · rw [hid]
      have hsame : old.isMessage = false := by
        rw [← hother]
        unfold SessionEntry.isMessage
        rw [hdata]
      rcases mem_append.mp hold with hbefore | hnew
      · exact h.silent old hbefore hsame
      · rw [mem_singleton.mp hnew]
        exact hsource _
  · -- a message that is dropped is first in the new archive, or deeper
    intro id path hpath hgone
    obtain ⟨depth, hfirst⟩ := h.first_compacted hsource hpath _
    exact ⟨depth + 1, .link (pathTo_eq_nil hgone) rfl hstored hfirst⟩

theorem removeLastEntry_compacted (m : SessionFile) :
    (m.append source stamp (.compaction compaction)).removeLastEntry = m := by
  simp [SessionFile.removeLastEntry, SessionFile.append, appendAt, SessionEntry.isCompaction,
    SessionEntry.compaction?]

theorem Inv.failed (h : w.Inv) {archives : Archives}
    (hothers : ∀ path ≠ w.manager.nextArchive, archives path = w.archives path) :
    (w.next w.manager archives).Inv := by
  have hsame : ∀ path : ArchivePath, path.number < w.manager.nextArchiveNumber →
      archives path = w.archives path := by
    intro path hlt
    refine hothers path ?_
    rintro rfl
    exact lt_irrefl _ hlt
  refine inv_next h.linked (h.below.frame hsame) h.silent fun id path hpath _ => ?_
  obtain ⟨depth, hfirst⟩ := h.first id path hpath
  exact ⟨depth, hfirst.frame h.below hsame⟩

theorem Inv.undone (h : w.Inv) (hsource : w.Unseen source) (hwhole : w.Whole) (archives : Archives) :
    (w.next (w.manager.append source stamp (.compaction compaction)).restoreFromArchive
      archives).Inv := by
  have hcompacted := @Inv.compacted w source stamp compaction h hsource
  refine inv_next hcompacted.linked (.root _) ?_ ?_
  · intro entry hentry hother
    rcases mem_append.mp hentry with hold | hnew
    · exact h.silent entry hold hother
    · rw [mem_singleton.mp hnew]
      exact hsource _
  · intro id path hpath hgone
    have hmem : id ∈ ids w.manager.entries := hwhole id (by rw [hpath]; rfl)
    refine absurd ?_ hgone
    show id ∈ ids (appendAt w.manager.entries _ _ _)
    rw [appendAt, ids_append]
    exact mem_append_left _ hmem

end Compaction

variable {path : ArchivePath} {w' : SessionWorld}

theorem restore_store {file restored : SessionFile}
    (h : restore (archives.store path file) path = some restored) :
    restored = file.restoreFromArchive := by
  rw [restore, Archives.store, if_pos rfl] at h
  exact (Option.some.inj h).symm

theorem Inv.step (h : w.Inv) {op : SessionOp} {w' : SessionWorld} (hstep : SessionStep w op w')
    (hop : op = .compactionUndone → w.Whole) : w'.Inv := by
  cases hstep with
  | message source hsource timestamp message id =>
    obtain ⟨taken, hnonempty, hfresh, heq⟩ :=
      appendMessage_cases source w.manager timestamp message id
    rw [heq]
    exact h.append hnonempty hfresh timestamp _ nofun
  | append source hsource timestamp data =>
    exact h.append (source.nonempty _) (source.fresh _) timestamp data fun _ => hsource _
  | compacted source hsource stamp now compaction rewritten hrewrite =>
    exact h.rewritten hsource hrewrite
  | compactionFailed source hsource stamp compaction archives hothers =>
    rw [removeLastEntry_compacted]
    exact h.failed hothers
  | compactionUndone source hsource stamp now compaction rewritten restored hrewrite hrestored =>
    rw [restore_store hrestored]
    exact h.undone hsource (hop rfl) _

/-! ## Runs -/

/-- Runs from a new session in which a compaction is undone only where the
    current file has every message of the past. -/
def Reachable (header : SessionHeader) : SessionWorld → Prop :=
  Relation.ReflTransGen
    (fun w w' => ∃ op, SessionStep w op w' ∧ (op = .compactionUndone → w.Whole)) (newSession header)

theorem Reachable.inv (hnew : header.compactionArchive = none)
    (h : Reachable header w) : w.Inv := by
  induction h with
  | refl => exact inv_newSession hnew
  | tail _ hstep ih =>
    obtain ⟨op, hstep, hop⟩ := hstep
    exact ih.step hstep hop

theorem Inv.referenced (h : w.Inv) (hpath : w.Referenced path) {op : SessionOp}
    (hstep : SessionStep w op w') : w'.archives path = w.archives path := by
  obtain ⟨depth, file, hchain, hlink⟩ := hpath
  have hlt : path.number < w.manager.nextArchiveNumber := hchain.number_lt h.below path hlink
  have hne : path ≠ w.manager.nextArchive := by
    rintro rfl
    exact lt_irrefl _ hlt
  cases hstep with
  | message => rfl
  | append => rfl
  | compacted => exact if_neg hne
  | compactionFailed source hsource stamp compaction archives hothers => exact hothers path hne
  | compactionUndone => exact if_neg hne

theorem Inv.retains (h : w.Inv) {path : List SessionEntry}
    (hpath : w.history id = some path) : w.Retains id path := by
  obtain ⟨depth, hfirst⟩ := h.first id path hpath
  obtain ⟨file, hchain, hfile⟩ := hfirst.chain
  exact ⟨depth, file, hchain, hfile, hfirst.branched⟩

theorem Inv.undone_retains_iff (h : w.Inv) (hstep : SessionStep w .compactionUndone w') :
    (∀ id path, w'.history id = some path → w'.Retains id path) ↔ w.Whole := by
  constructor
  · intro hretains id hid
    obtain ⟨path, hpath⟩ := Option.isSome_iff_exists.mp hid
    cases hstep with
    | compactionUndone source hsource stamp now compaction rewritten restored _ hrestored =>
      obtain rfl := restore_store hrestored
      by_contra hgone
      have hgone' : id ∉ ids (w.manager.append source stamp (.compaction compaction)).entries := by
        show id ∉ ids (appendAt w.manager.entries _ _ _)
        rw [appendAt, ids_concat, mem_append, mem_singleton]
        rintro (hold | rfl)
        · exact hgone hold
        · rw [hsource] at hpath
          cases hpath
      have hkept : (w.next (w.manager.append source stamp (.compaction compaction)).restoreFromArchive
          (w.archives.store w.manager.nextArchive
            (w.manager.append source stamp (.compaction compaction)))).history id = some path := by
        refine (if_neg fun hany => hgone' ?_).trans hpath
        obtain ⟨entry, hentry, hsame⟩ := any_eq_true.mp hany
        rw [Bool.and_eq_true, decide_eq_true_iff] at hsame
        exact hsame.2 ▸ mem_map_of_mem hentry
      obtain ⟨depth, file, hchain, hfile, -⟩ := hretains id path hkept
      obtain ⟨_, hfirst⟩ := h.first id path hpath
      cases hchain with
      | here => exact hfirst.ne_nil (hfile.symm.trans (pathTo_eq_nil hgone'))
      | link hlink _ _ => cases hlink
  · exact fun hwhole id path hpath => (h.step hstep fun _ => hwhole).retains hpath

/-- Messages of the past stay within reach, and archives that are referenced
    are not written again.  An undone compaction keeps them within reach
    exactly where the current file has them all. -/
theorem archives_keep_history {header : SessionHeader} (hnew : header.compactionArchive = none)
    (hreachable : Reachable header w) :
    (∀ id path, w.history id = some path → w.Retains id path) ∧
      (∀ path, w.Referenced path → ∀ op w', SessionStep w op w' →
        w'.archives path = w.archives path) ∧
      ∀ w', SessionStep w .compactionUndone w' →
        ((∀ id path, w'.history id = some path → w'.Retains id path) ↔ w.Whole) := by
  have hinv := hreachable.inv hnew
  refine ⟨fun id path hpath => hinv.retains hpath, ?_, ?_⟩
  · exact fun path hpath op w' hstep => hinv.referenced hpath hstep
  · exact fun w' hstep => hinv.undone_retains_iff hstep

/-! ## A second compaction that is undone -/

/-- Messages of the past have these ids. -/
def Known (w : SessionWorld) (seen : List String) : Prop :=
  ∀ id, (w.history id).isSome → id ∈ seen

theorem Known.next {seen : List String} (h : w.Known seen)
    (hm : ∀ id ∈ ids (m.entries.filter SessionEntry.isMessage), id ∈ seen) (archives : Archives) :
    (w.next m archives).Known seen := by
  intro id hid
  change (if _ then _ else _ : Option _).isSome = true at hid
  split at hid
  · next hany =>
    obtain ⟨entry, hentry, hsame⟩ := any_eq_true.mp hany
    rw [Bool.and_eq_true, decide_eq_true_iff] at hsame
    exact hm id (hsame.2 ▸ mem_map_of_mem (mem_filter.mpr ⟨hentry, hsame.1⟩))
  · exact h id hid

theorem Known.unseen (h : w.Known ["a", "b", "c"]) : w.Unseen longerIds := by
  intro existing
  by_contra hseen
  exact longerId_not_mem existing (h _ (Option.isSome_iff_ne_none.mpr hseen))

/-- A message with this id is appended. -/
def afterMessage (w : SessionWorld) (id : String) : SessionWorld :=
  w.next (w.manager.appendMessage longerIds "t" sampleMessage (some id)) w.archives

/-- The file with a compaction that keeps the entries from this one on. -/
def compactedAt (w : SessionWorld) (kept : String) : SessionFile :=
  w.manager.append longerIds "t" (.compaction { sampleCompaction with firstKeptEntryId := kept })

def rewrittenAt (w : SessionWorld) (kept : String) : Option SessionFile :=
  (w.compactedAt kept).archiveAndRewrite longerIds "u" (w.manager.nextId longerIds) kept

def afterCompaction (w : SessionWorld) (kept : String) : SessionWorld :=
  w.next ((w.rewrittenAt kept).getD w.manager)
    (w.archives.store w.manager.nextArchive (w.compactedAt kept))

def afterUndone (w : SessionWorld) (kept : String) : SessionWorld :=
  w.next (w.compactedAt kept).restoreFromArchive
    (w.archives.store w.manager.nextArchive (w.compactedAt kept))

/-- Messages `a` and `b`, a compaction that keeps `b`, and message `c`. -/
def sampleWorld : SessionWorld :=
  ((((newSession (sampleManager (.message sampleMessage)).header).afterMessage "a").afterMessage
    "b").afterCompaction "b").afterMessage "c"

/-- A run with messages `a`, `b` and `c` only. -/
def Sampled (w : SessionWorld) : Prop :=
  Reachable (sampleManager (.message sampleMessage)).header w ∧ w.Known ["a", "b", "c"]

theorem Sampled.afterMessage (h : w.Sampled) (id : String)
    (hm : ∀ other ∈ ids ((w.afterMessage id).manager.entries.filter SessionEntry.isMessage),
      other ∈ ["a", "b", "c"]) : (w.afterMessage id).Sampled :=
  ⟨h.1.tail ⟨.append, .message longerIds h.2.unseen "t" sampleMessage (some id), nofun⟩,
    h.2.next hm _⟩

theorem Sampled.afterCompaction (h : w.Sampled) (kept : String)
    (hrewrite : (w.rewrittenAt kept).isSome)
    (hm : ∀ other ∈ ids ((w.afterCompaction kept).manager.entries.filter SessionEntry.isMessage),
      other ∈ ["a", "b", "c"]) : (w.afterCompaction kept).Sampled := by
  obtain ⟨rewritten, hrewritten⟩ := Option.isSome_iff_exists.mp hrewrite
  refine ⟨h.1.tail ⟨.compacted, ?_, nofun⟩, h.2.next hm _⟩
  unfold SessionWorld.afterCompaction
  rw [hrewritten]
  exact .compacted longerIds h.2.unseen "t" "u" _ rewritten hrewritten

theorem sampled_sampleWorld : sampleWorld.Sampled := by
  have hnew : (newSession (sampleManager (.message sampleMessage)).header).Sampled :=
    ⟨.refl, fun id hid => by cases hid⟩
  exact (((hnew.afterMessage "a" (by decide +kernel)).afterMessage "b"
    (by decide +kernel)).afterCompaction "b" (by decide +kernel) (by decide +kernel)).afterMessage
      "c" (by decide +kernel)

/-- The dropped message is in the archive. -/
theorem archives_keep_history_dropped :
    ∃ path, sampleWorld.history "a" = some path ∧ sampleWorld.Retains "a" path := by
  obtain ⟨path, hpath⟩ := Option.isSome_iff_exists.mp
    (show (sampleWorld.history "a").isSome by decide +kernel)
  exact ⟨path, hpath, (archives_keep_history rfl sampled_sampleWorld.1).1 "a" path hpath⟩

/-- Undoing the second compaction takes away the link to the first archive. -/
theorem undone_compaction_loses_history :
    ¬ ∀ header : SessionHeader, header.compactionArchive = none → ∀ w : SessionWorld,
      Relation.ReflTransGen (fun w w' => ∃ op, SessionStep w op w') (newSession header) w →
      ∀ id path, w.history id = some path → w.Retains id path := by
  intro hall
  have hstep : SessionStep sampleWorld .compactionUndone (sampleWorld.afterUndone "c") := by
    obtain ⟨rewritten, hrewritten⟩ := Option.isSome_iff_exists.mp
      (show (sampleWorld.rewrittenAt "c").isSome by decide +kernel)
    refine .compactionUndone longerIds sampled_sampleWorld.2.unseen "t" "u" _ rewritten _ hrewritten ?_
    exact congrArg (Option.map SessionFile.restoreFromArchive) (if_pos rfl)
  have hrun : Relation.ReflTransGen (fun w w' => ∃ op, SessionStep w op w') _ sampleWorld :=
    sampled_sampleWorld.1.lift id fun _ _ ⟨op, hstep, _⟩ => ⟨op, hstep⟩
  have hretains := hall _ rfl _ (hrun.tail ⟨_, hstep⟩)
  -- the current file lacks message `a`
  have hwhole := ((sampled_sampleWorld.1.inv rfl).undone_retains_iff hstep).mp hretains
  exact absurd (hwhole "a" (by decide +kernel)) (by decide +kernel)

end SessionWorld

end Cohub.Agent
