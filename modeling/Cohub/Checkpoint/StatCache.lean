import Cohub.Checkpoint.FileIndex

/-! # What the stat cache records

    An entry that is not racy has a ctime that no later change can give a file
    again.  So as long as a path has the stat of the entry, it has the content
    of the entry too, and a save may reuse the entry without reading the file. -/

namespace Cohub.Checkpoint.StatCache

open List OrderedMap Option

variable (config : Config)

/-! ## Contents and times -/

/-- The content of a path, read as a file or as a link. -/
def Workspace.contentAt (w : Workspace) (path : String) : FileType → Option (List Block)
  | .file => (w.opens path).map fun ino => (w.inodes ino).content
  | .symlink =>
      (w.paths path).bind fun ino =>
        if (w.inodes ino).type = .symlink then some (w.inodes ino).content else none

variable {w old new : Workspace} {path : String} {ino : Nat} {moments : List Workspace}
    {entry : FileIndexEntry} {nowNs : Int}

theorem contentAt_of_paths (h : w.paths path = some ino) :
    w.contentAt path (w.inodes ino).type = some (w.inodes ino).content := by
  cases htype : (w.inodes ino).type with
  | file => simp [Workspace.contentAt, w.opens_file path ino h htype]
  | symlink => simp [Workspace.contentAt, h, htype]

/-- An entry has the blob, or the asset, of a content. -/
def Records (path : String) (entry : FileIndexEntry) (content : List Block) : Prop :=
  (entry.oid, entry.asset) =
    writeContent config (config.mimeTypeForPath path) entry.asset.isSome content

/-- An entry has the blob, or the asset, of a content that its path had at one
    of the moments. -/
def Had (moments : List Workspace) (path : String) (entry : FileIndexEntry) : Prop :=
  ∃ w ∈ moments, ∃ content, w.contentAt path entry.type = some content ∧ Records config path entry content

theorem Had.append
    (h : Had config moments path entry) (w : Workspace) : Had config (moments ++ [w]) path entry := by
  obtain ⟨m, hm, hcontent⟩ := h
  exact ⟨m, mem_append_left _ hm, hcontent⟩

/-- What a change leaves at each path is what was there, or has a ctime less
    than the window before the current time. -/
def Fresh (nowNs : Int) (old new : Workspace) : Prop :=
  ∀ path ino, new.paths path = some ino →
    (old.paths path = some ino ∧ new.inodes ino = old.inodes ino) ∨
      nowNs < (new.inodes ino).ctimeNs + RACY_WINDOW_NS

theorem Fresh.unchanged (h : Fresh nowNs old new)
    (hpath : new.paths path = some ino) (hold : (new.inodes ino).ctimeNs + RACY_WINDOW_NS < nowNs) :
    old.paths path = some ino ∧ new.inodes ino = old.inodes ino := by
  rcases h path ino hpath with hsame | hnew
  · exact hsame
  · omega

/-! ## Sound entries -/

/-- While a path has the stat of an entry that is not racy, it has the content
    that the entry records. -/
def SoundEntry (nowNs : Int) (w : Workspace) (e : String × FileIndexEntry) : Prop :=
  e.2.racy = false → e.2.ctimeNs + RACY_WINDOW_NS < nowNs ∧
    (w.paths e.1 = some e.2.ino → (w.inodes e.2.ino).ctimeNs = e.2.ctimeNs →
      (w.inodes e.2.ino).type = e.2.type ∧ Records config e.1 e.2 (w.inodes e.2.ino).content)

def Sound (nowNs : Int) (w : Workspace) (entries : Entries) : Prop :=
  ∀ e ∈ entries.entries, SoundEntry config nowNs w e

variable {config} {e : String × FileIndexEntry} {file : ScannedFile} {previous : Entries}
    {scanStartedAtNs : Int}

theorem SoundEntry.tick
    (h : SoundEntry config nowNs w e) (ns : Nat) : SoundEntry config (nowNs + ns) w e := by
  intro hracy
  obtain ⟨htime, hsame⟩ := h hracy
  exact ⟨by omega, hsame⟩

theorem SoundEntry.change
    (h : SoundEntry config nowNs old e) (hfresh : Fresh nowNs old new) : SoundEntry config nowNs new e := by
  intro hracy
  obtain ⟨htime, hsame⟩ := h hracy
  refine ⟨htime, fun hpath hctime => ?_⟩
  obtain ⟨hold, hinode⟩ := hfresh.unchanged hpath (by omega)
  rw [hinode] at hctime ⊢
  exact hsame hold hctime

theorem Sound.empty (nowNs : Int) (w : Workspace) : Sound config nowNs w .empty := by
  intro e he
  simp [OrderedMap.empty] at he

theorem Sound.get {nowNs : Int} {w : Workspace} {entries : Entries} (h : Sound config nowNs w entries)
    {path : String} {entry : FileIndexEntry} (hget : entries.get? path = some entry) :
    SoundEntry config nowNs w (path, entry) :=
  h _ ((entries.mem_entries_iff path entry).mpr hget)

theorem reusableEntry_eq_some {previous : Option FileIndexEntry} {asset : Bool}
    (h : reusableEntry previous file asset = some entry) :
    previous = some entry ∧ entry.racy = false ∧ entry.type = file.type ∧ entry.ctimeNs = file.ctimeNs
      ∧ entry.ino = file.ino := by
  unfold reusableEntry at h
  cases previous with
  | none => simp at h
  | some previous =>
    dsimp only at h
    split at h
    · simp at h
    · split at h
      · simp at h
      · split at h
        · simp at h
        · split at h
          · simp at h
          · simp_all

variable (mime : String → Option String)

@[simp] theorem scannedFile_path (path : String) (ino : Nat) (st : Inode) :
    (scannedFile mime path ino st).path = path := by
  unfold scannedFile
  split <;> rfl

@[simp] theorem scannedFile_ino (path : String) (ino : Nat) (st : Inode) :
    (scannedFile mime path ino st).ino = ino := by
  unfold scannedFile
  split <;> rfl

@[simp] theorem scannedFile_ctimeNs (path : String) (ino : Nat) (st : Inode) :
    (scannedFile mime path ino st).ctimeNs = st.ctimeNs := by
  unfold scannedFile
  split <;> rfl

@[simp] theorem scannedFile_type (path : String) (ino : Nat) (st : Inode) :
    (scannedFile mime path ino st).type = st.type := by
  unfold scannedFile
  split <;> simp_all

theorem had_of_reusable (h : Sound config nowNs w previous)
    (hpath : w.paths path = some ino)
    (hreuse : reusable config previous (scannedFile config.mimeTypeForPath path ino (w.inodes ino)) = some entry) :
    Had config [w] path entry := by
  obtain ⟨hget, hracy, -, hctime, hino⟩ := reusableEntry_eq_some hreuse
  rw [scannedFile_path] at hget
  rw [scannedFile_ctimeNs] at hctime
  rw [scannedFile_ino] at hino
  subst hino
  obtain ⟨-, hsame⟩ := h.get hget hracy
  obtain ⟨htype, hrecords⟩ := hsame hpath hctime.symm
  dsimp only at htype hrecords
  refine ⟨w, mem_singleton_self w, (w.inodes entry.ino).content, ?_, hrecords⟩
  rw [← htype]
  exact contentAt_of_paths hpath

/-! ## Files that are read -/

/-- A scanned file that is not racy still has its stat. -/
structure Still (scanStartedAtNs : Int) (w : Workspace) (file : ScannedFile) : Prop where
  calm  : file.ctimeNs + RACY_WINDOW_NS < scanStartedAtNs
  path  : w.paths file.path = some file.ino
  ctime : (w.inodes file.ino).ctimeNs = file.ctimeNs

theorem Still.before
    (h : Still scanStartedAtNs new file) (hfresh : Fresh nowNs old new) (hstarted : scanStartedAtNs ≤ nowNs) :
    Still scanStartedAtNs old file ∧ new.inodes file.ino = old.inodes file.ino := by
  have hcalm := h.calm
  have hctime := h.ctime
  obtain ⟨hold, hinode⟩ := hfresh.unchanged h.path (by omega)
  refine ⟨⟨hcalm, hold, ?_⟩, hinode⟩
  rw [← hinode]
  exact hctime

variable (config)

/-- A file that was scanned when its inode was `st`. -/
structure Watched (scanStartedAtNs : Int) (w : Workspace) (file : ScannedFile) (st : Inode) : Prop where
  stamp : file = scannedFile config.mimeTypeForPath file.path file.ino st
  same  : Still scanStartedAtNs w file → w.inodes file.ino = st

/-- What has been read of a file that was scanned when its inode was `st`.  If
    the file is still as scanned, it is what the scan saw.  If the file did not
    change while it was read, it is what the file had at one of the moments. -/
def ReadingOk (scanStartedAtNs : Int) (moments : List Workspace) (w : Workspace) (file : ScannedFile) (st : Inode) :
    Reading → Prop
  | .pending => True
  | .opened ino blocks changed =>
      file.type = .file ∧
      (Still scanStartedAtNs w file → ino = file.ino ∧ blocks = st.content.take blocks.length) ∧
      (changed = false → blocks = (w.inodes ino).content.take blocks.length ∧
        ∃ m ∈ moments, m.contentAt file.path .file = some (w.inodes ino).content)
  | .done content changed =>
      (Still scanStartedAtNs w file → content = st.content) ∧
      (changed = false → ∃ m ∈ moments, m.contentAt file.path file.type = some content)

/-- A file that is read, with what has been read of it. -/
def HashedOk (scanStartedAtNs : Int) (moments : List Workspace) (w : Workspace) (h : HashedFile) : Prop :=
  ∃ st, Watched config scanStartedAtNs w h.file st ∧ ReadingOk scanStartedAtNs moments w h.file st h.reading

variable {config} {st : Inode} {reading : Reading}

theorem Watched.change
    (h : Watched config scanStartedAtNs old file st) (hfresh : Fresh nowNs old new)
    (hstarted : scanStartedAtNs ≤ nowNs) : Watched config scanStartedAtNs new file st := by
  refine ⟨h.stamp, fun hstill => ?_⟩
  obtain ⟨hbefore, hinode⟩ := hstill.before hfresh hstarted
  rw [hinode]
  exact h.same hbefore

theorem ReadingOk.change (h : ReadingOk scanStartedAtNs moments old file st reading)
    (hfresh : Fresh nowNs old new) (hstarted : scanStartedAtNs ≤ nowNs) :
    ReadingOk scanStartedAtNs (moments ++ [new]) new file st (reading.onChange old new) := by
  cases reading with
  | pending => trivial
  | opened ino blocks changed =>
    obtain ⟨htype, hstill, hquiet⟩ := h
    refine ⟨htype, fun hnow => hstill (hnow.before hfresh hstarted).1, fun hflag => ?_⟩
    simp only [Bool.or_eq_false_iff, bne_eq_false_iff_eq] at hflag
    obtain ⟨hblocks, m, hm, hcontent⟩ := hquiet hflag.1
    rw [← hflag.2]
    exact ⟨hblocks, m, mem_append_left _ hm, hcontent⟩
  | done content changed =>
    obtain ⟨hstill, hquiet⟩ := h
    refine ⟨fun hnow => hstill (hnow.before hfresh hstarted).1, fun hflag => ?_⟩
    obtain ⟨m, hm, hcontent⟩ := hquiet hflag
    exact ⟨m, mem_append_left _ hm, hcontent⟩

variable {h : HashedFile} {α : Type} {l blocks : List α}

theorem HashedOk.change (hok : HashedOk config scanStartedAtNs moments old h)
    (hfresh : Fresh nowNs old new) (hstarted : scanStartedAtNs ≤ nowNs) :
    HashedOk config scanStartedAtNs (moments ++ [new]) new { h with reading := h.reading.onChange old new } := by
  obtain ⟨st, hwatched, hreading⟩ := hok
  exact ⟨st, hwatched.change hfresh hstarted, hreading.change hfresh hstarted⟩

theorem readingOk_openFile (hwatched : Watched config scanStartedAtNs w file st) (hw : w ∈ moments)
    (h : openFile w file = some reading) : ReadingOk scanStartedAtNs moments w file st reading := by
  have hst : st.type = file.type := by
    rw [hwatched.stamp, scannedFile_type]
  unfold openFile at h
  cases htype : file.type with
  | file =>
    rw [htype] at h
    dsimp only at h
    cases hopens : w.opens file.path with
    | none => simp [hopens] at h
    | some ino =>
      rw [hopens, map_some, Option.some.injEq] at h
      subst h
      refine ⟨htype, fun hstill => ⟨?_, rfl⟩, fun _ => ⟨rfl, w, hw, ?_⟩⟩
      · -- a regular file is opened as the inode that its path has
        have hregular : (w.inodes file.ino).type = .file := by
          rw [hwatched.same hstill, hst, htype]
        have hown := w.opens_file _ _ hstill.path hregular
        rw [hopens] at hown
        exact Option.some.inj hown
      · simp [Workspace.contentAt, hopens]
  | symlink =>
    rw [htype] at h
    dsimp only at h
    cases hpaths : w.paths file.path with
    | none => simp [hpaths] at h
    | some ino =>
      rw [hpaths] at h
      dsimp only at h
      split at h
      · next hlink =>
        rw [Option.some.injEq] at h
        subst h
        refine ⟨fun hstill => ?_, fun _ => ⟨w, hw, ?_⟩⟩
        · have hino : ino = file.ino := by
            have hpath := hstill.path
            rw [hpaths] at hpath
            exact Option.some.inj hpath
          rw [hino, hwatched.same hstill]
        · simp [Workspace.contentAt, htype, hpaths, hlink]
      · simp at h

theorem take_of_getElem?_none (h : blocks = l.take blocks.length)
    (hnone : l[blocks.length]? = none) : blocks = l := by
  rw [List.getElem?_eq_none_iff] at hnone
  rw [h, take_of_length_le hnone]

theorem take_concat_of_getElem? {a : α} (h : blocks = l.take blocks.length)
    (hget : l[blocks.length]? = some a) : blocks ++ [a] = l.take (blocks ++ [a]).length := by
  obtain ⟨hlt, hget⟩ := List.getElem?_eq_some_iff.mp hget
  rw [length_append, length_singleton, take_succ_eq_append_getElem hlt, hget, ← h]

theorem readingOk_readBlock (hwatched : Watched config scanStartedAtNs w file st)
    (h : ReadingOk scanStartedAtNs moments w file st reading) :
    ReadingOk scanStartedAtNs moments w file st (readBlock w reading) := by
  cases reading with
  | pending => exact h
  | done content changed => exact h
  | opened ino blocks changed =>
    obtain ⟨htype, hstill, hquiet⟩ := h
    unfold readBlock
    dsimp only
    cases hblock : (w.inodes ino).content[blocks.length]? with
    | some block =>
      refine ⟨htype, fun hnow => ?_, fun hflag => ?_⟩
      · obtain ⟨hino, hblocks⟩ := hstill hnow
        rw [hino, hwatched.same hnow] at hblock
        exact ⟨hino, take_concat_of_getElem? hblocks hblock⟩
      · obtain ⟨hblocks, hhad⟩ := hquiet hflag
        exact ⟨take_concat_of_getElem? hblocks hblock, hhad⟩
    | none =>
      refine ⟨fun hnow => ?_, fun hflag => ?_⟩
      · obtain ⟨hino, hblocks⟩ := hstill hnow
        rw [hino, hwatched.same hnow] at hblock
        exact take_of_getElem?_none hblocks hblock
      · obtain ⟨hblocks, m, hm, hcontent⟩ := hquiet hflag
        rw [htype, take_of_getElem?_none hblocks hblock]
        exact ⟨m, hm, hcontent⟩

/-! ## Recorded entries -/

theorem writeContent_isSome (mimeType : Option String) (asset : Bool) (content : List Block) :
    (writeContent config mimeType asset content).2.isSome = asset := by
  unfold writeContent
  cases asset <;> rfl

theorem records_record
    (hwatched : Watched config scanStartedAtNs w file st) (content : List Block) :
    Records config file.path (record config scanStartedAtNs file content) content := by
  unfold Records record
  dsimp only
  rw [writeContent_isSome]
  cases hasset : isAsset config file with
  | false => rfl
  | true =>
    -- only a file is an asset, so its type of content is that of its path
    have hmime : file.mimeType = config.mimeTypeForPath file.path := by
      have hstamp := hwatched.stamp
      unfold isAsset at hasset
      simp only [Bool.and_eq_true, decide_eq_true_eq] at hasset
      have htype : st.type = .file := by
        rw [← hasset.1, hstamp, scannedFile_type]
      unfold scannedFile at hstamp
      rw [htype] at hstamp
      dsimp only at hstamp
      rw [hstamp]
    rw [hmime]

theorem still_of_recorded {content : List Block}
    (hracy : (record config scanStartedAtNs file content).racy = false)
    (hpath : w.paths file.path = some file.ino) (hctime : (w.inodes file.ino).ctimeNs = file.ctimeNs) :
    Still scanStartedAtNs w file := by
  have hcalm : isRacy file scanStartedAtNs = false := hracy
  unfold isRacy at hcalm
  simp only [Bool.or_eq_false_iff, decide_eq_false_iff_not] at hcalm
  exact ⟨by omega, hpath, hctime⟩

theorem recorded_ok (hok : HashedOk config scanStartedAtNs moments w h)
    (hstarted : scanStartedAtNs ≤ nowNs) (he : recorded config scanStartedAtNs h = some e) :
    e.1 = h.file.path ∧ SoundEntry config nowNs w e ∧ (h.changed = false → Had config moments e.1 e.2) := by
  obtain ⟨st, hwatched, hreading⟩ := hok
  unfold recorded HashedFile.content? at he
  unfold HashedFile.changed
  cases hr : h.reading with
  | pending => simp [hr] at he
  | opened ino blocks changed => simp [hr] at he
  | done content changed =>
    rw [hr] at he hreading
    simp only [map_some, Option.some.injEq] at he
    subst he
    obtain ⟨hstill, hquiet⟩ := hreading
    have hrecords := records_record hwatched content
    refine ⟨rfl, fun hracy => ?_, fun hflag => ?_⟩
    · have hcalm : isRacy h.file scanStartedAtNs = false := hracy
      unfold isRacy at hcalm
      simp only [Bool.or_eq_false_iff, decide_eq_false_iff_not] at hcalm
      have hold : h.file.ctimeNs + RACY_WINDOW_NS < nowNs := by omega
      refine ⟨hold, fun hpath hctime => ?_⟩
      have hnow : Still scanStartedAtNs w h.file := still_of_recorded hracy hpath hctime
      have hsame : w.inodes h.file.ino = st := hwatched.same hnow
      have htype : st.type = h.file.type := by
        rw [hwatched.stamp, scannedFile_type]
      have hcontent : content = st.content := hstill hnow
      dsimp only [record] at hrecords ⊢
      rw [hsame, ← hcontent]
      exact ⟨htype, hrecords⟩
    · obtain ⟨m, hm, hcontent⟩ := hquiet hflag
      exact ⟨m, hm, content, hcontent, hrecords⟩

/-! ## Runs -/

variable (config)

/-- A file of the scan.  What the previous index has for it, if that is
    reusable, is a content that it had. -/
def ScannedOk (scanStartedAtNs : Int) (moments : List Workspace) (w : Workspace) (previous : Entries)
    (file : ScannedFile) : Prop :=
  HashedOk config scanStartedAtNs moments w ⟨file, .pending⟩ ∧
    ∀ entry, reusable config previous file = some entry → Had config moments file.path entry

def PhaseOk (nowNs : Int) (w : Workspace) (save : Save) : Phase → Prop
  | .scanning files =>
      ∀ file ∈ files, ScannedOk config save.scanStartedAtNs save.moments w save.previous file
  | .hashing reused hashed =>
      (∀ e ∈ reused, SoundEntry config nowNs w e ∧ Had config save.moments e.1 e.2) ∧
        ∀ h ∈ hashed, HashedOk config save.scanStartedAtNs save.moments w h
  | .finishing index => Sound config nowNs w index.entries

structure SaveOk (nowNs : Int) (w : Workspace) (save : Save) : Prop where
  started  : save.scanStartedAtNs ≤ nowNs
  now      : w ∈ save.moments
  previous : Sound config nowNs w save.previous
  phase    : PhaseOk config nowNs w save save.phase

/-- Each entry of a checkpoint has a content that its path had, or its file
    changed while it was read. -/
def CheckpointRow.Faithful (checkpoint : CheckpointRow) : Prop :=
  ∀ path entry, checkpoint.entries.get? path = some entry →
    Had config checkpoint.moments path entry ∨ path ∈ checkpoint.changed

structure Ok (s : World) : Prop where
  commits : ∀ checkpoint ∈ s.commits, checkpoint.Faithful config
  index   : ∀ index, s.index = some index → Sound config s.nowNs s.workspace index.entries
  save    : ∀ save, s.save = some save → SaveOk config s.nowNs s.workspace save

variable {config}

theorem ok_start (nowNs : Int) (w : Workspace) : Ok config (World.start nowNs w) :=
  ⟨by simp [World.start], by simp [World.start], by simp [World.start]⟩

variable {s : World} {save : Save}

theorem Ok.tick (h : Ok config s) (ns : Nat) : Ok config { s with nowNs := s.nowNs + ns } := by
  refine ⟨h.commits, fun index hindex e he => (h.index index hindex e he).tick ns, fun save hsave => ?_⟩
  have hok := h.save save hsave
  have hstarted := hok.started
  refine ⟨?_, hok.now, fun e he => (hok.previous e he).tick ns, ?_⟩
  · dsimp only
    omega
  · have hphase := hok.phase
    cases hp : save.phase with
    | scanning files =>
      rw [hp] at hphase
      exact hphase
    | hashing reused hashed =>
      rw [hp] at hphase
      exact ⟨fun e he => ⟨(hphase.1 e he).1.tick ns, (hphase.1 e he).2⟩, hphase.2⟩
    | finishing index =>
      rw [hp] at hphase
      exact fun e he => (hphase e he).tick ns

theorem ScannedOk.change (h : ScannedOk config scanStartedAtNs moments old previous file)
    (hfresh : Fresh nowNs old new) (hstarted : scanStartedAtNs ≤ nowNs) :
    ScannedOk config scanStartedAtNs (moments ++ [new]) new previous file :=
  ⟨h.1.change hfresh hstarted, fun entry hentry => (h.2 entry hentry).append config new⟩

theorem SaveOk.change (h : SaveOk config nowNs old save)
    (hfresh : Fresh nowNs old new) : SaveOk config nowNs new (save.onChange old new) := by
  refine ⟨h.started, ?_, fun e he => (h.previous e he).change hfresh, ?_⟩
  · simp [Save.onChange]
  · have hphase := h.phase
    unfold Save.onChange Phase.onChange
    cases hp : save.phase with
    | scanning files =>
      rw [hp] at hphase
      exact fun file hfile => (hphase file hfile).change hfresh h.started
    | hashing reused hashed =>
      rw [hp] at hphase
      refine ⟨fun e he => ?_, fun changed hchanged => ?_⟩
      · obtain ⟨hsound, hhad⟩ := hphase.1 e he
        exact ⟨hsound.change hfresh, hhad.append config new⟩
      · obtain ⟨before, hbefore, rfl⟩ := mem_map.mp hchanged
        exact (hphase.2 before hbefore).change hfresh h.started
    | finishing index =>
      rw [hp] at hphase
      exact fun e he => (hphase e he).change hfresh

theorem Ok.change (h : Ok config s) (hfresh : Fresh s.nowNs s.workspace w) :
    Ok config (s.change w) := by
  refine ⟨h.commits, fun index hindex e he => (h.index index hindex e he).change hfresh, fun save hsave => ?_⟩
  obtain ⟨before, hbefore, rfl⟩ := map_eq_some_iff.mp hsave
  exact (h.save before hbefore).change hfresh

theorem sound_previousEntries (h : Ok config s) (readable : Bool) :
    Sound config s.nowNs s.workspace (previousEntries s readable) := by
  unfold previousEntries
  split
  · next parent index hhead hindex =>
    split
    · exact h.index index hindex
    · exact Sound.empty _ _
  · exact Sound.empty _ _

theorem dateNow_le (s : World) : dateNow s ≤ s.nowNs := by
  unfold dateNow
  omega

theorem saveOk_begin (h : Ok config s) (readable : Bool) :
    SaveOk config s.nowNs s.workspace (beginSave s readable) := by
  refine ⟨dateNow_le s, by simp [beginSave], sound_previousEntries h readable, ?_⟩
  intro file hfile
  simp at hfile

theorem SaveOk.setPhase (h : SaveOk config nowNs w save) {phase : Phase}
    (hphase : PhaseOk config nowNs w save phase) : SaveOk config nowNs w { save with phase := phase } := by
  refine ⟨h.started, h.now, h.previous, ?_⟩
  cases phase <;> exact hphase

theorem Ok.setSave (h : Ok config s) {save : Option Save}
    (hsave : ∀ v, save = some v → SaveOk config s.nowNs s.workspace v) : Ok config { s with save := save } :=
  ⟨h.commits, h.index, hsave⟩

theorem scannedOk_scannedFile (hsound : Sound config nowNs w previous) (hw : w ∈ moments)
    (hpath : w.paths path = some ino) :
    ScannedOk config scanStartedAtNs moments w previous
      (scannedFile config.mimeTypeForPath path ino (w.inodes ino)) := by
  refine ⟨⟨w.inodes ino, ⟨?_, fun _ => ?_⟩, trivial⟩, fun entry hentry => ?_⟩
  · rw [scannedFile_path, scannedFile_ino]
  · rw [scannedFile_ino]
  · obtain ⟨m, hm, hcontent⟩ := had_of_reusable hsound hpath hentry
    rw [mem_singleton] at hm
    subst hm
    rw [scannedFile_path]
    exact ⟨m, hw, hcontent⟩

variable {files : List ScannedFile}

theorem phaseOk_scan (h : SaveOk config s.nowNs s.workspace save)
    (hfiles : PhaseOk config s.nowNs s.workspace save (.scanning files)) (path : String) :
    PhaseOk config s.nowNs s.workspace save (.scanning (scan config s path files)) := by
  unfold scan
  cases hpath : s.workspace.paths path with
  | none => exact hfiles
  | some ino =>
    intro file hfile
    rcases mem_append.mp hfile with hfile | hfile
    · exact hfiles file hfile
    · rw [mem_singleton] at hfile
      subst hfile
      exact scannedOk_scannedFile h.previous h.now hpath

theorem phaseOk_endScan (h : SaveOk config nowNs w save)
    (hfiles : PhaseOk config nowNs w save (.scanning files)) :
    PhaseOk config nowNs w save
      (.hashing (reusedEntries config save.previous files) (filesToHash config save.previous files)) := by
  refine ⟨fun e he => ?_, fun hashed hhashed => ?_⟩
  · obtain ⟨file, hfile, he⟩ := mem_filterMap.mp he
    obtain ⟨entry, hentry, rfl⟩ := map_eq_some_iff.mp he
    obtain ⟨hget, -⟩ := reusableEntry_eq_some hentry
    exact ⟨h.previous.get hget, (hfiles file hfile).2 entry hentry⟩
  · obtain ⟨file, hfile, rfl⟩ := mem_map.mp hhashed
    exact (hfiles file (mem_of_mem_filter hfile)).1

theorem saveOk_endScan (h : SaveOk config nowNs w save) :
    SaveOk config nowNs w (endScan config save) := by
  have hphase := h.phase
  unfold endScan
  split
  · next files hp =>
    rw [hp] at hphase
    exact h.setPhase (phaseOk_endScan h hphase)
  · exact h

theorem saveOk_onFile (h : SaveOk config nowNs w save)
    {step : HashedFile → Option Reading}
    (hstep : ∀ hashed reading, HashedOk config save.scanStartedAtNs save.moments w hashed →
      step hashed = some reading →
        HashedOk config save.scanStartedAtNs save.moments w { hashed with reading := reading })
    (i : Nat) {after : Save} (hafter : onFile step save i = some after) : SaveOk config nowNs w after := by
  have hphase := h.phase
  unfold onFile at hafter
  split at hafter
  · next reused hashed hp =>
    rw [hp] at hphase
    cases hi : hashed[i]? with
    | none =>
      rw [hi] at hafter
      rw [← Option.some.inj hafter]
      exact h
    | some file =>
      rw [hi] at hafter
      obtain ⟨reading, hreading, rfl⟩ := map_eq_some_iff.mp hafter
      refine h.setPhase ⟨hphase.1, fun other hother => ?_⟩
      rcases mem_or_eq_of_mem_set hother with hold | hnew
      · exact hphase.2 other hold
      · rw [hnew]
        exact hstep file reading (hphase.2 file (mem_of_getElem? hi)) hreading
  · rw [← Option.some.inj hafter]
    exact h

theorem Ok.openFile (h : Ok config s) (i : Nat) : Ok config (next config s (.openFile i)) := by
  unfold next onSave
  dsimp only
  cases hsave : s.save with
  | none => exact h
  | some save =>
    have hok := h.save save hsave
    refine h.setSave fun after hafter => saveOk_onFile hok (fun hashed reading hhashed hstep => ?_) i hafter
    obtain ⟨st, hwatched, hreading⟩ := hhashed
    cases hr : hashed.reading with
    | pending =>
      rw [hr] at hstep
      exact ⟨st, hwatched, readingOk_openFile hwatched hok.now hstep⟩
    | opened ino blocks changed =>
      rw [hr] at hstep hreading
      rw [← Option.some.inj hstep]
      exact ⟨st, hwatched, hreading⟩
    | done content changed =>
      rw [hr] at hstep hreading
      rw [← Option.some.inj hstep]
      exact ⟨st, hwatched, hreading⟩

theorem Ok.readBlock (h : Ok config s) (i : Nat) : Ok config (next config s (.readBlock i)) := by
  unfold next onSave
  dsimp only
  cases hsave : s.save with
  | none => exact h
  | some save =>
    refine h.setSave fun after hafter => saveOk_onFile (h.save save hsave) (fun hashed reading hhashed hstep => ?_) i hafter
    obtain ⟨st, hwatched, hreading⟩ := hhashed
    rw [← Option.some.inj hstep]
    exact ⟨st, hwatched, readingOk_readBlock hwatched hreading⟩

theorem snapshotEntries_ok (hstarted : save.scanStartedAtNs ≤ nowNs)
    {reused : List (String × FileIndexEntry)} {hashed : List HashedFile}
    (h : PhaseOk config nowNs w save (.hashing reused hashed)) :
    ∀ e ∈ (snapshotEntries config save.scanStartedAtNs reused hashed).entries,
      SoundEntry config nowNs w e ∧
        (Had config save.moments e.1 e.2 ∨ e.1 ∈ (hashed.filter HashedFile.changed).map (·.file.path)) := by
  have hread : ∀ p : HashedFile → Bool, ∀ e ∈ (hashed.filter p).filterMap (recorded config save.scanStartedAtNs),
      SoundEntry config nowNs w e ∧
        (Had config save.moments e.1 e.2 ∨ e.1 ∈ (hashed.filter HashedFile.changed).map (·.file.path)) := by
    intro p e he
    obtain ⟨file, hfile, he⟩ := mem_filterMap.mp he
    have hmem := mem_of_mem_filter hfile
    obtain ⟨hpath, hsound, hhad⟩ := recorded_ok (h.2 file hmem) hstarted he
    refine ⟨hsound, ?_⟩
    cases hchanged : file.changed with
    | false => exact .inl (hhad hchanged)
    | true => exact .inr (mem_map.mpr ⟨file, mem_filter.mpr ⟨hmem, hchanged⟩, hpath.symm⟩)
  unfold snapshotEntries
  refine forall_mem_setAll _ (forall_mem_setAll _ (forall_mem_setAll _ ?_ ?_) ?_) ?_
  · intro e he
    simp [OrderedMap.empty] at he
  · intro e he
    exact ⟨(h.1 e he).1, .inl (h.1 e he).2⟩
  · exact hread _
  · exact hread _

theorem Ok.commitSave (h : Ok config s) (hsave : s.save = some save) :
    Ok config (commitSave config s save) := by
  have hok := h.save save hsave
  have hphase := hok.phase
  unfold StatCache.commitSave
  split
  · next reused hashed hp =>
    rw [hp] at hphase
    have hentries := snapshotEntries_ok hok.started hphase
    split
    · split
      · refine ⟨fun row hrow => ?_, h.index, fun after hafter => ?_⟩
        · rcases mem_append.mp hrow with hold | hnew
          · exact h.commits row hold
          · rw [mem_singleton] at hnew
            subst hnew
            intro path entry hget
            exact (hentries _ ((mem_entries_iff _ path entry).mpr hget)).2
        · rw [← Option.some.inj hafter]
          exact hok.setPhase fun e he => (hentries e he).1
      · exact h.setSave (by simp)
    · exact h
  · exact h

theorem Ok.writeIndex (h : Ok config s) (hsave : s.save = some save) :
    Ok config (writeIndex s save) := by
  have hphase := (h.save save hsave).phase
  unfold StatCache.writeIndex
  split
  · next index hp =>
    rw [hp] at hphase
    refine ⟨h.commits, fun written hwritten => ?_, by simp⟩
    rw [← Option.some.inj hwritten]
    exact hphase
  · exact h

/-- The changes that set ctimes. -/
def Stamps (s : World) : Input → Prop
  | .change w => Fresh s.nowNs s.workspace w
  | _ => True

theorem ok_next (h : Ok config s) {input : Input} (hinput : Stamps s input) :
    Ok config (next config s input) := by
  cases input with
  | tick ns => exact h.tick ns
  | change w => exact h.change hinput
  | begin readable =>
    unfold next
    dsimp only
    split
    · refine h.setSave fun v hv => ?_
      rw [← Option.some.inj hv]
      exact saveOk_begin h readable
    · exact h
  | scan path =>
    unfold next onSave
    dsimp only
    cases hsave : s.save with
    | none => exact h
    | some save =>
      dsimp only
      split
      · next files hp =>
        have hok := h.save save hsave
        have hphase := hok.phase
        rw [hp] at hphase
        refine h.setSave fun v hv => ?_
        rw [← Option.some.inj hv]
        exact hok.setPhase (phaseOk_scan hok hphase path)
      · exact h
  | endScan =>
    unfold next onSave
    dsimp only
    cases hsave : s.save with
    | none => exact h
    | some save =>
      refine h.setSave fun v hv => ?_
      rw [← Option.some.inj hv]
      exact saveOk_endScan (h.save save hsave)
  | openFile i => exact h.openFile i
  | readBlock i => exact h.readBlock i
  | commit =>
    unfold next onSave
    dsimp only
    cases hsave : s.save with
    | none => exact h
    | some save => exact h.commitSave hsave
  | writeIndex =>
    unfold next onSave
    dsimp only
    cases hsave : s.save with
    | none => exact h
    | some save => exact h.writeIndex hsave
  | fail => exact h.setSave (by simp)
  | moveHead commit =>
    unfold next
    dsimp only
    split
    · exact ⟨h.commits, h.index, h.save⟩
    · exact h

theorem ok_run {inputs : List Input}
    (h : (saves config).Meets Stamps (World.start nowNs w) inputs) :
    Ok config ((saves config).run (World.start nowNs w) inputs).1 :=
  Mealy.run_invariant (I := Ok config) (fun _ _ hok hinput => ok_next hok hinput) (ok_start nowNs w) h

/-- In every run, each entry of each checkpoint has a content that its path had
    between the start of the scan and the end of that save, unless the file
    changed while that save read it. -/
theorem stat_cache_sound (nowNs : Int) (w : Workspace) (inputs : List Input)
    (h : (saves config).Meets Stamps (World.start nowNs w) inputs) :
    ∀ checkpoint ∈ ((saves config).run (World.start nowNs w) inputs).1.commits,
      checkpoint.Faithful config :=
  (ok_run h).commits

def plainConfig : Config := ⟨1000, fun _ => none, id, id⟩

def noFiles : Workspace := ⟨fun _ => none, fun _ => ⟨.file, false, 0, 0, 0, []⟩, fun _ => none, by simp⟩

def oneFile (content : List Block) (ctimeNs : Int) : Workspace :=
  ⟨fun path => if path = "f" then some 1 else none, fun _ => ⟨.file, false, content.length, ctimeNs, ctimeNs, content⟩,
    fun path => if path = "f" then some 1 else none, fun _ _ h _ => h⟩

/-- Two saves of a file that was written ten seconds before.  The second save
    does not read it. -/
def reuseRun : List Input :=
  [.change (oneFile ["a"] 100000000000), .tick 10000000000, .begin true, .scan "f", .endScan, .openFile 0, .readBlock 0,
    .readBlock 0, .commit, .writeIndex, .begin true, .scan "f", .endScan, .commit]

theorem stat_cache_sound_reused :
    ((saves plainConfig).run (World.start 100000000000 noFiles) reuseRun).1.commits.length = 2 ∧
      ∀ checkpoint ∈ ((saves plainConfig).run (World.start 100000000000 noFiles) reuseRun).1.commits,
        checkpoint.Faithful plainConfig := by
  have htime : (100000000000 : Int) < 100000000000 + RACY_WINDOW_NS := by decide
  exact ⟨by decide +kernel, stat_cache_sound 100000000000 noFiles reuseRun
    ⟨fun _ _ _ => .inr htime, trivial, trivial, trivial, trivial, trivial, trivial, trivial, trivial, trivial, trivial,
      trivial, trivial, trivial, trivial⟩⟩

/-! ## Where a checkpoint has another content -/

/-- The changes that set ctimes to the time of a clock that is within the window
    of the scanner's, rounded down by less than the window. -/
def SetsCtimes (s : World) : Input → Prop
  | .change w =>
      ∀ path ino, w.paths path = some ino →
        (s.workspace.paths path = some ino ∧ w.inodes ino = s.workspace.inodes ino) ∨
          ∃ clockNs rounding : Int,
            s.nowNs - RACY_WINDOW_NS ≤ clockNs ∧ clockNs ≤ s.nowNs + RACY_WINDOW_NS ∧
            0 ≤ rounding ∧ rounding < RACY_WINDOW_NS ∧ (w.inodes ino).ctimeNs = clockNs - rounding
  | _ => True

/-- Each entry of a checkpoint has a content that its path had. -/
def CheckpointRow.Exact (config : Config) (checkpoint : CheckpointRow) : Prop :=
  ∀ path entry, checkpoint.entries.get? path = some entry → Had config checkpoint.moments path entry

/-- A clock that is 2.9 seconds behind, and times in units of two seconds. -/
def staleRun : List Input :=
  [.change (oneFile ["a"] 100000000000), .tick 500000000, .begin true, .scan "f", .endScan, .openFile 0, .readBlock 0,
    .readBlock 0, .commit, .writeIndex, .tick 100000000, .change (oneFile ["b"] 100000000000), .begin true, .scan "f",
    .endScan, .commit]

/-- A change between two reads of a file. -/
def tornRun : List Input :=
  [.change (oneFile ["a", "a"] 103900000000), .begin true, .scan "f", .endScan, .openFile 0, .readBlock 0,
    .change (oneFile ["b", "b"] 103900000000), .readBlock 0, .readBlock 0, .commit]

theorem stale_and_torn :
    (¬ ∀ (config : Config) (nowNs : Int) (w : Workspace) (inputs : List Input),
        (saves config).Meets SetsCtimes (World.start nowNs w) inputs →
          ∀ checkpoint ∈ ((saves config).run (World.start nowNs w) inputs).1.commits, checkpoint.Exact config) ∧
    (¬ ∀ (config : Config) (nowNs : Int) (w : Workspace) (inputs : List Input),
        (saves config).Meets Stamps (World.start nowNs w) inputs →
          ∀ checkpoint ∈ ((saves config).run (World.start nowNs w) inputs).1.commits, checkpoint.Exact config) := by
  refine ⟨fun h => ?_, fun h => ?_⟩
  · have hmeets : (saves plainConfig).Meets SetsCtimes (World.start 103900000000 noFiles) staleRun := by
      refine ⟨?_, trivial, trivial, trivial, trivial, trivial, trivial, trivial, trivial, trivial, trivial, ?_, trivial,
        trivial, trivial, trivial, trivial⟩
      · intro path ino _
        exact .inr ⟨101000000000, 1000000000, by decide, by decide, by decide, by decide, rfl⟩
      · intro path ino _
        exact .inr ⟨101600000000, 1600000000, by decide, by decide, by decide, by decide, rfl⟩
    have hrow := h plainConfig 103900000000 noFiles staleRun hmeets _ (List.mem_of_getElem? (i := 1) rfl)
    obtain ⟨m, hm, content, hcontent, hrecords⟩ := hrow "f" _ rfl
    have hm' : m = oneFile ["b"] 100000000000 := List.mem_singleton.mp hm
    subst hm'
    have hb : ["b"] = content := Option.some.inj hcontent
    subst hb
    revert hrecords
    unfold Records
    decide +kernel
  · have htime : (103900000000 : Int) < 103900000000 + RACY_WINDOW_NS := by decide
    have hmeets : (saves plainConfig).Meets Stamps (World.start 103900000000 noFiles) tornRun := by
      refine ⟨?_, trivial, trivial, trivial, trivial, trivial, ?_, trivial, trivial, trivial, trivial⟩
      · exact fun _ _ _ => .inr htime
      · exact fun _ _ _ => .inr htime
    have hrow := h plainConfig 103900000000 noFiles tornRun hmeets _ (List.mem_of_getElem? (i := 0) rfl)
    obtain ⟨m, hm, content, hcontent, hrecords⟩ := hrow "f" _ rfl
    have hm' : m ∈ [oneFile ["a", "a"] 103900000000, oneFile ["b", "b"] 103900000000] := hm
    rcases List.mem_pair.mp hm' with rfl | rfl
    · have ha : ["a", "a"] = content := Option.some.inj hcontent
      subst ha
      revert hrecords
      unfold Records
      decide +kernel
    · have hb : ["b", "b"] = content := Option.some.inj hcontent
      subst hb
      revert hrecords
      unfold Records
      decide +kernel

end Cohub.Checkpoint.StatCache
