import Cohub.Native.TranscriptLines

/-! # The journal of the transcript states

    The daemon keeps the latest state of every transcript in memory, and appends
    each changed one as a line to a journal file.  A journal that has grown too long
    is compacted: a new file with one line for each state replaces it.  A crash can
    leave the beginning of an append in the file.  Loading reads the lines one after
    the other, later ones win, and a line that does not parse is passed over.

    The world is the file, the memory of the running daemon and what it is writing;
    `written` remembers every line that was completely written.  As long as no
    append finds a torn line at the end of the file, loading gives the last written
    state of every transcript. -/

namespace Cohub.Native.IngestJournal

open Lines List Option OrderedMap

/-! ## Entries and their lines -/

/-- One journal line: the latest state of one transcript, or of the import job. -/
inductive LedgerEntry (P T V : Type) where
  | transcript (path : P) (state : T)
  | job (job : OrderedMap String V)
deriving Inhabited

/-- The text of an entry: on one line, and only as a whole. -/
structure Codec (P T V : Type) where
  stringify : LedgerEntry P T V → Bytes
  parse : Bytes → Option (LedgerEntry P T V)
  parse_stringify : ∀ entry, parse (stringify entry) = some entry
  newline_not_mem : ∀ entry, newline ∉ stringify entry
  parse_torn : ∀ entry n, n < (stringify entry).length → parse ((stringify entry).take n) = none
  stringify_ne_nil : ∀ entry, stringify entry ≠ []

variable {P T V : Type} (codec : Codec P T V)

/-- The lines of some entries. -/
def textOf (entries : List (LedgerEntry P T V)) : Bytes := ended newline (entries.map codec.stringify)

/-- `text.split("\n").filter(Boolean)` -/
def linesOf (text : Bytes) : List Bytes :=
  ((cut newline text).1 ++ [(cut newline text).2]).filter (· ≠ [])

/-- What the lines of a file say; a line that does not parse says nothing. -/
def entriesOf (text : Bytes) : List (LedgerEntry P T V) := (linesOf text).filterMap codec.parse

/-! ## What the file says -/

/-- The entries whose text is complete in the first `n` bytes of their lines. -/
def completed : Nat → List (LedgerEntry P T V) → List (LedgerEntry P T V)
  | _, [] => []
  | n, entry :: rest =>
      if (codec.stringify entry).length ≤ n then
        entry :: completed (n - ((codec.stringify entry).length + 1)) rest
      else []

/-- The file is empty or ends with a newline. -/
def Whole (text : Bytes) : Prop := text = [] ∨ text.getLast? = some newline

theorem whole_iff (text : Bytes) : Whole text ↔ (cut newline text).2 = [] := by
  have hjoined := ended_cut_append text
  have htail : newline ∉ (cut newline text).2 := (clean_cut text).2
  constructor
  · rintro (hempty | hlast)
    · rw [hempty]
      rfl
    · by_contra hne
      have hmem := mem_of_getLast? (a := newline) (l := (cut newline text).2) (by
        rw [← hlast, ← hjoined, getLast?_append_of_ne_nil _ hne, hjoined])
      exact htail hmem
  · intro hempty
    rw [hempty, append_nil] at hjoined
    cases hbodies : (cut newline text).1 using reverseRecOn with
    | nil =>
      rw [hbodies] at hjoined
      exact .inl hjoined.symm
    | append_singleton bodies body =>
      rw [hbodies] at hjoined
      refine .inr ?_
      rw [← hjoined]
      simp

theorem entriesOf_append {text : Bytes} (hwhole : Whole text) (more : Bytes) :
    entriesOf codec (text ++ more) = entriesOf codec text ++ entriesOf codec more := by
  have htail := (whole_iff text).mp hwhole
  have hcut : cut newline (text ++ more) =
      ((cut newline text).1 ++ (cut newline more).1, (cut newline more).2) := by
    rw [cut_append, htail, nil_append]
  unfold entriesOf linesOf
  rw [hcut, htail]
  simp [filter_append]

theorem entriesOf_nil : entriesOf codec [] = [] := by
  simp [entriesOf, linesOf, cut]

variable (entry : LedgerEntry P T V)

theorem entriesOf_cons (more : Bytes) :
    entriesOf codec (codec.stringify entry ++ newline :: more) = entry :: entriesOf codec more := by
  unfold entriesOf linesOf
  rw [cut_line _ _ (codec.newline_not_mem entry)]
  simp [codec.parse_stringify, codec.stringify_ne_nil]

theorem entriesOf_take (n : Nat) :
    entriesOf codec ((codec.stringify entry).take n) =
      if (codec.stringify entry).length ≤ n then [entry] else [] := by
  have hclean : newline ∉ (codec.stringify entry).take n := fun h =>
    codec.newline_not_mem entry (mem_of_mem_take h)
  unfold entriesOf linesOf
  rw [cut_of_not_mem hclean]
  split
  · next hle =>
    rw [take_of_length_le hle]
    simp [codec.parse_stringify, codec.stringify_ne_nil]
  · next hlt =>
    have htorn := codec.parse_torn entry n (Nat.lt_of_not_le hlt)
    by_cases hempty : (codec.stringify entry).take n = []
    · simp [hempty]
    · simp [hempty, htorn]

theorem entriesOf_torn (entries : List (LedgerEntry P T V)) (n : Nat) :
    entriesOf codec ((textOf codec entries).take n) = completed codec n entries := by
  induction entries generalizing n with
  | nil =>
    have hempty : (textOf codec ([] : List (LedgerEntry P T V))).take n = [] := take_nil
    rw [hempty, entriesOf_nil]
    rfl
  | cons entry rest ih =>
    have htext : textOf codec (entry :: rest) =
        codec.stringify entry ++ newline :: textOf codec rest := by
      simp [textOf]
    rw [htext, completed]
    by_cases hn : n ≤ (codec.stringify entry).length
    · rw [take_append_of_le_length hn, entriesOf_take]
      split
      · next hle =>
        -- the text is complete, the newline is not there
        have hzero : n - ((codec.stringify entry).length + 1) = 0 := by omega
        have hnone : completed codec 0 rest = [] := by
          rw [← ih 0, take_zero, entriesOf_nil]
        rw [hzero, hnone]
      · rfl
    · have hle : (codec.stringify entry).length ≤ n := by omega
      obtain ⟨m, rfl⟩ : ∃ m, n = (codec.stringify entry).length + (m + 1) :=
        ⟨n - (codec.stringify entry).length - 1, by omega⟩
      have hm : (codec.stringify entry).length + (m + 1) -
          ((codec.stringify entry).length + 1) = m := by omega
      rw [if_pos hle, take_length_add_append, take_succ_cons, entriesOf_cons, ih, hm]

theorem completed_all (entries : List (LedgerEntry P T V)) :
    completed codec (textOf codec entries).length entries = entries := by
  induction entries with
  | nil => rfl
  | cons entry rest ih =>
    have htext : (textOf codec (entry :: rest)).length =
        (codec.stringify entry).length + 1 + (textOf codec rest).length := by
      simp [textOf]
      omega
    rw [htext, completed, if_pos (by omega), Nat.add_sub_cancel_left, ih]

theorem entriesOf_textOf (entries : List (LedgerEntry P T V)) :
    entriesOf codec (textOf codec entries) = entries := by
  have htorn := entriesOf_torn codec entries (textOf codec entries).length
  rw [take_length, completed_all] at htorn
  exact htorn

variable [DecidableEq P]

/-! ## The daemon -/

/-- The memory of a running daemon. -/
structure Ingest (P T V : Type) where
  states : OrderedMap P T
  job : OrderedMap String V
  /-- The paths to write, in the order in which they were marked. -/
  dirty : List P
  jobDirty : Bool
  journalLines : Nat

def blank : Ingest P T V := ⟨.empty, .empty, [], false, 0⟩

/-- One line of `load`. -/
def loadEntry (s : Ingest P T V) : LedgerEntry P T V → Ingest P T V
  | .transcript path state => { s with states := s.states.set path state }
  | .job job => { s with job := s.job.setAll job.entries }

def loadText (text : Bytes) : Ingest P T V :=
  let s := (entriesOf codec text).foldl loadEntry blank
  { s with journalLines := (linesOf text).length }

def overgrown (s : Ingest P T V) : Bool := decide (s.journalLines > 2 * s.states.size + 256)

/-- The entries of some transcripts, with the states that they have now. -/
def statesAt (s : Ingest P T V) (paths : List P) : List (LedgerEntry P T V) :=
  paths.filterMap fun path => (s.states.get? path).map (.transcript path)

/-- What the daemon is writing.  The states are turned into text when the file is
    open, some time after the entries are collected. -/
inductive Pending (P T V : Type) where
  /-- An append, its entries collected. -/
  | appending (paths : List P) (job : Bool)
  /-- The text that is being appended. -/
  | writing (entries : List (LedgerEntry P T V))
  /-- A compaction, its entries collected. -/
  | compacting (paths : List P)
  /-- The temporary file is complete, and takes the journal's place next. -/
  | replacing (entries : List (LedgerEntry P T V))

structure World (P T V : Type) where
  /-- The journal file; a missing one is read like an empty one. -/
  disk : Bytes
  /-- The running daemon, if there is one. -/
  memory : Option (Ingest P T V)
  /-- Writes are queued: there is one at a time. -/
  pending : Option (Pending P T V)
  /-- Every line that was completely written, in order. -/
  written : List (LedgerEntry P T V)

inductive Action (P T V : Type) where
  /-- The daemon starts. -/
  | load
  /-- A transcript gets a state. -/
  | change (path : P) (state : T)
  | markDirty (path : P)
  | changeJob (job : OrderedMap String V)
  | markJobDirty
  /-- An append begins. -/
  | append
  /-- The entries of the pending write are turned into text. -/
  | stringify
  /-- The pending write is done. -/
  | finish
  /-- The daemon dies, `n` bytes into the pending append if there is one. -/
  | crash (n : Nat)

/-- A compaction begins if the journal has grown too long. -/
def compactIfOvergrown (s : Ingest P T V) : Option (Pending P T V) :=
  if overgrown s then some (.compacting s.states.keys) else none

/-- The daemon dies: the beginning of an append is left in the file, a compaction leaves
    the file as it was. -/
def crashed (w : World P T V) (n : Nat) : World P T V :=
  match w.pending with
  | some (.writing entries) =>
      ⟨w.disk ++ (textOf codec entries).take n, none, none, w.written ++ completed codec n entries⟩
  | _ => ⟨w.disk, none, none, w.written⟩

def step (w : World P T V) (action : Action P T V) : Option (World P T V) :=
  match action, w.memory with
  | .load, none =>
      let s := loadText codec w.disk
      some { w with memory := some s, pending := compactIfOvergrown s }
  | .change path state, some s =>
      some { w with memory := some { s with states := s.states.set path state } }
  | .markDirty path, some s =>
      some { w with memory := some { s with
        dirty := if path ∈ s.dirty then s.dirty else s.dirty ++ [path] } }
  | .changeJob job, some s => some { w with memory := some { s with job } }
  | .markJobDirty, some s => some { w with memory := some { s with jobDirty := true } }
  | .append, some s =>
      match w.pending with
      | some _ => none
      | none =>
          let paths := s.dirty.filter fun path => (s.states.get? path).isSome
          let cleared := { s with dirty := [], jobDirty := false }
          if paths = [] ∧ s.jobDirty = false then some { w with memory := some cleared }
          else some { w with memory := some cleared, pending := some (.appending paths s.jobDirty) }
  | .stringify, some s =>
      match w.pending with
      | some (.appending paths job) =>
          let entries := statesAt s paths ++ (if job then [.job s.job] else [])
          some { w with pending := some (.writing entries) }
      | some (.compacting paths) =>
          some { w with pending := some (.replacing (statesAt s paths ++ [.job s.job])) }
      | _ => none
  | .finish, some s =>
      match w.pending with
      | some (.writing entries) =>
          let s := { s with journalLines := s.journalLines + entries.length }
          some ⟨w.disk ++ textOf codec entries, some s, compactIfOvergrown s, w.written ++ entries⟩
      | some (.replacing entries) =>
          some ⟨textOf codec entries, some { s with journalLines := entries.length }, none,
            w.written ++ entries⟩
      | _ => none
  | .crash n, some _ => some (crashed codec w n)
  | _, _ => none

def World.start : World P T V := ⟨[], none, none, []⟩

/-- The worlds that runs of allowed steps reach. -/
inductive Reached (allowed : World P T V → Action P T V → Prop) : World P T V → Prop
  | start : Reached allowed .start
  | step {w w' : World P T V} (action : Action P T V) (hw : Reached allowed w)
      (hallowed : allowed w action) (h : step codec w action = some w') : Reached allowed w'

/-! ## The last written states -/

/-- The state that an entry gives a transcript. -/
def stateIn (path : P) : LedgerEntry P T V → Option T
  | .transcript other state => if path = other then some state else none
  | .job _ => none

/-- The last state of a transcript among some entries. -/
def lastState (path : P) (entries : List (LedgerEntry P T V)) : Option T :=
  entries.foldl (fun last entry => (stateIn path entry).or last) none

variable (path : P)

theorem lastState_foldl (entries : List (LedgerEntry P T V)) (last : Option T) :
    entries.foldl (fun last entry => (stateIn path entry).or last) last =
      (lastState path entries).or last := by
  induction entries generalizing last with
  | nil => rfl
  | cons entry entries ih =>
    have hcons : lastState path (entry :: entries) =
        entries.foldl (fun last entry => (stateIn path entry).or last)
          ((stateIn path entry).or none) := rfl
    rw [foldl_cons, ih, hcons, ih, or_none, Option.or_assoc]

theorem lastState_cons (entry : LedgerEntry P T V) (entries : List (LedgerEntry P T V)) :
    lastState path (entry :: entries) = (lastState path entries).or (stateIn path entry) := by
  have hcons : lastState path (entry :: entries) =
      entries.foldl (fun last entry => (stateIn path entry).or last)
        ((stateIn path entry).or none) := rfl
  rw [hcons, lastState_foldl, or_none]

@[simp] theorem lastState_nil : lastState path ([] : List (LedgerEntry P T V)) = none :=
  rfl

theorem lastState_append (before after : List (LedgerEntry P T V)) :
    lastState path (before ++ after) = (lastState path after).or (lastState path before) := by
  rw [lastState, foldl_append, lastState_foldl]
  rfl

theorem lastState_isSome_iff (entries : List (LedgerEntry P T V)) :
    (lastState path entries).isSome ↔ ∃ state, .transcript path state ∈ entries := by
  induction entries with
  | nil => simp
  | cons entry entries ih =>
    rw [lastState_cons, isSome_or, Bool.or_eq_true, ih]
    cases entry with
    | transcript other state =>
      by_cases hpath : path = other
      · subst hpath
        simp [stateIn]
      · simp [stateIn, hpath]
    | job job => simp [stateIn]

theorem get?_foldl_loadEntry (entries : List (LedgerEntry P T V)) (s : Ingest P T V) :
    (entries.foldl loadEntry s).states.get? path =
      (lastState path entries).or (s.states.get? path) := by
  induction entries generalizing s with
  | nil => rfl
  | cons entry entries ih =>
    rw [foldl_cons, ih, lastState_cons, Option.or_assoc]
    cases entry with
    | transcript other state =>
      by_cases hpath : path = other
      · subst hpath
        simp [loadEntry, stateIn]
      · simp [loadEntry, stateIn, hpath]
    | job job => simp [loadEntry, stateIn]

theorem get?_loadText (text : Bytes) :
    (loadText codec text).states.get? path = lastState path (entriesOf codec text) := by
  have hfold := get?_foldl_loadEntry path (entriesOf codec text) blank
  have hblank : (blank : Ingest P T V).states.get? path = none := rfl
  rw [hblank, or_none] at hfold
  exact hfold

/-! ## What a run keeps -/

/-- The transcripts that were written have a state in memory. -/
def Knows (s : Ingest P T V) (entries : List (LedgerEntry P T V)) : Prop :=
  ∀ path, (lastState path entries).isSome → (s.states.get? path).isSome

/-- What holds of the pending write. -/
def PendingKept (w : World P T V) : Option (Pending P T V) → Prop
  | none => True
  | some (.appending _ _) => Whole w.disk
  | some (.writing entries) => Whole w.disk ∧ ∀ s, w.memory = some s → Knows s entries
  | some (.compacting paths) => ∀ path, (lastState path w.written).isSome → path ∈ paths
  | some (.replacing entries) =>
      (∀ path, (lastState path w.written).isSome → (lastState path entries).isSome) ∧
        ∀ s, w.memory = some s → Knows s entries

/-- The file says of each transcript what was written last. -/
structure Kept (w : World P T V) : Prop where
  disk : ∀ path, lastState path (entriesOf codec w.disk) = lastState path w.written
  memory : ∀ s, w.memory = some s → Knows s w.written
  pending : PendingKept w w.pending

variable {codec} {w : World P T V} {s s' : Ingest P T V} {entries : List (LedgerEntry P T V)}

theorem Kept.changeMemory (h : Kept codec w) (hs : w.memory = some s)
    (hkeeps : ∀ path, (s.states.get? path).isSome → (s'.states.get? path).isSome) :
    Kept codec { w with memory := some s' } := by
  have hknows : ∀ entries, (∀ s, w.memory = some s → Knows s entries) →
      ∀ s, some s' = some s → Knows s entries := by
    rintro entries hentries _ ⟨⟩ path hpath
    exact hkeeps path (hentries s hs path hpath)
  obtain ⟨hdisk, hmemory, hpending⟩ := h
  refine ⟨hdisk, hknows _ hmemory, ?_⟩
  cases hp : w.pending with
  | none => trivial
  | some pending =>
    rw [hp] at hpending
    cases pending with
    | appending paths job => exact hpending
    | writing entries => exact ⟨hpending.1, hknows _ hpending.2⟩
    | compacting paths => exact hpending
    | replacing entries => exact ⟨hpending.1, hknows _ hpending.2⟩

omit [DecidableEq P] in
theorem Knows.of_keys [DecidableEq P] (h : Knows s entries) {path : P}
    (hpath : (lastState path entries).isSome) : path ∈ s.states.keys := by
  rw [mem_keys_iff, has]
  exact h path hpath

theorem lastState_statesAt (s : Ingest P T V) (paths : List P) (job : List (OrderedMap String V))
    (path : P) : (lastState path (statesAt s paths ++ job.map .job)).isSome ↔
      path ∈ paths ∧ (s.states.get? path).isSome := by
  rw [lastState_isSome_iff]
  simp only [statesAt, mem_append, mem_filterMap, List.mem_map, map_eq_some_iff]
  constructor
  · rintro ⟨state, ⟨other, hother, found, hfound, heq⟩ | ⟨other, -, heq⟩⟩
    · cases heq
      exact ⟨hother, by rw [hfound]; rfl⟩
    · cases heq
  · rintro ⟨hmem, hsome⟩
    obtain ⟨state, hstate⟩ := isSome_iff_exists.mp hsome
    exact ⟨state, .inl ⟨path, hmem, state, hstate, rfl⟩⟩

theorem pendingKept_compactIfOvergrown
    (h : Knows s w.written) : PendingKept w (compactIfOvergrown s) := by
  unfold compactIfOvergrown
  split
  · exact fun path hpath => h.of_keys hpath
  · trivial

theorem Kept.load (h : Kept codec w) :
    Kept codec { w with
      memory := some (loadText codec w.disk)
      pending := compactIfOvergrown (loadText codec w.disk) } := by
  have hknows : Knows (loadText codec w.disk) w.written := by
    intro path hpath
    rw [get?_loadText, h.disk]
    exact hpath
  refine ⟨h.disk, ?_, pendingKept_compactIfOvergrown hknows⟩
  rintro _ ⟨⟩
  exact hknows

theorem Kept.disk_append (h : Kept codec w) (hwhole : Whole w.disk)
    {more : Bytes} (hmore : entriesOf codec more = entries)
    (path : P) : lastState path (entriesOf codec (w.disk ++ more)) =
      lastState path (w.written ++ entries) := by
  rw [entriesOf_append codec hwhole, hmore, lastState_append, lastState_append, h.disk]

theorem Knows.append {before after : List (LedgerEntry P T V)}
    (hbefore : Knows s before) (hafter : Knows s after) : Knows s (before ++ after) := by
  intro path hpath
  rw [lastState_append, isSome_or, Bool.or_eq_true] at hpath
  exact hpath.elim (hafter path) (hbefore path)

omit [DecidableEq P] in
theorem forall_of_none {Q : Ingest P T V → Prop} :
    ∀ s, (none : Option (Ingest P T V)) = some s → Q s := by
  intro s h
  cases h

theorem kept_start : Kept codec (World.start : World P T V) :=
  ⟨fun path => congrArg (lastState path) (entriesOf_nil codec), forall_of_none, trivial⟩

theorem Kept.crash (h : Kept codec w) (n : Nat) : Kept codec (crashed codec w n) := by
  have hpending := h.pending
  unfold crashed
  split
  · next entries hp =>
    rw [hp] at hpending
    exact ⟨h.disk_append hpending.1 (entriesOf_torn codec entries n), forall_of_none, trivial⟩
  · exact ⟨h.disk, forall_of_none, trivial⟩

theorem Kept.appended (h : Kept codec w) (hs : w.memory = some s)
    (hp : w.pending = some (.writing entries)) (hstates : s'.states = s.states) :
    Kept codec ⟨w.disk ++ textOf codec entries, some s', compactIfOvergrown s',
      w.written ++ entries⟩ := by
  have hpending := h.pending
  rw [hp] at hpending
  have hknows : Knows s' (w.written ++ entries) := by
    have hboth := (h.memory s hs).append (hpending.2 s hs)
    unfold Knows at hboth ⊢
    rw [hstates]
    exact hboth
  refine ⟨h.disk_append hpending.1 (entriesOf_textOf codec entries), ?_,
    pendingKept_compactIfOvergrown hknows⟩
  rintro _ ⟨⟩
  exact hknows

theorem Kept.replaced (h : Kept codec w) (hs : w.memory = some s)
    (hp : w.pending = some (.replacing entries)) (hstates : s'.states = s.states) :
    Kept codec ⟨textOf codec entries, some s', none, w.written ++ entries⟩ := by
  have hpending := h.pending
  rw [hp] at hpending
  refine ⟨fun path => ?_, ?_, trivial⟩
  · rw [entriesOf_textOf, lastState_append]
    cases hlast : lastState path entries with
    | some state => rfl
    | none =>
      have hnever : lastState path w.written = none := by
        by_contra hne
        have hsome := hpending.1 path (isSome_iff_ne_none.mpr hne)
        rw [hlast] at hsome
        cases hsome
      rw [hnever]
      rfl
  · rintro _ ⟨⟩
    have hboth := (h.memory s hs).append (hpending.2 s hs)
    unfold Knows at hboth ⊢
    rw [hstates]
    exact hboth

/-- An append begins in a whole file. -/
def AppendsToWhole (w : World P T V) : Action P T V → Prop
  | .append => Whole w.disk
  | _ => True

theorem Kept.step {w w' : World P T V} {action : Action P T V} (h : Kept codec w)
    (hallowed : AppendsToWhole w action) (hstep : step codec w action = some w') :
    Kept codec w' := by
  unfold IngestJournal.step at hstep
  cases hmemory : w.memory with
  | none =>
    rw [hmemory] at hstep
    cases action with
    | load =>
      cases hstep
      exact h.load
    | _ => cases hstep
  | some s =>
    rw [hmemory] at hstep
    cases action with
    | load => cases hstep
    | change path state =>
      cases hstep
      apply h.changeMemory hmemory
      intro other hother
      rw [get?_set]
      split
      · rfl
      · exact hother
    | markDirty path =>
      cases hstep
      exact h.changeMemory hmemory fun _ hother => hother
    | changeJob job =>
      cases hstep
      exact h.changeMemory hmemory fun _ hother => hother
    | markJobDirty =>
      cases hstep
      exact h.changeMemory hmemory fun _ hother => hother
    | append =>
      have hcleared : Kept codec { w with memory := some { s with dirty := [], jobDirty := false } } :=
        h.changeMemory hmemory fun _ hother => hother
      dsimp only at hstep
      split at hstep
      · cases hstep
      · split at hstep
        · cases hstep
          exact hcleared
        · cases hstep
          exact ⟨hcleared.disk, hcleared.memory, hallowed⟩
    | stringify =>
      have hpending := h.pending
      have hknows : ∀ other, some s = some other → Knows other w.written := hmemory ▸ h.memory
      dsimp only at hstep
      split at hstep
      · next paths job hp =>
        cases hstep
        rw [hp] at hpending
        refine ⟨h.disk, hknows, hpending, ?_⟩
        rintro _ ⟨⟩ path hpath
        have hjob : (if job then [LedgerEntry.job s.job] else [] : List (LedgerEntry P T V)) =
            (if job then [s.job] else []).map .job := by cases job <;> rfl
        rw [hjob] at hpath
        exact ((lastState_statesAt s paths _ path).mp hpath).2
      · next paths hp =>
        cases hstep
        rw [hp] at hpending
        refine ⟨h.disk, hknows, fun path hpath => ?_, ?_⟩
        · exact (lastState_statesAt s paths [s.job] path).mpr
            ⟨hpending path hpath, h.memory s hmemory path hpath⟩
        · rintro _ ⟨⟩ path hpath
          exact ((lastState_statesAt s paths [s.job] path).mp hpath).2
      · cases hstep
    | finish =>
      dsimp only at hstep
      split at hstep
      · next entries hp =>
        cases hstep
        exact h.appended hmemory hp rfl
      · next entries hp =>
        cases hstep
        exact h.replaced hmemory hp rfl
      · cases hstep
    | crash n =>
      cases hstep
      exact h.crash n

theorem kept_of_reached (h : Reached codec AppendsToWhole w) : Kept codec w := by
  induction h with
  | start => exact kept_start
  | step action _ hallowed hstep ih => exact ih.step hallowed hstep

/-! ## Loading -/

/-- Loading gives every transcript the last state whose line was completely written. -/
def LoadsWritten (codec : Codec P T V) (w : World P T V) : Prop :=
  ∀ path, (loadText codec w.disk).states.get? path = lastState path w.written

/-- In a run whose appends all begin in a whole file, nothing written is lost. -/
theorem loadsWritten_of_reached (codec : Codec P T V) {w : World P T V}
    (h : Reached codec AppendsToWhole w) : LoadsWritten codec w := fun path =>
  (get?_loadText codec path w.disk).trans ((kept_of_reached h).disk path)

/-! ## A torn line -/

def asciiBytes (text : String) : Bytes := text.toList.map fun c => c.toNat.toUInt8

/-- The lines of two transcripts with one state, and of a job without fields. -/
def twoTranscripts : LedgerEntry Bool Unit Empty → Bytes
  | .transcript false _ => asciiBytes "\x7b\"path\":\"/a\",\"state\":\x7b\x7d\x7d"
  | .transcript true _ => asciiBytes "\x7b\"path\":\"/b\",\"state\":\x7b\x7d\x7d"
  | .job _ => asciiBytes "\x7b\"import\":\x7b\x7d\x7d"

def twoTranscripts.parse (line : Bytes) : Option (LedgerEntry Bool Unit Empty) :=
  if line = twoTranscripts (.transcript false ()) then some (.transcript false ())
  else if line = twoTranscripts (.transcript true ()) then some (.transcript true ())
  else if line = twoTranscripts (.job .empty) then some (.job .empty)
  else none

theorem job_empty (job : OrderedMap String Empty) : job = .empty := by
  apply ext_entries
  cases hentries : job.entries with
  | nil => rfl
  | cons entry rest => exact entry.2.elim

theorem forall_entries {Q : LedgerEntry Bool Unit Empty → Prop} (ha : Q (.transcript false ()))
    (hb : Q (.transcript true ())) (hjob : Q (.job .empty)) : ∀ entry, Q entry := by
  intro entry
  cases entry with
  | transcript path state =>
    cases path with
    | false => exact ha
    | true => exact hb
  | job job =>
    rw [job_empty job]
    exact hjob

theorem twoTranscripts.parse_text :
    ∀ entry, twoTranscripts.parse (twoTranscripts entry) = some entry :=
  forall_entries rfl rfl rfl

theorem twoTranscripts.newline_not_mem : ∀ entry, newline ∉ twoTranscripts entry :=
  forall_entries (by decide +kernel) (by decide +kernel) (by decide +kernel)

theorem twoTranscripts.ne_nil : ∀ entry, twoTranscripts entry ≠ [] :=
  forall_entries (by decide +kernel) (by decide +kernel) (by decide +kernel)

theorem twoTranscripts.parse_torn : ∀ entry n, n < (twoTranscripts entry).length →
    twoTranscripts.parse ((twoTranscripts entry).take n) = none := by
  have htorn : ∀ entry, ∀ n < (twoTranscripts entry).length,
      (twoTranscripts.parse ((twoTranscripts entry).take n)).isNone :=
    forall_entries (by decide +kernel) (by decide +kernel) (by decide +kernel)
  intro entry n hn
  exact isNone_iff_eq_none.mp (htorn entry n hn)

def sample : Codec Bool Unit Empty where
  stringify := twoTranscripts
  parse := twoTranscripts.parse
  parse_stringify := twoTranscripts.parse_text
  newline_not_mem := twoTranscripts.newline_not_mem
  parse_torn := twoTranscripts.parse_torn
  stringify_ne_nil := twoTranscripts.ne_nil

variable (codec) in
/-- The world after some actions. -/
def run (actions : List (Action P T V)) : Option (World P T V) := actions.foldlM (step codec) .start

theorem reached_of_foldlM {allowed : World P T V → Action P T V → Prop}
    (hallowed : ∀ w action, allowed w action) (actions : List (Action P T V)) {w' : World P T V}
    (hw : Reached codec allowed w) (h : actions.foldlM (step codec) w = some w') :
    Reached codec allowed w' := by
  induction actions generalizing w with
  | nil =>
    cases h
    exact hw
  | cons action actions ih =>
    obtain ⟨next, hnext, hrest⟩ := bind_eq_some_iff.mp h
    exact ih (.step action hw (hallowed _ _) hnext) hrest

/-- One line, written by a daemon that is still running. -/
theorem loadsWritten_of_reached_once :
    ∃ w : World Bool Unit Empty, w.written = [.transcript false ()] ∧ LoadsWritten sample w := by
  have hload : Reached sample AppendsToWhole ⟨[], some blank, none, []⟩ :=
    .step .load .start trivial (congrArg
      (fun pending => some (⟨[], some blank, pending, []⟩ : World Bool Unit Empty))
      (if_neg (by decide)))
  have hchange := Reached.step (.change false ()) hload trivial rfl
  have hmark := Reached.step (.markDirty false) hchange trivial rfl
  have happend := Reached.step .append hmark (.inl rfl) rfl
  have hstringify := Reached.step .stringify happend trivial rfl
  have hfinish := Reached.step .finish hstringify trivial rfl
  exact ⟨_, rfl, loadsWritten_of_reached sample hfinish⟩

/-- A daemon that dies five bytes into its first append, then one that writes a line. -/
def tornFirst : List (Action Bool Unit Empty) :=
  [.load, .change false (), .markDirty false, .append, .stringify, .crash 5,
    .load, .change true (), .markDirty true, .append, .stringify, .finish]

/-- The line written after a torn one is lost. -/
theorem torn_line_swallows_next :
    ¬ ∀ w : World Bool Unit Empty, Reached sample (fun _ _ => True) w → LoadsWritten sample w := by
  intro h
  have hrun : (run sample tornFirst).any (fun w =>
      (loadText sample w.disk).states.get? true = none ∧ lastState true w.written = some ()) := by
    decide +kernel
  obtain ⟨w, hw, hlost⟩ := (Option.any_eq_true _ _).mp hrun
  obtain ⟨hloaded, hwritten⟩ := of_decide_eq_true hlost
  have hreached : Reached sample (fun _ _ => True) w :=
    reached_of_foldlM (fun _ _ => trivial) tornFirst .start hw
  have hlast := h w hreached true
  rw [hloaded, hwritten] at hlast
  cases hlast

end Cohub.Native.IngestJournal
