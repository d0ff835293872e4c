import Cohub.Context.Bounded

/-! # When bounded reading loses nothing

    The candidates are the compactions of the complete history, one by one
    (`candidates_kinds`).  So the start is the compaction that wins when places
    count compactions, what is loaded is the history from that one's Turn on,
    and the result is what the whole gives exactly if the three rankings agree
    (`load_selects_iff`).

    They agree unless a compaction without a time is ranked, by its place,
    against a time below it.  Times are milliseconds since 1970. -/

namespace Cohub.Context

open Table List

/-! ## Candidates and compactions -/

/-- What the ranking reads of a message. -/
def kindOf (dateParse : Json → Option Int) (message : Message) : Option (Option Int) :=
  if isCompaction message then some (timeOf dateParse message) else none

theorem latestFrom_congr {dateParse : Json → Option Int} {l l' : List Message}
    (h : l.map (kindOf dateParse) = l'.map (kindOf dateParse)) (index : Nat) (latest : Int)
    (boundary : Option Nat) :
    latestFrom dateParse l index latest boundary = latestFrom dateParse l' index latest boundary := by
  induction l generalizing l' index latest boundary with
  | nil =>
    rw [map_nil, eq_comm, map_eq_nil_iff] at h
    rw [h]
  | cons message rest ih =>
    cases l' with
    | nil => cases h
    | cons message' rest' =>
      rw [map_cons, map_cons, List.cons.injEq] at h
      obtain ⟨hkind, hrest⟩ := h
      unfold latestFrom
      simp only [ih hrest]
      unfold kindOf at hkind
      cases hcompaction : isCompaction message <;> cases hcompaction' : isCompaction message' <;>
        simp_all

def isCompactionRow (row : MessageRow) : Bool :=
  row.role = .system ∧ row.content.any isCompactedNote

def turnCandidates (db : Database) (placed : Placed) : List Candidate :=
  ((turnRows db placed.2).filter isCompactionRow).map (toCandidate placed.1 placed.2)

theorem kindOf_rowMessage (dateParse : Json → Option Int) (k : Nat) (turn : TurnRow) (shell : Bool)
    {row : MessageRow} (hrow : isCompactionRow row = true) :
    kindOf dateParse (toCandidate k turn row).message = kindOf dateParse (rowMessage shell row) := by
  have hcandidate : isCompaction (toCandidate k turn row).message = true := by
    simp [isCompaction, toCandidate, isCompactedNote, compactedNote, Fields.get?,
      OrderedMap.lookupEntry]
  have hmessage : isCompaction (rowMessage shell row) = true := hrow
  unfold kindOf
  rw [if_pos hcandidate, if_pos hmessage]
  congr 1
  have hleft : (Json.obj [("compactedAt", (compactedAt row.metadata).getD .null)]).get?
      "compactedAt" = some ((compactedAt row.metadata).getD .null) := by
    simp [Json.get?, Json.fields, Fields.get?, OrderedMap.lookupEntry]
  have hpresent : present (some ((compactedAt row.metadata).getD .null)) =
      present (compactedAt row.metadata) := by
    cases compactedAt row.metadata with
    | none => rfl
    | some value => rfl
  unfold timeOf toCandidate rowMessage
  simp only [Option.bind_some, hleft, hpresent]
  rfl

section

variable {db : Database} {beforeSequence : Option Int}

theorem fallback_not_compaction {turn : TurnRow} (hturn : turn ∈ db.turns)
    (hrows : turnRows db turn = []) : ∀ message ∈ fallbackMessages turn, isCompaction message = false := by
  have hintent : turn.intent ≠ .compact := by
    intro hcompact
    obtain ⟨row, hrow, hid, hsession, _⟩ := db.compactTurns turn hturn hcompact
    have hmem : row ∈ turnRows db turn := mem_turnRows.mpr ⟨hrow, hid, hsession⟩
    rw [hrows] at hmem
    exact not_mem_nil hmem
  intro message hmessage
  have hrole : message.role ≠ .system := by
    unfold fallbackMessages at hmessage
    rcases mem_append.mp hmessage with h | h
    · split at h
      · cases h
      · rw [mem_singleton.mp h]
        nofun
    · split at h
      · cases h
      · split at h
        · cases h
        · rw [mem_singleton.mp h]
          nofun
  simp [isCompaction, hrole]

variable {placed : Placed}

theorem turnCandidates_kinds (dateParse : Json → Option Int) (hturn : placed.2 ∈ db.turns) :
    (turnCandidates db placed).map (fun candidate => kindOf dateParse candidate.message) =
      ((turnMessages db placed.2).filter isCompaction).map (kindOf dateParse) := by
  unfold turnCandidates turnMessages
  split
  · next hrows =>
    rw [hrows, filter_nil, map_nil, map_nil]
    have hnone : (if placed.2.status = .cancelled then [] else fallbackMessages placed.2).filter
        isCompaction = [] := by
      rw [filter_eq_nil_iff]
      intro message hmessage
      split at hmessage
      · cases hmessage
      · rw [fallback_not_compaction hturn hrows message hmessage]
        nofun
    rw [hnone, map_nil]
  · rw [filter_map, map_map, map_map]
    apply map_congr_left
    intro row hrow
    exact kindOf_rowMessage dateParse _ _ _ (mem_filter.mp hrow).2

theorem compactionRows_eq (range : TurnRange) :
    compactionRows db beforeSequence range =
      (visibleTurns db beforeSequence range).flatMap fun turn =>
        ((turnRows db turn).filter isCompactionRow).map fun row => (turn, row) := by
  apply orderBy_eq
  · have hturns := orderBy_perm TurnRow.sequence (db.turns.filter (inRange beforeSequence range))
    refine (hturns.symm.flatMap_right _).trans ?_
    apply List.Perm.flatMap_left
    intro turn hturn
    have hsession := sessionId_of_inRange (mem_visibleTurns.mp hturn).2
    apply List.Perm.map
    unfold turnRows
    refine List.Perm.trans (List.Perm.of_eq ?_) ((orderBy_perm _ _).filter _).symm
    rw [filter_filter]
    congr 1
    funext row
    rw [isCompactionRow, ← Bool.decide_and, decide_eq_decide, hsession]
    constructor
    · rintro ⟨hid, hsource, _, hrole, hnote⟩
      exact ⟨⟨hrole, hnote⟩, hid, hsource⟩
    · rintro ⟨⟨hrole, hnote⟩, hid, hsource⟩
      exact ⟨hid, hsource, hsource, hrole, hnote⟩
  · unfold Ascending
    rw [pairwise_flatMap]
    refine ⟨?_, ?_⟩
    · intro turn _
      rw [pairwise_map]
      refine List.Pairwise.imp ?_ ((turnRows_ascending turn).filter _)
      intro a b hlt
      exact Prod.Lex.toLex_lt_toLex.mpr (.inr ⟨rfl, hlt⟩)
    · refine visibleTurns_ascending.imp ?_
      intro turn turn' hlt a ha b hb
      obtain ⟨_, _, rfl⟩ := mem_map.mp ha
      obtain ⟨_, _, rfl⟩ := mem_map.mp hb
      exact Prod.Lex.toLex_lt_toLex.mpr (.inl hlt)

theorem mem_turns_of_placed {ranges : List TurnRange} {k : Nat}
    (h : placed ∈ placedTurns db beforeSequence ranges k) : placed.2 ∈ db.turns := by
  induction ranges generalizing k with
  | nil => cases h
  | cons range ranges ih =>
    rcases mem_append.mp h with h | h
    · obtain ⟨turn, hturn, rfl⟩ := mem_map.mp h
      exact (mem_visibleTurns.mp hturn).1
    · exact ih h

variable (ranges : List TurnRange)

theorem candidates_eq :
    candidates db beforeSequence ranges =
      (placedTurns db beforeSequence ranges 0).flatMap (turnCandidates db) := by
  unfold candidates
  generalize 0 = k
  induction ranges generalizing k with
  | nil => rfl
  | cons range ranges ih =>
    rw [zipIdx_cons, flatMap_cons, ih, placedTurns, flatMap_append, compactionRows_eq,
      map_flatMap, flatMap_map]
    congr 2
    funext turn
    rw [map_map]
    rfl

theorem completeMessages_eq :
    completeMessages db beforeSequence ranges =
      (placedTurns db beforeSequence ranges 0).flatMap fun placed => turnMessages db placed.2 := by
  unfold completeMessages
  rw [messagesByTurn_eq ranges 0, flatMap_def]

theorem candidates_kinds (dateParse : Json → Option Int) (ranges : List TurnRange) :
    ((candidates db beforeSequence ranges).map Candidate.message).map (kindOf dateParse) =
      ((completeMessages db beforeSequence ranges).filter isCompaction).map (kindOf dateParse) := by
  rw [candidates_eq, completeMessages_eq, map_map, map_flatMap, filter_flatMap,
    map_flatMap]
  apply flatMap_congr
  intro placed hplaced
  exact turnCandidates_kinds dateParse (mem_turns_of_placed hplaced)

end

/-! ## The start's Turn -/

theorem exists_split {τ κ : Type} {groups : List τ} (messagesOf : τ → List Message)
    (candidatesOf : τ → List κ)
    (hcount : ∀ g ∈ groups, (candidatesOf g).length = (messagesOf g).countP isCompaction)
    {place : Nat} {message : Message} (hmessage : (groups.flatMap messagesOf)[place]? = some message)
    (hkind : isCompaction message = true) :
    ∃ front g back x, groups = front ++ g :: back ∧
      (groups.flatMap candidatesOf)[compactionsBefore (groups.flatMap messagesOf) place]? = some x ∧
      x ∈ candidatesOf g ∧
      groupStart (groups.map messagesOf) place = (front.flatMap messagesOf).length ∧
      groupStart (groups.map messagesOf) place ≤ place := by
  induction groups generalizing place with
  | nil => cases hmessage
  | cons g rest ih =>
    rw [flatMap_cons] at hmessage
    by_cases hlt : place < (messagesOf g).length
    · rw [getElem?_append_left hlt] at hmessage
      have hbefore : compactionsBefore ((g :: rest).flatMap messagesOf) place =
          compactionsBefore (messagesOf g) place := by
        unfold compactionsBefore
        rw [flatMap_cons, take_append_of_le_length hlt.le]
      have hless : compactionsBefore (messagesOf g) place < (candidatesOf g).length := by
        rw [hcount g mem_cons_self]
        have h := compactionsBefore_lt hmessage hkind hlt
        unfold compactionsBefore at h ⊢
        rwa [take_length] at h
      have hstart : groupStart ((g :: rest).map messagesOf) place = 0 := by
        rw [map_cons, groupStart, if_pos hlt]
      refine ⟨[], g, rest, (candidatesOf g)[compactionsBefore (messagesOf g) place], rfl, ?_,
        getElem_mem _, hstart, hstart ▸ Nat.zero_le _⟩
      rw [hbefore, flatMap_cons, getElem?_append_left hless, getElem?_eq_getElem hless]
    · have hle := not_lt.mp hlt
      rw [getElem?_append_right hle] at hmessage
      obtain ⟨front, g', back, x, hsplit, hx, hmem, hstart, hbound⟩ :=
        ih (fun g' hg' => hcount g' (mem_cons_of_mem _ hg')) hmessage
      have hbefore : compactionsBefore ((g :: rest).flatMap messagesOf) place =
          (candidatesOf g).length +
            compactionsBefore (rest.flatMap messagesOf) (place - (messagesOf g).length) := by
        unfold compactionsBefore
        rw [hcount g mem_cons_self, flatMap_cons, take_append, countP_append,
          take_of_length_le hle]
      have hnext : groupStart ((g :: rest).map messagesOf) place = (messagesOf g).length +
          groupStart (rest.map messagesOf) (place - (messagesOf g).length) := by
        rw [map_cons, groupStart, if_neg hlt]
      refine ⟨g :: front, g', back, x, by rw [hsplit]; rfl, ?_, hmem, ?_, ?_⟩
      · rw [hbefore, flatMap_cons, getElem?_append_right (Nat.le_add_right _ _),
          Nat.add_sub_cancel_left]
        exact hx
      · rw [hnext, hstart, flatMap_cons, length_append]
      · rw [hnext]
        omega

theorem filter_fromStart {front back : List Placed} {placed : Placed} {candidate : Candidate}
    (h : Ascending placeKey (front ++ placed :: back)) (hindex : candidate.rangeIndex = placed.1)
    (hsequence : candidate.turnSequence = placed.2.sequence) :
    (front ++ placed :: back).filter (fromStart (some candidate)) = placed :: back := by
  obtain ⟨_, hback, hfront⟩ := pairwise_append.mp h
  have hiff : ∀ other : Placed, fromStart (some candidate) other = true ↔
      placeKey placed ≤ placeKey other := by
    intro other
    unfold fromStart placeKey
    rw [decide_eq_true_iff, Prod.Lex.toLex_le_toLex]
    simp only [Option.mem_def, Option.some.injEq, forall_eq', hindex, hsequence]
  rw [filter_append]
  have hnone : front.filter (fromStart (some candidate)) = [] := by
    rw [filter_eq_nil_iff]
    intro other hother hfrom
    exact absurd ((hiff other).mp hfrom)
      (not_le.mpr (hfront other hother placed mem_cons_self))
  have hall : (placed :: back).filter (fromStart (some candidate)) = placed :: back := by
    rw [filter_eq_self]
    intro other hother
    rw [hiff]
    rcases mem_cons.mp hother with rfl | hother
    · exact le_refl _
    · exact ((pairwise_cons.mp hback).1 other hother).le
  rw [hnone, hall, nil_append]

/-! ## What is returned -/

section

variable {dateParse : Json → Option Int} {messages : List Message}

theorem select_of_some {boundary : Nat} {compaction : Message}
    (h : findLatestCompactionIndex dateParse messages = some boundary)
    (hcompaction : messages[boundary]? = some compaction) :
    selectRuntimeContextMessages dateParse messages = compaction ::
      (messages.drop (boundary + 1)).filter fun message => !isCompaction message := by
  unfold selectRuntimeContextMessages
  rw [h]
  simp only [hcompaction]

variable {number : Nat → Nat} {first place : Nat}

theorem Wins.message (h : Wins dateParse messages number first place) :
    ∃ message, messages[place]? = some message ∧ isCompaction message = true := by
  obtain ⟨order, horder, _⟩ := h.highest
  obtain ⟨message, hmessage, hkind, _⟩ := orderAt_eq_some horder
  exact ⟨message, hmessage, hkind⟩

theorem exists_latest {list : List Message} {start : Nat}
    (h : Wins dateParse messages number first start) (hplace : list[place]? = messages[start]?) :
    ∃ boundary, findLatestCompactionIndex dateParse list = some boundary ∧
      Wins dateParse list id 0 boundary := by
  have hboundary := findLatestCompactionIndex_boundary dateParse list
  cases hindex : findLatestCompactionIndex dateParse list with
  | some boundary =>
    rw [hindex] at hboundary
    exact ⟨boundary, rfl, hboundary⟩
  | none =>
    rw [hindex] at hboundary
    obtain ⟨order, horder, hmin, _⟩ := h.highest
    obtain ⟨message, hmessage, hkind, hvalue⟩ := orderAt_eq_some horder
    rw [hmessage] at hplace
    have hless := hboundary place _ (orderAt_of_compaction hplace hkind)
    cases htime : timeOf dateParse message with
    | none =>
      rw [htime, Option.getD_none] at hless
      omega
    | some time =>
      rw [htime, Option.getD_some] at hless hvalue
      omega

section

variable {messages : List Message} {turnStart : Nat → Nat} {start : Nat}

theorem select_drop_iff (hstart : Wins dateParse messages (compactionsBefore messages) 0 start)
    (hbefore : turnStart start ≤ start) :
    selectRuntimeContextMessages dateParse (messages.drop (turnStart start)) =
        selectRuntimeContextMessages dateParse messages ↔
      RanksAgree dateParse messages turnStart := by
  have hthere : (messages.drop (turnStart start))[start - turnStart start]? = messages[start]? := by
    rw [getElem?_drop]
    congr 1
    omega
  obtain ⟨whole, hwhole, hwholeWins⟩ := exists_latest hstart (Eq.refl messages[start]?)
  obtain ⟨part, hpart, hpartWins⟩ := exists_latest hstart hthere
  have hwinners : Winners dateParse messages turnStart start whole (turnStart start + part) :=
    ⟨hstart, hbefore, hwholeWins, wins_of_drop hpartWins⟩
  obtain ⟨first, hfirst, _⟩ := hwholeWins.message
  obtain ⟨second, hsecond, _⟩ := hpartWins.message
  have hsecond' : messages[turnStart start + part]? = some second := by
    rw [← getElem?_drop]
    exact hsecond
  rw [select_of_some hwhole hfirst, select_of_some hpart hsecond, drop_drop]
  constructor
  · intro heq
    injection heq with hhead _
    apply hwinners.ranksAgree
    -- one message has a time or has none
    apply hwinners.eq_of_kind
    unfold Untimed
    rw [hfirst, hsecond', hhead]
  · intro hagree
    have hsame := hwinners.eq_of_ranksAgree hagree
    rw [hsame, hfirst] at hsecond'
    injection hsecond' with hhead
    rw [← hsame, hhead, add_assoc]

end

variable {db : Database} {beforeSequence : Option Int}

theorem findLatest_candidates (ranges : List TurnRange) :
    findLatestCompactionIndex dateParse
        ((candidates db beforeSequence ranges).map Candidate.message) =
      findLatestCompactionIndex dateParse
        ((completeMessages db beforeSequence ranges).filter isCompaction) :=
  latestFrom_congr (candidates_kinds dateParse ranges) 0 (-1) none

theorem length_turnCandidates {placed : Placed} (h : placed.2 ∈ db.turns) :
    (turnCandidates db placed).length = (turnMessages db placed.2).countP isCompaction := by
  have hkinds := congrArg List.length (turnCandidates_kinds (fun _ => none) h)
  rw [length_map, length_map] at hkinds
  rw [hkinds, countP_eq_length_filter]

def loadedMessages (db : Database) (beforeSequence : Option Int) (dateParse : Json → Option Int)
    (ranges : List TurnRange) : List Message :=
  readRanges db beforeSequence (findCompactionStart db beforeSequence dateParse ranges) ranges 0 []

variable {ranges : List TurnRange}

theorem loadedMessages_of_none (h : findLatestCompactionIndex dateParse
      ((candidates db beforeSequence ranges).map Candidate.message) = none) :
    loadedMessages db beforeSequence dateParse ranges = completeMessages db beforeSequence ranges := by
  have hstart : findCompactionStart db beforeSequence dateParse ranges = none := by
    unfold findCompactionStart
    simp only
    rw [h]
    rfl
  have hall : ∀ l : List Placed, l.filter (fromStart none) = l := by
    intro l
    rw [filter_eq_self]
    intro placed _
    unfold fromStart
    rw [decide_eq_true_iff]
    intro candidate hcandidate
    exact absurd hcandidate (Option.not_mem_none candidate)
  unfold loadedMessages
  rw [hstart, readRanges_eq, hall, completeMessages_eq, nil_append]

theorem loadedMessages_of_some {index : Nat}
    (h : findLatestCompactionIndex dateParse
      ((candidates db beforeSequence ranges).map Candidate.message) = some index) :
    ∃ start, Wins dateParse (completeMessages db beforeSequence ranges)
        (compactionsBefore (completeMessages db beforeSequence ranges)) 0 start ∧
      groupStart (messagesByTurn db beforeSequence ranges) start ≤ start ∧
      loadedMessages db beforeSequence dateParse ranges =
        (completeMessages db beforeSequence ranges).drop
          (groupStart (messagesByTurn db beforeSequence ranges) start) := by
  have hboundary := findLatestCompactionIndex_boundary dateParse
    ((completeMessages db beforeSequence ranges).filter isCompaction)
  rw [← findLatest_candidates, h] at hboundary
  obtain ⟨start, hindex, hwins⟩ := wins_of_filter hboundary
  obtain ⟨message, hmessage, hkind⟩ := hwins.message
  rw [completeMessages_eq] at hmessage hindex
  obtain ⟨front, placed, back, candidate, hsplit, hcandidate, hmem, hstart, hbefore⟩ :=
    exists_split (fun placed : Placed => turnMessages db placed.2) (turnCandidates db)
      (fun placed hplaced => length_turnCandidates (mem_turns_of_placed hplaced)) hmessage hkind
  rw [← messagesByTurn_eq ranges 0] at hstart hbefore
  rw [hindex, ← candidates_eq] at hcandidate
  refine ⟨start, hwins, hbefore, ?_⟩
  have hfound : findCompactionStart db beforeSequence dateParse ranges = some candidate := by
    unfold findCompactionStart
    simp only
    rw [h, Option.bind_some, hcandidate]
  obtain ⟨row, _, hrow⟩ := mem_map.mp hmem
  have hplaces : candidate.rangeIndex = placed.1 ∧ candidate.turnSequence = placed.2.sequence := by
    rw [← hrow]
    exact ⟨rfl, rfl⟩
  have hascending : Ascending placeKey (placedTurns db beforeSequence ranges 0) :=
    placedTurns_ascending ranges 0
  rw [hsplit] at hascending
  unfold loadedMessages
  rw [hfound, readRanges_eq, hsplit, filter_fromStart hascending hplaces.1 hplaces.2, hstart,
    completeMessages_eq, hsplit, flatMap_append, drop_left, nil_append]

/-- What a call returns is what the selection from the complete history gives,
    exactly if the rankings of its compactions agree. -/
theorem load_selects_iff (db : Database) (dateParse : Json → Option Int) (input : ContextInput)
    (beforeSequence : Option Int) (messages : List Message)
    (hbound : boundOf db input = .ok beforeSequence)
    (hload : load db dateParse input = .ok messages) :
    messages = selectRuntimeContextMessages dateParse
        (completeMessages db beforeSequence (turnRanges db beforeSequence input.sessionId)) ↔
      RanksAgree dateParse
        (completeMessages db beforeSequence (turnRanges db beforeSequence input.sessionId))
        (groupStart
          (messagesByTurn db beforeSequence (turnRanges db beforeSequence input.sessionId))) := by
  have hmessages : messages = selectRuntimeContextMessages dateParse
      (loadedMessages db beforeSequence dateParse
        (turnRanges db beforeSequence input.sessionId)) := by
    unfold load at hload
    rw [hbound] at hload
    simp only [bind, Except.bind, pure, Except.pure, throw, throwThe, MonadExceptOf.throw] at hload
    split at hload
    · cases hload
    · split at hload
      · cases hload
      · injection hload with hload
        exact hload.symm
  generalize turnRanges db beforeSequence input.sessionId = ranges at *
  rw [hmessages]
  cases hindex : findLatestCompactionIndex dateParse
      ((candidates db beforeSequence ranges).map Candidate.message) with
  | none =>
    rw [loadedMessages_of_none hindex]
    refine iff_of_true rfl ?_
    -- a compaction without a time would have been found
    intro place hplace
    rw [findLatest_candidates] at hindex
    have hboundary := findLatestCompactionIndex_boundary dateParse
      ((completeMessages db beforeSequence ranges).filter isCompaction)
    rw [hindex] at hboundary
    have hless := hboundary _ _ (orderAt_filter hplace.1.orderAt)
    omega
  | some index =>
    obtain ⟨start, hwins, hbefore, hloaded⟩ := loadedMessages_of_some hindex
    rw [hloaded]
    exact select_drop_iff hwins hbefore

theorem ranksAgree_of_recent {turnStart : Nat → Nat}
    (h : ∀ message ∈ messages, ∀ time ∈ timeOf dateParse message, (messages.length : Int) ≤ time) :
    RanksAgree dateParse messages turnStart := by
  have hrecent : ∀ place time, Timed dateParse messages place time → (messages.length : Int) ≤ time := by
    rintro place time ⟨message, hmessage, _, htime⟩
    exact h message (mem_of_getElem? hmessage) time htime
  intro place hplace
  have hlt : place < messages.length := by
    obtain ⟨message, hmessage, _⟩ := hplace.1
    exact (List.getElem?_eq_some_iff.mp hmessage).1
  have hnot : ∀ timed time, Timed dateParse messages timed time →
      ¬ Outranks place place time timed := by
    intro timed time htimed houtranks
    have := hrecent timed time htimed
    unfold Outranks at houtranks
    omega
  by_cases htimed : ∃ timed time, Timed dateParse messages timed time
  · -- the winner of the whole list has the latest time
    obtain ⟨timed, time, htimed⟩ := htimed
    have hboundary := findLatestCompactionIndex_boundary dateParse messages
    cases hindex : findLatestCompactionIndex dateParse messages with
    | none =>
      rw [hindex] at hboundary
      have hless := hboundary place _ hplace.1.orderAt
      simp only [id] at hless
      omega
    | some winner =>
      rw [hindex] at hboundary
      have hwins : Wins dateParse messages id 0 winner := hboundary
      rcases hwins.timed_or_untimed with ⟨time', hwinner⟩ | hwinner
      · refine Or.inl ⟨winner, time', ⟨hwinner, ?_⟩, .inl (hnot winner time' hwinner)⟩
        intro other time'' hother
        exact (hwins.of_timed hwinner).1 other time'' (Nat.zero_le _) hother
      · have hover := (hwins.of_untimed (fun _ _ _ h => h) hwinner).2 timed time (Nat.zero_le _) htimed
        have hle := hplace.2 winner hwinner
        have := hrecent timed time htimed
        unfold Outranks at hover
        simp only [id] at hover
        omega
  · exact .inr fun timed time hthis => absurd ⟨timed, time, hthis⟩ htimed

end

/-! ## Two histories -/

def sampleTurn (id : String) (sequence : Int) : TurnRow where
  id := id
  sessionId := "session"
  sequence := sequence
  status := .completed
  intent := .steer
  userContent := []
  assistantContent := none
  provider := none
  model := none
  metadata := .obj []
  createdAt := none

def sampleMessage (id turnId : String) (sequence : Int) (role : Role) (metadata : Json) :
    MessageRow where
  id := id
  sessionId := "session"
  turnId := some turnId
  sequence := sequence
  role := role
  content := if role = .system then [compactedNote] else []
  provider := none
  model := none
  usage := none
  stopReason := none
  errorMessage := none
  metadata := metadata
  createdAt := none

/-- Three Turns; the second has a compaction of the given time, the third one
    without a time. -/
def threeTurns (time : String) : Database where
  sessions := [("session", "space")]
  turns := [sampleTurn "turn-1" 1, sampleTurn "turn-2" 2, sampleTurn "turn-3" 3]
  messages := [
    sampleMessage "user-1" "turn-1" 1 .user (.obj []),
    sampleMessage "assistant-1" "turn-1" 2 .assistant (.obj []),
    sampleMessage "compaction-1" "turn-2" 3 .system
      (.obj [("compaction", .obj [("compactedAt", .str time)])]),
    sampleMessage "user-2" "turn-2" 4 .user (.obj []),
    sampleMessage "compaction-2" "turn-3" 5 .system (.obj []),
    sampleMessage "user-3" "turn-3" 6 .user (.obj [])]
  segments := []
  turnIds := by simp [Distinct, sampleTurn]
  turnSequences := by simp [Distinct, sampleTurn]
  messageSequences := by simp [Distinct, sampleMessage]
  compactTurns := by simp [sampleTurn]

/-- `Date.parse` on the times of the two histories. -/
def parseTimes : Json → Option Int
  | .str "2026-07-30T00:00:00.000Z" => some 1785369600000
  | .str "1970-01-01T00:00:00.003Z" => some 3
  | _ => none

def wholeSession : ContextInput where
  spaceId := "space"
  sessionId := "session"
  beforeSequence := none
  throughTurnId := none

/-- The ids of the messages that a call returns. -/
def returnedIds (time : String) : Option (List String) :=
  (load (threeTurns time) parseTimes wholeSession).toOption.map (List.map Message.id)

/-- The ids of what the selection from the complete history gives. -/
def selectedIds (time : String) : List String :=
  (selectRuntimeContextMessages parseTimes (completeMessages (threeTurns time) none
    (turnRanges (threeTurns time) none "session"))).map Message.id

theorem load_selects_recent :
    ∃ messages, load (threeTurns "2026-07-30T00:00:00.000Z") parseTimes wholeSession = .ok messages ∧
      messages = selectRuntimeContextMessages parseTimes
        (completeMessages (threeTurns "2026-07-30T00:00:00.000Z") none
          (turnRanges (threeTurns "2026-07-30T00:00:00.000Z") none "session")) := by
  refine ⟨_, rfl, ?_⟩
  apply (load_selects_iff (threeTurns "2026-07-30T00:00:00.000Z") parseTimes wholeSession none _
    rfl rfl).mpr
  apply ranksAgree_of_recent
  decide +kernel

/-- With a time at the start of the epoch the reader goes back to the older of
    two compactions. -/
theorem load_epoch_differs :
    returnedIds "1970-01-01T00:00:00.003Z" = some ["compaction-1", "user-2", "user-3"] ∧
      selectedIds "1970-01-01T00:00:00.003Z" = ["compaction-2", "user-3"] := by
  decide +kernel

end Cohub.Context
