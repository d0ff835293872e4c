import Cohub.Context.Reader

/-! # What the bounded reader returns

    A page appends the messages of its Turns (`appendTurnPage_eq`), the pages
    of a range those of its visible Turns, and what is loaded is the complete
    history from the first message of the start's Turn on.  So the reader
    selects from a part of the history, and it returns what the selection from
    the whole gives exactly if the rankings agree. -/

namespace Cohub.Context

open Table List

/-! ## Turns and their rows -/

section

variable {db : Database} {beforeSequence : Option Int} {range : TurnRange} {turn : TurnRow}

theorem mem_visibleTurns :
    turn ∈ visibleTurns db beforeSequence range ↔
      turn ∈ db.turns ∧ inRange beforeSequence range turn = true := by
  unfold visibleTurns
  rw [mem_orderBy, mem_filter]

theorem sessionId_of_inRange (h : inRange beforeSequence range turn = true) :
    turn.sessionId = range.sourceSessionId :=
  (of_decide_eq_true h).1

theorem distinct_sequence {turns : List TurnRow} (hsub : turns.Sublist db.turns) {sessionId : String}
    (hsession : ∀ turn ∈ turns, turn.sessionId = sessionId) : Distinct TurnRow.sequence turns := by
  have hpairs : Distinct (fun turn : TurnRow => (turn.sessionId, turn.sequence)) turns :=
    List.Pairwise.sublist hsub db.turnSequences
  refine List.Pairwise.imp_of_mem ?_ hpairs
  intro a b ha hb hne heq
  apply hne
  show (a.sessionId, a.sequence) = (b.sessionId, b.sequence)
  rw [hsession a ha, hsession b hb, heq]

theorem visibleTurns_ascending : Ascending TurnRow.sequence (visibleTurns db beforeSequence range) := by
  apply orderBy_ascending
  apply distinct_sequence filter_sublist
  intro turn hturn
  exact sessionId_of_inRange (mem_filter.mp hturn).2

theorem visibleTurns_nodup_id :
    Distinct TurnRow.id (visibleTurns db beforeSequence range) :=
  (Distinct.filter db.turnIds _).perm (orderBy_perm _ _).symm

theorem mem_turnRows {row : MessageRow} :
    row ∈ turnRows db turn ↔
      row ∈ db.messages ∧ row.turnId = some turn.id ∧ row.sessionId = turn.sessionId := by
  unfold turnRows
  rw [mem_orderBy, mem_filter, decide_eq_true_iff]

theorem turnRows_ascending (turn : TurnRow) : Ascending MessageRow.sequence (turnRows db turn) := by
  apply orderBy_ascending
  have hpairs := Distinct.filter db.messageSequences fun row : MessageRow =>
    decide (row.turnId = some turn.id ∧ row.sessionId = turn.sessionId)
  refine List.Pairwise.imp_of_mem ?_ hpairs
  intro a b ha hb hne heq
  have hsession : ∀ row ∈ db.messages.filter fun row : MessageRow =>
      decide (row.turnId = some turn.id ∧ row.sessionId = turn.sessionId),
      row.sessionId = turn.sessionId :=
    fun row h => (of_decide_eq_true (mem_filter.mp h).2).2
  apply hne
  show (a.sessionId, a.sequence) = (b.sessionId, b.sequence)
  rw [hsession a ha, hsession b hb, heq]

end

/-! ## One page -/

/-- A page of Turns of one session: they are in the table, in order. -/
structure IsPage (db : Database) (sessionId : String) (turns : List TurnRow) : Prop where
  stored    : ∀ turn ∈ turns, turn ∈ db.turns
  session   : ∀ turn ∈ turns, turn.sessionId = sessionId
  ascending : Ascending TurnRow.sequence turns
  ids       : Distinct TurnRow.id turns

section

variable {db : Database} {sessionId : String} {turns : List TurnRow} {turn : TurnRow}

section

variable (h : Distinct TurnRow.id turns) (hturn : turn ∈ turns)
include h hturn

theorem find?_of_distinct :
    turns.find? (fun other => some other.id = some turn.id) = some turn := by
  induction turns with
  | nil => cases hturn
  | cons head rest ih =>
    obtain ⟨hhead, hrest⟩ := pairwise_cons.mp h
    rcases mem_cons.mp hturn with rfl | hturn
    · simp
    · have hne : ¬ some head.id = some turn.id := by
        intro heq
        injection heq with heq
        exact hhead turn hturn heq
      rw [find?_cons_of_neg (by simpa using hne)]
      exact ih hrest hturn

theorem sequenceOf_eq :
    sequenceOf turns (some turn.id) = turn.sequence := by
  unfold sequenceOf
  rw [find?_of_distinct h hturn]
  rfl

theorem isShellTurn_eq :
    isShellTurn turns (some turn.id) = turn.isShellCommand := by
  unfold isShellTurn
  rw [Bool.eq_iff_iff, any_eq_true]
  constructor
  · rintro ⟨other, hother, hshell⟩
    obtain ⟨hcommand, hid⟩ := of_decide_eq_true hshell
    injection hid with hid
    have hsame : other = turn := by
      have hfind := find?_of_distinct h hother
      rw [hid, find?_of_distinct h hturn] at hfind
      injection hfind with hfind
      exact hfind.symm
    rw [← hsame]
    exact hcommand
  · intro hshell
    exact ⟨turn, hturn, by simp [hshell]⟩

end

theorem IsPage.rows_eq (h : IsPage db sessionId turns) :
    (loadTurnPage db sessionId turns).rows = turns.flatMap (turnRows db) := by
  apply orderBy_eq
  · -- one group of rows for each Turn
    have hids : (turns.map fun turn => some turn.id).Nodup := by
      rw [nodup_iff_pairwise_ne, pairwise_map]
      exact h.ids.imp fun hne heq => hne (Option.some.inj heq)
    have hgroups : (db.messages.filter fun row =>
        row.turnId ∈ turns.map fun turn => some turn.id).Perm
          ((turns.map fun turn => some turn.id).flatMap fun id =>
            db.messages.filter fun row => row.turnId = id) :=
      filter_groups_perm hids (fun _ => decide_eq_true_iff) fun _ _ => decide_eq_true_iff
    refine (hgroups.filter fun row => decide (row.sessionId = sessionId)).trans ?_
    rw [flatMap_map, filter_flatMap]
    apply List.Perm.flatMap_left
    intro turn hturn
    refine List.Perm.trans (List.Perm.of_eq ?_) (orderBy_perm _ _).symm
    rw [filter_filter, h.session turn hturn]
    congr 1
    funext row
    rw [← Bool.decide_and, decide_eq_decide]
    exact and_comm
  · unfold Ascending
    rw [pairwise_flatMap]
    refine ⟨?_, ?_⟩
    · intro turn hturn
      refine List.Pairwise.imp_of_mem ?_ (turnRows_ascending turn)
      intro a b ha hb hlt
      show toLex (sequenceOf turns a.turnId, a.sequence) < toLex (sequenceOf turns b.turnId, b.sequence)
      rw [(mem_turnRows.mp ha).2.1, (mem_turnRows.mp hb).2.1, Prod.Lex.toLex_lt_toLex]
      exact .inr ⟨rfl, hlt⟩
    · refine List.Pairwise.imp_of_mem ?_ h.ascending
      intro turn turn' hturn hturn' hlt a ha b hb
      show toLex (sequenceOf turns a.turnId, a.sequence) < toLex (sequenceOf turns b.turnId, b.sequence)
      rw [(mem_turnRows.mp ha).2.1, (mem_turnRows.mp hb).2.1, sequenceOf_eq h.ids hturn,
        sequenceOf_eq h.ids hturn', Prod.Lex.toLex_lt_toLex]
      exact .inl hlt

/-- A Turn without rows that is not cancelled. -/
def needsFallback (db : Database) (turn : TurnRow) : Bool :=
  turnRows db turn = [] ∧ turn.status ≠ .cancelled

theorem IsPage.mem_rows (h : IsPage db sessionId turns) (hturn : turn ∈ turns) :
    some turn.id ∈ (turns.flatMap (turnRows db)).map MessageRow.turnId ↔ turnRows db turn ≠ [] := by
  rw [mem_map]
  constructor
  · rintro ⟨row, hrow, hid⟩
    obtain ⟨other, hother, hrow⟩ := mem_flatMap.mp hrow
    have hsame : other = turn := by
      have hid' := (mem_turnRows.mp hrow).2.1
      rw [hid] at hid'
      have hfind := find?_of_distinct h.ids hother
      rw [← hid', find?_of_distinct h.ids hturn] at hfind
      injection hfind with hfind
      exact hfind.symm
    rw [← hsame]
    exact ne_nil_of_mem hrow
  · intro hne
    obtain ⟨row, hrow⟩ := exists_mem_of_ne_nil _ hne
    exact ⟨row, mem_flatMap.mpr ⟨turn, hturn, hrow⟩, (mem_turnRows.mp hrow).2.1⟩

theorem IsPage.fallback_eq (h : IsPage db sessionId turns) :
    (loadTurnPage db sessionId turns).fallback = turns.filter (needsFallback db) := by
  have hrows := h.rows_eq
  have hmissing : turns.filter (fun turn =>
      some turn.id ∉ (loadTurnPage db sessionId turns).rows.map MessageRow.turnId ∧
        turn.status ≠ .cancelled) = turns.filter (needsFallback db) := by
    apply filter_congr
    intro turn hturn
    rw [hrows]
    unfold needsFallback
    rw [decide_eq_decide, h.mem_rows hturn, not_not]
  have hfallback : (loadTurnPage db sessionId turns).fallback = orderBy TurnRow.sequence
      (db.turns.filter fun turn => turn.sessionId = sessionId ∧
        turn.id ∈ (turns.filter (needsFallback db)).map TurnRow.id) := by
    rw [← hmissing]
    rfl
  rw [hfallback]
  refine orderBy_eq ?_ (h.ascending.filter _)
  have hstored : db.turns.Nodup := db.turnIds.imp fun hne heq => hne (congrArg _ heq)
  have hturns : turns.Nodup := h.ids.imp fun hne heq => hne (congrArg _ heq)
  rw [perm_ext_iff_of_nodup (hstored.filter _) (hturns.filter _)]
  intro turn
  rw [mem_filter, decide_eq_true_iff]
  constructor
  · rintro ⟨hturn, -, hid⟩
    obtain ⟨other, hother, hid⟩ := mem_map.mp hid
    have hsame : other = turn := by
      have hfind := find?_of_distinct db.turnIds (h.stored other (mem_of_mem_filter hother))
      rw [hid, find?_of_distinct db.turnIds hturn] at hfind
      injection hfind with hfind
      exact hfind.symm
    rw [← hsame]
    exact hother
  · intro hturn
    have hmem := mem_of_mem_filter hturn
    exact ⟨h.stored turn hmem, h.session turn hmem, mem_map.mpr ⟨turn, hturn, rfl⟩⟩

/-! ## Rows and fallback Turns together -/

variable {rows : List MessageRow} {fallback : List TurnRow}

theorem appendRows_earlier (hrows : ∀ row ∈ rows, turn.sequence < sequenceOf turns row.turnId) :
    appendRows turns rows (turn :: fallback) =
      fallbackMessages turn ++ appendRows turns rows fallback := by
  cases rows with
  | nil => simp [appendRows]
  | cons row rest =>
    have hlt := hrows row mem_cons_self
    simp only [appendRows]
    rw [takeWhile_cons_of_pos (by simpa using hlt),
      dropWhile_cons_of_pos (by simpa using hlt)]
    simp

theorem appendRows_rows {front : List MessageRow}
    (hlater : ∀ row ∈ front, ∀ turn ∈ fallback, ¬ turn.sequence < sequenceOf turns row.turnId) :
    appendRows turns (front ++ rows) fallback =
      front.map (fun row => rowMessage (isShellTurn turns row.turnId) row) ++
        appendRows turns rows fallback := by
  induction front with
  | nil => rfl
  | cons row front ih =>
    have hnone : ∀ turn ∈ fallback,
        decide (turn.sequence < sequenceOf turns row.turnId) = false := fun turn hturn =>
      decide_eq_false (hlater row mem_cons_self turn hturn)
    have htake : fallback.takeWhile
        (fun turn => decide (turn.sequence < sequenceOf turns row.turnId)) = [] := by
      cases fallback with
      | nil => rfl
      | cons turn rest => exact takeWhile_cons_of_neg (by simp [hnone turn mem_cons_self])
    have hdrop : fallback.dropWhile
        (fun turn => decide (turn.sequence < sequenceOf turns row.turnId)) = fallback := by
      cases fallback with
      | nil => rfl
      | cons turn rest => exact dropWhile_cons_of_neg (by simp [hnone turn mem_cons_self])
    simp only [cons_append, appendRows, map_cons, htake, hdrop, flatMap_nil,
      nil_append]
    rw [ih fun other hother => hlater other (mem_cons_of_mem _ hother)]

theorem appendRows_eq {all : List TurnRow} (hall : Distinct TurnRow.id all)
    (hsub : ∀ turn ∈ turns, turn ∈ all) (hascending : Ascending TurnRow.sequence turns) :
    appendRows all (turns.flatMap (turnRows db)) (turns.filter (needsFallback db)) =
      turns.flatMap (turnMessages db) := by
  induction turns with
  | nil => rfl
  | cons turn rest ih =>
    obtain ⟨hfirst, hrest⟩ := pairwise_cons.mp hascending
    have hsub' : ∀ other ∈ rest, other ∈ all := fun other hother =>
      hsub other (mem_cons_of_mem _ hother)
    have hsequence : ∀ other ∈ turn :: rest, ∀ row ∈ turnRows db other,
        sequenceOf all row.turnId = other.sequence := by
      intro other hother row hrow
      rw [(mem_turnRows.mp hrow).2.1]
      exact sequenceOf_eq hall (hsub other hother)
    have hlater : ∀ row ∈ rest.flatMap (turnRows db), turn.sequence < sequenceOf all row.turnId := by
      intro row hrow
      obtain ⟨other, hother, hrow⟩ := mem_flatMap.mp hrow
      rw [hsequence other (mem_cons_of_mem _ hother) row hrow]
      exact hfirst other hother
    rw [flatMap_cons, flatMap_cons, ← ih hsub' hrest]
    by_cases hrows : turnRows db turn = []
    · rw [hrows, nil_append]
      unfold turnMessages
      rw [if_pos hrows]
      by_cases hcancelled : turn.status = .cancelled
      · rw [filter_cons_of_neg (by simp [needsFallback, hcancelled]), if_pos hcancelled,
          nil_append]
      · rw [filter_cons_of_pos (by simp [needsFallback, hrows, hcancelled]),
          if_neg hcancelled, appendRows_earlier hlater]
    · have hfilter : (turn :: rest).filter (needsFallback db) = rest.filter (needsFallback db) :=
        filter_cons_of_neg (by simp [needsFallback, hrows])
      rw [hfilter, appendRows_rows]
      · unfold turnMessages
        rw [if_neg hrows]
        congr 1
        apply map_congr_left
        intro row hrow
        rw [(mem_turnRows.mp hrow).2.1, isShellTurn_eq hall (hsub turn mem_cons_self)]
      · intro row hrow other hother
        rw [hsequence turn mem_cons_self row hrow]
        exact not_lt.mpr (hfirst other (mem_of_mem_filter hother)).le

theorem IsPage.appendTurnPage_eq (h : IsPage db sessionId turns) (messages : List Message) :
    appendTurnPage messages (loadTurnPage db sessionId turns) =
      messages ++ turns.flatMap (turnMessages db) := by
  unfold appendTurnPage
  rw [h.rows_eq, h.fallback_eq]
  exact congrArg (messages ++ ·) (appendRows_eq h.ids (fun _ hturn => hturn) h.ascending)

end

/-! ## The pages of a range -/

theorem filter_after_take {α β : Type} [LinearOrder β] {key : α → β} {l : List α} {n : Nat} {last : α}
    (h : Ascending key l) (hlast : (l.take n).getLast? = some last) :
    l.filter (fun a => decide (key last < key a)) = l.drop n := by
  have hsplit := take_append_drop n l
  rw [← hsplit] at h
  obtain ⟨hfront, _, hacross⟩ := pairwise_append.mp h
  have hmem := mem_of_getLast? hlast
  conv_lhs => rw [← hsplit, filter_append]
  have hnone : (l.take n).filter (fun a => decide (key last < key a)) = [] := by
    rw [filter_eq_nil_iff]
    intro a ha hlt
    have hlt := of_decide_eq_true hlt
    obtain ⟨front, hfrontLast⟩ := getLast?_eq_some_iff.mp hlast
    rw [hfrontLast] at ha hfront
    rcases mem_append.mp ha with ha | ha
    · exact absurd hlt (lt_asymm ((pairwise_append.mp hfront).2.2 a ha last (by simp)))
    · rw [mem_singleton.mp ha] at hlt
      exact absurd hlt (lt_irrefl _)
  have hall : (l.drop n).filter (fun a => decide (key last < key a)) = l.drop n := by
    rw [filter_eq_self]
    intro a ha
    exact decide_eq_true (hacross last hmem a ha)
  rw [hnone, hall, nil_append]

section

variable {db : Database} {beforeSequence : Option Int} {range : TurnRange}

/-- The Turns of a range after a sequence number. -/
def turnsAfter (db : Database) (beforeSequence : Option Int) (range : TurnRange)
    (after : Option Int) : List TurnRow :=
  (visibleTurns db beforeSequence range).filter fun turn =>
    decide (∀ sequence ∈ after, sequence < turn.sequence)

variable (after : Option Int)

theorem turnsAfter_ascending :
    Ascending TurnRow.sequence (turnsAfter db beforeSequence range after) :=
  visibleTurns_ascending.filter _

theorem orderBy_turnsAfter :
    orderBy TurnRow.sequence (db.turns.filter fun turn =>
      inRange beforeSequence range turn ∧ ∀ sequence ∈ after, sequence < turn.sequence) =
      turnsAfter db beforeSequence range after := by
  refine orderBy_eq ?_ (turnsAfter_ascending after)
  unfold turnsAfter visibleTurns
  refine List.Perm.trans (List.Perm.of_eq ?_) ((orderBy_perm _ _).filter _).symm
  rw [filter_filter]
  congr 1
  funext turn
  rw [Bool.eq_iff_iff, Bool.and_eq_true, decide_eq_true_iff, decide_eq_true_iff]
  exact and_comm

theorem isPage_of_sublist {turns : List TurnRow}
    (h : turns.Sublist (visibleTurns db beforeSequence range)) :
    IsPage db range.sourceSessionId turns where
  stored := fun _ hturn => (mem_visibleTurns.mp (h.subset hturn)).1
  session := fun _ hturn => sessionId_of_inRange (mem_visibleTurns.mp (h.subset hturn)).2
  ascending := List.Pairwise.sublist h visibleTurns_ascending
  ids := List.Pairwise.sublist h visibleTurns_nodup_id

theorem turnsAfter_last {after : Option Int} {n : Nat} {last : TurnRow}
    (hlast : ((turnsAfter db beforeSequence range after).take n).getLast? = some last) :
    turnsAfter db beforeSequence range (some last.sequence) =
      (turnsAfter db beforeSequence range after).drop n := by
  rw [← filter_after_take (turnsAfter_ascending after) hlast]
  unfold turnsAfter
  rw [filter_filter]
  apply filter_congr
  intro turn _
  have hmem : last ∈ turnsAfter db beforeSequence range after :=
    mem_of_mem_take (mem_of_getLast? hlast)
  have hafter := of_decide_eq_true (mem_filter.mp hmem).2
  rw [Bool.eq_iff_iff, Bool.and_eq_true, decide_eq_true_iff, decide_eq_true_iff, decide_eq_true_iff]
  constructor
  · intro h
    have hlt := h last.sequence rfl
    exact ⟨hlt, fun sequence hsequence => (hafter sequence hsequence).trans hlt⟩
  · rintro ⟨hlt, _⟩ sequence hsequence
    injection hsequence with hsequence
    rw [← hsequence]
    exact hlt

theorem readPages_eq (rounds : Nat) (after : Option Int) (messages : List Message)
    (hrounds : (turnsAfter db beforeSequence range after).length < rounds) :
    readPages db beforeSequence range rounds after messages =
      messages ++ (turnsAfter db beforeSequence range after).flatMap (turnMessages db) := by
  induction rounds generalizing after messages with
  | zero => exact absurd hrounds (Nat.not_lt_zero _)
  | succ rounds ih =>
    unfold readPages
    simp only [orderBy_turnsAfter]
    have hpage : IsPage db range.sourceSessionId
        ((turnsAfter db beforeSequence range after).take CONTEXT_TURN_PAGE) :=
      isPage_of_sublist ((take_sublist _ _).trans filter_sublist)
    cases hlast : ((turnsAfter db beforeSequence range after).take CONTEXT_TURN_PAGE).getLast? with
    | none =>
      have hnil := getLast?_eq_none_iff.mp hlast
      have hempty : turnsAfter db beforeSequence range after = [] := by
        rcases take_eq_nil_iff.mp hnil with hzero | hempty
        · exact absurd hzero (by decide)
        · exact hempty
      rw [hempty, flatMap_nil, append_nil]
    | some last =>
      simp only
      rw [hpage.appendTurnPage_eq]
      split
      · next hshort =>
        -- a short page is the last
        rw [length_take] at hshort
        have hall : (turnsAfter db beforeSequence range after).take CONTEXT_TURN_PAGE =
            turnsAfter db beforeSequence range after := take_of_length_le (by omega)
        rw [hall]
      · next hfull =>
        rw [length_take] at hfull
        have hrest := turnsAfter_last hlast
        have hless : (turnsAfter db beforeSequence range (some last.sequence)).length < rounds := by
          rw [hrest, length_drop]
          have hpositive : 0 < CONTEXT_TURN_PAGE := by decide
          omega
        rw [ih _ _ hless, hrest, append_assoc, ← flatMap_append, take_append_drop]

end

/-! ## The ranges from the start on -/

/-- A visible Turn, with the index of its range. -/
abbrev Placed := Nat × TurnRow

/-- The visible Turns of the ranges, numbered from `k` on. -/
def placedTurns (db : Database) (beforeSequence : Option Int) : List TurnRange → Nat → List Placed
  | [], _ => []
  | range :: ranges, k =>
      (visibleTurns db beforeSequence range).map (fun turn => (k, turn)) ++
        placedTurns db beforeSequence ranges (k + 1)

def placeKey (placed : Placed) : Lex (Nat × Int) := toLex (placed.1, placed.2.sequence)

section

variable {db : Database} {beforeSequence : Option Int}

theorem le_of_mem_placedTurns {ranges : List TurnRange} {k : Nat} {placed : Placed}
    (h : placed ∈ placedTurns db beforeSequence ranges k) : k ≤ placed.1 := by
  induction ranges generalizing k with
  | nil => cases h
  | cons range ranges ih =>
    rcases mem_append.mp h with h | h
    · obtain ⟨turn, _, rfl⟩ := mem_map.mp h
      exact le_refl _
    · exact (Nat.le_succ k).trans (ih h)

variable (ranges : List TurnRange) (k : Nat)

theorem placedTurns_ascending :
    Ascending placeKey (placedTurns db beforeSequence ranges k) := by
  induction ranges generalizing k with
  | nil => exact List.Pairwise.nil
  | cons range ranges ih =>
    refine pairwise_append.mpr ⟨?_, ih (k + 1), ?_⟩
    · rw [pairwise_map]
      refine visibleTurns_ascending.imp ?_
      intro a b hlt
      exact Prod.Lex.toLex_lt_toLex.mpr (.inr ⟨rfl, hlt⟩)
    · intro a ha b hb
      obtain ⟨turn, _, rfl⟩ := mem_map.mp ha
      exact Prod.Lex.toLex_lt_toLex.mpr (.inl (le_of_mem_placedTurns hb))

theorem messagesByTurn_eq :
    messagesByTurn db beforeSequence ranges =
      (placedTurns db beforeSequence ranges k).map fun placed => turnMessages db placed.2 := by
  induction ranges generalizing k with
  | nil => rfl
  | cons range ranges ih =>
    unfold messagesByTurn at ih ⊢
    rw [flatMap_cons, ih (k + 1), placedTurns, map_append, map_map]
    rfl

/-- A Turn is at the start or after it. -/
def fromStart (start : Option Candidate) (placed : Placed) : Bool :=
  ∀ candidate ∈ start, candidate.rangeIndex < placed.1 ∨
    candidate.rangeIndex = placed.1 ∧ candidate.turnSequence ≤ placed.2.sequence

theorem readRanges_eq (start : Option Candidate) (ranges : List TurnRange) (k : Nat)
    (messages : List Message) :
    readRanges db beforeSequence start ranges k messages = messages ++
      ((placedTurns db beforeSequence ranges k).filter (fromStart start)).flatMap fun placed =>
        turnMessages db placed.2 := by
  induction ranges generalizing k messages with
  | nil => simp [readRanges, placedTurns]
  | cons range ranges ih =>
    unfold readRanges
    simp only
    rw [ih, placedTurns, filter_append, flatMap_append, ← append_assoc]
    congr 1
    have hlength : ∀ after, (turnsAfter db beforeSequence range after).length <
        db.turns.length + 1 := by
      intro after
      have hle : (turnsAfter db beforeSequence range after).length ≤ db.turns.length := by
        refine (length_filter_le _ _).trans ?_
        unfold visibleTurns
        rw [(orderBy_perm _ _).length_eq]
        exact length_filter_le _ _
      omega
    split
    · next hskipped =>
      obtain ⟨candidate, hstart, hlt⟩ := hskipped
      have hnone : ((visibleTurns db beforeSequence range).map fun turn => (k, turn)).filter
          (fromStart start) = [] := by
        rw [filter_eq_nil_iff]
        intro placed hplaced hfrom
        obtain ⟨turn, _, rfl⟩ := mem_map.mp hplaced
        have := of_decide_eq_true hfrom candidate hstart
        simp only at this
        omega
      rw [hnone, flatMap_nil, append_nil]
    · next hnot =>
      rw [readPages_eq _ _ _ (hlength _)]
      congr 1
      rw [filter_map, flatMap_map]
      have hsame : turnsAfter db beforeSequence range (start.bind fun candidate =>
          if candidate.rangeIndex = k then some (candidate.turnSequence - 1) else none) =
            (visibleTurns db beforeSequence range).filter (fromStart start ∘ fun turn => (k, turn)) := by
        unfold turnsAfter
        apply filter_congr
        intro turn _
        rw [Function.comp_apply, Bool.eq_iff_iff, decide_eq_true_iff]
        unfold fromStart
        rw [decide_eq_true_iff]
        cases start with
        | none => simp
        | some candidate =>
          have hle : candidate.rangeIndex ≤ k := by
            by_contra hlt
            exact hnot ⟨candidate, rfl, not_le.mp hlt⟩
          by_cases hindex : candidate.rangeIndex = k
          · simp only [Option.bind_some, hindex, Option.mem_def, Option.some.injEq, forall_eq',
              if_true, lt_irrefl, true_and, false_or]
            omega
          · have hlt : candidate.rangeIndex < k := lt_of_le_of_ne hle hindex
            simp [hindex, hlt]
      rw [hsame]

end

end Cohub.Context
