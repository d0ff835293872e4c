import Mathlib.Logic.Relation
import Cohub.Sessions.Forks

/-! # Forks keep their history

    `Consistent` is the invariant: a session's segments are closed ranges of
    other sessions, one after another, and last its own open range, where all
    its Turns are.  From it the visible Turns are in order, and each operation
    leaves what other sessions show.

    A compaction renumbers the Turns of a session and leaves the ranges of the
    sessions that inherit from it.  They stay right if it inserts after them. -/

namespace Cohub.Sessions

open Table Relation List
open Cohub.Context (TurnStatus TurnIntent TurnRange)

/-! ## Segments and the Turns in them -/

variable {segment : TurnRange}

theorem inSegment_iff {turn : Turn} :
    inSegment segment turn = true ↔ turn.sessionId = segment.sourceSessionId ∧
      segment.fromSequence ≤ turn.sequence ∧ ∀ last ∈ segment.toSequence, turn.sequence ≤ last :=
  decide_eq_true_iff

section

variable {turns : List Turn} {segment : TurnRange} {turn : Turn}

theorem mem_segmentTurns :
    turn ∈ segmentTurns turns segment ↔ turn ∈ turns ∧ inSegment segment turn = true := by
  unfold segmentTurns
  rw [mem_orderBy, mem_filter]

section

variable (h : Distinct (fun turn : Turn => (turn.sessionId, turn.sequence)) turns)
include h

theorem distinct_inSegment :
    Distinct Turn.sequence (turns.filter (inSegment segment)) := by
  refine List.Pairwise.imp_of_mem ?_ (h.filter (inSegment segment))
  intro a b ha hb hne heq
  apply hne
  show (a.sessionId, a.sequence) = (b.sessionId, b.sequence)
  rw [(inSegment_iff.mp (mem_filter.mp ha).2).1, (inSegment_iff.mp (mem_filter.mp hb).2).1,
    heq]

theorem segmentTurns_ascending :
    Ascending Turn.sequence (segmentTurns turns segment) :=
  orderBy_ascending (distinct_inSegment h)

theorem segmentTurns_map {f : Turn → Turn} (hsession : ∀ turn, (f turn).sessionId = turn.sessionId)
    (hsequence : ∀ turn, (f turn).sequence = turn.sequence) :
    segmentTurns (turns.map f) segment = (segmentTurns turns segment).map f := by
  have hsame : ∀ turn, inSegment segment (f turn) = inSegment segment turn := by
    intro turn
    unfold inSegment
    rw [hsession, hsequence]
  apply orderBy_eq
  · rw [filter_map]
    have hcongr : turns.filter (inSegment segment ∘ f) = turns.filter (inSegment segment) :=
      filter_congr fun turn _ => hsame turn
    rw [hcongr]
    exact (orderBy_perm _ _).symm.map f
  · unfold Ascending
    rw [pairwise_map]
    refine List.Pairwise.imp ?_ (segmentTurns_ascending h)
    intro a b hlt
    rw [hsequence, hsequence]
    exact hlt

end

theorem segmentTurns_append_of_not (h : inSegment segment turn = false) :
    segmentTurns (turns ++ [turn]) segment = segmentTurns turns segment := by
  unfold segmentTurns
  rw [filter_append, filter_cons_of_neg (by rw [h]; nofun), filter_nil,
    append_nil]

theorem segmentTurns_append_last
    (h : Distinct (fun turn : Turn => (turn.sessionId, turn.sequence)) turns)
    (hin : inSegment segment turn = true)
    (hlast : ∀ other ∈ turns, inSegment segment other = true → other.sequence < turn.sequence) :
    segmentTurns (turns ++ [turn]) segment = segmentTurns turns segment ++ [turn] := by
  apply orderBy_eq
  · rw [filter_append, filter_cons_of_pos hin, filter_nil]
    exact (orderBy_perm _ _).symm.append_right _
  · refine pairwise_append.mpr
      ⟨segmentTurns_ascending h, pairwise_singleton _ _, ?_⟩
    intro other hother last hlast'
    rw [mem_singleton.mp hlast']
    exact hlast other (mem_segmentTurns.mp hother).1 (mem_segmentTurns.mp hother).2

end

/-! ## The invariant -/

/-- The own range of a session. -/
def ownSegment (sessionId : String) (first : Int) : TurnRange where
  sourceSessionId := sessionId
  fromSequence := first
  toSequence := none

/-- A range of another session, that ends where that session has Turns. -/
structure Inherits (s : State) (sessionId : String) (segment : TurnRange) : Prop where
  other  : segment.sourceSessionId ≠ sessionId
  source : segment.sourceSessionId ∈ s.sessions
  closed : ∃ last, segment.toSequence = some last ∧ segment.fromSequence ≤ last ∧
    ∃ turn ∈ s.turns, turn.sessionId = segment.sourceSessionId ∧ last ≤ turn.sequence

/-- One range ends before the other starts. -/
def Before (a b : TurnRange) : Prop := ∃ last, a.toSequence = some last ∧ last < b.fromSequence

/-- The segments of a session. -/
structure Layout (s : State) (sessionId : String) (inherited : List TurnRange) (first : Int) :
    Prop where
  split    : s.segmentsOf sessionId = inherited ++ [ownSegment sessionId first]
  inherits : ∀ segment ∈ inherited, Inherits s sessionId segment
  ordered  : (s.segmentsOf sessionId).Pairwise Before
  positive : 1 ≤ first
  own      : ∀ turn ∈ s.turns, turn.sessionId = sessionId → first ≤ turn.sequence

structure Consistent (s : State) : Prop where
  ids       : Distinct Turn.id s.turns
  sequences : Distinct (fun turn : Turn => (turn.sessionId, turn.sequence)) s.turns
  sessions  : ∀ turn ∈ s.turns, turn.sessionId ∈ s.sessions
  stored    : ∀ sessionId, sessionId ∉ s.sessions → s.segments sessionId = []
  layouts   : ∀ sessionId ∈ s.sessions, ∃ inherited first, Layout s sessionId inherited first

section

variable {s : State} {sessionId : String} {inherited : List TurnRange} {first : Int}

theorem Layout.mem (h : Layout s sessionId inherited first) {segment : TurnRange}
    (hsegment : segment ∈ s.segmentsOf sessionId) :
    Inherits s sessionId segment ∨ segment = ownSegment sessionId first := by
  rw [h.split] at hsegment
  rcases mem_append.mp hsegment with hsegment | hsegment
  · exact .inl (h.inherits segment hsegment)
  · exact .inr (mem_singleton.mp hsegment)

theorem Layout.grow {s' : State} (h : Layout s sessionId inherited first)
    (hsegments : s'.segmentsOf sessionId = s.segmentsOf sessionId)
    (hsessions : ∀ other ∈ s.sessions, other ∈ s'.sessions)
    (hturns : ∀ turn ∈ s.turns, ∃ turn' ∈ s'.turns,
      turn'.sessionId = turn.sessionId ∧ turn.sequence ≤ turn'.sequence)
    (hown : ∀ turn ∈ s'.turns, turn.sessionId = sessionId → first ≤ turn.sequence) :
    Layout s' sessionId inherited first where
  split := hsegments.trans h.split
  inherits := by
    intro segment hsegment
    obtain ⟨hother, hsource, last, hlast, hfrom, turn, hturn, hsession, hle⟩ :=
      h.inherits segment hsegment
    obtain ⟨turn', hturn', hsame, hgrown⟩ := hturns turn hturn
    exact ⟨hother, hsessions _ hsource, last, hlast, hfrom, turn', hturn', hsame.trans hsession,
      hle.trans hgrown⟩
  ordered := hsegments ▸ h.ordered
  positive := h.positive
  own := hown

theorem Consistent.listSessionTurns_ascending (h : Consistent s)
    (hlayout : Layout s sessionId inherited first) :
    Ascending Turn.sequence (s.listSessionTurns sessionId) := by
  unfold State.listSessionTurns Ascending
  rw [pairwise_flatMap]
  refine ⟨fun segment _ => segmentTurns_ascending h.sequences, ?_⟩
  refine List.Pairwise.imp ?_ hlayout.ordered
  rintro a b ⟨last, hlast, hbefore⟩ x hx y hy
  have hxle := (inSegment_iff.mp (mem_segmentTurns.mp hx).2).2.2 last hlast
  have hyge := (inSegment_iff.mp (mem_segmentTurns.mp hy).2).2.1
  omega

end

/-- The tables are consistent and each session shows what it is to show. -/
structure World.Kept (w : World) : Prop where
  consistent : Consistent w.state
  shows      : ∀ sessionId ∈ w.state.sessions,
    ordinaryIds (w.state.listSessionTurns sessionId) = w.history sessionId

variable {w : World} {sessionId : String} {rows : List TurnRange} {s : State}

theorem World.Kept.visible (h : w.Kept)
    (hsession : sessionId ∈ w.state.sessions) : w.Shows sessionId := by
  obtain ⟨_, _, hlayout⟩ := h.consistent.layouts sessionId hsession
  exact ⟨h.shows sessionId hsession, h.consistent.listSessionTurns_ascending hlayout⟩

/-! ## New sessions -/

variable {turns : List Turn} {segments : String → List TurnRange}

theorem segmentTurns_eq_nil (h : ∀ turn ∈ turns, turn.sessionId ≠ segment.sourceSessionId) :
    segmentTurns turns segment = [] := by
  rw [eq_nil_iff_forall_not_mem]
  intro turn hturn
  obtain ⟨hmem, hin⟩ := mem_segmentTurns.mp hturn
  exact h turn hmem (inSegment_iff.mp hin).1

theorem setSegments_self : setSegments segments sessionId rows sessionId = rows :=
  if_pos rfl

theorem setSegments_of_ne {other : String} (h : other ≠ sessionId) :
    setSegments segments sessionId rows other = segments other :=
  if_neg h

theorem segmentsOf_congr {s' : State} (h : s'.segments sessionId = s.segments sessionId) :
    s'.segmentsOf sessionId = s.segmentsOf sessionId := by
  unfold State.segmentsOf
  rw [h]

theorem World.Kept.newSession (h : w.Kept)
    (hnew : sessionId ∉ w.state.sessions) (hrows : rows = [] ∨ rows = [wholeSession sessionId]) :
    World.Kept {
      state := { w.state with
        sessions := w.state.sessions ++ [sessionId]
        segments := setSegments w.state.segments sessionId rows }
      history := setHistory w.history sessionId [] } := by
  obtain ⟨s, history⟩ := w
  set s' : State := { s with
    sessions := s.sessions ++ [sessionId]
    segments := setSegments s.segments sessionId rows } with hs'
  have hne : ∀ other ∈ s.sessions, other ≠ sessionId := fun other hother heq => hnew (heq ▸ hother)
  have hsegments : ∀ other, other ≠ sessionId → s'.segmentsOf other = s.segmentsOf other :=
    fun other hother => segmentsOf_congr (setSegments_of_ne hother)
  have hself : s'.segmentsOf sessionId = [ownSegment sessionId 1] := by
    have hstored : s'.segments sessionId = rows := setSegments_self
    unfold State.segmentsOf
    rw [hstored]
    rcases hrows with rfl | rfl
    · exact if_pos rfl
    · exact if_neg (cons_ne_nil _ _)
  have hnone : ∀ turn ∈ s.turns, turn.sessionId ≠ sessionId :=
    fun turn hturn => hne _ (h.consistent.sessions turn hturn)
  constructor
  · refine ⟨h.consistent.ids, h.consistent.sequences, ?_, ?_, ?_⟩
    · intro turn hturn
      exact mem_append_left _ (h.consistent.sessions turn hturn)
    · intro other hother
      rw [mem_append, not_or, mem_singleton] at hother
      exact (setSegments_of_ne hother.2).trans (h.consistent.stored other hother.1)
    · intro other hother
      rcases mem_append.mp hother with hother | hother
      · obtain ⟨inherited, first, hlayout⟩ := h.consistent.layouts other hother
        exact ⟨inherited, first, hlayout.grow (hsegments other (hne other hother))
          (fun _ hmem => mem_append_left _ hmem)
          (fun turn hturn => ⟨turn, hturn, rfl, le_refl _⟩) hlayout.own⟩
      · rw [mem_singleton.mp hother]
        refine ⟨[], 1, hself, nofun, ?_, le_refl _, ?_⟩
        · rw [hself]
          exact pairwise_singleton _ _
        · intro turn hturn hsession
          exact absurd hsession (hnone turn hturn)
  · intro other hother
    show ordinaryIds ((s'.segmentsOf other).flatMap (segmentTurns s.turns)) =
      setHistory history sessionId [] other
    rcases mem_append.mp hother with hother | hother
    · rw [hsegments other (hne other hother)]
      exact (h.shows other hother).trans (if_neg (hne other hother)).symm
    · rw [mem_singleton.mp hother, hself, flatMap_singleton, segmentTurns_eq_nil hnone]
      exact (if_pos rfl).symm

/-! ## New Turns -/

section

variable {s : State} {sessionId : String} {inherited : List TurnRange} {first : Int} {turn : Turn}

theorem le_maxSequence {turns : List Turn} (h : turn ∈ turns) :
    turn.sequence ≤ maxSequence turns := by
  induction turns with
  | nil => cases h
  | cons head rest ih =>
    unfold maxSequence
    rcases mem_cons.mp h with rfl | h
    · split <;> omega
    · have := ih h
      split <;> omega

theorem mem_turnsOf :
    turn ∈ s.turnsOf sessionId ↔ turn ∈ s.turns ∧ turn.sessionId = sessionId := by
  unfold State.turnsOf
  rw [mem_filter, decide_eq_true_iff]

theorem Layout.localSegment_from (h : Layout s sessionId inherited first) :
    ((s.localSegment sessionId).map TurnRange.fromSequence).getD 1 = first := by
  unfold State.localSegment
  by_cases hstored : s.segments sessionId = []
  · have hsplit := h.split
    unfold State.segmentsOf at hsplit
    rw [if_pos hstored] at hsplit
    have hlast := congrArg getLast? hsplit
    rw [getLast?_concat] at hlast
    injection hlast with hlast
    rw [hstored]
    exact congrArg TurnRange.fromSequence hlast
  · have hsplit := h.split
    unfold State.segmentsOf at hsplit
    rw [if_neg hstored] at hsplit
    have hnone : inherited.filter (fun segment : TurnRange =>
        segment.sourceSessionId = sessionId ∧ segment.toSequence = none) = [] := by
      rw [filter_eq_nil_iff]
      intro segment hsegment hlocal
      exact (h.inherits segment hsegment).other (of_decide_eq_true hlocal).1
    rw [hsplit, filter_append, hnone]
    simp [ownSegment]

theorem Layout.nextTurnSequence (h : Layout s sessionId inherited first) :
    first ≤ s.nextTurnSequence sessionId ∧
      ∀ turn ∈ s.turns, turn.sessionId = sessionId → turn.sequence < s.nextTurnSequence sessionId := by
  unfold State.nextTurnSequence
  split
  · next hmax =>
    refine ⟨?_, ?_⟩
    · cases hturns : s.turnsOf sessionId with
      | nil =>
        rw [hturns] at hmax
        exact absurd rfl hmax
      | cons turn rest =>
        have hmem : turn ∈ s.turnsOf sessionId := hturns ▸ mem_cons_self
        obtain ⟨hturn, hsession⟩ := mem_turnsOf.mp hmem
        have hfirst := h.own turn hturn hsession
        have hle := le_maxSequence hmem
        rw [hturns] at hle
        omega
    · intro turn hturn hsession
      have hle := le_maxSequence (mem_turnsOf.mpr ⟨hturn, hsession⟩)
      omega
  · next hmax =>
    rw [not_not] at hmax
    rw [h.localSegment_from]
    refine ⟨le_refl _, ?_⟩
    intro turn hturn hsession
    -- its sequence number would be positive
    have hle := le_maxSequence (mem_turnsOf.mpr ⟨hturn, hsession⟩)
    have hfirst := h.own turn hturn hsession
    have hpositive := h.positive
    omega

end

/-- The row that `addTurn` writes. -/
def State.newRow (s : State) (sessionId id : String) (status : TurnStatus) (intent : TurnIntent) :
    Turn where
  id := id
  sessionId := sessionId
  sequence := s.nextTurnSequence sessionId
  status := status
  intent := intent

theorem Inherits.not_newRow {owner : String}
    (h : Inherits s owner segment) {inherited : List TurnRange} {first : Int}
    (hlayout : Layout s sessionId inherited first) (id : String) (status : TurnStatus)
    (intent : TurnIntent) : inSegment segment (s.newRow sessionId id status intent) = false := by
  rw [← Bool.not_eq_true]
  intro hin
  obtain ⟨hsource, _, hle⟩ := inSegment_iff.mp hin
  obtain ⟨last, hlast, _, turn, hturn, hsession, hreach⟩ := h.closed
  have hlt := hlayout.nextTurnSequence.2 turn hturn (hsession.trans hsource.symm)
  have hend : s.nextTurnSequence sessionId ≤ last := hle last hlast
  omega

theorem ordinaryIds_append (front back : List Turn) :
    ordinaryIds (front ++ back) = ordinaryIds front ++ ordinaryIds back := by
  unfold ordinaryIds
  rw [filter_append, map_append]

theorem ordinaryIds_map {f : Turn → Turn} (hid : ∀ turn, (f turn).id = turn.id)
    (hintent : ∀ turn, (f turn).intent = turn.intent) :
    ordinaryIds (turns.map f) = ordinaryIds turns := by
  have hsame : ∀ turn, isOrdinary (f turn) = isOrdinary turn := by
    intro turn
    unfold isOrdinary
    rw [hintent]
  have hcongr : turns.filter (isOrdinary ∘ f) = turns.filter isOrdinary :=
    filter_congr fun turn _ => hsame turn
  unfold ordinaryIds
  rw [filter_map, hcongr, List.map_map]
  exact map_congr_left fun turn _ => hid turn

variable {id : String} {status : TurnStatus} {intent : TurnIntent}

theorem Consistent.addTurn (h : Consistent s) (hsession : sessionId ∈ s.sessions)
    (hnew : ∀ turn ∈ s.turns, turn.id ≠ id) :
    Consistent (s.addTurn sessionId id status intent) := by
  obtain ⟨inherited, first, hlayout⟩ := h.layouts sessionId hsession
  obtain ⟨hfirst, hlater⟩ := hlayout.nextTurnSequence
  refine ⟨h.ids.concat hnew, h.sequences.concat ?_, ?_, h.stored, ?_⟩
  · intro other hother heq
    have hlt := hlater other hother (congrArg Prod.fst heq)
    have hsame : other.sequence = s.nextTurnSequence sessionId := congrArg Prod.snd heq
    omega
  · intro turn hturn
    rcases mem_append.mp hturn with hturn | hturn
    · exact h.sessions turn hturn
    · rw [mem_singleton.mp hturn]
      exact hsession
  · intro other hother
    obtain ⟨inherited', first', hlayout'⟩ := h.layouts other hother
    refine ⟨inherited', first', hlayout'.grow rfl (fun _ hmem => hmem)
      (fun turn hturn => ⟨turn, mem_append_left _ hturn, rfl, le_refl _⟩) ?_⟩
    intro turn hturn howner
    rcases mem_append.mp hturn with hturn | hturn
    · exact hlayout'.own turn hturn howner
    · rw [mem_singleton.mp hturn] at howner ⊢
      obtain rfl : sessionId = other := howner
      exact hlayout'.nextTurnSequence.1

theorem World.Kept.newTurn (h : w.Kept) (hsession : sessionId ∈ w.state.sessions)
    (hintent : intent ≠ .compact) (hnew : ∀ turn ∈ w.state.turns, turn.id ≠ id) :
    World.Kept {
      state := w.state.addTurn sessionId id status intent
      history := setHistory w.history sessionId (w.history sessionId ++ [id]) } := by
  obtain ⟨s, history⟩ := w
  refine ⟨h.consistent.addTurn hsession hnew, ?_⟩
  obtain ⟨inherited, first, hlayout⟩ := h.consistent.layouts sessionId hsession
  obtain ⟨hfirst, hlater⟩ := hlayout.nextTurnSequence
  intro other hother
  obtain ⟨inherited', first', hlayout'⟩ := h.consistent.layouts other hother
  -- the segments of the session, each with the new row
  show ordinaryIds ((s.segmentsOf other).flatMap
      (segmentTurns (s.turns ++ [s.newRow sessionId id status intent]))) =
    setHistory history sessionId (history sessionId ++ [id]) other
  have hinherited : ∀ segment ∈ inherited',
      segmentTurns (s.turns ++ [s.newRow sessionId id status intent]) segment =
        segmentTurns s.turns segment :=
    fun segment hsegment => segmentTurns_append_of_not
      ((hlayout'.inherits segment hsegment).not_newRow hlayout id status intent)
  have hshows := h.shows other hother
  unfold State.listSessionTurns at hshows
  rw [hlayout'.split, flatMap_append, flatMap_singleton] at hshows ⊢
  rw [flatMap_congr hinherited]
  by_cases howner : other = sessionId
  · subst howner
    have hsame : first' = first := by
      have := hlayout'.split.symm.trans hlayout.split
      have hlast := congrArg getLast? this
      rw [getLast?_concat, getLast?_concat] at hlast
      injection hlast with hlast
      exact congrArg TurnRange.fromSequence hlast
    rw [hsame] at hshows ⊢
    have hin : inSegment (ownSegment other first) (s.newRow other id status intent) = true :=
      inSegment_iff.mpr ⟨rfl, hfirst, nofun⟩
    rw [segmentTurns_append_last h.consistent.sequences hin, ← append_assoc,
      ordinaryIds_append, hshows]
    · have hordinary : isOrdinary (s.newRow other id status intent) = true :=
        decide_eq_true hintent
      have hids : ordinaryIds [s.newRow other id status intent] = [id] := by
        unfold ordinaryIds
        rw [filter_cons_of_pos hordinary]
        rfl
      rw [hids]
      exact (if_pos rfl).symm
    · intro turn hturn hsegment
      exact hlater turn hturn (inSegment_iff.mp hsegment).1
  · have hnot : inSegment (ownSegment other first') (s.newRow sessionId id status intent) = false := by
      rw [← Bool.not_eq_true]
      intro hin
      exact howner (inSegment_iff.mp hin).1.symm
    rw [segmentTurns_append_of_not hnot, hshows]
    exact (if_neg howner).symm

/-! ## Statuses -/

theorem World.Kept.setStatus (h : w.Kept) (id : String) (status : TurnStatus) :
    World.Kept { w with state := { w.state with
      turns := w.state.turns.map fun turn =>
        if turn.id = id then { turn with status } else turn } } := by
  obtain ⟨s, history⟩ := w
  set f : Turn → Turn := fun turn => if turn.id = id then { turn with status } else turn with hf
  have hid : ∀ turn, (f turn).id = turn.id := fun turn => by dsimp only [f]; split <;> rfl
  have hsession : ∀ turn, (f turn).sessionId = turn.sessionId :=
    fun turn => by dsimp only [f]; split <;> rfl
  have hsequence : ∀ turn, (f turn).sequence = turn.sequence :=
    fun turn => by dsimp only [f]; split <;> rfl
  have hintent : ∀ turn, (f turn).intent = turn.intent :=
    fun turn => by dsimp only [f]; split <;> rfl
  constructor
  · refine ⟨?_, ?_, ?_, h.consistent.stored, ?_⟩
    · exact h.consistent.ids.map fun turn _ => hid turn
    · exact h.consistent.sequences.map fun turn _ => Prod.ext (hsession turn) (hsequence turn)
    · intro turn hturn
      obtain ⟨before, hbefore, rfl⟩ := mem_map.mp hturn
      rw [hsession]
      exact h.consistent.sessions before hbefore
    · intro other hother
      obtain ⟨inherited, first, hlayout⟩ := h.consistent.layouts other hother
      refine ⟨inherited, first, hlayout.grow rfl (fun _ hmem => hmem) ?_ ?_⟩
      · intro turn hturn
        exact ⟨f turn, mem_map_of_mem hturn, hsession turn, (hsequence turn).symm.le⟩
      · intro turn hturn howner
        obtain ⟨before, hbefore, rfl⟩ := mem_map.mp hturn
        rw [hsession] at howner
        rw [hsequence]
        exact hlayout.own before hbefore howner
  · intro other hother
    refine Eq.trans ?_ (h.shows other hother)
    show ordinaryIds ((s.segmentsOf other).flatMap (segmentTurns (s.turns.map f))) =
      ordinaryIds ((s.segmentsOf other).flatMap (segmentTurns s.turns))
    have hmap : ∀ segment ∈ s.segmentsOf other,
        segmentTurns (s.turns.map f) segment = (segmentTurns s.turns segment).map f :=
      fun segment _ => segmentTurns_map h.consistent.sequences hsession hsequence
    rw [flatMap_congr hmap, ← map_flatMap]
    exact ordinaryIds_map hid hintent

end Cohub.Sessions
