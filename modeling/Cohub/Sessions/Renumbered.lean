import Cohub.Sessions.Branches

/-! # Compactions under forks

    The renumbering adds one to the sequence numbers from the compact Turn on.
    A range that ends before it has its Turns as before, and so does the own
    range of the session: those are the ranges there are, for a compaction that
    spares the forks.  `shows_of_spares` puts the operations together.

    `compactedHistory` is the run for a compaction that does not: the second
    Turn leaves the range of the fork that was anchored at it. -/

namespace Cohub.Sessions

open Table Relation List
open Cohub.Context (TurnStatus TurnIntent TurnRange)

/-! ## The renumbering -/

/-- A Turn after an insertion. -/
def shifted (sessionId : String) (compactSequence : Int) (turn : Turn) : Turn :=
  if turn.sessionId = sessionId ∧ compactSequence ≤ turn.sequence then
    { turn with sequence := turn.sequence + 1 }
  else turn

section

variable {sessionId : String} {compactSequence : Int} {turn : Turn}

@[simp] theorem shifted_id : (shifted sessionId compactSequence turn).id = turn.id := by
  unfold shifted
  split <;> rfl

@[simp] theorem shifted_sessionId :
    (shifted sessionId compactSequence turn).sessionId = turn.sessionId := by
  unfold shifted
  split <;> rfl

@[simp] theorem shifted_intent : (shifted sessionId compactSequence turn).intent = turn.intent := by
  unfold shifted
  split <;> rfl

theorem shifted_of_later (hsession : turn.sessionId = sessionId)
    (h : compactSequence ≤ turn.sequence) :
    (shifted sessionId compactSequence turn).sequence = turn.sequence + 1 := by
  unfold shifted
  rw [if_pos ⟨hsession, h⟩]

theorem shifted_of_earlier (h : turn.sequence < compactSequence) :
    shifted sessionId compactSequence turn = turn :=
  if_neg fun hboth => by omega

theorem shifted_of_ne (h : turn.sessionId ≠ sessionId) :
    shifted sessionId compactSequence turn = turn :=
  if_neg fun hboth => h hboth.1

theorem le_shifted : turn.sequence ≤ (shifted sessionId compactSequence turn).sequence := by
  unfold shifted
  split
  · exact Int.le_of_lt (Int.lt_succ _)
  · exact le_refl _

theorem shifted_lt {other : Turn} (hsession : turn.sessionId = other.sessionId)
    (h : turn.sequence < other.sequence) :
    (shifted sessionId compactSequence turn).sequence <
      (shifted sessionId compactSequence other).sequence := by
  unfold shifted
  rw [hsession]
  by_cases hin : other.sessionId = sessionId
  · by_cases hlater : compactSequence ≤ turn.sequence
    · rw [if_pos ⟨hin, hlater⟩, if_pos ⟨hin, by omega⟩]
      show turn.sequence + 1 < other.sequence + 1
      omega
    · rw [if_neg fun hboth => hlater hboth.2]
      split
      · show turn.sequence < other.sequence + 1
        omega
      · exact h
  · rw [if_neg fun hboth => hin hboth.1, if_neg fun hboth => hin hboth.1]
    exact h

theorem shifted_ne (hsession : turn.sessionId = sessionId) :
    (shifted sessionId compactSequence turn).sequence ≠ compactSequence := by
  by_cases h : compactSequence ≤ turn.sequence
  · rw [shifted_of_later hsession h]
    omega
  · rw [shifted_of_earlier (by omega)]
    omega

theorem renumber_eq (turns : List Turn) :
    renumber sessionId compactSequence turns = turns.map (shifted sessionId compactSequence) := by
  unfold renumber moveSequences
  rw [List.map_map]
  refine map_congr_left fun turn _ => ?_
  rw [Function.comp_apply]
  unfold shifted
  by_cases hlater : turn.sessionId = sessionId ∧ compactSequence ≤ turn.sequence
  · have hreach : turn.sessionId = sessionId ∧
        compactSequence + 1000000 ≤ turn.sequence + 1000000 := ⟨hlater.1, by omega⟩
    have hback : turn.sequence + 1000000 + -999999 = turn.sequence + 1 := by omega
    simp only [if_pos hlater, if_pos hreach, hback]
  · have hnot : ¬ (turn.sessionId = sessionId ∧ compactSequence + 1000000 ≤ turn.sequence) :=
      fun hboth => hlater ⟨hboth.1, by omega⟩
    simp only [if_neg hlater, if_neg hnot]

end

def compactRow (sessionId id : String) (compactSequence : Int) : Turn where
  id := id
  sessionId := sessionId
  sequence := compactSequence
  status := .completed
  intent := .compact

theorem persistCompaction_turns (s : State) (sessionId id : String) (compactSequence : Int) :
    (s.persistCompaction sessionId id compactSequence).turns =
      s.turns.map (shifted sessionId compactSequence) ++
        [compactRow sessionId id compactSequence] := by
  show renumber sessionId compactSequence s.turns ++ _ = _
  rw [renumber_eq]
  rfl

/-! ## Ranges that stay -/

section

variable {turns : List Turn} {segment : TurnRange} {sessionId id : String} {compactSequence : Int}

/-- A range that the insertion does not reach. -/
def Unreached (segment : TurnRange) (sessionId : String) (compactSequence : Int) : Prop :=
  segment.sourceSessionId = sessionId → ∃ last, segment.toSequence = some last ∧
    last < compactSequence

theorem inSegment_shifted_of_unreached (h : Unreached segment sessionId compactSequence)
    (turn : Turn) :
    (inSegment segment (shifted sessionId compactSequence turn) = true ↔
      inSegment segment turn = true) ∧
      (inSegment segment turn = true → shifted sessionId compactSequence turn = turn) := by
  by_cases hearlier : turn.sequence < compactSequence ∨ turn.sessionId ≠ sessionId
  · have hsame : shifted sessionId compactSequence turn = turn := by
      rcases hearlier with hearlier | hne
      · exact shifted_of_earlier hearlier
      · exact shifted_of_ne hne
    rw [hsame]
    exact ⟨Iff.rfl, fun _ => rfl⟩
  · rw [not_or, not_not, not_lt] at hearlier
    -- neither the Turn nor what it becomes is in the range
    have hnot : ∀ other : Turn, other.sessionId = turn.sessionId →
        turn.sequence ≤ other.sequence → inSegment segment other ≠ true := by
      intro other hsession hle hin
      obtain ⟨hsource, _, hend⟩ := inSegment_iff.mp hin
      obtain ⟨last, hlast, hlt⟩ := h (hsource.symm.trans (hsession.trans hearlier.2))
      have := hend last hlast
      omega
    have hturn := hnot turn rfl (le_refl _)
    exact ⟨iff_of_false (hnot _ shifted_sessionId le_shifted) hturn, fun hin => absurd hin hturn⟩

theorem segmentTurns_of_unreached (h : Unreached segment sessionId compactSequence) :
    segmentTurns (turns.map (shifted sessionId compactSequence) ++
        [compactRow sessionId id compactSequence]) segment =
      segmentTurns turns segment := by
  have hrow : inSegment segment (compactRow sessionId id compactSequence) = false := by
    rw [← Bool.not_eq_true]
    intro hin
    obtain ⟨hsource, _, hend⟩ := inSegment_iff.mp hin
    obtain ⟨last, hlast, hlt⟩ := h hsource.symm
    have hle : compactSequence ≤ last := hend last hlast
    omega
  rw [segmentTurns_append_of_not hrow]
  have hin : turns.filter (inSegment segment ∘ shifted sessionId compactSequence) =
      turns.filter (inSegment segment) :=
    filter_congr fun turn _ =>
      Bool.eq_iff_iff.mpr (inSegment_shifted_of_unreached h turn).1
  have hsame : (turns.filter (inSegment segment)).map (shifted sessionId compactSequence) =
      turns.filter (inSegment segment) := by
    conv_rhs => rw [← map_id (turns.filter (inSegment segment))]
    refine map_congr_left fun turn hturn => ?_
    exact (inSegment_shifted_of_unreached h turn).2 (mem_filter.mp hturn).2
  unfold segmentTurns
  rw [filter_map, hin, hsame]

theorem distinct_compacted
    (h : Distinct (fun turn : Turn => (turn.sessionId, turn.sequence)) turns) :
    Distinct (fun turn : Turn => (turn.sessionId, turn.sequence))
      (turns.map (shifted sessionId compactSequence) ++
        [compactRow sessionId id compactSequence]) := by
  apply Distinct.concat
  · refine pairwise_map.mpr (List.Pairwise.imp ?_ h)
    intro a b hne heq
    have hfst : (shifted sessionId compactSequence a).sessionId =
        (shifted sessionId compactSequence b).sessionId := congrArg Prod.fst heq
    have hsession : a.sessionId = b.sessionId := by
      rwa [shifted_sessionId, shifted_sessionId] at hfst
    have hsequence : (shifted sessionId compactSequence a).sequence =
        (shifted sessionId compactSequence b).sequence := congrArg Prod.snd heq
    rcases lt_trichotomy a.sequence b.sequence with hlt | hsame | hlt
    · exact (shifted_lt hsession hlt).ne hsequence
    · exact hne (Prod.ext hsession hsame)
    · exact (shifted_lt hsession.symm hlt).ne hsequence.symm
  · intro other hother heq
    obtain ⟨turn, _, rfl⟩ := mem_map.mp hother
    have hfst : (shifted sessionId compactSequence turn).sessionId = sessionId :=
      congrArg Prod.fst heq
    have hsession : turn.sessionId = sessionId := by rwa [shifted_sessionId] at hfst
    exact shifted_ne hsession (congrArg Prod.snd heq)

theorem ordinaryIds_ownSegment {first : Int}
    (h : Distinct (fun turn : Turn => (turn.sessionId, turn.sequence)) turns)
    (hown : ∀ turn ∈ turns, turn.sessionId = sessionId → first ≤ turn.sequence) :
    ordinaryIds (segmentTurns (turns.map (shifted sessionId compactSequence) ++
        [compactRow sessionId id compactSequence]) (ownSegment sessionId first)) =
      ordinaryIds (segmentTurns turns (ownSegment sessionId first)) := by
  set own := ownSegment sessionId first with hdef
  -- without the compact Turn, the shifted Turns of the range
  have hin : ∀ turn ∈ turns,
      inSegment own (shifted sessionId compactSequence turn) = inSegment own turn := by
    intro turn hturn
    rw [Bool.eq_iff_iff, inSegment_iff, inSegment_iff, shifted_sessionId]
    constructor
    · rintro ⟨hsource, _, _⟩
      exact ⟨hsource, hown turn hturn hsource, nofun⟩
    · rintro ⟨hsource, hstart, _⟩
      exact ⟨hsource, hstart.trans le_shifted, nofun⟩
  have hcompact : isOrdinary (compactRow sessionId id compactSequence) = false := rfl
  have hfilter : ((turns.map (shifted sessionId compactSequence) ++
      [compactRow sessionId id compactSequence]).filter (inSegment own)).filter isOrdinary =
      ((turns.filter (inSegment own)).filter isOrdinary).map
        (shifted sessionId compactSequence) := by
    have hordinary : ∀ turn, isOrdinary (shifted sessionId compactSequence turn) =
        isOrdinary turn := by
      intro turn
      unfold isOrdinary
      rw [shifted_intent]
    rw [filter_filter, filter_append,
      filter_cons_of_neg (by rw [hcompact, Bool.false_and]; nofun), filter_nil,
      append_nil, filter_map, filter_filter]
    congr 1
    refine filter_congr fun turn hturn => ?_
    show (isOrdinary (shifted sessionId compactSequence turn) &&
      inSegment own (shifted sessionId compactSequence turn)) = _
    rw [hordinary, hin turn hturn]
  have hascending : Ascending Turn.sequence ((segmentTurns turns own).filter isOrdinary) :=
    (segmentTurns_ascending h).filter _
  have hshifted : Ascending Turn.sequence (((segmentTurns turns own).filter isOrdinary).map
      (shifted sessionId compactSequence)) := by
    refine pairwise_map.mpr (List.Pairwise.imp_of_mem ?_ hascending)
    intro a b ha hb hlt
    have hsource : ∀ turn ∈ (segmentTurns turns own).filter isOrdinary,
        turn.sessionId = sessionId := fun turn hturn =>
      (inSegment_iff.mp (mem_segmentTurns.mp (mem_filter.mp hturn).1).2).1
    exact shifted_lt ((hsource a ha).trans (hsource b hb).symm) hlt
  have hboth : (segmentTurns (turns.map (shifted sessionId compactSequence) ++
      [compactRow sessionId id compactSequence]) own).filter isOrdinary =
      ((segmentTurns turns own).filter isOrdinary).map (shifted sessionId compactSequence) := by
    unfold segmentTurns
    rw [← orderBy_filter ((distinct_inSegment (distinct_compacted h))), hfilter]
    apply orderBy_eq _ hshifted
    exact ((orderBy_perm _ _).filter isOrdinary).symm.map _
  unfold ordinaryIds
  rw [hboth, List.map_map]
  exact map_congr_left fun turn _ => shifted_id

end

/-! ## A compaction that spares the forks -/

section

variable {s : State} {sessionId id : String} {compactSequence : Int}

theorem Consistent.persistCompaction (h : Consistent s) (hsession : sessionId ∈ s.sessions)
    (hnew : ∀ turn ∈ s.turns, turn.id ≠ id) (hspares : s.SparesForks sessionId compactSequence) :
    Consistent (s.persistCompaction sessionId id compactSequence) := by
  refine ⟨?_, ?_, ?_, h.stored, ?_⟩
  · rw [persistCompaction_turns]
    apply Distinct.concat
    · exact h.ids.map fun _ _ => shifted_id
    · intro other hother
      obtain ⟨turn, hturn, rfl⟩ := mem_map.mp hother
      rw [shifted_id]
      exact hnew turn hturn
  · rw [persistCompaction_turns]
    exact distinct_compacted h.sequences
  · intro turn hturn
    rw [persistCompaction_turns] at hturn
    rcases mem_append.mp hturn with hturn | hturn
    · obtain ⟨before, hbefore, rfl⟩ := mem_map.mp hturn
      rw [shifted_sessionId]
      exact h.sessions before hbefore
    · rw [mem_singleton.mp hturn]
      exact hsession
  · intro other hother
    obtain ⟨inherited, first, hlayout⟩ := h.layouts other hother
    refine ⟨inherited, first, hlayout.grow rfl (fun _ hmem => hmem) ?_ ?_⟩
    · intro turn hturn
      refine ⟨shifted sessionId compactSequence turn, ?_, shifted_sessionId, le_shifted⟩
      rw [persistCompaction_turns]
      exact mem_append_left _ (mem_map_of_mem hturn)
    · intro turn hturn howner
      rw [persistCompaction_turns] at hturn
      rcases mem_append.mp hturn with hturn | hturn
      · obtain ⟨before, hbefore, rfl⟩ := mem_map.mp hturn
        rw [shifted_sessionId] at howner
        exact (hlayout.own before hbefore howner).trans le_shifted
      · -- the compact Turn is not before the own range
        rw [mem_singleton.mp hturn] at howner ⊢
        obtain rfl : sessionId = other := howner
        apply hspares.2 (ownSegment sessionId first) _ rfl
        rw [hlayout.split]
        exact mem_append_right _ (mem_singleton_self _)

theorem World.Kept.compaction {w : World} (h : w.Kept) (hsession : sessionId ∈ w.state.sessions)
    (hnew : ∀ turn ∈ w.state.turns, turn.id ≠ id)
    (hspares : w.state.SparesForks sessionId compactSequence) :
    World.Kept { w with state := w.state.persistCompaction sessionId id compactSequence } := by
  obtain ⟨s, history⟩ := w
  refine ⟨h.consistent.persistCompaction hsession hnew hspares, ?_⟩
  intro other hother
  refine Eq.trans ?_ (h.shows other hother)
  obtain ⟨inherited, first, hlayout⟩ := h.consistent.layouts other hother
  show ordinaryIds ((s.segmentsOf other).flatMap
      (segmentTurns (s.persistCompaction sessionId id compactSequence).turns)) =
    ordinaryIds ((s.segmentsOf other).flatMap (segmentTurns s.turns))
  have hinherited : ∀ segment ∈ inherited,
      segmentTurns (s.turns.map (shifted sessionId compactSequence) ++
          [compactRow sessionId id compactSequence]) segment =
        segmentTurns s.turns segment := by
    intro segment hsegment
    apply segmentTurns_of_unreached
    intro hsource
    obtain ⟨last, hlast, _⟩ := (hlayout.inherits segment hsegment).closed
    have hmem : segment ∈ s.segmentsOf other := by
      rw [hlayout.split]
      exact mem_append_left _ hsegment
    exact ⟨last, hlast, hspares.1 other hother segment hmem hsource last hlast⟩
  rw [persistCompaction_turns, hlayout.split, flatMap_append, flatMap_append,
    flatMap_singleton, flatMap_singleton, flatMap_congr hinherited,
    ordinaryIds_append, ordinaryIds_append]
  congr 1
  by_cases howner : other = sessionId
  · subst howner
    exact ordinaryIds_ownSegment h.consistent.sequences hlayout.own
  · have hunreached : Unreached (ownSegment other first) sessionId compactSequence :=
      fun hsource => absurd hsource howner
    rw [segmentTurns_of_unreached hunreached]

end

/-! ## Runs -/

theorem World.Kept.empty : World.empty.Kept where
  consistent := {
    ids := List.Pairwise.nil
    sequences := List.Pairwise.nil
    sessions := fun _ hturn => absurd hturn not_mem_nil
    stored := fun _ _ => rfl
    layouts := fun _ hsession => absurd hsession not_mem_nil }
  shows := fun _ hsession => absurd hsession not_mem_nil

theorem World.Kept.step {w w' : World} (h : w.Kept) (hstep : Step State.SparesForks w w') :
    w'.Kept := by
  cases hstep with
  | newSession sessionId rows hnew hrows => exact h.newSession hnew hrows
  | newTurn sessionId id status intent hsession hintent hnew =>
    exact h.newTurn hsession hintent hnew
  | setStatus id status => exact h.setStatus id status
  | fork input s' hfork => exact h.fork hfork
  | compaction sessionId id compactSequence hsession hnew _ hspares =>
    exact h.compaction hsession hnew hspares

theorem World.Kept.run {w : World} (h : ReflTransGen (Step State.SparesForks) World.empty w) :
    w.Kept := by
  induction h with
  | refl => exact World.Kept.empty
  | tail _ hstep ih => exact ih.step hstep

/-- As long as the compactions spare the forks, each session shows the Turns
    that its parent showed up to the anchor and its own since. -/
theorem shows_of_spares {w : World} (h : ReflTransGen (Step State.SparesForks) World.empty w)
    {sessionId : String} (hsession : sessionId ∈ w.state.sessions) : w.Shows sessionId :=
  (World.Kept.run h).visible hsession

/-! ## A parent of two Turns and a fork -/

def createdWorld : World where
  state := { State.empty with
    sessions := ["parent"], segments := setSegments (fun _ => []) "parent" [] }
  history := setHistory (fun _ => []) "parent" []

def World.withTurn (w : World) (id : String) : World where
  state := w.state.addTurn "parent" id .completed .followup
  history := setHistory w.history "parent" (w.history "parent" ++ [id])

def parentWorld : World := (createdWorld.withTurn "first").withTurn "second"

def forkOf (turnId : String) : ForkInput where
  parentSessionId := "parent"
  childSessionId := "fork"
  turnId := turnId
  sequence := none

def forkedWorld (turnId : String) (sequence : Int) : World where
  state := parentWorld.state.insertFork (forkOf turnId) sequence
  history := setHistory parentWorld.history "fork"
    (ordinaryIds (upTo turnId (parentWorld.state.listSessionTurns "parent")))

/-- The parent is compacted before its second Turn. -/
def World.compacted (w : World) : World :=
  { w with state := w.state.persistCompaction "parent" "compact" 2 }

section

variable {Allowed : State → String → Int → Prop}

theorem parentWorld_reached : ReflTransGen (Step Allowed) World.empty parentWorld := by
  have hcreated : Step Allowed World.empty createdWorld :=
    Step.newSession _ "parent" [] not_mem_nil (.inl rfl)
  have hfirst : Step Allowed createdWorld (createdWorld.withTurn "first") :=
    Step.newTurn _ "parent" "first" .completed .followup (mem_singleton_self _) (by decide)
      (by decide)
  have hsecond : Step Allowed (createdWorld.withTurn "first") parentWorld :=
    Step.newTurn _ "parent" "second" .completed .followup (mem_singleton_self _) (by decide)
      (by decide)
  exact ((ReflTransGen.single hcreated).tail hfirst).tail hsecond

variable {turnId : String} {sequence : Int}

theorem forkedWorld_reached (h : parentWorld.state.createSessionFork (forkOf turnId) =
      .ok (parentWorld.state.insertFork (forkOf turnId) sequence)) :
    ReflTransGen (Step Allowed) World.empty (forkedWorld turnId sequence) :=
  parentWorld_reached.tail (Step.fork parentWorld (forkOf turnId) _ h)

theorem World.compacted_reached
    (h : ReflTransGen (Step Allowed) World.empty (forkedWorld turnId sequence))
    (hallowed : Allowed (forkedWorld turnId sequence).state "parent" 2) :
    ReflTransGen (Step Allowed) World.empty (forkedWorld turnId sequence).compacted := by
  refine h.tail (Step.compaction _ "parent" "compact" 2 mem_cons_self ?_ (.inl ?_) hallowed)
  · intro turn hturn
    rcases mem_cons.mp hturn with rfl | hturn
    · decide
    · rw [mem_singleton.mp hturn]
      decide
  · exact ⟨_, mem_cons_of_mem _ mem_cons_self, rfl⟩

end

/-- The fork is at the first Turn, the compact Turn before the second. -/
theorem shows_of_spares_compacted : (forkedWorld "first" 1).compacted.Shows "fork" := by
  have hspares : (forkedWorld "first" 1).state.SparesForks "parent" 2 := by
    unfold State.SparesForks
    decide
  exact shows_of_spares (World.compacted_reached (forkedWorld_reached rfl) hspares) (by decide)

/-- The fork is at the second Turn: it loses it, and shows the first alone. -/
theorem compaction_drops_anchor :
    ¬ ∀ w, ReflTransGen (Step fun _ _ _ => True) World.empty w →
      ∀ sessionId ∈ w.state.sessions, w.Shows sessionId := by
  intro h
  have hshows := h _ (World.compacted_reached (forkedWorld_reached rfl) trivial) "fork"
    (show "fork" ∈ (forkedWorld "second" 2).state.sessions by decide)
  have hturns := hshows.turns
  revert hturns
  decide

end Cohub.Sessions
