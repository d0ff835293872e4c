import Cohub.Sessions.Inherited

/-! # What a fork starts with

    A fork copies the segments of its parent up to the anchor: those before the
    segment of the anchor as they are, and that segment ended at the anchor
    (`clipSegments_eq`).  Their Turns are those that the parent shows up to the
    anchor, and the own range of the fork is still empty. -/

namespace Cohub.Sessions

open Table List
open Cohub.Context (TurnStatus TurnIntent TurnRange)

/-! ## Clipped segments -/

/-- A segment ended at an anchor. -/
def endedAt (segment : TurnRange) (anchorSequence : Int) : TurnRange :=
  { segment with toSequence := some anchorSequence }

/-- A range that ends before a number. -/
def EndsBefore (segment : TurnRange) (sequence : Int) : Prop :=
  ∃ last, segment.toSequence = some last ∧ segment.fromSequence ≤ last ∧ last < sequence

theorem clipSegments_eq {front back : List TurnRange} {found : TurnRange} {anchorSequence : Int}
    (hfront : ∀ segment ∈ front, EndsBefore segment anchorSequence)
    (hfrom : found.fromSequence ≤ anchorSequence)
    (hend : ∀ last ∈ found.toSequence, anchorSequence ≤ last) :
    clipSegments (front ++ found :: back) anchorSequence =
      front ++ [endedAt found anchorSequence] := by
  induction front with
  | nil =>
    have hclipped : clippedEnd found anchorSequence = anchorSequence := by
      unfold clippedEnd
      split
      · rfl
      · next last hlast =>
        have hle := hend last hlast
        split
        · omega
        · rfl
    rw [nil_append, nil_append]
    unfold clipSegments
    rw [if_neg (by omega), hclipped, if_pos (le_refl _)]
    rfl
  | cons segment rest ih =>
    obtain ⟨last, hlast, hnonempty, hlt⟩ := hfront segment mem_cons_self
    have hclipped : clippedEnd segment anchorSequence = last := by
      unfold clippedEnd
      rw [hlast]
      exact if_pos (by omega)
    have hsame : { segment with toSequence := some last } = segment := by rw [← hlast]
    rw [cons_append, cons_append]
    unfold clipSegments
    rw [if_neg (by omega), hclipped, if_neg (by omega), hsame,
      ih fun other hother => hfront other (mem_cons_of_mem _ hother)]

/-! ## A list up to a Turn -/

theorem upTo_eq_filter {turns : List Turn} {anchor : Turn} (h : Ascending Turn.sequence turns)
    (hmem : anchor ∈ turns) (honly : ∀ turn ∈ turns, turn.id = anchor.id → turn = anchor) :
    upTo anchor.id turns = turns.filter fun turn => turn.sequence ≤ anchor.sequence := by
  induction turns with
  | nil => cases hmem
  | cons turn rest ih =>
    obtain ⟨hlater, hrest⟩ := pairwise_cons.mp h
    unfold upTo
    by_cases hid : turn.id = anchor.id
    · obtain rfl := honly turn mem_cons_self hid
      rw [if_pos hid, filter_cons_of_pos (by simp), filter_eq_nil_iff.mpr]
      intro other hother hle
      have hlt := hlater other hother
      have := of_decide_eq_true hle
      omega
    · have hin : anchor ∈ rest := by
        rcases mem_cons.mp hmem with heq | hin
        · exact absurd (heq ▸ rfl) hid
        · exact hin
      have hle : turn.sequence ≤ anchor.sequence := (hlater anchor hin).le
      rw [if_neg hid, filter_cons_of_pos (by simp [hle]),
        ih hrest hin fun other hother => honly other (mem_cons_of_mem _ hother)]

/-! ## The Turns of a new fork -/

section

variable {turns : List Turn} {front back : List TurnRange} {found : TurnRange}
  {anchorSequence : Int}

theorem flatMap_clipped (h : Distinct (fun turn : Turn => (turn.sessionId, turn.sequence)) turns)
    (hordered : (front ++ found :: back).Pairwise Before)
    (hfront : ∀ segment ∈ front, EndsBefore segment anchorSequence)
    (hend : ∀ last ∈ found.toSequence, anchorSequence ≤ last) :
    (front ++ [endedAt found anchorSequence]).flatMap (segmentTurns turns) =
      ((front ++ found :: back).flatMap (segmentTurns turns)).filter
        fun turn => turn.sequence ≤ anchorSequence := by
  have hbefore : ∀ segment ∈ front,
      (segmentTurns turns segment).filter (fun turn => turn.sequence ≤ anchorSequence) =
        segmentTurns turns segment := by
    intro segment hsegment
    rw [filter_eq_self]
    intro turn hturn
    obtain ⟨last, hlast, _, hlt⟩ := hfront segment hsegment
    have := (inSegment_iff.mp (mem_segmentTurns.mp hturn).2).2.2 last hlast
    exact decide_eq_true (by omega)
  have hafter : ∀ segment ∈ back,
      (segmentTurns turns segment).filter (fun turn => turn.sequence ≤ anchorSequence) = [] := by
    intro segment hsegment
    rw [filter_eq_nil_iff]
    intro turn hturn hle
    -- the segment of the anchor ends before this one starts
    obtain ⟨last, hlast, hlt⟩ :=
      (pairwise_cons.mp (pairwise_append.mp hordered).2.1).1 segment hsegment
    have hreach := hend last hlast
    have hstart := (inSegment_iff.mp (mem_segmentTurns.mp hturn).2).2.1
    have := of_decide_eq_true hle
    omega
  have hfound : segmentTurns turns (endedAt found anchorSequence) =
      (segmentTurns turns found).filter fun turn => turn.sequence ≤ anchorSequence := by
    unfold segmentTurns
    rw [← orderBy_filter (distinct_inSegment h), filter_filter]
    congr 1
    refine filter_congr fun turn _ => ?_
    rw [Bool.eq_iff_iff, Bool.and_eq_true, inSegment_iff, inSegment_iff, decide_eq_true_iff]
    constructor
    · rintro ⟨hsource, hstart, hlast⟩
      have hle : turn.sequence ≤ anchorSequence := hlast anchorSequence rfl
      exact ⟨hle, hsource, hstart, fun last hmem => hle.trans (hend last hmem)⟩
    · rintro ⟨hle, hsource, hstart, _⟩
      refine ⟨hsource, hstart, ?_⟩
      intro last hlast
      injection hlast with hlast
      exact hlast ▸ hle
  have hnone : back.flatMap (fun segment =>
      (segmentTurns turns segment).filter fun turn => turn.sequence ≤ anchorSequence) = [] :=
    flatMap_eq_nil_iff.mpr hafter
  rw [filter_flatMap, flatMap_append, flatMap_append, flatMap_singleton,
    flatMap_cons, hfound, hnone, append_nil, flatMap_congr hbefore]

end

/-! ## The fork -/

/-- What a new fork rests on: its parent, and the anchor in a segment of it. -/
structure Forkable (s : State) (input : ForkInput) (anchor : Turn) (found : TurnRange) : Prop where
  new     : input.childSessionId ∉ s.sessions
  parent  : input.parentSessionId ∈ s.sessions
  stored  : anchor ∈ s.turns
  id      : anchor.id = input.turnId
  segment : ∃ front back, s.segmentsOf input.parentSessionId = front ++ found :: back
  inside  : inSegment found anchor = true

variable {s' : State} {input : ForkInput}

theorem createSessionFork_cases {s : State} (h : s.createSessionFork input = .ok s') :
    (s' = s ∧ input.childSessionId ∈ s.sessions) ∨
      ∃ anchor found, Forkable s input anchor found ∧ s' = s.insertFork input anchor.sequence := by
  unfold State.createSessionFork at h
  split at h
  · cases h
  · next anchor hanchor =>
    have hid : anchor.id = input.turnId := by
      have := find?_some hanchor
      exact of_decide_eq_true this
    dsimp only at h
    split at h
    · cases h
    split at h
    · cases h
    split at h
    · cases h
    · next hparent =>
      split at h
      · next hchild =>
        split at h
        · injection h with h
          exact .inl ⟨h.symm, hchild⟩
        · cases h
      · next hchild =>
        split at h
        · cases h
        · next hvisible =>
          rw [not_or, not_not] at hvisible
          obtain ⟨hfound, hsequence⟩ := hvisible
          split at h
          · cases h
          · injection h with h
            obtain ⟨found, hfound⟩ := Option.ne_none_iff_exists'.mp hfound
            unfold findSegmentForTurn at hfound
            obtain ⟨hin, front, back, hsplit, _⟩ := find?_eq_some_iff_append.mp hfound
            rw [← hsequence] at hin h
            obtain ⟨hsource, hrange⟩ := of_decide_eq_true hin
            exact .inr ⟨anchor, found, ⟨hchild, not_not.mp hparent,
              mem_of_find?_eq_some hanchor, hid, ⟨front, back, hsplit⟩,
              inSegment_iff.mpr ⟨hsource.symm, hrange⟩⟩, h.symm⟩

section

variable {s : State} {input : ForkInput} {anchor : Turn} {found : TurnRange}
  {front back : List TurnRange}

section

variable (h : Consistent s) (hfork : Forkable s input anchor found)
  (hsplit : s.segmentsOf input.parentSessionId = front ++ found :: back)
include h hfork hsplit

theorem endsBefore_anchor :
    ∀ segment ∈ front, EndsBefore segment anchor.sequence := by
  obtain ⟨inherited, first, hlayout⟩ := h.layouts _ hfork.parent
  have hordered := hlayout.ordered
  rw [hsplit] at hordered
  intro segment hsegment
  obtain ⟨last, hlast, hlt⟩ :=
    (pairwise_append.mp hordered).2.2 segment hsegment found mem_cons_self
  have hstart := (inSegment_iff.mp hfork.inside).2.1
  have hmem : segment ∈ s.segmentsOf input.parentSessionId :=
    hsplit ▸ mem_append_left _ hsegment
  rcases hlayout.mem hmem with hinherits | hown
  · obtain ⟨last', hlast', hnonempty, _⟩ := hinherits.closed
    rw [hlast] at hlast'
    injection hlast' with hlast'
    exact ⟨last, hlast, by omega, by omega⟩
  · rw [hown] at hlast
    cases hlast

theorem Forkable.segments :
    childSegments (s.segmentsOf input.parentSessionId) input.childSessionId anchor.sequence =
      (front ++ [endedAt found anchor.sequence]) ++
        [ownSegment input.childSessionId (anchor.sequence + 1)] := by
  obtain ⟨_, hstart, hend⟩ := inSegment_iff.mp hfork.inside
  unfold childSegments
  rw [hsplit, clipSegments_eq (endsBefore_anchor h hfork hsplit) hstart hend]
  rfl

end

theorem insertFork_segmentsOf (hfork : Forkable s input anchor found) {other : String}
    (hother : other ≠ input.childSessionId) :
    (s.insertFork input anchor.sequence).segmentsOf other = s.segmentsOf other := by
  have hstored : (s.insertFork input anchor.sequence).segments other =
      setSegments s.segments input.parentSessionId (s.segmentsOf input.parentSessionId) other :=
    setSegments_of_ne hother
  by_cases hparent : other = input.parentSessionId
  · subst hparent
    rw [setSegments_self] at hstored
    obtain ⟨front, back, hsplit⟩ := hfork.segment
    have hnonempty : s.segmentsOf input.parentSessionId ≠ [] := by
      rw [hsplit]
      exact append_ne_nil_of_right_ne_nil _ (cons_ne_nil _ _)
    have hrow : (s.insertFork input anchor.sequence).segmentsOf input.parentSessionId =
        (s.insertFork input anchor.sequence).segments input.parentSessionId :=
      if_neg (by rw [hstored]; exact hnonempty)
    rw [hrow, hstored]
  · rw [setSegments_of_ne hparent] at hstored
    exact segmentsOf_congr hstored

section

variable (h : Consistent s) (hfork : Forkable s input anchor found)
include h hfork

theorem insertFork_segmentsOf_child
    (hsplit : s.segmentsOf input.parentSessionId = front ++ found :: back) :
    (s.insertFork input anchor.sequence).segmentsOf input.childSessionId =
      (front ++ [endedAt found anchor.sequence]) ++
        [ownSegment input.childSessionId (anchor.sequence + 1)] := by
  have hstored : (s.insertFork input anchor.sequence).segments input.childSessionId =
      childSegments (s.segmentsOf input.parentSessionId) input.childSessionId anchor.sequence :=
    setSegments_self
  rw [hfork.segments h hsplit] at hstored
  unfold State.segmentsOf
  rw [hstored]
  exact if_neg (append_ne_nil_of_right_ne_nil _ (cons_ne_nil _ _))

theorem Forkable.layout (hsplit : s.segmentsOf input.parentSessionId = front ++ found :: back) :
    Layout (s.insertFork input anchor.sequence) input.childSessionId
      (front ++ [endedAt found anchor.sequence]) (anchor.sequence + 1) := by
  obtain ⟨inherited, first, hlayout⟩ := h.layouts _ hfork.parent
  obtain ⟨hsource, hstart, hend⟩ := inSegment_iff.mp hfork.inside
  have hends := endsBefore_anchor h hfork hsplit
  have hsegments := insertFork_segmentsOf_child h hfork hsplit
  have hold : ∀ other ∈ s.sessions, other ≠ input.childSessionId :=
    fun other hother heq => hfork.new (heq ▸ hother)
  have hgrown : ∀ other ∈ s.sessions, other ∈ (s.insertFork input anchor.sequence).sessions :=
    fun other hother => mem_append_left _ hother
  refine ⟨hsegments, ?_, ?_, ?_, ?_⟩
  · intro segment hsegment
    rcases mem_append.mp hsegment with hsegment | hsegment
    · have hmem : segment ∈ s.segmentsOf input.parentSessionId :=
        hsplit ▸ mem_append_left _ hsegment
      rcases hlayout.mem hmem with hinherits | hown
      · exact ⟨hold _ hinherits.source, hgrown _ hinherits.source, hinherits.closed⟩
      · obtain ⟨last, hlast, _⟩ := hends segment hsegment
        rw [hown] at hlast
        cases hlast
    · -- the anchor itself is the Turn that the last range reaches
      rw [mem_singleton.mp hsegment]
      have hsession := h.sessions anchor hfork.stored
      rw [hsource] at hsession
      exact ⟨hold _ hsession, hgrown _ hsession, anchor.sequence, rfl, hstart, anchor, hfork.stored,
        hsource, le_refl _⟩
  · have hordered := hlayout.ordered
    rw [hsplit] at hordered
    obtain ⟨hfront, _, hacross⟩ := pairwise_append.mp hordered
    rw [hsegments]
    refine pairwise_append.mpr ⟨pairwise_append.mpr
      ⟨hfront, pairwise_singleton _ _, ?_⟩, pairwise_singleton _ _, ?_⟩
    · intro segment hsegment last hlast
      rw [mem_singleton.mp hlast]
      exact hacross segment hsegment found mem_cons_self
    · intro segment hsegment last hlast
      rw [mem_singleton.mp hlast]
      rcases mem_append.mp hsegment with hsegment | hsegment
      · obtain ⟨last, hlast, _, hlt⟩ := hends segment hsegment
        exact ⟨last, hlast, hlt.trans (Int.lt_succ _)⟩
      · rw [mem_singleton.mp hsegment]
        exact ⟨anchor.sequence, rfl, Int.lt_succ _⟩
  · obtain ⟨inherited', first', hlayout'⟩ := h.layouts _ (h.sessions anchor hfork.stored)
    have hfirst := hlayout'.own anchor hfork.stored rfl
    have hpositive := hlayout'.positive
    omega
  · intro turn hturn hsession
    exact absurd hsession (hold _ (h.sessions turn hturn))

theorem Consistent.insertFork :
    Consistent (s.insertFork input anchor.sequence) := by
  obtain ⟨front, back, hsplit⟩ := hfork.segment
  refine ⟨h.ids, h.sequences, ?_, ?_, ?_⟩
  · intro turn hturn
    exact mem_append_left _ (h.sessions turn hturn)
  · intro other hother
    have hnot : other ∉ s.sessions ∧ other ≠ input.childSessionId := by
      have hother : other ∉ s.sessions ++ [input.childSessionId] := hother
      rwa [mem_append, not_or, mem_singleton] at hother
    have hparent : other ≠ input.parentSessionId := fun heq => hnot.1 (heq ▸ hfork.parent)
    exact (setSegments_of_ne hnot.2).trans
      ((setSegments_of_ne hparent).trans (h.stored other hnot.1))
  · intro other hother
    rcases mem_append.mp hother with hother | hother
    · obtain ⟨inherited, first, hlayout⟩ := h.layouts other hother
      have hne : other ≠ input.childSessionId := fun heq => hfork.new (heq ▸ hother)
      exact ⟨inherited, first, hlayout.grow (insertFork_segmentsOf hfork hne)
        (fun _ hmem => mem_append_left _ hmem)
        (fun turn hturn => ⟨turn, hturn, rfl, le_refl _⟩) hlayout.own⟩
    · rw [mem_singleton.mp hother]
      exact ⟨_, _, hfork.layout h hsplit⟩

theorem Forkable.listSessionTurns :
    (s.insertFork input anchor.sequence).listSessionTurns input.childSessionId =
      upTo input.turnId (s.listSessionTurns input.parentSessionId) := by
  obtain ⟨front, back, hsplit⟩ := hfork.segment
  obtain ⟨inherited, first, hlayout⟩ := h.layouts _ hfork.parent
  have hordered := hlayout.ordered
  rw [hsplit] at hordered
  have hempty : segmentTurns s.turns
      (ownSegment input.childSessionId (anchor.sequence + 1)) = [] := by
    apply segmentTurns_eq_nil
    intro turn hturn heq
    have hchild : turn.sessionId = input.childSessionId := heq
    exact hfork.new (hchild ▸ h.sessions turn hturn)
  have hclipped := flatMap_clipped h.sequences hordered (endsBefore_anchor h hfork hsplit)
    (inSegment_iff.mp hfork.inside).2.2
  have hshown : s.listSessionTurns input.parentSessionId =
      (front ++ found :: back).flatMap (segmentTurns s.turns) := by
    unfold State.listSessionTurns
    rw [hsplit]
  have hanchor : anchor ∈ s.listSessionTurns input.parentSessionId := by
    rw [hshown, mem_flatMap]
    exact ⟨found, mem_append_right _ mem_cons_self,
      mem_segmentTurns.mpr ⟨hfork.stored, hfork.inside⟩⟩
  have honly : ∀ turn ∈ s.listSessionTurns input.parentSessionId, turn.id = anchor.id →
      turn = anchor := by
    intro turn hturn hid
    obtain ⟨segment, _, hin⟩ := mem_flatMap.mp hturn
    exact h.ids.eq_of_key (mem_segmentTurns.mp hin).1 hfork.stored hid
  have hchild : (s.insertFork input anchor.sequence).listSessionTurns input.childSessionId =
      ((front ++ [endedAt found anchor.sequence]) ++
        [ownSegment input.childSessionId (anchor.sequence + 1)]).flatMap (segmentTurns s.turns) := by
    unfold State.listSessionTurns
    rw [insertFork_segmentsOf_child h hfork hsplit]
    rfl
  rw [hchild, flatMap_append, flatMap_singleton, hempty, append_nil, hclipped,
    ← hshown, ← hfork.id,
    upTo_eq_filter (h.listSessionTurns_ascending hlayout) hanchor honly]

end

end

theorem World.Kept.fork {w : World} (h : w.Kept)
    (hfork : w.state.createSessionFork input = .ok s') :
    World.Kept {
      state := s'
      history := if input.childSessionId ∈ w.state.sessions then w.history
        else setHistory w.history input.childSessionId
          (ordinaryIds (upTo input.turnId (w.state.listSessionTurns input.parentSessionId))) } := by
  obtain ⟨s, history⟩ := w
  rcases createSessionFork_cases hfork with ⟨rfl, hchild⟩ | ⟨anchor, found, hforkable, rfl⟩
  · rw [if_pos hchild]
    exact h
  · refine ⟨h.consistent.insertFork hforkable, ?_⟩
    rw [if_neg hforkable.new]
    intro other hother
    rcases mem_append.mp hother with hother | hother
    · have hne : other ≠ input.childSessionId := fun heq => hforkable.new (heq ▸ hother)
      show ordinaryIds ((s.insertFork input anchor.sequence).listSessionTurns other) = _
      unfold State.listSessionTurns
      rw [insertFork_segmentsOf hforkable hne]
      exact (h.shows other hother).trans (if_neg hne).symm
    · rw [mem_singleton.mp hother]
      show ordinaryIds ((s.insertFork input anchor.sequence).listSessionTurns input.childSessionId) = _
      rw [hforkable.listSessionTurns h.consistent]
      exact (if_pos rfl).symm

end Cohub.Sessions
