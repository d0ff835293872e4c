import Cohub.Gateway.SplitMessage

/-! # What a split keeps

    The pieces of a split message are the message, up to white space where it
    was cut.  Each chunk opens the fence again that the chunk before it left
    open.

    The line that closes a chunk follows the fence that was open before its
    piece, not the one that is open after it.  So a chunk is balanced where its
    piece leaves the fences as it found them (`Closes`). -/

namespace Cohub.Gateway

open Slice List

/-! ## Statements -/

/-- The pieces of a text, with white space between them, and what is left. -/
inductive Cut : List Units → Units → Units → Prop where
  | rest {front rest back : Units} (hfront : ∀ unit ∈ front, isSpace unit = true)
      (hback : ∀ unit ∈ back, isSpace unit = true) : Cut [] rest (front ++ rest ++ back)
  | piece {front piece rest text : Units} {pieces : List Units}
      (hfront : ∀ unit ∈ front, isSpace unit = true) (h : Cut pieces rest text) :
      Cut (piece :: pieces) rest (front ++ piece ++ text)

/-- Each chunk opens the fence that the pieces before it leave open.  The last
    one may be left unclosed. -/
inductive Reopens : Option Units → List PlannedChunk → Prop where
  | nil (openFence : Option Units) : Reopens openFence []
  | cons {openFence : Option Units} {chunk : PlannedChunk} {rest : List PlannedChunk}
      (hreopened : chunk.reopened = reopenPrefix openFence)
      (hclosed : chunk.closed = closeSuffix openFence ∨ rest = [] ∧ chunk.closed = [])
      (h : Reopens (scanFences openFence chunk.rawChunk) rest) : Reopens openFence (chunk :: rest)

/-- The texts without the lines that were added are the value. -/
def Preserves (value : Units) (texts : List Units) : Prop :=
  ∃ chunks : List PlannedChunk,
    texts = chunks.map (fun chunk => chunk.reopened ++ chunk.rawChunk ++ chunk.closed) ∧
      Reopens none chunks ∧ Cut (chunks.map PlannedChunk.rawChunk) [] value

/-- No fence is open at the end. -/
def Balanced (text : Units) : Prop := scanFences none text = none

/-- The line that closes a chunk closes what its piece leaves open. -/
def ClosesFence : Option Units → Option Units → Prop
  | none, after => after = none
  | some marker, after =>
      ∃ fence, after = some fence ∧ marker.head? = fence.head? ∧ fence.length ≤ marker.length

/-- A piece leaves a fence open exactly where one was open before it, and the
    same kind closes it.  What is left after the last round leaves none open. -/
def SplitState.Closes (limit : Int) (s : SplitState) : Prop :=
  if limit < s.remaining.length then
    ClosesFence s.openFence (scanFences s.openFence (s.rawChunk limit))
  else s.remaining = [] ∨ scanFences s.openFence s.remaining = none

/-! ## Pieces -/

variable {rest text : Units} {chunks : List PlannedChunk}
  {pieces : List Units} {front : Units} {p : PlannedChunk → Bool}

theorem Cut.cut (h : Cut pieces rest text) {piece middle rest' back : Units}
    (hrest : rest = front ++ piece ++ (middle ++ rest' ++ back))
    (hfront : ∀ unit ∈ front, isSpace unit = true) (hmiddle : ∀ unit ∈ middle, isSpace unit = true)
    (hback : ∀ unit ∈ back, isSpace unit = true) : Cut (pieces ++ [piece]) rest' text := by
  induction h with
  | @rest front' left back' hfront' hback' =>
    have htext : front' ++ left ++ back' =
        (front' ++ front) ++ piece ++ (middle ++ rest' ++ (back ++ back')) := by
      rw [hrest]
      simp only [append_assoc]
    rw [htext]
    have hspace : ∀ unit ∈ front' ++ front, isSpace unit = true := fun unit hunit =>
      (mem_append.mp hunit).elim (hfront' unit) (hfront unit)
    have hspace' : ∀ unit ∈ back ++ back', isSpace unit = true := fun unit hunit =>
      (mem_append.mp hunit).elim (hback unit) (hback' unit)
    exact .piece hspace (.rest hmiddle hspace')
  | piece hfront' _ ih => exact .piece hfront' (ih hrest)

theorem Cut.space (h : Cut pieces rest text) (hfront : ∀ unit ∈ front, isSpace unit = true) :
    Cut pieces rest (front ++ text) := by
  have hspace : ∀ {front' : Units}, (∀ unit ∈ front', isSpace unit = true) →
      ∀ unit ∈ front ++ front', isSpace unit = true := fun hfront' unit hunit =>
    (mem_append.mp hunit).elim (hfront unit) (hfront' unit)
  cases h with
  | rest hfront' hback' =>
    rw [← append_assoc, ← append_assoc]
    exact .rest (hspace hfront') hback'
  | piece hfront' h =>
    rw [← append_assoc, ← append_assoc]
    exact .piece (hspace hfront') h

theorem Cut.filter (h : Cut (chunks.map PlannedChunk.rawChunk) rest text)
    (hempty : ∀ chunk ∈ chunks, p chunk = false → chunk.rawChunk = []) :
    Cut ((chunks.filter p).map PlannedChunk.rawChunk) rest text := by
  induction chunks generalizing text with
  | nil => exact h
  | cons chunk chunks ih =>
    rw [map_cons] at h
    cases h with
    | piece hfront h =>
      have hrest := ih h fun other hother => hempty other (mem_cons_of_mem _ hother)
      by_cases hp : p chunk = true
      · rw [filter_cons_of_pos hp]
        exact .piece hfront hrest
      · rw [filter_cons_of_neg hp, hempty chunk mem_cons_self (by simpa using hp),
          append_nil]
        exact hrest.space hfront

theorem cut_trim (value : Units) : Cut [] (trim isSpace value) value := by
  obtain ⟨front, back, hvalue, hfront, hback⟩ := exists_trim isSpace value
  have hcut : Cut [] (trim isSpace value) (front ++ trim isSpace value ++ back) :=
    .rest hfront hback
  rwa [← hvalue] at hcut

namespace SplitState

variable {s t : SplitState} {limit : Int} {value : Units}

theorem cut_round (h : Cut (s.chunks.map PlannedChunk.rawChunk) s.remaining value) (limit : Int) :
    Cut ((s.round limit).chunks.map PlannedChunk.rawChunk) (s.round limit).remaining value := by
  obtain ⟨front, back, hpiece, hfront, hback⟩ :=
    exists_trim isSpace (sliceTo s.remaining (s.cut limit))
  obtain ⟨front', back', hleft, hfront', hback'⟩ :=
    exists_trim isSpace (sliceFrom s.remaining (s.cut limit))
  have hrest : s.remaining = front ++ s.rawChunk limit ++
      ((back ++ front') ++ (s.round limit).remaining ++ back') := by
    conv_lhs => rw [← sliceTo_append_sliceFrom s.remaining (s.cut limit), hpiece, hleft]
    simp only [append_assoc]
    rfl
  have hmiddle : ∀ unit ∈ back ++ front', isSpace unit = true := fun unit hunit =>
    (mem_append.mp hunit).elim (hback unit) (hfront' unit)
  have hcut := h.cut hrest hfront hmiddle hback'
  rw [round, map_append]
  exact hcut

theorem cut_loop {value : Units} (h : Cut (s.chunks.map PlannedChunk.rawChunk) s.remaining value)
    {rounds : Nat} (hloop : loop limit rounds s = some t) :
    Cut (t.chunks.map PlannedChunk.rawChunk) t.remaining value := by
  induction rounds generalizing s with
  | zero => cases hloop
  | succ rounds ih =>
    rw [loop] at hloop
    split at hloop
    · exact ih (cut_round h limit) hloop
    · cases hloop
      exact h

theorem cut_planned (h : Cut (s.chunks.map PlannedChunk.rawChunk) s.remaining value) :
    Cut (s.planned.map PlannedChunk.rawChunk) [] value := by
  unfold planned
  split
  · next hnil => rwa [hnil] at h
  · have hnone : ∀ unit ∈ ([] : Units), isSpace unit = true := fun _ hunit => nomatch hunit
    have hrest : s.remaining = [] ++ s.remaining ++ ([] ++ [] ++ []) := by simp
    have hcut := h.cut hrest hnone hnone hnone
    rw [map_append]
    exact hcut

end SplitState

/-! ## Fences from chunk to chunk -/

/-- Closed chunks, with the fence that is open before the first and after the
    last. -/
inductive Closed : Option Units → List PlannedChunk → Option Units → Prop where
  | nil (openFence : Option Units) : Closed openFence [] openFence
  | cons {openFence after : Option Units} {chunk : PlannedChunk} {rest : List PlannedChunk}
      (hreopened : chunk.reopened = reopenPrefix openFence)
      (hclosed : chunk.closed = closeSuffix openFence)
      (h : Closed (scanFences openFence chunk.rawChunk) rest after) :
      Closed openFence (chunk :: rest) after

theorem Closed.concat {openFence after : Option Units} {chunks : List PlannedChunk}
    (h : Closed openFence chunks after) {chunk : PlannedChunk}
    (hreopened : chunk.reopened = reopenPrefix after) (hclosed : chunk.closed = closeSuffix after) :
    Closed openFence (chunks ++ [chunk]) (scanFences after chunk.rawChunk) := by
  induction h with
  | nil => exact .cons hreopened hclosed (.nil _)
  | cons hreopened' hclosed' _ ih => exact .cons hreopened' hclosed' (ih hreopened hclosed)

variable {openFence : Option Units} {after : Option Units}

theorem Closed.reopens (h : Closed openFence chunks after) : Reopens openFence chunks := by
  induction h with
  | nil => exact .nil _
  | cons hreopened hclosed _ ih => exact .cons hreopened (.inl hclosed) ih

theorem Closed.reopens_last (h : Closed openFence chunks after) {last : PlannedChunk}
    (hreopened : last.reopened = reopenPrefix after) (hclosed : last.closed = []) :
    Reopens openFence (chunks ++ [last]) := by
  induction h with
  | nil => exact .cons hreopened (.inr ⟨rfl, hclosed⟩) (.nil _)
  | cons hreopened' hclosed' _ ih => exact .cons hreopened' (.inl hclosed') (ih hreopened)

theorem eq_none_of_reopenPrefix (h : reopenPrefix openFence = []) : openFence = none := by
  cases openFence with
  | none => rfl
  | some fence => exact absurd h (concat_ne_nil _ _)

theorem Reopens.filter (h : Reopens openFence chunks)
    (hempty : ∀ chunk ∈ chunks, p chunk = false → chunk.reopened = [] ∧ chunk.rawChunk = []) :
    Reopens openFence (chunks.filter p) := by
  induction h with
  | nil => exact .nil _
  | @cons openFence chunk rest hreopened hclosed _ ih =>
    have hrest := ih fun other hother => hempty other (mem_cons_of_mem _ hother)
    by_cases hp : p chunk = true
    · rw [filter_cons_of_pos hp]
      refine .cons hreopened (hclosed.imp_right fun hlast => ⟨?_, hlast.2⟩) hrest
      rw [hlast.1]
      rfl
    · obtain ⟨hnil, hraw⟩ := hempty chunk mem_cons_self (by simpa using hp)
      rw [filter_cons_of_neg hp]
      rw [hreopened] at hnil
      rw [hraw, eq_none_of_reopenPrefix hnil] at hrest
      rw [eq_none_of_reopenPrefix hnil]
      exact hrest

namespace SplitState

variable {s t : SplitState} {limit : Int}
  {rounds : Nat} {chunk : PlannedChunk} {marker : Units} {openFence : Option Units}

theorem closed_loop (h : Closed none s.chunks s.openFence)
    (hloop : loop limit rounds s = some t) : Closed none t.chunks t.openFence := by
  induction rounds generalizing s with
  | zero => cases hloop
  | succ rounds ih =>
    rw [loop] at hloop
    split at hloop
    · exact ih (h.concat rfl rfl) hloop
    · cases hloop
      exact h

theorem reopens_planned (h : Closed none s.chunks s.openFence) : Reopens none s.planned := by
  unfold planned
  split
  · exact h.reopens
  · exact h.reopens_last rfl rfl

theorem mem_chunks_of_loop (hloop : loop limit rounds s = some t) (hchunk : chunk ∈ t.chunks) :
    chunk ∈ s.chunks ∨
      ∃ u, LoopReached limit s u ∧ limit < u.remaining.length ∧ chunk = u.chunk limit := by
  induction rounds generalizing s with
  | zero => cases hloop
  | succ rounds ih =>
    rw [loop] at hloop
    split at hloop
    · next hlong =>
      rcases ih hloop with hold | ⟨u, hreached, hround⟩
      · rcases mem_append.mp hold with hbefore | hnew
        · exact .inl hbefore
        · exact .inr ⟨s, .refl s, hlong, mem_singleton.mp hnew⟩
      · exact .inr ⟨u, .round hlong hreached, hround⟩
    · cases hloop
      exact .inl hchunk

theorem mem_planned (hchunks : s.chunks = []) (hloop : loop limit rounds s = some t)
    (hchunk : chunk ∈ t.planned) :
    (∃ u, LoopReached limit s u ∧ limit < u.remaining.length ∧ chunk = u.chunk limit) ∨
      t.remaining ≠ [] ∧ chunk = .mk (reopenPrefix t.openFence) t.remaining [] := by
  have hrounds : chunk ∈ t.chunks → ∃ u, LoopReached limit s u ∧ limit < u.remaining.length ∧
      chunk = u.chunk limit := by
    intro hmem
    refine (mem_chunks_of_loop hloop hmem).resolve_left ?_
    rw [hchunks]
    exact not_mem_nil
  unfold planned at hchunk
  split at hchunk
  · exact .inl (hrounds hchunk)
  · next hne =>
    rcases mem_append.mp hchunk with hold | hnew
    · exact .inl (hrounds hold)
    · exact .inr ⟨hne, mem_singleton.mp hnew⟩

theorem planned_text (h : s.Sound) (hchunks : s.chunks = [])
    (hloop : loop limit rounds s = some t) (hchunk : chunk ∈ t.planned) :
    chunk.text = chunk.reopened ++ chunk.rawChunk ++ chunk.closed := by
  rcases mem_planned hchunks hloop hchunk with ⟨u, hreached, -, rfl⟩ | ⟨hne, rfl⟩
  · exact (h.reached hreached).text_chunk limit
  · have ht := h.reached (loop_reached hloop).1
    rw [last_text ht.openFence ht.remaining hne, append_nil]

/-! ## Balanced chunks -/

theorem fenceMarker_self (h : IsMarker marker) : fenceMarker marker = some marker := by
  have hall : ∀ {unit : Nat}, (∀ other ∈ marker, other = unit) →
      markerOf unit marker = some marker := by
    intro unit hunit
    have htake : marker.takeWhile (· = unit) = marker :=
      takeWhile_eq_self_iff.mpr fun other hother => decide_eq_true (hunit other hother)
    unfold markerOf
    rw [htake]
    exact if_pos h.long
  obtain ⟨first, rest, rfl⟩ := exists_cons_of_ne_nil h.ne_nil
  have hfirst : first = backtick ∨ first = tilde :=
    h.uniform.imp (fun hunit => hunit first mem_cons_self)
      (fun hunit => hunit first mem_cons_self)
  have hspace : first ≠ space := by
    rcases hfirst with rfl | rfl <;> decide
  unfold fenceMarker
  rw [takeWhile_cons_of_neg (by simpa using hspace),
    dropWhile_cons_of_neg (by simpa using hspace)]
  rw [if_neg (by decide)]
  rcases h.uniform with hunit | hunit
  · rw [hall hunit]
    rfl
  · have hnone : markerOf backtick (first :: rest) = none := by
      have htilde : first = tilde := hunit first mem_cons_self
      unfold markerOf
      rw [takeWhile_cons_of_neg (by rw [htilde]; decide)]
      rfl
    rw [hnone, hall hunit]
    rfl

theorem newline_not_mem (h : IsMarker marker) : newline ∉ marker := by
  intro hmem
  have hspace := h.not_space newline hmem
  exact absurd hspace (by decide)

theorem scanFences_append (openFence : Option Units) (text text' : Units) :
    scanFences openFence (text ++ newline :: text') =
      scanFences (scanFences openFence text) text' := by
  unfold scanFences
  rw [splitOn_append_cons_self, foldl_append]

theorem scanFences_marker (openFence : Option Units) (h : IsMarker marker) :
    scanFences openFence marker = updateOpenFence openFence marker := by
  unfold scanFences
  rw [splitOn_eq_singleton (newline_not_mem h)]
  rfl

theorem closesFence_iff (h : IsMarker marker) :
    updateOpenFence openFence marker = none ↔ ClosesFence (some marker) openFence := by
  unfold updateOpenFence ClosesFence
  rw [fenceMarker_self h]
  cases openFence with
  | none => simp
  | some fence => simp

theorem scanFences_reopened (h : MarkedFence openFence) (piece : Units) :
    scanFences none (reopenPrefix openFence ++ piece) = scanFences openFence piece := by
  cases openFence with
  | none => rfl
  | some fence =>
    have hmarker := h fence rfl
    have hopened : updateOpenFence none fence = some fence := by
      rw [updateOpenFence, fenceMarker_self hmarker]
    rw [reopenPrefix, append_assoc, singleton_append, scanFences_append,
      scanFences_marker none hmarker, hopened]

theorem balanced_chunk_iff (h : MarkedFence openFence) (piece : Units) :
    Balanced (reopenPrefix openFence ++ piece ++ closeSuffix openFence) ↔
      ClosesFence openFence (scanFences openFence piece) := by
  cases openFence with
  | none =>
    rw [reopenPrefix, closeSuffix, nil_append, append_nil]
    rfl
  | some fence =>
    have hmarker := h fence rfl
    rw [closeSuffix, Balanced, scanFences_append, scanFences_reopened h,
      scanFences_marker _ hmarker]
    exact closesFence_iff hmarker

theorem balanced_planned_iff (h : s.Sound) (hchunks : s.chunks = [])
    (hloop : loop limit rounds s = some t) :
    (∀ chunk ∈ t.planned, Balanced chunk.text) ↔ ∀ u, LoopReached limit s u → u.Closes limit := by
  obtain ⟨hreached, hend⟩ := loop_reached hloop
  have ht := h.reached hreached
  constructor
  · intro hall u hu
    have hsound := h.reached hu
    obtain ⟨rest, hrest⟩ := loop_of_reached hu hloop
    unfold Closes
    split
    · next hlong =>
      have hmem : u.chunk limit ∈ t.planned := by
        unfold planned
        split
        · exact chunk_mem hlong hrest
        · exact mem_append_left _ (chunk_mem hlong hrest)
      have hbalanced := hall _ hmem
      rw [hsound.text_chunk] at hbalanced
      exact (balanced_chunk_iff hsound.openFence _).mp hbalanced
    · next hshort =>
      have hsame : u = t := by
        cases rest with
        | zero => cases hrest
        | succ rest =>
          rw [loop, if_neg hshort] at hrest
          exact Option.some.inj hrest
      subst hsame
      by_cases hnil : u.remaining = []
      · exact .inl hnil
      · have hmem : PlannedChunk.mk (reopenPrefix u.openFence) u.remaining [] ∈ u.planned := by
          rw [planned, if_neg hnil]
          exact mem_concat_self
        have hbalanced := hall _ hmem
        rw [last_text hsound.openFence hsound.remaining hnil, Balanced,
          scanFences_reopened hsound.openFence] at hbalanced
        exact .inr hbalanced
  · intro hcloses chunk hchunk
    rcases mem_planned hchunks hloop hchunk with ⟨u, hu, hlong, rfl⟩ | ⟨hne, rfl⟩
    · have hsound := h.reached hu
      have hround := hcloses u hu
      rw [Closes, if_pos hlong] at hround
      rw [hsound.text_chunk]
      exact (balanced_chunk_iff hsound.openFence _).mpr hround
    · have hlast := hcloses t hreached
      rw [Closes, if_neg hend] at hlast
      rw [last_text ht.openFence ht.remaining hne, Balanced, scanFences_reopened ht.openFence]
      exact hlast.resolve_left hne

theorem closes_of_empty (hremaining : s.remaining = []) (hfence : s.openFence = none)
    (hreached : LoopReached limit s t) : t.Closes limit := by
  induction hreached with
  | refl s =>
    unfold Closes
    split
    · have hraw : s.rawChunk limit = [] := by
        rw [rawChunk, hremaining]
        simp [sliceTo, trim]
      rw [hraw, hfence]
      rfl
    · exact .inl hremaining
  | @round s _ _ _ ih =>
    have hraw : s.rawChunk limit = [] := by
      rw [rawChunk, hremaining]
      simp [sliceTo, trim]
    refine ih ?_ ?_
    · show trim isSpace (sliceFrom s.remaining (s.cut limit)) = []
      rw [hremaining]
      simp [sliceFrom, trim]
    · show scanFences s.openFence (s.rawChunk limit) = none
      rw [hraw, hfence]
      rfl

end SplitState

/-! ## Splits that end -/

variable {value : Units}

theorem preserves_short : Preserves value [trim isSpace value] := by
  refine ⟨[{ reopened := [], rawChunk := trim isSpace value, closed := [] }], ?_, ?_, ?_⟩
  · simp
  · exact .cons rfl (.inl rfl) (.nil _)
  · have hnone : ∀ unit ∈ ([] : Units), isSpace unit = true := fun _ hunit => nomatch hunit
    have hrest : trim isSpace value = [] ++ trim isSpace value ++ ([] ++ [] ++ []) := by simp
    exact (cut_trim value).cut hrest hnone hnone hnone

theorem preserves_planned {limit : Int} {rounds : Nat} {t : SplitState}
    (hloop : SplitState.loop limit rounds (.start (trim isSpace value)) = some t) :
    Preserves value ((t.planned.map PlannedChunk.text).filter (· ≠ [])) := by
  have hstart := SplitState.sound_start value
  have htext : ∀ chunk ∈ t.planned, chunk.text = chunk.reopened ++ chunk.rawChunk ++ chunk.closed :=
    fun chunk hchunk => SplitState.planned_text hstart rfl hloop hchunk
  -- a chunk without text has neither a piece nor added lines
  have hempty : ∀ chunk ∈ t.planned, (chunk.text ≠ [] : Bool) = false →
      chunk.reopened = [] ∧ chunk.rawChunk = [] := by
    intro chunk hchunk hnil
    have hnil' : chunk.text = [] := by simpa using hnil
    rw [htext chunk hchunk] at hnil'
    exact append_eq_nil_iff.mp (append_eq_nil_iff.mp hnil').1
  refine ⟨t.planned.filter fun chunk => chunk.text ≠ [], ?_, ?_, ?_⟩
  · rw [filter_map]
    refine map_congr_left fun chunk hchunk => ?_
    exact htext chunk (mem_filter.mp hchunk).1
  · exact (SplitState.reopens_planned (SplitState.closed_loop (.nil none) hloop)).filter hempty
  · have hcut := @SplitState.cut_loop (.start (trim isSpace value)) t limit value (cut_trim value)
      rounds hloop
    exact (SplitState.cut_planned hcut).filter fun chunk hchunk hnil => (hempty chunk hchunk hnil).2

/-- A fence that is opened in a chunk and closed in the next one. -/
def codeMessage : Units := fencedMessage 3 1890 10 ++ newline :: List.replicate 3 backtick

end Cohub.Gateway
