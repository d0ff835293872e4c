import Mathlib.Logic.Relation
import Cohub.Lib.Slice

/-! # Splitting an outgoing message

    A message that is longer than a channel takes is sent in chunks.  Each round
    of the loop cuts a piece off at a space or a line break; a code fence that
    is open is opened again before the piece and closed after it.

    The fence has the length that the message gave it, and takes its place from
    the piece twice.  A round makes progress where the two leave some place
    (`Fits`).  What is left after the last round has the fence before it and is
    not cut any more. -/

namespace Cohub.Gateway

open Slice List

/-! ## Lines and fences -/

/-- UTF-16 code units. -/
abbrev Units := List Nat

def newline : Nat := 10

def space : Nat := 32

def backtick : Nat := 96

def tilde : Nat := 126

/-- White space and line terminators. -/
def isSpace (unit : Nat) : Bool :=
  unit ∈ [9, 10, 11, 12, 13, 32, 0xA0, 0x1680, 0x202F, 0x205F, 0x3000, 0xFEFF, 0x2028, 0x2029]
    || (0x2000 ≤ unit && unit ≤ 0x200A)

/-- Three or more of a unit. -/
def markerOf (unit : Nat) (text : Units) : Option Units :=
  let marker := text.takeWhile (· = unit)
  if 3 ≤ marker.length then some marker else none

/-- The marker of a line that `FENCE_LINE_RE` matches. -/
def fenceMarker (line : Units) : Option Units :=
  let indent := line.takeWhile (· = space)
  let rest := line.dropWhile (· = space)
  if 3 < indent.length then none else (markerOf backtick rest).or (markerOf tilde rest)

def updateOpenFence (openFence : Option Units) (line : Units) : Option Units :=
  match fenceMarker line with
  | none => openFence
  | some marker =>
      match openFence with
      | none => some marker
      | some fence =>
          if marker.head? = fence.head? ∧ fence.length ≤ marker.length then none else some fence

/-- The fence that is open after the lines of a text. -/
def scanFences (openFence : Option Units) (text : Units) : Option Units :=
  (text.splitOn newline).foldl updateOpenFence openFence

/-! ## The loop -/

/-- `Math.max`. -/
def larger (a b : Int) : Int := if a < b then b else a

/-- The last line break or space. -/
def breakIndex (candidate : Units) : Int :=
  larger (larger (lastIndexOf candidate [newline, newline]) (lastIndexOf candidate [newline]))
    (lastIndexOf candidate [space])

def findSplitIndex (value : Units) (limit : Int) : Int :=
  let candidate := sliceTo value limit
  if breakIndex candidate > limit / 2 then breakIndex candidate else limit

/-- The line that opens a fence again. -/
def reopenPrefix : Option Units → Units
  | none => []
  | some fence => fence ++ [newline]

def closeSuffix : Option Units → Units
  | none => []
  | some fence => newline :: fence

/-- A chunk, with the lines that are added to the piece. -/
structure PlannedChunk where
  reopened : Units
  rawChunk : Units
  closed   : Units

def PlannedChunk.text (chunk : PlannedChunk) : Units :=
  trim isSpace (chunk.reopened ++ chunk.rawChunk ++ chunk.closed)

structure SplitState where
  remaining : Units
  openFence : Option Units
  chunks    : List PlannedChunk

namespace SplitState

def bodyLimit (limit : Int) (s : SplitState) : Int :=
  limit - (reopenPrefix s.openFence).length - (closeSuffix s.openFence).length

def cut (limit : Int) (s : SplitState) : Int := findSplitIndex s.remaining (s.bodyLimit limit)

def rawChunk (limit : Int) (s : SplitState) : Units :=
  trim isSpace (sliceTo s.remaining (s.cut limit))

/-- The chunk that a round adds. -/
def chunk (limit : Int) (s : SplitState) : PlannedChunk where
  reopened := reopenPrefix s.openFence
  rawChunk := s.rawChunk limit
  closed := closeSuffix s.openFence

def round (limit : Int) (s : SplitState) : SplitState where
  remaining := trim isSpace (sliceFrom s.remaining (s.cut limit))
  openFence := scanFences s.openFence (s.rawChunk limit)
  chunks := s.chunks ++ [s.chunk limit]

/-- The loop, for at most so many rounds. -/
def loop (limit : Int) : Nat → SplitState → Option SplitState
  | 0, _ => none
  | rounds + 1, s =>
      if limit < s.remaining.length then loop limit rounds (s.round limit) else some s

/-- What the loop leaves is the last chunk. -/
def planned (s : SplitState) : List PlannedChunk :=
  if s.remaining = [] then s.chunks
  else s.chunks ++
    [{ reopened := reopenPrefix s.openFence, rawChunk := s.remaining, closed := [] }]

/-- Before the first round. -/
def start (text : Units) : SplitState where
  remaining := text
  openFence := none
  chunks := []

end SplitState

/-- `splitPlannedMessage`, for at most so many rounds. -/
def splitPlannedMessage (rounds : Nat) (value : Units) (limit : Int) : Option (List Units) :=
  let text := trim isSpace value
  if text = [] then some []
  else if text.length ≤ limit then some [text]
  else (SplitState.loop limit rounds (.start text)).map fun s =>
    (s.planned.map PlannedChunk.text).filter (· ≠ [])

/-! ## Statements -/

inductive LoopReached (limit : Int) : SplitState → SplitState → Prop where
  | refl (s : SplitState) : LoopReached limit s s
  | round {s t : SplitState} (hlong : limit < s.remaining.length)
      (h : LoopReached limit (s.round limit) t) : LoopReached limit s t

/-- A round has place for a piece between the fences, and what is left after the
    last round fits with its fence. -/
def SplitState.Fits (limit : Int) (s : SplitState) : Prop :=
  if limit < s.remaining.length then 0 < s.bodyLimit limit
  else s.remaining = [] ∨ ((reopenPrefix s.openFence).length + s.remaining.length : Int) ≤ limit

/-- The split returns chunks that can be sent. -/
def SplitsWithin (value : Units) (limit : Int) : Prop :=
  ∃ rounds chunks, splitPlannedMessage rounds value limit = some chunks ∧
    ∀ chunk ∈ chunks, chunk ≠ [] ∧ (chunk.length : Int) ≤ limit

/-! ## Markers -/

/-- Three or more backticks or tildes. -/
structure IsMarker (marker : Units) : Prop where
  long    : 3 ≤ marker.length
  uniform : (∀ unit ∈ marker, unit = backtick) ∨ ∀ unit ∈ marker, unit = tilde

variable {marker : Units}

theorem IsMarker.ne_nil (h : IsMarker marker) : marker ≠ [] := by
  intro hnil
  have hlong := h.long
  rw [hnil] at hlong
  exact absurd hlong (by decide)

theorem IsMarker.not_space (h : IsMarker marker) : ∀ unit ∈ marker, isSpace unit = false := by
  intro unit hunit
  rcases h.uniform with hall | hall
  · rw [hall unit hunit]
    rfl
  · rw [hall unit hunit]
    rfl

theorem IsMarker.trimmed (h : IsMarker marker) : Trimmed isSpace marker :=
  ⟨fun unit hunit => h.not_space unit (mem_of_head? hunit),
    fun unit hunit => h.not_space unit (mem_of_getLast? hunit)⟩

theorem isMarker_of_markerOf {unit : Nat} (hunit : unit = backtick ∨ unit = tilde)
    {text : Units} (h : markerOf unit text = some marker) : IsMarker marker := by
  unfold markerOf at h
  dsimp only at h
  split at h
  · next hlong =>
    cases h
    have hall : ∀ other ∈ text.takeWhile (· = unit), other = unit := by
      intro other hother
      simpa using mem_takeWhile_imp hother
    refine ⟨hlong, ?_⟩
    rcases hunit with rfl | rfl
    · exact .inl hall
    · exact .inr hall
  · cases h

theorem isMarker_of_fenceMarker {line : Units} (h : fenceMarker line = some marker) :
    IsMarker marker := by
  unfold fenceMarker at h
  dsimp only at h
  split at h
  · cases h
  · rcases Option.or_eq_some_iff.mp h with h | ⟨-, h⟩
    · exact isMarker_of_markerOf (.inl rfl) h
    · exact isMarker_of_markerOf (.inr rfl) h

/-- A fence that is open has a marker. -/
def MarkedFence (openFence : Option Units) : Prop := ∀ fence ∈ openFence, IsMarker fence

variable {openFence : Option Units} {limit : Int}

theorem MarkedFence.update (h : MarkedFence openFence) (line : Units) :
    MarkedFence (updateOpenFence openFence line) := by
  unfold updateOpenFence
  cases hmarker : fenceMarker line with
  | none => exact h
  | some marker =>
    cases openFence with
    | none =>
      intro fence hfence
      cases hfence
      exact isMarker_of_fenceMarker hmarker
    | some fence =>
      dsimp only
      split
      · exact fun _ hnone => nomatch hnone
      · exact h

theorem MarkedFence.scan (h : MarkedFence openFence) (text : Units) :
    MarkedFence (scanFences openFence text) := by
  unfold scanFences
  generalize text.splitOn newline = lines
  induction lines generalizing openFence with
  | nil => exact h
  | cons line rest ih => exact ih (h.update line)

/-! ## Rounds -/

theorem breakIndex_lt (candidate : Units) {length : Int}
    (hlength : (candidate.length : Int) ≤ length) (hpos : 0 < length) : breakIndex candidate < length := by
  have hfound : ∀ first rest, lastIndexOf candidate (first :: rest) < length := by
    intro first rest
    by_cases h : 0 ≤ lastIndexOf candidate (first :: rest)
    · have hfits := lastIndexOf_add_length_le candidate h
      rw [length_cons] at hfits
      omega
    · omega
  have hparagraph := hfound newline [newline]
  have hline := hfound newline []
  have hspace := hfound space []
  unfold breakIndex larger
  grind

theorem findSplitIndex_bounds (value : Units) (h : 0 < limit) :
    0 < findSplitIndex value limit ∧ findSplitIndex value limit ≤ limit := by
  have hlength : ((sliceTo value limit).length : Int) ≤ limit := length_sliceTo_le value (by omega)
  have hlt := breakIndex_lt _ hlength h
  unfold findSplitIndex
  dsimp only
  split <;> omega

theorem findSplitIndex_zero (value : Units) : findSplitIndex value 0 = 0 := by
  have hnil : sliceTo value 0 = [] := by simp [sliceTo, position]
  unfold findSplitIndex
  rw [hnil]
  rfl

namespace SplitState

/-- What is left is trimmed, and an open fence has a marker. -/
structure Sound (s : SplitState) : Prop where
  remaining : Trimmed isSpace s.remaining
  openFence : MarkedFence s.openFence

theorem Sound.round {s : SplitState} (h : s.Sound) (limit : Int) : (s.round limit).Sound where
  remaining := trimmed_trim _ _
  openFence := h.openFence.scan _

theorem sound_start (value : Units) : (start (trim isSpace value)).Sound where
  remaining := trimmed_trim _ _
  openFence := fun _ hnone => nomatch hnone

theorem length_closeSuffix (openFence : Option Units) :
    (closeSuffix openFence).length = (reopenPrefix openFence).length := by
  cases openFence with
  | none => rfl
  | some fence => simp [closeSuffix, reopenPrefix]

theorem bodyLimit_eq (limit : Int) (s : SplitState) :
    s.bodyLimit limit = limit - 2 * (reopenPrefix s.openFence).length := by
  rw [bodyLimit, length_closeSuffix]
  omega

section Rounds

variable {s : SplitState} {limit : Int}

theorem Sound.rawChunk_ne_nil (h : s.Sound) (hcut : 0 < s.cut limit) (hne : s.remaining ≠ []) :
    s.rawChunk limit ≠ [] := by
  obtain ⟨first, rest, hremaining⟩ := exists_cons_of_ne_nil hne
  have hfirst : isSpace first = false := h.remaining.head first (by rw [hremaining]; rfl)
  refine trim_ne_nil (a := first) ?_ hfirst
  rw [sliceTo, position_of_nonneg _ (by omega), hremaining]
  obtain ⟨n, hn⟩ : ∃ n, (s.cut limit).toNat = n + 1 := ⟨(s.cut limit).toNat - 1, by omega⟩
  rw [hn]
  exact mem_cons_self

variable {openFence : Option Units} {piece : Units}

theorem chunk_text (hfence : MarkedFence openFence) (hpiece : Trimmed isSpace piece) :
    (PlannedChunk.mk (reopenPrefix openFence) piece (closeSuffix openFence)).text =
      reopenPrefix openFence ++ piece ++ closeSuffix openFence := by
  refine Trimmed.trim_eq ?_
  cases openFence with
  | none =>
    rw [reopenPrefix, closeSuffix, nil_append, append_nil]
    exact hpiece
  | some fence =>
    have hmarker := hfence fence rfl
    have hmiddle := hmarker.trimmed.append hmarker.trimmed hmarker.ne_nil hmarker.ne_nil
      (newline :: piece ++ [newline])
    simpa [reopenPrefix, closeSuffix] using hmiddle

theorem last_text (hfence : MarkedFence openFence)
    (hpiece : Trimmed isSpace piece) (hne : piece ≠ []) :
    (PlannedChunk.mk (reopenPrefix openFence) piece []).text = reopenPrefix openFence ++ piece := by
  unfold PlannedChunk.text
  rw [append_nil]
  refine Trimmed.trim_eq ?_
  cases openFence with
  | none =>
    rw [reopenPrefix, nil_append]
    exact hpiece
  | some fence =>
    have hmarker := hfence fence rfl
    exact hmarker.trimmed.append hpiece hmarker.ne_nil hne [newline]

theorem Sound.text_chunk (h : s.Sound) (limit : Int) :
    (s.chunk limit).text =
      reopenPrefix s.openFence ++ s.rawChunk limit ++ closeSuffix s.openFence :=
  chunk_text h.openFence (trimmed_trim _ _)

theorem length_text (h : s.Sound) (limit : Int) :
    ((s.chunk limit).text.length : Int) =
      2 * (reopenPrefix s.openFence).length + (s.rawChunk limit).length := by
  rw [h.text_chunk]
  simp only [length_append, length_closeSuffix]
  omega

theorem Sound.round_fits (h : s.Sound) (hplace : 0 < s.bodyLimit limit) (hne : s.remaining ≠ []) :
    (s.chunk limit).text ≠ [] ∧ ((s.chunk limit).text.length : Int) ≤ limit ∧
      (s.round limit).remaining.length < s.remaining.length := by
  have hcut : 0 < s.cut limit ∧ s.cut limit ≤ s.bodyLimit limit := findSplitIndex_bounds _ hplace
  have hraw := h.rawChunk_ne_nil hcut.1 hne
  have hlength : ((s.rawChunk limit).length : Int) ≤ s.cut limit := by
    have htrim := length_trim_le isSpace (sliceTo s.remaining (s.cut limit))
    have hslice := length_sliceTo_le s.remaining (show 0 ≤ s.cut limit by omega)
    unfold rawChunk
    omega
  refine ⟨?_, ?_, ?_⟩
  · rw [h.text_chunk]
    intro hnil
    exact hraw (append_eq_nil_iff.mp (append_eq_nil_iff.mp hnil).1).2
  · rw [length_text h]
    rw [bodyLimit_eq] at hcut
    omega
  · have htrim := length_trim_le isSpace (sliceFrom s.remaining (s.cut limit))
    have hpos := length_pos_iff.mpr hne
    have hdrop : (sliceFrom s.remaining (s.cut limit)).length < s.remaining.length := by
      rw [sliceFrom, position_of_nonneg _ (by omega), length_drop]
      omega
    show (trim isSpace (sliceFrom s.remaining (s.cut limit))).length < _
    omega

theorem Sound.round_too_long (h : s.Sound) (hplace : s.bodyLimit limit < 0) :
    limit < ((s.chunk limit).text.length : Int) := by
  rw [length_text h]
  rw [bodyLimit_eq] at hplace
  omega

theorem Sound.round_stuck (h : s.Sound) (hplace : s.bodyLimit limit = 0) :
    (s.round limit).remaining = s.remaining ∧ (s.round limit).openFence = s.openFence := by
  have hcut : s.cut limit = 0 := by rw [cut, hplace, findSplitIndex_zero]
  have hraw : s.rawChunk limit = [] := by
    rw [rawChunk, hcut]
    simp [sliceTo, position, trim]
  constructor
  · show trim isSpace (sliceFrom s.remaining (s.cut limit)) = _
    rw [hcut]
    exact h.remaining.trim_eq
  · show scanFences s.openFence (s.rawChunk limit) = _
    rw [hraw]
    rfl

end Rounds

/-! ## The whole loop -/

variable {s t : SplitState} {limit : Int}

theorem Sound.reached (h : s.Sound) (hreached : LoopReached limit s t) : t.Sound := by
  induction hreached with
  | refl => exact h
  | round _ _ ih => exact ih (h.round limit)

variable {rounds : Nat}

theorem loop_reached (h : loop limit rounds s = some t) :
    LoopReached limit s t ∧ ¬ limit < t.remaining.length := by
  induction rounds generalizing s with
  | zero => cases h
  | succ rounds ih =>
    rw [loop] at h
    split at h
    · next hlong =>
      obtain ⟨hreached, hend⟩ := ih h
      exact ⟨.round hlong hreached, hend⟩
    · next hend =>
      cases h
      exact ⟨.refl _, hend⟩

theorem loop_of_reached {u : SplitState} (hreached : LoopReached limit s u)
    (h : loop limit rounds s = some t) : ∃ rest, loop limit rest u = some t := by
  induction hreached generalizing rounds with
  | refl => exact ⟨rounds, h⟩
  | round hlong _ ih =>
    cases rounds with
    | zero => cases h
    | succ rounds =>
      rw [loop, if_pos hlong] at h
      exact ih h

theorem chunks_subset (h : loop limit rounds s = some t) : s.chunks ⊆ t.chunks := by
  induction rounds generalizing s with
  | zero => cases h
  | succ rounds ih =>
    rw [loop] at h
    split at h
    · exact List.Subset.trans (subset_append_left _ _) (ih h)
    · cases h
      exact fun _ hchunk => hchunk

theorem chunk_mem (hlong : limit < s.remaining.length)
    (h : loop limit rounds s = some t) : s.chunk limit ∈ t.chunks := by
  cases rounds with
  | zero => cases h
  | succ rounds =>
    rw [loop, if_pos hlong] at h
    exact chunks_subset h mem_concat_self

theorem Sound.loop_stuck (h : s.Sound) (hlong : limit < s.remaining.length)
    (hplace : s.bodyLimit limit = 0) (rounds : Nat) : loop limit rounds s = none := by
  induction rounds generalizing s with
  | zero => rfl
  | succ rounds ih =>
    obtain ⟨hremaining, hfence⟩ := h.round_stuck hplace
    rw [loop, if_pos hlong]
    refine ih (h.round limit) (by rwa [hremaining]) ?_
    rw [bodyLimit, hfence]
    exact hplace

theorem Sound.loop_ends (h : s.Sound) (hpos : 0 < limit)
    (hfits : ∀ u, LoopReached limit s u → u.Fits limit) :
    ∃ rounds t, loop limit rounds s = some t := by
  induction hlength : s.remaining.length using Nat.strong_induction_on generalizing s with
  | h n ih =>
    by_cases hlong : limit < s.remaining.length
    · have hplace := hfits s (.refl s)
      rw [Fits, if_pos hlong] at hplace
      have hne : s.remaining ≠ [] := by
        intro hnil
        rw [hnil, length_nil] at hlong
        omega
      have hless := (h.round_fits hplace hne).2.2
      obtain ⟨rounds, t, ht⟩ := ih _ (hlength ▸ hless) (h.round limit)
        (fun u hu => hfits u (.round hlong hu)) rfl
      exact ⟨rounds + 1, t, by rw [loop, if_pos hlong, ht]⟩
    · exact ⟨1, s, by rw [loop, if_neg hlong]⟩

/-- A chunk that can be sent. -/
def Sendable (limit : Int) (text : Units) : Prop := text ≠ [] ∧ (text.length : Int) ≤ limit

theorem Sound.sendable (h : s.Sound) (hpos : 0 < limit)
    (hfits : ∀ u, LoopReached limit s u → u.Fits limit)
    (hchunks : ∀ chunk ∈ s.chunks, Sendable limit chunk.text)
    (hloop : loop limit rounds s = some t) : ∀ chunk ∈ t.chunks, Sendable limit chunk.text := by
  induction rounds generalizing s with
  | zero => cases hloop
  | succ rounds ih =>
    rw [loop] at hloop
    split at hloop
    · next hlong =>
      refine ih (h.round limit) (fun u hu => hfits u (.round hlong hu)) ?_ hloop
      have hplace := hfits s (.refl s)
      rw [Fits, if_pos hlong] at hplace
      have hne : s.remaining ≠ [] := by
        intro hnil
        rw [hnil, length_nil] at hlong
        omega
      obtain ⟨hnil, hlength, -⟩ := h.round_fits hplace hne
      intro chunk hchunk
      rcases mem_append.mp hchunk with hold | hnew
      · exact hchunks chunk hold
      · rw [mem_singleton.mp hnew]
        exact ⟨hnil, hlength⟩
    · cases hloop
      exact hchunks

theorem Sound.planned_sendable_iff (h : s.Sound) (hend : ¬ limit < s.remaining.length)
    (hchunks : ∀ chunk ∈ s.chunks, Sendable limit chunk.text) :
    (∀ chunk ∈ s.planned, Sendable limit chunk.text) ↔ s.Fits limit := by
  rw [Fits, if_neg hend]
  unfold planned
  by_cases hnil : s.remaining = []
  · rw [if_pos hnil]
    exact ⟨fun _ => .inl hnil, fun _ => hchunks⟩
  · rw [if_neg hnil]
    have htext := last_text h.openFence h.remaining hnil
    have hlength : ((reopenPrefix s.openFence ++ s.remaining).length : Int) =
        (reopenPrefix s.openFence).length + s.remaining.length := by
      rw [length_append]
      omega
    constructor
    · intro hall
      have hlast := (hall _ mem_concat_self).2
      rw [htext, hlength] at hlast
      exact .inr hlast
    · rintro (hempty | hfits)
      · exact absurd hempty hnil
      intro chunk hchunk
      rcases mem_append.mp hchunk with hold | hnew
      · exact hchunks chunk hold
      · rw [mem_singleton.mp hnew]
        refine ⟨?_, by rw [htext, hlength]; exact hfits⟩
        rw [htext]
        exact fun hempty => hnil (append_eq_nil_iff.mp hempty).2

theorem Sound.loop_sendable_iff (h : s.Sound) (hpos : 0 < limit) (hchunks : s.chunks = []) :
    (∃ rounds t, loop limit rounds s = some t ∧
      ∀ text ∈ (t.planned.map PlannedChunk.text).filter (· ≠ []), Sendable limit text) ↔
      ∀ u, LoopReached limit s u → u.Fits limit := by
  constructor
  · rintro ⟨rounds, t, hloop, hsendable⟩ u hreached
    have hu := h.reached hreached
    obtain ⟨rest, hrest⟩ := loop_of_reached hreached hloop
    -- a chunk that is planned is not empty, or it is left out
    have hplanned : ∀ chunk ∈ t.planned, chunk.text ≠ [] → Sendable limit chunk.text :=
      fun chunk hchunk hne => hsendable _ (mem_filter.mpr
        ⟨mem_map_of_mem hchunk, decide_eq_true hne⟩)
    by_cases hlong : limit < u.remaining.length
    · rw [Fits, if_pos hlong]
      by_contra hplace
      rcases Int.lt_or_eq_of_le (Int.not_lt.mp hplace) with hshort | hstuck
      · have htoo := hu.round_too_long hshort
        have hmem : u.chunk limit ∈ t.planned := by
          unfold planned
          split
          · exact chunk_mem hlong hrest
          · exact mem_append_left _ (chunk_mem hlong hrest)
        have hne : (u.chunk limit).text ≠ [] := by
          intro hnil
          rw [hnil, length_nil] at htoo
          omega
        have hfits := (hplanned _ hmem hne).2
        omega
      · rw [hu.loop_stuck hlong hstuck] at hrest
        cases hrest
    · -- the loop has ended
      have hsame : u = t := by
        cases rest with
        | zero => cases hrest
        | succ rest =>
          rw [loop, if_neg hlong] at hrest
          exact Option.some.inj hrest
      subst hsame
      rw [Fits, if_neg hlong]
      by_cases hnil : u.remaining = []
      · exact .inl hnil
      · have htext := last_text hu.openFence hu.remaining hnil
        have hmem : PlannedChunk.mk (reopenPrefix u.openFence) u.remaining [] ∈ u.planned := by
          rw [planned, if_neg hnil]
          exact mem_concat_self
        have hfits := (hplanned _ hmem (by
          rw [htext]
          exact fun hempty => hnil (append_eq_nil_iff.mp hempty).2)).2
        rw [htext, length_append] at hfits
        refine .inr ?_
        omega
  · intro hfits
    obtain ⟨rounds, t, hloop⟩ := h.loop_ends hpos hfits
    have hsendable := h.sendable hpos hfits (by simp [hchunks]) hloop
    obtain ⟨hreached, hend⟩ := loop_reached hloop
    have hplanned := ((h.reached hreached).planned_sendable_iff hend hsendable).mpr
      (hfits t hreached)
    refine ⟨rounds, t, hloop, fun text htext => ?_⟩
    obtain ⟨chunk, hchunk, rfl⟩ := mem_map.mp (mem_filter.mp htext).1
    exact hplanned chunk hchunk

end SplitState

/-! ## Messages that are split within their limit -/

/-- The split ends with chunks that can be sent exactly where every round has
    place for a piece, and what is left fits with its fence. -/
theorem split_within_iff (value : Units) {limit : Int} (hlimit : 0 < limit) :
    SplitsWithin value limit ↔
      ∀ s, LoopReached limit (.start (trim isSpace value)) s → s.Fits limit := by
  have hstart := SplitState.sound_start value
  unfold SplitsWithin splitPlannedMessage
  dsimp only
  by_cases hlong : limit < (trim isSpace value).length
  · have hnil : trim isSpace value ≠ [] := by
      intro hnil
      rw [hnil, List.length_nil] at hlong
      omega
    rw [← hstart.loop_sendable_iff hlimit rfl]
    simp only [if_neg hnil, if_neg (Int.not_le.mpr hlong), Option.map_eq_some_iff]
    constructor
    · rintro ⟨rounds, chunks, ⟨t, hloop, rfl⟩, hsendable⟩
      exact ⟨rounds, t, hloop, hsendable⟩
    · rintro ⟨rounds, t, hloop, hsendable⟩
      exact ⟨rounds, _, ⟨t, hloop, rfl⟩, hsendable⟩
  · constructor
    · intro _ s hreached
      cases hreached with
      | round h _ => exact absurd h hlong
      | refl =>
        unfold SplitState.Fits
        split
        · next h => exact absurd h hlong
        · refine .inr ?_
          show (([] : Units).length : Int) + ((trim isSpace value).length : Int) ≤ limit
          rw [List.length_nil]
          omega
    · intro _
      by_cases hnil : trim isSpace value = []
      · exact ⟨0, [], by rw [if_pos hnil], fun _ hnone => nomatch hnone⟩
      · refine ⟨0, [trim isSpace value], by rw [if_neg hnil, if_pos (by omega)], ?_⟩
        intro chunk hchunk
        rw [List.mem_singleton.mp hchunk]
        exact ⟨hnil, by omega⟩

/-- A short message is one chunk. -/
theorem split_within_iff_short : SplitsWithin [104, 105] 1900 := by
  refine (split_within_iff [104, 105] (by decide)).mpr fun s hreached => ?_
  cases hreached with
  | round hlong _ => exact absurd hlong (by decide)
  | refl =>
    rw [SplitState.Fits, if_neg (by decide)]
    exact .inr (by decide)

/-- A fence of so many backticks, and a line after it that a round cuts off. -/
def fencedMessage (fence line rest : Nat) : Units :=
  List.replicate fence backtick ++ [newline] ++ List.replicate line 97 ++
    [space, newline, newline] ++ List.replicate rest 97

theorem loop_one {s t : SplitState} (hlong : limit < s.remaining.length)
    (hend : ¬ limit < (s.round limit).remaining.length) {rounds : Nat}
    (h : SplitState.loop limit rounds s = some t) : t = s.round limit := by
  obtain ⟨rest, hrest⟩ := SplitState.loop_of_reached (.round hlong (.refl (s.round limit))) h
  cases rest with
  | zero => cases hrest
  | succ rest =>
    rw [SplitState.loop, if_neg hend] at hrest
    exact (Option.some.inj hrest).symm

/-- What is left fits in the limit, but not with its fence; and a fence that takes
    all the place keeps the loop from ending. -/
theorem split_exceeds :
    ¬ SplitsWithin (fencedMessage 3 1890 1897) 1900 ∧
      ∀ rounds, splitPlannedMessage rounds (fencedMessage 949 940 1901) 1900 = none := by
  constructor
  · rintro ⟨rounds, chunks, hsplit, hsendable⟩
    unfold splitPlannedMessage at hsplit
    dsimp only at hsplit
    rw [if_neg (by decide +kernel), if_neg (by decide +kernel)] at hsplit
    obtain ⟨t, hloop, rfl⟩ := Option.map_eq_some_iff.mp hsplit
    have ht := loop_one (by decide +kernel) (by decide +kernel) hloop
    subst ht
    have hlast : ∃ text ∈ (((SplitState.start (trim isSpace (fencedMessage 3 1890 1897))).round
        1900).planned.map PlannedChunk.text).filter (· ≠ []), (1900 : Int) < text.length := by
      decide +kernel
    obtain ⟨text, htext, hlong⟩ := hlast
    have hfits := (hsendable text htext).2
    omega
  · intro rounds
    unfold splitPlannedMessage
    dsimp only
    rw [if_neg (by decide +kernel), if_neg (by decide +kernel)]
    cases rounds with
    | zero => rfl
    | succ rounds =>
      have hstart := SplitState.sound_start (fencedMessage 949 940 1901)
      rw [SplitState.loop, if_pos (by decide +kernel),
        (hstart.round 1900).loop_stuck (by decide +kernel) (by decide +kernel)]
      rfl

end Cohub.Gateway
