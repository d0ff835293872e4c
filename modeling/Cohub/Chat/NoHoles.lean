import Cohub.Chat.Merging
import Mathlib.Data.List.Chain

/-! # Holes in the turn cache

    Over a whole run, the server has the turns from `first` to before `stop`,
    each under its id, and the cache is handed pages and turns of them.  `known`
    is one more than the newest sequence it was ever handed.

    The kept turns stay consecutive, and the flags right, as long as each page
    touches what is kept and trimming drops turns only at an end that the flag
    says goes on (`Touches`). -/

namespace Cohub.Chat

open Bool List Span

variable {Session : Type} (env : Env Session)

/-! ## The server and the cache -/

structure World (Session : Type) where
  first  : Nat
  stop   : Nat
  ids    : Nat → String
  stored : Stored Session
  known  : Nat

inductive Input (Session : Type) where
  /-- A turn is added on the server. -/
  | grow
  | replaceTail (response : TailResponse Session)
  | mergeTurns (turns : List SessionTurn) (options : MergeOptions Session)
  /-- The server knows a turn by another id from now on. -/
  | replaceTurnId (previousTurnId nextTurnId : String)
  | loadOlder (response : OlderResponse Session)

/-- One more than the greatest sequence of the turns. -/
def stopOf (turns : List SessionTurn) : Nat := (sequencesOf turns).foldr (fun q stop => max (q + 1) stop) 0

/-- A mutation that throws changes nothing. -/
def applied (w : World Session) (turns : List SessionTurn) (result : Mutation Session) :
    World Session × List (Option (SessionTurnsSnapshot Session)) :=
  match result with
  | none => (w, [])
  | some (stored, returned) => ({ w with stored := stored, known := max w.known (stopOf turns) }, [returned])

def renamed (ids : Nat → String) (previousTurnId nextTurnId : String) (q : Nat) : String :=
  if ids q = previousTurnId then nextTurnId else ids q

def step (w : World Session) : Input Session → World Session × List (Option (SessionTurnsSnapshot Session))
  | .grow => ({ w with stop := w.stop + 1 }, [])
  | .replaceTail response => applied w response.turns (replaceTail env w.stored response)
  | .mergeTurns turns options => applied w turns (mergeTurns env w.stored turns options)
  | .replaceTurnId previousTurnId nextTurnId =>
      applied { w with ids := renamed w.ids previousTurnId nextTurnId } []
        (replaceTurnId env w.stored previousTurnId nextTurnId)
  | .loadOlder response => applied w response.turns (loadOlder env w.stored response)

def turnCache : Mealy (World Session) (Input Session) (Option (SessionTurnsSnapshot Session)) := ⟨step env⟩

/-! ## What the cache is handed -/

/-- Turns of the server. -/
def OfServer (w : World Session) (turns : List SessionTurn) : Prop :=
  ∀ turn ∈ turns, w.first ≤ turn.sequence ∧ turn.sequence < w.stop ∧ Named w.ids turn

/-- A page of the server, and whether there are turns before it. -/
structure IsPage (w : World Session) (turns : List SessionTurn) (hasMore : Bool) : Prop where
  server : OfServer w turns
  span   : Span.From SessionTurn.sequence (oldestOf turns) turns
  more   : hasMore = false → turns ≠ [] → oldestOf turns = w.first

/-- The sequence that kept turns would begin with, and the one after the last.
    Where nothing is kept, the session's first turn comes next. -/
def keptStart (w : World Session) : Nat := if (turnsOf w.stored).isEmpty then w.first else oldestOf (turnsOf w.stored)

def keptStop (w : World Session) : Nat := keptStart w + (turnsOf w.stored).length

/-- The turns are inside the kept range or right after it, and what is said of
    turns outside is so. -/
structure IsMerge (w : World Session) (turns : List SessionTurn) (options : MergeOptions Session) : Prop where
  server : OfServer w turns
  inside : ∀ turn ∈ turns, keptStart w ≤ turn.sequence
  next   : ∀ turn ∈ turns, ∀ q, keptStop w ≤ q → q < turn.sequence → q ∈ sequencesOf turns
  older  : options.hasMoreOlder = some false → ∃ turn ∈ turns, turn.sequence = w.first
  newer  : options.hasMoreNewer = some false → w.known ≤ max (keptStop w) (stopOf turns)

/-- An id is taken over by at most one turn. -/
def IsRename (w : World Session) (previousTurnId nextTurnId : String) : Prop :=
  previousTurnId = nextTurnId ∨ (∀ q, w.ids q ≠ previousTurnId) ∨ ∀ q, w.ids q ≠ nextTurnId

def Receives (w : World Session) : Input Session → Prop
  | .grow => True
  | .replaceTail response => IsPage w response.turns response.hasMore
  | .mergeTurns turns options => IsMerge w turns options
  | .replaceTurnId previousTurnId nextTurnId => IsRename w previousTurnId nextTurnId
  | .loadOlder response => IsPage w response.turns response.hasMore

/-! ## The condition -/

/-- Trimming drops turns at no end that the flag calls the end. -/
def Trims (mode : Option TrimMode) (anchorSequence : Option Nat) (lo hi : Nat) (hasMoreOlder hasMoreNewer : Bool) :
    Prop :=
  (dropsOlder mode anchorSequence lo hi = true → hasMoreOlder = true) ∧
    (dropsNewer mode anchorSequence lo hi = true → hasMoreNewer = true)

/-- A page that is not older than what is kept begins in the kept range or
    right after it, and ends with the newest turn that is known. -/
def TailTouches (w : World Session) (response : TailResponse Session) : Prop :=
  isIncomingTailOlder env (turnsOf w.stored) response.turns = true ∨
    (response.turns = [] ∧ turnsOf w.stored = []) ∨
      response.turns ≠ [] ∧ w.known ≤ stopOf response.turns ∧
        (turnsOf w.stored ≠ [] → oldestOf response.turns ≤ keptStop w) ∧
        Trims none none (if (turnsOf w.stored).isEmpty then oldestOf response.turns
            else min (keptStart w) (oldestOf response.turns)) (stopOf response.turns)
          (nextHasMoreOlder w.stored response) false

/-- A page of older turns ends right before the kept range or in it. -/
def OlderTouches (w : World Session) (response : OlderResponse Session) : Prop :=
  if turnsOf w.stored = [] then
    Trims (some .head) none (oldestOf response.turns) (stopOf response.turns) response.hasMore (hasMoreNewerOf w.stored)
  else if response.turns = [] then response.hasMore = true ∨ keptStart w = w.first
  else
    keptStart w ≤ stopOf response.turns ∧ oldestOf response.turns ≤ keptStop w ∧
      Trims (some .head) none (min (keptStart w) (oldestOf response.turns))
        (max (keptStop w) (stopOf response.turns)) response.hasMore (hasMoreNewerOf w.stored)

def Touches (w : World Session) : Input Session → Prop
  | .replaceTail response => TailTouches env w response
  | .mergeTurns turns options =>
      Trims none options.trimAnchorSequence (keptStart w) (max (keptStop w) (stopOf turns))
        (options.hasMoreOlder.getD (w.stored.any fun record => record.hasMoreOlder))
        (options.hasMoreNewer.getD (hasMoreNewerOf w.stored))
  | .loadOlder response => OlderTouches w response
  | _ => True

/-! ## What holds of the cache -/

/-- The kept turns have no hole, and the flags are right. -/
structure NoHoles (w : World Session) : Prop where
  consecutive : (turnsOf w.stored).IsChain fun a b => b.sequence = a.sequence + 1
  older : ∀ record, w.stored = some record → record.hasMoreOlder = false →
    ∀ turn ∈ record.turns, ∀ q, w.first ≤ q → q < turn.sequence → q ∈ sequencesOf record.turns
  newer : ∀ record, w.stored = some record → record.hasMoreNewer.getD false = false →
    w.known = 0 ∨ ∃ turn ∈ record.turns, turn.sequence + 1 = w.known

/-- What holds of a record, by the newest sequence the cache was handed. -/
structure Sound (first known : Nat) (ids : Nat → String) (record : SessionTurnsCacheRecord Session) : Prop where
  session : record.session.all env.sessionMatchesContext = true
  span : Span.From SessionTurn.sequence (oldestOf record.turns) record.turns
  named : ∀ turn ∈ record.turns, Named ids turn
  start : record.turns ≠ [] → first ≤ oldestOf record.turns
  fits : record.turns.length ≤ MAX_TURNS_PER_SESSION_CACHE
  bound : record.turns ≠ [] → oldestOf record.turns + record.turns.length ≤ known
  empty : record.turns = [] → known = 0
  older : record.hasMoreOlder = false → record.turns = [] ∨ oldestOf record.turns = first
  newer : record.hasMoreNewer.getD false = false →
    record.turns = [] ∨ oldestOf record.turns + record.turns.length = known

structure Kept (w : World Session) : Prop where
  ids    : Function.Injective w.ids
  absent : w.stored = none → w.known = 0
  sound  : ∀ record, w.stored = some record → Sound env w.first w.known w.ids record

section

variable {env} {lo : Nat} {turns : List SessionTurn}

theorem oldestOf_span (h : Span.From SessionTurn.sequence lo turns)
    (hne : turns ≠ []) : oldestOf turns = lo := by
  cases turns with
  | nil => exact absurd rfl hne
  | cons turn rest =>
    have hfirst : turn.sequence = lo := h.number_lo rfl
    simpa [oldestOf] using hfirst

theorem lt_stopOf {q : Nat} (h : q ∈ sequencesOf turns) : q < stopOf turns := by
  unfold stopOf
  revert h
  induction sequencesOf turns with
  | nil => simp
  | cons p rest ih =>
    intro h
    rw [foldr_cons]
    rcases mem_cons.mp h with rfl | h
    · omega
    · have := ih h
      omega

theorem stopOf_mem (hne : turns ≠ []) : ∃ q ∈ sequencesOf turns, q + 1 = stopOf turns := by
  unfold stopOf
  have hne' : sequencesOf turns ≠ [] := by simpa [sequencesOf] using hne
  revert hne'
  induction sequencesOf turns with
  | nil => exact fun hne => absurd rfl hne
  | cons p rest ih =>
    intro _
    rw [foldr_cons]
    by_cases hrest : rest = []
    · subst hrest
      exact ⟨p, mem_cons_self, by simp⟩
    · obtain ⟨q, hq, hstop⟩ := ih hrest
      rcases le_total (p + 1) (rest.foldr (fun q stop => max (q + 1) stop) 0) with hle | hle
      · exact ⟨q, mem_cons_of_mem _ hq, by omega⟩
      · exact ⟨p, mem_cons_self, by omega⟩

theorem stopOf_span (h : Span.From SessionTurn.sequence lo turns)
    (hne : turns ≠ []) : stopOf turns = lo + turns.length := by
  obtain ⟨q, hq, hstop⟩ := stopOf_mem hne
  have hmem := (mem_map_iff h q).mp hq
  have hpos := length_pos_iff.mpr hne
  have hlast : lo + turns.length - 1 ∈ sequencesOf turns := (mem_map_iff h _).mpr (by omega)
  have := lt_stopOf hlast
  omega

variable {mode : Option TrimMode} {anchor : Option Nat} {hi : Nat}

theorem trims_of_fits
    (h : hi - lo ≤ MAX_TURNS_PER_SESSION_CACHE) (older newer : Bool) : Trims mode anchor lo hi older newer := by
  have hnot : ¬MAX_TURNS_PER_SESSION_CACHE < hi - lo := by omega
  unfold Trims dropsOlder dropsNewer
  simp [hnot]

theorem sound_written {first known : Nat} {ids : Nat → String} {next written : SessionTurnsCacheRecord Session}
    (hwrite : writeRecord env next mode anchor = some written)
    (hspan : Span.From SessionTurn.sequence lo next.turns ∧ next.turns.length = hi - lo ∧
      ∀ turn ∈ next.turns, Named ids turn)
    (hfirst : lo < hi → first ≤ lo) (hknown : lo < hi → hi ≤ known) (hempty : hi ≤ lo → known = 0)
    (holder : next.hasMoreOlder = false → hi ≤ lo ∨ lo = first)
    (hnewer : next.hasMoreNewer.getD false = false → hi ≤ lo ∨ hi = known)
    (htrims : Trims mode anchor lo hi next.hasMoreOlder (next.hasMoreNewer.getD false)) :
    Sound env first known ids written := by
  obtain ⟨hfrom, hlength, hnamed⟩ := hspan
  unfold writeRecord at hwrite
  rw [sortTurns_of_span hfrom] at hwrite
  split at hwrite
  · cases hwrite
  next hsession =>
  obtain rfl := Option.some.inj hwrite
  obtain ⟨start, hkept, hsize, hle, hdropsOlder, hdropsNewer⟩ := span_trimTurns hfrom hlength mode anchor
  have hmax : 0 < MAX_TURNS_PER_SESSION_CACHE := by decide
  -- Where turns are kept, they begin at `lo + start`.
  have hbegin : trimTurns next.turns mode anchor ≠ [] →
      oldestOf (trimTurns next.turns mode anchor) = lo + start ∧ lo < hi := by
    intro hne
    have hpos := length_pos_iff.mpr hne
    exact ⟨oldestOf_span hkept hne, by omega⟩
  have hnone : trimTurns next.turns mode anchor = [] → hi ≤ lo := by
    intro hnil
    rw [hnil, length_nil] at hsize
    omega
  have hstart : next.hasMoreOlder = false → start = 0 := by
    intro hflag
    by_contra hne
    have := htrims.1 (hdropsOlder (by omega))
    rw [hflag] at this
    cases this
  have hend : next.hasMoreNewer.getD false = false →
      start + (trimTurns next.turns mode anchor).length = next.turns.length := by
    intro hflag
    by_contra hne
    have := htrims.2 (hdropsNewer (by omega))
    rw [hflag] at this
    cases this
  refine ⟨?_, ?_, ?_, ?_, ?_, ?_, ?_, ?_, ?_⟩
  · cases hcase : next.session with
    | none => rfl
    | some session =>
      simpa [hcase] using hsession
  · by_cases hne : trimTurns next.turns mode anchor = []
    · dsimp only
      rw [hne]
      rfl
    · dsimp only
      rw [(hbegin hne).1]
      exact hkept
  · intro turn hturn
    refine hnamed turn ?_
    have hsub : (trimTurns next.turns mode anchor).Sublist next.turns := by
      unfold trimTurns
      split
      · exact .refl _
      · split
        · exact (take_sublist _ _).trans (drop_sublist _ _)
        · split
          · exact take_sublist _ _
          · exact drop_sublist _ _
    exact hsub.subset hturn
  · intro hne
    obtain ⟨holdest, hlt⟩ := hbegin hne
    have := hfirst hlt
    dsimp only
    omega
  · dsimp only
    omega
  · intro hne
    obtain ⟨holdest, hlt⟩ := hbegin hne
    have := hknown hlt
    dsimp only
    omega
  · intro hnil
    exact hempty (hnone hnil)
  · intro hflag
    by_cases hne : trimTurns next.turns mode anchor = []
    · exact .inl hne
    · obtain ⟨holdest, hlt⟩ := hbegin hne
      have := hstart hflag
      have := holder hflag
      right
      dsimp only
      omega
  · intro hflag
    by_cases hne : trimTurns next.turns mode anchor = []
    · exact .inl hne
    · obtain ⟨holdest, hlt⟩ := hbegin hne
      have := hend hflag
      have := hnewer hflag
      right
      dsimp only
      omega

/-! ## Every mutation -/

section

variable {w : World Session}

theorem readRecord_of_kept (h : Kept env w) : readRecord env w.stored = w.stored := by
  cases hstored : w.stored with
  | none => rfl
  | some record =>
    have hsession := (h.sound record hstored).session
    simp [readRecord, Option.filter, hsession]

theorem kept_span (h : Kept env w) :
    Span.From SessionTurn.sequence (keptStart w) (turnsOf w.stored) ∧ (∀ turn ∈ turnsOf w.stored, Named w.ids turn) ∧
      w.first ≤ keptStart w ∧ (turnsOf w.stored ≠ [] → keptStop w ≤ w.known) ∧ (turnsOf w.stored = [] → w.known = 0) ∧
      (turnsOf w.stored).length ≤ MAX_TURNS_PER_SESSION_CACHE := by
  unfold keptStop keptStart
  cases hstored : w.stored with
  | none =>
    have := h.absent hstored
    simp [turnsOf, from_nil, this]
  | some record =>
    have hsound := h.sound record hstored
    by_cases hne : record.turns = []
    · have := hsound.empty hne
      simp [turnsOf, hne, from_nil, this]
    · simp only [turnsOf, List.isEmpty_iff, if_neg hne]
      exact ⟨hsound.span, hsound.named, hsound.start hne, hsound.bound, fun hnil => absurd hnil hne, hsound.fits⟩

theorem older_of_kept (h : Kept env w)
    (hflag : (w.stored.any fun record => record.hasMoreOlder) = false) : keptStart w = w.first := by
  unfold keptStart
  cases hstored : w.stored with
  | none => simp [turnsOf]
  | some record =>
    rw [hstored] at hflag
    rcases (h.sound record hstored).older (by simpa using hflag) with hnil | holdest
    · simp [turnsOf, hnil]
    · simp [turnsOf, holdest]

theorem newer_of_kept (h : Kept env w) (hflag : hasMoreNewerOf w.stored = false) :
    turnsOf w.stored = [] ∨ keptStop w = w.known := by
  unfold keptStop keptStart
  cases hstored : w.stored with
  | none => simp [turnsOf]
  | some record =>
    rw [hstored] at hflag
    rcases (h.sound record hstored).newer hflag with hnil | hstop
    · simp [turnsOf, hnil]
    · by_cases hne : record.turns = []
      · simp [turnsOf, hne]
      · right
        simpa [turnsOf, hne] using hstop

variable {record : SessionTurnsCacheRecord Session}

theorem kept_written {ids : Nat → String} (hids : Function.Injective ids)
    {known : Nat} (h : Sound env w.first known ids record) :
    Kept env { w with ids := ids, stored := some record, known := known } := by
  refine ⟨hids, nofun, ?_⟩
  intro other hother
  obtain rfl := Option.some.inj hother
  exact h

theorem mergeTurns_kept (h : Kept env w) {options : MergeOptions Session}
    (hmerge : IsMerge w turns options)
    (htrims : Trims none options.trimAnchorSequence (keptStart w) (max (keptStop w) (stopOf turns))
      (options.hasMoreOlder.getD (w.stored.any fun record => record.hasMoreOlder))
      (options.hasMoreNewer.getD (hasMoreNewerOf w.stored))) :
    Kept env (applied w turns (mergeTurns env w.stored turns options)).1 := by
  obtain ⟨hspan, hnamed, hstart, hbound, hempty, -⟩ := kept_span h
  unfold mergeTurns
  rw [readRecord_of_kept h]
  dsimp only
  cases hwrite : writeRecord env (mergeRecord env w.stored turns options) none options.trimAnchorSequence with
  | none => exact h
  | some written =>
    have hstop : keptStop w = keptStart w + (turnsOf w.stored).length := rfl
    have hmem : ∀ q, q ∈ sequencesOf (turnsOf w.stored) ∨ q ∈ sequencesOf turns ↔
        keptStart w ≤ q ∧ q < max (keptStop w) (stopOf turns) := by
      intro q
      have hkept := mem_map_iff hspan q
      constructor
      · rintro (hq | hq)
        · have := hkept.mp hq
          omega
        · have := lt_stopOf hq
          obtain ⟨turn, hturn, rfl⟩ := mem_map.mp hq
          have := hmerge.inside turn hturn
          omega
      · rintro ⟨hlo, hhi⟩
        by_cases hin : q < keptStop w
        · exact .inl (hkept.mpr (by omega))
        · -- The turns reach `q`, and leave nothing out on the way.
          have hne : turns ≠ [] := by
            rintro rfl
            simp [stopOf, sequencesOf] at hhi
            omega
          obtain ⟨p, hp, hlast⟩ := stopOf_mem hne
          right
          by_cases hpq : q = p
          · exact hpq ▸ hp
          · obtain ⟨turn, hturn, rfl⟩ := mem_map.mp hp
            exact hmerge.next turn hturn q (by omega) (by omega)
    have hturns : ∀ turn ∈ turns, w.first < stopOf turns := by
      intro turn hturn
      have hq : turn.sequence ∈ sequencesOf turns := mem_map_of_mem hturn
      have := lt_stopOf hq
      have := (hmerge.server turn hturn).1
      omega
    have hnone : turnsOf w.stored = [] → keptStart w = w.first ∧ keptStop w = w.first := by
      intro hnil
      unfold keptStop keptStart
      simp [hnil]
    have hzero : turns = [] → stopOf turns = 0 := by
      rintro rfl
      rfl
    refine kept_written h.ids (sound_written hwrite
      (span_mergeTurnsById env h.ids hnamed (fun turn hturn => (hmerge.server turn hturn).2.2) _ hmem)
      (fun _ => hstart) ?_ ?_ ?_ ?_ htrims)
    · intro hlt
      by_cases hne : turnsOf w.stored = []
      · have := hnone hne
        omega
      · have := hbound hne
        omega
    · intro hle
      have hnil : turnsOf w.stored = [] := by
        by_contra hne
        have := length_pos_iff.mpr hne
        omega
      have := hempty hnil
      have := hnone hnil
      cases turns with
      | nil => simp [stopOf, sequencesOf, hempty hnil]
      | cons turn rest =>
        have := hturns turn mem_cons_self
        omega
    · intro hflag
      right
      cases hoption : options.hasMoreOlder with
      | none =>
        refine older_of_kept h ?_
        simpa [mergeRecord, hoption] using hflag
      | some flag =>
        have hfalse : flag = false := by simpa [mergeRecord, hoption] using hflag
        obtain ⟨turn, hturn, hsequence⟩ := hmerge.older (hfalse ▸ hoption)
        have := hmerge.inside turn hturn
        omega
    · intro hflag
      by_cases hne : turnsOf w.stored = []
      · have := hnone hne
        have := hempty hne
        cases turns with
        | nil => exact .inl (by simp [stopOf, sequencesOf]; omega)
        | cons turn rest =>
          have := hturns turn mem_cons_self
          omega
      · right
        have := hbound hne
        cases hoption : options.hasMoreNewer with
        | none =>
          have hflag' : hasMoreNewerOf w.stored = false := by simpa [mergeRecord, hoption] using hflag
          rcases newer_of_kept h hflag' with hnil | hstop'
          · exact absurd hnil hne
          · omega
        | some flag =>
          have hfalse : flag = false := by simpa [mergeRecord, hoption] using hflag
          have := hmerge.newer (hfalse ▸ hoption)
          omega

variable {lo hi : Nat} {currentTurns : List SessionTurn} {response : TailResponse Session}

theorem older_turns (h : Kept env w) {response : OlderResponse Session}
    (hpage : IsPage w response.turns response.hasMore)
    (hmem : ∀ q, q ∈ sequencesOf (turnsOf w.stored) ∨ q ∈ sequencesOf response.turns ↔ lo ≤ q ∧ q < hi) :
    Span.From SessionTurn.sequence lo (olderRecord env w.stored response).turns ∧
      (olderRecord env w.stored response).turns.length = hi - lo ∧
      ∀ turn ∈ (olderRecord env w.stored response).turns, Named w.ids turn :=
  span_mergeTurnsById env h.ids (kept_span h).2.1 (fun turn hturn => (hpage.server turn hturn).2.2) _ hmem

theorem oldestOf_page {hasMore : Bool} (hpage : IsPage w turns hasMore) (hne : turns ≠ []) :
    w.first ≤ oldestOf turns ∧ stopOf turns = oldestOf turns + turns.length := by
  refine ⟨?_, stopOf_span hpage.span hne⟩
  cases turns with
  | nil => exact absurd rfl hne
  | cons turn rest =>
    have := (hpage.server turn mem_cons_self).1
    simpa [oldestOf] using this

theorem loadOlder_kept (h : Kept env w) {response : OlderResponse Session}
    (hpage : IsPage w response.turns response.hasMore) (htouches : OlderTouches w response) :
    Kept env (applied w response.turns (loadOlder env w.stored response)).1 := by
  obtain ⟨hspan, hnamed, hstart, hbound, hempty, hfits⟩ := kept_span h
  unfold loadOlder
  rw [readRecord_of_kept h]
  dsimp only
  cases hwrite : writeRecord env (olderRecord env w.stored response) (some .head) none with
  | none => exact h
  | some written =>
    have hstop : keptStop w = keptStart w + (turnsOf w.stored).length := rfl
    have hinPage : ∀ q, q ∈ sequencesOf response.turns ↔
        oldestOf response.turns ≤ q ∧ q < oldestOf response.turns + response.turns.length :=
      fun q => mem_map_iff hpage.span q
    have hinKept : ∀ q, q ∈ sequencesOf (turnsOf w.stored) ↔ keptStart w ≤ q ∧ q < keptStop w :=
      fun q => mem_map_iff hspan q
    have hnewer : ∀ hi, (olderRecord env w.stored response).hasMoreNewer.getD false = false →
        turnsOf w.stored ≠ [] → hi = max (keptStop w) (stopOf response.turns) → hi = max w.known (stopOf response.turns) := by
      intro hi hflag hne hhi
      rcases newer_of_kept h hflag with hnil | hknown
      · exact absurd hnil hne
      · omega
    unfold OlderTouches at htouches
    split_ifs at htouches with hkept hnil
    · -- Nothing is kept, so the page is what is kept from now on.
      by_cases hne : response.turns = []
      · have hmem : ∀ q, q ∈ sequencesOf (turnsOf w.stored) ∨ q ∈ sequencesOf response.turns ↔ 0 ≤ q ∧ q < 0 := by
          simp [hkept, hne, sequencesOf]
        refine kept_written h.ids (sound_written hwrite (older_turns h hpage hmem) ?_ ?_ ?_ ?_ ?_
          (trims_of_fits (Nat.zero_le _) _ _))
        · omega
        · omega
        · intro _
          simp [hempty hkept, hne, stopOf, sequencesOf]
        · intro _
          exact .inl le_rfl
        · intro _
          exact .inl le_rfl
      · obtain ⟨hfirst, hpageStop⟩ := oldestOf_page hpage hne
        have hpos := length_pos_iff.mpr hne
        have hzero := hempty hkept
        refine kept_written h.ids (sound_written hwrite (older_turns h hpage ?_) ?_ ?_ ?_ ?_ ?_ htouches)
        · intro q
          rw [hinPage, hpageStop]
          simp [hkept, sequencesOf]
        · exact fun _ => hfirst
        · omega
        · omega
        · intro hflag
          exact .inr (hpage.more hflag hne)
        · omega
    · -- The page is empty.
      have hpos := length_pos_iff.mpr hkept
      have hsmall : stopOf response.turns = 0 := by
        rw [hnil]
        rfl
      have hmem : ∀ q, q ∈ sequencesOf (turnsOf w.stored) ∨ q ∈ sequencesOf response.turns ↔
          keptStart w ≤ q ∧ q < keptStop w := by
        intro q
        rw [hinKept, hnil]
        simp [sequencesOf]
      refine kept_written h.ids (sound_written hwrite (older_turns h hpage hmem) ?_ ?_ ?_ ?_ ?_
        (trims_of_fits (by omega) _ _))
      · exact fun _ => hstart
      · have := hbound hkept
        omega
      · omega
      · intro hflag
        rcases htouches with hmore | hfirst
        · rw [show (olderRecord env w.stored response).hasMoreOlder = response.hasMore from rfl, hmore] at hflag
          cases hflag
        · exact .inr hfirst
      · intro hflag
        exact .inr (hnewer _ hflag hkept (by omega))
    · obtain ⟨hreaches, hinside, htrims⟩ := htouches
      obtain ⟨hfirst, hpageStop⟩ := oldestOf_page hpage hnil
      have hpos := length_pos_iff.mpr hkept
      refine kept_written h.ids (sound_written hwrite (older_turns h hpage ?_) ?_ ?_ ?_ ?_ ?_ htrims)
      · intro q
        rw [hinPage, hinKept]
        omega
      · omega
      · have := hbound hkept
        omega
      · omega
      · intro hflag
        have := hpage.more hflag hnil
        omega
      · intro hflag
        exact .inr (hnewer _ hflag hkept rfl)

variable {incomingTurns : List SessionTurn}

theorem stop_le_of_not_older (hcurrent : Span.From SessionTurn.sequence lo currentTurns)
    (hincoming : Span.From SessionTurn.sequence hi incomingTurns) (hne : incomingTurns ≠ [])
    (h : ¬isIncomingTailOlder env currentTurns incomingTurns = true) :
    currentTurns = [] ∨ lo + currentTurns.length ≤ hi + incomingTurns.length := by
  by_cases hnil : currentTurns = []
  · exact .inl hnil
  right
  have hlast := getLast?_eq_some_getLast hnil
  have hlast' := getLast?_eq_some_getLast hne
  have := hcurrent.number_last hlast
  have := hincoming.number_last hlast'
  unfold isIncomingTailOlder at h
  rw [hlast, hlast'] at h
  dsimp only at h
  split_ifs at h <;> first | omega | exact absurd rfl h

theorem sequencesOf_filter (turns : List SessionTurn) (bound q : Nat) :
    q ∈ sequencesOf (turns.filter fun turn => turn.sequence < bound) ↔ q ∈ sequencesOf turns ∧ q < bound := by
  unfold sequencesOf
  simp only [mem_map, mem_filter, decide_eq_true_eq]
  constructor
  · rintro ⟨turn, ⟨hturn, hlt⟩, rfl⟩
    exact ⟨⟨turn, hturn, rfl⟩, hlt⟩
  · rintro ⟨⟨turn, hturn, rfl⟩, hlt⟩
    exact ⟨turn, ⟨hturn, hlt⟩, rfl⟩

theorem sequences_of_areTurnListsEqual {nextTurns : List SessionTurn}
    (h : areTurnListsEqual currentTurns nextTurns = true) : sequencesOf currentTurns = sequencesOf nextTurns := by
  unfold areTurnListsEqual at h
  simp only [and_eq_true, beq_iff_eq, all_eq_true] at h
  obtain ⟨hlength, hall⟩ := h
  unfold sequencesOf
  induction currentTurns generalizing nextTurns with
  | nil =>
    rw [length_nil] at hlength
    rw [length_eq_zero_iff.mp hlength.symm]
  | cons turn rest ih =>
    cases nextTurns with
    | nil => simp at hlength
    | cons next later =>
      have hhead := hall (turn, next) (by simp)
      unfold areSessionTurnRecordsEqual at hhead
      simp only [and_eq_true, beq_iff_eq] at hhead
      simp only [length_cons, Nat.add_right_cancel_iff] at hlength
      rw [map_cons, map_cons, ih hlength fun pair hpair => hall pair (by simp [hpair])]
      rw [hhead.1.1.1.1.1.2]

theorem replaceTurnId_kept (h : Kept env w) {previousTurnId nextTurnId : String}
    (hrename : IsRename w previousTurnId nextTurnId) :
    Kept env (applied { w with ids := renamed w.ids previousTurnId nextTurnId } []
      (replaceTurnId env w.stored previousTurnId nextTurnId)).1 := by
  obtain ⟨hspan, hnamed, hstart, hbound, hempty, hfits⟩ := kept_span h
  have hids : Function.Injective (renamed w.ids previousTurnId nextTurnId) := by
    intro p q hpq
    unfold renamed at hpq
    rcases hrename with heq | hprevious | hnext
    · subst heq
      split_ifs at hpq with hp hq hq
      · exact h.ids (hp.trans hq.symm)
      · exact h.ids (hp.trans hpq)
      · exact h.ids (hpq.trans hq.symm)
      · exact h.ids hpq
    · rw [if_neg (hprevious p), if_neg (hprevious q)] at hpq
      exact h.ids hpq
    · split_ifs at hpq with hp hq hq
      · exact h.ids (hp.trans hq.symm)
      · exact absurd hpq.symm (hnext q)
      · exact absurd hpq (hnext p)
      · exact h.ids hpq
  unfold replaceTurnId
  rw [readRecord_of_kept h]
  by_cases heq : previousTurnId = nextTurnId
  · rw [if_pos heq]
    have hsame : renamed w.ids previousTurnId nextTurnId = w.ids := by
      funext q
      unfold renamed
      split <;> simp_all
    have hzero : max w.known (stopOf []) = w.known := Nat.max_zero _
    unfold applied
    dsimp only
    rw [hsame, hzero]
    exact ⟨h.ids, h.absent, h.sound⟩
  rw [if_neg heq]
  cases hstored : w.stored with
  | none => exact ⟨hids, fun _ => by simp [applied, h.absent hstored, stopOf, sequencesOf], nofun⟩
  | some record =>
    dsimp only
    have hsound := h.sound record hstored
    have hremap : ∀ turn ∈ record.turns.map (remapTurn previousTurnId nextTurnId),
        Named (renamed w.ids previousTurnId nextTurnId) turn := by
      intro turn hturn
      obtain ⟨before, hbefore, rfl⟩ := mem_map.mp hturn
      have hname := hsound.named before hbefore
      unfold Named at hname ⊢
      unfold remapTurn renamed
      split_ifs with hid hq hq <;> simp_all
    have hsequences : sequencesOf (record.turns.map (remapTurn previousTurnId nextTurnId)) =
        sequencesOf record.turns := by
      unfold sequencesOf
      rw [map_map]
      refine map_congr_left fun turn _ => ?_
      unfold Function.comp remapTurn
      split <;> rfl
    have hmem : ∀ q, q ∈ sequencesOf [] ∨
        q ∈ sequencesOf (record.turns.map (remapTurn previousTurnId nextTurnId)) ↔
          oldestOf record.turns ≤ q ∧ q < oldestOf record.turns + record.turns.length := by
      intro q
      rw [hsequences]
      have := mem_map_iff hsound.span q
      simpa [sequencesOf] using this
    generalize hnext : ({ record with
      turns := mergeTurnsById env [] (record.turns.map (remapTurn previousTurnId nextTurnId)) true
      hasMoreNewer := some (record.hasMoreNewer.getD false) } : SessionTurnsCacheRecord Session) = next
    cases hwrite : writeRecord env next none none with
    | none =>
      -- The record's session is the one the entry is for.
      exfalso
      subst hnext
      have hsession := hsound.session
      unfold writeRecord at hwrite
      cases hcase : record.session <;> simp_all
    | some written =>
      have hturns : Span.From SessionTurn.sequence (oldestOf record.turns) next.turns ∧
          next.turns.length = oldestOf record.turns + record.turns.length - oldestOf record.turns ∧
          ∀ turn ∈ next.turns, Named (renamed w.ids previousTurnId nextTurnId) turn := by
        subst hnext
        exact span_mergeTurnsById env hids (by simp) hremap true hmem
      have hzero : max w.known (stopOf []) = w.known := Nat.max_zero _
      unfold applied
      dsimp only [Option.map_some]
      rw [hzero]
      refine kept_written (w := w) hids (sound_written hwrite hturns ?_ ?_ ?_ ?_ ?_ ?_)
      · intro hlt
        exact hsound.start (ne_nil_of_length_pos (by omega))
      · intro hlt
        exact hsound.bound (ne_nil_of_length_pos (by omega))
      · intro hle
        exact hsound.empty (eq_nil_of_length_eq_zero (by omega))
      · intro hflag
        subst hnext
        rcases hsound.older hflag with hnil | hfirst
        · exact .inl (by simp [hnil])
        · exact .inr hfirst
      · intro hflag
        subst hnext
        rcases hsound.newer hflag with hnil | hstop
        · exact .inl (by simp [hnil])
        · exact .inr hstop
      · refine trims_of_fits ?_ _ _
        have := hsound.fits
        omega

theorem tail_turns (h : Kept env w)
    (hpage : IsPage w response.turns response.hasMore) (hne : response.turns ≠ [])
    (htouch : turnsOf w.stored ≠ [] → oldestOf response.turns ≤ keptStop w)
    (hnot : ¬isIncomingTailOlder env (turnsOf w.stored) response.turns = true)
    (hlo : lo = if (turnsOf w.stored).isEmpty then oldestOf response.turns
      else min (keptStart w) (oldestOf response.turns)) :
    Span.From SessionTurn.sequence lo (tailRecord env w.stored response).turns ∧
      (tailRecord env w.stored response).turns.length = stopOf response.turns - lo ∧
      ∀ turn ∈ (tailRecord env w.stored response).turns, Named w.ids turn := by
  obtain ⟨hspan, hnamed, -⟩ := kept_span h
  have hstop : keptStop w = keptStart w + (turnsOf w.stored).length := rfl
  have hpageStop := (oldestOf_page hpage hne).2
  have hreach := stop_le_of_not_older hspan hpage.span hne hnot
  unfold tailRecord reconcileTailTurns
  dsimp only
  rw [if_neg (by simpa using hne)]
  refine span_mergeTurnsById env h.ids ?_ (fun turn hturn => (hpage.server turn hturn).2.2) _ ?_
  · intro turn hturn
    exact hnamed turn (mem_of_mem_filter hturn)
  · intro q
    have hpos := length_pos_iff.mpr hne
    rw [sequencesOf_filter]
    have hinKept : q ∈ sequencesOf (turnsOf w.stored) ↔ keptStart w ≤ q ∧ q < keptStop w := mem_map_iff hspan q
    have hinPage : q ∈ sequencesOf response.turns ↔
        oldestOf response.turns ≤ q ∧ q < oldestOf response.turns + response.turns.length :=
      mem_map_iff hpage.span q
    rw [hinKept, hinPage, hlo, hpageStop]
    by_cases hkept : turnsOf w.stored = []
    · have hnone : keptStop w = keptStart w := by simp [hstop, hkept]
      simp only [hkept, isEmpty_nil, if_true]
      omega
    · have := htouch hkept
      have := hreach.resolve_left hkept
      simp only [List.isEmpty_iff, if_neg hkept]
      omega

theorem stop_le_of_older (hcurrent : Span.From SessionTurn.sequence lo currentTurns)
    (hincoming : Span.From SessionTurn.sequence hi incomingTurns)
    (h : isIncomingTailOlder env currentTurns incomingTurns = true) :
    currentTurns ≠ [] ∧ incomingTurns ≠ [] ∧ hi + incomingTurns.length ≤ lo + currentTurns.length := by
  unfold isIncomingTailOlder at h
  cases hlast : currentTurns.getLast? with
  | none => simp [hlast] at h
  | some current =>
    cases hlast' : incomingTurns.getLast? with
    | none => simp [hlast'] at h
    | some incoming =>
      have := hcurrent.number_last hlast
      have := hincoming.number_last hlast'
      refine ⟨?_, ?_, ?_⟩
      · rintro rfl
        simp at hlast
      · rintro rfl
        simp at hlast'
      · rw [hlast, hlast'] at h
        dsimp only at h
        split_ifs at h <;> omega

section

variable (h : Kept env w) (hpage : IsPage w response.turns response.hasMore)
include h hpage

theorem first_of_nextHasMoreOlder (hne : response.turns ≠ [])
    (hflag : nextHasMoreOlder w.stored response = false) :
    (if (turnsOf w.stored).isEmpty then oldestOf response.turns
      else min (keptStart w) (oldestOf response.turns)) = w.first := by
  obtain ⟨hspan, -, hstart, -⟩ := kept_span h
  have hfirst := (oldestOf_page hpage hne).1
  unfold nextHasMoreOlder at hflag
  by_cases hkept : turnsOf w.stored = []
  · simp only [hkept, isEmpty_nil, Bool.not_true, Bool.false_and, false_eq_true, if_false] at hflag
    simp only [hkept, isEmpty_nil, if_true]
    exact hpage.more hflag hne
  simp only [List.isEmpty_iff, if_neg hkept]
  dsimp only at hflag
  split at hflag
  · have := older_of_kept h hflag
    omega
  · next hnone =>
    have := hpage.more hflag hne
    have hge : oldestOf response.turns ≤ keptStart w := by
      by_contra hlt
      refine hnone ?_
      have hmem : keptStart w ∈ sequencesOf (turnsOf w.stored) := by
        have hpos := length_pos_iff.mpr hkept
        exact (mem_map_iff hspan _).mpr (by omega)
      obtain ⟨turn, hturn, hsequence⟩ := mem_map.mp hmem
      simp only [and_eq_true, not_eq_true', isEmpty_eq_false_iff, any_eq_true, decide_eq_true_eq]
      exact ⟨⟨hkept, hne⟩, turn, hturn, by omega⟩
    omega

theorem sound_tail (htouches : TailTouches env w response)
    (hnot : ¬isIncomingTailOlder env (turnsOf w.stored) response.turns = true)
    {written : SessionTurnsCacheRecord Session}
    (hwrite : writeRecord env (tailRecord env w.stored response) none none = some written) :
    Sound env w.first (max w.known (stopOf response.turns)) w.ids written := by
  obtain ⟨-, -, -, -, hempty, -⟩ := kept_span h
  rcases htouches with holder | ⟨hnil, hkept⟩ | ⟨hne, hknown, htouch, htrims⟩
  · exact absurd holder hnot
  · -- Nothing is kept and nothing comes.
    have hturns : (tailRecord env w.stored response).turns = [] := by
      unfold tailRecord reconcileTailTurns
      simp [hnil]
    have hspans : Span.From SessionTurn.sequence 0 (tailRecord env w.stored response).turns ∧
        (tailRecord env w.stored response).turns.length = 0 - 0 ∧
        ∀ turn ∈ (tailRecord env w.stored response).turns, Named w.ids turn := by
      rw [hturns]
      exact ⟨rfl, rfl, by simp⟩
    refine sound_written hwrite hspans ?_ ?_ ?_ ?_ ?_ (trims_of_fits (Nat.zero_le _) _ _)
    · omega
    · omega
    · intro _
      simp [hempty hkept, hnil, stopOf, sequencesOf]
    · exact fun _ => .inl le_rfl
    · exact fun _ => .inl le_rfl
  · have hpageStop := oldestOf_page hpage hne
    have hpos := length_pos_iff.mpr hne
    have hstart := (kept_span h).2.2.1
    have hlow : (if (turnsOf w.stored).isEmpty then oldestOf response.turns
        else min (keptStart w) (oldestOf response.turns)) < stopOf response.turns := by
      split <;> omega
    refine sound_written hwrite (tail_turns h hpage hne htouch hnot rfl) ?_ ?_ ?_ ?_ ?_ htrims
    · intro _
      split <;> omega
    · omega
    · omega
    · intro hflag
      exact .inr (first_of_nextHasMoreOlder h hpage hne hflag)
    · omega

theorem sound_same (htouches : TailTouches env w response)
    (hnot : ¬isIncomingTailOlder env (turnsOf w.stored) response.turns = true)
    (hstored : w.stored = some record)
    (hsame : sameRecord env record (tailRecord env w.stored response) response.session = true) :
    Sound env w.first (max w.known (stopOf response.turns)) w.ids record := by
  have hsound := h.sound record hstored
  have hkeptTurns : turnsOf w.stored = record.turns := by rw [hstored]; rfl
  unfold sameRecord at hsame
  simp only [and_eq_true] at hsame
  have hsequences := sequences_of_areTurnListsEqual hsame.2
  have hlengths : record.turns.length = (tailRecord env w.stored response).turns.length := by
    have := congrArg List.length hsequences
    simpa [sequencesOf] using this
  rcases htouches with holder | ⟨hnil, hkept⟩ | ⟨hne, hknown, htouch, -⟩
  · exact absurd holder hnot
  · have hzero : max w.known (stopOf response.turns) = w.known := by
      rw [hnil]
      exact Nat.max_zero _
    rw [hzero]
    exact hsound
  · obtain ⟨hfrom, hlength, -⟩ := tail_turns h hpage hne htouch hnot rfl
    have hpos := length_pos_iff.mpr hne
    have hpageStop := oldestOf_page hpage hne
    have hlow : (if (turnsOf w.stored).isEmpty then oldestOf response.turns
        else min (keptStart w) (oldestOf response.turns)) < stopOf response.turns := by
      split <;> omega
    have hturns : record.turns ≠ [] := ne_nil_of_length_pos (by omega)
    -- Both lists begin with the same sequence.
    have hfirst : oldestOf record.turns = if (turnsOf w.stored).isEmpty then oldestOf response.turns
        else min (keptStart w) (oldestOf response.turns) := by
      refine oldestOf_span ?_ hturns
      unfold Span.From at hfrom ⊢
      rw [hlengths, ← hfrom]
      exact hsequences
    have hbound := hsound.bound hturns
    exact ⟨hsound.session, hsound.span, hsound.named, hsound.start, hsound.fits, fun _ => by omega,
      fun hnil => absurd hnil hturns, hsound.older, fun _ => .inr (by omega)⟩

theorem replaceTail_kept (htouches : TailTouches env w response) :
    Kept env (applied w response.turns (replaceTail env w.stored response)).1 := by
  obtain ⟨hspan, -, -, hbound, -⟩ := kept_span h
  unfold replaceTail
  rw [readRecord_of_kept h]
  split
  · exact h
  dsimp only
  cases hstored : w.stored with
  | none =>
    have hnot : ¬isIncomingTailOlder env (turnsOf w.stored) response.turns = true := by
      simp [hstored, turnsOf, isIncomingTailOlder]
    dsimp only
    cases hwrite : writeRecord env (tailRecord env none response) none none with
    | none => exact h
    | some written => exact kept_written h.ids (sound_tail h hpage htouches hnot (hstored ▸ hwrite))
  | some record =>
    have hturns : turnsOf w.stored = record.turns := by rw [hstored]; rfl
    dsimp only
    by_cases holder : isIncomingTailOlder env record.turns response.turns = true
    · rw [holder, Bool.true_or, if_pos rfl]
      -- The page is left alone, and nothing in it is new.
      obtain ⟨hkept, hne, hle⟩ := stop_le_of_older hspan hpage.span (hturns ▸ holder)
      have hstop : stopOf response.turns ≤ keptStop w := (stopOf_span hpage.span hne).trans_le hle
      have := hbound hkept
      have hmax : max w.known (stopOf response.turns) = w.known := by omega
      unfold applied
      dsimp only
      rw [hmax, ← hstored]
      exact h
    have hnot : ¬isIncomingTailOlder env (turnsOf w.stored) response.turns = true := hturns ▸ holder
    by_cases hsame : sameRecord env record (tailRecord env (some record) response) response.session = true
    · rw [hsame, Bool.or_true, if_pos rfl]
      exact kept_written h.ids (sound_same h hpage htouches hnot hstored (hstored ▸ hsame))
    · rw [if_neg (by simp [holder, hsame])]
      cases hwrite : writeRecord env (tailRecord env (some record) response) none none with
      | none => exact h
      | some written => exact kept_written h.ids (sound_tail h hpage htouches hnot (hstored ▸ hwrite))

/-! ## Runs -/

end

theorem step_kept (h : Kept env w) {input : Input Session} (hreceives : Receives w input)
    (htouches : Touches env w input) : Kept env (step env w input).1 := by
  cases input with
  | grow => exact ⟨h.ids, h.absent, h.sound⟩
  | replaceTail response => exact replaceTail_kept h hreceives htouches
  | mergeTurns turns options => exact mergeTurns_kept h hreceives htouches
  | replaceTurnId previousTurnId nextTurnId => exact replaceTurnId_kept h hreceives
  | loadOlder response => exact loadOlder_kept h hreceives htouches

theorem noHoles_of_kept (h : Kept env w) : NoHoles w := by
  refine ⟨(kept_span h).1.isChain, ?_, ?_⟩
  · intro record hstored hflag turn hturn q hfirst hlt
    have hsound := h.sound record hstored
    rcases hsound.older hflag with hnil | holdest
    · rw [hnil] at hturn
      simp at hturn
    · have hsequence : turn.sequence ∈ sequencesOf record.turns := mem_map_of_mem hturn
      have := (mem_map_iff hsound.span _).mp hsequence
      exact (mem_map_iff hsound.span q).mpr (by omega)
  · intro record hstored hflag
    have hsound := h.sound record hstored
    rcases hsound.newer hflag with hnil | hstop
    · exact .inl (hsound.empty hnil)
    · by_cases hne : record.turns = []
      · exact .inl (hsound.empty hne)
      · right
        have hpos := length_pos_iff.mpr hne
        have hlast : w.known - 1 ∈ sequencesOf record.turns := (mem_map_iff hsound.span _).mpr (by omega)
        obtain ⟨turn, hturn, hsequence⟩ := mem_map.mp hlast
        exact ⟨turn, hturn, by omega⟩

end

end

/-- A session whose cache is empty. -/
def World.start (first stop : Nat) (ids : Nat → String) : World Session := ⟨first, stop, ids, none, 0⟩

/-- The kept turns have no hole and the flags are right, in every run whose
    pages touch what is kept and whose trimming leaves the flags right. -/
theorem turn_cache_has_no_holes {first stop : Nat} {ids : Nat → String} (hids : Function.Injective ids)
    {inputs : List (Input Session)}
    (hreceives : (turnCache env).Meets Receives (.start first stop ids) inputs)
    (htouches : (turnCache env).Meets (Touches env) (.start first stop ids) inputs) :
    NoHoles ((turnCache env).run (.start first stop ids) inputs).1 := by
  refine @noHoles_of_kept _ env _ ?_
  refine Mealy.run_invariant (m := turnCache env) (I := Kept env) ?_ ?_ (hreceives.and htouches)
  · rintro w input hkept ⟨hreceived, htouched⟩
    exact step_kept hkept hreceived htouched
  · exact ⟨hids, fun _ => rfl, nofun⟩

/-! ## Two pages -/

def plainEnv : Env Unit := ⟨fun _ => none, fun _ => true, fun _ _ => true⟩

def plainId (q : Nat) : String := String.ofList (List.replicate q 'x')

theorem plainId_injective : Function.Injective plainId := by
  intro p q h
  have := congrArg List.length (String.ofList_inj.mp h)
  simpa using this

def plainTurns (lo n : Nat) : List SessionTurn :=
  (List.range' lo n).map fun q => ⟨plainId q, q, .completed, none, "", none, .empty⟩

/-- The newest `n` turns, from `lo` on. -/
def plainTail (lo n : Nat) (hasMore : Bool) : Input Unit := .replaceTail ⟨(), plainTurns lo n, hasMore⟩

theorem isPage_plainTurns {w : World Unit} {lo n : Nat} {hasMore : Bool} (hids : w.ids = plainId)
    (hfirst : w.first ≤ lo) (hstop : lo + n ≤ w.stop) (hmore : hasMore = false → lo = w.first) :
    IsPage w (plainTurns lo n) hasMore := by
  have hspan : Span.From SessionTurn.sequence lo (plainTurns lo n) := by
    unfold Span.From plainTurns
    rw [map_map, length_map, length_range']
    exact (map_id _)
  by_cases hne : plainTurns lo n = []
  · rw [hne]
    exact ⟨by simp [OfServer], rfl, fun _ h => absurd rfl h⟩
  · have holdest := oldestOf_span hspan hne
    refine ⟨?_, holdest.symm ▸ hspan, fun hflag _ => holdest.trans (hmore hflag)⟩
    intro turn hturn
    obtain ⟨q, hq, rfl⟩ := mem_map.mp hturn
    have := mem_range'_1.mp hq
    exact ⟨by dsimp only; omega, by dsimp only; omega, by rw [hids]; rfl⟩

/-- Two turns, then a third, and the page of the last two. -/
def touchingSteps : List (Input Unit) := [plainTail 1 2 false, .grow, plainTail 2 2 true]

theorem turn_cache_has_no_holes_two_pages :
    NoHoles ((turnCache plainEnv).run (.start 1 3 plainId) touchingSteps).1 ∧
      sequencesOf (turnsOf ((turnCache plainEnv).run (.start 1 3 plainId) touchingSteps).1.stored) = [1, 2, 3] := by
  refine ⟨turn_cache_has_no_holes plainEnv plainId_injective ?_ ?_, by decide +kernel⟩
  · refine ⟨isPage_plainTurns rfl ?_ ?_ ?_, trivial, isPage_plainTurns rfl ?_ ?_ ?_, trivial⟩ <;> decide +kernel
  · refine ⟨.inr (.inr ⟨?_, ?_, ?_, ?_⟩), trivial, .inr (.inr ⟨?_, ?_, ?_, ?_⟩), trivial⟩
    · exact List.cons_ne_nil _ _
    · decide +kernel
    · exact fun h => absurd rfl h
    · exact trims_of_fits (by decide +kernel) _ _
    · exact List.cons_ne_nil _ _
    · decide +kernel
    · intro _
      decide +kernel
    · exact trims_of_fits (by decide +kernel) _ _

/-- Two turns are cached, four are added, and the page has the last two. -/
def gapSteps : List (Input Unit) := [plainTail 1 2 false, .grow, .grow, .grow, .grow, plainTail 5 2 true]

/-- Nothing says that the turns between are missing. -/
theorem replaceTail_leaves_hole :
    (turnCache plainEnv).Meets Receives (.start 1 3 plainId) gapSteps ∧
      ¬NoHoles ((turnCache plainEnv).run (.start 1 3 plainId) gapSteps).1 := by
  refine ⟨⟨isPage_plainTurns rfl ?_ ?_ ?_, trivial, trivial, trivial, trivial, isPage_plainTurns rfl ?_ ?_ ?_, trivial⟩,
    ?_⟩
  · decide +kernel
  · decide +kernel
  · decide +kernel
  · decide +kernel
  · decide +kernel
  · decide +kernel
  intro h
  have hsequences : sequencesOf (turnsOf ((turnCache plainEnv).run (.start 1 3 plainId) gapSteps).1.stored) =
      [1, 2, 5, 6] := by
    decide +kernel
  have hchain := (List.isChain_map (R := fun a b => b = a + 1) SessionTurn.sequence).2 h.consecutive
  unfold sequencesOf at hsequences
  rw [hsequences] at hchain
  revert hchain
  decide

end Cohub.Chat
