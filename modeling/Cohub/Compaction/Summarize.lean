import Mathlib
import Cohub.Compaction.Text

/-! # Summarising a history for compaction

    `summarizeForCompaction` of `apps/agent/src/runtime/compaction-summary.ts`.
    The messages to summarise are sent to a provider in requests that fit its
    window: the oldest ones are folded into a running summary, the last request
    holds the rest and, in a request of its own kind, the beginning of a turn
    that is cut (`turnPrefix`).  A request that the provider finds too long is
    made smaller; what cannot be sent is left out of the summary and listed.

    One round of the loop is `plan`, which says what is done next, and
    `answered` or `overflowed`, what the answer of the provider changes.  The
    provider is any function from the requests to answers.  The cost of the
    requests, the texts of errors and the outline of what was left out are not
    modelled. -/

namespace Cohub.Compaction

/-! ## Constants and inputs -/

def promptOverheadChars : Nat := 4000
def minChunkChars : Nat := 2000
def maxShrinks : Nat := 3
def maxSummaryUnfolds : Nat := maxShrinks + 1

/-- `PI_EMPTY_HISTORY_TEXT`. -/
def emptyHistoryText : Units := units "No prior history."

inductive RequestKind where
  | history | turnPrefix
  deriving DecidableEq

/-- What the summary is made of.  The messages are those that
    `projectForSummary` returns; `tokenRatio` is what is known of the model. -/
structure SummaryInput where
  history : List Message
  turnPrefix : List Message
  previousSummary : Option Units
  reserveTokens : Rat
  contextWindow : Rat
  maxTokens : Rat
  tokenRatio : Option Rat

/-- The numbers an overflow error may report (`parseOverflowTokens`). -/
structure OverflowTokens where
  actual     : Nat
  limit      : Option Nat
  actual_pos : 0 < actual
  limit_pos  : ∀ n ∈ limit, 0 < n

/-- The answer to a request: a text and what the request cost, an overflow, or
    another failure.  A request with a tail is two, and an overflow may be that
    of the second, for the turn prefix. -/
inductive Reply where
  | ok (text : Units) (inputTokens : Rat)
  | overflow (ofPrefix : Bool) (tokens : Option OverflowTokens)
  | failed

/-- A text that is there and not empty. -/
def isTruthy (text : Option Units) : Bool := text.any fun t => decide (t ≠ [])

/-- The length of a text that may be missing. -/
def lengthOf (text : Option Units) : Nat := (text.map List.length).getD 0

/-! ## The state -/

/-- `stats.previousSummary`. -/
inductive PreviousSummary where
  | none | kept | folded
  deriving DecidableEq

/-- The variables of the loop. -/
structure SummaryState where
  sequence : List Message
  originals : List Message
  sizes : List Nat
  prefixStart : Nat
  cursor : Nat
  running : Option Units
  unfolds : Nat
  omitted : List Message
  omittedCount : Nat
  requests : Nat
  chunks : Nat
  shrinks : Nat
  overflows : Nat
  previousSummary : PreviousSummary
  contextWindow : Rat
  ratio : Rat
  learned : Option Rat
  historyCeiling : Option Int
  prefixCeiling : Option Int

namespace SummaryState

def size (s : SummaryState) (index : Nat) : Nat := s.sizes.getD index 0

def sum (s : SummaryState) (start stop : Nat) : Nat :=
  (List.range (stop - start)).foldl (fun total i => total + s.size (start + i)) 0

/-- `ceilingChars[kind]`. -/
def ceiling (s : SummaryState) : RequestKind → Option Int
  | .history => s.historyCeiling
  | .turnPrefix => s.prefixCeiling

end SummaryState

/-! ## Budgets -/

section Rounds

variable (serialized : Message → Nat) (input : SummaryInput)

/-- The state before the loop. -/
def initial : SummaryState :=
  let originals := input.history ++ input.turnPrefix
  { sequence := originals
    originals := originals
    sizes := originals.map (serializedChars serialized)
    prefixStart := input.history.length
    cursor := 0
    running := input.previousSummary
    unfolds := 0
    omitted := []
    omittedCount := 0
    requests := 0
    chunks := 0
    shrinks := 0
    overflows := 0
    previousSummary := if isTruthy input.previousSummary then .kept else .none
    contextWindow := input.contextWindow
    ratio := input.tokenRatio.getD (3 / 2)
    learned := input.tokenRatio
    historyCeiling := none
    prefixCeiling := none }

/-- The lower of two numbers; no ceiling is no bound. -/
def lowest (a : Int) : Option Int → Int
  | none => a
  | some b => if b < a then b else a

def maxOutputTokens : Rat :=
  let bound : Rat := ⌊4 / 5 * input.reserveTokens⌋
  if 0 < input.maxTokens ∧ input.maxTokens < bound then input.maxTokens else bound

def requestBudgetChars (s : SummaryState) (kind : RequestKind) : Int :=
  lowest ⌊(s.contextWindow - maxOutputTokens input) * 4 / s.ratio⌋ (s.ceiling kind) -
    promptOverheadChars

/-- `estimateTokens`, of all characters of a request. -/
def estimateTokens (chars : Nat) : Nat := (chars + 3) / 4

def observeTokenRatio (learned : Option Rat) (estimated : Nat) (actual : Rat) (overflow : Bool) :
    Option Rat :=
  if estimated < 4096 ∨ ¬ 0 < actual then learned
  else
    let measured := actual / estimated
    let atLeast := if measured < 1 / 4 then 1 / 4 else measured
    let sample := if 8 < atLeast then 8 else atLeast
    match learned with
    | none => some sample
    | some previous =>
        if overflow then some (if previous < sample then sample else previous)
        else some (previous + 3 / 10 * (sample - previous))

/-! ## What is done next -/

def splice {α : Type} (l : List α) (index : Nat) (inserted : List α) : List α :=
  l.take index ++ inserted ++ l.drop index

/-- The messages a running summary is split into. -/
def foldedPieces (fullBudget : Int) (running : Units) : List Message :=
  splitSummary running (if fullBudget / 2 < minChunkChars then minChunkChars
    else (fullBudget / 2).toNat)

/-- The running summary becomes history again. -/
def unfoldRunning (s : SummaryState) (pieces : List Message) : SummaryState :=
  { s with
    unfolds := s.unfolds + 1
    sequence := splice s.sequence s.cursor pieces
    originals := splice s.originals s.cursor pieces
    sizes := splice s.sizes s.cursor (pieces.map (serializedChars serialized))
    prefixStart := Nat.max s.prefixStart s.cursor + pieces.length
    running := none
    previousSummary := .folded }

/-- `omit(cursor, end)`, and go on there. -/
def omitTo (s : SummaryState) (stop : Nat) : SummaryState :=
  { s with
    omitted := s.omitted ++ (s.originals.take stop).drop s.cursor
    omittedCount := s.omittedCount + (stop - s.cursor)
    cursor := stop }

/-- A message that is shrunk if it is too large. -/
def fitted (budget : Nat) (m : Message) (size : Nat) : Message :=
  if budget < size then shrinkMessage serialized m budget else m

def fittedSize (budget : Nat) (m : Message) (size : Nat) : Nat :=
  if budget < size then serializedChars serialized (shrinkMessage serialized m budget) else size

def shrinkLeft (s : SummaryState) (budget : Nat) : SummaryState :=
  { s with
    sequence := s.sequence.take s.cursor ++
      List.zipWith (fitted serialized budget) (s.sequence.drop s.cursor) (s.sizes.drop s.cursor)
    sizes := s.sizes.take s.cursor ++
      List.zipWith (fittedSize serialized budget) (s.sequence.drop s.cursor)
        (s.sizes.drop s.cursor) }

/-- The loop that looks for the longest tail, from the end down to `lower`. -/
def tailFrom (s : SummaryState) (lower : Nat) (budget : Int) : Nat → Nat → Nat
  | 0, _ => 0
  | start + 1, used =>
      if lower < start + 1 ∧ (used + s.size start : Nat) ≤ budget then
        tailFrom s lower budget start (used + s.size start)
      else start + 1

def tailStart (s : SummaryState) : Nat :=
  if input.turnPrefix = [] then s.sequence.length
  else tailFrom s (Nat.max s.prefixStart s.cursor) (requestBudgetChars input s .turnPrefix)
    s.sequence.length 0

/-- The loop that looks for the longest chunk; at most `count` messages. -/
def chunkFrom (s : SummaryState) (budget : Nat) : Nat → Nat → Nat → Nat
  | 0, stop, _ => stop
  | count + 1, stop, used =>
      if used + s.size stop ≤ budget then
        chunkFrom s budget count (stop + 1) (used + s.size stop)
      else stop

/-- The end of a chunk: one message at least. -/
def chunkEnd (s : SummaryState) (budget tailStart : Nat) : Nat :=
  Nat.max (chunkFrom s budget (tailStart - s.cursor) s.cursor 0) (s.cursor + 1)

/-- A request: the messages of both kinds, and where they end. -/
structure Request where
  chunk : List Message
  tail : List Message
  running : Option Units
  isFinal : Bool
  stop : Nat
  tailStart : Nat
  historyChars : Nat
  prefixChars : Nat
  deriving DecidableEq

/-- `requestChars[kind]`. -/
def Request.chars (r : Request) : RequestKind → Nat
  | .history => r.historyChars
  | .turnPrefix => r.prefixChars

/-- The request for what is left, with all of it shrunk. -/
def nextRequest (s : SummaryState) (historyBudget : Nat) : Request :=
  let start := tailStart input s
  let isFinal := decide (s.sum s.cursor start ≤ historyBudget)
  let stop := if isFinal then start else chunkEnd s historyBudget start
  { chunk := (s.sequence.take stop).drop s.cursor
    tail := if isFinal then s.sequence.drop start else []
    running := s.running
    isFinal := isFinal
    stop := stop
    tailStart := start
    historyChars := s.sum s.cursor stop + lengthOf s.running + promptOverheadChars
    prefixChars := s.sum start s.sequence.length + promptOverheadChars }

/-- What a round does before there is an answer. -/
inductive Plan where
  | finished
  | limitReached
  | unfold (running : Units) (pieces : List Message)
  | omitRest
  | ask (shrunk : SummaryState) (request : Request)

def requestLimit (s : SummaryState) : Nat :=
  2 * s.sequence.length + maxShrinks + maxSummaryUnfolds + 8

/-- A round of the loop up to the request. -/
def plan (s : SummaryState) : Plan :=
  if s.sequence.length ≤ s.cursor then .finished
  else if requestLimit s ≤ s.requests then .limitReached
  else
    let fullBudget := requestBudgetChars input s .history
    if isTruthy s.running ∧ fullBudget < 2 * (lengthOf s.running : Int) ∧
        s.unfolds < maxSummaryUnfolds then
      .unfold (s.running.getD []) (foldedPieces fullBudget (s.running.getD []))
    else
      let historyBudget := fullBudget - lengthOf s.running
      if historyBudget < minChunkChars then .omitRest
      else
        let shrunk := shrinkLeft serialized s historyBudget.toNat
        .ask { shrunk with requests := s.requests + 1 }
          (nextRequest input shrunk historyBudget.toNat)

/-! ## Answers -/

def finalSummary (r : Request) (text : Units) : Units :=
  -- the running summary is left out of a request without history
  if r.chunk = [] ∧ r.tail ≠ [] ∧ isTruthy r.running ∧ emptyHistoryText.isPrefixOf text then
    r.running.getD [] ++ text.drop emptyHistoryText.length
  else text

/-- A chunk was folded into the running summary. -/
def folded (s : SummaryState) (r : Request) (text : Units) (inputTokens : Rat) : SummaryState :=
  let learned := observeTokenRatio s.learned (estimateTokens r.historyChars) inputTokens false
  { s with
    running := some text
    cursor := r.stop
    chunks := s.chunks + 1
    learned := learned
    ratio := if s.shrinks = 0 then learned.getD s.ratio else s.ratio }

def failedKind (r : Request) (ofPrefix : Bool) : RequestKind :=
  if r.isFinal && ofPrefix then .turnPrefix else .history

def setCeiling (s : SummaryState) (kind : RequestKind) (chars : Int) : SummaryState :=
  match kind with
  | .history => { s with historyCeiling := some chars }
  | .turnPrefix => { s with prefixCeiling := some chars }

/-- `parsed.limit ?? contextWindow`. -/
def limitOr (tokens : OverflowTokens) (contextWindow : Rat) : Rat :=
  match tokens.limit with
  | some n => n
  | none => contextWindow

/-- The factor of a ceiling after an overflow. -/
def overflowScale (s : SummaryState) (tokens : Option OverflowTokens) : Rat :=
  let scale : Rat :=
    match tokens with
    | some t => (limitOr t s.contextWindow - maxOutputTokens input) / t.actual
    | none => 3 / 5
  let scaled := scale * (19 / 20)
  if scaled < 9 / 10 then scaled else 9 / 10

/-- What the reported numbers say about the model. -/
def recalibrate (s : SummaryState) (failedChars : Nat) (tokens : Option OverflowTokens) :
    SummaryState :=
  match tokens with
  | none => s
  | some t =>
      let estimate := estimateTokens failedChars
      let measured : Rat := t.actual / estimate
      { s with
        contextWindow :=
          match t.limit with
          | some n => if (n : Rat) < s.contextWindow then n else s.contextWindow
          | none => s.contextWindow
        learned := observeTokenRatio s.learned estimate t.actual true
        ratio := if s.ratio < measured then measured else s.ratio }

def overflowed (s : SummaryState) (r : Request) (ofPrefix : Bool) (tokens : Option OverflowTokens) :
    SummaryState :=
  let kind := failedKind r ofPrefix
  let failedChars := r.chars kind
  let s := { s with overflows := s.overflows + 1 }
  if s.shrinks < maxShrinks then
    let s := recalibrate { s with shrinks := s.shrinks + 1 } failedChars tokens
    setCeiling s kind (lowest ⌊failedChars * overflowScale input s tokens⌋ (s.ceiling kind))
  else
    match kind with
    | .turnPrefix => setCeiling s .turnPrefix (failedChars / 2 : Nat)
    | .history =>
        if r.isFinal then omitTo s (s.cursor + Nat.max 1 ((r.tailStart - s.cursor + 1) / 2))
        else omitTo s r.stop

/-! ## The loop -/

/-- How the loop ends.  The outline of the omitted messages is appended to the
    summary. -/
inductive Outcome where
  | ok (summary : Units) (omitted : List Message)
  | limitReached
  | failed
  deriving DecidableEq

/-- What happened in a round: messages were sent, with the originals of what
    was sent, or left out; the running summary became history; a request was too
    long. -/
inductive Event where
  | sent (request : Request) (originals : List Message) (text : Units)
  | omitted (originals : List Message)
  | unfolded (running : Units) (pieces : List Message)
  | overflow (request : Request) (kind : RequestKind)
  deriving DecidableEq

/-- The originals that a state has left out and another has not. -/
def newlyOmitted (s t : SummaryState) : List Event :=
  if s.cursor < t.cursor then [.omitted ((s.originals.take t.cursor).drop s.cursor)] else []

/-- The rest of a round, when there is an answer: the next state or the end. -/
def answered (s : SummaryState) (r : Request) (reply : Reply) :
    (SummaryState ⊕ Outcome) × List Event :=
  match reply with
  | .ok text inputTokens =>
      if r.isFinal then
        (.inr (.ok (finalSummary r text) s.omitted), [.sent r (s.originals.drop s.cursor) text])
      else
        (.inl (folded s r text inputTokens),
          [.sent r ((s.originals.take r.stop).drop s.cursor) text])
  | .overflow ofPrefix tokens =>
      let t := overflowed input s r ofPrefix tokens
      (.inl t, .overflow r (failedKind r ofPrefix) :: newlyOmitted s t)
  | .failed => (.inr .failed, [])

/-- The provider: an answer to every request, which may depend on how many there
    were. -/
abbrev Provider := Nat → Request → Reply

def summaryRound (provider : Provider) (s : SummaryState) : (SummaryState ⊕ Outcome) × List Event :=
  match plan serialized input s with
  | .finished => (.inr (.ok (s.running.getD emptyHistoryText) s.omitted), [])
  | .limitReached => (.inr .limitReached, [])
  | .unfold running pieces => (.inl (unfoldRunning serialized s pieces), [.unfolded running pieces])
  | .omitRest =>
      (.inl (omitTo s s.sequence.length), [.omitted (s.originals.drop s.cursor)])
  | .ask shrunk request => answered input shrunk request (provider shrunk.requests request)

/-- The loop, for some rounds at most. -/
def loop (provider : Provider) : Nat → SummaryState → Option (Outcome × List Event)
  | 0, _ => none
  | rounds + 1, s =>
      match summaryRound serialized input provider s with
      | (.inr outcome, events) => some (outcome, events)
      | (.inl t, events) => (loop provider rounds t).map fun e => (e.1, events ++ e.2)

def summarizeForCompaction (provider : Provider) (rounds : Nat) : Option (Outcome × List Event) :=
  loop serialized input provider rounds (initial serialized input)

end Rounds

/-! ## What a round can do -/

section Rules

variable (serialized : Message → Nat) (input : SummaryInput) (provider : Provider)

/-- When a state has a request asked, with a budget for its history. -/
structure Asks (s : SummaryState) (budget : Nat) : Prop where
  left  : s.cursor < s.sequence.length
  limit : s.requests < requestLimit s
  kept  : ¬ (isTruthy s.running ∧
    requestBudgetChars input s .history < 2 * (lengthOf s.running : Int) ∧
    s.unfolds < maxSummaryUnfolds)
  equal : requestBudgetChars input s .history - lengthOf s.running = budget
  room  : minChunkChars ≤ budget

/-- The state when the request is asked. -/
def asking (s : SummaryState) (budget : Nat) : SummaryState :=
  { shrinkLeft serialized s budget with requests := s.requests + 1 }

def asked (s : SummaryState) (budget : Nat) : Request :=
  nextRequest input (shrinkLeft serialized s budget) budget

/-- What is planned, with the conditions under which it is. -/
inductive Planned (s : SummaryState) : Plan → Prop
  | finished (hdone : s.sequence.length ≤ s.cursor) : Planned s .finished
  | limitReached (hleft : s.cursor < s.sequence.length)
      (hlimit : requestLimit s ≤ s.requests) : Planned s .limitReached
  | unfold (running : Units) (hleft : s.cursor < s.sequence.length)
      (hlimit : s.requests < requestLimit s) (hrunning : s.running = some running)
      (htruthy : isTruthy s.running)
      (hlong : requestBudgetChars input s .history < 2 * (lengthOf s.running : Int))
      (hunfolds : s.unfolds < maxSummaryUnfolds) :
      Planned s (.unfold running (foldedPieces (requestBudgetChars input s .history) running))
  | omitRest (hleft : s.cursor < s.sequence.length) (hlimit : s.requests < requestLimit s)
      (hbudget : requestBudgetChars input s .history - lengthOf s.running < minChunkChars) :
      Planned s .omitRest
  | ask (budget : Nat) (h : Asks input s budget) :
      Planned s (.ask (asking serialized s budget) (asked serialized input s budget))

theorem planned_plan (s : SummaryState) : Planned serialized input s (plan serialized input s) := by
  unfold plan
  split
  · next hdone => exact .finished hdone
  · next hleft =>
    rw [not_le] at hleft
    split
    · next hlimit => exact .limitReached hleft hlimit
    · next hlimit =>
      rw [not_le] at hlimit
      dsimp only
      split
      · next hunfold =>
        obtain ⟨htruthy, hlong, hunfolds⟩ := hunfold
        cases hrunning : s.running with
        | none => simp [isTruthy, hrunning] at htruthy
        | some running => exact .unfold running hleft hlimit hrunning htruthy hlong hunfolds
      · next hkept =>
        split
        · next hbudget => exact .omitRest hleft hlimit hbudget
        · next hbudget =>
          -- the budget is not negative, so it is a natural number
          have hnonneg : 0 ≤ requestBudgetChars input s .history - lengthOf s.running := by
            simp only [minChunkChars] at hbudget
            omega
          exact .ask _ ⟨hleft, hlimit, hkept, (Int.toNat_of_nonneg hnonneg).symm, by omega⟩

/-- What a round does: the next state or the end, and the events. -/
inductive Rounded (s : SummaryState) : (SummaryState ⊕ Outcome) × List Event → Prop
  | finished (hdone : s.sequence.length ≤ s.cursor) :
      Rounded s (.inr (.ok (s.running.getD emptyHistoryText) s.omitted), [])
  | limitReached (hleft : s.cursor < s.sequence.length) (hlimit : requestLimit s ≤ s.requests) :
      Rounded s (.inr .limitReached, [])
  | unfold (running : Units) (hleft : s.cursor < s.sequence.length)
      (hlimit : s.requests < requestLimit s) (hrunning : s.running = some running)
      (htruthy : isTruthy s.running)
      (hlong : requestBudgetChars input s .history < 2 * (lengthOf s.running : Int))
      (hunfolds : s.unfolds < maxSummaryUnfolds) (pieces : List Message)
      (hpieces : pieces = foldedPieces (requestBudgetChars input s .history) running) :
      Rounded s (.inl (unfoldRunning serialized s pieces), [.unfolded running pieces])
  | omitRest (hleft : s.cursor < s.sequence.length) (hlimit : s.requests < requestLimit s)
      (hbudget : requestBudgetChars input s .history - lengthOf s.running < minChunkChars) :
      Rounded s (.inl (omitTo s s.sequence.length), [.omitted (s.originals.drop s.cursor)])
  | last (budget : Nat) (h : Asks input s budget) (text : Units)
      (hfinal : (asked serialized input s budget).isFinal = true) :
      Rounded s (.inr (.ok (finalSummary (asked serialized input s budget) text) s.omitted),
        [.sent (asked serialized input s budget) (s.originals.drop s.cursor) text])
  | folded (budget : Nat) (h : Asks input s budget) (text : Units) (inputTokens : Rat)
      (hfinal : (asked serialized input s budget).isFinal = false) :
      Rounded s
        (.inl (folded (asking serialized s budget) (asked serialized input s budget) text
          inputTokens),
        [.sent (asked serialized input s budget)
          ((s.originals.take (asked serialized input s budget).stop).drop s.cursor) text])
  | overflow (budget : Nat) (h : Asks input s budget) (ofPrefix : Bool)
      (tokens : Option OverflowTokens)
      (hreply : provider (s.requests + 1) (asked serialized input s budget) =
        .overflow ofPrefix tokens) (t : SummaryState)
      (ht : t = overflowed input (asking serialized s budget) (asked serialized input s budget)
        ofPrefix tokens) :
      Rounded s (.inl t,
        .overflow (asked serialized input s budget)
          (failedKind (asked serialized input s budget) ofPrefix) ::
          newlyOmitted (asking serialized s budget) t)
  | failed (budget : Nat) (h : Asks input s budget) : Rounded s (.inr .failed, [])

theorem rounded_summaryRound (s : SummaryState) :
    Rounded serialized input provider s (summaryRound serialized input provider s) := by
  have hplanned := planned_plan serialized input s
  unfold summaryRound
  generalize plan serialized input s = planned at hplanned
  cases hplanned with
  | finished hdone => exact .finished hdone
  | limitReached hleft hlimit => exact .limitReached hleft hlimit
  | unfold running hleft hlimit hrunning htruthy hlong hunfolds =>
    exact .unfold running hleft hlimit hrunning htruthy hlong hunfolds _ rfl
  | omitRest hleft hlimit hbudget => exact .omitRest hleft hlimit hbudget
  | ask budget h =>
    cases hreply : provider (asking serialized s budget).requests
        (asked serialized input s budget) with
    | ok text inputTokens =>
      dsimp only
      rw [hreply]
      cases hfinal : (asked serialized input s budget).isFinal with
      | true =>
        simp only [answered, hfinal, if_true]
        exact .last budget h text hfinal
      | false =>
        simp only [answered, hfinal, Bool.false_eq_true, if_false]
        exact .folded budget h text inputTokens hfinal
    | overflow ofPrefix tokens =>
      dsimp only
      rw [hreply]
      exact .overflow budget h ofPrefix tokens hreply _ rfl
    | failed =>
      dsimp only
      rw [hreply]
      exact .failed budget h

variable {s : SummaryState}

theorem loop_cases {rounds : Nat} {outcome : Outcome} {events : List Event}
    (h : loop serialized input provider (rounds + 1) s = some (outcome, events)) :
    summaryRound serialized input provider s = (.inr outcome, events) ∨
      ∃ t first later, summaryRound serialized input provider s = (.inl t, first) ∧
        loop serialized input provider rounds t = some (outcome, later) ∧
        events = first ++ later := by
  rw [loop] at h
  cases hround : summaryRound serialized input provider s with
  | mk result first =>
    rw [hround] at h
    cases result with
    | inr ended =>
      simp only [Option.some.injEq, Prod.mk.injEq] at h
      obtain ⟨rfl, rfl⟩ := h
      exact .inl rfl
    | inl t =>
      simp only [Option.map_eq_some_iff, Prod.exists, Prod.mk.injEq] at h
      obtain ⟨_, later, hlater, rfl, rfl⟩ := h
      exact .inr ⟨t, first, later, rfl, hlater, rfl⟩

structure SameMessages (s t : SummaryState) : Prop where
  sequence : t.sequence = s.sequence
  originals : t.originals = s.originals
  sizes : t.sizes = s.sizes
  prefixStart : t.prefixStart = s.prefixStart
  cursor : t.cursor = s.cursor
  running : t.running = s.running
  unfolds : t.unfolds = s.unfolds
  omitted : t.omitted = s.omitted
  requests : t.requests = s.requests

/-- Where an overflow of the history leaves messages out to. -/
def dropEnd (s : SummaryState) (r : Request) : Nat :=
  if r.isFinal then s.cursor + Nat.max 1 ((r.tailStart - s.cursor + 1) / 2) else r.stop

theorem sameMessages_setCeiling (s : SummaryState) (kind : RequestKind) (chars : Int) :
    SameMessages s (setCeiling s kind chars) := by
  cases kind <;> constructor <;> rfl

theorem sameMessages_recalibrate (s : SummaryState) (chars : Nat) (tokens : Option OverflowTokens) :
    SameMessages s (recalibrate s chars tokens) := by
  cases tokens <;> constructor <;> rfl

theorem SameMessages.trans {t u : SummaryState} (h : SameMessages s t) (h' : SameMessages t u) :
    SameMessages s u where
  sequence := h'.sequence.trans h.sequence
  originals := h'.originals.trans h.originals
  sizes := h'.sizes.trans h.sizes
  prefixStart := h'.prefixStart.trans h.prefixStart
  cursor := h'.cursor.trans h.cursor
  running := h'.running.trans h.running
  unfolds := h'.unfolds.trans h.unfolds
  omitted := h'.omitted.trans h.omitted
  requests := h'.requests.trans h.requests

variable {r : Request} {ofPrefix : Bool} (tokens : Option OverflowTokens)

theorem overflowed_history (hshrinks : maxShrinks ≤ s.shrinks)
    (hkind : failedKind r ofPrefix = .history) :
    overflowed input s r ofPrefix tokens =
      omitTo { s with overflows := s.overflows + 1 } (dropEnd s r) := by
  unfold overflowed
  dsimp only [dropEnd]
  rw [if_neg (Nat.not_lt.mpr hshrinks), hkind]
  cases r.isFinal <;> rfl

theorem overflowed_turnPrefix (hshrinks : maxShrinks ≤ s.shrinks)
    (hkind : failedKind r ofPrefix = .turnPrefix) :
    overflowed input s r ofPrefix tokens =
      { s with overflows := s.overflows + 1, prefixCeiling := some (r.prefixChars / 2 : Nat) } := by
  unfold overflowed
  dsimp only
  rw [if_neg (Nat.not_lt.mpr hshrinks), hkind]
  rfl

theorem overflowed_cases (s : SummaryState) (r : Request) (ofPrefix : Bool)
    (tokens : Option OverflowTokens) :
    SameMessages s (overflowed input s r ofPrefix tokens) ∨
      (maxShrinks ≤ s.shrinks ∧ failedKind r ofPrefix = .history ∧
        overflowed input s r ofPrefix tokens =
          omitTo { s with overflows := s.overflows + 1 } (dropEnd s r)) := by
  have hcounted : SameMessages s { s with overflows := s.overflows + 1 } := by constructor <;> rfl
  unfold overflowed
  dsimp only
  split
  · refine .inl (SameMessages.trans ?_ (sameMessages_setCeiling _ _ _))
    refine SameMessages.trans ?_ (sameMessages_recalibrate _ _ _)
    constructor <;> rfl
  · next hshrinks =>
    rw [not_lt] at hshrinks
    cases hkind : failedKind r ofPrefix with
    | turnPrefix => exact .inl (hcounted.trans (sameMessages_setCeiling _ .turnPrefix _))
    | history =>
      have homit := overflowed_history input tokens hshrinks hkind
      unfold overflowed at homit
      dsimp only at homit
      rw [if_neg (Nat.not_lt.mpr hshrinks), hkind] at homit
      exact .inr ⟨hshrinks, rfl, homit⟩

end Rules

end Cohub.Compaction
