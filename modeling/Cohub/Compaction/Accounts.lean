import Cohub.Compaction.Summarize

/-! # Every message is accounted for

    In a run that ends well, the messages of the history and of the turn prefix
    are, in their order, those that were sent, each in one request that was
    answered, and those that were left out.  A previous summary is the running
    summary of the first request, or it becomes history as a whole; the last
    summary is made from the latest running summary. -/

namespace Cohub.Compaction

open List

/-! ## What a round can do -/

section Rounds

variable {serialized : Message → Nat} {input : SummaryInput} {provider : Provider}

def Shortened (serialized : Message → Nat) (a b : Message) : Prop :=
  Relation.ReflTransGen (fun a b => ∃ n, b = shrinkMessage serialized a n) a b

/-- A state before a round: the sequence holds the originals, some of them
    shortened. -/
structure Aligned (serialized : Message → Nat) (s : SummaryState) : Prop where
  shortened : List.Forall₂ (Shortened serialized) s.originals s.sequence
  sizes     : s.sizes.length = s.sequence.length
  cursor_le : s.cursor ≤ s.sequence.length

variable {s : SummaryState}

theorem Aligned.length (h : Aligned serialized s) :
    s.originals.length = s.sequence.length := h.shortened.length_eq

theorem aligned_initial : Aligned serialized (initial serialized input) where
  shortened := forall₂_same.mpr fun _ _ => Relation.ReflTransGen.refl
  sizes := by simp [initial]
  cursor_le := Nat.zero_le _

/-! ### The fields a step leaves alone -/

section Fields

variable (s : SummaryState)

@[simp] theorem originals_shrinkLeft (budget : Nat) :
    (shrinkLeft serialized s budget).originals = s.originals := rfl

@[simp] theorem cursor_shrinkLeft (budget : Nat) :
    (shrinkLeft serialized s budget).cursor = s.cursor := rfl

@[simp] theorem running_shrinkLeft (budget : Nat) :
    (shrinkLeft serialized s budget).running = s.running := rfl

@[simp] theorem omitted_shrinkLeft (budget : Nat) :
    (shrinkLeft serialized s budget).omitted = s.omitted := rfl

end Fields

theorem fitted_shortened (budget : Nat) (m : Message) (size : Nat) :
    Shortened serialized m (fitted serialized budget m size) := by
  unfold fitted
  split
  · exact Relation.ReflTransGen.single ⟨budget, rfl⟩
  · exact Relation.ReflTransGen.refl

theorem shortened_zipWith (budget : Nat) : ∀ {originals messages : List Message} {sizes : List Nat},
    List.Forall₂ (Shortened serialized) originals messages → sizes.length = messages.length →
    List.Forall₂ (Shortened serialized) originals
      (zipWith (fitted serialized budget) messages sizes)
  | _, _, [], .nil, _ => .nil
  | _, _, _ :: sizes, .cons h hrest, hlength =>
      .cons (h.trans (fitted_shortened budget _ _))
        (shortened_zipWith budget hrest (Nat.succ.inj hlength))

theorem aligned_shrinkLeft (h : Aligned serialized s) (budget : Nat) :
    Aligned serialized (shrinkLeft serialized s budget) := by
  have hsizes := h.sizes
  have hdrop : (s.sizes.drop s.cursor).length = (s.sequence.drop s.cursor).length := by
    rw [length_drop, length_drop, hsizes]
  have hzip := shortened_zipWith budget (forall₂_drop s.cursor h.shortened) hdrop
  constructor
  · show List.Forall₂ _ s.originals _
    rw [← take_append_drop s.cursor s.originals]
    exact rel_append (forall₂_take s.cursor h.shortened) hzip
  · simp only [shrinkLeft, length_append, length_take, length_zipWith, hdrop]
    omega
  · have hle := h.cursor_le
    simp only [shrinkLeft, length_append, length_take, length_zipWith, hdrop,
      length_drop]
    omega

theorem aligned_unfoldRunning (h : Aligned serialized s) (pieces : List Message) :
    Aligned serialized (unfoldRunning serialized s pieces) := by
  have hsame : List.Forall₂ (Shortened serialized) pieces pieces :=
    forall₂_same.mpr fun _ _ => Relation.ReflTransGen.refl
  have hsizes := h.sizes
  have hle := h.cursor_le
  constructor
  · exact rel_append (rel_append (forall₂_take _ h.shortened) hsame)
      (forall₂_drop _ h.shortened)
  · simp [unfoldRunning, splice, hsizes]
  · simp only [unfoldRunning, splice, length_append, length_take, length_drop]
    omega

/-! ## What a request holds -/

theorem tailFrom_le (s : SummaryState) (lower : Nat) (budget : Int) :
    ∀ start used, tailFrom s lower budget start used ≤ start
  | 0, _ => le_refl 0
  | start + 1, used => by
    unfold tailFrom
    split
    · exact Nat.le_succ_of_le (tailFrom_le s lower budget start _)
    · exact le_rfl

theorem le_tailFrom (s : SummaryState) {bound lower : Nat} (budget : Int) (hbound : bound ≤ lower) :
    ∀ start used, bound ≤ start → bound ≤ tailFrom s lower budget start used
  | 0, _, h => h
  | start + 1, used, h => by
    unfold tailFrom
    split
    · next hnext => exact le_tailFrom s budget hbound start _ (by omega)
    · exact h

theorem tailStart_le (s : SummaryState) : tailStart input s ≤ s.sequence.length := by
  unfold tailStart
  split
  · exact le_rfl
  · exact tailFrom_le s _ _ _ _

theorem cursor_le_tailStart (h : s.cursor ≤ s.sequence.length) : s.cursor ≤ tailStart input s := by
  unfold tailStart
  split
  · exact h
  · exact le_tailFrom s _ (le_max_right _ _) _ _ h

theorem chunkFrom_le (s : SummaryState) (budget : Nat) :
    ∀ count stop used, chunkFrom s budget count stop used ≤ stop + count
  | 0, _, _ => le_rfl
  | count + 1, stop, used => by
    unfold chunkFrom
    split
    · have := chunkFrom_le s budget count (stop + 1) (used + s.size stop)
      omega
    · omega

/-- What a request takes of what is left. -/
structure Takes (s : SummaryState) (r : Request) : Prop where
  running : r.running = s.running
  stop_gt : r.isFinal = false → s.cursor < r.stop
  stop_le : r.stop ≤ s.sequence.length
  cursor_le : s.cursor ≤ r.tailStart
  tail_le : r.tailStart ≤ s.sequence.length
  holds_all : r.isFinal = true → r.chunk ++ r.tail = s.sequence.drop s.cursor
  holds_some : r.isFinal = false → r.chunk ++ r.tail = (s.sequence.take r.stop).drop s.cursor

theorem takes_nextRequest (h : s.cursor < s.sequence.length) (budget : Nat) :
    Takes s (nextRequest input s budget) where
  running := rfl
  stop_gt hfinal := by
    have hnot : ¬ s.sum s.cursor (tailStart input s) ≤ budget := of_decide_eq_false hfinal
    simp only [nextRequest, hnot, decide_false, Bool.false_eq_true, if_false, chunkEnd]
    exact lt_of_lt_of_le (Nat.lt_succ_self _) (le_max_right _ _)
  stop_le := by
    have htail : tailStart input s ≤ s.sequence.length := tailStart_le s
    have hcursor : s.cursor ≤ tailStart input s := cursor_le_tailStart (le_of_lt h)
    have hchunk := chunkFrom_le s budget (tailStart input s - s.cursor) s.cursor 0
    simp only [nextRequest]
    split
    · exact htail
    · exact Nat.max_le.mpr ⟨by omega, h⟩
  cursor_le := cursor_le_tailStart (le_of_lt h)
  tail_le := tailStart_le s
  holds_all hfinal := by
    have hcursor : s.cursor ≤ tailStart input s := cursor_le_tailStart (le_of_lt h)
    have hsum : s.sum s.cursor (tailStart input s) ≤ budget := of_decide_eq_true hfinal
    simp only [nextRequest, hsum, decide_true, if_true]
    conv_rhs => rw [← take_append_drop (tailStart input s) s.sequence]
    rw [drop_append_of_le_length]
    rw [length_take]
    exact Nat.le_min.mpr ⟨hcursor, le_of_lt h⟩
  holds_some hfinal := by
    have hnot : ¬ s.sum s.cursor (tailStart input s) ≤ budget := of_decide_eq_false hfinal
    simp only [nextRequest, hnot, decide_false, Bool.false_eq_true, if_false, append_nil]

/-! ## What the events say -/

/-- The messages that are left are those the events take, in their order; the
    pieces of a running summary go before them. -/
def Accounts : List Message → List Event → Prop
  | pending, [] => pending = []
  | pending, .sent _ originals _ :: events =>
      ∃ later, pending = originals ++ later ∧ Accounts later events
  | pending, .omitted originals :: events =>
      ∃ later, pending = originals ++ later ∧ Accounts later events
  | pending, .unfolded _ pieces :: events => Accounts (pieces ++ pending) events
  | pending, .overflow _ _ :: events => Accounts pending events

/-- The messages of the input among those that are sent or left out, with as
    many pieces before them as are waiting. -/
def inputMessages : Nat → List Event → List Message
  | _, [] => []
  | waiting, .sent _ originals _ :: events =>
      originals.drop waiting ++ inputMessages (waiting - originals.length) events
  | waiting, .omitted originals :: events =>
      originals.drop waiting ++ inputMessages (waiting - originals.length) events
  | waiting, .unfolded _ pieces :: events => inputMessages (waiting + pieces.length) events
  | waiting, .overflow _ _ :: events => inputMessages waiting events

/-- The originals of a message that is left out. -/
def Event.leftOut : Event → List Message
  | .omitted originals => originals
  | _ => []

def leftOutBy (events : List Event) : List Message := events.flatMap Event.leftOut

@[simp] theorem leftOutBy_append (before after : List Event) :
    leftOutBy (before ++ after) = leftOutBy before ++ leftOutBy after := flatMap_append

def afterEvent (running : Option Units) : Event → Option Units
  | .sent _ _ text => some text
  | .unfolded _ _ => none
  | _ => running

/-- The running summary after some events. -/
def runningAfter (running : Option Units) (events : List Event) : Option Units :=
  events.foldl afterEvent running

@[simp] theorem runningAfter_append (running : Option Units) (before after : List Event) :
    runningAfter running (before ++ after) = runningAfter (runningAfter running before) after :=
  foldl_append

/-- The messages that stand for a running summary: parts with their headers, that
    are the whole summary but for line breaks. -/
def Folds (running : Units) (pieces : List Message) : Prop :=
  ∃ parts : List Units,
    pieces = parts.zipIdx.map (fun e =>
      textMessage .user (pieceHeader e.2 parts.length ++ e.1)) ∧
    withoutBreaks parts.flatten = withoutBreaks running

/-- An event has the running summary at hand: a request passes it on, or all of
    it becomes history. -/
def PassesOn (running : Option Units) : Event → Prop
  | .sent r _ _ => r.running = running
  | .overflow r _ => r.running = running
  | .unfolded text pieces => running = some text ∧ Folds text pieces
  | .omitted _ => True

/-- The same for events one after the other. -/
def PassOn : Option Units → List Event → Prop
  | _, [] => True
  | running, event :: events => PassesOn running event ∧ PassOn (afterEvent running event) events

/-- A request that was answered holds the messages, some of them shortened. -/
def HoldsShortened (serialized : Message → Nat) : Event → Prop
  | .sent r originals _ =>
      List.Forall₂ (Shortened serialized) originals (r.chunk ++ r.tail)
  | _ => True

/-- The last request was answered. -/
def Event.isLast : Event → Bool
  | .sent r _ _ => r.isFinal
  | _ => false

/-- Where the last summary comes from: the answer to the last request, which had
    the latest running summary, or that summary itself. -/
def SummarizedBy (previous : Option Units) (events : List Event) (summary : Units) : Prop :=
  (∃ before r originals text, events = before ++ [.sent r originals text] ∧ r.isFinal = true ∧
    r.running = runningAfter previous before ∧ summary = finalSummary r text) ∨
  ((∀ event ∈ events, event.isLast = false) ∧
    summary = (runningAfter previous events).getD emptyHistoryText)

/-! ## What a round keeps -/

theorem passOn_append (running : Option Units) (before after : List Event) :
    PassOn running (before ++ after) ↔
      PassOn running before ∧ PassOn (runningAfter running before) after := by
  induction before generalizing running with
  | nil => exact (true_and _).symm ▸ Iff.rfl
  | cons event before ih =>
    rw [cons_append, PassOn, PassOn, ih, and_assoc]
    rfl

/-- A round whose events tell what it did. -/
structure Tells (serialized : Message → Nat) (s t : SummaryState) (events : List Event) : Prop where
  aligned  : Aligned serialized t
  accounts : ∀ later, Accounts (t.originals.drop t.cursor) later →
    Accounts (s.originals.drop s.cursor) (events ++ later)
  leftOut  : t.omitted = s.omitted ++ leftOutBy events
  passOn   : PassOn s.running events
  running  : t.running = runningAfter s.running events
  holds    : ∀ event ∈ events, HoldsShortened serialized event
  goesOn   : ∀ event ∈ events, event.isLast = false

variable {t : SummaryState} {r : Request} {summary : Units} {events : List Event}
    {omitted : List Message} {before after : List Event} {stop budget : Nat}

theorem Tells.trans {u : SummaryState}
    (h : Tells serialized s t before) (h' : Tells serialized t u after) :
    Tells serialized s u (before ++ after) where
  aligned := h'.aligned
  accounts later hlater := by
    rw [append_assoc]
    exact h.accounts _ (h'.accounts later hlater)
  leftOut := by rw [h'.leftOut, h.leftOut, leftOutBy_append, append_assoc]
  passOn := (passOn_append _ _ _).mpr ⟨h.passOn, h.running ▸ h'.passOn⟩
  running := by rw [h'.running, h.running, runningAfter_append]
  holds event hmem := (mem_append.mp hmem).elim (h.holds event) (h'.holds event)
  goesOn event hmem := (mem_append.mp hmem).elim (h.goesOn event) (h'.goesOn event)

theorem tells_nothing (h : Aligned serialized t)
    (horiginals : t.originals = s.originals) (hcursor : t.cursor = s.cursor)
    (homitted : t.omitted = s.omitted) (hrunning : t.running = s.running) :
    Tells serialized s t [] where
  aligned := h
  accounts later hlater := by rwa [horiginals, hcursor] at hlater
  leftOut := homitted.trans (append_nil _).symm
  passOn := trivial
  running := hrunning
  holds _ hmem := absurd hmem not_mem_nil
  goesOn _ hmem := absurd hmem not_mem_nil

theorem SameMessages.aligned (h : SameMessages s t)
    (hs : Aligned serialized s) : Aligned serialized t where
  shortened := by rw [h.originals, h.sequence]; exact hs.shortened
  sizes := by rw [h.sizes, h.sequence]; exact hs.sizes
  cursor_le := by rw [h.cursor, h.sequence]; exact hs.cursor_le

theorem drop_eq_append {α : Type} {l : List α} {cursor : Nat} (h : cursor ≤ stop) :
    l.drop cursor = (l.take stop).drop cursor ++ l.drop stop := by
  rcases le_total stop l.length with hstop | hstop
  · conv_lhs => rw [← take_append_drop stop l]
    rw [drop_append_of_le_length]
    rwa [length_take, min_eq_left hstop]
  · rw [take_of_length_le hstop, drop_eq_nil_of_le hstop, append_nil]

theorem tells_unfold (hs : Aligned serialized s) {running : Units}
    {pieces : List Message} (hrunning : s.running = some running) (hfolds : Folds running pieces) :
    Tells serialized s (unfoldRunning serialized s pieces) [.unfolded running pieces] where
  aligned := aligned_unfoldRunning hs pieces
  accounts later hlater := by
    have hcursor : (s.originals.take s.cursor).length = s.cursor := by
      have hle := hs.cursor_le
      rw [length_take, hs.length]
      omega
    have hdrop : (splice s.originals s.cursor pieces).drop s.cursor =
        pieces ++ s.originals.drop s.cursor := by
      unfold splice
      rw [append_assoc]
      exact drop_left' hcursor
    show Accounts (pieces ++ s.originals.drop s.cursor) later
    rw [← hdrop]
    exact hlater
  leftOut := (append_nil _).symm
  passOn := ⟨⟨hrunning, hfolds⟩, trivial⟩
  running := rfl
  holds event hmem := by
    rw [mem_singleton.mp hmem]
    trivial
  goesOn event hmem := by
    rw [mem_singleton.mp hmem]
    rfl

theorem tells_omitTo (hs : Aligned serialized s)
    (hstop : s.cursor ≤ stop) (hle : stop ≤ s.sequence.length) :
    Tells serialized s (omitTo s stop) [.omitted ((s.originals.take stop).drop s.cursor)] where
  aligned := ⟨hs.shortened, hs.sizes, hle⟩
  accounts later hlater := ⟨s.originals.drop stop, drop_eq_append hstop, hlater⟩
  leftOut := congrArg _ (append_nil _).symm
  passOn := ⟨trivial, trivial⟩
  running := rfl
  holds event hmem := by
    rw [mem_singleton.mp hmem]
    trivial
  goesOn event hmem := by
    rw [mem_singleton.mp hmem]
    rfl

theorem tells_overflow (hs : Aligned serialized s)
    (hrunning : r.running = s.running) (kind : RequestKind) :
    Tells serialized s s [.overflow r kind] where
  aligned := hs
  accounts _ hlater := hlater
  leftOut := (append_nil _).symm
  passOn := ⟨hrunning, trivial⟩
  running := rfl
  holds event hmem := by
    rw [mem_singleton.mp hmem]
    trivial
  goesOn event hmem := by
    rw [mem_singleton.mp hmem]
    rfl

theorem tells_folded (hs : Aligned serialized s)
    (htakes : Takes s r) (hfinal : r.isFinal = false) (text : Units) (inputTokens : Rat) :
    Tells serialized s (folded s r text inputTokens)
      [.sent r ((s.originals.take r.stop).drop s.cursor) text] where
  aligned := ⟨hs.shortened, hs.sizes, htakes.stop_le⟩
  accounts later hlater :=
    ⟨s.originals.drop r.stop, drop_eq_append (le_of_lt (htakes.stop_gt hfinal)), hlater⟩
  leftOut := (append_nil _).symm
  passOn := ⟨htakes.running, trivial⟩
  running := rfl
  holds event hmem := by
    rw [mem_singleton.mp hmem, HoldsShortened, htakes.holds_some hfinal]
    exact forall₂_drop _ (forall₂_take _ hs.shortened)
  goesOn event hmem := by
    rw [mem_singleton.mp hmem]
    exact hfinal

theorem folds_splitSummary (running : Units) {maxChars : Nat} (hmax : 0 < maxChars) :
    Folds running (splitSummary running maxChars) :=
  ⟨summaryPieces running maxChars, rfl, withoutBreaks_summaryPieces running hmax⟩

theorem folds_foldedPieces (running : Units) (fullBudget : Int) :
    Folds running (foldedPieces fullBudget running) := by
  apply folds_splitSummary
  split
  · decide
  · next hbudget =>
    simp only [minChunkChars] at hbudget
    omega

theorem tells_asking (hs : Aligned serialized s) (budget : Nat) :
    Tells serialized s (asking serialized s budget) [] := by
  have haligned := aligned_shrinkLeft hs budget
  exact tells_nothing ⟨haligned.shortened, haligned.sizes, haligned.cursor_le⟩ rfl rfl rfl rfl

theorem asking_left (hs : Aligned serialized s) (h : Asks input s budget) :
    (asking serialized s budget).cursor < (asking serialized s budget).sequence.length := by
  have hlength := (tells_asking hs budget).aligned.length
  rw [← hlength, show (asking serialized s budget).originals = s.originals from rfl, hs.length]
  exact h.left

theorem takes_asked (hs : Aligned serialized s) (h : Asks input s budget) :
    Takes (asking serialized s budget) (asked serialized input s budget) := by
  have hleft : (shrinkLeft serialized s budget).cursor <
      (shrinkLeft serialized s budget).sequence.length := asking_left hs h
  have htakes : Takes (shrinkLeft serialized s budget) (asked serialized input s budget) :=
    takes_nextRequest hleft budget
  exact ⟨htakes.running, htakes.stop_gt, htakes.stop_le, htakes.cursor_le, htakes.tail_le,
    htakes.holds_all, htakes.holds_some⟩

theorem dropEnd_bounds (htakes : Takes s r) (hleft : s.cursor < s.sequence.length) :
    s.cursor < dropEnd s r ∧ dropEnd s r ≤ s.sequence.length := by
  unfold dropEnd
  cases hfinal : r.isFinal with
  | false => exact ⟨htakes.stop_gt hfinal, htakes.stop_le⟩
  | true =>
    have hcursor := htakes.cursor_le
    have htail := htakes.tail_le
    have hpos := le_max_left 1 ((r.tailStart - s.cursor + 1) / 2)
    have hmax : Nat.max 1 ((r.tailStart - s.cursor + 1) / 2) ≤ s.sequence.length - s.cursor :=
      Nat.max_le.mpr ⟨by omega, by omega⟩
    rw [if_pos rfl]
    exact ⟨Nat.lt_add_of_pos_right hpos, by omega⟩

theorem tells_overflowed (hs : Aligned serialized s) (htakes : Takes s r)
    (hleft : s.cursor < s.sequence.length) (ofPrefix : Bool) (tokens : Option OverflowTokens) :
    Tells serialized s (overflowed input s r ofPrefix tokens)
      (.overflow r (failedKind r ofPrefix) ::
        newlyOmitted s (overflowed input s r ofPrefix tokens)) := by
  have hoverflow := tells_overflow hs htakes.running (failedKind r ofPrefix)
  rcases overflowed_cases input s r ofPrefix tokens with hsame | ⟨-, -, homit⟩
  · have hnothing := tells_nothing (hsame.aligned hs) hsame.originals hsame.cursor hsame.omitted
      hsame.running
    rw [newlyOmitted, hsame.cursor, if_neg (lt_irrefl _)]
    exact hoverflow.trans hnothing
  · obtain ⟨hlt, hle⟩ := dropEnd_bounds htakes hleft
    have hcounted : Aligned serialized { s with overflows := s.overflows + 1 } :=
      ⟨hs.shortened, hs.sizes, hs.cursor_le⟩
    have hdropped := tells_omitTo hcounted (le_of_lt hlt) hle
    have hmoved : s.cursor <
        (omitTo { s with overflows := s.overflows + 1 } (dropEnd s r)).cursor := hlt
    rw [newlyOmitted, homit, if_pos hmoved]
    have hsame : Tells serialized s { s with overflows := s.overflows + 1 } [] :=
      tells_nothing hcounted rfl rfl rfl rfl
    exact hoverflow.trans (hsame.trans hdropped)

/-- The rest of a run that ends well. -/
structure Accounted (serialized : Message → Nat) (s : SummaryState) (summary : Units)
    (omitted : List Message) (events : List Event) : Prop where
  accounts : Accounts (s.originals.drop s.cursor) events
  leftOut : omitted = s.omitted ++ leftOutBy events
  passOn : PassOn s.running events
  holds : ∀ event ∈ events, HoldsShortened serialized event
  summarized : SummarizedBy s.running events summary

theorem summarizedBy_append {previous : Option Units}
    (hgoesOn : ∀ event ∈ before, event.isLast = false)
    (h : SummarizedBy (runningAfter previous before) after summary) :
    SummarizedBy previous (before ++ after) summary := by
  rcases h with ⟨between, r, originals, text, rfl, hfinal, hrunning, hsummary⟩ | ⟨hlater, hsummary⟩
  · refine .inl ⟨before ++ between, r, originals, text, ?_, hfinal, ?_, hsummary⟩
    · rw [append_assoc]
    · rw [runningAfter_append, hrunning]
  · refine .inr ⟨?_, ?_⟩
    · intro event hmem
      exact (mem_append.mp hmem).elim (hgoesOn event) (hlater event)
    · rw [runningAfter_append, hsummary]

theorem Tells.accounted {later : List Event} (h : Tells serialized s t events)
    (hlater : Accounted serialized t summary omitted later) :
    Accounted serialized s summary omitted (events ++ later) where
  accounts := h.accounts later hlater.accounts
  leftOut := by rw [hlater.leftOut, h.leftOut, leftOutBy_append, append_assoc]
  passOn := (passOn_append _ _ _).mpr ⟨h.passOn, h.running ▸ hlater.passOn⟩
  holds event hmem := (mem_append.mp hmem).elim (h.holds event) (hlater.holds event)
  summarized := summarizedBy_append h.goesOn (h.running ▸ hlater.summarized)

theorem tells_summaryRound (hs : Aligned serialized s)
    (h : summaryRound serialized input provider s = (.inl t, events)) :
    Tells serialized s t events := by
  have hrounded := rounded_summaryRound serialized input provider s
  rw [h] at hrounded
  cases hrounded with
  | unfold running _ _ hrunning _ _ _ pieces hpieces =>
    rw [hpieces]
    exact tells_unfold hs hrunning (folds_foldedPieces running _)
  | omitRest =>
    have hall := tells_omitTo hs hs.cursor_le le_rfl
    rwa [← hs.length, take_length, hs.length] at hall
  | folded budget hasks text inputTokens hfinal =>
    have hasking := tells_asking hs budget
    exact hasking.trans (tells_folded hasking.aligned (takes_asked hs hasks) hfinal text inputTokens)
  | overflow budget hasks ofPrefix tokens _ _ ht =>
    have hasking := tells_asking hs budget
    rw [ht]
    exact hasking.trans (tells_overflowed hasking.aligned (takes_asked hs hasks)
      (asking_left hs hasks) ofPrefix tokens)

theorem accounted_summaryRound (hs : Aligned serialized s)
    (h : summaryRound serialized input provider s = (.inr (.ok summary omitted), events)) :
    Accounted serialized s summary omitted events := by
  have hrounded := rounded_summaryRound serialized input provider s
  rw [h] at hrounded
  cases hrounded with
  | finished hdone =>
    constructor
    · exact drop_eq_nil_of_le (hs.length ▸ hdone)
    · exact (append_nil _).symm
    · trivial
    · intro event hmem
      exact absurd hmem not_mem_nil
    · exact .inr ⟨fun event hmem => absurd hmem not_mem_nil, rfl⟩
  | last budget hasks text hfinal =>
    have hasking := tells_asking hs budget
    have htakes := takes_asked hs hasks
    refine hasking.accounted ⟨⟨[], (append_nil _).symm, rfl⟩, (append_nil _).symm,
      ⟨htakes.running, trivial⟩, ?_, .inl ⟨[], _, _, text, rfl, hfinal, htakes.running, rfl⟩⟩
    intro event hmem
    rw [mem_singleton.mp hmem, HoldsShortened, htakes.holds_all hfinal]
    exact forall₂_drop _ hasking.aligned.shortened

theorem accounted_loop :
    ∀ (rounds : Nat) {s : SummaryState} {events : List Event}, Aligned serialized s →
      loop serialized input provider rounds s = some (.ok summary omitted, events) →
      Accounted serialized s summary omitted events
  | 0, _, _, _, h => by simp [loop] at h
  | rounds + 1, s, events, hs, h => by
    rcases loop_cases serialized input provider h with hend | ⟨t, first, later, hround, hlater, rfl⟩
    · exact accounted_summaryRound hs hend
    · have htells := tells_summaryRound hs hround
      exact htells.accounted (accounted_loop rounds htells.aligned hlater)

/-! ## Every message -/

theorem inputMessages_of_accounts : ∀ (events : List Event) (pieces messages : List Message),
    Accounts (pieces ++ messages) events → inputMessages pieces.length events = messages
  | [], pieces, messages, h => (append_eq_nil_iff.mp h).2.symm
  | .overflow _ _ :: events, pieces, messages, h => inputMessages_of_accounts events pieces messages h
  | .unfolded _ added :: events, pieces, messages, h => by
    have hall : Accounts (added ++ pieces ++ messages) events := by
      rw [append_assoc]
      exact h
    have hrest := inputMessages_of_accounts events (added ++ pieces) messages hall
    rwa [length_append, add_comm] at hrest
  | .sent r originals text :: events, pieces, messages, h => by
    obtain ⟨later, heq, hlater⟩ := h
    exact taken events heq hlater
  | .omitted originals :: events, pieces, messages, h => by
    obtain ⟨later, heq, hlater⟩ := h
    exact taken events heq hlater
where
  /-- What an event takes is pieces first, then messages of the input. -/
  taken (events : List Event) {pieces messages originals later : List Message}
      (heq : pieces ++ messages = originals ++ later) (hlater : Accounts later events) :
      originals.drop pieces.length ++ inputMessages (pieces.length - originals.length) events =
        messages := by
    rcases List.append_eq_append_iff.mp heq with ⟨between, rfl, rfl⟩ | ⟨between, rfl, rfl⟩
    · have hrest := inputMessages_of_accounts events [] later hlater
      rw [List.drop_left, List.length_append, Nat.sub_add_eq, Nat.sub_self, Nat.zero_sub]
      rw [show inputMessages 0 events = later from hrest]
    · have hrest := inputMessages_of_accounts events between messages hlater
      rw [List.drop_eq_nil_of_le (by simp), List.length_append, Nat.add_sub_cancel_left, hrest,
        List.nil_append]

end Rounds

/-- How large a message of texts is, with its role. -/
def textChars (m : Message) : Nat := (assistantText m).length + 8

/-- A question and its answer, in a window that has place for both. -/
def shortInput : SummaryInput where
  history := [textMessage .user (units "why?"), textMessage .assistant (units "so.")]
  turnPrefix := []
  previousSummary := some (units "before")
  reserveTokens := 1000
  contextWindow := 8000
  maxTokens := 0
  tokenRatio := none

def shortRequest : Request where
  chunk := shortInput.history
  tail := []
  running := some (units "before")
  isFinal := true
  stop := 2
  tailStart := 2
  historyChars := 4033
  prefixChars := 4000

end Cohub.Compaction
