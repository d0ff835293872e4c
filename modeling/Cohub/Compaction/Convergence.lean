import Cohub.Compaction.Budgets

/-! # Summarising comes to an end

    Every round makes progress, or it is one of the retries of a request: three
    that lower ceilings, and those that halve the turn prefix.  Halvings are few:
    between two of them the prefix loses a message or messages before it were
    taken, and no text is longer than the longest one.  So the limit on the
    requests is never reached. -/

namespace Cohub.Compaction

open List Nat

section Rounds

variable {serialized : Message → Nat} {input : SummaryInput} {provider : Provider}

/-! ## After an overflow -/

/-- Later requests of a kind are smaller than one that was rejected. -/
def Smaller (kind : RequestKind) (rejected : Request) (events : List Event) : Prop :=
  ∀ event ∈ events, ∀ r ∈ event.request, r.sends kind = true → r.chars kind < rejected.chars kind

/-- The oldest messages of a rejected request are left out: all of the chunk, or
    half of the history of a last request; the next request has less of it. -/
def LeavesOut (serialized : Message → Nat) (rejected : Request) (events : List Event) : Prop :=
  ∃ originals later, events = .omitted originals :: later ∧
    originals.length = (if rejected.isFinal then Nat.max 1 ((rejected.chunk.length + 1) / 2)
      else rejected.chunk.length) ∧
    List.Forall₂ (Shortened serialized) originals
      ((rejected.chunk ++ rejected.tail).take originals.length) ∧
    (rejected.isFinal = true → rejected.sends .history = true →
      ∀ r ∈ firstRequest later, r.historyChars < rejected.historyChars)

/-- What follows the overflows of a run, after some number of them. -/
def Descends (serialized : Message → Nat) : Nat → List Event → Prop
  | _, [] => True
  | overflows, .overflow r kind :: events =>
      (overflows < maxShrinks ∨ kind = .turnPrefix → Smaller kind r events) ∧
      (maxShrinks ≤ overflows ∧ kind = .history → LeavesOut serialized r events) ∧
      Descends serialized (overflows + 1) events
  | overflows, .sent _ _ _ :: events => Descends serialized overflows events
  | overflows, .omitted _ :: events => Descends serialized overflows events
  | overflows, .unfolded _ _ :: events => Descends serialized overflows events

theorem shrinks_setCeiling (s : SummaryState) (kind : RequestKind) (chars : Int) :
    (setCeiling s kind chars).shrinks = s.shrinks := by
  cases kind <;> rfl

theorem shrinks_recalibrate (s : SummaryState) (failedChars : Nat) (tokens : Option OverflowTokens) :
    (recalibrate s failedChars tokens).shrinks = s.shrinks := by
  cases tokens <;> rfl

theorem shrinks_overflowed (s : SummaryState) (r : Request) (ofPrefix : Bool)
    (tokens : Option OverflowTokens) :
    (overflowed input s r ofPrefix tokens).shrinks =
      if s.shrinks < maxShrinks then s.shrinks + 1 else s.shrinks := by
  unfold overflowed
  dsimp only
  split
  · rw [shrinks_setCeiling, shrinks_recalibrate]
  · cases failedKind r ofPrefix with
    | turnPrefix => rfl
    | history =>
      dsimp only
      split <;> rfl

theorem pos_of_nextRequest (s : SummaryState) (budget : Nat) (kind : RequestKind) :
    0 < (nextRequest input s budget).chars kind := by
  have hoverhead : 0 < promptOverheadChars := by decide
  cases kind <;> exact lt_of_lt_of_le hoverhead (Nat.le_add_left _ _)

variable {events : List Event} {s t : SummaryState} {budget halvings : Nat} {outcome : Outcome}

theorem smaller_of_noLarger {kind : RequestKind} {r : Request}
    (h : NoLarger kind (r.chars kind - 1) events) : Smaller kind r events := by
  intro event hmem r' hr' hsends
  have hle := h event hmem r' hr' hsends
  omega

variable {rounds lower cursor : Nat} {later : List Event}

theorem smaller_of_overflow (hserialized : SerializesTexts serialized)
    (hprovider : RejectsTails provider) {ofPrefix : Bool}
    {tokens : Option OverflowTokens}
    (ht : t = overflowed input (asking serialized s budget) (asked serialized input s budget)
      ofPrefix tokens)
    (haligned : Aligned serialized t)
    (hlater : loop serialized input provider rounds t = some (outcome, later))
    (h : s.shrinks < maxShrinks ∨
      failedKind (asked serialized input s budget) ofPrefix = .turnPrefix) :
    Smaller (failedKind (asked serialized input s budget) ofPrefix)
      (asked serialized input s budget)
      (newlyOmitted (asking serialized s budget) t ++ later) := by
  have hcapped : Capped t (failedKind (asked serialized input s budget) ofPrefix) _ :=
    ht ▸ capped_of_overflowed (s := asking serialized s budget) tokens
      (pos_of_nextRequest _ _ _) h
  exact smaller_of_noLarger ((noLarger_of_none (request_newlyOmitted _ t)).append
    (noLarger_loop hserialized hprovider rounds haligned hcapped hlater))

theorem tailFrom_of_le (s : SummaryState) {higher : Nat} (budget : Int)
    (hle : lower ≤ higher) : ∀ start used, higher ≤ tailFrom s lower budget start used →
      tailFrom s higher budget start used = tailFrom s lower budget start used
  | 0, _, _ => rfl
  | start + 1, used, h => by
    unfold tailFrom at h ⊢
    by_cases hfits : ((used + s.size start : Nat) : Int) ≤ budget
    · by_cases hlower : lower < start + 1
      · rw [if_pos ⟨hlower, hfits⟩] at h
        have hbelow := le_trans h (tailFrom_le s lower budget start _)
        rw [if_pos ⟨lt_succ_of_le hbelow, hfits⟩, if_pos ⟨hlower, hfits⟩]
        exact tailFrom_of_le s budget hle start _ h
      · rw [if_neg (fun hboth => hlower (lt_of_le_of_lt hle hboth.1)),
          if_neg (fun hboth => hlower hboth.1)]
    · rw [if_neg fun hboth => hfits hboth.2, if_neg fun hboth => hfits hboth.2]

theorem tailFrom_congr (h : t.sizes = s.sizes) (lower : Nat) (budget : Int) :
    ∀ start used, tailFrom t lower budget start used = tailFrom s lower budget start used
  | 0, _ => rfl
  | start + 1, used => by
    unfold tailFrom
    rw [show t.size start = s.size start by rw [SummaryState.size, SummaryState.size, h],
      tailFrom_congr h lower budget start]

theorem tailStart_requests (s : SummaryState) (requests : Nat) :
    tailStart input { s with requests := requests } = tailStart input s := by
  have hsame := tailFrom_congr (s := s) (t := { s with requests := requests }) rfl
  unfold tailStart
  split
  · rfl
  · exact hsame _ _ _ _

theorem tailFrom_of_ge (s : SummaryState) (budget : Int) {start : Nat}
    (h : start ≤ lower) (used : Nat) : tailFrom s lower budget start used = start := by
  cases start with
  | zero => rfl
  | succ start =>
    unfold tailFrom
    exact if_neg fun hboth => Nat.not_lt.mpr h hboth.1

theorem tailStart_omitted (hsizes : t.sizes = s.sizes)
    (hsequence : t.sequence = s.sequence) (hstart : t.prefixStart = s.prefixStart)
    (hbudget : requestBudgetChars input t .turnPrefix = requestBudgetChars input s .turnPrefix)
    (hcursor : s.cursor ≤ t.cursor) (hle : t.cursor ≤ tailStart input s) :
    tailStart input t = tailStart input s := by
  unfold tailStart at hle ⊢
  split
  · rw [hsequence]
  · next hsome =>
    rw [if_neg hsome] at hle
    rw [hbudget, hsequence, hstart, tailFrom_congr hsizes]
    have hlower : Nat.max s.prefixStart s.cursor ≤ Nat.max s.prefixStart t.cursor :=
      Nat.max_le.mpr ⟨le_max_left _ _, le_trans hcursor (le_max_right _ _)⟩
    rcases le_total s.prefixStart s.sequence.length with hshort | hlong
    · have hstarts := le_tailFrom s (requestBudgetChars input s .turnPrefix)
        (le_max_left s.prefixStart s.cursor) s.sequence.length 0 hshort
      exact tailFrom_of_le s _ hlower _ _ (Nat.max_le.mpr ⟨hstarts, hle⟩)
    · have hfar := le_trans hlong (le_max_left s.prefixStart s.cursor)
      rw [tailFrom_of_ge s _ hfar, tailFrom_of_ge s _ (le_trans hfar hlower)]

theorem two_le_size (h : Sound serialized s) {index : Nat}
    (hindex : index < s.sequence.length) : 2 ≤ s.size index := by
  rw [← h.aligned.sizes] at hindex
  unfold SummaryState.size
  rw [getD_eq_getElem?_getD, getElem?_eq_getElem hindex]
  exact h.sized _ (getElem_mem hindex)

theorem stop_of_final (h : (nextRequest input s budget).isFinal = true) :
    (nextRequest input s budget).stop = tailStart input s ∧
      s.sum s.cursor (tailStart input s) ≤ budget := by
  have hsum : s.sum s.cursor (tailStart input s) ≤ budget := of_decide_eq_true h
  refine ⟨?_, hsum⟩
  simp only [nextRequest, hsum, decide_true, if_true]

theorem length_chunk (hle : (nextRequest input s budget).stop ≤ s.sequence.length) :
    (nextRequest input s budget).chunk.length = (nextRequest input s budget).stop - s.cursor := by
  show ((s.sequence.take (nextRequest input s budget).stop).drop s.cursor).length = _
  rw [length_drop, length_take, min_eq_left hle]

theorem fits_later (h : Fits s budget)
    (hsizes : t.sizes = s.sizes) (hcursor : s.cursor ≤ t.cursor) : Fits t budget := by
  intro n hmem
  rw [hsizes, ← Nat.sub_add_cancel hcursor, add_comm, ← drop_drop] at hmem
  exact h n (mem_of_mem_drop hmem)

theorem historyChars_lt_of_halved (hs : Sound serialized s) (hleft : s.cursor < s.sequence.length)
    (hsizes : t.sizes = s.sizes) (hsequence : t.sequence = s.sequence)
    (hstart : t.prefixStart = s.prefixStart)
    (hbudget : requestBudgetChars input t .turnPrefix = requestBudgetChars input s .turnPrefix)
    (hrunning : t.running = s.running) (hcursor : s.cursor < t.cursor)
    (hle : t.cursor ≤ tailStart input s) (hfinal : (nextRequest input s budget).isFinal = true) :
    (nextRequest input t budget).historyChars < (nextRequest input s budget).historyChars := by
  obtain ⟨hstop, hsum⟩ := stop_of_final hfinal
  have htail := tailStart_omitted hsizes hsequence hstart hbudget (le_of_lt hcursor) hle
  -- what is left out has some size
  have hsplit := sum_split s (le_of_lt hcursor) hle
  have hfirst := sum_left s hcursor
  have hsize := two_le_size hs hleft
  have hless : t.sum t.cursor (tailStart input t) < s.sum s.cursor (tailStart input s) := by
    rw [htail, sum_congr hsizes]
    omega
  have hfits : t.sum t.cursor (tailStart input t) ≤ budget := by omega
  have hstop' := (stop_of_final (decide_eq_true hfits) : (nextRequest input t budget).stop = _ ∧ _).1
  have hchars : ∀ u, (nextRequest input u budget).historyChars =
      u.sum u.cursor (nextRequest input u budget).stop + lengthOf u.running +
        promptOverheadChars := fun _ => rfl
  rw [hchars, hchars, hstop, hstop', hrunning]
  omega

theorem leavesOut_of_overflow (hserialized : SerializesTexts serialized)
    (hs : Sound serialized s) (hasks : Asks input s budget)
    (ht : t = omitTo { asking serialized s budget with
      overflows := (asking serialized s budget).overflows + 1 }
      (dropEnd (asking serialized s budget) (asked serialized input s budget)))
    (haligned : Aligned serialized t)
    (hlater : loop serialized input provider rounds t = some (outcome, later)) :
    LeavesOut serialized (asked serialized input s budget)
      (newlyOmitted (asking serialized s budget) t ++ later) := by
  have hu := hs.asking budget
  have hleft := asking_left hs.aligned hasks
  have htakes := takes_asked hs.aligned hasks
  have hsettled := settled_asking hserialized hs.aligned hasks
  obtain ⟨hlt, hle⟩ := dropEnd_bounds htakes hleft
  have hcursor : t.cursor = dropEnd (asking serialized s budget) (asked serialized input s budget) := by
    rw [ht]
    rfl
  have hmoved : (asking serialized s budget).cursor < t.cursor := hcursor ▸ hlt
  have hchunk : (asked serialized input s budget).chunk.length =
      (asked serialized input s budget).stop - (asking serialized s budget).cursor :=
    length_chunk htakes.stop_le
  have hlength : (((asking serialized s budget).originals.take t.cursor).drop
      (asking serialized s budget).cursor).length =
      t.cursor - (asking serialized s budget).cursor := by
    rw [length_drop, length_take, hu.aligned.length, hcursor, min_eq_left hle]
  have hshortened := forall₂_drop (asking serialized s budget).cursor
    (forall₂_take t.cursor hu.aligned.shortened)
  rw [newlyOmitted, if_pos hmoved]
  refine ⟨_, later, rfl, ?_, ?_, ?_⟩
  · rw [hlength, hcursor, dropEnd]
    cases hfinal : (asked serialized input s budget).isFinal with
    | true =>
      have hstop := (stop_of_final hfinal).1
      rw [if_pos rfl, if_pos rfl, hchunk, Nat.add_sub_cancel_left,
        show (asked serialized input s budget).stop = (asked serialized input s budget).tailStart
          from hstop]
    | false => rw [if_neg Bool.false_ne_true, if_neg Bool.false_ne_true, hchunk]
  · rw [hlength]
    cases hfinal : (asked serialized input s budget).isFinal with
    | true => rwa [htakes.holds_all hfinal, ← drop_take]
    | false =>
      have hstop : t.cursor = (asked serialized input s budget).stop := by
        rw [hcursor, dropEnd, hfinal]
        rfl
      have hall : (((asking serialized s budget).sequence.take t.cursor).drop
          (asking serialized s budget).cursor).length ≤
          t.cursor - (asking serialized s budget).cursor := by
        rw [length_drop, length_take]
        omega
      rw [htakes.holds_some hfinal, ← hstop, take_of_length_le hall]
      exact hshortened
  · intro hfinal hsends r hr
    have hnonempty : (asked serialized input s budget).chunk ≠ [] := of_decide_eq_true hsends
    have hpos := length_pos_of_ne_nil hnonempty
    have hstop : (asked serialized input s budget).stop =
        (asked serialized input s budget).tailStart := (stop_of_final hfinal).1
    have hbelow : t.cursor ≤ (asked serialized input s budget).tailStart := by
      have hhalf : Nat.max 1 (((asked serialized input s budget).tailStart -
          (asking serialized s budget).cursor + 1) / 2) ≤
          (asked serialized input s budget).tailStart - (asking serialized s budget).cursor :=
        Nat.max_le.mpr ⟨by omega, by omega⟩
      rw [hcursor, dropEnd, hfinal, if_pos rfl]
      omega
    have hsettled' : Settled input t budget := by
      refine ⟨?_, ?_, hsettled.room, fits_later hsettled.fits (by rw [ht]; rfl) (le_of_lt hmoved)⟩
      · rw [ht]
        exact hsettled.kept
      · rw [ht]
        exact hsettled.equal
    rw [hsettled'.firstRequest haligned hlater r hr]
    exact historyChars_lt_of_halved (hs.shrinkLeft budget) hleft (by rw [ht]; rfl) (by rw [ht]; rfl)
      (by rw [ht]; rfl) (by rw [ht]; rfl) (by rw [ht]; rfl) hmoved hbelow hfinal

theorem descends_newlyOmitted (overflows : Nat) (s t : SummaryState) (later : List Event) :
    Descends serialized overflows (newlyOmitted s t ++ later) ↔
      Descends serialized overflows later := by
  unfold newlyOmitted
  split <;> exact Iff.rfl

variable (count : Nat)

theorem min_succ (bound : Nat) :
    (if Nat.min count bound < bound then Nat.min count bound + 1 else Nat.min count bound) =
      Nat.min (count + 1) bound := by
  rcases lt_or_ge count bound with hlt | hge
  · rw [show Nat.min count bound = count from min_eq_left (le_of_lt hlt), if_pos hlt]
    exact (min_eq_left hlt).symm
  · rw [show Nat.min count bound = bound from min_eq_right hge, if_neg (lt_irrefl _)]
    exact (min_eq_right (le_succ_of_le hge)).symm

theorem descends_loop (hserialized : SerializesTexts serialized)
    (hprovider : RejectsTails provider) :
    ∀ (rounds : Nat) {s : SummaryState} {events : List Event} {overflows : Nat},
      Sound serialized s → s.shrinks = Nat.min overflows maxShrinks →
      loop serialized input provider rounds s = some (outcome, events) →
      Descends serialized overflows events
  | 0, _, _, _, _, _, h => by simp [loop] at h
  | rounds + 1, s, events, overflows, hs, hshrinks, h => by
    have hrounded := rounded_summaryRound serialized input provider s
    rcases loop_cases serialized input provider h with hend | ⟨t, first, later, hgo, hlater, rfl⟩
    · rw [hend] at hrounded
      cases hrounded with
      | finished => trivial
      | limitReached => trivial
      | last => trivial
      | failed => trivial
    · have ht := sound_summaryRound hs hgo
      have hrest : ∀ count, t.shrinks = Nat.min count maxShrinks → Descends serialized count later :=
        fun count hcount => descends_loop hserialized hprovider rounds ht hcount hlater
      rw [hgo] at hrounded
      cases hrounded with
      | unfold => exact hrest overflows hshrinks
      | omitRest => exact hrest overflows hshrinks
      | folded => exact hrest overflows hshrinks
      | overflow budget hasks ofPrefix tokens hreply _ heq =>
        have hcount : t.shrinks = Nat.min (overflows + 1) maxShrinks := by
          rw [heq, shrinks_overflowed,
            show (asking serialized s budget).shrinks = s.shrinks from rfl, hshrinks]
          exact min_succ overflows maxShrinks
        have hlowered : overflows < maxShrinks → s.shrinks < maxShrinks := fun hfew => by
          rw [hshrinks]
          exact lt_of_le_of_lt (Nat.min_le_left _ _) hfew
        refine ⟨fun hfew => ?_, fun hmany => ?_, ?_⟩
        · exact smaller_of_overflow hserialized hprovider heq ht.aligned hlater
            (hfew.imp_left hlowered)
        · have hmax : maxShrinks ≤ s.shrinks := by
            rw [hshrinks]
            exact Nat.le_min.mpr ⟨hmany.1, le_rfl⟩
          have homit := overflowed_history (s := asking serialized s budget) input tokens hmax
            hmany.2
          exact leavesOut_of_overflow hserialized hs hasks (heq.trans homit) ht.aligned hlater
        · exact (descends_newlyOmitted _ _ _ later).mpr (hrest (overflows + 1) hcount)

/-! ## How many requests there are -/

/-- How often the turn prefix is halved at most: at every place of the cursor,
    as often as there are messages after it. -/
def halvingBound : Nat → Nat → Nat
  | 0, count => count
  | cursor + 1, count => halvingBound cursor count + (count - (cursor + 1))

theorem halvingBound_mono {later : Nat} (h : cursor ≤ later) :
    halvingBound cursor count ≤ halvingBound later count := by
  induction h with
  | refl => exact le_rfl
  | step _ ih => exact le_trans ih (Nat.le_add_right _ _)

theorem le_halvingBound (cursor count : Nat) : count - cursor ≤ halvingBound cursor count := by
  cases cursor with
  | zero => exact le_rfl
  | succ cursor => exact Nat.le_add_left _ _

theorem halvingBound_advance {later : Nat} (h : cursor < later) :
    halvingBound cursor count + (count - later) ≤ halvingBound later count := by
  cases later with
  | zero => exact absurd h (not_lt_zero _)
  | succ later =>
    exact Nat.add_le_add_right (halvingBound_mono count (le_of_lt_succ h)) _

theorem halvingBound_add (cursor count added : Nat) :
    halvingBound cursor count + added ≤ halvingBound cursor (count + added) := by
  induction cursor with
  | zero => exact le_rfl
  | succ cursor ih =>
    unfold halvingBound
    omega

/-- A state after some halvings of the turn prefix. -/
structure Paced (input : SummaryInput) (s : SummaryState) (halvings : Nat) : Prop where
  counted : s.requests ≤ s.cursor + s.shrinks + halvings
  shrinks : s.shrinks ≤ maxShrinks
  early   : s.shrinks < maxShrinks → halvings = 0
  halved  : halvings ≠ 0 → ∃ ceiling : Nat, s.prefixCeiling = some (ceiling : Int) ∧
    2001 ≤ ceiling ∧ ceiling * 2 ^ halvings ≤ maxPrefixChars
  -- the messages after the cursor, or those of the tail, are halvings to come
  place   : halvings + (s.sequence.length - s.cursor) ≤
      halvingBound s.cursor s.sequence.length ∨
    (∃ budget, Settled input s budget) ∧
      halvings + (s.sequence.length - tailStart input s) ≤
        halvingBound s.cursor s.sequence.length

theorem paced_initial : Paced input (initial serialized input) 0 where
  counted := le_rfl
  shrinks := zero_le _
  early _ := rfl
  halved h := absurd rfl h
  place := .inl (le_of_eq (zero_add _))

theorem Paced.le_bound (h : Paced input s halvings) :
    halvings ≤ halvingBound s.cursor s.sequence.length := by
  rcases h.place with hfresh | ⟨-, hsettled⟩
  · exact le_of_add_right_le hfresh
  · exact le_of_add_right_le hsettled

theorem Paced.le_eighteen (h : Paced input s halvings) : halvings ≤ 18 := by
  rcases lt_or_ge 18 halvings with hmany | hfew
  · obtain ⟨ceiling, -, hleast, hmost⟩ := h.halved (by omega)
    have hpow : 2 ^ 19 ≤ 2 ^ halvings := Nat.pow_le_pow_right (by decide) hmany
    have hproduct := Nat.mul_le_mul hleast hpow
    have hfar : maxPrefixChars < 2001 * 2 ^ 19 := by decide
    omega
  · exact hfew

theorem Paced.requests_lt (h : Paced input s halvings)
    (hleft : s.cursor < s.sequence.length) : s.requests < requestLimit s := by
  have hcounted := h.counted
  have hshrinks := h.shrinks
  have hbound := h.le_bound
  have hfew := h.le_eighteen
  simp only [requestLimit, maxShrinks, maxSummaryUnfolds] at hshrinks ⊢
  rcases lt_or_ge s.sequence.length 6 with hshort | hlong
  · -- of few messages there are few halvings
    have hsmall : ∀ count < 6, ∀ cursor < count,
        cursor + 3 + halvingBound cursor count < 2 * count + 15 := by decide
    have hless := hsmall _ hshort _ hleft
    omega
  · omega

theorem Paced.advance (h : Paced input s halvings)
    (hrequests : t.requests ≤ s.requests + 1) (hcursor : s.cursor < t.cursor)
    (hshrinks : t.shrinks = s.shrinks) (hceiling : t.prefixCeiling = s.prefixCeiling)
    (hlength : t.sequence.length = s.sequence.length) : Paced input t halvings where
  counted := by
    have hcounted := h.counted
    omega
  shrinks := hshrinks ▸ h.shrinks
  early hfew := h.early (hshrinks ▸ hfew)
  halved hsome := hceiling ▸ h.halved hsome
  place := by
    have hbound := h.le_bound
    have hadvance := halvingBound_advance s.sequence.length hcursor
    rw [hlength]
    exact .inl (by omega)

theorem length_asking (hs : Aligned serialized s) (budget : Nat) :
    (asking serialized s budget).sequence.length = s.sequence.length := by
  rw [← (tells_asking hs budget).aligned.length, ← hs.length]
  rfl

theorem Paced.unfold (h : Paced input s halvings)
    (hs : Aligned serialized s) (pieces : List Message) (htruthy : isTruthy s.running)
    (hlong : requestBudgetChars input s .history < 2 * (lengthOf s.running : Int))
    (hunfolds : s.unfolds < maxSummaryUnfolds) :
    Paced input (unfoldRunning serialized s pieces) halvings where
  counted := h.counted
  shrinks := h.shrinks
  early := h.early
  halved := h.halved
  place := by
    have hlength : (unfoldRunning serialized s pieces).sequence.length =
        s.sequence.length + pieces.length := by
      simp only [unfoldRunning, splice, length_append, length_take, length_drop]
      omega
    rcases h.place with hfresh | ⟨⟨budget, hsettled⟩, -⟩
    · have hadd := halvingBound_add s.cursor s.sequence.length pieces.length
      have hcursor := hs.cursor_le
      rw [hlength]
      refine .inl ?_
      show halvings + (s.sequence.length + pieces.length - s.cursor) ≤
        halvingBound s.cursor (s.sequence.length + pieces.length)
      omega
    · exact absurd ⟨htruthy, hlong, hunfolds⟩ hsettled.kept

theorem Paced.tail_asking (h : Paced input s halvings)
    (hs : Aligned serialized s) (hasks : Asks input s budget) :
    halvings + (s.sequence.length - tailStart input (asking serialized s budget)) ≤
      halvingBound s.cursor s.sequence.length := by
  rcases h.place with hfresh | ⟨⟨other, hsettled⟩, htail⟩
  · have hcursor : s.cursor ≤ tailStart input (asking serialized s budget) :=
      cursor_le_tailStart (le_of_lt (asking_left hs hasks))
    omega
  · rwa [(hsettled.asked_eq hs hasks).2.2, tailStart_requests]

theorem tailStart_lt_of_halved (hsizes : t.sizes = s.sizes)
    (hlength : t.sequence.length = s.sequence.length)
    (hleft : tailStart input s < s.sequence.length)
    (hceiling : t.prefixCeiling = some
      ((s.sum (tailStart input s) s.sequence.length + promptOverheadChars) / 2 : Nat)) :
    tailStart input s < tailStart input t := by
  rcases lt_or_ge (tailStart input s) (tailStart input t) with hlt | hge
  · exact hlt
  · have htail : tailStart input t < t.sequence.length := hlength ▸ lt_of_le_of_lt hge hleft
    have hsum := sum_tailStart_le htail
    have hmore : s.sum (tailStart input s) s.sequence.length ≤
        s.sum (tailStart input t) s.sequence.length := sum_le_sum s hge
    have hcapped : Capped t .turnPrefix _ := ⟨_, hceiling, Int.le_refl _⟩
    have hbudget : requestBudgetChars input t .turnPrefix + promptOverheadChars ≤ _ :=
      hcapped.budget
    have hoverhead : 0 < promptOverheadChars := by decide
    rw [sum_congr hsizes, hlength] at hsum
    omega

theorem Paced.shrunk (h : Paced input s halvings)
    (hfew : s.shrinks < maxShrinks) (hrequests : t.requests = s.requests + 1)
    (hcursor : t.cursor = s.cursor) (hshrinks : t.shrinks = s.shrinks + 1) : Paced input t 0 where
  counted := by
    have hcounted := h.counted
    have hnone := h.early hfew
    omega
  shrinks := by
    rw [hshrinks]
    exact hfew
  early _ := rfl
  halved hsome := absurd rfl hsome
  place := .inl ((Nat.zero_add _).symm ▸ le_halvingBound _ _)

theorem Paced.halve (hserialized : SerializesTexts serialized)
    (h : Paced input s halvings) (hs : Sound serialized s)
    (hasks : Asks input s budget) (hmany : maxShrinks ≤ s.shrinks)
    (htail : (asked serialized input s budget).tail ≠ [])
    (hmax : (asked serialized input s budget).prefixChars ≤ maxPrefixChars)
    (ht : t = { asking serialized s budget with
      overflows := (asking serialized s budget).overflows + 1
      prefixCeiling := some ((asked serialized input s budget).prefixChars / 2 : Nat) }) :
    Paced input t (halvings + 1) := by
  have hsettled := settled_asking hserialized hs.aligned hasks
  have hplace := h.tail_asking hs.aligned hasks
  have hlength := length_asking hs.aligned budget
  have hstart : tailStart input (asking serialized s budget) <
      (asking serialized s budget).sequence.length := by
    unfold asking
    rw [tailStart_requests]
    exact tailStart_lt_of_tail htail
  have hchars : (asked serialized input s budget).prefixChars =
      (asking serialized s budget).sum (tailStart input (asking serialized s budget))
        (asking serialized s budget).sequence.length + promptOverheadChars := by
    unfold asking
    rw [tailStart_requests]
    rfl
  have hleast : 4002 ≤ (asked serialized input s budget).prefixChars := by
    have hsize := two_le_size (hs.asking budget) hstart
    have hsum := sum_left (asking serialized s budget) hstart
    have hoverhead : promptOverheadChars = 4000 := rfl
    omega
  refine ⟨?_, ?_, ?_, ?_, ?_⟩
  · have hcounted := h.counted
    rw [ht]
    show s.requests + 1 ≤ s.cursor + s.shrinks + (halvings + 1)
    omega
  · rw [ht]
    exact h.shrinks
  · intro hfew
    rw [ht] at hfew
    exact absurd hfew (Nat.not_lt.mpr hmany)
  · intro _
    refine ⟨_, by rw [ht], by omega, ?_⟩
    have hhalf : (asked serialized input s budget).prefixChars / 2 * 2 ≤
        (asked serialized input s budget).prefixChars := div_mul_le_self _ 2
    rw [Nat.pow_succ, Nat.mul_comm (2 ^ halvings), ← Nat.mul_assoc]
    refine le_trans (Nat.mul_le_mul_right _ hhalf) ?_
    rcases Nat.eq_zero_or_pos halvings with rfl | hpos
    · rwa [Nat.pow_zero, Nat.mul_one]
    · obtain ⟨ceiling, hceiling, -, hmost⟩ := h.halved (Nat.ne_of_gt hpos)
      have hcapped : Capped s .turnPrefix ceiling := ⟨_, hceiling, Int.le_refl _⟩
      have hbelow := hcapped.chars_le hserialized hs.aligned hasks (decide_eq_true htail)
      have hbelow' : (asked serialized input s budget).prefixChars ≤ ceiling :=
        Int.ofNat_le.mp hbelow
      exact le_trans (Nat.mul_le_mul_right _ hbelow') hmost
  · have hsettled' : Settled input t budget := by
      rw [ht]
      exact ⟨hsettled.kept, hsettled.equal, hsettled.room, hsettled.fits⟩
    have hshorter : tailStart input (asking serialized s budget) < tailStart input t := by
      apply tailStart_lt_of_halved
      · rw [ht]
      · rw [ht]
      · exact hstart
      · rw [← hchars, ht]
        rfl
    have hsame : t.sequence.length = s.sequence.length := by
      rw [ht]
      exact hlength
    have hcursor : t.cursor = s.cursor := by
      rw [ht]
      rfl
    refine .inr ⟨⟨budget, hsettled'⟩, ?_⟩
    rw [hsame, hcursor]
    omega

theorem paced_summaryRound (hserialized : SerializesTexts serialized)
    (hprovider : RejectsTails provider) (h : Paced input s halvings) (hs : Sound serialized s)
    (hround : summaryRound serialized input provider s = (.inl t, events)) :
    ∃ later, Paced input t later := by
  have hrounded := rounded_summaryRound serialized input provider s
  rw [hround] at hrounded
  cases hrounded with
  | unfold _ _ _ _ htruthy hlong hunfolds pieces =>
    exact ⟨halvings, h.unfold hs.aligned pieces htruthy hlong hunfolds⟩
  | omitRest hleft => exact ⟨halvings, h.advance (le_succ _) hleft rfl rfl rfl⟩
  | folded budget hasks _ _ hfinal =>
    exact ⟨halvings, h.advance le_rfl ((takes_asked hs.aligned hasks).stop_gt hfinal)
      rfl rfl (length_asking hs.aligned budget)⟩
  | overflow budget hasks ofPrefix tokens hreply _ ht =>
    rcases lt_or_ge s.shrinks maxShrinks with hfew | hmany
    · have hshrinks : t.shrinks = s.shrinks + 1 := by
        rw [ht, shrinks_overflowed]
        exact if_pos hfew
      rcases overflowed_cases input (asking serialized s budget)
        (asked serialized input s budget) ofPrefix tokens with hsame | ⟨hmany, -, -⟩
      · rw [← ht] at hsame
        exact ⟨0, h.shrunk hfew hsame.requests hsame.cursor hshrinks⟩
      · exact absurd hfew (Nat.not_lt.mpr hmany)
    · cases hkind : failedKind (asked serialized input s budget) ofPrefix with
      | history =>
        have hlt := (dropEnd_bounds (takes_asked hs.aligned hasks) (asking_left hs.aligned hasks)).1
        rw [overflowed_history (s := asking serialized s budget) input tokens hmany hkind] at ht
        rw [ht]
        exact ⟨halvings, h.advance le_rfl hlt rfl rfl (length_asking hs.aligned budget)⟩
      | turnPrefix =>
        obtain ⟨-, htail, hmax⟩ := tail_of_reject hprovider hreply hkind
        rw [overflowed_turnPrefix (s := asking serialized s budget) input tokens hmany hkind] at ht
        exact ⟨halvings + 1, h.halve hserialized hs hasks hmany htail hmax ht⟩

theorem not_limitReached_loop (hserialized : SerializesTexts serialized)
    (hprovider : RejectsTails provider) :
    ∀ (rounds : Nat) {s : SummaryState} {events : List Event} {halvings : Nat},
      Paced input s halvings → Sound serialized s →
      loop serialized input provider rounds s = some (outcome, events) → outcome ≠ .limitReached
  | 0, _, _, _, _, _, h => by simp [loop] at h
  | rounds + 1, s, events, halvings, hpaced, hs, h => by
    rcases loop_cases serialized input provider h with hend | ⟨t, first, later, hgo, hlater, rfl⟩
    · have hrounded := rounded_summaryRound serialized input provider s
      rw [hend] at hrounded
      intro hlimit
      subst hlimit
      cases hrounded with
      | limitReached hleft hlimit => exact absurd (hpaced.requests_lt hleft) (Nat.not_lt.mpr hlimit)
    · obtain ⟨next, hnext⟩ := paced_summaryRound hserialized hprovider hpaced hs hgo
      exact not_limitReached_loop hserialized hprovider rounds hnext (sound_summaryRound hs hgo) hlater

/-! ## The end -/

/-- How many rounds there can be until a running summary is unfolded. -/
def roundsLeft (s : SummaryState) : Nat :=
  2 * (requestLimit s - s.requests) + if s.cursor < s.sequence.length then 1 else 0

theorem roundsLeft_summaryRound (hs : Aligned serialized s)
    (hround : summaryRound serialized input provider s = (.inl t, events)) :
    (s.unfolds < maxSummaryUnfolds ∧ t.unfolds = s.unfolds + 1) ∨
      (t.unfolds = s.unfolds ∧ roundsLeft t < roundsLeft s) := by
  have hrounded := rounded_summaryRound serialized input provider s
  rw [hround] at hrounded
  have hasked : ∀ {budget}, Asks input s budget → t.requests = s.requests + 1 →
      t.sequence.length = s.sequence.length → roundsLeft t < roundsLeft s := by
    intro budget hasks hrequests hlength
    have hlimit := hasks.limit
    unfold roundsLeft requestLimit at *
    rw [hrequests, hlength, if_pos hasks.left]
    split <;> omega
  cases hrounded with
  | unfold _ _ _ _ _ _ hunfolds => exact .inl ⟨hunfolds, rfl⟩
  | omitRest hleft =>
    refine .inr ⟨rfl, ?_⟩
    unfold roundsLeft
    rw [if_pos hleft]
    exact lt_succ_of_le (Nat.le_of_eq (if_neg (Nat.lt_irrefl _) ▸ rfl))
  | folded budget hasks =>
    exact .inr ⟨rfl, hasked hasks rfl (length_asking hs budget)⟩
  | overflow budget hasks ofPrefix tokens _ _ ht =>
    have hlength := length_asking hs budget
    rcases overflowed_cases input (asking serialized s budget) (asked serialized input s budget)
      ofPrefix tokens with hsame | ⟨-, -, homit⟩
    · rw [← ht] at hsame
      exact .inr ⟨hsame.unfolds, hasked hasks hsame.requests (hsame.sequence ▸ hlength)⟩
    · rw [homit] at ht
      exact .inr ⟨by rw [ht]; rfl, hasked hasks (by rw [ht]; rfl) (by rw [ht]; exact hlength)⟩

theorem loop_ends (s : SummaryState) (hs : Aligned serialized s) :
    ∃ rounds, (loop serialized input provider rounds s).isSome = true := by
  cases hround : summaryRound serialized input provider s with
  | mk result events =>
    cases result with
    | inr outcome =>
      refine ⟨1, ?_⟩
      rw [loop, hround]
      rfl
    | inl t =>
      obtain ⟨rounds, hend⟩ := loop_ends t (tells_summaryRound hs hround).aligned
      refine ⟨rounds + 1, ?_⟩
      rw [loop, hround]
      simpa using hend
termination_by (maxSummaryUnfolds - s.unfolds, roundsLeft s)
decreasing_by
  rcases roundsLeft_summaryRound hs hround with ⟨hfew, hunfolds⟩ | ⟨hunfolds, hless⟩
  · exact Prod.Lex.left _ _ (by omega)
  · rw [hunfolds]
    exact Prod.Lex.right _ hless

/-- Summarising ends, and not at the limit on the requests.  After each of the
    first three overflows, and after every overflow of the turn prefix, all later
    requests of that kind are smaller than the one that was rejected; after a later
    overflow of the history its oldest messages are left out. -/
theorem summarization_converges (hserialized : SerializesTexts serialized)
    (hprovider : RejectsTails provider) :
    (∃ rounds, (summarizeForCompaction serialized input provider rounds).isSome = true) ∧
      ∀ rounds outcome events,
        summarizeForCompaction serialized input provider rounds = some (outcome, events) →
        outcome ≠ .limitReached ∧ Descends serialized 0 events := by
  refine ⟨loop_ends _ aligned_initial, fun rounds outcome events h => ⟨?_, ?_⟩⟩
  · exact not_limitReached_loop hserialized hprovider rounds paced_initial sound_initial h
  · exact descends_loop hserialized hprovider rounds sound_initial rfl h

end Rounds

theorem serializesTexts_textChars : SerializesTexts textChars := by
  intro role text
  have htext : assistantText (textMessage role text) = text := by
    simp [assistantText, textMessage, Message.blocks, join, intercalate]
  unfold textChars
  rw [htext]
  omega

/-- A provider that rejects the first request. -/
def rejectsFirst : Provider := fun count _ =>
  if count = 1 then .overflow false none else .ok (units "after") 10

theorem rejectsTails_rejectsFirst : RejectsTails rejectsFirst := by
  intro count r tokens hreply
  unfold rejectsFirst at hreply
  split at hreply <;> cases hreply

theorem summarization_converges_rejectsFirst :
    ∃ rounds, (summarizeForCompaction textChars shortInput rejectsFirst rounds).isSome = true :=
  (summarization_converges serializesTexts_textChars rejectsTails_rejectsFirst).1

/-! ### A request that is not smaller -/

/-- After every overflow, the next request of the rejected kind is smaller. -/
def nextSmaller : List Event → Bool
  | [] => true
  | .overflow r kind :: events =>
      (((events.filterMap Event.request).find? fun next => next.sends kind).all fun next =>
        decide (next.chars kind < r.chars kind)) && nextSmaller events
  | .sent _ _ _ :: events => nextSmaller events
  | .omitted _ :: events => nextSmaller events
  | .unfolded _ _ :: events => nextSmaller events

/-- Four messages of one length. -/
def evenInput : SummaryInput where
  history := List.replicate 4 (textMessage .user (List.replicate 1440 97))
  turnPrefix := []
  previousSummary := none
  reserveTokens := 1000
  contextWindow := 8000
  maxTokens := 0
  tokenRatio := none

/-- A provider that rejects four requests, always by little. -/
def rejectsFour : Provider := fun count _ =>
  if count ≤ 4 then .overflow false (some ⟨7200, some 8000, by decide, by simp⟩)
  else .ok (units "after") 10

theorem rejectsTails_rejectsFour : RejectsTails rejectsFour := by
  intro count r tokens hreply
  unfold rejectsFour at hreply
  split at hreply <;> cases hreply

/-- The chunk that was rejected is left out, and the next one is as large. -/
theorem next_request_not_smaller :
    ¬ ∀ (serialized : Message → Nat) (input : SummaryInput) (provider : Provider) (rounds : Nat)
      (outcome : Outcome) (events : List Event), SerializesTexts serialized →
      RejectsTails provider →
      summarizeForCompaction serialized input provider rounds = some (outcome, events) →
      nextSmaller events = true := by
  intro hclaim
  have hrun : (summarizeForCompaction textChars evenInput rejectsFour 12).map
      (fun e => nextSmaller e.2) = some false := by decide +kernel
  obtain ⟨⟨outcome, events⟩, hevents, hlarger⟩ := Option.map_eq_some_iff.mp hrun
  have hsmaller := hclaim textChars evenInput rejectsFour 12 outcome events
    serializesTexts_textChars rejectsTails_rejectsFour hevents
  exact absurd hsmaller (Bool.eq_false_iff.mp hlarger)

end Cohub.Compaction
