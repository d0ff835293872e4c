import Cohub.Compaction.Accounts

/-! # How large a request is

    A request fits its budget, and so the ceilings of its kinds.  An overflow
    lowers the ceiling of the kind below the rejected request, or it leaves
    messages of the request out. -/

namespace Cohub.Compaction

open List

section Rounds

variable {serialized : Message → Nat} {input : SummaryInput} {provider : Provider}

/-! ## Sums of sizes -/

section Sums

variable (s : SummaryState)

theorem sum_self (start : Nat) : s.sum start start = 0 := by
  rw [SummaryState.sum, Nat.sub_self]
  rfl

variable {start stop : Nat}

theorem sum_of_le (h : stop ≤ start) : s.sum start stop = 0 := by
  rw [SummaryState.sum, Nat.sub_eq_zero_of_le h]
  rfl

theorem sum_succ (h : start ≤ stop) : s.sum start (stop + 1) = s.sum start stop + s.size stop := by
  rw [SummaryState.sum, Nat.succ_sub h, range_succ, foldl_append]
  simp only [foldl_cons, foldl_nil]
  rw [Nat.add_sub_cancel' h]
  rfl

variable {mid : Nat}

theorem sum_split (h : start ≤ mid) (h' : mid ≤ stop) :
    s.sum start stop = s.sum start mid + s.sum mid stop := by
  induction h' with
  | refl => rw [sum_self, add_zero]
  | @step stop h' ih => rw [sum_succ s (le_trans h h'), sum_succ s h', ih, add_assoc]

theorem sum_left (h : start < stop) : s.sum start stop = s.size start + s.sum (start + 1) stop := by
  rw [sum_split s (Nat.le_succ start) h, sum_succ s le_rfl, sum_self, zero_add]

theorem sum_le_sum (h : start ≤ mid) : s.sum mid stop ≤ s.sum start stop := by
  rcases le_total mid stop with hmid | hmid
  · rw [sum_split s h hmid]
    exact Nat.le_add_left _ _
  · rw [sum_of_le s hmid]
    exact Nat.zero_le _

end Sums

variable {s t : SummaryState} {kind : RequestKind} {chars : Int} {r : Request} {ofPrefix : Bool}
    {events : List Event}

theorem sum_congr (h : t.sizes = s.sizes) (start stop : Nat) :
    t.sum start stop = s.sum start stop := by
  unfold SummaryState.sum SummaryState.size
  rw [h]

/-! ## The sizes of messages -/

/-- No message that is left is larger than a budget. -/
def Fits (s : SummaryState) (budget : Nat) : Prop := ∀ n ∈ s.sizes.drop s.cursor, n ≤ budget

theorem Fits.size_le {budget : Nat} (h : Fits s budget) {index : Nat}
    (hindex : s.cursor ≤ index) : s.size index ≤ budget := by
  unfold SummaryState.size
  rw [getD_eq_getElem?_getD]
  cases hget : s.sizes[index]? with
  | none => exact Nat.zero_le _
  | some n =>
    have hdrop : (s.sizes.drop s.cursor)[index - s.cursor]? = some n := by
      rw [getElem?_drop, Nat.add_sub_cancel' hindex, hget]
    exact h n (mem_of_getElem? hdrop)

theorem drop_sizes_shrinkLeft (hs : Aligned serialized s) (budget : Nat) :
    (shrinkLeft serialized s budget).sizes.drop s.cursor =
      zipWith (fittedSize serialized budget) (s.sequence.drop s.cursor)
        (s.sizes.drop s.cursor) := by
  have hlength : (s.sizes.take s.cursor).length = s.cursor := by
    have hle := hs.cursor_le
    rw [length_take, hs.sizes]
    omega
  exact drop_left' hlength

theorem fits_shrinkLeft (hserialized : SerializesTexts serialized) (hs : Aligned serialized s)
    {budget : Nat} (hbudget : 111 ≤ budget) : Fits (shrinkLeft serialized s budget) budget := by
  intro n hmem
  rw [cursor_shrinkLeft, drop_sizes_shrinkLeft hs] at hmem
  obtain ⟨index, hindex, rfl⟩ := getElem_of_mem hmem
  rw [getElem_zipWith, fittedSize]
  split
  · exact serializedChars_shrinkMessage_le hserialized _ hbudget
  · next hfits => exact Nat.le_of_not_lt hfits

theorem shrinkLeft_of_fits (hs : Aligned serialized s) {budget : Nat}
    (h : Fits s budget) : shrinkLeft serialized s budget = s := by
  have hlength : (s.sizes.drop s.cursor).length = (s.sequence.drop s.cursor).length := by
    rw [length_drop, length_drop, hs.sizes]
  have hkept : ∀ (messages : List Message) (sizes : List Nat), sizes.length = messages.length →
      (∀ n ∈ sizes, n ≤ budget) →
      zipWith (fitted serialized budget) messages sizes = messages ∧
      zipWith (fittedSize serialized budget) messages sizes = sizes := by
    intro messages
    induction messages with
    | nil =>
      intro sizes hsizes _
      rw [length_eq_zero_iff.mp hsizes]
      exact ⟨rfl, rfl⟩
    | cons m messages ih =>
      intro sizes hsizes hfits
      cases sizes with
      | nil => simp at hsizes
      | cons n sizes =>
        have hn : ¬ budget < n := Nat.not_lt.mpr (hfits n mem_cons_self)
        obtain ⟨hmessages, hrest⟩ := ih sizes (Nat.succ.inj hsizes)
          fun n hmem => hfits n (mem_cons_of_mem _ hmem)
        rw [zipWith_cons_cons, zipWith_cons_cons, hmessages, hrest, fitted, fittedSize,
          if_neg hn, if_neg hn]
        exact ⟨rfl, rfl⟩
  obtain ⟨hsequence, hsizes⟩ := hkept _ _ hlength h
  unfold shrinkLeft
  rw [hsequence, hsizes, take_append_drop, take_append_drop]

/-! ## A request fits its budgets -/

variable {start : Nat} {other : RequestKind} {outcome : Outcome}

theorem sum_chunkFrom_le (s : SummaryState) {budget : Nat} :
    ∀ (count stop : Nat), start ≤ stop → s.sum start stop ≤ budget →
      s.sum start (chunkFrom s budget count stop (s.sum start stop)) ≤ budget
  | 0, _, _, h => h
  | count + 1, stop, hle, h => by
    unfold chunkFrom
    split
    · next hnext =>
      rw [← sum_succ s hle] at hnext ⊢
      exact sum_chunkFrom_le s count (stop + 1) (Nat.le_succ_of_le hle) hnext
    · exact h

theorem le_chunkFrom (s : SummaryState) (budget : Nat) :
    ∀ count stop used, stop ≤ chunkFrom s budget count stop used
  | 0, _, _ => le_rfl
  | count + 1, stop, used => by
    unfold chunkFrom
    split
    · exact Nat.le_of_succ_le (le_chunkFrom s budget count (stop + 1) _)
    · exact le_rfl

theorem sum_chunkEnd_le {budget : Nat} (hfits : Fits s budget)
    (hmore : budget < s.sum s.cursor start) :
    s.sum s.cursor (chunkEnd s budget start) ≤ budget := by
  have hstart : s.cursor < start := by
    rcases Nat.lt_or_ge s.cursor start with hlt | hge
    · exact hlt
    · rw [sum_of_le s hge] at hmore
      exact absurd hmore (Nat.not_lt_zero _)
  have hcount : start - s.cursor = (start - s.cursor - 1) + 1 := by omega
  have hone : chunkFrom s budget (start - s.cursor) s.cursor 0 =
      chunkFrom s budget (start - s.cursor - 1) (s.cursor + 1) (0 + s.size s.cursor) := by
    rw [hcount, chunkFrom, if_pos, Nat.add_sub_cancel]
    rw [Nat.zero_add]
    exact hfits.size_le (Nat.le_refl _)
  have hgt : s.cursor + 1 ≤ chunkFrom s budget (start - s.cursor) s.cursor 0 :=
    hone ▸ le_chunkFrom s budget _ _ _
  unfold chunkEnd
  rw [show Nat.max _ _ = _ from Nat.max_eq_left hgt]
  have hsum := sum_chunkFrom_le s (start - s.cursor) s.cursor (Nat.le_refl _)
    (Nat.le_trans (Nat.le_of_eq (sum_self s s.cursor)) (Nat.zero_le budget))
  rwa [sum_self] at hsum

theorem historyChars_le {budget : Nat} (hfits : Fits s budget) :
    (nextRequest input s budget).historyChars ≤
      budget + lengthOf s.running + promptOverheadChars := by
  have hsum : s.sum s.cursor (nextRequest input s budget).stop ≤ budget := by
    simp only [nextRequest]
    split
    · next hfinal => exact of_decide_eq_true hfinal
    · next hfinal =>
      have hmore := of_decide_eq_false (Bool.eq_false_iff.mpr hfinal)
      exact sum_chunkEnd_le hfits (Nat.not_le.mp hmore)
  exact Nat.add_le_add_right (Nat.add_le_add_right hsum _) _

theorem sum_tailFrom_le (s : SummaryState) (lower : Nat) (budget : Int) :
    ∀ start, start ≤ s.sequence.length →
      (s.sum start s.sequence.length ≤ budget ∨ start = s.sequence.length) →
      (s.sum (tailFrom s lower budget start (s.sum start s.sequence.length)) s.sequence.length ≤
          budget ∨
        tailFrom s lower budget start (s.sum start s.sequence.length) = s.sequence.length)
  | 0, _, h => h
  | start + 1, hle, h => by
    unfold tailFrom
    split
    · next hnext =>
      have hsum : s.sum (start + 1) s.sequence.length + s.size start =
          s.sum start s.sequence.length := by
        rw [sum_left s (Nat.lt_of_succ_le hle), add_comm]
      rw [hsum] at hnext ⊢
      exact sum_tailFrom_le s lower budget start (Nat.le_of_succ_le hle) (.inl hnext.2)
    · exact h

theorem sum_tailStart_le (h : tailStart input s < s.sequence.length) :
    (s.sum (tailStart input s) s.sequence.length : Int) ≤ requestBudgetChars input s .turnPrefix := by
  unfold tailStart at h ⊢
  split
  · next hempty =>
    rw [if_pos hempty] at h
    exact absurd h (lt_irrefl _)
  · next hsome =>
    rw [if_neg hsome, ← sum_self s s.sequence.length] at h
    rw [← sum_self s s.sequence.length]
    have hfound := sum_tailFrom_le s (Nat.max s.prefixStart s.cursor)
      (requestBudgetChars input s .turnPrefix) s.sequence.length le_rfl (.inr rfl)
    rcases hfound with hfits | hall
    · exact hfits
    · exact absurd hall (ne_of_lt h)

theorem tailStart_lt_of_tail {budget : Nat}
    (h : (nextRequest input s budget).tail ≠ []) : tailStart input s < s.sequence.length := by
  rcases lt_or_ge (tailStart input s) s.sequence.length with hlt | hge
  · exact hlt
  · simp only [nextRequest, drop_eq_nil_of_le hge, ite_self] at h
    exact absurd rfl h

theorem prefixChars_le {budget : Nat} (h : (nextRequest input s budget).tail ≠ []) :
    ((nextRequest input s budget).prefixChars : Int) ≤
      requestBudgetChars input s .turnPrefix + promptOverheadChars := by
  have hsum := sum_tailStart_le (tailStart_lt_of_tail h)
  show ((s.sum (tailStart input s) s.sequence.length + promptOverheadChars : Nat) : Int) ≤ _
  push_cast
  omega

/-! ## Ceilings -/

/-- A request of a kind is made: there are messages for it. -/
def Request.sends (r : Request) : RequestKind → Bool
  | .history => decide (r.chunk ≠ [])
  | .turnPrefix => decide (r.tail ≠ [])

/-- The longest prefix request there can be: its messages are one text, and no
    text is longer. -/
def maxPrefixChars : Nat := 536870912 + promptOverheadChars

/-- An overflow of the turn prefix is the answer to a request for it. -/
def RejectsTails (provider : Provider) : Prop :=
  ∀ count r tokens, provider count r = .overflow true tokens → r.isFinal = true →
    r.tail ≠ [] ∧ r.prefixChars ≤ maxPrefixChars

/-- The ceiling of a kind is at most a number of characters. -/
def Capped (s : SummaryState) (kind : RequestKind) (chars : Int) : Prop :=
  ∃ ceiling, s.ceiling kind = some ceiling ∧ ceiling ≤ chars

theorem lowest_le_left (a : Int) (b : Option Int) : lowest a b ≤ a := by
  cases b with
  | none => exact Int.le_refl a
  | some b =>
    show (if b < a then b else a) ≤ a
    split <;> omega

theorem lowest_le_right (a b : Int) : lowest a (some b) ≤ b := by
  show (if b < a then b else a) ≤ b
  split <;> omega

theorem Capped.budget (h : Capped s kind chars) :
    requestBudgetChars input s kind + promptOverheadChars ≤ chars := by
  obtain ⟨ceiling, hceiling, hle⟩ := h
  have hlowest := lowest_le_right
    ⌊(s.contextWindow - maxOutputTokens input) * 4 / s.ratio⌋ ceiling
  unfold requestBudgetChars
  rw [hceiling]
  omega

theorem fits_asking (hserialized : SerializesTexts serialized) (hs : Aligned serialized s)
    {budget : Nat} (h : Asks input s budget) : Fits (shrinkLeft serialized s budget) budget := by
  have hroom := h.room
  exact fits_shrinkLeft hserialized hs (le_trans (by decide) hroom)

theorem Capped.chars_le (hserialized : SerializesTexts serialized) (hs : Aligned serialized s)
    {budget : Nat} (h : Asks input s budget) (hcapped : Capped s kind chars)
    (hsends : (asked serialized input s budget).sends kind = true) :
    ((asked serialized input s budget).chars kind : Int) ≤ chars := by
  have hbudget : requestBudgetChars input s kind + promptOverheadChars ≤ chars := hcapped.budget
  cases kind with
  | history =>
    have hchars : (asked serialized input s budget).historyChars ≤
        budget + lengthOf s.running + promptOverheadChars :=
      historyChars_le (fits_asking hserialized hs h)
    have hequal := h.equal
    show ((asked serialized input s budget).historyChars : Int) ≤ chars
    omega
  | turnPrefix =>
    have hchars := prefixChars_le (of_decide_eq_true hsends)
    exact Int.le_trans hchars hbudget

/-! ### What lowers a ceiling -/

theorem ceiling_recalibrate (s : SummaryState) (failedChars : Nat) (tokens : Option OverflowTokens)
    (kind : RequestKind) : (recalibrate s failedChars tokens).ceiling kind = s.ceiling kind := by
  cases tokens <;> cases kind <;> rfl

theorem ceiling_setCeiling_self (s : SummaryState) (kind : RequestKind) (chars : Int) :
    (setCeiling s kind chars).ceiling kind = some chars := by
  cases kind <;> rfl

theorem ceiling_setCeiling_of_ne (s : SummaryState) (chars : Int)
    (h : other ≠ kind) : (setCeiling s kind chars).ceiling other = s.ceiling other := by
  cases kind <;> cases other <;> first | rfl | exact absurd rfl h

theorem Capped.setCeiling {ceiling : Int} (h : Capped s other chars)
    (hlow : other = kind → ceiling ≤ chars) : Capped (setCeiling s kind ceiling) other chars := by
  by_cases hkind : other = kind
  · subst hkind
    exact ⟨ceiling, ceiling_setCeiling_self s other ceiling, hlow rfl⟩
  · obtain ⟨before, hbefore, hle⟩ := h
    exact ⟨before, (ceiling_setCeiling_of_ne s ceiling hkind).trans hbefore, hle⟩

theorem Capped.overflowed (h : Capped s kind chars) (tokens : Option OverflowTokens)
    (hchars : failedKind r ofPrefix = .turnPrefix → kind = .turnPrefix →
      (r.prefixChars : Int) ≤ chars) :
    Capped (overflowed input s r ofPrefix tokens) kind chars := by
  unfold Compaction.overflowed
  dsimp only
  split
  · have hcapped : Capped (recalibrate
        { s with overflows := s.overflows + 1, shrinks := s.shrinks + 1 }
        (r.chars (failedKind r ofPrefix)) tokens) kind chars := by
      obtain ⟨ceiling, hceiling, hle⟩ := h
      refine ⟨ceiling, ?_, hle⟩
      rw [ceiling_recalibrate, ← hceiling]
      cases kind <;> rfl
    refine hcapped.setCeiling fun hkind => ?_
    obtain ⟨ceiling, hceiling, hle⟩ := hcapped
    rw [hkind] at hceiling
    rw [hceiling]
    exact Int.le_trans (lowest_le_right _ _) hle
  · cases hfailed : failedKind r ofPrefix with
    | turnPrefix =>
      have hcounted : Capped { s with overflows := s.overflows + 1 } kind chars := by
        obtain ⟨ceiling, hceiling, hle⟩ := h
        exact ⟨ceiling, by rw [← hceiling]; cases kind <;> rfl, hle⟩
      refine hcounted.setCeiling fun hkind => ?_
      have hle := hchars hfailed hkind
      show ((r.prefixChars / 2 : Nat) : Int) ≤ chars
      omega
    | history =>
      obtain ⟨ceiling, hceiling, hle⟩ := h
      refine ⟨ceiling, ?_, hle⟩
      rw [← hceiling]
      dsimp only
      split <;> cases kind <;> rfl

theorem overflowScale_le (s : SummaryState) (tokens : Option OverflowTokens) :
    overflowScale input s tokens ≤ 9 / 10 := by
  have hlower : ∀ scaled : Rat, (if scaled < 9 / 10 then scaled else 9 / 10) ≤ (9 / 10 : Rat) := by
    intro scaled
    split
    · next hlt => exact le_of_lt hlt
    · exact le_refl _
  exact hlower _

variable (tokens : Option OverflowTokens)

theorem capped_of_overflowed (hpos : 0 < r.chars (failedKind r ofPrefix))
    (h : s.shrinks < maxShrinks ∨ failedKind r ofPrefix = .turnPrefix) :
    Capped (overflowed input s r ofPrefix tokens) (failedKind r ofPrefix)
      (r.chars (failedKind r ofPrefix) - 1) := by
  unfold Compaction.overflowed
  dsimp only
  split
  · refine ⟨_, ceiling_setCeiling_self _ _ _, Int.le_trans (lowest_le_left _ _) ?_⟩
    have hchars : (0 : Rat) < r.chars (failedKind r ofPrefix) := by exact_mod_cast hpos
    refine Int.le_sub_one_of_lt (Int.floor_lt.mpr ?_)
    push_cast
    calc (r.chars (failedKind r ofPrefix) : Rat) * overflowScale input _ tokens
        ≤ r.chars (failedKind r ofPrefix) * (9 / 10) :=
          mul_le_mul_of_nonneg_left (overflowScale_le _ tokens) (le_of_lt hchars)
      _ < r.chars (failedKind r ofPrefix) := by linarith
  · next hshrinks =>
    have hfailed := h.resolve_left hshrinks
    rw [hfailed] at hpos ⊢
    refine ⟨_, rfl, ?_⟩
    show ((r.prefixChars / 2 : Nat) : Int) ≤ (r.prefixChars : Int) - 1
    have hstarts : 0 < r.prefixChars := hpos
    omega

/-! ## Later requests -/

def Event.request : Event → Option Request
  | .sent r _ _ => some r
  | .overflow r _ => some r
  | _ => none

/-- No request of a kind is larger than a number of characters. -/
def NoLarger (kind : RequestKind) (chars : Int) (events : List Event) : Prop :=
  ∀ event ∈ events, ∀ r ∈ event.request, r.sends kind = true → (r.chars kind : Int) ≤ chars

theorem noLarger_nil (kind : RequestKind) (chars : Int) : NoLarger kind chars [] :=
  fun _ hmem => absurd hmem not_mem_nil

theorem NoLarger.append {before after : List Event} (h : NoLarger kind chars before)
    (h' : NoLarger kind chars after) : NoLarger kind chars (before ++ after) :=
  fun event hmem => (mem_append.mp hmem).elim (h event) (h' event)

theorem noLarger_of_none
    (h : ∀ event ∈ events, event.request = none) : NoLarger kind chars events := by
  intro event hmem r hr
  rw [h event hmem] at hr
  cases hr

theorem request_newlyOmitted (s t : SummaryState) :
    ∀ event ∈ newlyOmitted s t, event.request = none := by
  intro event hmem
  unfold newlyOmitted at hmem
  split at hmem
  · rw [mem_singleton.mp hmem]
    rfl
  · exact absurd hmem not_mem_nil

theorem noLarger_request {event : Event} (hevent : event.request = some r)
    (hr : r.sends kind = true → (r.chars kind : Int) ≤ chars)
    (hevents : ∀ event ∈ events, event.request = none) : NoLarger kind chars (event :: events) := by
  intro other hmem r' hr'
  rcases mem_cons.mp hmem with rfl | hmem
  · rw [hevent] at hr'
    cases hr'
    exact hr
  · exact noLarger_of_none hevents other hmem r' hr'

theorem Capped.of_ceiling (h : Capped s kind chars)
    (hceiling : ∀ kind, t.ceiling kind = s.ceiling kind) : Capped t kind chars := by
  obtain ⟨ceiling, hbefore, hle⟩ := h
  exact ⟨ceiling, (hceiling kind).trans hbefore, hle⟩

theorem ceiling_eq (hhistory : t.historyCeiling = s.historyCeiling)
    (hstarts : t.prefixCeiling = s.prefixCeiling) : ∀ kind, t.ceiling kind = s.ceiling kind
  | .history => hhistory
  | .turnPrefix => hstarts

theorem tail_of_reject (hprovider : RejectsTails provider) {count : Nat}
    {tokens : Option OverflowTokens} (hreply : provider count r = .overflow ofPrefix tokens)
    (hfailed : failedKind r ofPrefix = .turnPrefix) :
    r.isFinal = true ∧ r.tail ≠ [] ∧ r.prefixChars ≤ maxPrefixChars := by
  unfold failedKind at hfailed
  split at hfailed
  · next hboth =>
    obtain ⟨hfinal, rfl⟩ := Bool.and_eq_true_iff.mp hboth
    exact ⟨hfinal, hprovider count r tokens hreply hfinal⟩
  · cases hfailed

theorem capped_summaryRound (hserialized : SerializesTexts serialized)
    (hprovider : RejectsTails provider) (hs : Aligned serialized s)
    (hcapped : Capped s kind chars) :
    NoLarger kind chars (summaryRound serialized input provider s).2 ∧
      ∀ t, (summaryRound serialized input provider s).1 = .inl t → Capped t kind chars := by
  have hrounded := rounded_summaryRound serialized input provider s
  have hsent : ∀ {budget}, Asks input s budget →
      (asked serialized input s budget).sends kind = true →
      ((asked serialized input s budget).chars kind : Int) ≤ chars := fun hasks =>
    hcapped.chars_le hserialized hs hasks
  generalize summaryRound serialized input provider s = round at hrounded
  cases hrounded with
  | finished => exact ⟨noLarger_nil kind chars, fun t ht => by cases ht⟩
  | limitReached => exact ⟨noLarger_nil kind chars, fun t ht => by cases ht⟩
  | failed => exact ⟨noLarger_nil kind chars, fun t ht => by cases ht⟩
  | unfold =>
    refine ⟨noLarger_of_none fun event hmem => mem_singleton.mp hmem ▸ rfl, fun t ht => ?_⟩
    cases ht
    exact hcapped.of_ceiling (ceiling_eq rfl rfl)
  | omitRest =>
    refine ⟨noLarger_of_none fun event hmem => mem_singleton.mp hmem ▸ rfl, fun t ht => ?_⟩
    cases ht
    exact hcapped.of_ceiling (ceiling_eq rfl rfl)
  | last budget hasks =>
    exact ⟨noLarger_request rfl (hsent hasks) fun _ hmem => absurd hmem not_mem_nil,
      fun t ht => by cases ht⟩
  | folded budget hasks =>
    refine ⟨noLarger_request rfl (hsent hasks) fun _ hmem => absurd hmem not_mem_nil,
      fun t ht => ?_⟩
    cases ht
    exact hcapped.of_ceiling (ceiling_eq rfl rfl)
  | overflow budget hasks ofPrefix tokens hreply t ht =>
    refine ⟨noLarger_request rfl (hsent hasks) (request_newlyOmitted _ _), fun t' ht' => ?_⟩
    cases ht'
    have hasking : Capped (asking serialized s budget) kind chars :=
      hcapped.of_ceiling (ceiling_eq rfl rfl)
    rw [ht]
    refine hasking.overflowed tokens fun hfailed hkind => ?_
    obtain ⟨-, htail, -⟩ := tail_of_reject hprovider hreply hfailed
    subst hkind
    exact hsent hasks (decide_eq_true htail)

theorem noLarger_loop (hserialized : SerializesTexts serialized)
    (hprovider : RejectsTails provider) :
    ∀ (rounds : Nat) {s : SummaryState} {events : List Event}, Aligned serialized s →
      Capped s kind chars → loop serialized input provider rounds s = some (outcome, events) →
      NoLarger kind chars events
  | 0, _, _, _, _, h => by simp [loop] at h
  | rounds + 1, s, events, hs, hcapped, h => by
    have hboth : NoLarger kind chars (summaryRound serialized input provider s).2 ∧ _ :=
      capped_summaryRound hserialized hprovider hs hcapped
    obtain ⟨hround, hnext⟩ := hboth
    rcases loop_cases serialized input provider h with hend | ⟨t, first, later, hgo, hlater, rfl⟩
    · rw [hend] at hround
      exact hround
    · rw [hgo] at hround hnext
      exact hround.append (noLarger_loop hserialized hprovider rounds
        (tells_summaryRound hs hgo).aligned (hnext t rfl) hlater)

/-! ## States that have been asked about -/

/-- All sizes are those of messages. -/
structure Sound (serialized : Message → Nat) (s : SummaryState) : Prop where
  aligned : Aligned serialized s
  sized   : ∀ n ∈ s.sizes, 2 ≤ n

theorem two_le_serializedChars (m : Message) : 2 ≤ serializedChars serialized m :=
  Nat.le_add_left 2 _

theorem sound_initial : Sound serialized (initial serialized input) where
  aligned := aligned_initial
  sized n hmem := by
    obtain ⟨m, -, rfl⟩ := mem_map.mp hmem
    exact two_le_serializedChars m

theorem Sound.shrinkLeft (h : Sound serialized s) (budget : Nat) :
    Sound serialized (shrinkLeft serialized s budget) where
  aligned := aligned_shrinkLeft h.aligned budget
  sized n hmem := by
    rcases mem_append.mp hmem with hmem | hmem
    · exact h.sized n (mem_of_mem_take hmem)
    · obtain ⟨index, hindex, rfl⟩ := getElem_of_mem hmem
      rw [getElem_zipWith, fittedSize]
      split
      · exact two_le_serializedChars _
      · exact h.sized _ (mem_of_mem_drop (getElem_mem _))

theorem Sound.asking (h : Sound serialized s) (budget : Nat) :
    Sound serialized (asking serialized s budget) :=
  ⟨(tells_asking h.aligned budget).aligned, (h.shrinkLeft budget).sized⟩

theorem Sound.unfoldRunning (h : Sound serialized s) (pieces : List Message) :
    Sound serialized (unfoldRunning serialized s pieces) where
  aligned := aligned_unfoldRunning h.aligned pieces
  sized n hmem := by
    simp only [Compaction.unfoldRunning, splice, mem_append, mem_map] at hmem
    rcases hmem with (hmem | ⟨m, -, rfl⟩) | hmem
    · exact h.sized n (mem_of_mem_take hmem)
    · exact two_le_serializedChars m
    · exact h.sized n (mem_of_mem_drop hmem)

theorem sizes_overflowed (s : SummaryState) (r : Request) (ofPrefix : Bool)
    (tokens : Option OverflowTokens) : (overflowed input s r ofPrefix tokens).sizes = s.sizes := by
  rcases overflowed_cases input s r ofPrefix tokens with hsame | ⟨-, -, homit⟩
  · exact hsame.sizes
  · rw [homit]
    rfl

theorem sound_summaryRound (h : Sound serialized s)
    (hround : summaryRound serialized input provider s = (.inl t, events)) : Sound serialized t := by
  refine ⟨(tells_summaryRound h.aligned hround).aligned, ?_⟩
  have hrounded := rounded_summaryRound serialized input provider s
  rw [hround] at hrounded
  cases hrounded with
  | unfold => exact (h.unfoldRunning _).sized
  | omitRest => exact h.sized
  | folded budget => exact (h.asking budget).sized
  | overflow budget _ _ _ _ _ ht =>
    rw [ht, sizes_overflowed]
    exact (h.asking budget).sized

/-- A state for which a request was made: until the running summary changes, the
    next request has the same budget and finds the same messages. -/
structure Settled (input : SummaryInput) (s : SummaryState) (budget : Nat) : Prop where
  kept  : ¬ (isTruthy s.running ∧
    requestBudgetChars input s .history < 2 * (lengthOf s.running : Int) ∧
    s.unfolds < maxSummaryUnfolds)
  equal : requestBudgetChars input s .history - lengthOf s.running = budget
  room  : minChunkChars ≤ budget
  fits  : Fits s budget

theorem settled_asking (hserialized : SerializesTexts serialized)
    (hs : Aligned serialized s) {budget : Nat} (h : Asks input s budget) :
    Settled input (asking serialized s budget) budget where
  kept := h.kept
  equal := h.equal
  room := h.room
  fits := fits_asking hserialized hs h

theorem Settled.asked_eq {budget other : Nat} (h : Settled input s budget)
    (hs : Aligned serialized s) (hasks : Asks input s other) :
    other = budget ∧ asked serialized input s other = nextRequest input s budget ∧
      asking serialized s other = { s with requests := s.requests + 1 } := by
  have hequal : other = budget := by
    have hleft := h.equal
    have hright := hasks.equal
    omega
  subst hequal
  unfold asked asking
  rw [shrinkLeft_of_fits hs h.fits]
  exact ⟨rfl, rfl, rfl⟩

/-- The first request among some events. -/
def firstRequest (events : List Event) : Option Request := (events.filterMap Event.request).head?

theorem Settled.firstRequest {budget : Nat} (h : Settled input s budget) (hs : Aligned serialized s)
    {rounds : Nat} (hrun : loop serialized input provider rounds s = some (outcome, events)) :
    ∀ r ∈ firstRequest events, r = nextRequest input s budget := by
  cases rounds with
  | zero => simp [loop] at hrun
  | succ rounds =>
    intro r hr
    have hrounded := rounded_summaryRound serialized input provider s
    rcases loop_cases serialized input provider hrun with hend | ⟨t, first, later, hgo, -, rfl⟩
    · rw [hend] at hrounded
      cases hrounded with
      | finished => cases hr
      | limitReached => cases hr
      | failed => cases hr
      | last other hasks =>
        exact (Option.some.inj hr).symm.trans (h.asked_eq hs hasks).2.1
    · rw [hgo] at hrounded
      cases hrounded with
      | unfold _ _ _ _ htruthy hlong hunfolds => exact absurd ⟨htruthy, hlong, hunfolds⟩ h.kept
      | omitRest _ _ hbudget =>
        have hequal := h.equal
        have hroom := h.room
        omega
      | folded other hasks =>
        exact (Option.some.inj hr).symm.trans (h.asked_eq hs hasks).2.1
      | overflow other hasks =>
        exact (Option.some.inj hr).symm.trans (h.asked_eq hs hasks).2.1

end Rounds

end Cohub.Compaction
