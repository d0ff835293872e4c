import Cohub.Wallet.Conserved

/-! # What the transfer programs keep to

    One rule for each program: what it starts from and what it ends with,
    however the ledger moves while the program is without the lock.  The
    result for all interleavings is at the end. -/

namespace Cohub.Wallet

open LockedRuns Relation List

/-- `Sound` over the ledger's invariant. -/
abbrev Keeps {α : Type} (post : Bool → Ledger → α → Prop) (p : Call α) (held : Bool) (s : Ledger) :
    Prop :=
  Sound Move Consistent billing post p held s

abbrev After (held : Bool) (s : Ledger) (held' : Bool) (s' : Ledger) : Prop :=
  Later Move held s held' s'

section

variable {held : Bool} {s : Ledger}

/-! ## Reads -/

theorem keeps_getUsageConsumption (hs : Consistent s) :
    Keeps (fun held' s' consumption => After held s held' s' ∧ consumption = s'.consumption)
      getUsageConsumption held s :=
  sound_read consistent_move hs fun _ _ hlater _ hanswer => ⟨hlater, hanswer⟩

theorem keeps_sumDebit (hs : Consistent s) :
    Keeps (fun held' s' totals => After held s held' s' ∧
      ∀ debit, s'.debit = some debit → totals.consumeUsd = debit.consumeUsd) sumDebit held s :=
  sound_read consistent_move hs fun _ _ hlater _ hanswer => ⟨hlater, hanswer⟩

theorem keeps_sumCredit (hs : Consistent s) (index : Nat) :
    Keeps (fun held' s' totals => After held s held' s' ∧ totals.grantUsd = s'.grantUsd index)
      (sumCredit index) held s :=
  sound_read consistent_move hs fun _ _ hlater _ hanswer => ⟨hlater, hanswer⟩

theorem keeps_read {q : Query} (hs : Consistent s) :
    Keeps (fun held' s' _ => After held s held' s') (Call.read q) held s :=
  sound_read consistent_move hs fun _ _ hlater _ _ => hlater

theorem keeps_denominations (hs : Consistent s) :
    Keeps (fun held' s' list => After held s held' s' ∧ ∀ item ∈ list, Payable item.amountUsd)
      denominations held s := by
  apply sound_bind (keeps_read hs)
  intro held' s' list hs' hlater
  refine sound_pure hs' ⟨hlater, ?_⟩
  intro item hitem
  have hallowed := of_decide_eq_true (mem_filter.mp hitem).2
  exact ⟨whole_of_isInteger hallowed.1, hallowed.2⟩

/-! ## Landed credits -/

theorem lookup_of_indices {l : List (Nat × Rat)} {k : Nat}
    (h : l.map Prod.fst = range' k l.length) (i : Nat) :
    l.lookup (k + i) = (l[i]?).map Prod.snd := by
  induction l generalizing k i with
  | nil => rfl
  | cons head rest ih =>
    simp only [map_cons, length_cons, range'_succ, cons.injEq] at h
    obtain ⟨hhead, hrest⟩ := h
    obtain ⟨index, amount⟩ := head
    simp only at hhead
    subst hhead
    cases i with
    | zero => exact lookup_cons_self
    | succ i =>
      have hne : (index + (i + 1) == index) = false := by
        rw [beq_eq_false_iff_ne]
        omega
      have hnext : index + (i + 1) = index + 1 + i := by omega
      rw [lookup_cons, hne, hnext]
      exact ih hrest i

theorem Consistent.lookup (h : Consistent s) (i : Nat) :
    s.grants.lookup i = (s.grants[i]?).map Prod.snd := by
  have hindices := h.indices
  rw [range_eq_range'] at hindices
  have := lookup_of_indices hindices i
  rwa [zero_add] at this

theorem Consistent.lookup_length (h : Consistent s) : s.grants.lookup s.grants.length = none := by
  rw [h.lookup, getElem?_eq_none (le_refl _)]
  rfl

section

variable {front back : List (Nat × Rat)}

theorem Consistent.grantUsd_front (h : Consistent s) (hgrants : s.grants = front ++ back) :
    s.grantUsd front.length = (back.head?.map Prod.snd).getD 0 := by
  unfold Ledger.grantUsd
  rw [h.lookup, hgrants, getElem?_append_right (le_refl _), Nat.sub_self, head?_eq_getElem?]

theorem Consistent.payable_back (h : Consistent s) (hgrants : s.grants = front ++ back) :
    ∀ grant ∈ back, Payable grant.2 := by
  intro grant hgrant
  apply h.amounts
  rw [hgrants]
  exact mem_append_right _ hgrant

/-- What `landed` has seen: no more than there is, and all of it if nothing
    was granted meanwhile. -/
structure Seen (held : Bool) (s : Ledger) (held' : Bool) (s' : Ledger) (found : Landed) : Prop where
  later : After held s held' s'
  whole : Whole found.usd
  le    : found.usd ≤ s'.creditedUsd
  exact : s'.grants = s.grants → found.count = s.grants.length ∧ found.usd = s.creditedUsd

variable {held' : Bool} {s' : Ledger}

theorem Consistent.seen_all (h : Consistent s')
    (hlater : After held s held' s') (hgrants : s'.grants = front) :
    Seen held s held' s' { count := front.length, usd := usd (total front) } := by
  have hwhole : Whole (total front) := by
    apply total_whole
    rw [← hgrants]
    exact h.amounts
  have hcredited : s'.creditedUsd = total front := congrArg total hgrants
  rw [usd_whole hwhole]
  refine ⟨hlater, hwhole, hcredited.ge, ?_⟩
  intro heq
  rw [← heq, hgrants]
  exact ⟨rfl, (congrArg total (hgrants.symm.trans heq))⟩

theorem Seen.after {held'' : Bool} {s'' : Ledger} {found : Landed} (hlater : After held s held' s')
    (h : Seen held' s' held'' s'' found) : Seen held s held'' s'' found := by
  refine ⟨hlater.trans h.later, h.whole, h.le, ?_⟩
  intro heq
  obtain ⟨hfirst, hsecond⟩ := grants_between hlater.moves h.later.moves heq
  obtain ⟨hcount, husd⟩ := h.exact hsecond
  rw [hcount, husd, hfirst]
  exact ⟨rfl, congrArg total hfirst⟩

theorem keeps_countLanded (rounds : Nat) (hs : Consistent s) (hgrants : s.grants = front ++ back)
    (hrounds : front.length + rounds = MAX_PIECES) :
    Keeps (Seen held s) (countLanded rounds front.length (total front)) held s := by
  induction rounds generalizing front back held s with
  | zero =>
    -- no more than `MAX_PIECES` credits are ever granted
    have hback : back = [] := by
      have hpieces := hs.pieces
      rw [hgrants, length_append] at hpieces
      exact length_eq_zero_iff.mp (by omega)
    subst hback
    rw [append_nil] at hgrants
    exact sound_pure hs (hs.seen_all (Later.refl _ _) hgrants)
  | succ rounds ih =>
    unfold countLanded
    apply sound_bind (keeps_sumCredit hs front.length)
    rintro held' s' totals hs' ⟨hlater, htotals⟩
    obtain ⟨more, hmore⟩ := (grown_of_moves hlater.moves).grants
    rw [hgrants, append_assoc] at hmore
    rw [hs'.grantUsd_front hmore] at htotals
    cases hrest : back ++ more with
    | nil =>
      rw [hrest] at htotals hmore
      rw [append_nil] at hmore
      have hzero : totals.grantUsd = 0 := htotals
      rw [hzero, if_pos (le_refl _)]
      exact sound_pure hs' (hs'.seen_all hlater hmore)
    | cons grant rest =>
      rw [hrest] at htotals hmore
      have hgrant : totals.grantUsd = grant.2 := htotals
      have hpositive : 0 < grant.2 :=
        (hs'.payable_back hmore grant mem_cons_self).2
      rw [hgrant, if_neg (not_le.mpr hpositive)]
      have hnext : front ++ grant :: rest = (front ++ [grant]) ++ rest := by simp
      have hlength : (front ++ [grant]).length = front.length + 1 := by simp
      have htotal : total (front ++ [grant]) = total front + grant.2 := by
        rw [total_append]
        simp [total]
      rw [hnext] at hmore
      rw [← hlength, ← htotal]
      have hloop : Keeps (Seen held' s') _ held' s' := ih hs' hmore (by omega)
      exact hloop.weaken fun held'' s'' found _ hseen => hseen.after hlater

end

theorem keeps_landed (hs : Consistent s) : Keeps (Seen held s) landed held s := by
  have hgrants : s.grants = [] ++ s.grants := rfl
  exact keeps_countLanded MAX_PIECES hs hgrants (zero_add _)

/-! ## Status and refund -/

theorem Ledger.consumption_cases (s : Ledger) :
    (s.debit = none ∧ s.consumption = none) ∨
      ∃ debit, s.debit = some debit ∧
        s.consumption = some { amountUsd := debit.amountUsd, reversedUsd := s.refundedUsd } := by
  unfold Ledger.consumption
  cases s.debit with
  | none => exact .inl ⟨rfl, rfl⟩
  | some debit => exact .inr ⟨debit, rfl, rfl⟩

theorem reported_noTransfer : Reported held s noTransfer := by
  rintro (h | h) <;> cases h

variable {debit : Debit}

theorem Consistent.credited_le (h : Consistent s) (hdebit : s.debit = some debit) :
    s.creditedUsd ≤ debit.amountUsd :=
  (h.debited debit hdebit).credits

theorem Consistent.refundedUsd_nonneg (h : Consistent s) : 0 ≤ s.refundedUsd := by
  unfold Ledger.refundedUsd
  cases hrefund : s.refund with
  | none => exact le_refl _
  | some r =>
    obtain ⟨debit, hdebit, _⟩ := h.settled_of_refund hrefund
    exact ((h.debited debit hdebit).refunds r hrefund).1.le

theorem keeps_status (hs : Consistent s) : Keeps Reported status held s := by
  apply sound_bind (keeps_getUsageConsumption hs)
  rintro h₁ s₁ consumption hs₁ ⟨_, hconsumption⟩
  rcases s₁.consumption_cases with ⟨_, hnone⟩ | ⟨debit, hdebit, hsome⟩
  · rw [hconsumption, hnone]
    exact sound_pure hs₁ reported_noTransfer
  · rw [hconsumption, hsome]
    apply sound_bind (keeps_landed hs₁)
    intro h₂ s₂ found hs₂ hseen
    apply sound_pure hs₂
    have hdebit₂ := (grown_of_moves hseen.later.moves).debit debit hdebit
    intro hterminal
    simp only
    by_cases hreversed : 0 < s₁.refundedUsd
    · -- after the refund nothing moves any more
      cases hrefund : s₁.refund with
      | none =>
        unfold Ledger.refundedUsd at hreversed
        rw [hrefund] at hreversed
        exact absurd hreversed (lt_irrefl _)
      | some r =>
        have hsettled := hs₁.settled_of_refund hrefund
        have hsame := hsettled.final hseen.later.moves
        rw [hsame]
        refine ⟨hsettled, ⟨debit, hdebit, rfl⟩, ?_, rfl⟩
        exact (hseen.exact (congrArg Ledger.grants hsame)).2
    · have hcompleted : debit.amountUsd ≤ found.usd := by
        by_contra hless
        rcases hterminal with h | h
        · simp [hreversed, hless] at h
        · simp [hreversed, hless] at h
      have hle := hseen.le
      have hcredits := hs₂.credited_le hdebit₂
      apply hs₂.reports_completed hdebit₂ (by linarith) rfl
      · show found.usd = debit.amountUsd
        linarith
      · exact le_antisymm (not_lt.mp hreversed) hs₁.refundedUsd_nonneg

theorem Consistent.reports_refunded (h : Consistent s) (hdebit : s.debit = some debit)
    (hrefund : s.refund = some (debit.amountUsd - s.creditedUsd)) :
    Reports s {
      state := .refunded, amountUsd := debit.amountUsd, creditedUsd := s.creditedUsd,
      refundedUsd := debit.amountUsd - s.creditedUsd } := by
  refine ⟨h.settled_of_refund hrefund, ⟨debit, hdebit, rfl⟩, rfl, ?_⟩
  unfold Ledger.refundedUsd
  rw [hrefund]
  rfl

theorem keeps_refund (hs : Consistent s) (hdebit : s.debit = some debit) :
    Keeps Reported (refund debit.amountUsd) held s := by
  apply sound_bind (keeps_landed hs)
  intro h₁ s₁ found hs₁ hseen
  have hdebit₁ := (grown_of_moves hseen.later.moves).debit debit hdebit
  have hwithin := hs₁.debited debit hdebit₁
  simp only
  rw [usd_whole (hwithin.payable.1.sub hseen.whole)]
  split
  · next hremainder =>
    have hcall : Keeps (fun _ s' outcome => outcome = .ok () → s'.debit = some debit ∧
        s'.creditedUsd = found.usd ∧ s'.refund = some (debit.amountUsd - found.usd))
        (Call.guarded (.reverseUsage (debit.amountUsd - found.usd))) h₁ s₁ := by
      -- with the lock, nothing was granted since the credits were counted
      apply sound_guarded consistent_move hs₁
      intro hheld s' outcome heffect
      have hsame := (hseen.later.same hheld).2
      have hcredited : found.usd = s₁.creditedUsd := by
        rw [hsame]
        exact (hseen.exact (congrArg Ledger.grants hsame)).2
      cases heffect with
      | failed e => exact ⟨.inl rfl, nofun⟩
      | applied _ happlied =>
        cases happlied with
        | reverseUsage _ hnew =>
          rw [hcredited] at hremainder ⊢
          exact ⟨.inr (.reverseUsage debit hdebit₁ hnew (by linarith)),
            fun _ => ⟨hdebit₁, rfl, rfl⟩⟩
      | repeated hhas =>
        refine ⟨.inl rfl, fun _ => ⟨hdebit₁, hcredited.symm, ?_⟩⟩
        cases hrefund : s₁.refund with
        | none => exact absurd hrefund hhas
        | some r =>
          have hsum := (hwithin.refunds r hrefund).2
          rw [hcredited, ← hsum]
          congr 1
          linarith
    apply sound_bind hcall
    intro h₂ s₂ outcome hs₂ hpost
    cases outcome with
    | error e => exact sound_throw hs₂
    | ok =>
      obtain ⟨hdebit₂, hcredited, hrefund⟩ := hpost rfl
      apply sound_pure hs₂
      intro _
      rw [← hcredited] at hrefund ⊢
      exact hs₂.reports_refunded hdebit₂ hrefund
  · next hremainder =>
    have hle := hseen.le
    have hcredits := hwithin.credits
    have hnonneg := not_lt.mp hremainder
    apply sound_pure hs₁
    intro _
    apply hs₁.reports_completed hdebit₁ (by linarith) rfl
    · show found.usd = debit.amountUsd
      linarith
    · exact le_antisymm (Number.maximum_le (le_refl _) hnonneg) (Number.le_maximum_left _ _)

/-! ## Grants -/

/-- Where the loop over the pieces stands: with the lock, the pieces that are
    left are what the credits leave of the debit. -/
structure Granting (debit : Debit) (index : Nat) (plan : List Denomination) (held : Bool)
    (s : Ledger) : Prop where
  debited : s.debit = some debit
  covered : debit.amountUsd ≤ debit.consumeUsd
  payable : ∀ piece ∈ plan, Payable piece.amountUsd
  locked  : plan = [] → held = true
  refund  : held = true → s.refund = none
  place   : held = true → s.grants.length = index
  room    : held = true → index + plan.length ≤ MAX_PIECES
  sum     : held = true → s.creditedUsd + sumUsd plan = debit.amountUsd

variable {plan : List Denomination} {index : Nat} {amountUsd : Rat}

theorem sumUsd_nonneg (h : ∀ piece ∈ plan, Payable piece.amountUsd) : 0 ≤ sumUsd plan := by
  induction plan with
  | nil => exact le_refl _
  | cons piece rest ih =>
    have hpiece := (h piece mem_cons_self).2
    have hrest := ih fun other hother => h other (mem_cons_of_mem _ hother)
    simp only [sumUsd]
    linarith

theorem Granting.call {piece : Denomination} {rest : List Denomination}
    {s' : Ledger} {outcome : Except Failure Unit} (hs : Consistent s)
    (h : Granting debit index (piece :: rest) held s) (hheld : held = true)
    (heffect : Effect s (.grantCredits index piece) s' outcome) :
    (s' = s ∨ Move s s') ∧ s'.debit = some debit ∧
      (outcome = .ok () → Granting debit (index + 1) rest true s') := by
  have hindex := h.place hheld
  have hfresh := hs.lookup_length
  rw [hindex] at hfresh
  cases heffect with
  | failed e => exact ⟨.inl rfl, h.debited, nofun⟩
  | repeated hhas => exact absurd hfresh hhas
  | applied _ happlied =>
    cases happlied with
    | grantCredits _ _ hnew =>
      have hsum := h.sum hheld
      have hroom := h.room hheld
      have hpayable : ∀ other ∈ rest, Payable other.amountUsd :=
        fun other hother => h.payable other (mem_cons_of_mem _ hother)
      have hrest := sumUsd_nonneg hpayable
      simp only [sumUsd] at hsum
      simp only [length_cons] at hroom
      have hmove : Move s { s with grants := s.grants ++ [(s.grants.length, piece.amountUsd)] } :=
        .grantCredits debit piece.amountUsd h.debited h.covered (h.refund hheld)
          (h.payable piece mem_cons_self) (by linarith) (by omega)
      rw [hindex] at hmove
      refine ⟨.inr hmove, h.debited, fun _ => ?_⟩
      have hcredited : total (s.grants ++ [(index, piece.amountUsd)]) =
          s.creditedUsd + piece.amountUsd := by
        rw [← hindex]
        exact creditedUsd_append s piece.amountUsd
      refine ⟨h.debited, h.covered, hpayable, fun _ => rfl, fun _ => h.refund hheld, ?_, ?_, ?_⟩
      · intro _
        simp only [length_append, length_singleton, hindex]
      · intro _
        omega
      · intro _
        show total _ + _ = _
        rw [hcredited]
        linarith

theorem keeps_grantPieces (hs : Consistent s) (h : Granting debit index plan held s) :
    Keeps Reported (grantPieces debit.amountUsd index plan) held s := by
  induction plan generalizing held s index with
  | nil =>
    have hsum := h.sum (h.locked rfl)
    rw [sumUsd, add_zero] at hsum
    apply sound_pure hs
    intro _
    exact hs.reports_completed h.debited hsum.ge rfl rfl rfl
  | cons piece rest ih =>
    have hcall : Keeps (fun held' s' outcome => s'.debit = some debit ∧
        (outcome = .ok () → Granting debit (index + 1) rest held' s'))
        (Call.guarded (.grantCredits index piece)) held s :=
      sound_guarded consistent_move hs fun hheld s' outcome heffect => h.call hs hheld heffect
    apply sound_bind hcall
    rintro h₁ s₁ outcome hs₁ ⟨hdebit, hnext⟩
    cases outcome with
    | ok => exact ih hs₁ (hnext rfl)
    | error e =>
      simp only
      split
      · exact keeps_refund hs₁ hdebit
      · exact sound_throw hs₁

/-! ## Settlement, start and recovery -/

theorem keeps_settle (mode : Mode) (hs : Consistent s) : Keeps Reported (settle mode) held s := by
  apply sound_bind (keeps_getUsageConsumption hs)
  rintro h₁ s₁ consumption hs₁ ⟨_, hconsumption⟩
  rcases s₁.consumption_cases with ⟨_, hnone⟩ | ⟨debit, hdebit, hsome⟩
  · rw [hconsumption, hnone]
    exact sound_pure hs₁ reported_noTransfer
  rw [hconsumption, hsome]
  simp only
  split
  · exact keeps_status hs₁
  next hreversed =>
  split
  · exact keeps_refund hs₁ hdebit
  apply sound_bind (keeps_sumDebit hs₁)
  rintro h₂ s₂ totals hs₂ ⟨hlater₂, htotals⟩
  have hdebit₂ := (grown_of_moves hlater₂.moves).debit debit hdebit
  rw [htotals debit hdebit₂]
  split
  · exact keeps_refund hs₂ hdebit₂
  next hcovered =>
  apply sound_bind (keeps_landed hs₂)
  intro h₃ s₃ found hs₃ hseen
  have hdebit₃ := (grown_of_moves hseen.later.moves).debit debit hdebit₂
  have hwithin := hs₃.debited debit hdebit₃
  have hwhole := hwithin.payable.1.sub hseen.whole
  rw [usd_whole hwhole]
  split
  · next hremaining =>
    have hle := hseen.le
    apply sound_pure hs₃
    intro _
    exact hs₃.reports_completed hdebit₃ (by linarith) rfl rfl rfl
  apply sound_bind (keeps_denominations hs₃)
  rintro h₄ s₄ list hs₄ ⟨hlater₄, hlist⟩
  have hdebit₄ := (grown_of_moves hlater₄.moves).debit debit hdebit₃
  cases hplan : planSpaceWalletTransfer (debit.amountUsd - found.usd) list with
  | none => exact keeps_refund hs₄ hdebit₄
  | some plan =>
    simp only
    split
    · exact keeps_refund hs₄ hdebit₄
    next hroom =>
    obtain ⟨hsum, hne, hpayable⟩ := plan_pays hwhole hlist hplan
    -- with the lock, the ledger is as it was read
    have hsame : h₄ = true → s₄ = s₁ ∧ s₄ = s₂ := by
      intro hheld
      obtain ⟨hheld₃, hsame₄⟩ := hlater₄.same hheld
      obtain ⟨hheld₂, hsame₃⟩ := hseen.later.same hheld₃
      obtain ⟨_, hsame₂⟩ := hlater₂.same hheld₂
      rw [hsame₄, hsame₃, hsame₂]
      exact ⟨rfl, rfl⟩
    have hexact : h₄ = true → found.count = s₄.grants.length ∧ found.usd = s₄.creditedUsd := by
      intro hheld
      obtain ⟨hheld₃, _⟩ := hlater₄.same hheld
      have hsame₃ := (hseen.later.same hheld₃).2
      rw [(hsame hheld).2]
      exact hseen.exact (congrArg Ledger.grants hsame₃)
    refine keeps_grantPieces hs₄ ⟨hdebit₄, not_lt.mp hcovered, hpayable, fun hnil => absurd hnil hne,
      ?_, ?_, ?_, ?_⟩
    · intro hheld
      rw [(hsame hheld).1]
      exact hs₁.refund_none_of_le hdebit (not_lt.mp hreversed)
    · exact fun hheld => (hexact hheld).1.symm
    · exact fun _ => not_lt.mp hroom
    · intro hheld
      rw [← (hexact hheld).2, hsum]
      linarith

theorem reported_pending (amountUsd : Rat) : Reported held s (pending amountUsd) := by
  rintro (h | h) <;> cases h

theorem keeps_trySettle (amountUsd : Rat) (hs : Consistent s) :
    Keeps Reported (trySettle amountUsd) held s :=
  sound_tryCatch (keeps_settle .credit hs) fun _ _ _ hs' =>
    sound_pure hs' (reported_pending amountUsd)

theorem keeps_startAgain (amountUsd : Rat) (existing : Consumption) (hs : Consistent s) :
    Keeps Reported (startAgain amountUsd existing) held s := by
  unfold startAgain
  split
  · exact sound_throw hs
  split
  · exact keeps_status hs
  apply sound_bind (keeps_read hs)
  intro h₁ s₁ _ hs₁ _
  exact keeps_trySettle amountUsd hs₁

theorem keeps_allowance (hs : Consistent s) : Keeps (fun _ _ _ => True) allowance held s := by
  apply sound_bind (keeps_read hs)
  intro h₁ s₁ credit hs₁ _
  apply sound_bind (keeps_read hs₁)
  intro h₂ s₂ totals hs₂ _
  exact sound_pure hs₂ trivial

theorem keeps_recordUsage (hamount : Payable amountUsd) (hs : Consistent s) :
    Keeps (fun _ _ _ => True) (Call.guarded (.recordUsage amountUsd)) held s := by
  apply sound_guarded consistent_move hs
  intro _ s' outcome heffect
  refine ⟨?_, trivial⟩
  cases heffect with
  | failed e => exact .inl rfl
  | repeated hhas => exact .inl rfl
  | applied _ happlied =>
    cases happlied with
    | recordUsage _ consumeUsd hnew => exact .inr (.recordUsage amountUsd consumeUsd hnew hamount)

theorem keeps_startFirst (hamount : Payable amountUsd) (hs : Consistent s) :
    Keeps Reported (startFirst amountUsd) held s := by
  apply sound_bind (keeps_denominations hs)
  intro h₁ s₁ list hs₁ _
  apply sound_bind (keeps_allowance hs₁)
  intro h₂ s₂ available hs₂ _
  apply sound_bind (keeps_read hs₂)
  intro h₃ s₃ usable hs₃ _
  split
  · exact sound_throw hs₃
  split
  · exact sound_throw hs₃
  apply sound_bind (keeps_read hs₃)
  intro h₄ s₄ allowed hs₄ _
  split
  · exact sound_throw hs₄
  apply sound_bind (keeps_read hs₄)
  intro h₅ s₅ _ hs₅ _
  apply sound_bind (keeps_read hs₅)
  intro h₆ s₆ _ hs₆ _
  apply sound_bind (keeps_recordUsage hamount hs₆)
  intro h₇ s₇ outcome hs₇ _
  cases outcome with
  | ok => exact keeps_trySettle amountUsd hs₇
  | error e =>
    simp only
    split
    · exact sound_throw hs₇
    · exact sound_pure hs₇ (reported_pending amountUsd)

theorem keeps_start (configured : Bool) (amountUsd : Rat) (hs : Consistent s) :
    Keeps Reported (start configured amountUsd) held s := by
  unfold start
  split
  · exact sound_throw hs
  split
  · exact sound_throw hs
  next hvalid =>
  have hamount : Payable amountUsd := by
    rw [not_or, not_or, Bool.not_eq_false] at hvalid
    obtain ⟨hinteger, hmin, _⟩ := hvalid
    refine ⟨whole_of_isInteger hinteger, ?_⟩
    unfold SPACE_WALLET_TRANSFER_MIN_USD at hmin
    linarith [not_lt.mp hmin]
  apply sound_withLock consistent_move reported_stable hs
  intro s₁ hs₁
  apply sound_bind (keeps_getUsageConsumption hs₁)
  intro h₂ s₂ consumption hs₂ _
  cases consumption with
  | some existing => exact keeps_startAgain amountUsd existing hs₂
  | none => exact keeps_startFirst hamount hs₂

theorem keeps_recoverWith (mode : Mode) (attempts : Nat) (hs : Consistent s) :
    Keeps Reported (recoverWith mode attempts) held s := by
  have hattempt : ∀ {held s}, Consistent s →
      Keeps Reported (Call.withLock busy (settle mode)) held s := fun hs =>
    sound_withLock consistent_move reported_stable hs fun s' hs' => keeps_settle mode hs'
  induction attempts generalizing held s with
  | zero => exact hattempt hs
  | succ attempts ih =>
    apply sound_tryCatch (hattempt hs)
    intro h₁ s₁ e hs₁
    split
    · exact ih hs₁
    · exact sound_throw hs₁

theorem started_good {p} (hp : Started p) (hs : Consistent s) :
    Good Move billing (Ends Consistent Reported) p false s := by
  cases hp with
  | start configured amountUsd => exact keeps_start configured amountUsd hs
  | status => exact keeps_status hs
  | recover mode => exact keeps_recoverWith mode 5 hs

end

/-! ## All interleavings -/

def Ledger.debitedUsd (s : Ledger) : Rat :=
  match s.debit with
  | none => 0
  | some debit => debit.amountUsd

/-- The transfer's runs, the lock and the ledger. -/
abbrev Transfers :=
  Pool Query (fun q => Except Failure q.Value) Mutation Failure Ledger (Except Failure TransferStatus)

/-- No program has run. -/
def Transfers.fresh : Transfers :=
  { store := Ledger.empty, holder := none, runs := fun _ => none }

abbrev Transfers.Steps : Transfers → Transfers → Prop := Step billing Started

theorem reachable_keeps {pool : Transfers} (hreach : ReflTransGen Transfers.Steps .fresh pool) :
    AllGood billing Move Consistent (Ends Consistent Reported) pool :=
  reachable_good (fun _ hp _ hs => started_good hp hs) consistent_move
    (ends_stable consistent_move reported_stable) Consistent.empty hreach

variable (s : Ledger)

theorem Consistent.within (h : Consistent s) : s.creditedUsd + s.refundedUsd ≤ s.debitedUsd := by
  unfold Ledger.debitedUsd
  cases hdebit : s.debit with
  | none =>
    obtain ⟨hgrants, hrefund⟩ := h.undebited hdebit
    unfold Ledger.creditedUsd Ledger.refundedUsd
    rw [hgrants, hrefund]
    simp [total]
  | some debit =>
    have hwithin := h.debited debit hdebit
    cases hrefund : s.refund with
    | none =>
      have hzero : s.refundedUsd = 0 := by
        unfold Ledger.refundedUsd
        rw [hrefund]
        rfl
      rw [hzero, add_zero]
      exact hwithin.credits
    | some r =>
      have hr : s.refundedUsd = r := by
        unfold Ledger.refundedUsd
        rw [hrefund]
        rfl
      rw [hr]
      exact (hwithin.refunds r hrefund).2.le

/-- Billing that answers and does what it is asked. -/
def steadyReply (s : Ledger) : (q : Query) → Except Failure q.Value
  | .usageConsumption => .ok s.consumption
  | .debitTotals => .ok {
      grantUsd := 0, consumeUsd := (s.debit.map Debit.consumeUsd).getD 0,
      reversalUsd := s.refundedUsd }
  | .creditTotals index => .ok { grantUsd := s.grantUsd index, consumeUsd := 0, reversalUsd := 0 }
  | .creditDenominations => .ok [
      { key := "space_wallet_transfer_20", amountUsd := 20 },
      { key := "space_wallet_transfer_1", amountUsd := 1 }]
  | .creditStatus => .ok {
      netUsd := 100
      groups := [[{
        grantKind := some "purchased", sourceType := some "order", status := "active",
        availableNow := some true, remainingAmountUsd := 60, originalAmountUsd := some 60 }]] }
  | .usageTotals => .ok { grantUsd := 0, consumeUsd := 0, reversalUsd := 0 }
  | .walletUsable => .ok true
  | .preflightUsage _ => .ok true
  | .ensureCustomer => .ok ()
  | .scheduleRecovery => .ok ()

theorem steadyReply_answers (q : Query) : Answers s q (steadyReply s q) := by
  cases q with
  | debitTotals =>
    intro debit hdebit
    show (s.debit.map Debit.consumeUsd).getD 0 = _
    rw [hdebit]
    rfl
  | _ => first | rfl | trivial

/-- What an operation leaves of the ledger that takes effect and was covered. -/
def Ledger.record (s : Ledger) : Mutation → Ledger
  | .recordUsage amountUsd => { s with debit := some { amountUsd, consumeUsd := amountUsd } }
  | .grantCredits index benefit => { s with grants := s.grants ++ [(index, benefit.amountUsd)] }
  | .reverseUsage amountUsd => { s with refund := some amountUsd }

instance (s : Ledger) : (m : Mutation) → Decidable (s.has m)
  | .recordUsage _ => inferInstanceAs (Decidable (¬ s.debit = none))
  | .grantCredits index _ => inferInstanceAs (Decidable (¬ s.grants.lookup index = none))
  | .reverseUsage _ => inferInstanceAs (Decidable (¬ s.refund = none))

def steadyAct (s : Ledger) (m : Mutation) : Ledger × Except Failure Unit :=
  (if s.has m then s else s.record m, .ok ())

theorem steadyAct_effect (m : Mutation) :
    billing.effect s m (steadyAct s m).1 (steadyAct s m).2 := by
  unfold steadyAct
  split
  · next hhas => exact .repeated hhas _
  · next hnew =>
    apply Effect.applied
    cases m with
    | recordUsage amountUsd => exact .recordUsage amountUsd amountUsd (not_not.mp hnew)
    | grantCredits index benefit => exact .grantCredits index benefit (not_not.mp hnew)
    | reverseUsage amountUsd => exact .reverseUsage amountUsd (not_not.mp hnew)

end Cohub.Wallet
