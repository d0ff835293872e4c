import Cohub.Wallet.Purchased
import Cohub.Wallet.Settlement

/-! # What is outstanding stays within what was purchased

    A start checks its amount under the lock, and until the debit the ledgers
    stay as they are; no other call of the programs adds to what is outstanding.
    The argument is made for any bound of the amounts that billing shows, so
    that the account may grow meanwhile.  A debit that lands late was not
    counted by the starts in between. -/

namespace Cohub.Wallet

open LockedRuns Relation

/-! ## Programs that do not debit -/

def NotDebit : Mutation → Prop
  | .recordUsage _ => False
  | .grantCredits _ _ => True
  | .reverseUsage amountUsd => 0 ≤ amountUsd

theorem countLanded_calls (rounds count : Nat) (total : Rat) :
    (countLanded rounds count total).run.Calls NotDebit := by
  induction rounds generalizing count total with
  | zero => exact calls_pure _
  | succ rounds ih =>
    refine calls_bind (calls_read _) fun totals => ?_
    split
    · exact calls_pure _
    · exact ih _ _

theorem landed_calls : landed.run.Calls NotDebit := countLanded_calls _ _ _

theorem denominations_calls : denominations.run.Calls NotDebit :=
  calls_bind (calls_read _) fun _ => calls_pure _

theorem status_calls : status.run.Calls NotDebit := by
  refine calls_bind (calls_read _) fun consumption => ?_
  cases consumption with
  | none => exact calls_pure _
  | some consumption => exact calls_bind landed_calls fun _ => calls_pure _

variable (amountUsd : Rat)

theorem refund_calls : (refund amountUsd).run.Calls NotDebit := by
  refine calls_bind landed_calls fun found => ?_
  dsimp only
  split
  · next hremainder =>
    refine calls_bind (calls_guarded hremainder.le) fun outcome => ?_
    cases outcome with
    | error e => exact calls_throw e
    | ok => exact calls_pure _
  · exact calls_pure _

theorem grantPieces_calls (plan : List Denomination) (index : Nat) :
    (grantPieces amountUsd index plan).run.Calls NotDebit := by
  induction plan generalizing index with
  | nil => exact calls_pure _
  | cons piece rest ih =>
    refine calls_bind (calls_guarded trivial) fun outcome => ?_
    cases outcome with
    | error e =>
      dsimp only
      split
      · exact refund_calls amountUsd
      · exact calls_throw e
    | ok => exact ih _

theorem settle_calls (mode : Mode) : (settle mode).run.Calls NotDebit := by
  refine calls_bind (calls_read _) fun consumption => ?_
  cases consumption with
  | none => exact calls_pure _
  | some consumption =>
    dsimp only
    split
    · exact status_calls
    split
    · exact refund_calls _
    refine calls_bind (calls_read _) fun covered => ?_
    split
    · exact refund_calls _
    refine calls_bind landed_calls fun done => ?_
    split
    · exact calls_pure _
    refine calls_bind denominations_calls fun list => ?_
    split
    · exact refund_calls _
    · split
      · exact refund_calls _
      · exact grantPieces_calls _ _ _

theorem trySettle_calls : (trySettle amountUsd).run.Calls NotDebit :=
  calls_tryCatch (settle_calls .credit) fun _ => calls_pure _

theorem startAgain_calls (existing : Consumption) :
    (startAgain amountUsd existing).run.Calls NotDebit := by
  unfold startAgain
  split
  · exact calls_throw _
  split
  · exact status_calls
  exact calls_bind (calls_read _) fun _ => trySettle_calls amountUsd

theorem recoverWith_calls (mode : Mode) (attempts : Nat) :
    (recoverWith mode attempts).run.Calls NotDebit := by
  induction attempts with
  | zero => exact calls_withLock (settle_calls mode)
  | succ attempts ih =>
    refine calls_tryCatch (calls_withLock (settle_calls mode)) fun e => ?_
    split
    · exact ih
    · exact calls_throw e

/-! ## Starts -/

section

variable {bound : Rat} {i : Nat} {held : Bool} {s : UserLedger}

/-- A credit status that shows no more than the bound as purchased. -/
def ShowsWithin (bound : Rat) (credit : CreditStatus) : Prop :=
  (purchasedAndRemaining credit.groups.flatten).1 ≤ bound

/-- Every store within the bound is followed by one. -/
def Kept (bound : Rat) (s s' : UserLedger) : Prop := s.Within bound → s'.Within bound

theorem kept_within (s s' : UserLedger) (hs : s.Within bound) (h : Kept bound s s') :
    s'.Within bound := h hs

abbrev UserKeeps {α : Type} (bound : Rat) (i : Nat) (post : Bool → UserLedger → α → Prop) (p : Call α)
    (held : Bool) (s : UserLedger) : Prop :=
  Sound (Kept bound) (UserLedger.Within bound) (userBilling (ShowsWithin bound) i) post p held s

variable {s' : UserLedger}

theorem notDebit_kept {m : Mutation} {outcome : Except Failure Unit} (hs : s.Within bound)
    (hm : NotDebit m) (heffect : UserEffect i s m s' outcome) : s' = s ∨ Kept bound s s' := by
  refine .inr fun _ => ?_
  cases heffect with
  | timedOut amountUsd e hdebit =>
    rw [hdebit] at hm
    exact hm.elim
  | called ledger _ heffect hkept =>
    have hcovered := hkept (hs.covered i)
    cases heffect with
    | failed e =>
      rw [hs.write_self i]
      exact hs
    | repeated hhas =>
      rw [hs.write_self i]
      exact hs
    | applied _ happlied =>
      cases happlied with
      | recordUsage amountUsd consumeUsd hnew => exact hm.elim
      | grantCredits index benefit hnew =>
        refine hs.write i id hcovered (hs.refunded i) ?_
        have hsame : Ledger.netUsd { s.ledger i with
          grants := (s.ledger i).grants ++ [(index, benefit.amountUsd)] } = (s.ledger i).netUsd := rfl
        rw [hsame]
        linarith [hs.within]
      | reverseUsage amountUsd hnew =>
        refine hs.write i id hcovered hm ?_
        -- nothing was returned before
        have hbefore : (s.ledger i).returnedUsd ≤ 0 := by
          refine (Number.minimum_le_left _ _).trans ?_
          unfold Ledger.refundedUsd
          rw [hnew]
          exact le_refl _
        have hafter := Ledger.returnedUsd_nonneg hcovered hm
        have hconsumed : Ledger.consumedUsd { s.ledger i with refund := some amountUsd } =
          (s.ledger i).consumedUsd := rfl
        unfold Ledger.netUsd
        rw [hconsumed]
        linarith [hs.within]

theorem keeps_calls {α : Type} {p : Call α} (hp : p.run.Calls NotDebit) (hs : s.Within bound) :
    UserKeeps bound i (fun _ _ _ => True) p held s :=
  sound_of_calls kept_within (fun _ _ _ _ hs hm heffect => notDebit_kept hs hm heffect) hp hs

/-- While the lock is held, the amount fits the bound. -/
def Fits (bound amountUsd : Rat) (held : Bool) (s : UserLedger) : Prop :=
  held = true → amountUsd ≤ bound - s.outstandingUsd

variable {amountUsd : Rat}

theorem Fits.later (h : Fits bound amountUsd held s) {held' : Bool}
    (hlater : Later (Kept bound) held s held' s') : Fits bound amountUsd held' s' := by
  intro hheld'
  obtain ⟨hheld, hsame⟩ := hlater.same hheld'
  rw [hsame]
  exact h hheld

theorem keeps_allowance' (hs : s.Within bound) :
    UserKeeps bound i (fun held' s' available => ∀ amountUsd, 0 < amountUsd → amountUsd ≤ available →
      Fits bound amountUsd held' s') allowance held s := by
  have hcredit : UserKeeps bound i (fun _ _ credit => ShowsWithin bound credit) getCreditStatus held s :=
    sound_read kept_within hs fun _ _ _ _ hanswer => hanswer
  refine sound_bind hcredit fun h₁ s₁ credit hs₁ hshows => ?_
  have htotals : UserKeeps bound i (fun _ s' totals => totals.consumeUsd = s'.consumedUsd ∧
      totals.reversalUsd = s'.returnedUsd) sumUsage h₁ s₁ :=
    sound_read kept_within hs₁ fun _ _ _ _ hanswer => hanswer
  refine sound_bind htotals fun h₂ s₂ totals hs₂ ⟨hconsumed, hreturned⟩ => ?_
  refine sound_pure hs₂ fun amountUsd hpositive hle _ => ?_
  rw [hconsumed, hreturned] at hle
  have hbounds := (transferableUsd_le hpositive hle).2.1
  have hpurchased : (purchasedAndRemaining credit.groups.flatten).1 ≤ bound := hshows
  show amountUsd ≤ bound - (s₂.consumedUsd - s₂.returnedUsd)
  linarith

theorem keeps_fits {q : Query} (hs : s.Within bound) (hfits : Fits bound amountUsd held s) :
    UserKeeps bound i (fun held' s' _ => Fits bound amountUsd held' s') (Call.read q) held s :=
  sound_read kept_within hs fun _ _ hlater _ _ => hfits.later hlater

theorem keeps_debit (hs : s.Within bound) (hfits : Fits bound amountUsd held s) :
    UserKeeps bound i (fun _ _ _ => True) (Call.guarded (.recordUsage amountUsd)) held s := by
  refine sound_guarded kept_within hs fun hheld s' outcome heffect => ⟨.inr fun _ => ?_, trivial⟩
  cases heffect with
  | timedOut amountUsd e hdebit => exact ⟨hs.debited, hs.covered, hs.refunded, hs.within⟩
  | called ledger _ heffect hkept =>
    have hcovered := hkept (hs.covered i)
    cases heffect with
    | failed e =>
      rw [hs.write_self i]
      exact hs
    | repeated hhas =>
      rw [hs.write_self i]
      exact hs
    | applied _ happlied =>
      cases happlied with
      | recordUsage _ consumeUsd hnew =>
        obtain ⟨hnonneg, hle⟩ := hcovered _ rfl
        exact hs.debit i hnew hnonneg hle (hfits hheld)

theorem keeps_startFirst' (hpositive : 0 < amountUsd) (hs : s.Within bound) :
    UserKeeps bound i (fun _ _ _ => True) (startFirst amountUsd) held s := by
  refine sound_bind (keeps_calls denominations_calls hs) fun h₁ s₁ list hs₁ _ => ?_
  refine sound_bind (keeps_allowance' hs₁) fun h₂ s₂ available hs₂ hallowed => ?_
  have husable : UserKeeps bound i (fun held' s' _ => ∀ amountUsd, 0 < amountUsd →
      amountUsd ≤ available → Fits bound amountUsd held' s') walletUsable h₂ s₂ :=
    sound_read kept_within hs₂ fun _ _ hlater _ _ a ha hle => (hallowed a ha hle).later hlater
  refine sound_bind husable fun h₃ s₃ usable hs₃ hallowed => ?_
  split
  · exact sound_throw hs₃
  split
  · exact sound_throw hs₃
  next havailable =>
  have hfits := hallowed amountUsd hpositive (not_lt.mp havailable)
  refine sound_bind (keeps_fits hs₃ hfits) fun h₄ s₄ allowed hs₄ hfits => ?_
  split
  · exact sound_throw hs₄
  refine sound_bind (keeps_fits hs₄ hfits) fun h₅ s₅ _ hs₅ hfits => ?_
  refine sound_bind (keeps_fits hs₅ hfits) fun h₆ s₆ _ hs₆ hfits => ?_
  refine sound_bind (keeps_debit hs₆ hfits) fun h₇ s₇ outcome hs₇ _ => ?_
  cases outcome with
  | ok => exact keeps_calls (trySettle_calls amountUsd) hs₇
  | error e =>
    dsimp only
    split
    · exact sound_throw hs₇
    · exact sound_pure hs₇ trivial

theorem keeps_start' (configured : Bool) (amountUsd : Rat) (hs : s.Within bound) :
    UserKeeps bound i (fun _ _ _ => True) (start configured amountUsd) held s := by
  unfold start
  split
  · exact sound_throw hs
  split
  · exact sound_throw hs
  next hvalid =>
  rw [not_or, not_or] at hvalid
  obtain ⟨-, hmin, -⟩ := hvalid
  unfold SPACE_WALLET_TRANSFER_MIN_USD at hmin
  have hpositive : 0 < amountUsd := by linarith [not_lt.mp hmin]
  refine sound_withLock kept_within (fun _ _ _ _ _ _ h => h) hs fun s₁ hs₁ => ?_
  refine sound_bind (keeps_calls (calls_read _) hs₁) fun h₂ s₂ consumption hs₂ _ => ?_
  cases consumption with
  | some existing => exact keeps_calls (startAgain_calls amountUsd existing) hs₂
  | none => exact keeps_startFirst' hpositive hs₂

theorem started_within {p} (hp : StartedFor p) (hs : s.Within bound) :
    Good (Kept bound) (World.places (userBilling (ShowsWithin bound)))
      (Ends (UserLedger.Within bound) fun _ _ _ => True) p false s := by
  cases hp with
  | program i p hp =>
    refine good_inPlace ?_
    cases hp with
    | start configured amountUsd => exact keeps_start' configured amountUsd hs
    | status => exact keeps_calls status_calls hs
    | recover mode => exact keeps_calls (recoverWith_calls mode 5) hs

end

/-! ## What is outstanding -/

variable {account : Account}

theorem step_within {bound : Rat} (hbound : account.purchasedUsd ≤ bound)
    {pool pool' : UserPool} (h : Step (World.places (userBilling account.Shows)) StartedFor pool pool') :
    Step (World.places (userBilling (ShowsWithin bound))) StartedFor pool pool' := by
  cases h with
  | start id p hnew hfree hp => exact .start _ id p hnew hfree hp
  | read id q next hrun x hx =>
    refine Step.read pool id q next hrun x ?_
    -- only the credit status is answered in another way
    obtain ⟨i, q⟩ := q
    cases q with
    | creditStatus =>
      rcases x with e | credit
      · trivial
      · exact (Account.Shows.purchased_le hx).trans hbound
    | usageTotals =>
      rcases x with e | totals
      · trivial
      · exact hx
    | _ => exact hx
  | refused id m next hrun e => exact .refused _ id m next hrun e
  | call id m next hrun hheld s' outcome heffect => exact .call _ id m next hrun hheld s' outcome heffect
  | locked id next hrun hfree => exact .locked _ id next hrun hfree
  | notLocked id next hrun r hr => exact .notLocked _ id next hrun r hr
  | unlock id next hrun => exact .unlock _ id next hrun
  | lose => exact .lose _

variable {w : UserWorld}
    {p : Prog Query (fun q => Except Failure q.Value) Mutation Failure (Except Failure TransferStatus)}

theorem reachable_within (h : ReflTransGen Timely (.fresh account) w) (bound : Rat)
    (hbound : w.account.purchasedUsd ≤ bound) :
    ReflTransGen (Step (World.places (userBilling (ShowsWithin bound))) StartedFor)
      (UserWorld.fresh account).pool w.pool := by
  induction h with
  | refl => exact ReflTransGen.refl
  | tail _ hstep ih =>
    cases hstep with
    | run pool hpool => exact (ih hbound).tail (step_within hbound hpool)
    | account account' hmove => exact ih (hmove.purchasedUsd_le.trans hbound)

theorem outstanding_le_purchased (h : ReflTransGen Timely (.fresh account) w) :
    w.pool.store.outstandingUsd ≤ w.account.purchasedUsd := by
  have hempty : UserLedger.empty.Within w.account.purchasedUsd := by
    refine ⟨fun i => ?_, fun i => nofun, fun i => le_refl _, ?_⟩
    · exact ⟨fun hmem => absurd hmem (Finset.notMem_empty i), fun hdebit => absurd rfl hdebit⟩
    · rw [UserLedger.outstandingUsd_eq]
      exact w.account.purchasedUsd_nonneg
  have hreach := reachable_within h w.account.purchasedUsd (le_refl _)
  exact (reachable_good (fun p hp s hs => started_within hp hs) kept_within
    (ends_stable kept_within fun _ _ _ _ _ _ h => h) hempty hreach).store.within

theorem checked_of_calls (hp : p.Calls NotDebit) (last : Option CreditStatus) : Checked last p := by
  induction p generalizing last with
  | done a => trivial
  | read q next ih => exact fun x => ih x (hp x) _
  | guarded m next ih =>
    refine ⟨fun amountUsd hdebit => ?_, fun x => ih x (hp.2 x) _⟩
    have hm := hp.1
    rw [hdebit] at hm
    exact hm.elim
  | lock next ih => exact fun x => ih x (hp x) _
  | unlock next ih => exact ih hp _

theorem checked_bind {α : Type} {p : Prog Query (fun q => Except Failure q.Value) Mutation Failure α}
    {f : α → Prog Query (fun q => Except Failure q.Value) Mutation Failure
      (Except Failure TransferStatus)} (hp : p.Calls NotDebit) (hf : ∀ a last, Checked last (f a))
    (last : Option CreditStatus) : Checked last (p.bind f) := by
  induction p generalizing last with
  | done a => exact hf a last
  | read q next ih => exact fun x => ih x (hp x) _
  | guarded m next ih =>
    refine ⟨fun amountUsd hdebit => ?_, fun x => ih x (hp.2 x) _⟩
    have hm := hp.1
    rw [hdebit] at hm
    exact hm.elim
  | lock next ih => exact fun x => ih x (hp x) _
  | unlock next ih => exact ih hp _

theorem checked_unlock {last : Option CreditStatus} (h : Checked last p) :
    Checked last (p.bind fun result => .unlock (.done result)) := by
  induction p generalizing last with
  | done a => trivial
  | read q next ih => exact fun x => ih x (h x)
  | guarded m next ih => exact ⟨h.1, fun x => ih x (h.2 x)⟩
  | lock next ih => exact fun x => ih x (h x)
  | unlock next ih => exact ih h

theorem startFirst_checked {amountUsd : Rat} (hpositive : 0 < amountUsd)
    (last : Option CreditStatus) : Checked last (startFirst amountUsd).run := by
  refine checked_bind denominations_calls (fun list last => ?_) last
  rcases list with e | list
  · trivial
  rintro (e | credit)
  · trivial
  rintro (e | totals)
  · trivial
  rintro (e | usable)
  · trivial
  dsimp only [Prog.bind, ExceptT.bindCont, noted]
  split
  · trivial
  split
  · trivial
  next havailable =>
  obtain ⟨hremaining, -, hnet⟩ := transferableUsd_le hpositive (not_lt.mp havailable)
  rintro (e | allowed)
  · trivial
  dsimp only [Prog.bind, ExceptT.bindCont, noted]
  split
  · trivial
  rintro (e | _)
  · trivial
  rintro (e | _)
  · trivial
  refine ⟨fun amount hdebit => ⟨credit, rfl, ?_⟩, fun x => ?_⟩
  · cases hdebit
    exact ⟨hremaining, hnet⟩
  · refine checked_of_calls ?_ _
    cases x with
    | refused e => trivial
    | returned outcome =>
      cases outcome with
      | ok => exact trySettle_calls amountUsd
      | error e =>
        show Prog.Calls NotDebit (ExceptT.run (if isPermanent e then throw e else _))
        split <;> trivial

theorem start_checked (configured : Bool) (amountUsd : Rat) (last : Option CreditStatus) :
    Checked last (start configured amountUsd).run := by
  unfold start
  split
  · trivial
  split
  · trivial
  next hvalid =>
  rw [not_or, not_or] at hvalid
  obtain ⟨-, hmin, -⟩ := hvalid
  unfold SPACE_WALLET_TRANSFER_MIN_USD at hmin
  have hpositive : 0 < amountUsd := by linarith [not_lt.mp hmin]
  rintro (e | locked)
  · trivial
  cases locked with
  | false => trivial
  | true =>
    refine checked_unlock ?_
    rintro (e | consumption)
    · trivial
    cases consumption with
    | none => exact startFirst_checked hpositive _
    | some existing => exact checked_of_calls (startAgain_calls amountUsd existing) _

/-- Over every run in which no debit lands late, the transfers outstanding are
    within what the user has purchased; and on every path of a start the debit
    is within the purchased credit that remains and the net balance, as they
    were read. -/
theorem transfers_within_purchases {account : Account} {w : UserWorld}
    (h : ReflTransGen Timely (.fresh account) w) :
    w.pool.store.outstandingUsd ≤ w.account.purchasedUsd ∧
      ∀ configured amountUsd, Checked none (start configured amountUsd).run :=
  ⟨outstanding_le_purchased h, fun configured amountUsd => start_checked configured amountUsd none⟩

/-! ## Two runs -/

/-- 60 USD were purchased, and 100 USD are a gift. -/
def giftedAccount : Account where
  grants := [
    { grantKind := some "purchased", sourceType := some "order", originalUsd := 60,
      remainingUsd := 60, nonneg := by norm_num, within := le_refl _ },
    { grantKind := some "promotional", sourceType := some "manual", originalUsd := 100,
      remainingUsd := 100, nonneg := by norm_num, within := le_refl _ }]
  netUsd := 160

def giftedCredit : CreditStatus where
  netUsd := 160
  groups := [[
    { grantKind := some "purchased", sourceType := some "order", status := "active",
      availableNow := some true, remainingAmountUsd := 60, originalAmountUsd := some 60 },
    { grantKind := some "promotional", sourceType := some "manual", status := "active",
      availableNow := some true, remainingAmountUsd := 100, originalAmountUsd := some 100 }]]

theorem giftedAccount_shows : giftedAccount.Shows giftedCredit where
  net := rfl
  grants := ⟨giftedAccount.grants, List.Subperm.refl _,
    .cons ⟨rfl, rfl, rfl, .inr rfl⟩ (.cons ⟨rfl, rfl, rfl, .inr rfl⟩ .nil)⟩

def giftedReply (s : UserLedger) : (q : Nat × Query) → Except Failure q.2.Value
  | (_, .creditStatus) => .ok giftedCredit
  | (_, .usageTotals) => .ok
      { grantUsd := 0, consumeUsd := s.consumedUsd, reversalUsd := s.returnedUsd }
  | (i, q) => steadyReply (s.ledger i) q

theorem giftedReply_answers (s : UserLedger) (q : Nat × Query) :
    (World.places (userBilling giftedAccount.Shows)).answers s q (giftedReply s q) := by
  obtain ⟨i, q⟩ := q
  cases q with
  | creditStatus => exact giftedAccount_shows
  | usageTotals => exact ⟨rfl, rfl⟩
  | usageConsumption => exact steadyReply_answers (s.ledger i) .usageConsumption
  | debitTotals => exact steadyReply_answers (s.ledger i) .debitTotals
  | creditTotals index => exact steadyReply_answers (s.ledger i) (.creditTotals index)
  | _ => trivial

/-- The debits of the transfers in `lost` time out; other calls take effect. -/
def giftedAct (lost : Nat → Bool) (s : UserLedger) : Nat × Mutation → UserLedger × Except Failure Unit
  | (i, .recordUsage amountUsd) =>
      if lost i ∨ amountUsd < 0 then
        ({ s with inFlight := (i, amountUsd) :: s.inFlight }, .error (.other none))
      else (s.write i (steadyAct (s.ledger i) (.recordUsage amountUsd)).1, .ok ())
  | (i, .grantCredits index benefit) =>
      (s.write i (steadyAct (s.ledger i) (.grantCredits index benefit)).1, .ok ())
  | (i, .reverseUsage amountUsd) =>
      (s.write i (steadyAct (s.ledger i) (.reverseUsage amountUsd)).1, .ok ())

theorem giftedAct_effect (lost : Nat → Bool) (s : UserLedger) (m : Nat × Mutation) :
    (World.places (userBilling giftedAccount.Shows)).effect s m (giftedAct lost s m).1
      (giftedAct lost s m).2 := by
  obtain ⟨i, m⟩ := m
  cases m with
  | recordUsage amountUsd =>
    show UserEffect i s _ (if _ then _ else _ : UserLedger × Except Failure Unit).1 _
    unfold giftedAct
    dsimp only
    by_cases hlost : lost i = true ∨ amountUsd < 0
    · rw [if_pos hlost]
      exact .timedOut amountUsd _ rfl
    · rw [if_neg hlost]
      refine .called _ _ (steadyAct_effect (s.ledger i) _) fun hcovered debit hdebit => ?_
      unfold steadyAct at hdebit
      dsimp only at hdebit
      split at hdebit
      · exact hcovered debit hdebit
      · rw [← Option.some.inj hdebit]
        exact ⟨not_lt.mp (not_or.mp hlost).2, le_refl _⟩
  | grantCredits index benefit =>
    refine .called _ _ (steadyAct_effect (s.ledger i) _) fun hcovered debit hdebit => ?_
    unfold steadyAct at hdebit
    dsimp only at hdebit
    split at hdebit <;> exact hcovered debit hdebit
  | reverseUsage amountUsd =>
    refine .called _ _ (steadyAct_effect (s.ledger i) _) fun hcovered debit hdebit => ?_
    unfold steadyAct at hdebit
    dsimp only at hdebit
    split at hdebit <;> exact hcovered debit hdebit

/-- The store after a start of 60 USD for a transfer that runs alone. -/
def afterStart (lost : Nat → Bool) (i : Nat) (s : UserLedger) : UserLedger :=
  (((start true 60).run.inPlace i).alone giftedReply (giftedAct lost) busy false s).1

theorem two_starts_reachable (lost : Nat → Bool) :
    ∃ w, ReflTransGen Timely (.fresh giftedAccount) w ∧ w.account = giftedAccount ∧
      w.pool.store = afterStart lost 1 (afterStart lost 0 .empty) := by
  have hrun : ∀ {pool pool' : UserPool},
      ReflTransGen (Step (World.places (userBilling giftedAccount.Shows)) StartedFor) pool pool' →
        ReflTransGen Timely ⟨pool, giftedAccount⟩ ⟨pool', giftedAccount⟩ := by
    intro pool pool' hsteps
    induction hsteps with
    | refl => exact ReflTransGen.refl
    | tail _ hstep ih => exact ih.tail (.run _ _ hstep)
  let pool₀ : UserPool := (UserWorld.fresh giftedAccount).pool
  let pool₁ : UserPool := { pool₀ with runs := pool₀.goOn 0 ((start true 60).run.inPlace 0) }
  have hstart₁ : Step (World.places (userBilling giftedAccount.Shows)) StartedFor pool₀ pool₁ :=
    .start pool₀ 0 _ rfl nofun (.program 0 _ (.start true 60))
  obtain ⟨pool₂, hreach₂, hstore₂, -, hothers₂⟩ := alone_reachable giftedReply_answers
    (giftedAct_effect lost) 0 ((start true 60).run.inPlace 0) pool₁ false rfl rfl
  -- the lock is free by then
  let pool₃ : UserPool := { pool₂ with holder := none }
  have hlose : Step (World.places (userBilling giftedAccount.Shows)) StartedFor pool₂ pool₃ :=
    .lose pool₂
  let pool₄ : UserPool := { pool₃ with runs := pool₃.goOn 1 ((start true 60).run.inPlace 1) }
  have hstart₂ : Step (World.places (userBilling giftedAccount.Shows)) StartedFor pool₃ pool₄ :=
    .start pool₃ 1 _ (hothers₂ 1 (by decide)) nofun (.program 1 _ (.start true 60))
  obtain ⟨pool₅, hreach₅, hstore₅, -, -⟩ := alone_reachable giftedReply_answers
    (giftedAct_effect lost) 1 ((start true 60).run.inPlace 1) pool₄ false rfl rfl
  refine ⟨⟨pool₅, giftedAccount⟩, hrun ?_, rfl, ?_⟩
  · exact (hreach₂.head hstart₁).trans ((hreach₅.head hstart₂).head hlose)
  · rw [hstore₅]
    show afterStart lost 1 pool₂.store = _
    rw [hstore₂]
    rfl

/-- Two starts of 60 USD: the second is refused. -/
theorem transfers_within_purchases_twice :
    ∃ w, ReflTransGen Timely (.fresh giftedAccount) w ∧ w.pool.store.outstandingUsd = 60 ∧
      w.pool.store.outstandingUsd ≤ w.account.purchasedUsd := by
  obtain ⟨w, hreach, -, hstore⟩ := two_starts_reachable fun _ => false
  refine ⟨w, hreach, ?_, (transfers_within_purchases hreach).1⟩
  rw [hstore]
  decide +kernel

/-- The debit of the first transfer times out and lands after the second
    transfer: 120 USD are outstanding of 60 USD purchased. -/
theorem late_debit_exceeds_purchases :
    ∃ w w', ReflTransGen Timely (.fresh giftedAccount) w ∧ Late w w' ∧
      w'.account.purchasedUsd = 60 ∧ w'.pool.store.outstandingUsd = 120 := by
  obtain ⟨w, hreach, haccount, hstore⟩ := two_starts_reachable fun i => i = 0
  refine ⟨w, _, hreach, .lands w 0 { amountUsd := 60, consumeUsd := 60 } ?_ ?_ (by norm_num)
    (le_refl _), ?_, ?_⟩
  · rw [hstore]
    decide +kernel
  · rw [hstore]
    decide +kernel
  · show w.account.purchasedUsd = 60
    rw [haccount]
    decide +kernel
  · show (w.pool.store.write 0 _).outstandingUsd = 120
    rw [hstore]
    decide +kernel

end Cohub.Wallet
