import Cohub.Queue.Runs

/-! # What an operation does to each Turn

    Every operation is a function on rows, and adds at most a new one
    (`Evolution`).  `Moves` is what holds of a row under any operation: it does
    not come back to the queue.  `Keeps` is what holds under all operations but
    a claim: no Turn becomes active, and what the claim recorded stays. -/

namespace Cohub.Queue

open Table List Fields
open Cohub.Context (TurnStatus TurnIntent)

/-! ## What a claim recorded -/

/-- The members that only a prompt or a claim writes are the same. -/
def SameClaim (a b : TurnRow) : Prop :=
  ∀ key ∈ claimKeys,
    Fields.get? (asRecord a.metadata) key = Fields.get? (asRecord b.metadata) key

theorem SameClaim.refl (a : TurnRow) : SameClaim a a := fun _ _ => rfl

variable {a b row : TurnRow}

theorem SameClaim.trans {c : TurnRow} (h : SameClaim a b) (h' : SameClaim b c) : SameClaim a c :=
  fun key hkey => (h key hkey).trans (h' key hkey)

theorem getUserMessageId_congr (hid : a.id = b.id)
    (huser : get? (asRecord a.metadata) "userMessageId" =
      get? (asRecord b.metadata) "userMessageId")
    (hmessage : get? (asRecord a.metadata) "messageId" =
      get? (asRecord b.metadata) "messageId") :
    getUserMessageId a = getUserMessageId b := by
  unfold getUserMessageId getMetaString
  rw [huser, hmessage, hid]

theorem SameClaim.userMessageId (h : SameClaim a b) (hid : a.id = b.id) :
    getUserMessageId a = getUserMessageId b :=
  getUserMessageId_congr hid (h "userMessageId" (by decide)) (h "messageId" (by decide))

theorem get?_patched {metadata : Option Json} {patch : Fields} {key : String}
    (h : get? patch key = none) :
    get? (patched metadata patch).fields key = get? (asRecord metadata) key := by
  cases metadata with
  | none => exact h
  | some value =>
    cases value with
    | obj fields => exact get?_assign_of_none h
    | _ => rfl

theorem sameClaim_apply (patch : MetaPatch) (row : TurnRow) : SameClaim (patch.apply row) row :=
  fun key hkey => get?_patched (patch.foreign key hkey)

theorem sameClaim_rewrite (patch : MetaPatch) (row : TurnRow) : SameClaim (patch.rewrite row) row :=
  fun key hkey => get?_assign_of_none (patch.foreign key hkey)

/-! ## Rows -/

/-- What holds of a row under any operation. -/
structure Moves (row row' : TurnRow) : Prop where
  id      : row'.id = row.id
  kind    : row'.executionKind = row.executionKind
  compact : row'.intent = .compact ↔ row.intent = .compact
  queued  : row'.status = .queued → row.status = .queued

/-- What holds of a row that no claim takes. -/
structure Keeps (row row' : TurnRow) : Prop extends Moves row row' where
  left   : row.executionKind = .agent → row.status = .queued →
    row'.status = .queued ∨ row'.status = .failed ∨ row'.status = .cancelled
  active : isActiveAgent row' = true → isActiveAgent row = true
  claim  : SameClaim row' row

theorem Moves.refl (row : TurnRow) : Moves row row := ⟨rfl, rfl, Iff.rfl, fun h => h⟩

theorem Keeps.refl (row : TurnRow) : Keeps row row :=
  ⟨Moves.refl row, fun _ h => .inl h, fun h => h, SameClaim.refl row⟩

theorem isActive_iff :
    isActive row = true ↔ row.status = .running ∨ row.status = .abortRequested :=
  decide_eq_true_iff

theorem isActiveAgent_iff :
    isActiveAgent row = true ↔ row.executionKind = .agent ∧ isActive row = true :=
  decide_eq_true_iff

theorem isQueuedAgent_iff :
    isQueuedAgent row = true ↔ row.executionKind = .agent ∧ row.status = .queued :=
  decide_eq_true_iff

variable {id : String} {row' : TurnRow}

theorem hasStatus_iff {statuses : List TurnStatus} :
    hasStatus id statuses row = true ↔ row.id = id ∧ row.status ∈ statuses :=
  decide_eq_true_iff

theorem isQueued_iff :
    isQueued id row = true ↔ row.id = id ∧ row.status = .queued :=
  decide_eq_true_iff

theorem Keeps.ofStatus (hid : row'.id = row.id)
    (hkind : row'.executionKind = row.executionKind) (hintent : row'.intent = row.intent)
    (hbefore : row.executionKind = .agent → row.status ≠ .queued)
    (hafter : row'.status ≠ .queued) (hactive : isActiveAgent row' = true → isActiveAgent row = true)
    (hclaim : SameClaim row' row) : Keeps row row' where
  id := hid
  kind := hkind
  compact := by rw [hintent]
  queued h := absurd h hafter
  left hagent hqueued := absurd hqueued (hbefore hagent)
  active := hactive
  claim := hclaim

theorem Keeps.ofSame (hid : row'.id = row.id) (hkind : row'.executionKind = row.executionKind)
    (hcompact : row'.intent = .compact ↔ row.intent = .compact) (hstatus : row'.status = row.status)
    (hclaim : SameClaim row' row) : Keeps row row' where
  id := hid
  kind := hkind
  compact := hcompact
  queued h := hstatus ▸ h
  left _ h := Or.inl (hstatus.trans h)
  active h := by
    rw [isActiveAgent_iff, isActive_iff, hkind, hstatus] at h
    rwa [isActiveAgent_iff, isActive_iff]
  claim := hclaim

/-! ## Operations -/

/-- The rows after an operation: each row moved, and new ones. -/
structure Evolution (before after : List TurnRow) (g : TurnRow → TurnRow) (new : List TurnRow) :
    Prop where
  eq : after = before.map g ++ new
  moves : ∀ row ∈ before, Moves row (g row)
  ids : Distinct TurnRow.id after
  sequences : Distinct TurnRow.sequence after
  fresh : ∀ row ∈ new, row.executionKind = .agent → row.intent ≠ .compact → row.status = .queued

/-- No claim: nothing becomes active. -/
structure Quiet (before after : List TurnRow) (g : TurnRow → TurnRow) (new : List TurnRow) : Prop
    extends Evolution before after g new where
  keeps    : ∀ row ∈ before, Keeps row (g row)
  inactive : ∀ row ∈ new, isActiveAgent row = false

section

variable {turns : List TurnRow} {p : TurnRow → Bool} {f : TurnRow → TurnRow}

theorem forall_mem_nil {P : TurnRow → Prop} : ∀ row ∈ ([] : List TurnRow), P row :=
  fun _ h => absurd h not_mem_nil

theorem Quiet.update (hids : Distinct TurnRow.id turns) (hsequences : Distinct TurnRow.sequence turns)
    (hkeeps : ∀ row ∈ turns, p row = true → Keeps row (f row))
    (hsequence : ∀ row, (f row).sequence = row.sequence) :
    Quiet turns (updateRows p f turns) (fun row => if p row then f row else row) [] := by
  have hall : ∀ row ∈ turns, Keeps row (if p row then f row else row) := by
    intro row hrow
    split
    · next hp => exact hkeeps row hrow hp
    · exact Keeps.refl row
  have hplace : ∀ row, (if p row then f row else row).sequence = row.sequence := by
    intro row
    split
    · exact hsequence row
    · rfl
  exact ⟨⟨(append_nil _).symm, fun row hrow => (hall row hrow).toMoves,
    hids.map fun row hrow => (hall row hrow).id,
    hsequences.map fun row _ => hplace row, forall_mem_nil⟩, hall, forall_mem_nil⟩

theorem Quiet.updateLast {id : String} {sequence : Int} (hids : Distinct TurnRow.id turns)
    (hsequences : Distinct TurnRow.sequence turns)
    (hkeeps : ∀ row ∈ turns, p row = true → Keeps row (f row))
    (hone : ∀ row, p row = true → row.id = id) (hsequence : ∀ row, (f row).sequence = sequence)
    (hlast : ∀ row ∈ turns, row.sequence < sequence) :
    Quiet turns (updateRows p f turns) (fun row => if p row then f row else row) [] := by
  have hall : ∀ row ∈ turns, Keeps row (if p row then f row else row) := by
    intro row hrow
    split
    · next hp => exact hkeeps row hrow hp
    · exact Keeps.refl row
  refine ⟨⟨(append_nil _).symm, fun row hrow => (hall row hrow).toMoves,
    hids.map fun row hrow => (hall row hrow).id, ?_, forall_mem_nil⟩, hall, forall_mem_nil⟩
  refine pairwise_map.mpr (List.Pairwise.imp_of_mem ?_ (hids.and hsequences))
  rintro a b ha hb ⟨hid, hne⟩
  show (if p a then f a else a).sequence ≠ (if p b then f b else b).sequence
  by_cases hpa : p a = true
  · -- only one of the two has the id
    have hpb : p b ≠ true := fun hpb => hid ((hone a hpa).trans (hone b hpb).symm)
    rw [if_pos hpa, if_neg hpb, hsequence]
    exact (hlast b hb).ne'
  · rw [if_neg hpa]
    split
    · rw [hsequence]
      exact (hlast a ha).ne
    · exact hne

theorem Quiet.append {row : TurnRow} (hids : Distinct TurnRow.id turns)
    (hsequences : Distinct TurnRow.sequence turns) (hnew : ∀ turn ∈ turns, turn.id ≠ row.id)
    (hplace : ∀ turn ∈ turns, turn.sequence ≠ row.sequence)
    (hfresh : row.executionKind = .agent → row.intent ≠ .compact → row.status = .queued)
    (hinactive : isActiveAgent row = false) :
    Quiet turns (turns ++ [row]) (fun turn => turn) [row] := by
  refine ⟨⟨by rw [map_id'], fun turn _ => Moves.refl turn, hids.concat hnew,
    hsequences.concat hplace, ?_⟩, fun turn _ => Keeps.refl turn, ?_⟩
  · intro other hother
    rw [mem_singleton.mp hother]
    exact hfresh
  · intro other hother
    rw [mem_singleton.mp hother]
    exact hinactive

end

/-! ## The operations -/

section

variable {turns : List TurnRow} {id : String} {patch : MetaPatch} {sequence now : Int}
  {status : TurnStatus}

section

variable (hids : Distinct TurnRow.id turns) (hsequences : Distinct TurnRow.sequence turns)
include hids hsequences

theorem quiet_finalizeSessionTurn (hstatus : status ∈ [.completed, .failed, .interrupted]) :
    ∃ g, Quiet turns (finalizeSessionTurn id status patch now turns) g [] := by
  refine ⟨_, Quiet.update hids hsequences ?_ fun _ => rfl⟩
  intro row _ hp
  obtain ⟨_, hbefore⟩ := hasStatus_iff.mp hp
  have hafter : status ≠ .queued ∧ status ≠ .running ∧ status ≠ .abortRequested := by
    refine ⟨?_, ?_, ?_⟩ <;> rintro rfl <;> simp at hstatus
  refine Keeps.ofStatus rfl rfl rfl ?_ hafter.1 ?_ (sameClaim_apply patch row)
  · intro _ hqueued
    simp [hqueued] at hbefore
  · intro hactive
    rcases isActive_iff.mp (isActiveAgent_iff.mp hactive).2 with h | h
    · exact absurd h hafter.2.1
    · exact absurd h hafter.2.2

theorem quiet_failSessionTurn :
    ∃ g, Quiet turns (failSessionTurn id now turns) g [] := by
  refine ⟨_, Quiet.update hids hsequences ?_ fun _ => rfl⟩
  intro row _ _
  -- here a queued Turn leaves the queue
  refine ⟨⟨rfl, rfl, Iff.rfl, nofun⟩, fun _ _ => .inr (.inl rfl), ?_, SameClaim.refl row⟩
  intro hactive
  rcases isActive_iff.mp (isActiveAgent_iff.mp hactive).2 with h | h <;> cases h

theorem quiet_requestAbort :
    ∃ g, Quiet turns (requestAbort id patch now turns) g [] := by
  refine ⟨_, Quiet.update hids hsequences ?_ fun _ => rfl⟩
  intro row _ hp
  obtain ⟨hagent, hbefore⟩ := of_decide_eq_true hp
  have hactive : isActive row = true := by
    have := (hasStatus_iff.mp hbefore).2
    rw [isActive_iff]
    simpa using this
  refine Keeps.ofStatus rfl rfl rfl ?_ nofun ?_ (sameClaim_apply patch row)
  · intro _ hqueued
    rcases isActive_iff.mp hactive with h | h <;> rw [h] at hqueued <;> cases hqueued
  · intro _
    exact isActiveAgent_iff.mpr ⟨hagent, hactive⟩

theorem quiet_withdrawAbort :
    ∃ g, Quiet turns (withdrawAbort id now turns) g [] := by
  refine ⟨_, Quiet.update hids hsequences ?_ fun _ => rfl⟩
  intro row _ hp
  have hbefore : row.status = .abortRequested := mem_singleton.mp (hasStatus_iff.mp hp).2
  refine Keeps.ofStatus rfl rfl rfl ?_ nofun ?_ (SameClaim.refl row)
  · intro _ hqueued
    rw [hbefore] at hqueued
    cases hqueued
  · intro hactive
    exact isActiveAgent_iff.mpr
      ⟨(isActiveAgent_iff.mp hactive).1, isActive_iff.mpr (.inr hbefore)⟩

theorem quiet_promoteToSteer (hlast : ∀ row ∈ turns, row.sequence < sequence) :
    ∃ g, Quiet turns (promoteToSteer id patch sequence now turns) g [] := by
  refine ⟨_, Quiet.updateLast hids hsequences ?_
    (fun row hp => (isQueued_iff.mp (of_decide_eq_true hp).1).1) (fun _ => rfl) hlast⟩
  intro row _ hp
  obtain ⟨_, _, hintent⟩ := of_decide_eq_true hp
  refine Keeps.ofSame rfl rfl ?_ rfl (sameClaim_rewrite patch row)
  exact ⟨nofun, fun hcompact => absurd (hintent.symm.trans hcompact) nofun⟩

theorem quiet_cancelQueuedTurn (hlast : ∀ row ∈ turns, row.sequence < sequence) :
    ∃ g, Quiet turns (cancelQueuedTurn id patch sequence now turns) g [] := by
  refine ⟨_, Quiet.updateLast hids hsequences ?_
    (fun row hp => (isQueued_iff.mp (of_decide_eq_true hp).1).1) (fun _ => rfl) hlast⟩
  intro row _ _
  refine ⟨⟨rfl, rfl, Iff.rfl, nofun⟩, fun _ _ => .inr (.inr rfl), ?_, sameClaim_rewrite patch row⟩
  intro hactive
  rcases isActive_iff.mp (isActiveAgent_iff.mp hactive).2 with h | h <;> cases h

theorem quiet_setGeneration (hstatus : status ∈ [.running, .completed, .failed]) :
    ∃ g, Quiet turns (setGeneration id status now turns) g [] := by
  refine ⟨_, Quiet.update hids hsequences ?_ fun _ => rfl⟩
  intro row _ hp
  have hkind := (of_decide_eq_true hp).1
  have hnot : row.executionKind ≠ .agent := by
    rw [hkind]
    nofun
  refine Keeps.ofStatus rfl rfl rfl (fun hagent => absurd hagent hnot) ?_ ?_ (SameClaim.refl row)
  · rintro rfl
    simp at hstatus
  · intro hactive
    exact absurd (isActiveAgent_iff.mp hactive).1 hnot

theorem quiet_patchTurn :
    ∃ g, Quiet turns (patchTurn id patch turns) g [] :=
  ⟨_, Quiet.update hids hsequences
    (fun row _ _ => Keeps.ofSame rfl rfl Iff.rfl rfl (sameClaim_apply patch row)) fun _ => rfl⟩

theorem quiet_describeImage {userContent : Json} :
    ∃ g, Quiet turns (describeImage id userContent turns) g [] :=
  ⟨_, Quiet.update hids hsequences
    (fun row _ _ => Keeps.ofSame rfl rfl Iff.rfl rfl (SameClaim.refl row)) fun _ => rfl⟩

theorem quiet_compaction {move : Int → Int} {row : TurnRow} (hmove : StrictMono move)
    (hstatus : row.status = .completed) (hintent : row.intent = .compact)
    (hnew : ∀ turn ∈ turns, turn.id ≠ row.id)
    (hfree : ∀ turn ∈ turns, move turn.sequence ≠ row.sequence) :
    ∃ g, Quiet turns (renumber move turns ++ [row]) g [row] := by
  have hkeeps : ∀ turn : TurnRow, Keeps turn { turn with sequence := move turn.sequence } :=
    fun turn => Keeps.ofSame rfl rfl Iff.rfl rfl (SameClaim.refl turn)
  have hmoved : Distinct TurnRow.sequence (renumber move turns) := by
    refine pairwise_map.mpr (hsequences.imp ?_)
    intro a b hne heq
    exact hne (hmove.injective heq)
  refine ⟨fun turn => { turn with sequence := move turn.sequence },
    ⟨⟨rfl, fun turn _ => (hkeeps turn).toMoves, ?_, ?_, ?_⟩, fun turn _ => hkeeps turn, ?_⟩⟩
  · refine Distinct.concat (hids.map fun _ _ => rfl) ?_
    intro moved hmem
    obtain ⟨turn, hturn, rfl⟩ := mem_map.mp hmem
    exact hnew turn hturn
  · refine hmoved.concat ?_
    intro moved hmem
    obtain ⟨turn, hturn, rfl⟩ := mem_map.mp hmem
    exact hfree turn hturn
  · intro other hother _ hne
    rw [mem_singleton.mp hother] at hne
    exact absurd hintent hne
  · intro other hother
    rw [mem_singleton.mp hother, ← Bool.not_eq_true]
    intro hactive
    rcases isActive_iff.mp (isActiveAgent_iff.mp hactive).2 with h | h <;>
      rw [hstatus] at h <;> cases h

end

end

theorem Step.cases {staleActiveTurnMs : Int} {byteLength : Json → Nat} {w w' : World}
    (hids : Distinct TurnRow.id w.turns) (hsequences : Distinct TurnRow.sequence w.turns)
    (hstep : Step staleActiveTurnMs byteLength w w') :
    (∃ config clock turns result,
      claimNextTurnBatch staleActiveTurnMs byteLength config clock w.turns = .ok (turns, result) ∧
        w' = w.afterClaim turns result) ∨
      ∃ turns g new, Quiet w.turns turns g new ∧ w' = w.next turns := by
  cases hstep with
  | claim config clock turns result hclaim =>
    exact .inl ⟨config, clock, turns, result, hclaim, rfl⟩
  | queuePrompt row hkind hstatus hintent hnew hlast =>
    have hinactive : isActiveAgent row = false := by
      rw [← Bool.not_eq_true, isActiveAgent_iff, isActive_iff, hstatus]
      rintro ⟨_, h | h⟩ <;> cases h
    exact .inr ⟨_, _, _, Quiet.append hids hsequences hnew (fun turn hturn => (hlast turn hturn).ne)
      (fun _ _ => hstatus) hinactive, rfl⟩
  | addOther row hkind hnew hlast =>
    have hinactive : isActiveAgent row = false := by
      rw [← Bool.not_eq_true, isActiveAgent_iff]
      exact fun hboth => hkind hboth.1
    exact .inr ⟨_, _, _, Quiet.append hids hsequences hnew (fun turn hturn => (hlast turn hturn).ne)
      (fun hagent => absurd hagent hkind) hinactive, rfl⟩
  | finalize id status patch now hstatus =>
    obtain ⟨g, h⟩ := quiet_finalizeSessionTurn hids hsequences hstatus
    exact .inr ⟨_, g, _, h, rfl⟩
  | fail id now =>
    obtain ⟨g, h⟩ := quiet_failSessionTurn hids hsequences
    exact .inr ⟨_, g, _, h, rfl⟩
  | requestAbort id patch now =>
    obtain ⟨g, h⟩ := quiet_requestAbort hids hsequences
    exact .inr ⟨_, g, _, h, rfl⟩
  | withdrawAbort id now =>
    obtain ⟨g, h⟩ := quiet_withdrawAbort hids hsequences
    exact .inr ⟨_, g, _, h, rfl⟩
  | promote id patch sequence now hlast =>
    obtain ⟨g, h⟩ := quiet_promoteToSteer hids hsequences hlast
    exact .inr ⟨_, g, _, h, rfl⟩
  | cancel id patch sequence now hlast =>
    obtain ⟨g, h⟩ := quiet_cancelQueuedTurn hids hsequences hlast
    exact .inr ⟨_, g, _, h, rfl⟩
  | generation id status now hstatus =>
    obtain ⟨g, h⟩ := quiet_setGeneration hids hsequences hstatus
    exact .inr ⟨_, g, _, h, rfl⟩
  | patch id patch =>
    obtain ⟨g, h⟩ := quiet_patchTurn hids hsequences
    exact .inr ⟨_, g, _, h, rfl⟩
  | describe id userContent =>
    obtain ⟨g, h⟩ := quiet_describeImage hids hsequences
    exact .inr ⟨_, g, _, h, rfl⟩
  | compaction move row hmove _ hstatus hintent hnew hfree =>
    obtain ⟨g, h⟩ := quiet_compaction hids hsequences hmove hstatus hintent hnew hfree
    exact .inr ⟨_, g, _, h, rfl⟩

end Cohub.Queue
