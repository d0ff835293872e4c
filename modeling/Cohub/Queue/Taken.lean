import Mathlib.Data.List.TakeWhile
import Cohub.Queue.Moves

/-! # What a claim takes

    First the limits: what they leave is a first part of the queue, never empty.
    Then the rows: the updates of a claim find each of their Turns queued
    (`claimQueuedTurns_takes`), as all of them were read in the same transaction. -/

namespace Cohub.Queue

open Table Fields List
open Cohub.Context (TurnStatus TurnIntent)

/-! ## Limits -/

section

variable {α : Type} {sizeOf : α → Nat} {messages bytes : Nat}

/-- The batch is within the limits, or one Turn. -/
def Within (sizeOf : α → Nat) (messages bytes : Nat) (batch : List α) : Prop :=
  batch.length ≤ messages ∧ (batch.length ≤ 1 ∨ (batch.map sizeOf).sum ≤ bytes)

theorem limitLoop_initial (batch turns : List α) (size : Nat) :
    batch <+: limitLoop sizeOf messages bytes batch size turns ∧
      limitLoop sizeOf messages bytes batch size turns <+: batch ++ turns := by
  induction turns generalizing batch size with
  | nil => exact ⟨prefix_refl _, by rw [append_nil]; exact prefix_refl _⟩
  | cons turn rest ih =>
    unfold limitLoop
    split
    · exact ⟨prefix_refl _, prefix_append _ _⟩
    split
    · exact ⟨prefix_refl _, prefix_append _ _⟩
    · obtain ⟨hfirst, hlast⟩ := ih (batch ++ [turn]) (size + sizeOf turn)
      rw [append_assoc, singleton_append] at hlast
      exact ⟨(prefix_append _ _).trans hfirst, hlast⟩

theorem limitLoop_within (batch turns : List α) (h : Within sizeOf messages bytes batch) :
    Within sizeOf messages bytes
      (limitLoop sizeOf messages bytes batch (batch.map sizeOf).sum turns) := by
  induction turns generalizing batch with
  | nil => exact h
  | cons turn rest ih =>
    unfold limitLoop
    split
    · exact h
    · next hroom =>
      split
      · exact h
      · next hbytes =>
        have hsum : (batch.map sizeOf).sum + sizeOf turn = ((batch ++ [turn]).map sizeOf).sum := by
          simp
        rw [hsum]
        apply ih
        constructor
        · rw [length_append, length_singleton]
          omega
        · rw [← hsum, length_append, length_singleton]
          omega

theorem limitBatchSize_initial (turns : List α) : limitBatchSize sizeOf turns <+: turns := by
  unfold limitBatchSize
  dsimp only
  split
  · exact List.take_prefix _ _
  · exact (limitLoop_initial [] turns 0).2

variable {turns : List α}

theorem limitBatchSize_ne_nil (h : turns ≠ []) : limitBatchSize sizeOf turns ≠ [] := by
  unfold limitBatchSize
  dsimp only
  split
  · obtain ⟨first, rest, rfl⟩ := exists_cons_of_ne_nil h
    exact cons_ne_nil _ _
  · assumption

theorem limitBatchSize_limits (h : turns ≠ []) :
    (limitBatchSize sizeOf turns).length = 1 ∨
      (limitBatchSize sizeOf turns).length ≤ RUNTIME_MAX_BATCH_MESSAGES ∧
        ((limitBatchSize sizeOf turns).map sizeOf).sum ≤ RUNTIME_MAX_BATCH_INPUT_BYTES := by
  have hne : limitBatchSize sizeOf turns ≠ [] := limitBatchSize_ne_nil h
  have hpos := length_pos_of_ne_nil hne
  unfold limitBatchSize at hpos ⊢
  dsimp only at hpos ⊢
  split
  · obtain ⟨first, rest, rfl⟩ := exists_cons_of_ne_nil h
    exact .inl rfl
  · next hloop =>
    rw [if_neg hloop] at hpos
    have hwithin : Within sizeOf RUNTIME_MAX_BATCH_MESSAGES RUNTIME_MAX_BATCH_INPUT_BYTES
        (limitLoop sizeOf RUNTIME_MAX_BATCH_MESSAGES RUNTIME_MAX_BATCH_INPUT_BYTES [] 0 turns) :=
      limitLoop_within [] turns ⟨Nat.zero_le _, .inl (Nat.zero_le _)⟩
    obtain ⟨hlength, hone | hsize⟩ := hwithin
    · exact .inl (le_antisymm hone hpos)
    · exact .inr ⟨hlength, hsize⟩

end

theorem strictEquals_eq {a b : Option Json} (h : strictEquals a b = true) : a = b := by
  unfold strictEquals at h
  split at h
  · cases h
  · cases h
  · exact of_decide_eq_true h

theorem limitBatchToApprovalMode_initial (turns : List TurnRow) :
    limitBatchToApprovalMode turns <+: turns := by
  cases turns with
  | nil => exact prefix_refl _
  | cons first rest =>
    exact (prefix_cons_inj first).mpr (List.takeWhile_prefix _)

variable {a b : TurnRow} {turns : List TurnRow}

theorem limitBatchToApprovalMode_mode (ha : a ∈ limitBatchToApprovalMode turns)
    (hb : b ∈ limitBatchToApprovalMode turns) : modeOf a = modeOf b := by
  cases turns with
  | nil => cases ha
  | cons first rest =>
    have hfirst : ∀ turn ∈ limitBatchToApprovalMode (first :: rest), modeOf turn = modeOf first := by
      intro turn hturn
      rcases mem_cons.mp hturn with rfl | hturn
      · rfl
      · have hmode : strictEquals (modeOf turn) (modeOf first) = true :=
          mem_takeWhile_imp (p := fun turn => strictEquals (modeOf turn) (modeOf first)) hturn
        exact strictEquals_eq hmode
    rw [hfirst a ha, hfirst b hb]

section

variable {byteLength : Json → Nat} {delivery : FollowupDelivery} {turns : List TurnRow}

theorem selectFollowups_initial : selectFollowups byteLength delivery turns <+: turns := by
  cases delivery with
  | oneByOne => exact List.take_prefix _ _
  | together => exact (limitBatchSize_initial _).trans (limitBatchToApprovalMode_initial _)

theorem selectFollowups_ne_nil (h : turns ≠ []) : selectFollowups byteLength delivery turns ≠ [] := by
  obtain ⟨first, rest, rfl⟩ := exists_cons_of_ne_nil h
  cases delivery with
  | oneByOne => exact cons_ne_nil _ _
  | together => exact limitBatchSize_ne_nil (cons_ne_nil _ _)

theorem selectFollowups_mode {a b : TurnRow} (ha : a ∈ selectFollowups byteLength delivery turns)
    (hb : b ∈ selectFollowups byteLength delivery turns) : modeOf a = modeOf b := by
  cases delivery with
  | oneByOne =>
    cases turns with
    | nil => cases ha
    | cons first rest => rw [mem_singleton.mp ha, mem_singleton.mp hb]
  | together =>
    exact limitBatchToApprovalMode_mode ((limitBatchSize_initial _).subset ha)
      ((limitBatchSize_initial _).subset hb)

theorem selectFollowups_limits (h : turns ≠ []) :
    (selectFollowups byteLength delivery turns).length = 1 ∨
      (selectFollowups byteLength delivery turns).length ≤ RUNTIME_MAX_BATCH_MESSAGES ∧
        ((selectFollowups byteLength delivery turns).map
          fun turn => byteLength turn.userContent).sum ≤ RUNTIME_MAX_BATCH_INPUT_BYTES := by
  obtain ⟨first, rest, rfl⟩ := exists_cons_of_ne_nil h
  cases delivery with
  | oneByOne => exact .inl rfl
  | together => exact limitBatchSize_limits (cons_ne_nil _ _)

end

/-! ## The record of a batch -/

def batchKey (turn : TurnRow) : String × String := (turn.id, getUserMessageId turn)

def recordOf (keys : List (String × String)) (ownerTurnId : String) : ExecutionBatch where
  ownerTurnId := ownerTurnId
  turnIds := keys.map Prod.fst
  mergedTurnIds := (keys.map Prod.fst).dropLast
  userMessageIds := (keys.map Prod.snd).filter fun value => value ≠ ""
  anchorUserMessageId := ((keys.map Prod.snd).filter fun value => value ≠ "").getLast?

theorem createExecutionBatch_concat (front : List TurnRow) (owner : TurnRow) :
    createExecutionBatch (front ++ [owner]) =
      .ok (recordOf ((front ++ [owner]).map batchKey) owner.id) := by
  have hids : ((front ++ [owner]).map batchKey).map Prod.fst = (front ++ [owner]).map TurnRow.id := by
    rw [map_map]
    rfl
  have hmessages : ((front ++ [owner]).map batchKey).map Prod.snd =
      (front ++ [owner]).map getUserMessageId := by
    rw [map_map]
    rfl
  unfold createExecutionBatch recordOf
  rw [getLast?_concat, hids, hmessages, map_dropLast]

/-! ## The rows of a claim -/

structure Takes (before : List TurnRow) (g : TurnRow → TurnRow) (batch : ClaimedTurnBatch) : Prop where
  split : batch.turns = batch.mergedTurns ++ [batch.ownerTurn]
  record : createExecutionBatch batch.turns = .ok batch.executionBatch
  nodup : (batch.turns.map TurnRow.id).Nodup
  present : ∀ turn ∈ batch.turns, ∃ row ∈ before, isQueuedAgent row = true ∧
    batchKey row = batchKey turn
  moves : ∀ row ∈ before, Moves row (g row)
  place : ∀ row ∈ before, (g row).sequence = row.sequence
  others : ∀ row ∈ before, row.id ∉ batch.turns.map TurnRow.id →
    Keeps row (g row) ∧ isActiveAgent (g row) = false
  messages : ∀ row ∈ before, getUserMessageId (g row) = getUserMessageId row
  merged : ∀ row ∈ before, row.id ∈ batch.mergedTurns.map TurnRow.id → (g row).status = .merged
  owner : ∀ row ∈ before, row.id = batch.ownerTurn.id → (g row).status = .running ∧
    Fields.get? (asRecord (g row).metadata) "executionBatch" = some batch.executionBatch.toJson

section

variable {turns : List TurnRow} {clock : Clock} {ownerId : String}

theorem isQueued_iff_id {row : TurnRow} (hids : Distinct TurnRow.id turns)
    (hrow : row ∈ turns) (hqueued : row.status = .queued) {other : TurnRow} (hother : other ∈ turns) :
    isQueued row.id other = true ↔ other.id = row.id := by
  rw [isQueued_iff]
  refine ⟨fun h => h.1, fun hid => ⟨hid, ?_⟩⟩
  rw [hids.eq_of_key hother hrow hid]
  exact hqueued

theorem mergeTurns_eq (merged turns : List TurnRow) (hids : Distinct TurnRow.id turns)
    (hnodup : (merged.map TurnRow.id).Nodup)
    (hmerged : ∀ turn ∈ merged, turn ∈ turns ∧ turn.status = .queued) :
    mergeTurns clock ownerId merged turns =
      .ok (updateRows (fun row => row.id ∈ merged.map TurnRow.id) (mergeTurn clock ownerId) turns) := by
  induction merged generalizing turns with
  | nil =>
    have hsame : updateRows (fun row => row.id ∈ ([] : List TurnRow).map TurnRow.id)
        (mergeTurn clock ownerId) turns = turns := by
      unfold updateRows
      simp
    unfold mergeTurns
    rw [hsame]
  | cons turn rest ih =>
    obtain ⟨hturn, hqueued⟩ := hmerged turn mem_cons_self
    obtain ⟨hfresh, hnodup⟩ := nodup_cons.mp hnodup
    have hany : turns.any (isQueued turn.id) = true :=
      any_eq_true.mpr ⟨turn, hturn, (isQueued_iff_id hids hturn hqueued hturn).mpr rfl⟩
    have hupdated : Distinct TurnRow.id
        (updateRows (isQueued turn.id) (mergeTurn clock ownerId) turns) := by
      refine hids.map fun row _ => ?_
      split <;> rfl
    unfold mergeTurns
    rw [if_pos hany, ih _ hupdated hnodup ?_]
    · -- the two updates, as one
      unfold updateRows
      rw [map_map]
      congr 1
      refine map_congr_left fun row hrow => ?_
      rw [Function.comp_apply]
      by_cases hid : row.id = turn.id
      · have hp := (isQueued_iff_id hids hturn hqueued hrow).mpr hid
        have hin : row.id ∈ (turn :: rest).map TurnRow.id := hid ▸ mem_cons_self
        have hnext : (mergeTurn clock ownerId row).id ∉ rest.map TurnRow.id := by
          show row.id ∉ _
          rw [hid]
          exact hfresh
        rw [if_pos hp, if_neg (by simp only [decide_eq_true_iff]; exact hnext),
          if_pos (decide_eq_true hin)]
      · have hp : ¬ isQueued turn.id row = true := fun hp => hid (isQueued_iff.mp hp).1
        have hin : row.id ∈ (turn :: rest).map TurnRow.id ↔ row.id ∈ rest.map TurnRow.id := by
          rw [map_cons, mem_cons]
          exact ⟨fun h => h.resolve_left hid, .inr⟩
        rw [if_neg hp]
        simp only [hin]
    · intro other hother
      obtain ⟨hmem, hstatus⟩ := hmerged other (mem_cons_of_mem _ hother)
      refine ⟨?_, hstatus⟩
      have hne : ¬ isQueued turn.id other = true := by
        intro hp
        exact hfresh ((isQueued_iff.mp hp).1 ▸ mem_map_of_mem hother)
      have hsame : (if isQueued turn.id other then mergeTurn clock ownerId other else other) = other :=
        if_neg hne
      exact hsame ▸ mem_map_of_mem hmem

variable {owner : TurnRow} {batch : ExecutionBatch}

theorem get?_ownerMetadata {key : String}
    (hbatch : key ≠ "executionBatch") (hmetrics : key ≠ "metrics") :
    get? (ownerMetadata clock owner batch).fields key =
      get? (asRecord owner.metadata) key := by
  apply get?_assign_of_none
  rw [get?_cons, if_neg hbatch, get?_cons, if_neg hmetrics, get?_nil]

theorem get?_ownerMetadata_batch :
    get? (ownerMetadata clock owner batch).fields "executionBatch" = some batch.toJson := by
  unfold ownerMetadata
  show get? ((Fields.set _ "executionBatch" batch.toJson).set "metrics" _) _ = _
  rw [get?_set_ne _ _ (by decide), get?_set_self]

def claimRow (clock : Clock) (owner : TurnRow) (metadata : Json) (merged : List TurnRow)
    (row : TurnRow) : TurnRow :=
  if row.id = owner.id then startOwner clock metadata row
  else if row.id ∈ merged.map TurnRow.id then mergeTurn clock owner.id row
  else row

theorem claimQueuedTurns_takes (clock : Clock) (front : List TurnRow) (owner : TurnRow)
    (hids : Distinct TurnRow.id turns) (hnodup : ((front ++ [owner]).map TurnRow.id).Nodup)
    (hqueued : ∀ turn ∈ front ++ [owner], turn ∈ turns ∧ isQueuedAgent turn = true)
    (hinactive : ∀ turn ∈ turns, isActiveAgent turn = false) :
    ∃ batch g, claimQueuedTurns clock turns (front ++ [owner]) = .ok (some (turns.map g, batch)) ∧
      Takes turns g batch ∧ batch.executionBatch.turnIds = (front ++ [owner]).map TurnRow.id := by
  obtain ⟨howner, hownerQueued⟩ := hqueued owner (mem_append_right _ mem_cons_self)
  have hownerStatus := (isQueuedAgent_iff.mp hownerQueued).2
  have hfront : ∀ turn ∈ front, turn ∈ turns ∧ turn.status = .queued := by
    intro turn hturn
    obtain ⟨hmem, hagent⟩ := hqueued turn (mem_append_left _ hturn)
    exact ⟨hmem, (isQueuedAgent_iff.mp hagent).2⟩
  rw [map_append, map_singleton] at hnodup
  obtain ⟨hfrontNodup, _, hdisjoint⟩ := nodup_append.mp hnodup
  have hne : ∀ turn ∈ front, turn.id ≠ owner.id := fun turn hturn =>
    hdisjoint turn.id (mem_map_of_mem hturn) owner.id (mem_singleton_self _)
  set executionBatch := recordOf ((front ++ [owner]).map batchKey) owner.id with hrecord
  set metadata := ownerMetadata clock owner executionBatch with hmetadata
  set updatedOwner : TurnRow := { owner with
    status := .running, metadata := some metadata, updatedAt := some clock.dateNow } with hupdated
  have hmessage : getUserMessageId updatedOwner = getUserMessageId owner :=
    getUserMessageId_congr rfl (get?_ownerMetadata (by decide) (by decide))
      (get?_ownerMetadata (by decide) (by decide))
  have hkey : batchKey updatedOwner = batchKey owner := Prod.ext rfl hmessage
  set g := claimRow clock owner metadata front with hg
  -- the rows, in the two kinds of updates
  have hany : turns.any (isQueued owner.id) = true :=
    any_eq_true.mpr ⟨owner, howner, (isQueued_iff_id hids howner hownerStatus howner).mpr rfl⟩
  have hstarted : updateRows (isQueued owner.id) (startOwner clock metadata) turns =
      turns.map fun row => if row.id = owner.id then startOwner clock metadata row else row := by
    refine map_congr_left fun row hrow => ?_
    by_cases hid : row.id = owner.id
    · rw [if_pos hid, if_pos ((isQueued_iff_id hids howner hownerStatus hrow).mpr hid)]
    · rw [if_neg hid, if_neg fun hp => hid (isQueued_iff.mp hp).1]
  have hrows : mergeTurns clock owner.id front
      (updateRows (isQueued owner.id) (startOwner clock metadata) turns) = .ok (turns.map g) := by
    rw [hstarted, mergeTurns_eq front _ (hids.map fun row _ => by split <;> rfl) hfrontNodup]
    · unfold updateRows
      rw [map_map]
      congr 1
      refine map_congr_left fun row _ => ?_
      rw [Function.comp_apply, hg]
      unfold claimRow
      by_cases hid : row.id = owner.id
      · have hnot : (startOwner clock metadata row).id ∉ front.map TurnRow.id := by
          intro hmem
          obtain ⟨turn, hturn, heq⟩ := mem_map.mp hmem
          exact hne turn hturn (heq.trans hid)
        rw [if_pos hid, if_pos hid, if_neg (by simp only [decide_eq_true_iff]; exact hnot)]
      · rw [if_neg hid, if_neg hid]
        by_cases hin : row.id ∈ front.map TurnRow.id
        · rw [if_pos hin, if_pos (decide_eq_true hin)]
        · rw [if_neg hin, if_neg (by simp only [decide_eq_true_iff]; exact hin)]
    · intro turn hturn
      obtain ⟨hmem, hstatus⟩ := hfront turn hturn
      have hsame : (if turn.id = owner.id then startOwner clock metadata turn else turn) = turn :=
        if_neg (hne turn hturn)
      exact ⟨mem_map.mpr ⟨turn, hmem, hsame⟩, hstatus⟩
  refine ⟨⟨updatedOwner, front ++ [updatedOwner], front, executionBatch⟩, g, ?_, ?_, ?_⟩
  · unfold claimQueuedTurns
    rw [getLast?_concat, createExecutionBatch_concat]
    dsimp only
    rw [if_pos hany, dropLast_concat, hrows]
  · have hcases : ∀ row ∈ turns,
        (row.id = owner.id ∧ g row = startOwner clock metadata row) ∨
        (row.id ≠ owner.id ∧ row.id ∈ front.map TurnRow.id ∧ g row = mergeTurn clock owner.id row) ∨
        (row.id ≠ owner.id ∧ row.id ∉ front.map TurnRow.id ∧ g row = row) := by
      intro row _
      rw [hg]
      unfold claimRow
      by_cases hid : row.id = owner.id
      · exact .inl ⟨hid, if_pos hid⟩
      · rw [if_neg hid]
        by_cases hin : row.id ∈ front.map TurnRow.id
        · exact .inr (.inl ⟨hid, hin, if_pos hin⟩)
        · exact .inr (.inr ⟨hid, hin, if_neg hin⟩)
    constructor
    case split => rfl
    case record =>
      show createExecutionBatch (front ++ [updatedOwner]) = _
      rw [createExecutionBatch_concat, map_append, map_singleton, hkey, hrecord,
        map_append, map_singleton]
    case nodup =>
      show ((front ++ [updatedOwner]).map TurnRow.id).Nodup
      rw [map_append, map_singleton]
      exact hnodup
    case present =>
      intro turn hturn
      rcases mem_append.mp hturn with hturn | hturn
      · obtain ⟨hmem, hagent⟩ := hqueued turn (mem_append_left _ hturn)
        exact ⟨turn, hmem, hagent, rfl⟩
      · rw [mem_singleton.mp hturn]
        exact ⟨owner, howner, hownerQueued, hkey.symm⟩
    case moves =>
      intro row hrow
      rcases hcases row hrow with ⟨_, hrow⟩ | ⟨_, _, hrow⟩ | ⟨_, _, hrow⟩
      · rw [hrow]
        exact ⟨rfl, rfl, Iff.rfl, nofun⟩
      · rw [hrow]
        exact ⟨rfl, rfl, Iff.rfl, nofun⟩
      · rw [hrow]
        exact Moves.refl row
    case place =>
      intro row hrow
      rcases hcases row hrow with ⟨_, hrow⟩ | ⟨_, _, hrow⟩ | ⟨_, _, hrow⟩ <;> rw [hrow] <;> rfl
    case others =>
      intro row hrow hnot
      rw [map_append, mem_append, not_or] at hnot
      rcases hcases row hrow with ⟨hid, _⟩ | ⟨_, hin, _⟩ | ⟨_, _, hsame⟩
      · exact absurd (mem_singleton.mpr hid) hnot.2
      · exact absurd hin hnot.1
      · rw [hsame]
        exact ⟨Keeps.refl row, hinactive row hrow⟩
    case messages =>
      intro row hrow
      rcases hcases row hrow with ⟨hid, hstart⟩ | ⟨_, _, hmerge⟩ | ⟨_, _, hsame⟩
      · rw [hstart, hids.eq_of_key hrow howner hid]
        exact hmessage
      · rw [hmerge]
        exact getUserMessageId_congr rfl (get?_patched rfl) (get?_patched rfl)
      · rw [hsame]
    case merged =>
      intro row hrow hin
      rcases hcases row hrow with ⟨hid, _⟩ | ⟨_, _, hmerge⟩ | ⟨_, hnot, _⟩
      · obtain ⟨turn, hturn, heq⟩ := mem_map.mp hin
        exact absurd (heq.trans hid) (hne turn hturn)
      · rw [hmerge]
        rfl
      · exact absurd hin hnot
    case owner =>
      intro row hrow hid
      rcases hcases row hrow with ⟨_, hstart⟩ | ⟨hnot, _⟩ | ⟨hnot, _⟩
      · rw [hstart]
        exact ⟨rfl, get?_ownerMetadata_batch⟩
      · exact absurd hid hnot
      · exact absurd hid hnot
  · show ((front ++ [owner]).map batchKey).map Prod.fst = _
    rw [map_map]
    rfl

end

/-! ## The Turns that a claim selects -/

section

variable {turns : List TurnRow} {byteLength : Json → Nat} {config : QueueConfig} {clock : Clock}
  {turn : TurnRow}

theorem lt_of_beforeGeneration (hsequences : Distinct TurnRow.sequence turns) {generation : TurnRow}
    (hbefore : beforeGeneration turns turn = true) (hgeneration : generation ∈ turns)
    (hblocking : isBlocking generation = true) : turn.sequence < generation.sequence := by
  have hascending := orderBy_ascending (hsequences.filter isBlocking)
  have hmem : generation ∈ orderBy TurnRow.sequence (turns.filter isBlocking) :=
    mem_orderBy.mpr (mem_filter.mpr ⟨hgeneration, hblocking⟩)
  obtain ⟨first, rest, hlist⟩ := exists_cons_of_ne_nil (ne_nil_of_mem hmem)
  have hfirst : blockingSequence turns = some first.sequence := by
    unfold blockingSequence
    rw [hlist]
    rfl
  have hlt : turn.sequence < first.sequence := of_decide_eq_true hbefore first.sequence hfirst
  have hhead : (orderBy TurnRow.sequence (turns.filter isBlocking)).head? = some first := by
    rw [hlist]
    rfl
  exact hlt.trans_le (hascending.head_le hhead hmem)

theorem mem_followups : turn ∈ followups turns ↔
    turn ∈ turns ∧ isQueuedAgent turn = true ∧ turn.intent = .followup ∧
      beforeGeneration turns turn = true := by
  unfold followups
  rw [mem_orderBy, mem_filter, decide_eq_true_iff]

theorem followups_initial (hsequences : Distinct TurnRow.sequence turns) :
    followups turns <+: queuedFollowups turns := by
  have hsplit : followups turns = (queuedFollowups turns).filter (beforeGeneration turns) := by
    unfold followups queuedFollowups
    rw [← orderBy_filter (hsequences.filter _), filter_filter]
    congr 1
    refine filter_congr fun turn _ => ?_
    rw [Bool.eq_iff_iff, Bool.and_eq_true, decide_eq_true_iff, decide_eq_true_iff]
    tauto
  rw [hsplit]
  apply (orderBy_ascending (hsequences.filter _)).filter_initial
  intro a b hlt hb
  refine decide_eq_true ?_
  intro sequence hsequence
  exact hlt.trans (of_decide_eq_true hb sequence hsequence)

theorem mem_of_nextSteer {steer : TurnRow} (h : nextSteer turns = some steer) :
    steer ∈ turns ∧ isQueuedAgent steer = true ∧ steer.intent = .steer ∧
      beforeGeneration turns steer = true := by
  unfold nextSteer at h
  have hmem := mem_of_head? h
  rw [mem_insertionSort, mem_filter, decide_eq_true_iff] at hmem
  exact hmem

theorem claimQueue_cases {after : List TurnRow} {result : ClaimResult}
    (hids : Distinct TurnRow.id turns) (hsequences : Distinct TurnRow.sequence turns)
    (hinactive : ∀ turn ∈ turns, isActiveAgent turn = false)
    (h : claimQueue byteLength config clock turns = .ok (after, result)) :
    (after = turns ∧ ∀ batch, result ≠ .claimed batch) ∨
      ∃ batch g, result = .claimed batch ∧ after = turns.map g ∧ Takes turns g batch ∧
        Justified byteLength turns batch := by
  unfold claimQueue at h
  dsimp only at h
  split at h
  · next steer hsteer =>
    obtain ⟨hmem, hqueued, hintent, hbefore⟩ := mem_of_nextSteer hsteer
    obtain ⟨batch, g, hclaim, htakes, hbatch⟩ :=
      claimQueuedTurns_takes clock [] steer hids (nodup_singleton _)
        (fun turn hturn => mem_singleton.mp hturn ▸ ⟨hmem, hqueued⟩) hinactive
    rw [nil_append] at hclaim hbatch
    rw [hclaim] at h
    injection h with h
    injection h with hafter hresult
    refine Or.inr ⟨batch, g, hresult.symm, hafter.symm, htakes, [steer], hbatch.symm,
      Or.inl ⟨steer, rfl, hintent⟩, ?_⟩
    intro turn hturn
    rw [mem_singleton.mp hturn]
    exact ⟨hmem, hqueued, fun generation hgeneration hblocking =>
      lt_of_beforeGeneration hsequences hbefore hgeneration hblocking⟩
  · injection h with h
    injection h with hafter hresult
    refine Or.inl ⟨hafter.symm, ?_⟩
    intro batch heq
    rw [← hresult] at heq
    cases heq
  · next first rest _ hfollowups =>
    split at h
    · cases h
    · next delivery _ =>
      have hne : first :: rest ≠ [] := cons_ne_nil _ _
      have hinitial : selectFollowups byteLength delivery (first :: rest) <+: first :: rest :=
        selectFollowups_initial
      have hselected : ∀ turn ∈ selectFollowups byteLength delivery (first :: rest),
          turn ∈ turns ∧ isQueuedAgent turn = true ∧ turn.intent = .followup ∧
            beforeGeneration turns turn = true := by
        intro turn hturn
        apply mem_followups.mp
        rw [hfollowups]
        exact hinitial.subset hturn
      have hfollowupIds : Distinct TurnRow.id (first :: rest) := by
        rw [← hfollowups]
        exact (hids.filter _).perm (orderBy_perm _ _).symm
      have hnodup : ((selectFollowups byteLength delivery (first :: rest)).map TurnRow.id).Nodup :=
        hfollowupIds.nodup.sublist (hinitial.sublist.map _)
      have hbatchOf : FollowupBatch byteLength turns
          (selectFollowups byteLength delivery (first :: rest)) := by
        refine ⟨hinitial.trans ?_, fun a ha b hb => selectFollowups_mode ha hb,
          selectFollowups_limits hne⟩
        rw [← hfollowups]
        exact followups_initial hsequences
      have hlast : selectFollowups byteLength delivery (first :: rest) ≠ [] :=
        selectFollowups_ne_nil hne
      obtain ⟨front, owner, hsplit⟩ := eq_nil_or_concat'
        (selectFollowups byteLength delivery (first :: rest)) |>.resolve_left hlast
      rw [hsplit] at hselected hnodup hbatchOf h
      obtain ⟨batch, g, hclaim, htakes, hbatch⟩ :=
        claimQueuedTurns_takes clock front owner hids hnodup
          (fun turn hturn => ⟨(hselected turn hturn).1, (hselected turn hturn).2.1⟩) hinactive
      rw [hclaim] at h
      injection h with h
      injection h with hafter hresult
      refine Or.inr ⟨batch, g, hresult.symm, hafter.symm, htakes, front ++ [owner], hbatch.symm,
        Or.inr hbatchOf, ?_⟩
      intro turn hturn
      obtain ⟨hmem, hqueued, _, hbefore⟩ := hselected turn hturn
      exact ⟨hmem, hqueued, fun generation hgeneration hblocking =>
        lt_of_beforeGeneration hsequences hbefore hgeneration hblocking⟩

end

/-! ## Stale Turns -/

variable {c : TurnRow}

theorem Moves.trans (h : Moves a b) (h' : Moves b c) : Moves a c :=
  ⟨h'.id.trans h.id, h'.kind.trans h.kind, h'.compact.trans h.compact, fun hc => h.queued (h'.queued hc)⟩

theorem Keeps.trans (h : Keeps a b) (h' : Keeps b c) (hleft : a.status ≠ .queued) :
    Keeps a c where
  toMoves := h.toMoves.trans h'.toMoves
  left _ hqueued := absurd hqueued hleft
  active hc := h.active (h'.active hc)
  claim := h'.claim.trans h.claim

theorem filter_map_of_fixed {p : TurnRow → Bool} {g : TurnRow → TurnRow}
    (hfix : ∀ row ∈ turns, g row = row ∨ p row = false ∧ p (g row) = false) :
    (turns.map g).filter p = turns.filter p := by
  induction turns with
  | nil => rfl
  | cons row rest ih =>
    have hrest := ih fun other hother => hfix other (mem_cons_of_mem _ hother)
    rw [map_cons]
    rcases hfix row mem_cons_self with hsame | ⟨hrow, hmoved⟩
    · rw [hsame, filter_cons, filter_cons, hrest]
    · rw [filter_cons_of_neg (by rw [hmoved]; nofun), filter_cons_of_neg (by rw [hrow]; nofun),
        hrest]

section

variable {turns : List TurnRow} {byteLength : Json → Nat} {config : QueueConfig} {clock : Clock}
  {active : TurnRow}

theorem activeTurn_some (h : activeTurn turns = some active) :
    active ∈ turns ∧ isActiveAgent active = true := by
  unfold activeTurn at h
  have hmem := mem_of_head? h
  rw [mem_orderBy] at hmem
  exact mem_filter.mp hmem

theorem activeTurn_none (h : activeTurn turns = none) : ∀ row ∈ turns, isActiveAgent row = false := by
  intro row hrow
  rw [← Bool.not_eq_true]
  intro hactive
  have hmem : row ∈ orderBy TurnRow.sequence (turns.filter isActiveAgent) :=
    mem_orderBy.mpr (mem_filter.mpr ⟨hrow, hactive⟩)
  unfold activeTurn at h
  rw [head?_eq_none_iff.mp h] at hmem
  cases hmem

/-- The update of a stale Turn, on one row. -/
def interruptRow (clock : Clock) (active row : TurnRow) : TurnRow :=
  if decide (row.id = active.id ∧ isActive row) then
    { row with
      status := .interrupted
      metadata := some (patched row.metadata [
        ("previousStatus", .str (statusText active.status)),
        ("staleActiveRecoveredAt", .str clock.toISOString)])
      updatedAt := some clock.now }
  else row

theorem interruptRow_cases (clock : Clock) (active row : TurnRow) :
    interruptRow clock active row = row ∧ ¬ (row.id = active.id ∧ isActive row = true) ∨
      (row.id = active.id ∧ isActive row = true) ∧
        (interruptRow clock active row).status = .interrupted := by
  unfold interruptRow
  split
  · next h => exact .inr ⟨of_decide_eq_true h, rfl⟩
  · next h => exact .inl ⟨rfl, fun hboth => h (decide_eq_true hboth)⟩

variable (row : TurnRow)

theorem keeps_interruptRow : Keeps row (interruptRow clock active row) := by
  unfold interruptRow
  split
  · next h =>
    obtain ⟨_, hactive⟩ := of_decide_eq_true h
    refine Keeps.ofStatus rfl rfl rfl ?_ nofun ?_ ?_
    · intro _ hqueued
      rcases isActive_iff.mp hactive with h | h <;> rw [h] at hqueued <;> cases hqueued
    · intro hafter
      rcases isActive_iff.mp (isActiveAgent_iff.mp hafter).2 with h | h <;> cases h
    · intro key hkey
      apply get?_patched
      have hkeys : key ≠ "previousStatus" ∧ key ≠ "staleActiveRecoveredAt" := by
        revert key
        decide
      rw [get?_cons, if_neg hkeys.1, get?_cons, if_neg hkeys.2, get?_nil]
  · exact Keeps.refl row

theorem interruptRow_sequence :
    (interruptRow clock active row).sequence = row.sequence := by
  unfold interruptRow
  split <;> rfl

variable {batch : ClaimedTurnBatch}

theorem Justified.of_interrupted (hids : Distinct TurnRow.id turns)
    (hactive : active ∈ turns ∧ isActiveAgent active = true)
    (h : Justified byteLength (turns.map (interruptRow clock active)) batch) :
    Justified byteLength turns batch := by
  have hqueue : queuedFollowups (turns.map (interruptRow clock active)) = queuedFollowups turns := by
    unfold queuedFollowups
    rw [filter_map_of_fixed]
    intro row _
    rcases interruptRow_cases clock active row with ⟨hsame, _⟩ | ⟨⟨_, hrow⟩, hafter⟩
    · exact .inl hsame
    · refine Or.inr ⟨decide_eq_false ?_, decide_eq_false ?_⟩
      · rintro ⟨hqueued, _⟩
        have hstatus := (isQueuedAgent_iff.mp hqueued).2
        rcases isActive_iff.mp hrow with h | h <;> rw [h] at hstatus <;> cases hstatus
      · rintro ⟨hqueued, _⟩
        have hstatus := (isQueuedAgent_iff.mp hqueued).2
        rw [hafter] at hstatus
        cases hstatus
  obtain ⟨selected, hselected, hkind, hturns⟩ := h
  refine ⟨selected, hselected, ?_, ?_⟩
  · rcases hkind with hsteer | hfollowups
    · exact .inl hsteer
    · refine Or.inr ⟨?_, hfollowups.oneMode, hfollowups.limits⟩
      rw [← hqueue]
      exact hfollowups.isPrefix
  · intro turn hturn
    obtain ⟨hmem, hqueued, hbefore⟩ := hturns turn hturn
    refine ⟨?_, hqueued, ?_⟩
    · obtain ⟨row, hrow, rfl⟩ := mem_map.mp hmem
      rcases interruptRow_cases clock active row with ⟨hsame, _⟩ | ⟨_, hafter⟩
      · rw [hsame]
        exact hrow
      · have hstatus := (isQueuedAgent_iff.mp hqueued).2
        rw [hafter] at hstatus
        cases hstatus
    · intro generation hgeneration hblocking
      apply hbefore generation _ hblocking
      -- a direct generation is not the active Turn
      rcases interruptRow_cases clock active generation with
        ⟨hsame, _⟩ | ⟨⟨hid, _⟩, _⟩
      · exact mem_map.mpr ⟨generation, hgeneration, hsame⟩
      · have hagent := (isActiveAgent_iff.mp hactive.2).1
        have hdirect : generation.executionKind = .directGeneration :=
          (of_decide_eq_true hblocking).1
        rw [hids.eq_of_key hgeneration hactive.1 hid, hagent] at hdirect
        cases hdirect

theorem Takes.of_interrupted {g : TurnRow → TurnRow}
    (h : Takes (turns.map (interruptRow clock active)) g batch) :
    Takes turns (fun row => g (interruptRow clock active row)) batch := by
  have hmem : ∀ row ∈ turns, interruptRow clock active row ∈ turns.map (interruptRow clock active) :=
    fun row hrow => mem_map_of_mem hrow
  have hkeeps : ∀ row : TurnRow, Keeps row (interruptRow clock active row) := keeps_interruptRow
  constructor
  case split => exact h.split
  case record => exact h.record
  case nodup => exact h.nodup
  case present =>
    intro turn hturn
    obtain ⟨moved, hmoved, hqueued, hkey⟩ := h.present turn hturn
    obtain ⟨row, hrow, rfl⟩ := mem_map.mp hmoved
    obtain ⟨hagent, hstatus⟩ := isQueuedAgent_iff.mp hqueued
    refine ⟨row, hrow, isQueuedAgent_iff.mpr
      ⟨(hkeeps row).kind.symm.trans hagent, (hkeeps row).queued hstatus⟩, ?_⟩
    rw [← hkey]
    exact Prod.ext (hkeeps row).id.symm ((hkeeps row).claim.userMessageId (hkeeps row).id).symm
  case moves =>
    intro row hrow
    exact (hkeeps row).toMoves.trans (h.moves _ (hmem row hrow))
  case place =>
    intro row hrow
    exact (h.place _ (hmem row hrow)).trans (interruptRow_sequence row)
  case others =>
    intro row hrow hnot
    rw [← (hkeeps row).id] at hnot
    obtain ⟨hkept, hinactive⟩ := h.others _ (hmem row hrow) hnot
    refine ⟨?_, hinactive⟩
    rcases interruptRow_cases clock active row with ⟨hsame, _⟩ | ⟨⟨_, hrow⟩, _⟩
    · rw [hsame] at hkept ⊢
      exact hkept
    · refine (hkeeps row).trans hkept ?_
      intro hqueued
      rcases isActive_iff.mp hrow with h | h <;> rw [h] at hqueued <;> cases hqueued
  case messages =>
    intro row hrow
    exact (h.messages _ (hmem row hrow)).trans ((hkeeps row).claim.userMessageId (hkeeps row).id)
  case merged =>
    intro row hrow hin
    rw [← (hkeeps row).id] at hin
    exact h.merged _ (hmem row hrow) hin
  case owner =>
    intro row hrow hid
    rw [← (hkeeps row).id] at hid
    exact h.owner _ (hmem row hrow) hid

theorem claimNextTurnBatch_cases {staleActiveTurnMs : Int} {after : List TurnRow}
    {result : ClaimResult} (hids : Distinct TurnRow.id turns)
    (hsequences : Distinct TurnRow.sequence turns)
    (hone : ∀ a ∈ turns, ∀ b ∈ turns, isActiveAgent a = true → isActiveAgent b = true → a = b)
    (h : claimNextTurnBatch staleActiveTurnMs byteLength config clock turns = .ok (after, result)) :
    ((∀ batch, result ≠ .claimed batch) ∧ ∃ g, Quiet turns after g []) ∨
      ∃ batch g, result = .claimed batch ∧ after = turns.map g ∧ Takes turns g batch ∧
        Justified byteLength turns batch := by
  have hsame : Quiet turns turns (fun row => row) [] :=
    ⟨⟨by rw [map_id', append_nil], fun row _ => Moves.refl row, hids, hsequences,
      forall_mem_nil⟩, fun row _ => Keeps.refl row, forall_mem_nil⟩
  unfold claimNextTurnBatch at h
  split at h
  · next hnone =>
    rcases claimQueue_cases hids hsequences (activeTurn_none hnone) h with ⟨rfl, hresult⟩ | hclaimed
    · exact .inl ⟨hresult, _, hsame⟩
    · exact .inr hclaimed
  · next active hsome =>
    have hactive := activeTurn_some hsome
    split at h
    · -- the stale Turn was the only active one
      have hmarked : markStaleTurnInterrupted clock active turns =
          turns.map (interruptRow clock active) := rfl
      rw [hmarked] at h
      have hids' : Distinct TurnRow.id (turns.map (interruptRow clock active)) :=
        hids.map fun row _ => (keeps_interruptRow row).id
      have hsequences' : Distinct TurnRow.sequence (turns.map (interruptRow clock active)) :=
        hsequences.map fun row _ => interruptRow_sequence row
      have hinactive : ∀ row ∈ turns.map (interruptRow clock active), isActiveAgent row = false := by
        intro moved hmoved
        obtain ⟨row, hrow, rfl⟩ := mem_map.mp hmoved
        rw [← Bool.not_eq_true]
        intro hafter
        have hbefore := (keeps_interruptRow row).active hafter
        have heq := hone row hrow active hactive.1 hbefore hactive.2
        rcases interruptRow_cases clock active row with ⟨_, hnot⟩ | ⟨_, hstatus⟩
        · exact hnot ⟨heq ▸ rfl, (isActiveAgent_iff.mp hbefore).2⟩
        · rcases isActive_iff.mp (isActiveAgent_iff.mp hafter).2 with h | h <;>
            rw [hstatus] at h <;> cases h
      rcases claimQueue_cases hids' hsequences' hinactive h with ⟨rfl, hresult⟩ | ⟨batch, g, hresult, rfl, htakes, hjustified⟩
      · refine Or.inl ⟨hresult, interruptRow clock active, ⟨⟨(append_nil _).symm,
          fun row _ => (keeps_interruptRow row).toMoves, hids', hsequences', forall_mem_nil⟩,
          fun row _ => keeps_interruptRow row, forall_mem_nil⟩⟩
      · refine Or.inr ⟨batch, fun row => g (interruptRow clock active row), hresult, ?_,
          htakes.of_interrupted, hjustified.of_interrupted hids hactive⟩
        rw [map_map]
        rfl
    · injection h with h
      injection h with hafter hresult
      subst hafter
      refine Or.inl ⟨?_, _, hsame⟩
      intro batch heq
      rw [← hresult] at heq
      cases heq

end

end Cohub.Queue
