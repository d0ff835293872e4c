import Cohub.Queue.Taken

/-! # The queue is safe

    `Consistent` has, beside what is to be shown, that the Turns of every
    recorded batch are out of the queue and still carry what the claim wrote.
    A quiet operation keeps all of it, and a claim takes only queued Turns,
    which no batch had before. -/

namespace Cohub.Queue

open Table Relation List
open Cohub.Context (TurnStatus TurnIntent)

/-! ## Departures -/

section

variable {before after new : List TurnRow} {g : TurnRow → TurnRow} {row : TurnRow}

theorem Evolution.find (h : Evolution before after g new) (hrow : row ∈ before) :
    (after.find? fun other => other.id = row.id) = some (g row) := by
  have hmem : g row ∈ after := by
    rw [h.eq]
    exact mem_append_left _ (mem_map_of_mem hrow)
  have hid : (g row).id = row.id := (h.moves row hrow).id
  cases hfind : after.find? fun other => other.id = row.id with
  | none =>
    have hnone := find?_eq_none.mp hfind (g row) hmem
    exact absurd (decide_eq_true hid) hnone
  | some found =>
    have hfound : found.id = row.id := by
      have := find?_some hfind
      exact of_decide_eq_true this
    rw [h.ids.eq_of_key (mem_of_find?_eq_some hfind) hmem (hfound.trans hid.symm)]

def leaves (g : TurnRow → TurnRow) (row : TurnRow) : Bool :=
  isQueuedAgent row ∧ (g row).status ≠ .queued

theorem leaves_iff :
    leaves g row = true ↔ isQueuedAgent row = true ∧ (g row).status ≠ .queued :=
  decide_eq_true_iff

theorem Evolution.departed (h : Evolution before after g new) :
    departed before after = (before.filter (leaves g)).map fun row => (row.id, (g row).status) := by
  have hstep : ∀ row ∈ before, departure after row =
      if leaves g row then some (row.id, (g row).status) else none := by
    intro row hrow
    unfold departure
    rw [h.find hrow]
    by_cases hqueued : isQueuedAgent row = true
    · by_cases hstatus : (g row).status = .queued
      · have hnot : ¬ leaves g row = true := fun hl => (leaves_iff.mp hl).2 hstatus
        rw [if_pos hqueued, if_neg hnot]
        exact if_pos hstatus
      · rw [if_pos hqueued, if_pos (leaves_iff.mpr ⟨hqueued, hstatus⟩)]
        exact if_neg hstatus
    · have hnot : ¬ leaves g row = true := fun hl => hqueued (leaves_iff.mp hl).1
      rw [if_neg hqueued, if_neg hnot]
  unfold Queue.departed
  rw [filterMap_congr hstep]
  clear hstep h
  induction before with
  | nil => rfl
  | cons row rest ih =>
    by_cases hl : leaves g row = true
    · simp only [filterMap_cons, if_pos hl, filter_cons_of_pos hl, map_cons, ih]
    · simp only [filterMap_cons, if_neg hl, filter_cons_of_neg hl, ih]

theorem Evolution.mem_departed (h : Evolution before after g new) {departure : String × TurnStatus} :
    departure ∈ Queue.departed before after ↔
      ∃ row ∈ before, leaves g row = true ∧ departure = (row.id, (g row).status) := by
  rw [h.departed, mem_map]
  constructor
  · rintro ⟨row, hrow, rfl⟩
    exact ⟨row, (mem_filter.mp hrow).1, (mem_filter.mp hrow).2, rfl⟩
  · rintro ⟨row, hrow, hl, rfl⟩
    exact ⟨row, mem_filter.mpr ⟨hrow, hl⟩, rfl⟩

theorem Evolution.count_departed (h : Evolution before after g new)
    (hids : Distinct TurnRow.id before) (hrow : row ∈ before) :
    ((Queue.departed before after).map Prod.fst).count row.id = if leaves g row then 1 else 0 := by
  have hmap : (Queue.departed before after).map Prod.fst = (before.filter (leaves g)).map TurnRow.id := by
    rw [h.departed, List.map_map]
    rfl
  have hnodup : ((before.filter (leaves g)).map TurnRow.id).Nodup := (hids.filter _).nodup
  rw [hmap]
  split
  · next hl =>
    exact count_eq_one_of_mem hnodup (mem_map_of_mem (mem_filter.mpr ⟨hrow, hl⟩))
  · next hl =>
    rw [count_eq_zero]
    intro hmem
    obtain ⟨other, hother, hid⟩ := mem_map.mp hmem
    obtain ⟨hother, hleaves⟩ := mem_filter.mp hother
    exact hl (hids.eq_of_key hother hrow hid ▸ hleaves)

theorem Evolution.count_departed_new (h : Evolution before after g new)
    (hrow : ∀ other ∈ before, other.id ≠ row.id) :
    ((Queue.departed before after).map Prod.fst).count row.id = 0 := by
  rw [count_eq_zero]
  intro hmem
  obtain ⟨departure, hdeparture, hid⟩ := mem_map.mp hmem
  obtain ⟨other, hother, _, rfl⟩ := h.mem_departed.mp hdeparture
  exact hrow other hother hid

end

/-! ## The invariant -/

/-- A batch as its claim left it, and its Turns as they are now. -/
structure Recorded (turns : List TurnRow) (batch : ClaimedTurnBatch) : Prop where
  split  : batch.turns = batch.mergedTurns ++ [batch.ownerTurn]
  record : createExecutionBatch batch.turns = .ok batch.executionBatch
  nodup  : (batch.turns.map TurnRow.id).Nodup
  rows   : ∀ turn ∈ batch.turns, ∃ row ∈ turns,
    row.executionKind = .agent ∧ row.status ≠ .queued ∧ batchKey row = batchKey turn
  owner  : ∀ row ∈ turns, row.id = batch.ownerTurn.id →
    Fields.get? (asRecord row.metadata) "executionBatch" = some batch.executionBatch.toJson

section

variable {byteLength : Json → Nat} {w : World}

variable (byteLength) in
structure Consistent (w : World) : Prop where
  ids : Distinct TurnRow.id w.turns
  sequences : Distinct TurnRow.sequence w.turns
  active : ∀ a ∈ w.turns, ∀ b ∈ w.turns, isActiveAgent a = true → isActiveAgent b = true → a = b
  known : ∀ departure ∈ w.departures, ∃ row ∈ w.turns,
    row.id = departure.1 ∧ row.executionKind = .agent ∧ row.status ≠ .queued
  once : ∀ turn ∈ w.turns, turn.executionKind = .agent → turn.intent ≠ .compact →
    (w.departures.map Prod.fst).count turn.id = if turn.status = .queued then 0 else 1
  accounted : ∀ departure ∈ w.departures, w.Accounted departure
  recorded : ∀ claim ∈ w.claims, Recorded w.turns claim.2
  justified : ∀ claim ∈ w.claims, Justified byteLength claim.1 claim.2

theorem Consistent.empty : Consistent byteLength World.empty where
  ids := List.Pairwise.nil
  sequences := List.Pairwise.nil
  active := fun _ ha => absurd ha not_mem_nil
  known := fun _ h => absurd h not_mem_nil
  once := fun _ h => absurd h not_mem_nil
  accounted := fun _ h => absurd h not_mem_nil
  recorded := fun _ h => absurd h not_mem_nil
  justified := fun _ h => absurd h not_mem_nil

/-! ## What every operation keeps -/

variable {after new : List TurnRow} {g : TurnRow → TurnRow}
  {row : TurnRow} {batch : ClaimedTurnBatch}

theorem Evolution.mem_old (h : Evolution w.turns after g new) (hrow : row ∈ w.turns) :
    g row ∈ after := by
  rw [h.eq]
  exact mem_append_left _ (mem_map_of_mem hrow)

theorem Consistent.known_next (hw : Consistent byteLength w) (h : Evolution w.turns after g new) :
    ∀ departure ∈ (w.next after).departures, ∃ row ∈ after,
      row.id = departure.1 ∧ row.executionKind = .agent ∧ row.status ≠ .queued := by
  intro departure hdeparture
  rcases mem_append.mp hdeparture with hold | hdeparted
  · obtain ⟨row, hrow, hid, hagent, hstatus⟩ := hw.known departure hold
    have hmoves := h.moves row hrow
    exact ⟨g row, h.mem_old hrow, hmoves.id.trans hid, hmoves.kind.trans hagent,
      fun hqueued => hstatus (hmoves.queued hqueued)⟩
  · obtain ⟨row, hrow, hleaves, rfl⟩ := h.mem_departed.mp hdeparted
    obtain ⟨hqueued, hstatus⟩ := leaves_iff.mp hleaves
    have hmoves := h.moves row hrow
    exact ⟨g row, h.mem_old hrow, hmoves.id, hmoves.kind.trans (isQueuedAgent_iff.mp hqueued).1, hstatus⟩

theorem Evolution.new_id (h : Evolution w.turns after g new) (hrow : row ∈ new) :
    ∀ other ∈ w.turns, other.id ≠ row.id := by
  intro other hother hid
  have hids := h.ids
  rw [h.eq] at hids
  have hne := (pairwise_append.mp hids).2.2 (g other) (mem_map_of_mem hother) row hrow
  exact hne ((h.moves other hother).id.trans hid)

theorem Consistent.once_next (hw : Consistent byteLength w) (h : Evolution w.turns after g new) :
    ∀ turn ∈ after, turn.executionKind = .agent → turn.intent ≠ .compact →
      ((w.next after).departures.map Prod.fst).count turn.id =
        if turn.status = .queued then 0 else 1 := by
  intro turn hturn hagent hintent
  have hdepartures : (w.next after).departures = w.departures ++ departed w.turns after := rfl
  rw [hdepartures, map_append, count_append]
  rw [h.eq] at hturn
  rcases mem_append.mp hturn with hold | hnew
  · obtain ⟨row, hrow, rfl⟩ := mem_map.mp hold
    have hmoves := h.moves row hrow
    have hrowAgent := hmoves.kind.symm.trans hagent
    have hcount := hw.once row hrow hrowAgent fun hcompact => hintent (hmoves.compact.mpr hcompact)
    rw [hmoves.id, hcount, h.count_departed hw.ids hrow]
    by_cases hqueued : row.status = .queued
    · rw [if_pos hqueued]
      by_cases hstill : (g row).status = .queued
      · rw [if_pos hstill, if_neg fun hl => (leaves_iff.mp hl).2 hstill]
      · rw [if_neg hstill, if_pos (leaves_iff.mpr ⟨isQueuedAgent_iff.mpr ⟨hrowAgent, hqueued⟩, hstill⟩)]
    · -- it is not in the queue, and does not come back
      rw [if_neg hqueued, if_neg fun hl => hqueued (isQueuedAgent_iff.mp (leaves_iff.mp hl).1).2,
        if_neg fun hstill => hqueued (hmoves.queued hstill)]
  · have hother := h.new_id hnew
    have hnone : (w.departures.map Prod.fst).count turn.id = 0 := by
      rw [count_eq_zero]
      intro hmem
      obtain ⟨departure, hdeparture, hid⟩ := mem_map.mp hmem
      obtain ⟨row, hrow, hrowId, _⟩ := hw.known departure hdeparture
      exact hother row hrow (hrowId.trans hid)
    rw [hnone, h.count_departed_new hother, if_pos (h.fresh turn hnew hagent hintent)]

theorem Recorded.evolve (hbatch : Recorded w.turns batch) (h : Evolution w.turns after g new)
    (hclaim : ∀ row ∈ w.turns, row.id ∈ batch.turns.map TurnRow.id → SameClaim (g row) row) :
    Recorded after batch where
  split := hbatch.split
  record := hbatch.record
  nodup := hbatch.nodup
  rows := by
    intro turn hturn
    obtain ⟨row, hrow, hagent, hstatus, hkey⟩ := hbatch.rows turn hturn
    have hmoves := h.moves row hrow
    have hid : row.id = turn.id := congrArg Prod.fst hkey
    have hsame := hclaim row hrow (hid ▸ mem_map_of_mem hturn)
    refine ⟨g row, h.mem_old hrow, hmoves.kind.trans hagent,
      fun hqueued => hstatus (hmoves.queued hqueued), ?_⟩
    rw [← hkey]
    exact Prod.ext hmoves.id (hsame.userMessageId hmoves.id)
  owner := by
    intro turn hturn hid
    have howner : batch.ownerTurn ∈ batch.turns := by
      rw [hbatch.split]
      exact mem_append_right _ (mem_singleton_self _)
    rw [h.eq] at hturn
    rcases mem_append.mp hturn with hold | hnew
    · obtain ⟨row, hrow, rfl⟩ := mem_map.mp hold
      have hrowId := (h.moves row hrow).id.symm.trans hid
      have hsame := hclaim row hrow (hrowId ▸ mem_map_of_mem howner)
      rw [hsame "executionBatch" (by decide)]
      exact hbatch.owner row hrow hrowId
    · obtain ⟨row, hrow, _, _, hkey⟩ := hbatch.rows _ howner
      have hrowId : row.id = batch.ownerTurn.id := congrArg Prod.fst hkey
      exact absurd (hrowId.trans hid.symm) (h.new_id hnew row hrow)

theorem Recorded.not_queued (hids : Distinct TurnRow.id w.turns) (hbatch : Recorded w.turns batch)
    (hrow : row ∈ w.turns) (hin : row.id ∈ batch.turns.map TurnRow.id) : row.status ≠ .queued := by
  obtain ⟨turn, hturn, hid⟩ := mem_map.mp hin
  obtain ⟨other, hother, _, hstatus, hkey⟩ := hbatch.rows turn hturn
  have hsame : other = row := hids.eq_of_key hother hrow ((congrArg Prod.fst hkey).trans hid)
  exact hsame ▸ hstatus

theorem Consistent.batchesOf_queued (hw : Consistent byteLength w)
    (hrow : row ∈ w.turns) (hqueued : row.status = .queued) : w.batchesOf row.id = [] := by
  unfold World.batchesOf
  rw [filter_eq_nil_iff]
  intro batch hbatch hin
  obtain ⟨claim, hclaim, rfl⟩ := mem_map.mp hbatch
  exact (hw.recorded claim hclaim).not_queued hw.ids hrow (of_decide_eq_true hin) hqueued

/-! ## Quiet operations -/

theorem Consistent.quiet (hw : Consistent byteLength w) (h : Quiet w.turns after g new) :
    Consistent byteLength (w.next after) where
  ids := h.ids
  sequences := h.sequences
  active := by
    have hold : ∀ turn ∈ after, isActiveAgent turn = true →
        ∃ row ∈ w.turns, turn = g row ∧ isActiveAgent row = true := by
      intro turn hturn hactive
      rw [h.eq] at hturn
      rcases mem_append.mp hturn with hold | hnew
      · obtain ⟨row, hrow, rfl⟩ := mem_map.mp hold
        exact ⟨row, hrow, rfl, (h.keeps row hrow).active hactive⟩
      · rw [h.inactive turn hnew] at hactive
        cases hactive
    intro a ha b hb haActive hbActive
    obtain ⟨row, hrow, rfl, hrowActive⟩ := hold a ha haActive
    obtain ⟨other, hother, rfl, hotherActive⟩ := hold b hb hbActive
    rw [hw.active row hrow other hother hrowActive hotherActive]
  known := hw.known_next h.toEvolution
  once := hw.once_next h.toEvolution
  accounted := by
    intro departure hdeparture
    rcases mem_append.mp hdeparture with hold | hdeparted
    · exact hw.accounted departure hold
    · obtain ⟨row, hrow, hleaves, rfl⟩ := h.mem_departed.mp hdeparted
      obtain ⟨hqueued, hstatus⟩ := leaves_iff.mp hleaves
      obtain ⟨hagent, hrowStatus⟩ := isQueuedAgent_iff.mp hqueued
      refine Or.inr (.inr ⟨?_, hw.batchesOf_queued hrow hrowStatus⟩)
      exact ((h.keeps row hrow).left hagent hrowStatus).resolve_left hstatus
  recorded := fun claim hclaim => (hw.recorded claim hclaim).evolve h.toEvolution
    fun row hrow _ => (h.keeps row hrow).claim
  justified := hw.justified

/-! ## Claims -/

theorem Takes.evolution (hw : Consistent byteLength w)
    (h : Takes w.turns g batch) : Evolution w.turns (w.turns.map g) g [] where
  eq := (append_nil _).symm
  moves := h.moves
  ids := hw.ids.map fun row hrow => (h.moves row hrow).id
  sequences := hw.sequences.map h.place
  fresh := forall_mem_nil

theorem Takes.queued (hids : Distinct TurnRow.id w.turns)
    (h : Takes w.turns g batch) (hrow : row ∈ w.turns)
    (hin : row.id ∈ batch.turns.map TurnRow.id) : isQueuedAgent row = true := by
  obtain ⟨turn, hturn, hid⟩ := mem_map.mp hin
  obtain ⟨other, hother, hqueued, hkey⟩ := h.present turn hturn
  have hsame : other = row := hids.eq_of_key hother hrow ((congrArg Prod.fst hkey).trans hid)
  exact hsame ▸ hqueued

theorem Takes.mem_turns (h : Takes w.turns g batch) {id : String} :
    id ∈ batch.turns.map TurnRow.id ↔
      id ∈ batch.mergedTurns.map TurnRow.id ∨ id = batch.ownerTurn.id := by
  rw [h.split, map_append, mem_append, map_singleton, mem_singleton]

theorem Takes.recorded (h : Takes w.turns g batch) : Recorded (w.turns.map g) batch where
  split := h.split
  record := h.record
  nodup := h.nodup
  rows := by
    intro turn hturn
    obtain ⟨row, hrow, hqueued, hkey⟩ := h.present turn hturn
    have hid : row.id = turn.id := congrArg Prod.fst hkey
    have hmoves := h.moves row hrow
    refine ⟨g row, mem_map_of_mem hrow, hmoves.kind.trans (isQueuedAgent_iff.mp hqueued).1, ?_, ?_⟩
    · have hin : row.id ∈ batch.turns.map TurnRow.id := by
        rw [hid]
        exact mem_map_of_mem hturn
      rcases h.mem_turns.mp hin with hmerged | howner
      · rw [h.merged row hrow hmerged]
        nofun
      · rw [(h.owner row hrow howner).1]
        nofun
    · rw [← hkey]
      exact Prod.ext hmoves.id (h.messages row hrow)
  owner := by
    intro turn hturn hid
    obtain ⟨row, hrow, rfl⟩ := mem_map.mp hturn
    exact (h.owner row hrow ((h.moves row hrow).id.symm.trans hid)).2

theorem batchesOf_append (claims : List (List TurnRow × ClaimedTurnBatch)) (turns : List TurnRow)
    (departures : List (String × TurnStatus)) (seen : List TurnRow) (batch : ClaimedTurnBatch)
    (id : String) :
    World.batchesOf ⟨turns, claims ++ [(seen, batch)], departures⟩ id =
      World.batchesOf ⟨turns, claims, departures⟩ id ++
        if id ∈ batch.turns.map TurnRow.id then [batch] else [] := by
  unfold World.batchesOf
  rw [map_append, filter_append]
  congr 1
  by_cases hin : id ∈ batch.turns.map TurnRow.id
  · rw [if_pos hin]
    exact filter_cons_of_pos (decide_eq_true hin)
  · rw [if_neg hin]
    exact filter_cons_of_neg (by rw [decide_eq_false hin]; nofun)

theorem Consistent.claim (hw : Consistent byteLength w)
    (h : Takes w.turns g batch) (hjustified : Justified byteLength w.turns batch) :
    Consistent byteLength (w.afterClaim (w.turns.map g) (.claimed batch)) := by
  have hevolution := h.evolution hw
  have hbatches : ∀ id, (w.afterClaim (w.turns.map g) (.claimed batch)).batchesOf id =
      w.batchesOf id ++ if id ∈ batch.turns.map TurnRow.id then [batch] else [] :=
    fun id => batchesOf_append w.claims (w.turns.map g) _ w.turns batch id
  have howner : batch.ownerTurn.id ∈ batch.turns.map TurnRow.id := h.mem_turns.mpr (.inr rfl)
  constructor
  case ids => exact hevolution.ids
  case sequences => exact hevolution.sequences
  case active =>
    -- only the owner is active
    have honly : ∀ row ∈ w.turns, isActiveAgent (g row) = true → row.id = batch.ownerTurn.id := by
      intro row hrow hactive
      by_cases hin : row.id ∈ batch.turns.map TurnRow.id
      · rcases h.mem_turns.mp hin with hmerged | hid
        · rcases isActive_iff.mp (isActiveAgent_iff.mp hactive).2 with hs | hs <;>
            rw [h.merged row hrow hmerged] at hs <;> cases hs
        · exact hid
      · rw [(h.others row hrow hin).2] at hactive
        cases hactive
    intro a ha b hb haActive hbActive
    obtain ⟨row, hrow, rfl⟩ := mem_map.mp ha
    obtain ⟨other, hother, rfl⟩ := mem_map.mp hb
    have hid := (honly row hrow haActive).trans (honly other hother hbActive).symm
    rw [hw.ids.eq_of_key hrow hother hid]
  case known => exact hw.known_next hevolution
  case once => exact hw.once_next hevolution
  case accounted =>
    intro departure hdeparture
    rcases mem_append.mp hdeparture with hold | hdeparted
    · -- an earlier departure is of a Turn that is not queued, so not in this batch
      obtain ⟨row, hrow, hid, _, hstatus⟩ := hw.known departure hold
      have hnot : departure.1 ∉ batch.turns.map TurnRow.id := by
        rw [← hid]
        exact fun hin => hstatus (isQueuedAgent_iff.mp (h.queued hw.ids hrow hin)).2
      unfold World.Accounted
      rw [hbatches, if_neg hnot, append_nil]
      exact hw.accounted departure hold
    · obtain ⟨row, hrow, hleaves, rfl⟩ := hevolution.mem_departed.mp hdeparted
      obtain ⟨hqueued, hstatus⟩ := leaves_iff.mp hleaves
      obtain ⟨hagent, hrowStatus⟩ := isQueuedAgent_iff.mp hqueued
      have hnone := hw.batchesOf_queued hrow hrowStatus
      unfold World.Accounted
      rw [hbatches, hnone, nil_append]
      by_cases hin : row.id ∈ batch.turns.map TurnRow.id
      · rw [if_pos hin]
        rcases h.mem_turns.mp hin with hmerged | hid
        · exact .inr (.inl ⟨h.merged row hrow hmerged, batch, rfl, hmerged⟩)
        · exact .inl ⟨(h.owner row hrow hid).1, batch, rfl, hid.symm⟩
      · rw [if_neg hin]
        exact .inr (.inr
          ⟨((h.others row hrow hin).1.left hagent hrowStatus).resolve_left hstatus, rfl⟩)
  case recorded =>
    intro claim hclaim
    rcases mem_append.mp hclaim with hold | hnew
    · refine (hw.recorded claim hold).evolve hevolution ?_
      intro row hrow hin
      have hnot : row.id ∉ batch.turns.map TurnRow.id := fun hbatch =>
        (hw.recorded claim hold).not_queued hw.ids hrow hin
          (isQueuedAgent_iff.mp (h.queued hw.ids hrow hbatch)).2
      exact (h.others row hrow hnot).1.claim
    · rw [mem_singleton.mp hnew]
      exact h.recorded
  case justified =>
    intro claim hclaim
    rcases mem_append.mp hclaim with hold | hnew
    · exact hw.justified claim hold
    · rw [mem_singleton.mp hnew]
      exact hjustified

/-! ## Runs -/

variable {staleActiveTurnMs : Int}

theorem Consistent.step {w' : World} (hw : Consistent byteLength w)
    (hstep : Step staleActiveTurnMs byteLength w w') : Consistent byteLength w' := by
  rcases Step.cases hw.ids hw.sequences hstep with
    ⟨config, clock, turns, result, hclaim, rfl⟩ | ⟨turns, g, new, hquiet, rfl⟩
  · rcases claimNextTurnBatch_cases hw.ids hw.sequences hw.active hclaim with
      ⟨hresult, g, hquiet⟩ | ⟨batch, g, rfl, rfl, htakes, hjustified⟩
    · cases result with
      | claimed batch => exact absurd rfl (hresult batch)
      | busy => exact hw.quiet hquiet
      | noop => exact hw.quiet hquiet
    · exact hw.claim htakes hjustified
  · exact hw.quiet hquiet

variable {w' : World}

theorem Consistent.run (hw : Consistent byteLength w)
    (hrun : ReflTransGen (Step staleActiveTurnMs byteLength) w w') : Consistent byteLength w' := by
  induction hrun with
  | refl => exact hw
  | tail _ hstep ih => exact ih.step hstep

theorem Consistent.safe (hw : Consistent byteLength w) : w.Safe byteLength where
  oneActive := by
    match hlist : w.turns.filter isActiveAgent with
    | [] => exact Nat.zero_le _
    | [_] => exact le_refl _
    | first :: second :: rest =>
      have hmem : ∀ row ∈ w.turns.filter isActiveAgent, row ∈ w.turns ∧ isActiveAgent row = true :=
        fun row hrow => mem_filter.mp hrow
      rw [hlist] at hmem
      obtain ⟨hfirst, hfirstActive⟩ := hmem first mem_cons_self
      obtain ⟨hsecond, hsecondActive⟩ := hmem second (mem_cons_of_mem _ mem_cons_self)
      have hids := hw.ids.filter isActiveAgent
      rw [hlist] at hids
      have hne := (pairwise_cons.mp hids).1 second mem_cons_self
      exact absurd (hw.active first hfirst second hsecond hfirstActive hsecondActive ▸ rfl) hne
  leavesOnce := hw.once
  accounted := hw.accounted
  justified := hw.justified

theorem mem_claims_of_run (hrun : ReflTransGen (Step staleActiveTurnMs byteLength) w w')
    {claim : List TurnRow × ClaimedTurnBatch} (hclaim : claim ∈ w.claims) : claim ∈ w'.claims := by
  induction hrun with
  | refl => exact hclaim
  | tail _ hstep ih =>
    cases hstep with
    | claim config clock turns result _ =>
      cases result with
      | claimed batch => exact mem_append_left _ ih
      | busy => exact ih
      | noop => exact ih
    | _ => exact ih

/-! ## The replay -/

theorem stringItems_strings (values : List String) :
    stringItems (values.map Json.str) = some values := by
  induction values with
  | nil => rfl
  | cons value rest ih =>
    rw [map_cons]
    unfold stringItems
    rw [ih]
    rfl

variable {turns : List TurnRow}

theorem Recorded.executionBatch (h : Recorded turns batch) :
    batch.executionBatch = recordOf (batch.turns.map batchKey) batch.ownerTurn.id := by
  have hrecord := h.record
  rw [h.split, createExecutionBatch_concat] at hrecord
  injection hrecord with hrecord
  rw [h.split]
  exact hrecord.symm

theorem Recorded.turnIds (h : Recorded turns batch) :
    batch.executionBatch.turnIds = batch.turns.map TurnRow.id := by
  rw [h.executionBatch]
  show (batch.turns.map batchKey).map Prod.fst = _
  rw [List.map_map]
  rfl

variable {owner : TurnRow}

theorem Recorded.replayedTurns {loaded : List TurnRow}
    (hids : Distinct TurnRow.id turns) (h : Recorded turns batch)
    (hownerKey : batchKey owner = batchKey batch.ownerTurn)
    (howner : Fields.get? (asRecord owner.metadata) "executionBatch" =
      some batch.executionBatch.toJson)
    (hload : Queue.replayedTurns turns owner = .ok loaded) :
    ∃ front, loaded = front ++ [owner] ∧ loaded.map batchKey = batch.turns.map batchKey := by
  have hturnIds := h.turnIds
  have hownerId : owner.id = batch.ownerTurn.id := congrArg Prod.fst hownerKey
  have hsplitIds : batch.turns.map TurnRow.id =
      batch.mergedTurns.map TurnRow.id ++ [batch.ownerTurn.id] := by
    rw [h.split, map_append, map_singleton]
  unfold Queue.replayedTurns at hload
  rw [howner] at hload
  have hget : Fields.get? (asRecord (some batch.executionBatch.toJson)) "turnIds" =
      some (strings batch.executionBatch.turnIds) := rfl
  dsimp only at hload
  rw [hget] at hload
  dsimp only at hload
  split at hload
  · cases hload
  · next ids hidsOf =>
    -- the recorded ids are the batch's
    have hidsEq : ids = batch.turns.map TurnRow.id := by
      unfold recordedIds strings at hidsOf
      dsimp only at hidsOf
      rw [stringItems_strings] at hidsOf
      dsimp only at hidsOf
      split at hidsOf
      · cases hidsOf
      · injection hidsOf with hidsOf
        rw [← hidsOf, hturnIds]
    subst hidsEq
    unfold recordedTurns at hload
    split at hload
    · dsimp only at hload
      split at hload
      · cases hload
      · next hvalid =>
        rw [not_or, not_not] at hvalid
        injection hload with hload
        refine ⟨_, hload.symm, ?_⟩
        have hrows := hvalid.1
        have hmerged : (batchRows turns (batch.turns.map TurnRow.id)).dropLast.map TurnRow.id =
            batch.mergedTurns.map TurnRow.id := by
          rw [map_dropLast, hrows, hsplitIds, dropLast_concat]
        have hkeys : (batchRows turns (batch.turns.map TurnRow.id)).dropLast.map batchKey =
            batch.mergedTurns.map batchKey := by
          -- each row is the one with its id, which still has its message
          refine map_eq_of_map_eq hmerged fun found hfound turn hturn hid => ?_
          have hmem : turn ∈ batch.turns := by
            rw [h.split]
            exact mem_append_left _ hturn
          obtain ⟨row, hrow, _, _, hkey⟩ := h.rows _ hmem
          have hstored : found ∈ turns := by
            have hrows := (dropLast_subset _) hfound
            unfold batchRows at hrows
            rw [mem_orderBy] at hrows
            exact (mem_filter.mp hrows).1
          have hrowId : row.id = turn.id := congrArg Prod.fst hkey
          rw [← hkey, hids.eq_of_key hrow hstored (hrowId.trans hid.symm)]
        rw [← hload, map_append, hkeys, h.split, map_append, map_singleton,
          map_singleton, hownerKey]
    · next hone =>
      injection hload with hload
      have hnil : batch.mergedTurns = [] := by
        rw [hsplitIds, length_append, length_singleton, length_map] at hone
        exact length_eq_zero_iff.mp (by omega)
      refine ⟨[], hload.symm, ?_⟩
      rw [← hload, h.split, hnil]
      show [batchKey owner] = [batchKey batch.ownerTurn]
      rw [hownerKey]

theorem Recorded.load {loaded : ClaimedTurnBatch}
    (hids : Distinct TurnRow.id turns) (h : Recorded turns batch)
    (hownerKey : batchKey owner = batchKey batch.ownerTurn)
    (howner : Fields.get? (asRecord owner.metadata) "executionBatch" =
      some batch.executionBatch.toJson)
    (hload : loadClaimedTurnBatch turns owner = .ok loaded) : SameBatch loaded batch := by
  have hownerId : owner.id = batch.ownerTurn.id := congrArg Prod.fst hownerKey
  unfold loadClaimedTurnBatch at hload
  split at hload
  · cases hload
  · next batchTurns hturns =>
    obtain ⟨front, hsplit, hkeys⟩ := h.replayedTurns hids hownerKey howner hturns
    subst hsplit
    rw [createExecutionBatch_concat, hkeys] at hload
    injection hload with hload
    have hmapIds : (front ++ [owner]).map TurnRow.id = batch.turns.map TurnRow.id := by
      have := congrArg (List.map Prod.fst) hkeys
      rwa [List.map_map, List.map_map] at this
    subst hload
    refine ⟨hownerId, hmapIds, ?_, ?_⟩
    · show (front ++ [owner]).dropLast.map TurnRow.id = _
      rw [map_dropLast, hmapIds, h.split, map_append, map_singleton,
        dropLast_concat]
    · show recordOf _ owner.id = _
      rw [h.executionBatch, hownerId]

/-- In every run, and for an owner read at any time after its claim. -/
theorem queue_safe {w' : World} (hrun : ReflTransGen (Step staleActiveTurnMs byteLength) .empty w)
    (hlater : ReflTransGen (Step staleActiveTurnMs byteLength) w w') :
    w.Safe byteLength ∧ ∀ claim ∈ w.claims, ∀ owner ∈ w.turns, owner.id = claim.2.ownerTurn.id →
      ∀ loaded, loadClaimedTurnBatch w'.turns owner = .ok loaded → SameBatch loaded claim.2 := by
  have hw := Consistent.empty.run hrun
  have hw' := hw.run hlater
  refine ⟨hw.safe, ?_⟩
  intro claim hclaim owner howner hid loaded hload
  have hrecorded := hw.recorded claim hclaim
  have hmem : claim.2.ownerTurn ∈ claim.2.turns := by
    rw [hrecorded.split]
    exact List.mem_append_right _ (List.mem_singleton_self _)
  obtain ⟨row, hrow, _, _, hkey⟩ := hrecorded.rows _ hmem
  have hrowId : row.id = claim.2.ownerTurn.id := congrArg Prod.fst hkey
  have hkey' : batchKey owner = batchKey claim.2.ownerTurn := by
    rw [← hkey, hw.ids.eq_of_key hrow howner (hrowId.trans hid.symm)]
  exact (hw'.recorded claim (mem_claims_of_run hlater hclaim)).load hw'.ids hkey'
    (hrecorded.owner owner howner hid) hload

end

/-! ## Two prompts -/

def promptRow (id : String) (sequence : Int) : TurnRow where
  id := id
  userUuid := some "user"
  sequence := sequence
  executionKind := .agent
  status := .queued
  intent := .followup
  userContent := .arr []
  metadata := some (.obj [("userMessageId", .str "message")])
  updatedAt := some sequence

def sampleConfig : QueueConfig where
  homeOf := fun _ => none
  readMessageQueueConfig := fun _ => .ok none

def sampleClock : Clock where
  dateNow := 10
  toISOString := "1970-01-01T00:00:00.010Z"
  now := 10

def promptedWorld : World :=
  let first := World.empty.next [promptRow "first" 1]
  first.next (first.turns ++ [promptRow "second" 2])

def sampleRecord : ExecutionBatch where
  ownerTurnId := "second"
  turnIds := ["first", "second"]
  mergedTurnIds := ["first"]
  userMessageIds := ["message", "message"]
  anchorUserMessageId := some "message"

def sampleOwner : TurnRow :=
  startOwner sampleClock (ownerMetadata sampleClock (promptRow "second" 2) sampleRecord)
    (promptRow "second" 2)

def sampleBatch : ClaimedTurnBatch where
  ownerTurn := sampleOwner
  turns := [promptRow "first" 1, sampleOwner]
  mergedTurns := [promptRow "first" 1]
  executionBatch := sampleRecord

def claimedWorld : World :=
  promptedWorld.afterClaim [mergeTurn sampleClock "second" (promptRow "first" 1), sampleOwner]
    (.claimed sampleBatch)

section

variable {staleActiveTurnMs : Int}

theorem promptedWorld_reached :
    ReflTransGen (Step staleActiveTurnMs fun _ => 2) .empty promptedWorld := by
  have hfirst : Step staleActiveTurnMs (fun _ => 2) .empty (World.empty.next [promptRow "first" 1]) :=
    Step.queuePrompt _ (promptRow "first" 1) rfl rfl (by decide)
      forall_mem_nil forall_mem_nil
  have hsecond : Step staleActiveTurnMs (fun _ => 2) (World.empty.next [promptRow "first" 1])
      promptedWorld := by
    refine Step.queuePrompt _ (promptRow "second" 2) rfl rfl (by decide) ?_ ?_
    · intro turn hturn
      rw [mem_singleton.mp hturn]
      decide
    · intro turn hturn
      rw [mem_singleton.mp hturn]
      decide
  exact (ReflTransGen.single hfirst).tail hsecond

theorem claimedWorld_reached :
    ReflTransGen (Step staleActiveTurnMs fun _ => 2) .empty claimedWorld :=
  promptedWorld_reached.tail (Step.claim _ sampleConfig sampleClock _ _ rfl)

end

/-- Both are claimed in one batch, and found again. -/
theorem queue_safe_claimed : claimedWorld.Safe (fun _ => 2) ∧
    ∀ loaded, loadClaimedTurnBatch claimedWorld.turns sampleOwner = .ok loaded →
      SameBatch loaded sampleBatch := by
  have hrun : ReflTransGen (Step 1800000 fun _ => 2) .empty claimedWorld := claimedWorld_reached
  have hsafe := queue_safe hrun .refl
  exact ⟨hsafe.1, hsafe.2 (promptedWorld.turns, sampleBatch) (List.mem_singleton_self _) sampleOwner
    (List.mem_cons_of_mem _ List.mem_cons_self) rfl⟩

/-- A prompt that cannot be enqueued leaves the queue without a batch. -/
theorem failed_prompt_leaves : ¬ ∀ w, ReflTransGen (Step 1800000 fun _ => 2) .empty w →
    ∀ departure ∈ w.departures, departure.2 = .running ∨ departure.2 = .merged := by
  intro h
  have hfailed : Step 1800000 (fun _ => 2) promptedWorld
      (promptedWorld.next (failSessionTurn "second" 10 promptedWorld.turns)) :=
    Step.fail _ "second" 10
  have hleft := h _ (promptedWorld_reached.tail hfailed) ("second", .failed) (by decide)
  revert hleft
  decide

end Cohub.Queue
