import Cohub.Lib.Mealy
import Cohub.Stream.PatchDelta
import Cohub.Stream.PatchReducer

/-! # Bare appends

    An append at the path of the append before it is sent as a bare value.
    The producer keeps the path of the last append for each message
    (`appendPatchCursors`), the client one path for the session (`appendPath`).
    This file is about the two agreeing, over runs of the whole system: events
    of any messages, snapshots that are cached behind the publication and
    joined at any time, and a client that is handed patches in any order, with
    losses and repetitions.

    The client does not know which message its state belongs to.  A patch of
    another message that happens to continue its sequence number is applied
    with the wrong path (`bare_append_to_other_message`); as long as that does
    not happen, every bare value is read at the path the producer meant
    (`append_cursor_agreement`). -/

namespace Cohub.Stream

open Cohub.Realtime List Option OrderedMap

/-! ## Reading bare values -/

/-- The operations as the client reads them: each bare value as an append at
    the current path.  `none` if there is no current path. -/
def readAppends : Option String → List RealtimePatchOperation →
    Option (List RealtimePatchOperation)
  | _, [] => some []
  | path, .value v :: rest =>
      path.bind fun p => (readAppends path rest).map fun read => .append p v :: read
  | _, .append p v :: rest => (readAppends (some p) rest).map fun read => .append p v :: read
  | path, op :: rest => (readAppends path rest).map fun read => op :: read

/-- The current path after the operations. -/
def appendPathAfter : Option String → List RealtimePatchOperation → Option String
  | path, [] => path
  | _, .append p _ :: rest => appendPathAfter (some p) rest
  | path, _ :: rest => appendPathAfter path rest

section

-- The equations are derived here, once for all the proofs below.
attribute [local simp] readAppends appendPathAfter applyPatchOp

end

/-- The operation is neither an append nor a bare value. -/
def IsOther : RealtimePatchOperation → Prop
  | .append _ _ => False
  | .value _ => False
  | _ => True

/-- The operation says where it applies. -/
def NamesPath : RealtimePatchOperation → Prop
  | .value _ => False
  | _ => True

theorem operation_cases (op : RealtimePatchOperation) :
    (∃ v, op = .value v) ∨ (∃ p v, op = .append p v) ∨ IsOther op := by
  cases op <;> simp [IsOther]

variable {op : RealtimePatchOperation} {s s' : PatchBlocks} {ops : List RealtimePatchOperation}
    {path : Option String}

theorem readAppends_other (h : IsOther op) (path : Option String)
    (rest : List RealtimePatchOperation) :
    readAppends path (op :: rest) = (readAppends path rest).map fun read => op :: read := by
  cases op with
  | append p v => exact h.elim
  | value v => exact h.elim
  | _ => rw [readAppends] <;> exact nofun

theorem appendPathAfter_other (h : IsOther op) (path : Option String)
    (rest : List RealtimePatchOperation) :
    appendPathAfter path (op :: rest) = appendPathAfter path rest := by
  cases op with
  | append p v => exact h.elim
  | value v => exact h.elim
  | _ => rw [appendPathAfter]; exact nofun

theorem appendPath_applyPatchOp_other (h : IsOther op)
    (hop : applyPatchOp s op = some s') : s'.appendPath = s.appendPath := by
  cases op with
  | append p v => exact h.elim
  | value v => exact h.elim
  | replace p v =>
    simp only [applyPatchOp] at hop
    split at hop
    · obtain ⟨_, -, rfl⟩ := map_eq_some_iff.mp hop
      rfl
    · rw [← Option.some.inj hop]
  | merge p v =>
    simp only [applyPatchOp] at hop
    split at hop <;> rw [← Option.some.inj hop]
  | add p v => rw [← Option.some.inj hop]
  | remove p => rw [← Option.some.inj hop]

variable {p : String} {read : List RealtimePatchOperation} {start ended : Option String}
    {cursor : Option AppendPatchCursor}

theorem applyPatchOp_value (h : s.appendPath = some p) (v : Json) :
    applyPatchOp s (.value v) = applyPatchOp s (.append p v) := by
  obtain ⟨next, anchor, path⟩ := s
  subst h
  simp only [applyPatchOp, bind_some]

theorem appendPath_applyPatchOp_append {v : Json}
    (hop : applyPatchOp s (.append p v) = some s') : s'.appendPath = some p := by
  simp only [applyPatchOp, map_eq_some_iff] at hop
  obtain ⟨_, -, rfl⟩ := hop
  rfl

theorem appendPath_foldlM (h : ops.foldlM applyPatchOp s = some s') :
    s'.appendPath = appendPathAfter s.appendPath ops := by
  induction ops generalizing s with
  | nil =>
    simp only [foldlM_nil, Option.pure_def, Option.some.injEq] at h
    rw [← h]
    rfl
  | cons op rest ih =>
    rw [foldlM_cons, bind_eq_bind, bind_eq_some_iff] at h
    obtain ⟨next, hop, hrest⟩ := h
    rw [ih hrest]
    rcases operation_cases op with ⟨v, rfl⟩ | ⟨p, v, rfl⟩ | hother
    · cases hcur : s.appendPath with
      | none => simp [applyPatchOp, hcur] at hop
      | some p =>
        rw [applyPatchOp_value hcur] at hop
        rw [appendPath_applyPatchOp_append hop]
        rfl
    · rw [appendPath_applyPatchOp_append hop]
      rfl
    · rw [appendPath_applyPatchOp_other hother hop, appendPathAfter_other hother]

theorem foldlM_of_readAppends (h : readAppends s.appendPath ops = some read) :
    ops.foldlM applyPatchOp s = read.foldlM applyPatchOp s := by
  induction ops generalizing s read with
  | nil =>
    rw [readAppends, Option.some.injEq] at h
    rw [h]
  | cons op rest ih =>
    -- both go on from the same state, or fail together
    have hnext : ∀ op' read' path, applyPatchOp s op' = applyPatchOp s op →
        (∀ s', applyPatchOp s op = some s' → s'.appendPath = path) →
        readAppends path rest = some read' →
        (op :: rest).foldlM applyPatchOp s = (op' :: read').foldlM applyPatchOp s := by
      intro op' read' path hsame hpath hread
      rw [foldlM_cons, foldlM_cons, hsame]
      cases hop : applyPatchOp s op with
      | none => rfl
      | some s' => exact ih (by rw [hpath s' hop]; exact hread)
    rcases operation_cases op with ⟨v, rfl⟩ | ⟨p, v, rfl⟩ | hother
    · rw [readAppends, bind_eq_some_iff] at h
      obtain ⟨p, hcur, h⟩ := h
      obtain ⟨read', hread, rfl⟩ := map_eq_some_iff.mp h
      refine hnext _ _ (some p) (applyPatchOp_value hcur v).symm ?_ (hcur ▸ hread)
      intro s' hop
      rw [applyPatchOp_value hcur] at hop
      exact appendPath_applyPatchOp_append hop
    · rw [readAppends] at h
      obtain ⟨read', hread, rfl⟩ := map_eq_some_iff.mp h
      exact hnext _ _ (some p) rfl (fun s' hop => appendPath_applyPatchOp_append hop) hread
    · rw [readAppends_other hother] at h
      obtain ⟨read', hread, rfl⟩ := map_eq_some_iff.mp h
      exact hnext _ _ s.appendPath rfl (fun s' hop => appendPath_applyPatchOp_other hother hop) hread

theorem readAppends_of_foldlM
    (h : ops.foldlM applyPatchOp s = some s') : ∃ read, readAppends s.appendPath ops = some read := by
  induction ops generalizing s with
  | nil => exact ⟨[], rfl⟩
  | cons op rest ih =>
    rw [foldlM_cons, bind_eq_bind, bind_eq_some_iff] at h
    obtain ⟨next, hop, hrest⟩ := h
    obtain ⟨read, hread⟩ := ih hrest
    rcases operation_cases op with ⟨v, rfl⟩ | ⟨p, v, rfl⟩ | hother
    · -- a bare value is only applied where there is a current path
      cases hcur : s.appendPath with
      | none => simp [applyPatchOp, hcur] at hop
      | some p =>
        rw [applyPatchOp_value hcur] at hop
        rw [appendPath_applyPatchOp_append hop] at hread
        rw [readAppends, bind_some, hread]
        exact ⟨_, rfl⟩
    · rw [appendPath_applyPatchOp_append hop] at hread
      rw [readAppends, hread]
      exact ⟨_, rfl⟩
    · rw [appendPath_applyPatchOp_other hother hop] at hread
      rw [readAppends_other hother, hread]
      exact ⟨_, rfl⟩

/-! ## One patch -/

/-- The producer's path and the client's are no different paths. -/
def Agree (cursor path : Option String) : Prop := cursor = none ∨ path = none ∨ path = cursor

theorem Agree.none_right (cursor : Option String) : Agree cursor none := Or.inr (.inl rfl)

theorem Agree.refl (path : Option String) : Agree path path := Or.inr (.inr rfl)

/-- The path a patch starts from is the one before it, unless it was dropped. -/
def Follows (start ended : Option String) : Prop := start = none ∨ start = ended

theorem Follows.agree (h : Follows start ended) (hagree : Agree ended path) : Agree start path := by
  rcases h with hnone | heq
  · exact .inl hnone
  · rw [heq]
    exact hagree

theorem Follows.of_none_or (h : Follows path ended)
    (hstart : start = none ∨ start = path) : Follows start ended := by
  rcases hstart with hnone | heq
  · exact .inl hnone
  · rw [heq]
    exact h

def cursorPath (cursor : Option AppendPatchCursor) : Option String := cursor.map (·.p)

variable (now : Int)

theorem compactLoop_append (cursor : Option AppendPatchCursor) (p : String) (v : Json)
    (rest : List RealtimePatchOperation) :
    compactLoop now cursor (.append p v :: rest) =
      ((if cursorPath cursor = some p then .value v else .append p v) ::
          (compactLoop now (some { p := p, lastSeenAt := now }) rest).1,
        (compactLoop now (some { p := p, lastSeenAt := now }) rest).2) := rfl

theorem compactLoop_other (h : IsOther op) (now : Int)
    (cursor : Option AppendPatchCursor) (rest : List RealtimePatchOperation) :
    compactLoop now cursor (op :: rest) =
      (op :: (compactLoop now cursor rest).1, (compactLoop now cursor rest).2) := by
  cases op with
  | append p v => exact h.elim
  | value v => exact h.elim
  | _ => rw [compactLoop]; exact nofun

theorem readAppends_compactLoop (hops : ∀ op ∈ ops, NamesPath op)
    (hagree : Agree (cursorPath cursor) path)
    (hread : readAppends path (compactLoop now cursor ops).1 = some read) :
    read = ops ∧ Agree (cursorPath (compactLoop now cursor ops).2)
      (appendPathAfter path (compactLoop now cursor ops).1) := by
  induction ops generalizing cursor path read with
  | nil =>
    simp only [compactLoop, readAppends, Option.some.injEq] at hread
    exact ⟨hread.symm, hagree⟩
  | cons op rest ih =>
    have hrest : ∀ op ∈ rest, NamesPath op := fun op hop => hops op (mem_cons_of_mem _ hop)
    rcases operation_cases op with ⟨v, rfl⟩ | ⟨p, v, rfl⟩ | hother
    · exact (hops _ mem_cons_self).elim
    · have hnext : Agree (cursorPath (some { p := p, lastSeenAt := now })) (some p) := Agree.refl _
      by_cases hcur : cursorPath cursor = some p
      · -- the value is bare: the client must have the path to read it
        rw [compactLoop_append, if_pos hcur] at hread ⊢
        rw [readAppends, bind_eq_some_iff] at hread
        obtain ⟨q, rfl, hread⟩ := hread
        have hq : q = p := by
          rcases hagree with hnone | hnone | heq
          · rw [hcur] at hnone
            cases hnone
          · cases hnone
          · rw [hcur] at heq
            exact Option.some.inj heq
        subst hq
        obtain ⟨read', hread', rfl⟩ := map_eq_some_iff.mp hread
        obtain ⟨hlist, hend⟩ := ih hrest hnext hread'
        exact ⟨by rw [hlist], hend⟩
      · rw [compactLoop_append, if_neg hcur] at hread ⊢
        rw [readAppends] at hread
        obtain ⟨read', hread', rfl⟩ := map_eq_some_iff.mp hread
        obtain ⟨hlist, hend⟩ := ih hrest hnext hread'
        exact ⟨by rw [hlist], hend⟩
    · rw [compactLoop_other hother] at hread ⊢
      rw [readAppends_other hother] at hread
      rw [appendPathAfter_other hother]
      obtain ⟨read', hread', rfl⟩ := map_eq_some_iff.mp hread
      obtain ⟨hlist, hend⟩ := ih hrest hagree hread'
      exact ⟨by rw [hlist], hend⟩

theorem readAppends_of_follows (hops : ∀ op ∈ ops, NamesPath op)
    (hfollows : Follows (cursorPath cursor) path) :
    readAppends path (compactLoop now cursor ops).1 = some ops ∧
      Follows (cursorPath (compactLoop now cursor ops).2)
        (appendPathAfter path (compactLoop now cursor ops).1) := by
  induction ops generalizing cursor path with
  | nil => exact ⟨rfl, hfollows⟩
  | cons op rest ih =>
    have hrest : ∀ op ∈ rest, NamesPath op := fun op hop => hops op (mem_cons_of_mem _ hop)
    rcases operation_cases op with ⟨v, rfl⟩ | ⟨p, v, rfl⟩ | hother
    · exact (hops _ mem_cons_self).elim
    · have hnext : Follows (cursorPath (some { p := p, lastSeenAt := now })) (some p) := Or.inr rfl
      obtain ⟨hread, hend⟩ := ih hrest hnext
      by_cases hcur : cursorPath cursor = some p
      · have hpath : path = some p := by
          rcases hfollows with hnone | heq
          · rw [hcur] at hnone
            cases hnone
          · rw [← heq, hcur]
        rw [compactLoop_append, if_pos hcur, readAppends, hpath, bind_some, hread]
        exact ⟨rfl, hend⟩
      · rw [compactLoop_append, if_neg hcur, readAppends, hread]
        exact ⟨rfl, hend⟩
    · obtain ⟨hread, hend⟩ := ih hrest hfollows
      rw [compactLoop_other hother, readAppends_other hother, appendPathAfter_other hother, hread]
      exact ⟨rfl, hend⟩

/-! ## What a patch starts from -/

theorem namesPath_renderEdit (base : String) (e : List String × Edit) :
    NamesPath (renderEdit base e) := by
  unfold renderEdit
  split <;> trivial

variable (event : SessionStreamEvent)

theorem namesPath_blockOps (s : PatchDelta) (block : ContentBlock)
    (index : Nat) : ∀ op ∈ blockOps event s block index, NamesPath op := by
  intro op hop
  unfold blockOps at hop
  simp only at hop
  split at hop
  · next diffResult hdiff =>
    unfold diffContentBlocksToOps at hdiff
    obtain ⟨edits, -, rfl⟩ := map_eq_some_iff.mp hdiff
    obtain ⟨e, -, rfl⟩ := List.mem_map.mp hop
    exact namesPath_renderEdit _ e
  · rw [mem_singleton.mp hop]
    trivial

theorem namesPath_contentOps (now : Int) (blocks : List (ContentBlock × Nat)) (s : PatchDelta) :
    ∀ op ∈ (contentOps event now s blocks).1, NamesPath op := by
  induction blocks generalizing s with
  | nil => intro op hop; cases hop
  | cons e rest ih =>
    intro op hop
    rcases mem_append.mp hop with hop | hop
    · exact namesPath_blockOps event s e.1 e.2 op hop
    · exact ih _ op hop

theorem namesPath_patchOps (now : Int) (s : PatchDelta) :
    ∀ op ∈ (patchOps event now s).1, NamesPath op := by
  intro op hop
  rcases mem_append.mp hop with hop | hop
  · rcases mem_append.mp hop with hop | hop
    · unfold keyframePart at hop
      split at hop
      · unfold keyframeOps at hop
        simp only [mem_cons, not_mem_nil, or_false] at hop
        rcases hop with rfl | rfl | rfl <;> trivial
      · cases hop
    · unfold replacePart at hop
      split at hop
      · obtain ⟨index, -, rfl⟩ := List.mem_map.mp hop
        trivial
      · cases hop
  · exact namesPath_contentOps event now _ _ op hop

theorem appendPatchCursors_contentOps (now : Int)
    (blocks : List (ContentBlock × Nat)) (s : PatchDelta) :
    (contentOps event now s blocks).2.appendPatchCursors = s.appendPatchCursors := by
  induction blocks generalizing s with
  | nil => rfl
  | cons e rest ih => exact ih _

theorem appendPatchCursors_patchOps (now : Int) (s : PatchDelta) :
    (patchOps event now s).2.appendPatchCursors = s.appendPatchCursors ∨
      (patchOps event now s).2.appendPatchCursors =
        s.appendPatchCursors.delete (patchCursorKey event) := by
  have hkeyframe : (keyframePart event s).2.appendPatchCursors = s.appendPatchCursors := by
    unfold keyframePart
    split <;> rfl
  unfold patchOps replacePart
  simp only [appendPatchCursors_contentOps]
  split
  · exact .inr (by rw [hkeyframe])
  · exact .inl hkeyframe

/-- The path the producer has for a message. -/
def pathOf (s : PatchDelta) (key : String) : Option String :=
  cursorPath (s.appendPatchCursors.get? key)

theorem pathOf_pruneExpired (s : PatchDelta) (key : String) :
    pathOf (pruneExpired now s) key = none ∨ pathOf (pruneExpired now s) key = pathOf s key := by
  unfold pathOf pruneExpired
  rcases s.appendPatchCursors.get?_filter_eq_or _ key with h | h
  · exact .inl (by rw [h]; rfl)
  · exact .inr (by rw [h])

def compactionStart (event : SessionStreamEvent) (now : Int) (s : PatchDelta) :
    Option AppendPatchCursor :=
  startCursor event (pruneExpired now (patchOps event now s).2)

theorem buildPatch_ops (now : Int) (s : PatchDelta) :
    (buildPatchOpsForContentDelta event now s).1 =
      (compactLoop now (compactionStart event now s) (patchOps event now s).1).1 := rfl

theorem cursorPath_compactionStart (now : Int) (s : PatchDelta) :
    cursorPath (compactionStart event now s) = none ∨
      event.baseSeq ≠ 0 ∧
        cursorPath (compactionStart event now s) = pathOf s (patchCursorKey event) := by
  unfold compactionStart startCursor
  split
  · exact .inl rfl
  · next hbase =>
    rcases pathOf_pruneExpired now (patchOps event now s).2 (patchCursorKey event) with h | h
    · exact .inl h
    · rcases appendPatchCursors_patchOps event now s with hc | hc
      · refine Or.inr ⟨hbase, h.trans ?_⟩
        unfold pathOf
        rw [hc]
      · refine Or.inl (h.trans ?_)
        unfold pathOf
        rw [hc, get?_delete, if_pos rfl]
        rfl

theorem pathOf_buildPatch (now : Int) (s : PatchDelta) (key : String) :
    pathOf (buildPatchOpsForContentDelta event now s).2 key =
      if key = patchCursorKey event then
        cursorPath (compactLoop now (compactionStart event now s) (patchOps event now s).1).2
      else pathOf (pruneExpired now (patchOps event now s).2) key := by
  unfold buildPatchOpsForContentDelta compactAppendPatchOps compactionStart pathOf
  simp only
  cases (compactLoop now (startCursor event (pruneExpired now (patchOps event now s).2))
      (patchOps event now s).1).2 with
  | none =>
    simp only [get?_delete]
    split <;> rfl
  | some cursor =>
    simp only [get?_set]
    split <;> rfl

theorem pathOf_buildPatch_other {event : SessionStreamEvent} (s : PatchDelta)
    {key : String} (hkey : key ≠ patchCursorKey event) :
    pathOf (buildPatchOpsForContentDelta event now s).2 key = none ∨
      pathOf (buildPatchOpsForContentDelta event now s).2 key = pathOf s key := by
  rw [pathOf_buildPatch, if_neg hkey]
  rcases pathOf_pruneExpired now (patchOps event now s).2 key with h | h
  · exact .inl h
  · refine Or.inr (h.trans ?_)
    unfold pathOf
    rcases appendPatchCursors_patchOps event now s with hc | hc
    · rw [hc]
    · rw [hc, get?_delete, if_neg hkey]

/-! ## The system -/

/-- The patch of an event as the client is handed it. -/
def applyInput (event : SessionStreamEvent) (ops : List RealtimePatchOperation) :
    SessionPatchApplyInput :=
  { turnId := event.turnId
    seq := event.seq
    baseSeq := event.baseSeq
    ops := ops
    anchorUserMessageId := event.anchorUserMessageId <|> event.sourceMessageId }

/-- A published patch.  `meant` are its operations before compaction, `start`
    the path it was compacted from. -/
structure BuiltPatch where
  event : SessionStreamEvent
  meant : List RealtimePatchOperation
  start : Option String
  ops   : List RealtimePatchOperation

/-- What `cacheSessionStreamSnapshot` stores of an event. -/
structure CachedSnapshot where
  event      : SessionStreamEvent
  appendPath : Option String

/-- The producer, everything it published or cached, and one client.
    `sequences` are the last sequence numbers of the messages.  `message` is
    the message the client's state came from; the client does not have it. -/
structure StreamSystem where
  delta : PatchDelta
  sequences : OrderedMap String Int
  pending : List SessionStreamEvent
  built : List BuiltPatch
  snapshots : List CachedSnapshot
  client : SessionPatchState
  message : Option String

namespace StreamSystem

/-- Nothing was published. -/
def init : StreamSystem :=
  { delta := PatchDelta.empty
    sequences := OrderedMap.empty
    pending := []
    built := []
    snapshots := []
    client := createIdleState
    message := none }

/-- What can happen.  Patches and snapshots are named by their position in
    what was published and cached. -/
inductive Action where
  | publish (event : SessionStreamEvent) (now : Int)
  | cache (n : Nat)
  | deliver (n : Nat)
  | join (n : Nat)
  | start (turnId : Option String)
  | replaceTurnId (turnId : Option String)
  | complete (turnId : Option String)
  | fail (turnId : Option String)
  | interrupt (turnId : Option String)
  | reset

/-- The last sequence number of a message. -/
def lastSeq (s : StreamSystem) (key : String) : Int := (s.sequences.get? key).getD 0

/-- The producers number the events of a message in ascending order, each on
    top of the one before or as a keyframe, and await one publication before
    the next. -/
def mayPublish (s : StreamSystem) (event : SessionStreamEvent) : Bool :=
  let key := patchCursorKey event
  s.lastSeq key < event.seq && (event.baseSeq = 0 || event.baseSeq = s.lastSeq key) &&
    s.pending.all fun e => patchCursorKey e ≠ key

/-- `sendOutput`, up to the cached snapshot. -/
def publish (s : StreamSystem) (event : SessionStreamEvent) (now : Int) : StreamSystem :=
  let patch : BuiltPatch :=
    { event := event
      meant := (patchOps event now s.delta).1
      start := cursorPath (compactionStart event now s.delta)
      ops := (buildPatchOpsForContentDelta event now s.delta).1 }
  { s with
    delta := (buildPatchOpsForContentDelta event now s.delta).2
    sequences := s.sequences.set (patchCursorKey event) event.seq
    pending := s.pending ++ [event]
    built := s.built ++ [patch] }

/-- `cacheSessionStreamSnapshot`. -/
def cache (s : StreamSystem) (n : Nat) (event : SessionStreamEvent) : StreamSystem :=
  { s with
    pending := s.pending.eraseIdx n
    snapshots := s.snapshots ++
      [{ event := event, appendPath := getAppendPathForStreamEvent event s.delta }] }

/-- The snapshot as the client is handed it. -/
def snapshotInput (snapshot : CachedSnapshot) : SessionPatchSnapshotInput :=
  { turnId := snapshot.event.turnId
    seq := snapshot.event.seq
    contentBlocks := snapshot.event.snapshotContent.getD []
    anchorUserMessageId := snapshot.event.anchorUserMessageId <|> snapshot.event.sourceMessageId
    appendPath := snapshot.appendPath }

/-- An applied patch: the operations the producer meant and the ones the
    client read. -/
structure Applied where
  meant : List RealtimePatchOperation
  read  : Option (List RealtimePatchOperation)
  deriving DecidableEq

/-- `applyPatch`. -/
def deliver (s : StreamSystem) (patch : BuiltPatch) : StreamSystem × List Applied :=
  match s.client.applyPatch (applyInput patch.event patch.ops) with
  | (.applied, client) =>
      ({ s with client := client, message := some (patchCursorKey patch.event) },
        [{ meant := patch.meant
           read := readAppends (s.client.base (applyInput patch.event patch.ops)).2 patch.ops }])
  | _ => (s, [])

/-- `applySnapshot`. -/
def join (s : StreamSystem) (snapshot : CachedSnapshot) : StreamSystem :=
  match s.client.applySnapshot (snapshotInput snapshot) with
  | (.applied, client) =>
      { s with client := client, message := some (patchCursorKey snapshot.event) }
  | _ => s

def step (s : StreamSystem) : Action → StreamSystem × List Applied
  | .publish event now => (if s.mayPublish event then s.publish event now else s, [])
  | .cache n => ((s.pending[n]?.map (s.cache n)).getD s, [])
  | .deliver n => (s.built[n]?.map s.deliver).getD (s, [])
  | .join n => ((s.snapshots[n]?.map s.join).getD s, [])
  | .start turnId => ({ s with client := s.client.start turnId, message := none }, [])
  | .replaceTurnId turnId => ({ s with client := s.client.replaceTurnId turnId }, [])
  | .complete turnId => ({ s with client := s.client.complete turnId }, [])
  | .fail turnId => ({ s with client := s.client.fail turnId }, [])
  | .interrupt turnId => ({ s with client := s.client.interrupt turnId }, [])
  | .reset => ({ s with client := createIdleState, message := none }, [])

def machine : Mealy StreamSystem Action Applied where
  step := step

/-- A patch that continues the client's sequence number is one of the message
    the client's state came from. -/
def SameMessage (s : StreamSystem) : Action → Prop
  | .deliver n =>
      ∀ patch ∈ s.built[n]?, patch.event.baseSeq ≠ 0 →
        patch.event.baseSeq = s.client.patchSeq → s.message = some (patchCursorKey patch.event)
  | _ => True

/-! ## The invariant -/

/-- Where a message is after a publication: what is built on top of it starts
    from the path it ended on. -/
structure EndsOn (s : StreamSystem) (key : String) (seq : Int) (ended : Option String) : Prop where
  le_last    : seq ≤ s.lastSeq key
  successors : ∀ patch ∈ s.built, patchCursorKey patch.event = key → patch.event.baseSeq ≠ 0 →
    patch.event.baseSeq = seq → Follows patch.start ended
  current    : s.lastSeq key = seq → Follows (pathOf s.delta key) ended

/-- A published patch is the compaction of what it means. -/
structure Compacted (s : StreamSystem) (patch : BuiltPatch) : Prop where
  base_lt : patch.event.baseSeq < patch.event.seq
  names   : ∀ op ∈ patch.meant, NamesPath op
  built   : ∃ now cursor, patch.start = cursorPath cursor ∧
    patch.ops = (compactLoop now cursor patch.meant).1 ∧
    EndsOn s (patchCursorKey patch.event) patch.event.seq
      (cursorPath (compactLoop now cursor patch.meant).2)

/-- The client's path is no other path than the one its message was at. -/
def ClientAgrees (s : StreamSystem) (key : String) : Prop :=
  ∃ ended, EndsOn s key s.client.patchSeq ended ∧ Agree ended s.client.appendPath

structure Invariant (s : StreamSystem) : Prop where
  nonneg    : ∀ key, 0 ≤ s.lastSeq key
  pending   : ∀ event ∈ s.pending, event.seq = s.lastSeq (patchCursorKey event)
  built     : ∀ patch ∈ s.built, Compacted s patch
  snapshots : ∀ snapshot ∈ s.snapshots,
    EndsOn s (patchCursorKey snapshot.event) snapshot.event.seq snapshot.appendPath
  client    : ∀ key, s.message = some key → ClientAgrees s key

theorem invariant_init : Invariant init where
  nonneg _ := le_refl 0
  pending _ h := absurd h not_mem_nil
  built _ h := absurd h not_mem_nil
  snapshots _ h := absurd h not_mem_nil
  client key h := absurd h (some_ne_none key).symm

variable {s s' : StreamSystem} {event : SessionStreamEvent}
  {key : String} {seq : Int} {ended : Option String} {patch : BuiltPatch}

theorem EndsOn.congr (h : EndsOn s key seq ended) (hdelta : s'.delta = s.delta)
    (hsequences : s'.sequences = s.sequences) (hbuilt : s'.built = s.built) :
    EndsOn s' key seq ended := by
  have hlast : s'.lastSeq key = s.lastSeq key := by
    unfold lastSeq
    rw [hsequences]
  refine ⟨?_, ?_, ?_⟩
  · rw [hlast]
    exact h.le_last
  · rw [hbuilt]
    exact h.successors
  · rw [hlast, hdelta]
    exact h.current

theorem Compacted.congr (h : Compacted s patch)
    (hdelta : s'.delta = s.delta) (hsequences : s'.sequences = s.sequences)
    (hbuilt : s'.built = s.built) : Compacted s' patch := by
  obtain ⟨now, cursor, hstart, hops, hend⟩ := h.built
  exact ⟨h.base_lt, h.names, now, cursor, hstart, hops, hend.congr hdelta hsequences hbuilt⟩

/-! ### Publication -/

theorem lastSeq_publish (s : StreamSystem) (event : SessionStreamEvent) (now : Int) (key : String) :
    (s.publish event now).lastSeq key =
      if key = patchCursorKey event then event.seq else s.lastSeq key := by
  unfold publish lastSeq
  simp only [get?_set]
  split <;> rfl

theorem mayPublish_iff (s : StreamSystem) (event : SessionStreamEvent) :
    s.mayPublish event = true ↔
      s.lastSeq (patchCursorKey event) < event.seq ∧
        (event.baseSeq = 0 ∨ event.baseSeq = s.lastSeq (patchCursorKey event)) ∧
        ∀ e ∈ s.pending, patchCursorKey e ≠ patchCursorKey event := by
  simp [mayPublish, and_assoc]

theorem EndsOn.publish {now : Int} (h : EndsOn s key seq ended) (hmay : s.mayPublish event = true) :
    EndsOn (s.publish event now) key seq ended := by
  obtain ⟨hlt, hbase, -⟩ := (mayPublish_iff s event).mp hmay
  refine ⟨?_, ?_, ?_⟩
  · rw [lastSeq_publish]
    split
    · next hkey =>
      subst hkey
      exact h.le_last.trans hlt.le
    · exact h.le_last
  · intro patch hpatch hkey hne hseq
    rcases mem_append.mp hpatch with hpatch | hpatch
    · exact h.successors patch hpatch hkey hne hseq
    · rw [mem_singleton] at hpatch
      subst hpatch
      -- the new patch is on top of the last event of its message
      have hlast : s.lastSeq (patchCursorKey event) = seq := by
        rcases hbase with hzero | hlast
        · exact absurd hzero hne
        · exact hlast.symm.trans hseq
      have hkey : patchCursorKey event = key := hkey
      rw [hkey] at hlast
      refine (h.current hlast).of_none_or ?_
      rcases cursorPath_compactionStart event now s.delta with hnone | ⟨-, hpath⟩
      · exact .inl hnone
      · rw [hkey] at hpath
        exact .inr hpath
  · intro hlast
    rw [lastSeq_publish] at hlast
    split at hlast
    · next hkey =>
      subst hkey
      have := h.le_last
      omega
    · next hkey =>
      refine (h.current hlast).of_none_or ?_
      exact pathOf_buildPatch_other now s.delta hkey

theorem endsOn_published (hs : Invariant s) (now : Int) (hmay : s.mayPublish event = true) :
    EndsOn (s.publish event now) (patchCursorKey event) event.seq
      (cursorPath (compactLoop now (compactionStart event now s.delta)
        (patchOps event now s.delta).1).2) := by
  obtain ⟨hlt, hbase, -⟩ := (mayPublish_iff s event).mp hmay
  have hnonneg := hs.nonneg (patchCursorKey event)
  refine ⟨?_, ?_, ?_⟩
  · rw [lastSeq_publish, if_pos rfl]
  · -- nothing is on top of it yet
    intro patch hpatch hkey hne hseq
    exfalso
    rcases mem_append.mp hpatch with hpatch | hpatch
    · have hbefore := (hs.built patch hpatch).base_lt
      obtain ⟨_, _, -, -, hend⟩ := (hs.built patch hpatch).built
      have hle := hend.le_last
      rw [hkey] at hle
      omega
    · rw [mem_singleton] at hpatch
      subst hpatch
      have hseq : event.baseSeq = event.seq := hseq
      rcases hbase with hzero | hlast <;> omega
  · intro _
    right
    show pathOf (buildPatchOpsForContentDelta event now s.delta).2 (patchCursorKey event) = _
    rw [pathOf_buildPatch, if_pos rfl]

theorem invariant_publish (hs : Invariant s)
    (now : Int) (hmay : s.mayPublish event = true) : Invariant (s.publish event now) := by
  obtain ⟨hlt, hbase, hpending⟩ := (mayPublish_iff s event).mp hmay
  have hnonneg := hs.nonneg (patchCursorKey event)
  refine ⟨?_, ?_, ?_, ?_, ?_⟩
  · intro key
    rw [lastSeq_publish]
    split
    · omega
    · exact hs.nonneg key
  · intro e he
    rw [lastSeq_publish]
    rcases mem_append.mp he with he | he
    · rw [if_neg (hpending e he)]
      exact hs.pending e he
    · rw [mem_singleton.mp he, if_pos rfl]
  · intro patch hpatch
    rcases mem_append.mp hpatch with hpatch | hpatch
    · have hold := hs.built patch hpatch
      obtain ⟨now', cursor, hstart, hops, hend⟩ := hold.built
      exact ⟨hold.base_lt, hold.names, now', cursor, hstart, hops, hend.publish hmay⟩
    · rw [mem_singleton] at hpatch
      subst hpatch
      refine ⟨?_, namesPath_patchOps event now s.delta, now,
        compactionStart event now s.delta, rfl, rfl, endsOn_published hs now hmay⟩
      show event.baseSeq < event.seq
      rcases hbase with hzero | hlast <;> omega
  · intro snapshot hsnapshot
    exact (hs.snapshots snapshot hsnapshot).publish hmay
  · intro key hkey
    obtain ⟨ended, hend, hagree⟩ := hs.client key hkey
    exact ⟨ended, hend.publish hmay, hagree⟩

/-! ### Snapshots -/

theorem invariant_cache (hs : Invariant s) {n : Nat} (hevent : s.pending[n]? = some event) :
    Invariant (s.cache n event) := by
  have hmem : event ∈ s.pending := mem_of_getElem? hevent
  refine ⟨hs.nonneg, ?_, ?_, ?_, ?_⟩
  · exact fun e he => hs.pending e (mem_of_mem_eraseIdx he)
  · exact fun patch hpatch => (hs.built patch hpatch).congr rfl rfl rfl
  · intro snapshot hsnapshot
    rcases mem_append.mp hsnapshot with hsnapshot | hsnapshot
    · exact (hs.snapshots snapshot hsnapshot).congr rfl rfl rfl
    · rw [mem_singleton] at hsnapshot
      subst hsnapshot
      have hlast := hs.pending event hmem
      refine ⟨hlast.le, ?_, fun _ => .inr rfl⟩
      intro patch hpatch hkey _ hseq
      exfalso
      have hbefore := (hs.built patch hpatch).base_lt
      obtain ⟨_, _, -, -, hend⟩ := (hs.built patch hpatch).built
      have hle := hend.le_last
      have hseq : patch.event.baseSeq = event.seq := hseq
      have hkey : patchCursorKey patch.event = patchCursorKey event := hkey
      rw [hkey] at hle
      omega
  · intro key hkey
    obtain ⟨ended, hend, hagree⟩ := hs.client key hkey
    exact ⟨ended, hend.congr rfl rfl rfl, hagree⟩

/-! ### The client -/

theorem Invariant.of_client (hs : Invariant s) (hdelta : s'.delta = s.delta)
    (hsequences : s'.sequences = s.sequences) (hpending : s'.pending = s.pending)
    (hbuilt : s'.built = s.built) (hsnapshots : s'.snapshots = s.snapshots)
    (hclient : ∀ key, s'.message = some key → ClientAgrees s' key) : Invariant s' := by
  have hlast : ∀ key, s'.lastSeq key = s.lastSeq key := by
    intro key
    unfold lastSeq
    rw [hsequences]
  refine ⟨?_, ?_, ?_, ?_, hclient⟩
  · intro key
    rw [hlast]
    exact hs.nonneg key
  · intro event hevent
    rw [hlast]
    exact hs.pending event (hpending ▸ hevent)
  · exact fun patch hpatch => (hs.built patch (hbuilt ▸ hpatch)).congr hdelta hsequences hbuilt
  · intro snapshot hsnapshot
    exact (hs.snapshots snapshot (hsnapshots ▸ hsnapshot)).congr hdelta hsequences hbuilt

theorem invariant_client (hs : Invariant s) {client : SessionPatchState}
    (hseq : client.patchSeq = s.client.patchSeq)
    (hpath : client.appendPath = none ∨ client.appendPath = s.client.appendPath) :
    Invariant { s with client := client } := by
  refine hs.of_client rfl rfl rfl rfl rfl ?_
  intro key hkey
  obtain ⟨ended, hend, hagree⟩ := hs.client key hkey
  refine ⟨ended, ?_, ?_⟩
  · show EndsOn _ key client.patchSeq ended
    rw [hseq]
    exact hend.congr rfl rfl rfl
  · show Agree ended client.appendPath
    rcases hpath with hnone | hsame
    · rw [hnone]
      exact Agree.none_right _
    · rw [hsame]
      exact hagree

theorem invariant_join (hs : Invariant s) {snapshot : CachedSnapshot}
    (hsnapshot : snapshot ∈ s.snapshots) : Invariant (s.join snapshot) := by
  unfold join SessionPatchState.applySnapshot
  split
  · next client heq =>
    split at heq
    · injection heq with hresult
      cases hresult
    · injection heq with _ hclient
      subst hclient
      refine hs.of_client rfl rfl rfl rfl rfl ?_
      intro key hkey
      injection hkey with hkey
      subst hkey
      exact ⟨snapshot.appendPath, (hs.snapshots snapshot hsnapshot).congr rfl rfl rfl, Agree.refl _⟩
  · exact hs

theorem invariant_deliver (hs : Invariant s)
    (hpatch : patch ∈ s.built)
    (hsame : patch.event.baseSeq ≠ 0 → patch.event.baseSeq = s.client.patchSeq →
      s.message = some (patchCursorKey patch.event)) :
    Invariant (s.deliver patch).1 ∧
      ∀ applied ∈ (s.deliver patch).2, applied.read = some applied.meant := by
  have hbuilt := hs.built patch hpatch
  obtain ⟨now, cursor, hstart, hops, hend⟩ := hbuilt.built
  unfold deliver
  split
  · next client happlied =>
    obtain ⟨hrefusal, patched, hops', -, hseq, -, -, hpath⟩ :=
      SessionPatchState.applyPatch_applied happlied
    have hagree : Agree patch.start (s.client.base (applyInput patch.event patch.ops)).2 := by
      rw [SessionPatchState.base_eq]
      split
      · exact Agree.none_right _
      · next hbase =>
        have hseq := SessionPatchState.patchSeq_of_accepted hrefusal hbase
        obtain ⟨ended, hplace, hpath⟩ := hs.client _ (hsame hbase hseq.symm)
        exact (hplace.successors patch hpatch rfl hbase hseq.symm).agree hpath
    obtain ⟨final, hfold, rfl⟩ := map_eq_some_iff.mp hops'
    obtain ⟨read, hread⟩ := readAppends_of_foldlM hfold
    have hafter := appendPath_foldlM hfold
    have hread' : readAppends (s.client.base (applyInput patch.event patch.ops)).2
        (compactLoop now cursor patch.meant).1 = some read := by
      rw [← hops]
      exact hread
    rw [hstart] at hagree
    obtain ⟨hlist, hended⟩ := readAppends_compactLoop now hbuilt.names hagree hread'
    refine ⟨hs.of_client rfl rfl rfl rfl rfl ?_, ?_⟩
    · intro key hkey
      injection hkey with hkey
      subst hkey
      refine ⟨cursorPath (compactLoop now cursor patch.meant).2, ?_, ?_⟩
      · show EndsOn _ _ client.patchSeq _
        rw [hseq]
        exact hend.congr rfl rfl rfl
      · show Agree _ client.appendPath
        have hafter : final.appendPath =
            appendPathAfter (s.client.base (applyInput patch.event patch.ops)).2 patch.ops := hafter
        rw [hpath, hafter, hops]
        exact hended
    · intro applied happ
      rw [mem_singleton.mp happ, ← hlist]
      exact hread
  · exact ⟨hs, nofun⟩

/-! ## Runs -/

theorem invariant_step (hs : Invariant s) {action : Action} (hsame : SameMessage s action) :
    Invariant (s.step action).1 ∧
      ∀ applied ∈ (s.step action).2, applied.read = some applied.meant := by
  cases action with
  | publish event now =>
    refine ⟨?_, nofun⟩
    show Invariant (if s.mayPublish event then s.publish event now else s)
    split
    · next hmay => exact invariant_publish hs now hmay
    · exact hs
  | cache n =>
    refine ⟨?_, nofun⟩
    show Invariant ((s.pending[n]?.map (s.cache n)).getD s)
    cases hevent : s.pending[n]? with
    | none => exact hs
    | some event => exact invariant_cache hs hevent
  | deliver n =>
    show Invariant ((s.built[n]?.map s.deliver).getD (s, [])).1 ∧
      ∀ applied ∈ ((s.built[n]?.map s.deliver).getD (s, [])).2, applied.read = some applied.meant
    cases hpatch : s.built[n]? with
    | none => exact ⟨hs, nofun⟩
    | some patch => exact invariant_deliver hs (mem_of_getElem? hpatch) (hsame patch hpatch)
  | join n =>
    refine ⟨?_, nofun⟩
    show Invariant ((s.snapshots[n]?.map s.join).getD s)
    cases hsnapshot : s.snapshots[n]? with
    | none => exact hs
    | some snapshot => exact invariant_join hs (mem_of_getElem? hsnapshot)
  | start turnId => exact ⟨hs.of_client rfl rfl rfl rfl rfl nofun, nofun⟩
  | replaceTurnId turnId => exact ⟨invariant_client hs rfl (.inr rfl), nofun⟩
  | complete turnId => exact ⟨invariant_client hs rfl (.inr rfl), nofun⟩
  | fail turnId => exact ⟨invariant_client hs rfl (.inr rfl), nofun⟩
  | interrupt turnId => exact ⟨invariant_client hs rfl (.inl rfl), nofun⟩
  | reset => exact ⟨hs.of_client rfl rfl rfl rfl rfl nofun, nofun⟩

/-- In every run whose patches are applied to the message they belong to,
    the client reads every patch it applies as the producer meant it: each bare
    value goes to the path it was taken from. -/
theorem append_cursor_agreement (actions : List Action)
    (h : machine.Meets SameMessage init actions) :
    ∀ applied ∈ (machine.run init actions).2, applied.read = some applied.meant :=
  Mealy.run_outputs (I := Invariant) (P := fun applied => applied.read = some applied.meant)
    (fun _ _ hs hsame => invariant_step hs hsame) invariant_init h

instance (s : StreamSystem) (action : Action) : Decidable (SameMessage s action) := by
  unfold SameMessage
  split <;> infer_instance

def turnEvent (messageId : String) (seq : Nat) (content : List ContentBlock) : SessionStreamEvent :=
  { spaceId := "space"
    sessionId := "session"
    turnId := some "turn"
    messageId := some messageId
    messageOrdinal := none
    sourceMessageId := some "user"
    anchorUserMessageId := some "user"
    seq := seq
    baseSeq := seq - 1
    content := content
    snapshotContent := some content
    replaceContent := false }

/-- Two messages of one turn.  The second has two blocks, and its third patch
    adds to the second block. -/
def twoMessages : List Action :=
  [.publish (turnEvent "a" 1 [textBlock 0 "x"]) 0, .cache 0,
    .publish (turnEvent "a" 2 [textBlock 0 "xy"]) 0, .cache 0,
    .publish (turnEvent "b" 1 [textBlock 0 "p", textBlock 1 "q"]) 0, .cache 0,
    .publish (turnEvent "b" 2 [textBlock 0 "p", textBlock 1 "qr"]) 0, .cache 0,
    .publish (turnEvent "b" 3 [textBlock 0 "p", textBlock 1 "qrs"]) 0, .cache 0]

/-- A client that starts over at the second message, and one that joins it
    from the snapshot of its second patch. -/
def joinedRun : List Action :=
  twoMessages ++ [.deliver 0, .deliver 1, .reset, .deliver 2, .deliver 3, .deliver 4, .reset,
    .join 3, .deliver 4]

theorem append_cursor_agreement_twoMessages :
    machine.Meets SameMessage init joinedRun ∧
      ∀ applied ∈ (machine.run init joinedRun).2, applied.read = some applied.meant :=
  ⟨by decide +kernel, append_cursor_agreement joinedRun (by decide +kernel)⟩

/-- All patches delivered in order: the second message's first two patches
    repeat sequence numbers of the first message, and its third continues it.
    What was taken from the second block goes to the first. -/
theorem bare_append_to_other_message :
    ¬ ∀ actions, ∀ applied ∈ (machine.run init actions).2,
      applied.read = some applied.meant := by
  intro h
  have hrun := h (twoMessages ++ [.deliver 0, .deliver 1, .deliver 2, .deliver 3, .deliver 4])
    { meant := [.append "/message/content/blocks/1/text" (.str "s")]
      read := some [.append "/message/content/blocks/0/text" (.str "s")] }
    (by decide +kernel)
  revert hrun
  decide +kernel

end StreamSystem

end Cohub.Stream
