import Cohub.Stream.Tables

/-! # What the runtime stream publishes

    The runtime stream over whole runs: updates, flushes and publications in
    any order, with publications that fail in every way.  The numbers and bases
    of what is published are always right.  The content of a client that is
    handed the patches is right after every successful publication, as long as
    the patch builder's tables describe the content the client has
    (`Continues`). -/

namespace Cohub.Stream

open Cohub.Realtime List

/-! ## Blocks of the stream -/

/-- The blocks of a message are under their indices. -/
def BlocksKeyed (blocks : OrderedMap Nat ContentBlock) : Prop :=
  ∀ e ∈ blocks.entries, IsBlock e.2 ∧ getStreamIndex e.2 = some (e.1 : Rat)

theorem isBlock_ofMembers {key : String} (hkey : "_meta" < key ∧ key < "type") (i : Nat)
    (text type : String) :
    IsBlock [("_meta", .obj [("streamIndex", .num i)]), (key, .str text), ("type", .str type)] := by
  have hsorted : Fields.Sorted
      [("_meta", .obj [("streamIndex", .num i)]), (key, .str text), ("type", .str type)] := by
    unfold Fields.Sorted
    simp only [pairwise_cons, mem_cons, not_mem_nil, or_false]
    refine ⟨?_, ?_, nofun, List.Pairwise.nil⟩
    · rintro e (rfl | rfl)
      · exact hkey.1
      · show "_meta" < "type"
        decide
    · rintro e rfl
      exact hkey.2
  refine ⟨?_, ⟨type, ?_⟩, ?_⟩
  · rw [Json.canonical_obj_iff]
    refine ⟨hsorted, ?_⟩
    intro k v hv
    have hmem := Fields.mem_of_get? hv
    simp only [mem_cons, Prod.mk.injEq, not_mem_nil, or_false] at hmem
    rcases hmem with ⟨-, rfl⟩ | ⟨-, rfl⟩ | ⟨-, rfl⟩
    · simp [Json.Canonical, Json.CanonicalFields, Fields.Sorted]
    · trivial
    · trivial
  · exact (Fields.get?_eq_some_iff hsorted _ _).mpr (by simp)
  · intro v hv
    have hv : some (Json.obj [("streamIndex", .num i)]) = some v := hv
    rw [← Option.some.inj hv]
    rfl

theorem isBlock_withStreamIndex {block : ContentBlock} (h : IsBlock block) (i : Nat) :
    IsBlock (withStreamIndex block i) ∧
      getStreamIndex (withStreamIndex block i) = some (i : Rat) := by
  have hblock := (Json.canonical_obj_iff block).mp h.canonical
  have hmembers : Json.Canonical (.obj (spreadMembers (block.get? "_meta"))) := by
    cases hmeta : block.get? "_meta" with
    | none => exact (Json.canonical_obj_iff _).mpr ⟨Fields.sorted_nil, nofun⟩
    | some v =>
      obtain ⟨fs, rfl⟩ := (Json.isRecord_iff v).mp (h.record v hmeta)
      exact hblock.2 _ _ hmeta
  have hmembers := (Json.canonical_obj_iff _).mp hmembers
  have hmeta : Json.Canonical
      (.obj ((spreadMembers (block.get? "_meta")).set "streamIndex" (.num i))) := by
    rw [Json.canonical_obj_iff]
    refine ⟨Fields.sorted_set hmembers.1 _ _, ?_⟩
    intro k v hv
    rw [Fields.get?_set] at hv
    split at hv
    · rw [← Option.some.inj hv]
      trivial
    · exact hmembers.2 k v hv
  unfold withStreamIndex
  refine ⟨⟨?_, ?_, ?_⟩, ?_⟩
  · rw [Json.canonical_obj_iff]
    refine ⟨Fields.sorted_set hblock.1 _ _, ?_⟩
    intro k v hv
    rw [Fields.get?_set] at hv
    split at hv
    · rw [← Option.some.inj hv]
      exact hmeta
    · exact hblock.2 k v hv
  · obtain ⟨t, ht⟩ := h.typed
    exact ⟨t, by rw [Fields.get?_set_ne _ _ (by decide), ht]⟩
  · intro v hv
    rw [Fields.get?_set_self, Option.mem_some] at hv
    rw [← hv]
    rfl
  · unfold getStreamIndex
    rw [Fields.get?_set_self, Option.bind_some, Json.get?_obj, Fields.get?_set_self]
    rfl

theorem isBlock_deltaBlock (previous : Option ContentBlock) (i : Nat) (kind : TextKind)
    (delta : String) :
    IsBlock (deltaBlock previous i kind delta) ∧
      getStreamIndex (deltaBlock previous i kind delta) = some (i : Rat) := by
  cases kind with
  | text => exact ⟨isBlock_ofMembers ⟨by decide, by decide⟩ i _ _, rfl⟩
  | thinking => exact ⟨isBlock_ofMembers ⟨by decide, by decide⟩ i _ _, rfl⟩

theorem blocksKeyed_replacedBlocks (content : List { block : ContentBlock // IsBlock block }) :
    BlocksKeyed (replacedBlocks content) := by
  refine OrderedMap.forall_mem_setAll _ nofun ?_
  intro e he
  obtain ⟨⟨block, i⟩, -, rfl⟩ := mem_map.mp he
  exact isBlock_withStreamIndex block.property i

variable {message : RuntimeMessage}

theorem isContent_content (h : BlocksKeyed message.blocks) : IsContent message.content := by
  have hmem : ∀ e ∈ message.blocks.entries.insertionSort fun a b => a.1 ≤ b.1,
      e ∈ message.blocks.entries := fun e he => (mem_insertionSort _).mp he
  refine ⟨?_, ?_⟩
  · intro b hb
    obtain ⟨e, he, rfl⟩ := mem_map.mp hb
    obtain ⟨hblock, hindex⟩ := h e (hmem e he)
    exact ⟨hblock, e.1, hindex⟩
  · have htotal : Std.Total fun a b : Nat × ContentBlock => a.1 ≤ b.1 :=
      ⟨fun a b => le_total a.1 b.1⟩
    have htrans : IsTrans (Nat × ContentBlock) fun a b => a.1 ≤ b.1 :=
      ⟨fun _ _ _ hab hbc => le_trans hab hbc⟩
    have hsorted := pairwise_insertionSort (fun a b : Nat × ContentBlock => a.1 ≤ b.1)
      message.blocks.entries
    have hnodup : (message.blocks.entries.insertionSort fun a b => a.1 ≤ b.1).Pairwise
        fun a b => a.1 ≠ b.1 := by
      have hperm := (perm_insertionSort (fun a b : Nat × ContentBlock => a.1 ≤ b.1)
        message.blocks.entries).map Prod.fst
      have hkeys := hperm.nodup_iff.mpr message.blocks.nodup
      rwa [List.Nodup, pairwise_map] at hkeys
    unfold RuntimeMessage.content
    rw [pairwise_map]
    refine List.Pairwise.imp_of_mem ?_ (hsorted.and hnodup)
    intro a b ha hb hlt i j hi hj
    rw [(h a (hmem a ha)).2, Option.some.injEq] at hi
    rw [(h b (hmem b hb)).2, Option.some.injEq] at hj
    have hnat : a.1 < b.1 := Nat.lt_of_le_of_ne hlt.1 hlt.2
    rw [← hi, ← hj]
    exact_mod_cast hnat

/-! ## Publications -/

/-- The last publication succeeded, or there is none. -/
def Settled (published : List Publication) : Prop :=
  ∀ p ∈ published.getLast?, p.succeeded = true

/-- What the next publication builds on: the last one if that succeeded, and
    nothing otherwise. -/
def baseAfter (published : List Publication) : Int :=
  match published.getLast? with
  | some p => if p.succeeded then p.event.seq else 0
  | none => 0

def lastContent (published : List Publication) : List ContentBlock :=
  (published.getLast?.map (·.event.content)).getD []

/-- Publications without gaps, each with the base it has to have. -/
def Sequenced (published : List Publication) : Prop :=
  ∀ (k : Nat) (p : Publication), published[k]? = some p →
    p.event.seq = (k : Int) + 1 ∧ p.event.baseSeq = baseAfter (published.take k)

theorem settled_nil : Settled [] := fun _ h => absurd h (Option.some_ne_none _).symm

theorem Sequenced.concat {published : List Publication} (h : Sequenced published) {p : Publication}
    (hseq : p.event.seq = (published.length : Int) + 1)
    (hbase : p.event.baseSeq = baseAfter published) : Sequenced (published ++ [p]) := by
  intro k q hq
  rcases lt_trichotomy k published.length with hlt | rfl | hgt
  · rw [getElem?_append_left hlt] at hq
    rw [take_append_of_le_length (le_of_lt hlt)]
    exact h k q hq
  · rw [getElem?_concat_length, Option.some.injEq] at hq
    rw [← hq, take_left]
    exact ⟨hseq, hbase⟩
  · rw [getElem?_eq_none (by rw [length_append, length_singleton]; omega)] at hq
    cases hq

theorem lastContent_concat (published : List Publication) (p : Publication) :
    lastContent (published ++ [p]) = p.event.content := by
  unfold lastContent
  rw [getLast?_concat]
  rfl

theorem settled_concat (published : List Publication) (p : Publication) :
    Settled (published ++ [p]) ↔ p.succeeded = true := by
  unfold Settled
  rw [getLast?_concat]
  simp

theorem baseAfter_eq {published : List Publication} (h : Sequenced published) {resync : Bool}
    (hresync : resync = false ↔ Settled published) :
    baseAfter published = if resync then 0 else (published.length : Int) := by
  cases hlast : published.getLast? with
  | none =>
    rw [getLast?_eq_none_iff] at hlast
    subst hlast
    rw [hresync.mpr settled_nil]
    rfl
  | some p =>
    obtain ⟨before, rfl⟩ := getLast?_eq_some_iff.mp hlast
    have hseq := (h before.length p (getElem?_concat_length ..)).1
    rw [settled_concat] at hresync
    unfold baseAfter
    rw [hlast, length_append, length_singleton]
    cases resync with
    | false =>
      show (if p.succeeded = true then p.event.seq else 0) = _
      rw [if_pos (hresync.mp rfl), hseq]
      rfl
    | true =>
      show (if p.succeeded = true then p.event.seq else 0) = _
      rw [if_neg fun hok => Bool.noConfusion (hresync.mpr hok)]
      rfl

/-! ## One message -/

/-- The publications of a message that were captured and have not ended. -/
def pendingJobs (s : RuntimeStream) (ordinal : Nat) : List PublishJob :=
  ((s.running.map Prod.fst).toList ++ s.chain).filter fun job => job.ordinal = ordinal

/-- The publication that is under way is one of the message. -/
def isRunning (s : RuntimeStream) (ordinal : Nat) : Bool :=
  s.running.any fun attempt => attempt.1.ordinal = ordinal

def lastCaptured (pending : List PublishJob) (published : List Publication) : List ContentBlock :=
  (pending.getLast?.map (·.content)).getD (lastContent published)

/-- What is known of a message: how many publications have started, whether
    the last one failed, and that what was captured last is current unless the
    message is dirty. -/
structure MessageInv (running : Bool) (pending : List PublishJob) (published : List Publication)
    (message : RuntimeMessage) : Prop where
  blocks   : BlocksKeyed message.blocks
  sequence : message.sequence = published.length + running.toNat
  resync   : message.resync = false ↔ Settled published
  captured : message.dirty = false → message.content = lastCaptured pending published
  retried  : message.resync = true → message.dirty = true ∨ pending ≠ []

theorem messageInv_empty : MessageInv false [] [] RuntimeMessage.empty where
  blocks _ h := absurd h not_mem_nil
  sequence := rfl
  resync := ⟨fun _ => settled_nil, fun _ => rfl⟩
  captured _ := rfl
  retried := nofun

section OneStep

variable {running : Bool} {pending : List PublishJob} {published : List Publication}
  {message : RuntimeMessage}

theorem MessageInv.update (h : MessageInv running pending published message)
    {blocks : OrderedMap Nat ContentBlock} (hblocks : BlocksKeyed blocks) (replace : Bool) :
    MessageInv running pending published
      { message with blocks := blocks, replace := replace, dirty := true } where
  blocks := hblocks
  sequence := h.sequence
  resync := h.resync
  captured := nofun
  retried _ := Or.inl rfl

theorem MessageInv.flush (h : MessageInv running pending published message) (ordinal : Nat) :
    MessageInv running (pending ++ (RuntimeStream.capture ordinal message).toList) published
      (RuntimeStream.captured message) := by
  unfold RuntimeStream.capture RuntimeStream.captured
  by_cases hdirty : message.dirty = true
  · rw [if_pos hdirty, if_pos hdirty, Option.toList_some]
    refine ⟨h.blocks, h.sequence, h.resync, fun _ => ?_, fun _ => .inr (by simp)⟩
    unfold lastCaptured
    rw [getLast?_concat]
    rfl
  · rw [if_neg hdirty, if_neg hdirty, Option.toList_none, append_nil]
    exact h

theorem MessageInv.publish (h : MessageInv false pending published message) :
    MessageInv true pending published { message with sequence := message.sequence + 1 } where
  blocks := h.blocks
  sequence := by
    have hsequence := h.sequence
    simp only [Bool.toNat_false, Bool.toNat_true] at hsequence ⊢
    omega
  resync := h.resync
  captured := h.captured
  retried := h.retried

theorem MessageInv.settle {job : PublishJob}
    (h : MessageInv true (job :: pending) published message) {p : Publication}
    (hp : p.event.content = job.content) :
    MessageInv false pending (published ++ [p]) (RuntimeStream.settled p.succeeded message) := by
  have hsequence := h.sequence
  have hlast : lastCaptured pending (published ++ [p]) = lastCaptured (job :: pending) published := by
    unfold lastCaptured
    rw [lastContent_concat, hp, getLast?_cons]
    cases pending.getLast? <;> rfl
  unfold RuntimeStream.settled
  by_cases hok : p.succeeded = true
  · rw [if_pos hok]
    refine ⟨h.blocks, ?_, ?_, ?_, nofun⟩
    · simp only [Bool.toNat_true, Bool.toNat_false, length_append, length_singleton]
        at hsequence ⊢
      omega
    · rw [settled_concat]
      exact ⟨fun _ => hok, fun _ => rfl⟩
    · intro hdirty
      rw [hlast]
      exact h.captured hdirty
  · -- the retry is marked, so nothing is said about the content
    rw [if_neg hok]
    refine ⟨h.blocks, ?_, ?_, nofun, fun _ => .inl rfl⟩
    · simp only [Bool.toNat_true, Bool.toNat_false, length_append, length_singleton]
        at hsequence ⊢
      omega
    · rw [settled_concat]
      exact ⟨nofun, fun hsucceeded => absurd hsucceeded hok⟩

end OneStep

/-! ## The stream -/

structure StreamInv (identity : StreamIdentity) (s : RuntimeStream)
    (published : Nat → List Publication) : Prop where
  messages  : ∀ ordinal message, s.messages.get? ordinal = some message →
    MessageInv (isRunning s ordinal) (pendingJobs s ordinal) (published ordinal) message
  pending   : ∀ job ∈ (s.running.map Prod.fst).toList ++ s.chain,
    IsContent job.content ∧ s.messages.has job.ordinal = true
  running   : ∀ job event, s.running = some (job, event) → ∃ message,
    s.messages.get? job.ordinal = some message ∧
      event = RuntimeStream.eventOf identity job message.sequence message.resync
  sequenced : ∀ ordinal, Sequenced (published ordinal) ∧
    ∀ p ∈ published ordinal, IsContent p.event.content
  unstarted : ∀ ordinal, s.messages.get? ordinal = none → published ordinal = []

theorem streamInv_init (identity : StreamIdentity) :
    StreamInv identity RuntimeStream.init fun _ => [] where
  messages _ message h := absurd h (Option.some_ne_none message).symm
  pending _ h := absurd h not_mem_nil
  running job event h := absurd h (Option.some_ne_none (job, event)).symm
  sequenced _ := ⟨fun _ p h => absurd h (Option.some_ne_none p).symm,
    fun _ h => absurd h not_mem_nil⟩
  unstarted _ _ := rfl

variable {ordinal : Nat}

theorem isRunning_eq_false {s : RuntimeStream} (h : pendingJobs s ordinal = []) :
    isRunning s ordinal = false := by
  unfold isRunning
  unfold pendingJobs at h
  cases hrunning : s.running with
  | none => rfl
  | some attempt =>
    rw [hrunning, filter_eq_nil_iff] at h
    have hjob := h attempt.1 (by simp)
    simpa using hjob

section OneStep

variable {identity : StreamIdentity} {s : RuntimeStream} {published : Nat → List Publication}
  {ordinal : Nat} {job : PublishJob} {event : SessionStreamEvent}

theorem StreamInv.pendingJobs_eq_nil (h : StreamInv identity s published)
    (hnone : s.messages.get? ordinal = none) : pendingJobs s ordinal = [] := by
  unfold pendingJobs
  rw [filter_eq_nil_iff]
  intro job hjob heq
  obtain ⟨message, hget⟩ := (s.messages.has_iff job.ordinal).mp (h.pending job hjob).2
  rw [of_decide_eq_true heq, hnone] at hget
  cases hget

variable {message : RuntimeMessage}

theorem StreamInv.write (h : StreamInv identity s published)
    {message' : RuntimeMessage} (hget : s.messages.get? ordinal = some message)
    (hmessage : MessageInv (isRunning s ordinal) (pendingJobs s ordinal) (published ordinal)
      message')
    (hsequence : message'.sequence = message.sequence) (hresync : message'.resync = message.resync) :
    StreamInv identity { s with messages := s.messages.set ordinal message' } published := by
  refine ⟨?_, ?_, ?_, h.sequenced, ?_⟩
  · intro o m hm
    rw [OrderedMap.get?_set] at hm
    split at hm
    · next heq =>
      rw [heq, ← Option.some.inj hm]
      exact hmessage
    · exact h.messages o m hm
  · intro job hjob
    obtain ⟨hcontent, hhas⟩ := h.pending job hjob
    refine ⟨hcontent, ?_⟩
    obtain ⟨m, hm⟩ := (s.messages.has_iff job.ordinal).mp hhas
    rw [OrderedMap.has_iff]
    simp only [OrderedMap.get?_set]
    split
    · exact ⟨message', rfl⟩
    · exact ⟨m, hm⟩
  · intro job event hrunning
    obtain ⟨m, hm, hevent⟩ := h.running job event hrunning
    simp only [OrderedMap.get?_set]
    split
    · next heq =>
      rw [heq, hget] at hm
      refine ⟨message', rfl, ?_⟩
      rw [hsequence, hresync, Option.some.inj hm]
      exact hevent
    · exact ⟨m, hm, hevent⟩
  · intro o ho
    rw [OrderedMap.get?_set] at ho
    split at ho
    · cases ho
    · exact h.unstarted o ho

theorem StreamInv.start (h : StreamInv identity s published)
    (hnone : s.messages.get? ordinal = none) :
    StreamInv identity { s with messages := s.messages.set ordinal RuntimeMessage.empty }
      published := by
  have hpending := h.pendingJobs_eq_nil hnone
  have hne : ∀ {o m}, s.messages.get? o = some m → o ≠ ordinal := by
    rintro o m hm rfl
    rw [hnone] at hm
    cases hm
  refine ⟨?_, ?_, ?_, h.sequenced, ?_⟩
  · intro o m hm
    rw [OrderedMap.get?_set] at hm
    split at hm
    · next heq =>
      subst heq
      rw [← Option.some.inj hm, h.unstarted o hnone]
      show MessageInv (isRunning s o) (pendingJobs s o) [] RuntimeMessage.empty
      rw [isRunning_eq_false hpending, hpending]
      exact messageInv_empty
    · exact h.messages o m hm
  · intro job hjob
    obtain ⟨hcontent, hhas⟩ := h.pending job hjob
    obtain ⟨m, hm⟩ := (s.messages.has_iff job.ordinal).mp hhas
    exact ⟨hcontent, (OrderedMap.has_iff _ _).mpr ⟨m, by rw [OrderedMap.get?_set, if_neg (hne hm), hm]⟩⟩
  · intro job event hrunning
    obtain ⟨m, hm, hevent⟩ := h.running job event hrunning
    exact ⟨m, by rw [OrderedMap.get?_set, if_neg (hne hm), hm], hevent⟩
  · intro o ho
    rw [OrderedMap.get?_set] at ho
    split at ho
    · cases ho
    · exact h.unstarted o ho

theorem StreamInv.apply (h : StreamInv identity s published) {event : RuntimeExecutionEvent}
    {s' : RuntimeStream} (hs' : s.apply event = .ok s') : StreamInv identity s' published := by
  cases event with
  | messageStart ordinal =>
    simp only [RuntimeStream.apply] at hs'
    split at hs'
    · rw [← Except.ok.inj hs']
      exact h
    · next hhas =>
      rw [← Except.ok.inj hs']
      refine h.start ?_
      rwa [OrderedMap.has, Option.not_isSome_iff_eq_none] at hhas
  | textDelta ordinal index kind delta =>
    simp only [RuntimeStream.apply] at hs'
    split at hs'
    · cases hs'
    · next message hget =>
      rw [← Except.ok.inj hs']
      have hmessage := h.messages ordinal message hget
      refine h.write hget (hmessage.update ?_ message.replace) rfl rfl
      refine OrderedMap.forall_mem_set hmessage.blocks ?_
      exact isBlock_deltaBlock _ index kind delta
  | contentReplace ordinal content =>
    simp only [RuntimeStream.apply] at hs'
    split at hs'
    · cases hs'
    · next message hget =>
      rw [← Except.ok.inj hs']
      exact h.write hget
        ((h.messages ordinal message hget).update (blocksKeyed_replacedBlocks content) true) rfl rfl
  | other =>
    rw [← Except.ok.inj hs']
    exact h

theorem capture_ordinal (h : job ∈ RuntimeStream.capture ordinal message) :
    job.ordinal = ordinal ∧ job.content = message.content := by
  unfold RuntimeStream.capture at h
  split at h
  · rw [Option.mem_some] at h
    subst h
    exact ⟨rfl, rfl⟩
  · cases h

theorem pendingJobs_flush (s : RuntimeStream) (ordinal : Nat) :
    pendingJobs s.flush ordinal = pendingJobs s ordinal ++
      ((s.messages.get? ordinal).bind (RuntimeStream.capture ordinal)).toList := by
  unfold pendingJobs RuntimeStream.flush
  simp only [← append_assoc]
  rw [filter_append, OrderedMap.filter_filterMap_entries]
  intro k' v b hb
  rw [(capture_ordinal hb).1]

theorem StreamInv.flush (h : StreamInv identity s published) :
    StreamInv identity s.flush published := by
  have hget : ∀ o, s.flush.messages.get? o = (s.messages.get? o).map RuntimeStream.captured :=
    fun o => OrderedMap.get?_mapValues _ _ o
  refine ⟨?_, ?_, ?_, h.sequenced, ?_⟩
  · intro o m hm
    rw [hget, Option.map_eq_some_iff] at hm
    obtain ⟨m₀, hm₀, rfl⟩ := hm
    rw [pendingJobs_flush, hm₀]
    exact (h.messages o m₀ hm₀).flush o
  · intro job hjob
    have hhas : ∀ o, s.flush.messages.has o = s.messages.has o := by
      intro o
      unfold OrderedMap.has
      rw [hget, Option.isSome_map]
    rw [hhas]
    unfold RuntimeStream.flush at hjob
    simp only [← append_assoc] at hjob
    rcases mem_append.mp hjob with hjob | hjob
    · exact h.pending job hjob
    · -- a captured job has the content of its message
      obtain ⟨e, he, hcapture⟩ := mem_filterMap.mp hjob
      obtain ⟨hordinal, hcontent⟩ := capture_ordinal hcapture
      have hm := (s.messages.mem_entries_iff e.1 e.2).mp he
      rw [hcontent, hordinal]
      exact ⟨isContent_content (h.messages e.1 e.2 hm).blocks, (OrderedMap.has_iff _ _).mpr ⟨e.2, hm⟩⟩
  · intro job event hrunning
    obtain ⟨m, hm, hevent⟩ := h.running job event hrunning
    refine ⟨RuntimeStream.captured m, by rw [hget, hm]; rfl, ?_⟩
    rw [hevent]
    unfold RuntimeStream.captured
    split <;> rfl
  · intro o ho
    rw [hget, Option.map_eq_none_iff] at ho
    exact h.unstarted o ho

theorem isRunning_running (h : s.running = some (job, event)) (ordinal : Nat) :
    isRunning s ordinal = decide (job.ordinal = ordinal) := by
  unfold isRunning
  rw [h]
  rfl

theorem pendingJobs_running (h : s.running = some (job, event)) (ordinal : Nat) :
    pendingJobs s ordinal = (job :: s.chain).filter fun job => job.ordinal = ordinal := by
  unfold pendingJobs
  rw [h]
  rfl

theorem StreamInv.publishNext (h : StreamInv identity s published) :
    StreamInv identity (s.publishNext identity) published := by
  unfold RuntimeStream.publishNext
  split
  · next job rest hrunning hchain =>
    have hpending : (s.running.map Prod.fst).toList ++ s.chain = job :: rest := by
      rw [hrunning, hchain]
      rfl
    split
    · next message hget =>
      have hidle : ∀ o, isRunning s o = false := by
        intro o
        unfold isRunning
        rw [hrunning]
        rfl
      have hhas : ∀ o m, s.messages.get? o = some m → ∃ m', (s.messages.set job.ordinal
          { message with sequence := message.sequence + 1 }).get? o = some m' := by
        intro o m hm
        rw [OrderedMap.get?_set]
        split
        · exact ⟨_, rfl⟩
        · exact ⟨m, hm⟩
      refine ⟨?_, ?_, ?_, h.sequenced, ?_⟩
      · intro o m hm
        rw [isRunning_running rfl, pendingJobs_running rfl, ← hpending]
        rw [OrderedMap.get?_set] at hm
        split at hm
        · next heq =>
          have hmessage := h.messages o message (heq ▸ hget)
          rw [hidle] at hmessage
          rw [← Option.some.inj hm, decide_eq_true heq.symm]
          exact hmessage.publish
        · next hne =>
          have hmessage := h.messages o m hm
          rw [hidle] at hmessage
          rw [decide_eq_false fun heq => hne heq.symm]
          exact hmessage
      · intro job' hjob'
        obtain ⟨hcontent, hold⟩ := h.pending job' (hpending ▸ hjob')
        obtain ⟨m, hm⟩ := (s.messages.has_iff job'.ordinal).mp hold
        exact ⟨hcontent, (OrderedMap.has_iff _ _).mpr (hhas _ m hm)⟩
      · intro job' event hevent
        obtain ⟨rfl, rfl⟩ := Prod.mk.inj (Option.some.inj hevent)
        exact ⟨_, OrderedMap.get?_set_self _ _ _, rfl⟩
      · intro o ho
        rw [OrderedMap.get?_set] at ho
        split at ho
        · cases ho
        · exact h.unstarted o ho
    · exact h
  · exact h

theorem StreamInv.attempt (h : StreamInv identity s published)
    (hrunning : s.running = some (job, event)) :
    event.seq = ((published job.ordinal).length : Int) + 1 ∧
      event.baseSeq = baseAfter (published job.ordinal) := by
  obtain ⟨message, hget, rfl⟩ := h.running job event hrunning
  have hmessage := h.messages job.ordinal message hget
  have hsequence := hmessage.sequence
  rw [isRunning_running hrunning, decide_eq_true rfl] at hsequence
  rw [baseAfter_eq (h.sequenced job.ordinal).1 hmessage.resync]
  unfold RuntimeStream.eventOf
  simp only [hsequence, Bool.toNat_true]
  refine ⟨by push_cast; rfl, ?_⟩
  split
  · rfl
  · push_cast
    omega

theorem StreamInv.settle (h : StreamInv identity s published)
    (hrunning : s.running = some (job, event)) (succeeded : Bool) :
    StreamInv identity (s.settle job.ordinal succeeded)
      (Function.update published job.ordinal
        (published job.ordinal ++ [{ event := event, succeeded := succeeded }])) := by
  obtain ⟨hseq, hbase⟩ := h.attempt hrunning
  obtain ⟨message, hget, hevent⟩ := h.running job event hrunning
  have hcontent : event.content = job.content := by rw [hevent]; rfl
  have hjob := h.pending job (by rw [hrunning]; exact mem_cons_self)
  unfold RuntimeStream.settle
  rw [hget]
  simp only
  refine ⟨?_, ?_, fun _ _ hnone => absurd hnone (Option.some_ne_none _).symm, ?_, ?_⟩
  · intro o m hm
    show MessageInv false (s.chain.filter fun job => job.ordinal = o) _ _
    have hpending := pendingJobs_running hrunning o
    rw [OrderedMap.get?_set] at hm
    split at hm
    · next heq =>
      subst heq
      have hmessage := h.messages job.ordinal message hget
      rw [isRunning_running hrunning, decide_eq_true rfl, hpending,
        filter_cons_of_pos (by simp)] at hmessage
      rw [← Option.some.inj hm, Function.update_self]
      exact hmessage.settle hcontent
    · next hne =>
      have hother : ¬ job.ordinal = o := fun heq => hne heq.symm
      have hmessage := h.messages o m hm
      rw [isRunning_running hrunning, decide_eq_false hother, hpending,
        filter_cons_of_neg (by simpa using hother)] at hmessage
      rw [Function.update_of_ne hne]
      exact hmessage
  · intro job' hjob'
    obtain ⟨hcontent', hhas⟩ := h.pending job' (mem_append_right _ hjob')
    obtain ⟨m, hm⟩ := (s.messages.has_iff job'.ordinal).mp hhas
    refine ⟨hcontent', ?_⟩
    rw [OrderedMap.has_iff]
    simp only [OrderedMap.get?_set]
    split
    · exact ⟨_, rfl⟩
    · exact ⟨m, hm⟩
  · intro o
    by_cases heq : o = job.ordinal
    · subst heq
      rw [Function.update_self]
      refine ⟨(h.sequenced job.ordinal).1.concat hseq hbase, ?_⟩
      intro p hp
      rcases mem_append.mp hp with hp | hp
      · exact (h.sequenced job.ordinal).2 p hp
      · rw [mem_singleton.mp hp]
        exact hcontent ▸ hjob.1
    · rw [Function.update_of_ne heq]
      exact h.sequenced o
  · intro o ho
    rw [OrderedMap.get?_set] at ho
    split at ho
    · cases ho
    · next hne =>
      rw [Function.update_of_ne hne]
      exact h.unstarted o ho

end OneStep

/-! ## The condition -/

/-- What is stored for a block of an event's message. -/
def storedFor (event : SessionStreamEvent) (delta : PatchDelta) (block : ContentBlock) :
    Option ContentBlock :=
  storedBlock delta (streamBlockSnapshotKey event (streamIndexOr block 0) block)

/-- The table describes a block as the previous content has it: edits are taken
    from a block that stands at its index, at places that can be read, and a
    whole block only goes where the client replaces one. -/
def BlockContinues (previous : List ContentBlock) (stored : Option ContentBlock)
    (block : ContentBlock) : Prop :=
  match diffContentBlocks stored block with
  | some edits =>
      (∃ p ∈ previous, getStreamIndex p = getStreamIndex block ∧
        blockSnapshotIdentity p = blockSnapshotIdentity block) ∧ ∀ e ∈ edits, Readable e.1
  | none => ∀ p ∈ previous, getStreamIndex p = getStreamIndex block →
      blockIdentityCompatible p block = true ∨ isToolBlock block = false

/-- The table describes the previous content: each block that the event has
    again, and each one that it drops, which it must be able to remove. -/
def ContentContinues (delta : PatchDelta) (event : SessionStreamEvent)
    (previous : List ContentBlock) : Prop :=
  (∀ p ∈ previous, (∀ b ∈ event.content, getStreamIndex b ≠ getStreamIndex p) →
    event.replaceContent = true ∧ (storedFor event delta p).isSome = true) ∧
  ∀ b ∈ event.content, BlockContinues previous (storedFor event delta b) b

/-- A publication that succeeds and is no keyframe continues the one before. -/
def Continues (schema : Bool) (s : RuntimeSystem) (action : RuntimeSystem.Action) : Prop :=
  match action, s.stream.running with
  | .settle (.succeeded _), some (job, event) =>
      event.baseSeq ≠ 0 → ContentContinues s.delta (RuntimeSystem.received schema event)
        (lastContent (s.published job.ordinal))
  | _, _ => True

instance (previous : List ContentBlock) (stored : Option ContentBlock) (block : ContentBlock) :
    Decidable (BlockContinues previous stored block) := by
  unfold BlockContinues
  split <;> infer_instance

instance (delta : PatchDelta) (event : SessionStreamEvent) (previous : List ContentBlock) :
    Decidable (ContentContinues delta event previous) :=
  inferInstanceAs (Decidable (_ ∧ _))

instance (schema : Bool) (s : RuntimeSystem) (action : RuntimeSystem.Action) :
    Decidable (Continues schema s action) := by
  unfold Continues
  split <;> infer_instance

/-! ## The clients -/

/-- What holds of a client whatever it was handed. -/
structure ClientInv (identity : StreamIdentity) (published : List Publication)
    (client : SessionPatchState) : Prop where
  seq    : client.patchSeq ≤ published.length
  turn   : client.turnId = none ∧ client.patchSeq = 0 ∨ client.turnId = some identity.turnId
  status : isTerminalPatchStatus client.status = false

/-- The client has the content that was published last, and what the tables
    store of it is right. -/
structure Synced (identity : StreamIdentity) (ordinal : Nat) (delta : PatchDelta)
    (published : List Publication) (client : SessionPatchState) : Prop where
  content : client.contentBlocks = lastContent published
  seq     : client.patchSeq = published.length
  path    : Follows (pathOf delta (messageKeyOf identity ordinal)) client.appendPath
  stored  : ∀ b ∈ lastContent published, ∀ i : Nat, getStreamIndex b = some (i : Rat) →
    storedBlock delta (blockKey identity ordinal i (blockSnapshotIdentity b)) = none ∨
      storedBlock delta (blockKey identity ordinal i (blockSnapshotIdentity b)) = some b

section OneClient

variable {identity : StreamIdentity} {ordinal : Nat} {published : List Publication}
  {client : SessionPatchState} {delta : PatchDelta}

theorem clientInv_init (identity : StreamIdentity) : ClientInv identity [] createIdleState where
  seq := le_refl _
  turn := Or.inl ⟨rfl, rfl⟩
  status := rfl

theorem synced_init (identity : StreamIdentity) (ordinal : Nat) :
    Synced identity ordinal PatchDelta.empty [] createIdleState where
  content := rfl
  seq := rfl
  path := Or.inl rfl
  stored _ h := absurd h not_mem_nil

theorem ClientInv.concat (h : ClientInv identity published client) (p : Publication) :
    ClientInv identity (published ++ [p]) client where
  seq := by
    have hseq := h.seq
    rw [length_append, length_singleton]
    push_cast
    omega
  turn := h.turn
  status := h.status

variable {input : SessionPatchApplyInput}

section

variable (h : ClientInv identity published client) (hturn : input.turnId = some identity.turnId)
  (hseq : input.seq = (published.length : Int) + 1)
include h hturn hseq

theorem ClientInv.refusal_eq_none
    (hbase : input.baseSeq = 0 ∨ input.baseSeq = client.patchSeq) : client.refusal input = none := by
  have hlt : client.patchSeq < input.seq := by
    have hle := h.seq
    omega
  have hterminal : client.isTerminalSameTurn input.turnId = false := by
    simp [SessionPatchState.isTerminalSameTurn, h.status]
  have hknown : client.isDifferentKnownTurn input.turnId = false := by
    unfold SessionPatchState.isDifferentKnownTurn
    rcases h.turn with ⟨hnone, -⟩ | hsame
    · rw [hnone]
      rfl
    · rw [hsame, hturn]
      simp
  have hcurrent : client.currentSeq input = client.patchSeq := by
    simp [SessionPatchState.currentSeq, SessionPatchState.isFreshKnownTurn, hknown]
  unfold SessionPatchState.refusal
  rw [hterminal, hknown, hcurrent]
  simp only [Bool.false_eq_true, if_false, Bool.false_and]
  by_cases hkeyframe : client.isSameTurnKeyframe input = true
  · rw [hkeyframe]
    rfl
  · -- not a keyframe the client knows: it has the base the patch names
    have hpatchSeq : input.baseSeq = client.patchSeq := by
      rcases hbase with hzero | heq
      · rcases h.turn with ⟨-, hstart⟩ | hsame
        · rw [hzero, hstart]
        · refine absurd ?_ hkeyframe
          unfold SessionPatchState.isSameTurnKeyframe
          rw [hsame, hturn]
          simp [SessionPatchState.isTruthy, identity.turnId_ne, hzero, hlt.le]
      · exact heq
    rw [Bool.not_eq_true] at hkeyframe
    rw [hkeyframe, if_neg (by simpa using hlt), if_neg (by simp [hpatchSeq])]

theorem ClientInv.applyPatch (p : Publication) :
    ClientInv identity (published ++ [p]) (client.applyPatch input).2 := by
  unfold SessionPatchState.applyPatch
  split
  · exact h.concat p
  · split
    · exact h.concat p
    · refine ⟨?_, .inr ?_, rfl⟩
      · rw [length_append, length_singleton, hseq]
        push_cast
        exact le_refl _
      · show (input.turnId <|> client.turnId) = _
        rw [hturn]
        rfl

end

theorem Synced.drops (h : Synced identity ordinal delta published client) {delta' : PatchDelta}
    (hdrops : Drops delta delta') : Synced identity ordinal delta' published client where
  content := h.content
  seq := h.seq
  path := h.path.of_none_or (hdrops.paths _)
  stored b hb i hi := by
    rcases hdrops.stored (blockKey identity ordinal i (blockSnapshotIdentity b)) with hnone | hsame
    · exact .inl hnone
    · rw [hsame]
      exact h.stored b hb i hi

theorem Synced.other (h : Synced identity ordinal delta published client) {other : Nat}
    (hother : ordinal ≠ other) {event : SessionStreamEvent} (hevent : OfMessage identity other event)
    (now : Int) :
    Synced identity ordinal (buildPatchOpsForContentDelta event now delta).2 published client where
  content := h.content
  seq := h.seq
  path := by
    refine h.path.of_none_or (pathOf_buildPatch_other now delta ?_)
    rw [hevent.key]
    exact fun heq => hother (messageKeyOf_injective heq)
  stored b hb i hi := by
    rcases stored_build_other now hevent delta hother i (blockSnapshotIdentity b) with
      hnone | hsame
    · exact .inl hnone
    · rw [hsame]
      exact h.stored b hb i hi

end OneClient

section OnePatch

variable {identity : StreamIdentity} {ordinal : Nat} {published : List Publication}
  {client : SessionPatchState} {delta : PatchDelta} {event : SessionStreamEvent}

theorem build_keyframe (hevent : OfMessage identity ordinal event) (hd : Keyed identity delta)
    (now : Int) (hbase : event.baseSeq = 0) :
    ∃ patched,
      applyPatchOpsToBlocks [] (buildPatchOpsForContentDelta event now delta).1 none = some patched ∧
        patched.next = event.content ∧
        Follows (pathOf (buildPatchOpsForContentDelta event now delta).2
          (messageKeyOf identity ordinal)) patched.appendPath := by
  refine applyPatchOpsToBlocks_build hevent hd nodup_nil ?_ ?_ ?_
  · intro b _ i _
    rw [stored_beforeContent_keyframe hevent delta hbase]
    exact nofun
  · exact fun k hk => absurd rfl hk
  · unfold compactionStart startCursor
    rw [if_pos hbase]
    exact .inl rfl

variable {block : ContentBlock} {i : Nat}

theorem storedFor_eq (hevent : OfMessage identity ordinal event)
    (hi : getStreamIndex block = some (i : Rat)) :
    storedFor event delta block =
      storedBlock delta (blockKey identity ordinal i (blockSnapshotIdentity block)) := by
  unfold storedFor
  rw [← blockKey_eq hevent 0 hi]
  rfl

theorem fits_of_continues {previous : List ContentBlock} (hprevious : DistinctIndices previous)
    (hstored : ∀ b ∈ previous, ∀ i : Nat, getStreamIndex b = some (i : Rat) →
      storedBlock delta (blockKey identity ordinal i (blockSnapshotIdentity b)) = none ∨
        storedBlock delta (blockKey identity ordinal i (blockSnapshotIdentity b)) = some b)
    (hi : getStreamIndex block = some (i : Rat))
    (h : BlockContinues previous
      (storedBlock delta (blockKey identity ordinal i (blockSnapshotIdentity block))) block) :
    Fits (storedBlock delta (blockKey identity ordinal i (blockSnapshotIdentity block)))
      (blockAt previous (some (i : Rat))) block := by
  unfold BlockContinues at h
  unfold Fits
  cases hdiff : diffContentBlocks
      (storedBlock delta (blockKey identity ordinal i (blockSnapshotIdentity block))) block with
  | some edits =>
    rw [hdiff] at h
    obtain ⟨⟨p, hp, hindex, hsame⟩, hread⟩ := h
    refine ⟨?_, hread⟩
    have hat : blockAt previous (some (i : Rat)) = some p :=
      (KeyedList.lookup_eq_some_iff getStreamIndex hprevious _ p).mpr ⟨hp, hindex.trans hi⟩
    have hown := hstored p hp i (hindex.trans hi)
    rw [hsame] at hown
    rcases hown with hnone | hown
    · -- there is no difference to nothing
      rw [hnone] at hdiff
      cases hdiff
    · rw [hat, hown]
  | none =>
    rw [hdiff] at h
    intro p hp
    have hindex := KeyedList.key_of_lookup getStreamIndex hp
    exact h p (KeyedList.mem_of_lookup getStreamIndex hp) (hindex.trans hi.symm)

theorem build_continues (hevent : OfMessage identity ordinal event) (hd : Keyed identity delta)
    (now : Int) (hbase : event.baseSeq ≠ 0) (hsynced : Synced identity ordinal delta published client)
    (hcontent : IsContent (lastContent published))
    (h : ContentContinues delta event (lastContent published)) :
    ∃ patched,
      applyPatchOpsToBlocks client.contentBlocks (buildPatchOpsForContentDelta event now delta).1
          client.appendPath = some patched ∧
        patched.next = event.content ∧
        Follows (pathOf (buildPatchOpsForContentDelta event now delta).2
          (messageKeyOf identity ordinal)) patched.appendPath := by
  rw [hsynced.content]
  refine applyPatchOpsToBlocks_build hevent hd hcontent.distinct ?_ ?_ ?_
  · intro b hb i hi
    rw [stored_beforeContent hevent hd hbase hb hi]
    refine fits_of_continues hcontent.distinct hsynced.stored hi ?_
    rw [← storedFor_eq hevent hi]
    exact h.2 b hb
  · -- a dropped block is stored, so its index is among the removed ones
    intro k hheld hdropped
    obtain ⟨p, hp⟩ := Option.ne_none_iff_exists'.mp hheld
    have hmem := KeyedList.mem_of_lookup getStreamIndex hp
    have hindex := KeyedList.key_of_lookup getStreamIndex hp
    obtain ⟨-, i, hi⟩ := hcontent.blocks p hmem
    have hgone : ∀ b ∈ event.content, getStreamIndex b ≠ getStreamIndex p := by
      rw [hindex]
      exact (KeyedList.lookup_eq_none_iff getStreamIndex _ k).mp hdropped
    obtain ⟨hreplace, hstored⟩ := h.1 p hmem hgone
    refine ⟨hreplace, (i : Rat), ?_, by rw [← hindex, hi]⟩
    have hkeyframe : (keyframePart event delta).2 = delta := by
      unfold keyframePart
      rw [if_neg hbase]
    rw [hkeyframe]
    rw [storedFor_eq hevent hi, Option.isSome_iff_exists] at hstored
    obtain ⟨q, hq⟩ := hstored
    obtain ⟨snap, hget, rfl⟩ := Option.map_eq_some_iff.mp hq
    have hsnap := (hd.stored hq).1
    have hnot : (i : Rat) ∉ retainedIndices event := by
      intro hretained
      unfold retainedIndices at hretained
      rw [hevent.snapshot, Option.getD_some] at hretained
      obtain ⟨e, he, heq⟩ := mem_map.mp hretained
      have hin := fst_mem_of_mem_zipIdx he
      obtain ⟨-, j, hj⟩ := hevent.content.blocks e.1 hin
      simp only [streamIndexOr, hj, Option.getD_some] at heq
      exact hgone e.1 hin (by rw [hj, heq, hi])
    unfold removedIndices
    rw [mem_insertionSort, mem_dedup]
    refine mem_filterMap.mpr ⟨_, (delta.streamBlockSnapshots.mem_entries_iff _ _).mpr hget, ?_⟩
    unfold droppedIndex
    simp only [streamIndexOr, hsnap, Option.getD_some]
    exact if_pos ⟨isSnapshotKeyOf_blockKey hevent i _, hnot⟩
  · rcases cursorPath_compactionStart event now delta with hnone | ⟨-, hsame⟩
    · exact .inl hnone
    · rw [hsame, hevent.key]
      exact hsynced.path

theorem Synced.deliver (hclient : ClientInv identity published client)
    (hevent : OfMessage identity ordinal event) (hd : Keyed identity delta) (now : Int)
    {input : SessionPatchApplyInput} (hturn : input.turnId = some identity.turnId)
    (hseq : input.seq = (published.length : Int) + 1) (hinput : input.baseSeq = event.baseSeq)
    (hops : input.ops = (buildPatchOpsForContentDelta event now delta).1)
    (hbase : event.baseSeq = 0 ∨ event.baseSeq = published.length ∧ IsContent (lastContent published) ∧
      Synced identity ordinal delta published client ∧
      ContentContinues delta event (lastContent published))
    {p : Publication} (hp : p.event.content = event.content) :
    Synced identity ordinal (buildPatchOpsForContentDelta event now delta).2 (published ++ [p])
      (client.applyPatch input).2 := by
  have hrefusal : client.refusal input = none := by
    refine hclient.refusal_eq_none hturn hseq ?_
    rw [hinput]
    rcases hbase with hzero | ⟨hlength, -, hsynced, -⟩
    · exact .inl hzero
    · exact .inr (hlength.trans hsynced.seq.symm)
  obtain ⟨patched, hpatched, hnext, hpath⟩ : ∃ patched,
      applyPatchOpsToBlocks (client.base input).1 input.ops (client.base input).2 = some patched ∧
        patched.next = event.content ∧
        Follows (pathOf (buildPatchOpsForContentDelta event now delta).2
          (messageKeyOf identity ordinal)) patched.appendPath := by
    rw [SessionPatchState.base_eq, hinput, hops]
    by_cases hzero : event.baseSeq = 0
    · rw [if_pos hzero]
      exact build_keyframe hevent hd now hzero
    · rw [if_neg hzero]
      obtain ⟨-, hcontent, hsynced, hcontinues⟩ := hbase.resolve_left hzero
      exact build_continues hevent hd now hzero hsynced hcontent hcontinues
  obtain ⟨next, happlied⟩ := SessionPatchState.applyPatch_of_ops hrefusal hpatched
  obtain ⟨-, patched', hpatched', hblocks, hnextSeq, -, -, happend⟩ :=
    SessionPatchState.applyPatch_applied happlied
  rw [hpatched, Option.some.injEq] at hpatched'
  subst hpatched'
  rw [happlied]
  refine ⟨?_, ?_, ?_, ?_⟩
  · rw [lastContent_concat, hp]
    exact hblocks.trans hnext
  · rw [length_append, length_singleton]
    push_cast
    exact hnextSeq.trans hseq
  · rw [happend]
    exact hpath
  · rw [lastContent_concat, hp]
    exact fun b hb i hi => .inr (stored_build_own hevent delta hb hi)

end OnePatch

/-! ## Runs -/

/-- What holds in every run. -/
structure SystemInv (identity : StreamIdentity) (s : RuntimeSystem) : Prop where
  stream  : StreamInv identity s.stream s.published
  keyed   : Keyed identity s.delta
  clients : ∀ ordinal, ClientInv identity (s.published ordinal) (s.clients ordinal)

/-- The clients have what was published last and succeeded. -/
def AllSynced (identity : StreamIdentity) (s : RuntimeSystem) : Prop :=
  ∀ ordinal, Settled (s.published ordinal) →
    Synced identity ordinal s.delta (s.published ordinal) (s.clients ordinal)

theorem systemInv_init (identity : StreamIdentity) : SystemInv identity RuntimeSystem.init where
  stream := streamInv_init identity
  keyed := keyed_empty identity
  clients _ := clientInv_init identity

theorem allSynced_init (identity : StreamIdentity) : AllSynced identity RuntimeSystem.init :=
  fun ordinal _ => synced_init identity ordinal

section OneAction

variable {schema : Bool} {identity : StreamIdentity} {s : RuntimeSystem}

theorem SystemInv.ofMessage (h : SystemInv identity s) (schema : Bool) {job : PublishJob}
    {event : SessionStreamEvent} (hrunning : s.stream.running = some (job, event)) :
    OfMessage identity job.ordinal (RuntimeSystem.received schema event) ∧
      event.turnId = some identity.turnId := by
  obtain ⟨message, -, rfl⟩ := h.stream.running job event hrunning
  have hjob := h.stream.pending job (by rw [hrunning]; exact mem_cons_self)
  exact ⟨OfMessage.of_job hjob.1 schema _ _, rfl⟩

theorem SystemInv.settle (h : SystemInv identity s) (outcome : PublishOutcome) :
    SystemInv identity (RuntimeSystem.settle schema s outcome) := by
  unfold RuntimeSystem.settle
  split
  · exact h
  · next job event hrunning =>
    obtain ⟨hevent, hturn⟩ := h.ofMessage schema hrunning
    obtain ⟨hseq, -⟩ := h.stream.attempt hrunning
    have hkeyed : ∀ now, Keyed identity
        (buildPatchOpsForContentDelta (RuntimeSystem.received schema event) now s.delta).2 :=
      fun now => keyed_build hevent h.keyed
    have hclients : ∀ (p : Publication) (clients : Nat → SessionPatchState),
        ClientInv identity (s.published job.ordinal ++ [p]) (clients job.ordinal) →
        (∀ o, o ≠ job.ordinal → clients o = s.clients o) →
        ∀ o, ClientInv identity (Function.update s.published job.ordinal
          (s.published job.ordinal ++ [p]) o) (clients o) := by
      intro p clients hown hother o
      by_cases heq : o = job.ordinal
      · subst heq
        rw [Function.update_self]
        exact hown
      · rw [Function.update_of_ne heq, hother o heq]
        exact h.clients o
    have hdelivered : ∀ (now : Int) (p : Publication), ∀ o, ClientInv identity
        (Function.update s.published job.ordinal (s.published job.ordinal ++ [p]) o)
        ((RuntimeSystem.publish schema s job.ordinal event now true).clients o) := by
      intro now p
      refine hclients p _ ?_ (fun o hne => Function.update_of_ne hne ..)
      show ClientInv identity _ (Function.update s.clients job.ordinal _ job.ordinal)
      rw [Function.update_self]
      exact (h.clients job.ordinal).applyPatch hturn hseq p
    have hkept : ∀ p : Publication, ∀ o, ClientInv identity
        (Function.update s.published job.ordinal (s.published job.ordinal ++ [p]) o)
        (s.clients o) :=
      fun p => hclients p s.clients ((h.clients job.ordinal).concat p) fun _ _ => rfl
    cases outcome with
    | succeeded now => exact ⟨h.stream.settle hrunning true, hkeyed now, hdelivered now _⟩
    | refused => exact ⟨h.stream.settle hrunning false, h.keyed, hkept _⟩
    | lost now => exact ⟨h.stream.settle hrunning false, hkeyed now, hkept _⟩
    | uncertain now => exact ⟨h.stream.settle hrunning false, hkeyed now, hdelivered now _⟩

theorem SystemInv.step (h : SystemInv identity s) (action : RuntimeSystem.Action) :
    SystemInv identity (RuntimeSystem.step schema identity s action) := by
  cases action with
  | update event =>
    simp only [RuntimeSystem.step]
    split
    · next stream hstream => exact ⟨h.stream.apply hstream, h.keyed, h.clients⟩
    · exact h
  | flush => exact ⟨h.stream.flush, h.keyed, h.clients⟩
  | publishNext => exact ⟨h.stream.publishNext, h.keyed, h.clients⟩
  | settle outcome => exact h.settle outcome
  | expire now => exact ⟨h.stream, h.keyed.drops (drops_pruneExpired now s.delta), h.clients⟩

theorem AllSynced.settle (hsynced : AllSynced identity s) (h : SystemInv identity s)
    {outcome : PublishOutcome} (hcontinues : Continues schema s (.settle outcome)) :
    AllSynced identity (RuntimeSystem.settle schema s outcome) := by
  unfold RuntimeSystem.settle
  split
  · exact hsynced
  · next job event hrunning =>
    obtain ⟨hevent, hturn⟩ := h.ofMessage schema hrunning
    obtain ⟨hseq, hbase⟩ := h.stream.attempt hrunning
    have hother : ∀ (delta : PatchDelta) (clients : Nat → SessionPatchState) (p : Publication),
        (∀ o, o ≠ job.ordinal → clients o = s.clients o) →
        (∀ o, o ≠ job.ordinal → Settled (s.published o) →
          Synced identity o delta (s.published o) (s.clients o)) →
        (p.succeeded = true → Synced identity job.ordinal delta (s.published job.ordinal ++ [p])
          (clients job.ordinal)) →
        ∀ o, Settled (Function.update s.published job.ordinal (s.published job.ordinal ++ [p]) o) →
          Synced identity o delta (Function.update s.published job.ordinal
            (s.published job.ordinal ++ [p]) o) (clients o) := by
      intro delta clients p hclients hothers hown o hsettled
      by_cases heq : o = job.ordinal
      · subst heq
        rw [Function.update_self] at hsettled ⊢
        exact hown ((settled_concat _ p).mp hsettled)
      · rw [Function.update_of_ne heq] at hsettled ⊢
        rw [hclients o heq]
        exact hothers o heq hsettled
    have hbuilt : ∀ now o, o ≠ job.ordinal → Settled (s.published o) → Synced identity o
        (buildPatchOpsForContentDelta (RuntimeSystem.received schema event) now s.delta).2
        (s.published o) (s.clients o) :=
      fun now o hne hsettled => (hsynced o hsettled).other hne hevent now
    have hdelivered : ∀ now o, o ≠ job.ordinal →
        (RuntimeSystem.publish schema s job.ordinal event now true).clients o = s.clients o :=
      fun now o hne => Function.update_of_ne hne ..
    cases outcome with
    | succeeded now =>
      refine hother _ _ _ (hdelivered now) (hbuilt now) fun _ => ?_
      show Synced identity job.ordinal _ _ (Function.update s.clients job.ordinal _ job.ordinal)
      rw [Function.update_self]
      refine Synced.deliver (h.clients job.ordinal) hevent h.keyed now hturn hseq rfl rfl ?_ rfl
      -- a base other than zero is that of a publication that succeeded
      show event.baseSeq = 0 ∨ event.baseSeq = _ ∧ _
      by_cases hzero : event.baseSeq = 0
      · exact .inl hzero
      · have hcontinues := hcontinues
        unfold Continues at hcontinues
        rw [hrunning] at hcontinues
        obtain ⟨message, hget, -⟩ := h.stream.running job event hrunning
        have hmessage := h.stream.messages job.ordinal message hget
        have hsequenced := h.stream.sequenced job.ordinal
        rw [baseAfter_eq hsequenced.1 hmessage.resync] at hbase
        cases hresync : message.resync with
        | true =>
          rw [hresync] at hbase
          exact absurd hbase hzero
        | false =>
          rw [hresync] at hbase
          have hsettled := hmessage.resync.mp hresync
          refine Or.inr ⟨hbase, ?_, hsynced job.ordinal hsettled, hcontinues hzero⟩
          unfold lastContent
          cases hlast : (s.published job.ordinal).getLast? with
          | none => exact ⟨nofun, List.Pairwise.nil⟩
          | some p => exact hsequenced.2 p (mem_of_getLast? hlast)
    | refused =>
      exact hother _ _ _ (fun _ _ => rfl) (fun o _ hsettled => hsynced o hsettled) nofun
    | lost now => exact hother _ _ _ (fun _ _ => rfl) (hbuilt now) nofun
    | uncertain now => exact hother _ _ _ (hdelivered now) (hbuilt now) nofun

theorem AllSynced.step (hsynced : AllSynced identity s) (h : SystemInv identity s)
    {action : RuntimeSystem.Action} (hcontinues : Continues schema s action) :
    AllSynced identity (RuntimeSystem.step schema identity s action) := by
  cases action with
  | update event =>
    simp only [RuntimeSystem.step]
    split
    · exact hsynced
    · exact hsynced
  | flush => exact hsynced
  | publishNext => exact hsynced
  | settle outcome => exact hsynced.settle h hcontinues
  | expire now =>
    exact fun o hsettled => (hsynced o hsettled).drops (drops_pruneExpired now s.delta)

end OneAction

theorem systemInv_after (schema : Bool) (identity : StreamIdentity)
    (actions : List RuntimeSystem.Action) :
    SystemInv identity (RuntimeSystem.after schema identity actions) :=
  Mealy.run_invariant_of_step (fun _ action h => h.step action) (systemInv_init identity) actions

theorem allSynced_after (schema : Bool) (identity : StreamIdentity)
    {actions : List RuntimeSystem.Action}
    (h : (RuntimeSystem.machine schema identity).Meets (Continues schema) RuntimeSystem.init actions) :
    AllSynced identity (RuntimeSystem.after schema identity actions) :=
  (Mealy.run_invariant (C := Continues schema)
    (I := fun s => SystemInv identity s ∧ AllSynced identity s)
    (fun _ action hs hC => ⟨hs.1.step action, hs.2.step hs.1 hC⟩)
    ⟨systemInv_init identity, allSynced_init identity⟩ h).2

/-- The events of a message: those that were published and the one that is
    under way. -/
def attempts (s : RuntimeSystem) (ordinal : Nat) : List SessionStreamEvent :=
  (s.published ordinal).map (·.event) ++
    (s.stream.running.toList.filter fun attempt => attempt.1.ordinal = ordinal).map (·.2)

variable {identity : StreamIdentity} {s : RuntimeSystem}

theorem SystemInv.attempts_sequenced (h : SystemInv identity s) {k : Nat}
    {event : SessionStreamEvent} (hevent : (attempts s ordinal)[k]? = some event) :
    event.seq = (k : Int) + 1 ∧ event.baseSeq = baseAfter ((s.published ordinal).take k) := by
  unfold attempts at hevent
  by_cases hlt : k < (s.published ordinal).length
  · rw [getElem?_append_left (by rwa [length_map]), getElem?_map,
      Option.map_eq_some_iff] at hevent
    obtain ⟨p, hp, rfl⟩ := hevent
    exact (h.stream.sequenced ordinal).1 k p hp
  · rw [getElem?_append_right (by rw [length_map]; omega), length_map] at hevent
    cases hrunning : s.stream.running with
    | none =>
      rw [hrunning] at hevent
      cases hevent
    | some attempt =>
      rw [hrunning, Option.toList_some] at hevent
      by_cases hordinal : attempt.1.ordinal = ordinal
      · subst hordinal
        have hattempt : s.stream.running = some (attempt.1, attempt.2) := hrunning
        obtain ⟨hseq, hbase⟩ := h.stream.attempt hattempt
        rw [filter_cons_of_pos (by simp), filter_nil, map_singleton,
          getElem?_singleton] at hevent
        split at hevent
        · next hk =>
          have hlength : k = (s.published attempt.1.ordinal).length := by omega
          rw [← Option.some.inj hevent, hlength, take_length]
          exact ⟨hseq, hbase⟩
        · cases hevent
      · rw [filter_cons_of_neg (by simpa using hordinal)] at hevent
        cases hevent

theorem SystemInv.clean (h : SystemInv identity s)
    (hget : s.stream.messages.get? ordinal = some message)
    (hdirty : message.dirty = false) (hpending : pendingJobs s.stream ordinal = []) :
    Settled (s.published ordinal) ∧ message.content = lastContent (s.published ordinal) := by
  have hmessage := h.stream.messages ordinal message hget
  refine ⟨?_, ?_⟩
  · rw [← hmessage.resync]
    by_contra hresync
    rcases hmessage.retried (by simpa using hresync) with hretry | hretry
    · rw [hdirty] at hretry
      cases hretry
    · exact hretry hpending
  · rw [hmessage.captured hdirty, hpending]
    rfl

/-- The numbers and bases of the publications of every message. -/
def NumberedRight (s : RuntimeSystem) : Prop :=
  ∀ (ordinal k : Nat) (event : SessionStreamEvent), (attempts s ordinal)[k]? = some event →
    event.seq = (k : Int) + 1 ∧ event.baseSeq = baseAfter ((s.published ordinal).take k)

/-- The clients have the content that was published last and succeeded, and the
    current content of every message of which all was published. -/
def ClientsRight (s : RuntimeSystem) : Prop :=
  ∀ ordinal : Nat,
    (Settled (s.published ordinal) →
      (s.clients ordinal).contentBlocks = lastContent (s.published ordinal)) ∧
    ∀ message : RuntimeMessage, s.stream.messages.get? ordinal = some message →
      message.dirty = false → pendingJobs s.stream ordinal = [] →
        (s.clients ordinal).contentBlocks = message.content

/-- In every run the publications of a message are numbered without gaps, and
    each builds on the one before if that succeeded and is a keyframe
    otherwise.  Where each publication that succeeds continues the one before,
    the clients that are handed the patches have the right content. -/
theorem runtime_stream_sequencing (schema : Bool) (identity : StreamIdentity)
    (actions : List RuntimeSystem.Action) :
    NumberedRight (RuntimeSystem.after schema identity actions) ∧
      ((RuntimeSystem.machine schema identity).Meets (Continues schema) RuntimeSystem.init actions →
        ClientsRight (RuntimeSystem.after schema identity actions)) := by
  have hinv := systemInv_after schema identity actions
  refine ⟨fun ordinal k event hevent => hinv.attempts_sequenced hevent, ?_⟩
  intro hmeets ordinal
  have hsynced := allSynced_after schema identity hmeets
  refine ⟨fun hsettled => (hsynced ordinal hsettled).content, ?_⟩
  intro message hget hdirty hpending
  obtain ⟨hsettled, hcontent⟩ := hinv.clean hget hdirty hpending
  rw [hcontent]
  exact (hsynced ordinal hsettled).content

/-- The ids of a turn. -/
def sampleIdentity : StreamIdentity :=
  { spaceId := "space"
    sessionId := "session"
    turnId := "turn"
    userMessageId := "user"
    turnId_ne := by decide }

/-- A publication that is lost, an update while the retry is under way, and the
    rest of the text. -/
def retriedRun : List RuntimeSystem.Action :=
  [.update (.messageStart 0), .update (.textDelta 0 0 .text "a"), .flush, .publishNext,
    .settle (.succeeded 0), .update (.textDelta 0 0 .text "b"), .flush, .publishNext,
    .settle (.lost 1), .flush, .publishNext, .update (.textDelta 0 1 .thinking "c"),
    .settle (.succeeded 2), .update (.textDelta 0 0 .text "d"), .flush, .publishNext,
    .settle (.succeeded 3)]

theorem runtime_stream_sequencing_retried :
    ((RuntimeSystem.after true sampleIdentity retriedRun).clients 0).contentBlocks =
        lastContent ((RuntimeSystem.after true sampleIdentity retriedRun).published 0) ∧
      lastContent ((RuntimeSystem.after true sampleIdentity retriedRun).published 0) =
        [textBlock 0 "abd", thinkingBlock 1 "c"] :=
  ⟨((runtime_stream_sequencing true sampleIdentity retriedRun).2 (by decide +kernel) 0).1
      (by unfold Settled; decide +kernel),
    by decide +kernel⟩

/-- A block that changes its kind and changes it back. -/
def kindChangeRun : List RuntimeSystem.Action :=
  [.update (.messageStart 0), .update (.textDelta 0 0 .text "a"), .flush, .publishNext,
    .settle (.succeeded 0), .update (.textDelta 0 0 .thinking "b"), .flush, .publishNext,
    .settle (.succeeded 1), .update (.textDelta 0 0 .text "c"), .flush, .publishNext,
    .settle (.succeeded 2)]

/-- The edit is taken from the text block that was stored first; the client has
    the thinking block, and refuses it. -/
theorem kind_change_refused :
    ¬ ∀ (schema : Bool) (identity : StreamIdentity) (actions : List RuntimeSystem.Action),
      ClientsRight (RuntimeSystem.after schema identity actions) := by
  intro h
  have hclient := (h true sampleIdentity kindChangeRun 0).1 (by unfold Settled; decide +kernel)
  exact absurd hclient (by decide +kernel)

end Cohub.Stream
