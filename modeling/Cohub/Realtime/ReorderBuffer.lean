import Mathlib.Data.List.Perm.Subperm
import Cohub.Lib.Mealy
import Cohub.Realtime.Types

/-! # The websocket client's reorder buffer

    `handlePatchEnvelope` of `packages/sdk/src/websocket.ts` hands the patches
    of each stream on in sequence order.  Per stream it keeps the next
    sequence number to hand on and the patches that arrived too early.  A
    keyframe (base 0) starts the stream over and drops what was held; a first
    patch that is no keyframe sets the position to itself; a buffer past its
    limit, or a gap that lasts too long, skips to the earliest held patch. -/

namespace Cohub.Realtime

open List OrderedMap

/-- A `session.turn.patch` envelope as received; `rtSid` is `payload._rt.sid`. -/
structure PatchEnvelope where
  rtSid : Option String
  patch : SessionTurnPatch
  deriving DecidableEq

/-- The patch's sequence number. -/
abbrev PatchEnvelope.seq (e : PatchEnvelope) : Int := e.patch.seq

/-- The sequence number the patch builds on. -/
abbrev PatchEnvelope.baseSeq (e : PatchEnvelope) : Int := e.patch.baseSeq

/-- `PatchStreamBuffer`; `gapTimer` says whether the timer is running. -/
structure PatchStreamBuffer where
  turnId   : Option String
  nextSeq  : Int
  pending  : OrderedMap Int PatchEnvelope
  gapTimer : Bool

/-- `patchStreamBuffers`. -/
abbrev PatchStreamBuffers := OrderedMap String PatchStreamBuffer

/-- `PATCH_STREAM_BUFFER_MAX_PENDING`. -/
def patchStreamBufferMaxPending : Nat := 128

def getPatchStreamBufferKey (e : PatchEnvelope) : Option String :=
  getNonEmptyString e.rtSid <|> getSessionTurnPatchStreamKey e.patch

/-- The loop of `flushPatchStreamBuffer`: hand on the patch at the position
    while there is one.  Every round removes a pending patch, so the number of
    pending patches bounds the rounds. -/
def flushRounds : Nat → PatchStreamBuffer → PatchStreamBuffer × List PatchEnvelope
  | 0, b => (b, [])
  | n + 1, b =>
      match b.pending.get? b.nextSeq with
      | none => (b, [])
      | some e =>
          let later := flushRounds n
            { b with pending := b.pending.delete b.nextSeq, nextSeq := e.seq + 1 }
          (later.1, e :: later.2)

/-- `flushPatchStreamBuffer`; without a key no timer is started. -/
def flushPatchStreamBuffer (b : PatchStreamBuffer) (keyed : Bool) :
    PatchStreamBuffer × List PatchEnvelope :=
  let flushed := flushRounds b.pending.size b
  if flushed.1.pending.size = 0 then ({ flushed.1 with gapTimer := false }, flushed.2)
  else if keyed then ({ flushed.1 with gapTimer := true }, flushed.2)
  else flushed

/-- `Math.min(...buffer.pending.keys())`, absent for no keys. -/
def minKey : List Int → Option Int
  | [] => none
  | k :: rest => some (rest.foldl min k)

/-- `releasePatchStreamGap`: skip to the earliest held patch. -/
def releasePatchStreamGap (b : PatchStreamBuffer) : PatchStreamBuffer × List PatchEnvelope :=
  match minKey b.pending.keys with
  | none => (b, [])
  | some nextSeq => flushPatchStreamBuffer { b with nextSeq := nextSeq } true

/-- The buffer after a patch of its stream, and the patches handed on. -/
def bufferPatch (buffer : Option PatchStreamBuffer) (e : PatchEnvelope) :
    PatchStreamBuffer × List PatchEnvelope :=
  if e.baseSeq = 0 then
    let fresh : PatchStreamBuffer :=
      { turnId := e.patch.turnId, nextSeq := e.seq + 1
        pending := OrderedMap.empty, gapTimer := false }
    let flushed := flushPatchStreamBuffer fresh false
    (flushed.1, e :: flushed.2)
  else match buffer with
    | none =>
        flushPatchStreamBuffer
          { turnId := e.patch.turnId, nextSeq := e.baseSeq + 1
            pending := OrderedMap.empty.set e.seq e, gapTimer := false } true
    | some b =>
        if e.seq < b.nextSeq then (b, [])
        else
          let held := { b with pending := b.pending.set e.seq e }
          if held.pending.size > patchStreamBufferMaxPending then releasePatchStreamGap held
          else flushPatchStreamBuffer held true

/-- `handlePatchEnvelope`: a patch with a bad number or without a stream goes
    straight through. -/
def handlePatchEnvelope (buffers : PatchStreamBuffers) (e : PatchEnvelope) :
    PatchStreamBuffers × List PatchEnvelope :=
  if e.seq < 0 ∨ e.baseSeq < 0 then (buffers, [e])
  else match getPatchStreamBufferKey e with
    | none => (buffers, [e])
    | some key =>
        let after := bufferPatch (buffers.get? key) e
        -- a keyframe's buffer is filed anew, the others stay in place
        let filed := if e.baseSeq = 0 then buffers.delete key else buffers
        (filed.set key after.1, after.2)

/-- What can happen to the buffers: a patch arrives, the gap timer of a stream
    fires, or a message of a turn is persisted. -/
inductive BufferAction where
  | arrive (e : PatchEnvelope)
  | gapTimer (key : String)
  | persisted (turnId : Option String)

/-- One action, with the patches handed to the listeners. -/
def bufferStep (buffers : PatchStreamBuffers) :
    BufferAction → PatchStreamBuffers × List PatchEnvelope
  | .arrive e => handlePatchEnvelope buffers e
  | .gapTimer key =>
      match buffers.get? key with
      | none => (buffers, [])
      | some b =>
          if b.gapTimer then
            let released := releasePatchStreamGap { b with gapTimer := false }
            (buffers.set key released.1, released.2)
          else (buffers, [])
  | .persisted turnId =>
      match turnId with
      | some t =>
          (if t = "" then buffers else buffers.filter fun _ b => b.turnId ≠ some t, [])
      | none => (buffers, [])

def reorderBuffer : Mealy PatchStreamBuffers BufferAction PatchEnvelope := ⟨bufferStep⟩

/-! ## Flushing only hands on what was held -/

variable {P : PatchEnvelope → Prop} {b : PatchStreamBuffer} {buffers : PatchStreamBuffers}
    {k : String}

theorem flushRounds_subset :
    ∀ (n : Nat) (b : PatchStreamBuffer), (∀ s e, b.pending.get? s = some e → P e) →
      (∀ e ∈ (flushRounds n b).2, P e) ∧
        ∀ s e, (flushRounds n b).1.pending.get? s = some e → P e
  | 0, b, h => ⟨by simp [flushRounds], h⟩
  | n + 1, b, h => by
      unfold flushRounds
      split
      · exact ⟨by simp, h⟩
      · next e he =>
        have hrest : ∀ s e', (b.pending.delete b.nextSeq).get? s = some e' → P e' := by
          intro s e' hs
          rw [get?_delete] at hs
          split at hs
          · cases hs
          · exact h s e' hs
        obtain ⟨hout, hheld⟩ := flushRounds_subset n
          { b with pending := b.pending.delete b.nextSeq, nextSeq := e.seq + 1 } hrest
        refine ⟨?_, hheld⟩
        intro e' he'
        rcases mem_cons.mp he' with rfl | he'
        · exact h _ _ he
        · exact hout e' he'

@[simp] theorem flushPatchStreamBuffer_pending (b : PatchStreamBuffer) (keyed : Bool) :
    (flushPatchStreamBuffer b keyed).1.pending = (flushRounds b.pending.size b).1.pending := by
  unfold flushPatchStreamBuffer
  dsimp only
  split
  · rfl
  · split <;> rfl

@[simp] theorem flushPatchStreamBuffer_nextSeq (b : PatchStreamBuffer) (keyed : Bool) :
    (flushPatchStreamBuffer b keyed).1.nextSeq = (flushRounds b.pending.size b).1.nextSeq := by
  unfold flushPatchStreamBuffer
  dsimp only
  split
  · rfl
  · split <;> rfl

@[simp] theorem flushPatchStreamBuffer_out (b : PatchStreamBuffer) (keyed : Bool) :
    (flushPatchStreamBuffer b keyed).2 = (flushRounds b.pending.size b).2 := by
  unfold flushPatchStreamBuffer
  dsimp only
  split
  · rfl
  · split <;> rfl

theorem flushPatchStreamBuffer_subset (h : ∀ s e, b.pending.get? s = some e → P e) (keyed : Bool) :
    (∀ e ∈ (flushPatchStreamBuffer b keyed).2, P e) ∧
      ∀ s e, (flushPatchStreamBuffer b keyed).1.pending.get? s = some e → P e := by
  rw [flushPatchStreamBuffer_out, flushPatchStreamBuffer_pending]
  exact flushRounds_subset _ b h

theorem releasePatchStreamGap_subset (h : ∀ s e, b.pending.get? s = some e → P e) :
    (∀ e ∈ (releasePatchStreamGap b).2, P e) ∧
      ∀ s e, (releasePatchStreamGap b).1.pending.get? s = some e → P e := by
  unfold releasePatchStreamGap
  split
  · exact ⟨by simp, h⟩
  · next nextSeq _ =>
    exact flushPatchStreamBuffer_subset (b := { b with nextSeq := nextSeq }) h true

variable {e : PatchEnvelope}

theorem bufferPatch_subset {buffer : Option PatchStreamBuffer}
    (hbuffer : ∀ b, buffer = some b → ∀ s e, b.pending.get? s = some e → P e) (he : P e) :
    (∀ e' ∈ (bufferPatch buffer e).2, P e') ∧
      ∀ s e', (bufferPatch buffer e).1.pending.get? s = some e' → P e' := by
  have hset : ∀ pending : OrderedMap Int PatchEnvelope,
      (∀ s e', pending.get? s = some e' → P e') →
      ∀ s e', (pending.set e.seq e).get? s = some e' → P e' := by
    intro pending hpending s e' hs
    rw [get?_set] at hs
    split at hs
    · exact Option.some.inj hs ▸ he
    · exact hpending s e' hs
  unfold bufferPatch
  split
  · obtain ⟨hout, hheld⟩ := flushPatchStreamBuffer_subset (P := P)
      (b := { turnId := e.patch.turnId, nextSeq := e.seq + 1
              pending := OrderedMap.empty, gapTimer := false }) (by simp) false
    refine ⟨?_, hheld⟩
    intro e' he'
    rcases mem_cons.mp he' with rfl | he'
    · exact he
    · exact hout e' he'
  · cases buffer with
    | none =>
      exact flushPatchStreamBuffer_subset
        (b := { turnId := e.patch.turnId, nextSeq := e.baseSeq + 1
                pending := OrderedMap.empty.set e.seq e, gapTimer := false })
        (hset _ (by simp)) true
    | some b =>
      have hb := hbuffer b rfl
      dsimp only
      split
      · exact ⟨by simp, hb⟩
      · split
        · exact releasePatchStreamGap_subset (b := { b with pending := b.pending.set e.seq e })
            (hset _ hb)
        · exact flushPatchStreamBuffer_subset
            (b := { b with pending := b.pending.set e.seq e }) (hset _ hb) true

/-! ## Streams do not mix -/

/-- Every held patch belongs to the stream its buffer is filed under. -/
def WellKeyed (buffers : PatchStreamBuffers) : Prop :=
  ∀ k b, buffers.get? k = some b → ∀ s e, b.pending.get? s = some e →
    getPatchStreamBufferKey e = some k

theorem WellKeyed.set (h : WellKeyed buffers)
    (hb : ∀ s e, b.pending.get? s = some e → getPatchStreamBufferKey e = some k) :
    WellKeyed (buffers.set k b) := by
  intro k' b' hb' s e he
  rw [get?_set] at hb'
  split at hb'
  · next hk =>
    cases hb'
    rw [hk]
    exact hb s e he
  · exact h k' b' hb' s e he

theorem WellKeyed.filter (h : WellKeyed buffers)
    (p : String → PatchStreamBuffer → Bool) : WellKeyed (buffers.filter p) := by
  intro k b hb
  rw [get?_filter] at hb
  exact h k b (Option.filter_eq_some_iff.mp hb).1

theorem WellKeyed.arrive (h : WellKeyed buffers) (e : PatchEnvelope) :
    WellKeyed (handlePatchEnvelope buffers e).1 ∧
      ∀ e' ∈ (handlePatchEnvelope buffers e).2,
        getPatchStreamBufferKey e' = getPatchStreamBufferKey e := by
  unfold handlePatchEnvelope
  split
  · exact ⟨h, by simp⟩
  · cases hkey : getPatchStreamBufferKey e with
    | none => exact ⟨h, by simp [hkey]⟩
    | some key =>
      have hbuffer : ∀ b, buffers.get? key = some b → ∀ s e', b.pending.get? s = some e' →
          getPatchStreamBufferKey e' = some key := fun b hb => h key b hb
      obtain ⟨hout, hheld⟩ := bufferPatch_subset
        (P := fun e' => getPatchStreamBufferKey e' = some key) hbuffer hkey
      refine ⟨?_, hout⟩
      dsimp only
      split
      · exact (h.filter _).set hheld
      · exact h.set hheld

theorem WellKeyed.step {buffers : PatchStreamBuffers} (h : WellKeyed buffers)
    (a : BufferAction) : WellKeyed (bufferStep buffers a).1 := by
  cases a with
  | arrive e => exact (h.arrive e).1
  | gapTimer key =>
    unfold bufferStep
    dsimp only
    split
    · exact h
    · next b hb =>
      split
      · exact h.set (releasePatchStreamGap_subset (b := { b with gapTimer := false })
          (fun s e he => h key b hb s e he)).2
      · exact h
  | persisted turnId =>
    unfold bufferStep
    dsimp only
    split
    · split
      · exact h
      · exact h.filter _
    · exact h

theorem wellKeyed_run (actions : List BufferAction) :
    WellKeyed (reorderBuffer.run OrderedMap.empty actions).1 :=
  Mealy.run_invariant_of_step (I := WellKeyed) (fun _ a h => h.step a) (by simp [WellKeyed]) actions

theorem handlePatchEnvelope_get?_ne (h : getPatchStreamBufferKey e ≠ some k) :
    (handlePatchEnvelope buffers e).1.get? k = buffers.get? k := by
  unfold handlePatchEnvelope
  split
  · rfl
  · split
    · rfl
    · next key hkey =>
      have hne : k ≠ key := fun heq => h (by rw [hkey, heq])
      dsimp only
      rw [get?_set_ne _ _ hne]
      split
      · exact get?_delete_ne _ hne
      · rfl

/-! ## One stream in order

    `frames` is the stream as it was published.  The arrived patches with an
    earlier one still missing are exactly the ones the buffer holds. -/

/-- A stream: one key, a keyframe first, and each later patch numbered one
    after the patch it builds on. -/
structure IsPatchStream (k : String) (frames : List PatchEnvelope) : Prop where
  keyed    : ∀ e ∈ frames, getPatchStreamBufferKey e = some k
  keyframe : ∀ e, frames[0]? = some e → e.baseSeq = 0 ∧ 0 < e.seq
  chained  : ∀ i e e', frames[i]? = some e → frames[i + 1]? = some e' →
    e'.baseSeq = e.seq ∧ e'.seq = e'.baseSeq + 1

/-- The patches that have arrived while an earlier one is missing. -/
def outOfOrder (frames arrived : List PatchEnvelope) : List PatchEnvelope :=
  frames.filter fun e => e ∈ arrived ∧ ∃ e' ∈ frames, e'.seq < e.seq ∧ e' ∉ arrived

def ofStream (k : String) (es : List PatchEnvelope) : List PatchEnvelope :=
  es.filter fun e => getPatchStreamBufferKey e = some k

section stream
variable {k : String} {frames : List PatchEnvelope}

/-- The number of the keyframe. -/
def firstSeq (frames : List PatchEnvelope) : Int := (frames.head?.map PatchEnvelope.seq).getD 0

theorem IsPatchStream.numbered (h : IsPatchStream k frames) :
    ∀ (i : Nat) (e : PatchEnvelope), frames[i]? = some e → e.seq = firstSeq frames + i
  | 0, e, he => by
      rw [← head?_eq_getElem?] at he
      simp [firstSeq, he]
  | i + 1, e, he => by
      have hlt : i < frames.length := by
        have := (List.getElem?_eq_some_iff.mp he).1
        omega
      have hprev : frames[i]? = some frames[i] := getElem?_eq_getElem hlt
      have hseq := h.numbered i _ hprev
      obtain ⟨hbase, hnext⟩ := h.chained i _ _ hprev he
      push_cast
      omega

theorem IsPatchStream.firstSeq_pos (h : IsPatchStream k frames) (hne : frames ≠ []) :
    0 < firstSeq frames := by
  cases frames with
  | nil => exact absurd rfl hne
  | cons e rest => exact (h.keyframe e rfl).2

variable {i f : Nat} {e : PatchEnvelope} {arrived : List PatchEnvelope}
    {buffers : PatchStreamBuffers}

theorem IsPatchStream.base_pos (h : IsPatchStream k frames)
    (he : frames[i + 1]? = some e) : 0 < e.baseSeq := by
  have hlt : i < frames.length := by
    have := (List.getElem?_eq_some_iff.mp he).1
    omega
  have hprev : frames[i]? = some frames[i] := getElem?_eq_getElem hlt
  have hpos := h.firstSeq_pos (by rintro rfl; simp at hlt)
  have hseq := h.numbered i _ hprev
  have hbase := (h.chained i _ _ hprev he).1
  omega

theorem IsPatchStream.index_inj (h : IsPatchStream k frames) {j : Nat}
    (hi : frames[i]? = some e) (hj : frames[j]? = some e) : i = j := by
  have h₁ := h.numbered i e hi
  have h₂ := h.numbered j e hj
  omega

/-- The buffer waits for frame `f` and holds the frames of `held`. -/
structure Holds (frames : List PatchEnvelope) (b : PatchStreamBuffer) (f : Nat)
    (held : Nat → Prop) : Prop where
  next    : b.nextSeq = firstSeq frames + f
  pending : ∀ s e, b.pending.get? s = some e ↔
    ∃ i, held i ∧ s = firstSeq frames + i ∧ frames[i]? = some e

theorem holds_flushRounds (h : IsPatchStream k frames) :
    ∀ (n : Nat) (b : PatchStreamBuffer) (f : Nat) (held : Nat → Prop),
      Holds frames b f held → (∀ i, held i → i < frames.length) → b.pending.size ≤ n →
      ∃ g, f ≤ g ∧ (∀ j, f ≤ j → j < g → held j) ∧ ¬ held g ∧
        Holds frames (flushRounds n b).1 g (fun i => held i ∧ (i < f ∨ g ≤ i)) ∧
        (flushRounds n b).2 = (frames.drop f).take (g - f)
  | 0, b, f, held, hb, hheld, hsize => by
      have hempty : ∀ i, ¬ held i := by
        intro i hi
        have hget := (hb.pending _ _).mpr
          ⟨i, hi, rfl, getElem?_eq_getElem (hheld i hi)⟩
        rw [get?_of_size_eq_zero (Nat.le_zero.mp hsize)] at hget
        cases hget
      refine ⟨f, le_refl f, fun j h₁ h₂ => by omega, hempty f, ⟨hb.next, ?_⟩, by
        simp [flushRounds]⟩
      intro s e
      rw [show (flushRounds 0 b).1 = b from rfl, hb.pending]
      constructor
      · rintro ⟨i, hi, -⟩; exact absurd hi (hempty i)
      · rintro ⟨i, ⟨hi, -⟩, -⟩; exact absurd hi (hempty i)
  | n + 1, b, f, held, hb, hheld, hsize => by
      unfold flushRounds
      split
      · next hnone =>
        have hnot : ¬ held f := by
          intro hf
          have hget := (hb.pending _ _).mpr ⟨f, hf, rfl, getElem?_eq_getElem (hheld f hf)⟩
          rw [← hb.next, hnone] at hget
          cases hget
        refine ⟨f, le_refl f, fun j h₁ h₂ => by omega, hnot, ⟨hb.next, ?_⟩, by simp⟩
        intro s e
        rw [hb.pending]
        constructor
        · rintro ⟨i, hi, hs, he⟩; exact ⟨i, ⟨hi, by omega⟩, hs, he⟩
        · rintro ⟨i, ⟨hi, -⟩, hs, he⟩; exact ⟨i, hi, hs, he⟩
      · next e he =>
        obtain ⟨i, hi, hs, hfe⟩ := (hb.pending _ _).mp he
        have hif : i = f := by
          have := hb.next
          omega
        subst hif
        have hseq := h.numbered i e hfe
        -- the frame at the position is handed on; the rest waits for the next one
        have hrest : Holds frames
            { b with pending := b.pending.delete b.nextSeq, nextSeq := e.seq + 1 } (i + 1)
            (fun j => held j ∧ j ≠ i) := by
          refine ⟨by push_cast; omega, ?_⟩
          intro s e'
          rw [get?_delete]
          constructor
          · intro hget
            split at hget
            · cases hget
            · next hne =>
              obtain ⟨j, hj, hsj, hej⟩ := (hb.pending _ _).mp hget
              refine ⟨j, ⟨hj, ?_⟩, hsj, hej⟩
              rintro rfl
              exact hne (hsj.trans hb.next.symm)
          · rintro ⟨j, ⟨hj, hji⟩, hsj, hej⟩
            have hne : s ≠ b.nextSeq := by
              have := hb.next
              omega
            rw [if_neg hne]
            exact (hb.pending _ _).mpr ⟨j, hj, hsj, hej⟩
        have hless := size_delete_lt b.pending he
        obtain ⟨g, hg, hrun, hstop, hafter, hout⟩ := holds_flushRounds h n _ _ _ hrest
          (fun j hj => hheld j hj.1) (by simpa using (by omega))
        refine ⟨g, by omega, ?_, ?_, ⟨hafter.next, ?_⟩, ?_⟩
        · intro j h₁ h₂
          by_cases hj : j = i
          · exact hj ▸ hi
          · exact (hrun j (by omega) h₂).1
        · exact fun hg' => hstop ⟨hg', by omega⟩
        · intro s e'
          rw [hafter.pending]
          constructor
          · rintro ⟨j, ⟨⟨hj, hji⟩, hjg⟩, hrest⟩
            exact ⟨j, ⟨hj, by omega⟩, hrest⟩
          · rintro ⟨j, ⟨hj, hjg⟩, hrest⟩
            exact ⟨j, ⟨⟨hj, by omega⟩, by omega⟩, hrest⟩
        · have hlt : i < frames.length := hheld i hi
          have hcons : frames.drop i = e :: frames.drop (i + 1) := by
            rw [drop_eq_getElem_cons hlt]
            congr 1
            exact Option.some.inj ((getElem?_eq_getElem hlt).symm.trans hfe)
          dsimp only
          rw [hout, hcons, show g - i = (g - (i + 1)) + 1 from by omega, take_succ_cons]

/-- Frames `0 … f - 1` have been handed on, frame `f` has not arrived, and the
    buffer holds what arrived of the later frames. -/
structure InStep (k : String) (frames arrived : List PatchEnvelope)
    (buffers : PatchStreamBuffers) (f : Nat) : Prop where
  bound   : f ≤ frames.length
  before  : ∀ i e, i < f → frames[i]? = some e → e ∈ arrived
  missing : ∀ e, frames[f]? = some e → e ∉ arrived
  buffer  : ∃ b, buffers.get? k = some b ∧
    Holds frames b f fun i => f < i ∧ ∃ e, frames[i]? = some e ∧ e ∈ arrived
  keyed   : WellKeyed buffers

theorem InStep.size_le (h : IsPatchStream k frames)
    (hmissing : ∀ e, frames[f]? = some e → e ∉ arrived)
    (hb : Holds frames b f fun i => f < i ∧ ∃ e, frames[i]? = some e ∧ e ∈ arrived) :
    b.pending.size ≤ (outOfOrder frames arrived).length := by
  have hentry : ∀ s e, (s, e) ∈ b.pending.entries → s = e.seq ∧ e ∈ outOfOrder frames arrived := by
    intro s e hse
    obtain ⟨i, ⟨hi, e', he', harr⟩, hs, he⟩ :=
      (hb.pending s e).mp ((b.pending.mem_entries_iff s e).mp hse)
    obtain rfl : e' = e := Option.some.inj (he'.symm.trans he)
    have hlt : f < frames.length := by
      have := (List.getElem?_eq_some_iff.mp he).1
      omega
    have hf : frames[f]? = some frames[f] := getElem?_eq_getElem hlt
    have hseq := h.numbered i e' he
    have hseqf := h.numbered f _ hf
    refine ⟨by omega, ?_⟩
    unfold outOfOrder
    rw [mem_filter]
    refine ⟨mem_of_getElem? he, ?_⟩
    simp only [decide_eq_true_eq]
    exact ⟨harr, frames[f], getElem_mem hlt, by omega, hmissing _ hf⟩
  have hnodup : (b.pending.entries.map Prod.snd).Nodup := by
    refine List.Nodup.of_map PatchEnvelope.seq ?_
    have hkeys : (b.pending.entries.map Prod.snd).map PatchEnvelope.seq =
        b.pending.entries.map Prod.fst := by
      rw [map_map]
      exact map_congr_left fun x hx => ((hentry x.1 x.2 hx).1).symm
    rw [hkeys]
    exact b.pending.nodup
  have hsub : b.pending.entries.map Prod.snd ⊆ outOfOrder frames arrived := by
    intro e he
    obtain ⟨x, hx, rfl⟩ := mem_map.mp he
    exact (hentry x.1 x.2 hx).2
  have hle := (hnodup.subperm hsub).length_le
  rwa [length_map] at hle

theorem InStep.unchanged {buffers' : PatchStreamBuffers} (hs : InStep k frames arrived buffers f)
    (hget : buffers'.get? k = buffers.get? k) (hkeyed : WellKeyed buffers')
    (hmem : ∀ e' ∈ frames, e' ∈ arrived ++ [e] ↔ e' ∈ arrived) :
    InStep k frames (arrived ++ [e]) buffers' f := by
  refine ⟨hs.bound, ?_, ?_, ?_, hkeyed⟩
  · exact fun i e' hi he' => (hmem e' (mem_of_getElem? he')).mpr (hs.before i e' hi he')
  · exact fun e' he' hin => hs.missing e' he' ((hmem e' (mem_of_getElem? he')).mp hin)
  · obtain ⟨b, hb, hheld⟩ := hs.buffer
    refine ⟨b, by rw [hget, hb], hheld.next, ?_⟩
    intro s e'
    rw [hheld.pending]
    constructor
    · rintro ⟨i, ⟨hi, x, hx, harr⟩, hrest⟩
      exact ⟨i, ⟨hi, x, hx, mem_append_left _ harr⟩, hrest⟩
    · rintro ⟨i, ⟨hi, x, hx, harr⟩, hrest⟩
      exact ⟨i, ⟨hi, x, hx, (hmem x (mem_of_getElem? hx)).mp harr⟩, hrest⟩

theorem InStep.held (h : IsPatchStream k frames) (hs : InStep k frames arrived buffers f)
    (hb : Holds frames b f fun i => f < i ∧ ∃ e, frames[i]? = some e ∧ e ∈ arrived)
    (he : frames[i]? = some e) (hfi : f ≤ i) :
    Holds frames { b with pending := b.pending.set e.seq e } f
      fun j => f ≤ j ∧ ∃ e', frames[j]? = some e' ∧ e' ∈ arrived ++ [e] := by
  refine ⟨hb.next, ?_⟩
  intro s e'
  have hseq := h.numbered i e he
  rw [get?_set]
  constructor
  · intro hget
    split at hget
    · next hse =>
      cases hget
      exact ⟨i, ⟨hfi, e, he, by simp⟩, by omega, he⟩
    · obtain ⟨j, ⟨hj, x, hx, harr⟩, hrest⟩ := (hb.pending s e').mp hget
      exact ⟨j, ⟨by omega, x, hx, mem_append_left _ harr⟩, hrest⟩
  · rintro ⟨j, ⟨hj, x, hx, harr⟩, hsj, hje⟩
    obtain rfl : x = e' := Option.some.inj (hx.symm.trans hje)
    by_cases hij : j = i
    · subst hij
      rw [if_pos (by omega)]
      exact he.symm.trans hje
    · rw [if_neg (by omega)]
      refine (hb.pending s x).mpr ⟨j, ⟨?_, x, hx, ?_⟩, hsj, hje⟩
      · -- the frame at the position has not arrived, so a held one is behind it
        rcases Nat.lt_or_eq_of_le hj with hlt | heq
        · exact hlt
        · subst heq
          rcases mem_append.mp harr with hold | hnew
          · exact absurd hold (hs.missing x hx)
          · rw [mem_singleton] at hnew
            exact absurd (h.index_inj (hnew ▸ hx) he) hij
      · rcases mem_append.mp harr with hold | hnew
        · exact hold
        · rw [mem_singleton] at hnew
          exact absurd (h.index_inj (hnew ▸ hx) he) hij

theorem InStep.arrive (h : IsPatchStream k frames) (hs : InStep k frames arrived buffers f)
    (hown : getPatchStreamBufferKey e = some k → e ∈ frames.tail)
    (hroom : (outOfOrder frames arrived).length < patchStreamBufferMaxPending) :
    ∃ g, f ≤ g ∧ InStep k frames (arrived ++ [e]) (handlePatchEnvelope buffers e).1 g ∧
      ofStream k (handlePatchEnvelope buffers e).2 = (frames.drop f).take (g - f) := by
  obtain ⟨hkeyed, hout⟩ := hs.keyed.arrive e
  by_cases hkey : getPatchStreamBufferKey e = some k
  · obtain ⟨i, hi⟩ := mem_iff_getElem?.mp (hown hkey)
    have he : frames[i + 1]? = some e := by rw [← hi, getElem?_tail]
    have hbase := h.base_pos he
    have hseq := h.numbered _ e he
    have hpos := h.firstSeq_pos (by rintro rfl; simp at he)
    obtain ⟨b, hb, hheld⟩ := hs.buffer
    have hhandle : handlePatchEnvelope buffers e =
        (buffers.set k (bufferPatch (some b) e).1, (bufferPatch (some b) e).2) := by
      unfold handlePatchEnvelope
      rw [if_neg (by omega), hkey]
      dsimp only
      rw [hb, if_neg (by omega)]
    by_cases hold : e.seq < b.nextSeq
    · -- a duplicate of a frame already handed on
      have hpatch : bufferPatch (some b) e = (b, []) := by
        unfold bufferPatch
        rw [if_neg (by omega)]
        dsimp only
        rw [if_pos hold]
      have harr : e ∈ arrived := hs.before (i + 1) e (by have := hheld.next; omega) he
      refine ⟨f, le_refl f, hs.unchanged ?_ hkeyed ?_, ?_⟩
      · rw [hhandle, hpatch, get?_set_self, hb]
      · intro e' _
        simp only [mem_append, mem_singleton]
        exact ⟨fun h' => h'.elim id fun heq => heq ▸ harr, .inl⟩
      · rw [hhandle, hpatch]
        simp [ofStream]
    · have hfi : f ≤ i + 1 := by have := hheld.next; omega
      have hnext := hs.held h hheld he hfi
      have hsize : ¬ (b.pending.set e.seq e).size > patchStreamBufferMaxPending := by
        have h₁ := size_set_le b.pending e.seq e
        have h₂ := InStep.size_le h hs.missing hheld
        omega
      have hpatch : bufferPatch (some b) e =
          flushPatchStreamBuffer { b with pending := b.pending.set e.seq e } true := by
        unfold bufferPatch
        rw [if_neg (by omega)]
        dsimp only
        rw [if_neg hold, if_neg hsize]
      obtain ⟨g, hfg, hrun, hstop, hafter, hflushed⟩ := holds_flushRounds h _ _ _ _ hnext
        (fun j hj => by
          obtain ⟨_, x, hx, _⟩ := hj
          exact (List.getElem?_eq_some_iff.mp hx).1) (le_refl _)
      have houteq : (handlePatchEnvelope buffers e).2 = (frames.drop f).take (g - f) := by
        rw [hhandle, hpatch, flushPatchStreamBuffer_out, hflushed]
      refine ⟨g, hfg, ⟨?_, ?_, ?_, ?_, hkeyed⟩, ?_⟩
      · by_contra hlt
        obtain ⟨-, x, hx, -⟩ := hrun frames.length hs.bound (by omega)
        simp at hx
      · intro j x hj hx
        by_cases hjf : j < f
        · exact mem_append_left _ (hs.before j x hjf hx)
        · obtain ⟨-, y, hy, harr⟩ := hrun j (by omega) hj
          exact Option.some.inj (hy.symm.trans hx) ▸ harr
      · exact fun x hx harr => hstop ⟨hfg, x, hx, harr⟩
      · refine ⟨(bufferPatch (some b) e).1, by rw [hhandle, get?_set_self], ?_⟩
        rw [hpatch]
        refine ⟨by rw [flushPatchStreamBuffer_nextSeq]; exact hafter.next, ?_⟩
        intro s x
        rw [flushPatchStreamBuffer_pending, hafter.pending]
        constructor
        · rintro ⟨j, ⟨⟨hj, y, hy, harr⟩, hjg⟩, hrest⟩
          refine ⟨j, ⟨?_, y, hy, harr⟩, hrest⟩
          rcases lt_trichotomy j g with hlt | heq | hgt
          · omega
          · exact absurd ⟨hfg, y, heq ▸ hy, harr⟩ hstop
          · exact hgt
        · rintro ⟨j, ⟨hj, y, hy, harr⟩, hrest⟩
          exact ⟨j, ⟨⟨by omega, y, hy, harr⟩, by omega⟩, hrest⟩
      · rw [houteq]
        refine filter_eq_self.mpr fun x hx => ?_
        have hxf : x ∈ frames := mem_of_mem_drop (mem_of_mem_take hx)
        simp [h.keyed x hxf]
  · refine ⟨f, le_refl f, hs.unchanged (handlePatchEnvelope_get?_ne hkey) hkeyed ?_, ?_⟩
    · intro e' he'
      simp only [mem_append, mem_singleton]
      refine ⟨fun h' => h'.elim id fun heq => ?_, .inl⟩
      exact absurd (heq ▸ h.keyed e' he') hkey
    · rw [Nat.sub_self, take_zero]
      refine filter_eq_nil_iff.mpr fun x hx => ?_
      rw [hout x hx]
      simpa using hkey

theorem InStep.arrivals (h : IsPatchStream k frames) :
    ∀ (later arrived : List PatchEnvelope) (buffers : PatchStreamBuffers) (f : Nat),
      InStep k frames arrived buffers f →
      (∀ e ∈ later, getPatchStreamBufferKey e = some k → e ∈ frames.tail) →
      (∀ pre e post, later = pre ++ e :: post →
        (outOfOrder frames (arrived ++ pre)).length < patchStreamBufferMaxPending) →
      ∃ g, f ≤ g ∧
        InStep k frames (arrived ++ later) (reorderBuffer.run buffers (later.map .arrive)).1 g ∧
        ofStream k (reorderBuffer.run buffers (later.map .arrive)).2 = (frames.drop f).take (g - f)
  | [], arrived, buffers, f, hs, _, _ => by
      refine ⟨f, le_refl f, by simpa using hs, ?_⟩
      simp [ofStream]
  | e :: later, arrived, buffers, f, hs, hown, hroom => by
      obtain ⟨g₁, hfg₁, hs₁, hout₁⟩ := hs.arrive h (hown e mem_cons_self)
        (by simpa using hroom [] e later rfl)
      obtain ⟨g, hg, hs₂, hout₂⟩ := InStep.arrivals h later (arrived ++ [e]) _ g₁ hs₁
        (fun e' he' => hown e' (mem_cons_of_mem _ he'))
        (fun pre e' post heq => by
          have := hroom (e :: pre) e' post (by rw [heq, cons_append])
          rwa [append_assoc])
      refine ⟨g, by omega, ?_, ?_⟩
      · rw [append_assoc] at hs₂
        exact hs₂
      · rw [map_cons, Mealy.run_cons]
        have hsplit : ∀ xs ys : List PatchEnvelope,
            ofStream k (xs ++ ys) = ofStream k xs ++ ofStream k ys :=
          fun xs ys => filter_append _ _
        rw [hsplit]
        rw [show (reorderBuffer.step buffers (.arrive e)).2 = (handlePatchEnvelope buffers e).2 from rfl,
          hout₁]
        rw [show (reorderBuffer.step buffers (.arrive e)).1 = (handlePatchEnvelope buffers e).1 from rfl,
          hout₂]
        rw [show g - f = (g₁ - f) + (g - g₁) from by omega, take_add, drop_drop,
          show f + (g₁ - f) = g₁ from by omega]

end stream

theorem InStep.keyframe {keyframe : PatchEnvelope} {rest : List PatchEnvelope}
    (h : IsPatchStream k (keyframe :: rest)) (hkeyed : WellKeyed buffers) :
    InStep k (keyframe :: rest) [keyframe] (handlePatchEnvelope buffers keyframe).1 1 ∧
      (handlePatchEnvelope buffers keyframe).2 = [keyframe] := by
  obtain ⟨hbase, hpos⟩ := h.keyframe keyframe rfl
  have hkey := h.keyed keyframe mem_cons_self
  have hpatch : bufferPatch (buffers.get? k) keyframe =
      ({ turnId := keyframe.patch.turnId, nextSeq := keyframe.seq + 1
         pending := OrderedMap.empty, gapTimer := false }, [keyframe]) := by
    unfold bufferPatch
    rw [if_pos hbase]
    rfl
  have hhandle : handlePatchEnvelope buffers keyframe =
      ((buffers.delete k).set k (bufferPatch (buffers.get? k) keyframe).1, [keyframe]) := by
    unfold handlePatchEnvelope
    rw [if_neg (by omega), hkey]
    dsimp only
    rw [if_pos hbase, hpatch]
  have hone : ∀ i e, 1 ≤ i → (keyframe :: rest)[i]? = some e → e ∉ [keyframe] := by
    intro i e hi he hmem
    rw [mem_singleton] at hmem
    have := h.index_inj (hmem ▸ he) (i := i) (j := 0) rfl
    omega
  refine ⟨⟨by simp, ?_, fun e he => hone 1 e (le_refl 1) he, ?_, (hkeyed.arrive keyframe).1⟩, by
    rw [hhandle]⟩
  · intro i e hi he
    have hi0 : i = 0 := by omega
    subst hi0
    simpa using (Option.some.inj he).symm
  · refine ⟨_, by rw [hhandle, get?_set_self], ?_⟩
    rw [hpatch]
    refine ⟨by simp [firstSeq], ?_⟩
    intro s e
    constructor
    · intro hget; cases hget
    · rintro ⟨i, ⟨hi, x, hx, hmem⟩, -⟩
      exact absurd hmem (hone i x (by omega) hx)

/-- **The reorder buffer restores the order.**  Whatever happened before, when
    a stream's keyframe arrives and every later patch of the stream arrives
    after it, in any order, with duplicates and among the patches of other
    streams, and fewer than the limit are ever out of order, then from the
    keyframe on the client hands on the stream's patches exactly once and in
    order. -/
theorem reorder_buffer_in_order {k : String} {keyframe : PatchEnvelope}
    {rest : List PatchEnvelope} (hstream : IsPatchStream k (keyframe :: rest))
    (earlier : List BufferAction) (later : List PatchEnvelope)
    (hown : ∀ e ∈ later, getPatchStreamBufferKey e = some k → e ∈ rest)
    (hall : ∀ e ∈ rest, e ∈ later)
    (hroom : ∀ pre e post, later = pre ++ e :: post →
      (outOfOrder (keyframe :: rest) (keyframe :: pre)).length < patchStreamBufferMaxPending) :
    ofStream k (reorderBuffer.run (reorderBuffer.run OrderedMap.empty earlier).1
      ((keyframe :: later).map .arrive)).2 = keyframe :: rest := by
  obtain ⟨hstart, hfirst⟩ := InStep.keyframe hstream (wellKeyed_run earlier)
  obtain ⟨g, hg, hend, hout⟩ := hstart.arrivals hstream later _ _ _
    (by simpa using hown) (by simpa using hroom)
  have hlength : g = (keyframe :: rest).length := by
    rcases Nat.lt_or_eq_of_le hend.bound with hlt | heq
    · -- a missing frame would have arrived
      have hget : (keyframe :: rest)[g]? = some (keyframe :: rest)[g] := List.getElem?_eq_getElem hlt
      refine absurd ?_ (hend.missing _ hget)
      rcases List.mem_cons.mp (List.getElem_mem hlt) with heq | hmem
      · rw [heq]; simp
      · exact List.mem_append_right _ (hall _ hmem)
    · exact heq
  have hkeyframe : ofStream k [keyframe] = [keyframe] := by
    simp [ofStream, hstream.keyed keyframe List.mem_cons_self]
  rw [List.map_cons, Mealy.run_cons]
  rw [show (reorderBuffer.step (reorderBuffer.run OrderedMap.empty earlier).1 (.arrive keyframe)) =
    handlePatchEnvelope (reorderBuffer.run OrderedMap.empty earlier).1 keyframe from rfl]
  rw [show ∀ xs ys, ofStream k (xs ++ ys) = ofStream k xs ++ ofStream k ys from
    fun xs ys => List.filter_append _ _, hout, hfirst, hkeyframe, hlength]
  simp

/-! ### Arrival orders -/

/-- Patch `seq` of one message, building on the patch before it. -/
def exampleEnvelope (seq : Int) : PatchEnvelope :=
  { rtSid := some "1"
    patch := { spaceId := some "space", sessionId := some "session", turnId := some "t"
               messageId := some "m", messageOrdinal := some 0, sourceMessageId := none
               anchorUserMessageId := none, seq := seq, baseSeq := seq - 1
               ops := [.value (.str "hi")] } }

theorem exampleEnvelope_stream :
    IsPatchStream "1" [exampleEnvelope 1, exampleEnvelope 2, exampleEnvelope 3] := by
  refine ⟨by decide, ?_, ?_⟩
  · intro e he
    cases Option.some.inj he
    decide
  · intro i e e' he he'
    match i with
    | 0 => cases Option.some.inj he; cases Option.some.inj he'; decide
    | 1 => cases Option.some.inj he; cases Option.some.inj he'; decide
    | _ + 2 => cases he'

/-- Keyframe, third patch, second patch, and the third once more. -/
theorem reorder_buffer_in_order_swapped :
    ofStream "1" (reorderBuffer.run OrderedMap.empty
      ([exampleEnvelope 1, exampleEnvelope 3, exampleEnvelope 2, exampleEnvelope 3].map .arrive)).2 =
      [exampleEnvelope 1, exampleEnvelope 2, exampleEnvelope 3] := by
  refine reorder_buffer_in_order exampleEnvelope_stream [] [_, _, _] (by decide) (by decide) ?_
  intro pre e post _
  refine lt_of_le_of_lt (List.length_filter_le _ _) ?_
  decide

/-- A patch that builds on patch 1 but is numbered 3. -/
def exampleSkipping : PatchEnvelope :=
  { exampleEnvelope 3 with patch := { (exampleEnvelope 3).patch with baseSeq := 1 } }

/-- A second patch that overtakes its keyframe is handed on before it, a
    repeated keyframe is handed on again, and a patch numbered two after its
    base is held back. -/
theorem reorder_buffer_overtaken_repeated_or_skipping :
    (reorderBuffer.run OrderedMap.empty
      ([exampleEnvelope 2, exampleEnvelope 1, exampleEnvelope 3].map .arrive)).2 =
        [exampleEnvelope 2, exampleEnvelope 1] ∧
      (reorderBuffer.run OrderedMap.empty
        ([exampleEnvelope 1, exampleEnvelope 2, exampleEnvelope 1].map .arrive)).2 =
        [exampleEnvelope 1, exampleEnvelope 2, exampleEnvelope 1] ∧
      exampleSkipping.baseSeq = (exampleEnvelope 1).seq ∧
      (reorderBuffer.run OrderedMap.empty
        ([exampleEnvelope 1, exampleSkipping].map .arrive)).2 = [exampleEnvelope 1] :=
  ⟨by decide, by decide, rfl, by decide⟩

/-! ## No stream stalls -/

/-- A buffer holds a bounded number of patches, none that is due, and while it
    holds any its timer is running. -/
structure PatchStreamBuffer.Live (b : PatchStreamBuffer) : Prop where
  bounded : b.pending.size ≤ patchStreamBufferMaxPending
  due     : b.pending.get? b.nextSeq = none
  armed   : b.pending.size ≠ 0 → b.gapTimer = true

def AllLive (buffers : PatchStreamBuffers) : Prop := ∀ entry ∈ buffers.entries, entry.2.Live

theorem flushRounds_due (n : Nat) (b : PatchStreamBuffer) (hsize : b.pending.size ≤ n) :
    (flushRounds n b).1.pending.get? (flushRounds n b).1.nextSeq = none ∧
      (flushRounds n b).1.pending.size ≤ b.pending.size ∧
      ((b.pending.get? b.nextSeq).isSome → (flushRounds n b).1.pending.size < b.pending.size) := by
  induction n generalizing b with
  | zero =>
    have hnone := get?_of_size_eq_zero (Nat.le_zero.mp hsize) b.nextSeq
    exact ⟨hnone, Nat.le_refl _, fun hdue => by rw [hnone] at hdue; cases hdue⟩
  | succ n ih =>
    unfold flushRounds
    split
    · next hnone => exact ⟨hnone, Nat.le_refl _, fun hdue => by rw [hnone] at hdue; cases hdue⟩
    · next e he =>
      have hless := size_delete_lt b.pending he
      obtain ⟨hdue, hle, -⟩ := ih { b with pending := b.pending.delete b.nextSeq, nextSeq := e.seq + 1 }
        (Nat.le_of_lt_succ (hless.trans_le hsize))
      exact ⟨hdue, hle.trans hless.le, fun _ => hle.trans_lt hless⟩

theorem live_flushPatchStreamBuffer {keyed : Bool}
    (hkeyed : keyed = true ∨ b.pending.size = 0)
    (hsize : b.pending.size ≤ patchStreamBufferMaxPending ∨
      b.pending.size ≤ patchStreamBufferMaxPending + 1 ∧ (b.pending.get? b.nextSeq).isSome) :
    (flushPatchStreamBuffer b keyed).1.Live := by
  obtain ⟨hdue, hle, hless⟩ := flushRounds_due b.pending.size b (Nat.le_refl _)
  refine ⟨?_, ?_, fun hheld => ?_⟩
  · rw [flushPatchStreamBuffer_pending]
    rcases hsize with hsize | ⟨hsize, hget⟩
    · exact hle.trans hsize
    · exact Nat.le_of_lt_succ ((hless hget).trans_le hsize)
  · rw [flushPatchStreamBuffer_pending, flushPatchStreamBuffer_nextSeq]
    exact hdue
  · rw [flushPatchStreamBuffer_pending] at hheld
    unfold flushPatchStreamBuffer
    rcases hkeyed with rfl | hempty
    · simp [hheld]
    · omega

theorem live_releasePatchStreamGap (hsize : b.pending.size ≤ patchStreamBufferMaxPending + 1) :
    (releasePatchStreamGap b).1.Live := by
  unfold releasePatchStreamGap
  cases hkeys : b.pending.keys with
  | nil =>
    have hempty : b.pending.size = 0 := by rw [← length_keys, hkeys]; rfl
    exact ⟨hempty ▸ Nat.zero_le _, get?_of_size_eq_zero hempty _, fun hheld => absurd hempty hheld⟩
  | cons k rest =>
    -- the earliest patch is handed on, so there is room again
    refine live_flushPatchStreamBuffer (.inl rfl) (.inr ⟨hsize, (b.pending.mem_keys_iff _).mp ?_⟩)
    rw [hkeys]
    exact min?_mem rfl

theorem live_bufferPatch {buffer : Option PatchStreamBuffer} (h : ∀ b, buffer = some b → b.Live)
    (e : PatchEnvelope) : (bufferPatch buffer e).1.Live := by
  unfold bufferPatch
  split
  · exact live_flushPatchStreamBuffer (.inr rfl) (.inl (Nat.zero_le _))
  · split
    · exact live_flushPatchStreamBuffer (.inl rfl)
        (.inl ((size_set_le OrderedMap.empty e.seq e).trans (by decide)))
    · next b =>
      have hsize := (size_set_le b.pending e.seq e).trans (Nat.succ_le_succ (h b rfl).bounded)
      split
      · exact h b rfl
      · dsimp only
        split
        · exact live_releasePatchStreamGap hsize
        · next hroom => exact live_flushPatchStreamBuffer (.inl rfl) (.inl (not_lt.mp hroom))

/-- Whatever is lost, repeated or overtaken, no buffer overflows or stalls. -/
theorem reorder_buffer_live (actions : List BufferAction) :
    AllLive (reorderBuffer.run OrderedMap.empty actions).1 := by
  refine Mealy.run_invariant_of_step (fun s action h => ?_)
    (fun entry hentry => absurd hentry not_mem_nil) actions
  have hbuffer : ∀ key b, s.get? key = some b → b.Live :=
    fun key b hb => h (key, b) ((s.mem_entries_iff key b).mpr hb)
  have hfilter : ∀ p, AllLive (s.filter p) := fun p entry hentry => h entry (mem_of_mem_filter hentry)
  show AllLive (bufferStep s action).1
  unfold bufferStep
  cases action with
  | arrive e =>
    dsimp only
    unfold handlePatchEnvelope
    split
    · exact h
    · split
      · exact h
      · next key _ =>
        refine forall_mem_set ?_ (live_bufferPatch (hbuffer key) e)
        split
        · exact hfilter _
        · exact h
  | gapTimer key =>
    dsimp only
    split
    · exact h
    · next b hb =>
      split
      · have hsize := Nat.le_succ_of_le (hbuffer key b hb).bounded
        exact forall_mem_set h (live_releasePatchStreamGap (b := { b with gapTimer := false }) hsize)
      · exact h
  | persisted turnId =>
    dsimp only
    split
    · split
      · exact h
      · exact hfilter _
    · exact h

end Cohub.Realtime
