import Cohub.Runtime.Restored

/-! # Archives restore what was captured

    `taken` has, for each Turn with an outbox entry, the index in it and the
    bytes that the index stands for.  It is settled once the Turn has a version:
    an entry that a crash left without a version may be written again with
    another index, and then nothing must have the first one any more.  That is
    `PublishesFresh`.

    A recorded index `Rests` on a parent with a version, and so its parent can
    only have been committed as it is. -/

namespace Cohub.Runtime

open Function List Option OrderedMap

open Disk (headPath)

variable {δ : Type} {host : Host δ} {S : Set Bytes}

abbrev Versions (δ : Type) := String → Option (HarnessArchiveIndex δ)

abbrev Taken (δ : Type) := String → Option (HarnessArchiveIndex δ × Bytes)

/-! ## Parents -/

/-- The parent has its version and stands for `before`. -/
def Rests (versions : Versions δ) (taken : Taken δ) (before : Bytes) :
    Option (HarnessArchiveIndex δ) → Prop
  | none => before = []
  | some parent => versions parent.turnId = some parent ∧ taken parent.turnId = some (parent, before)

variable {versions versions' : Versions δ} {taken taken' : Taken δ} {t : String}

/-- Turns with a version keep it, and what they stand for. -/
def Settled (versions versions' : Versions δ) (taken taken' : Taken δ) : Prop :=
  ∀ p i, versions p = some i → versions' p = some i ∧ taken' p = taken p

theorem Settled.refl (versions : Versions δ) (taken : Taken δ) :
    Settled versions versions taken taken :=
  fun _ _ h => ⟨h, rfl⟩

theorem settled_take (taken : Taken δ) (h : versions t = none) (e : HarnessArchiveIndex δ × Bytes) :
    Settled versions versions taken (Function.update taken t (some e)) := by
  intro p i hp
  have hne : p ≠ t := fun heq => by rw [heq, h] at hp; cases hp
  exact ⟨hp, update_of_ne hne _ _⟩

theorem settled_version (taken : Taken δ) (h : versions t = none) (index : HarnessArchiveIndex δ) :
    Settled versions (Function.update versions t (some index)) taken taken := by
  intro p i hp
  have hne : p ≠ t := fun heq => by rw [heq, h] at hp; cases hp
  exact ⟨by rw [update_of_ne hne, hp], rfl⟩

variable {parent : Option (HarnessArchiveIndex δ)}

theorem Rests.settled {before : Bytes} (h : Rests versions taken before parent)
    (hkeep : Settled versions versions' taken taken') : Rests versions' taken' before parent := by
  cases parent with
  | none => exact h
  | some parent =>
    obtain ⟨hversion, htaken⟩ := hkeep _ _ h.1
    exact ⟨hversion, htaken.trans h.2⟩

variable [DecidableEq δ]

/-! ## The invariant -/

/-- The index is a cut of the bytes behind a parent with a version. -/
def Recorded (host : Host δ) (S : Set Bytes) (versions : Versions δ) (taken : Taken δ)
    (index : HarnessArchiveIndex δ) (bytes : Bytes) : Prop :=
  ∃ parent before chunks, Rests versions taken before parent ∧
    Cut host S index parent before bytes chunks

/-- What holds of the disk and the service. -/
structure Stored (host : Host δ) (S : Set Bytes) (taken : Taken δ) (disk : Disk δ)
    (service : Service δ) (captured : String → Option Bytes) : Prop where
  blobs : Addressed.Holds host.sha256 S disk.objects
  objects : ∀ owner, Addressed.Holds host.sha256 S (service.objects owner)
  recorded : ∀ t i b, taken t = some (i, b) → i.turnId = t ∧ Recorded host S disk.versions taken i b
  held : ∀ t i b, taken t = some (i, b) → disk.pending t = some i ∨ service.archives t = some i
  pending : ∀ t i, disk.pending t = some i → ∃ b, taken t = some (i, b)
  versions : ∀ t i, disk.versions t = some i → ∃ b, taken t = some (i, b) ∧ captured t = some b
  captured : ∀ t b, captured t = some b → (disk.versions t).isSome
  heads : ∀ k i, disk.heads k = some i → disk.versions i.turnId = some i
  final : ∀ t i, service.archives t = some i →
    ∃ b rest, taken t = some (i, b) ∧ Chain host S service (i :: rest) b

/-- What holds of a capture of the Turn. -/
def PhaseHolds (host : Host δ) (S : Set Bytes) (versions : Versions δ) (taken : Taken δ)
    (turnId : String) : Phase δ → Prop
  | .started => True
  | .checking saved | .restaging saved | .reheading saved | .heading saved =>
      versions turnId = some saved
  | .opened previous =>
      versions turnId = none ∧ ∀ p, previous = some p → ∃ before, Rests versions taken before (some p)
  | .storing parent bytes segments left =>
      versions turnId = none ∧ bytes ∈ S ∧ (∀ c ∈ left, c ∈ S) ∧
        ∃ before chunks, Rests versions taken before parent ∧ before ++ chunks.flatten = bytes ∧
          segments = segmentsOf host before.length chunks
  | .publishing index bytes =>
      versions turnId = none ∧ index.turnId = turnId ∧ Recorded host S versions taken index bytes
  | .versioning index bytes =>
      versions turnId = none ∧ taken turnId = some (index, bytes)

def Upload.index : Upload δ → HarnessArchiveIndex δ
  | .putting index _ | .recording index | .removing index => index

def Drain.indexes : Drain δ → List (HarnessArchiveIndex δ)
  | .reading _ pending => pending.entries.map (·.2)
  | .sending pending queue current =>
      pending.entries.map (·.2) ++ queue ++ (current.map Upload.index).toList

/-- The index whose commit was acknowledged. -/
def Drain.acknowledged : Drain δ → Option (HarnessArchiveIndex δ)
  | .sending _ _ (some (.recording index)) | .sending _ _ (some (.removing index)) => some index
  | _ => none

structure DrainHolds (taken : Taken δ) (service : Service δ) (d : Drain δ) : Prop where
  indexes      : ∀ i ∈ d.indexes, ∃ b, taken i.turnId = some (i, b)
  acknowledged : ∀ i, d.acknowledged = some i → service.archives i.turnId = some i

/-- What holds of the whole system. -/
structure Archived (host : Host δ) (S : Set Bytes) (taken : Taken δ) (w : World δ) : Prop where
  stored   : Stored host S taken w.disk w.service w.captured
  tasks    : ∀ t task, w.capturing.get? t = some task →
    PhaseHolds host S w.disk.versions taken t task.phase
  draining : ∀ d, w.flushing = some d → DrainHolds taken w.service d

/-- The index whose outbox entry the capture is about to write. -/
def Phase.published : Phase δ → Option (HarnessArchiveIndex δ)
  | .publishing index _ => some index
  | _ => none

/-- When a capture writes its outbox entry, neither the service nor the drain
    has another index of the Turn. -/
def FreshFor (w : World δ) (index : HarnessArchiveIndex δ) : Prop :=
  (∀ i ∈ w.service.archives index.turnId, i = index) ∧
    ∀ d ∈ w.flushing, ∀ i ∈ d.indexes, i.turnId = index.turnId → i = index

/-- The condition on a step: an outbox entry is written by a capture only when
    it is fresh. -/
def PublishesFresh (w : World δ) : Action δ → Prop
  | .advance turnId _ => ∀ task ∈ w.capturing.get? turnId,
      ∀ index ∈ task.phase.published, FreshFor w index
  | _ => True

instance (w : World δ) (index : HarnessArchiveIndex δ) : Decidable (FreshFor w index) :=
  inferInstanceAs (Decidable (_ ∧ _))

instance (w : World δ) : (a : Action δ) → Decidable (PublishesFresh w a)
  | .advance turnId _ => inferInstanceAs (Decidable (∀ task ∈ w.capturing.get? turnId,
      ∀ index ∈ task.phase.published, FreshFor w index))
  | .stage _ _ | .flush _ | .pump _ | .restore _ _ | .crash => isTrue trivial

/-! ## What later steps keep -/

variable {bytes : Bytes} {phase : Phase δ}

theorem Recorded.settled {index : HarnessArchiveIndex δ}
    (h : Recorded host S versions taken index bytes) (hkeep : Settled versions versions' taken taken') :
    Recorded host S versions' taken' index bytes := by
  obtain ⟨parent, before, chunks, hrests, hcut⟩ := h
  exact ⟨parent, before, chunks, hrests.settled hkeep, hcut⟩

theorem PhaseHolds.settled (h : PhaseHolds host S versions taken t phase)
    (hkeep : Settled versions versions' taken taken') (hversion : versions' t = versions t)
    (htaken : taken' t = taken t) : PhaseHolds host S versions' taken' t phase := by
  cases phase with
  | started => trivial
  | checking saved | restaging saved | reheading saved | heading saved => exact hversion.trans h
  | opened previous =>
    refine ⟨hversion.trans h.1, fun p hp => ?_⟩
    obtain ⟨before, hrests⟩ := h.2 p hp
    exact ⟨before, hrests.settled hkeep⟩
  | storing parent bytes segments left =>
    obtain ⟨hnone, hmem, hleft, before, chunks, hrests, hcut⟩ := h
    exact ⟨hversion.trans hnone, hmem, hleft, before, chunks, hrests.settled hkeep, hcut⟩
  | publishing index bytes => exact ⟨hversion.trans h.1, h.2.1, h.2.2.settled hkeep⟩
  | versioning index bytes => exact ⟨hversion.trans h.1, htaken.trans h.2⟩

/-! ## The disk and the service, write by write -/

namespace Stored

variable {disk : Disk δ} {service : Service δ} {captured : String → Option Bytes}
  {index : HarnessArchiveIndex δ} {bytes : Bytes}

section

variable (h : Stored host S taken disk service captured)
include h

theorem turnId_eq (hi : taken t = some (index, bytes)) : index.turnId = t :=
  (h.recorded t index bytes hi).1

theorem cache {objects : δ → Option Bytes} (hobjects : Addressed.Holds host.sha256 S objects) :
    Stored host S taken { disk with objects := objects } service captured :=
  { h with blobs := hobjects }

theorem writePending (hturn : index.turnId = t)
    (hnew : taken' t = some (index, bytes)) (hothers : ∀ t' ≠ t, taken' t' = taken t')
    (hrecorded : Recorded host S disk.versions taken' index bytes)
    (hkeep : Settled disk.versions disk.versions taken taken')
    (hfinal : ∀ i, service.archives t = some i → taken' t = taken t) :
    Stored host S taken' (disk.writePending index) service captured where
  blobs := h.blobs
  objects := h.objects
  recorded := by
    intro t' i b hb
    by_cases ht : t' = t
    · subst ht
      rw [hnew] at hb
      cases hb
      exact ⟨hturn, hrecorded⟩
    · obtain ⟨hid, hold⟩ := h.recorded t' i b (hothers t' ht ▸ hb)
      exact ⟨hid, hold.settled hkeep⟩
  held := by
    intro t' i b hb
    by_cases ht : t' = t
    · subst ht hturn
      rw [hnew] at hb
      cases hb
      exact .inl (update_self _ _ _)
    · refine (h.held t' i b (hothers t' ht ▸ hb)).imp_left fun hpending => ?_
      exact (update_of_ne (hturn ▸ ht) _ _).trans hpending
  pending := by
    intro t' i hp
    by_cases ht : t' = t
    · subst ht hturn
      obtain rfl : index = i := by simpa [Disk.writePending] using hp
      exact ⟨bytes, hnew⟩
    · rw [hothers t' ht]
      exact h.pending t' i ((update_of_ne (hturn ▸ ht) _ _).symm.trans hp)
  versions := by
    intro t' i hv
    obtain ⟨b, hb, hc⟩ := h.versions t' i hv
    exact ⟨b, ((hkeep t' i hv).2).trans hb, hc⟩
  captured := h.captured
  heads := h.heads
  final := by
    intro t' i hi
    obtain ⟨b, rest, hb, hchain⟩ := h.final t' i hi
    refine ⟨b, rest, ?_, hchain⟩
    by_cases ht : t' = t
    · subst ht
      rw [hfinal i hi, hb]
    · rw [hothers t' ht, hb]

theorem restage (hi : taken t = some (index, bytes)) :
    Stored host S taken (disk.writePending index) service captured := by
  obtain ⟨hturn, hrecorded⟩ := h.recorded t index bytes hi
  exact h.writePending hturn hi (fun _ _ => rfl) hrecorded (Settled.refl _ _) fun _ _ => rfl

theorem writeVersion (hnone : disk.versions t = none) (hi : taken t = some (index, bytes)) :
    Stored host S taken (disk.writeVersion index) service
      (Function.update captured t (some bytes)) := by
  have hturn := h.turnId_eq hi
  subst hturn
  have hkeep := settled_version taken hnone index
  refine { h with recorded := ?_, versions := ?_, captured := ?_, heads := ?_ }
  · intro t' i b hb
    obtain ⟨hid, hold⟩ := h.recorded t' i b hb
    exact ⟨hid, hold.settled hkeep⟩
  · intro t' i hv
    by_cases ht : t' = index.turnId
    · subst ht
      obtain rfl : index = i := by simpa [Disk.writeVersion] using hv
      exact ⟨bytes, hi, update_self _ _ _⟩
    · rw [update_of_ne ht]
      exact h.versions t' i ((update_of_ne ht _ _).symm.trans hv)
  · intro t' b hb
    by_cases ht : t' = index.turnId
    · subst ht
      exact isSome_iff_exists.mpr ⟨index, update_self _ _ _⟩
    · rw [update_of_ne ht] at hb
      obtain ⟨i, hv⟩ := isSome_iff_exists.mp (h.captured t' b hb)
      exact isSome_iff_exists.mpr ⟨i, (update_of_ne ht _ _).trans hv⟩
  · intro k i hk
    exact (hkeep _ _ (h.heads k i hk)).1

theorem writeHead (hversion : disk.versions index.turnId = some index) :
    Stored host S taken (disk.writeHead index) service captured := by
  refine { h with heads := ?_ }
  intro k i hk
  by_cases heq : k = headPath index.toHarnessArchive
  · subst heq
    obtain rfl : index = i := by simpa [Disk.writeHead] using hk
    exact hversion
  · exact h.heads k i ((update_of_ne heq _ _).symm.trans hk)

theorem writeReady (index : HarnessArchiveIndex δ) :
    Stored host S taken (disk.writeReady index) service captured :=
  { h with }

theorem removePending (hfinal : service.archives t = some index) :
    Stored host S taken (disk.removePending t) service captured := by
  refine { h with held := ?_, pending := ?_ }
  · intro t' i b hb
    by_cases ht : t' = t
    · subst ht
      obtain ⟨b', rest, hb', -⟩ := h.final t' index hfinal
      rw [hb] at hb'
      cases hb'
      exact .inr hfinal
    · exact (h.held t' i b hb).imp_left (update_of_ne ht _ _).trans
  · intro t' i hp
    by_cases ht : t' = t
    · subst ht
      cases (update_self _ _ _).symm.trans hp
    · exact h.pending t' i ((update_of_ne ht _ _).symm.trans hp)

end

variable {service' : Service δ}

theorem upload (h : Stored host S taken disk service captured) {segment : RuntimeArchiveSegment δ}
    (hsha : host.sha256 bytes = segment.sha256) (hmem : bytes ∈ S)
    (hupload : service.upload host index segment bytes = some service') :
    service'.archives = service.archives ∧ Stored host S taken disk service' captured := by
  unfold Service.upload at hupload
  dsimp only at hupload
  split at hupload
  · obtain rfl := Option.some.inj hupload
    exact ⟨rfl, h⟩
  · split at hupload
    · obtain rfl := Option.some.inj hupload
      refine ⟨rfl, { h with objects := ?_, final := ?_ }⟩
      · intro owner
        by_cases howner : owner = headPath index.toHarnessArchive
        · subst howner
          simpa using (h.objects _).put hsha hmem
        · simpa [howner] using h.objects owner
      · intro t i hi
        obtain ⟨b, rest, hb, hchain⟩ := h.final t i hi
        refine ⟨b, rest, hb, hchain.mono (fun _ _ => id) fun owner d c hc => ?_⟩
        by_cases howner : owner = headPath index.toHarnessArchive
        · subst howner
          simpa using Addressed.put_of_some hc
        · simpa [howner] using hc
    · cases hupload

theorem parent_chain (h : Stored host S taken disk service captured)
    {parent : Option (HarnessArchiveIndex δ)} {before : Bytes}
    (hrests : Rests disk.versions taken before parent)
    (hparent : index.parentTurnId = parent.map (·.turnId))
    (howner : service.validateOwner index = true) :
    ∃ rest, rest.head? = parent ∧ Chain host S service rest before := by
  cases parent with
  | none =>
    subst hrests
    exact ⟨[], rfl, .nil⟩
  | some parent =>
    rw [Service.validateOwner, hparent] at howner
    simp only [map_some] at howner
    split at howner
    · cases howner
    · next stored hstored =>
      have hfinal : service.archives parent.turnId = some stored :=
        (filter_eq_some_iff.mp hstored).1
      obtain ⟨b, rest, hb, hchain⟩ := h.final _ _ hfinal
      rw [hrests.2] at hb
      cases hb
      exact ⟨parent :: rest, rfl, hchain⟩

theorem commit (hS : Addressed.Faithful host.sha256 S) (h : Stored host S taken disk service captured)
    (hi : taken index.turnId = some (index, bytes))
    (hcommit : service.commit host index = some service') :
    service'.archives index.turnId = some index ∧
      (∀ t i, service.archives t = some i → service'.archives t = some i) ∧
        Stored host S taken disk service' captured := by
  unfold Service.commit at hcommit
  split at hcommit
  case isFalse => cases hcommit
  case isTrue hchecks =>
  simp only [Bool.and_eq_true] at hchecks
  obtain ⟨⟨-, howner⟩, hfinalized⟩ := hchecks
  split at hcommit
  case h_1 old hold =>
    obtain rfl := Option.some.inj hcommit
    rw [Service.finalized, hold] at hfinalized
    exact ⟨by rw [hold]; simpa using hfinalized, fun _ _ => id, h⟩
  case h_2 hnone =>
  split at hcommit
  case isFalse => cases hcommit
  case isTrue hexist =>
    obtain rfl := Option.some.inj hcommit
    have hstay : ∀ t i, service.archives t = some i →
        Function.update service.archives index.turnId (some index) t = some i := by
      intro t i ht
      have hne : t ≠ index.turnId := fun heq => by rw [heq, hnone] at ht; cases ht
      rw [update_of_ne hne, ht]
    obtain ⟨-, parent, before, chunks, hrests, hcut⟩ := h.recorded _ _ _ hi
    obtain ⟨rest, hhead, hrest⟩ := h.parent_chain hrests (boundary_parent hcut.boundary) howner
    have hobjects : ∀ c ∈ chunks,
        service.objects (headPath index.toHarnessArchive) (host.sha256 c) = some c := by
      intro c hc
      obtain ⟨segment, hmem, hsha⟩ := exists_segment host hc before.length
      have hthere := List.all_eq_true.mp hexist segment (hcut.segments ▸ hmem)
      cases hobject : service.objects (headPath index.toHarnessArchive) segment.sha256 with
      | none => simp [Service.segmentExists, hobject] at hthere
      | some object =>
        rw [hsha] at hobject
        rw [hobject, (h.objects _).eq hS (hcut.chunk_mem hS hc) hobject]
    have hfresh : ∀ i ∈ rest, i.turnId ≠ index.turnId := by
      intro i hi heq
      have := hrest.final i hi
      rw [heq, hnone] at this
      cases this
    have hchain : Chain host S { service with
        archives := Function.update service.archives index.turnId (some index) }
        (index :: rest) bytes :=
      .cons (hrest.mono hstay fun _ _ _ => id) (hhead ▸ hcut) (update_self _ _ _) hobjects hfresh
    refine ⟨update_self _ _ _, hstay, { h with held := ?_, final := ?_ }⟩
    · intro t i b hb
      exact (h.held t i b hb).imp_right (hstay t i)
    · intro t i ht
      by_cases heq : t = index.turnId
      · subst heq
        obtain rfl : index = i := by simpa using ht
        exact ⟨bytes, rest, hi, hchain⟩
      · obtain ⟨b, rest', hb, hold⟩ := h.final t i ((update_of_ne heq _ _).symm.trans ht)
        exact ⟨b, rest', hb, hold.mono hstay fun _ _ _ => id⟩

end Stored

/-! ## The drain -/

/-- What a step of the drain leaves, from a disk with these versions. -/
def Drained (host : Host δ) (S : Set Bytes) (taken : Taken δ) (captured : String → Option Bytes)
    (versions : Versions δ) (result : Disk δ × Service δ × Option (Drain δ)) : Prop :=
  result.1.versions = versions ∧ Stored host S taken result.1 result.2.1 captured ∧
    ∀ d, result.2.2 = some d → DrainHolds taken result.2.1 d

variable {disk : Disk δ} {service service' : Service δ} {captured : String → Option Bytes}

theorem Stored.drained (h : Stored host S taken disk service captured) (d : Option (Drain δ))
    (hd : ∀ d', d = some d' → DrainHolds taken service d') :
    Drained host S taken captured disk.versions (disk, service, d) :=
  ⟨rfl, h, hd⟩

variable {d : Drain δ}

omit [DecidableEq δ] in
theorem DrainHolds.next {d' : Drain δ} (hd : DrainHolds taken service d)
    (hindexes : ∀ i ∈ d'.indexes, i ∈ d.indexes)
    (hacknowledged : ∀ i, d'.acknowledged = some i → service'.archives i.turnId = some i) :
    DrainHolds taken service' d' where
  indexes i hi := hd.indexes i (hindexes i hi)
  acknowledged := hacknowledged

variable {pending : OrderedMap String (HarnessArchiveIndex δ)}

theorem drain_reading (h : Stored host S taken disk service captured) {names : List String}
    (hd : DrainHolds taken service (.reading names pending)) (answer : Answer) :
    Drained host S taken captured disk.versions
      (drain host disk service answer (.reading names pending)) := by
  cases names with
  | nil =>
    rw [drain]
    split
    · exact h.drained _ (by simp)
    · refine h.drained _ fun d' hd' => ?_
      obtain rfl := Option.some.inj hd'
      refine hd.next ?_ (by simp [Drain.acknowledged])
      intro i hi
      simp only [Drain.indexes, Drain.roots, map_none, toList_none, append_nil,
        mem_append, mem_filter] at hi ⊢
      exact hi.elim id (·.1)
  | cons name names =>
    rw [drain]
    cases hread : disk.pending name with
    | none =>
      refine h.drained _ fun d' hd' => ?_
      obtain rfl := Option.some.inj hd'
      exact hd.next (fun _ => id) (by simp [Drain.acknowledged])
    | some index =>
      refine h.drained _ fun d' hd' => ?_
      obtain rfl := Option.some.inj hd'
      obtain ⟨b, hb⟩ := h.pending name index hread
      have hturn := h.turnId_eq hb
      refine ⟨?_, by simp [Drain.acknowledged]⟩
      intro i hi
      obtain ⟨e, he, rfl⟩ := List.mem_map.mp hi
      rcases (mem_entries_set _ _ _ e).mp he with rfl | ⟨-, hold⟩
      · exact ⟨b, hturn ▸ hb⟩
      · exact hd.indexes _ (List.mem_map.mpr ⟨e, hold, rfl⟩)

variable {queue queue' : List (HarnessArchiveIndex δ)}

omit [DecidableEq δ] in
theorem DrainHolds.idle {current : Option (Upload δ)}
    (hd : DrainHolds taken service (.sending pending queue current))
    (hqueue : ∀ i ∈ queue', i ∈ queue ∨ i ∈ pending.entries.map (·.2)) :
    ∀ d, some (Drain.sending pending queue' none) = some d → DrainHolds taken service' d := by
  intro d h
  obtain rfl := Option.some.inj h
  refine hd.next ?_ (by simp [Drain.acknowledged])
  intro i hi
  simp only [Drain.indexes, map_none, toList_none, append_nil,
    mem_append] at hi ⊢
  rcases hi with hi | hi
  · exact .inl (.inl hi)
  · exact .inl ((hqueue i hi).symm)

omit [DecidableEq δ] in
theorem DrainHolds.current {current : Option (Upload δ)} {upload : Upload δ}
    (hd : DrainHolds taken service (.sending pending queue current))
    (hqueue : ∀ i ∈ queue', i ∈ queue)
    (hupload : upload.index ∈ queue ∨ current.map Upload.index = some upload.index)
    (hacknowledged : ∀ i, (Drain.sending pending queue' (some upload)).acknowledged = some i →
      service'.archives i.turnId = some i) :
    ∀ d, some (Drain.sending pending queue' (some upload)) = some d →
      DrainHolds taken service' d := by
  intro d h
  obtain rfl := Option.some.inj h
  refine hd.next ?_ hacknowledged
  intro i hi
  simp only [Drain.indexes, map_some, toList_some, mem_append,
    mem_singleton] at hi
  simp only [Drain.indexes, mem_append, mem_toList]
  rcases hi with (hi | hi) | rfl
  · exact .inl (.inl hi)
  · exact .inl (.inr (hqueue i hi))
  · exact hupload.imp_left .inr

variable {pending : OrderedMap String (HarnessArchiveIndex δ)} {queue : List (HarnessArchiveIndex δ)}
  {index : HarnessArchiveIndex δ}

theorem prepareNext_drained (h : Stored host S taken disk service captured)
    (hd : DrainHolds taken service (.sending pending (index :: queue) none)) (answer : Answer) :
    Drained host S taken captured disk.versions
      (prepareNext host disk service answer pending index queue) := by
  have hidle := h.drained _ (DrainHolds.idle hd fun i hi => .inl (mem_cons_of_mem index hi))
  unfold prepareNext
  split
  · split
    · exact h.drained _ (hd.current (fun i => mem_cons_of_mem _) (.inl mem_cons_self)
        (by simp [Drain.acknowledged]))
    · exact hidle
  · exact hidle

variable {segment : RuntimeArchiveSegment δ}

theorem readSegment_spec {objects : δ → Option Bytes} (h : Addressed.Holds host.sha256 S objects)
    (hread : readSegment host objects segment = some bytes) :
    host.sha256 bytes = segment.sha256 ∧ bytes ∈ S :=
  h _ _ (filter_eq_some_iff.mp hread).1

theorem putSegment_drained (h : Stored host S taken disk service captured)
    {uploads : List (RuntimeArchiveSegment δ)}
    (hd : DrainHolds taken service (.sending pending queue (some (.putting index (segment :: uploads)))))
    (answer : Answer) :
    Drained host S taken captured disk.versions
      (putSegment host disk service answer pending queue index segment uploads) := by
  have hidle := h.drained _ (DrainHolds.idle hd fun i => .inl)
  unfold putSegment
  dsimp only
  by_cases hmem : segment ∈ index.segments
  · rw [if_neg (not_not.mpr hmem)]
    cases hread : readSegment host disk.objects segment with
    | none => exact hidle
    | some bytes =>
      obtain ⟨hsha, hbytes⟩ := readSegment_spec h.blobs hread
      dsimp only
      split
      · next service' hupload =>
        exact (h.upload hsha hbytes hupload).2.drained _
          (hd.current (fun i => id) (.inr rfl) (by simp [Drain.acknowledged]))
      · next service' hupload =>
        exact (h.upload hsha hbytes hupload).2.drained _ (DrainHolds.idle hd fun i => .inl)
      · exact hidle
  · rw [if_pos hmem]
    exact hidle

theorem commitIndex_drained (hS : Addressed.Faithful host.sha256 S)
    (h : Stored host S taken disk service captured)
    (hd : DrainHolds taken service (.sending pending queue (some (.putting index []))))
    (answer : Answer) :
    Drained host S taken captured disk.versions
      (commitIndex host disk service answer pending queue index) := by
  obtain ⟨bytes, hi⟩ := hd.indexes index (by simp [Drain.indexes, Upload.index])
  unfold commitIndex
  split
  · next service' hcommit =>
    obtain ⟨hfinal, -, h'⟩ := h.commit hS hi hcommit
    refine h'.drained _ (hd.current (fun i => id) (.inr rfl) ?_)
    intro i hack
    obtain rfl : index = i := Option.some.inj hack
    exact hfinal
  · next service' hcommit =>
    exact (h.commit hS hi hcommit).2.2.drained _ (DrainHolds.idle hd fun i => .inl)
  · exact h.drained _ (DrainHolds.idle hd fun i => .inl)

theorem drain_drained (hS : Addressed.Faithful host.sha256 S)
    (h : Stored host S taken disk service captured) (hd : DrainHolds taken service d)
    (answer : Answer) :
    Drained host S taken captured disk.versions (drain host disk service answer d) := by
  cases d with
  | reading names pending => exact drain_reading h hd answer
  | sending pending queue current =>
    cases current with
    | none =>
      cases queue with
      | nil => exact h.drained _ (by simp)
      | cons index queue => exact prepareNext_drained h hd answer
    | some upload =>
      cases upload with
      | putting index uploads =>
        cases uploads with
        | nil => rw [drain]; exact commitIndex_drained hS h hd answer
        | cons segment uploads => rw [drain]; exact putSegment_drained h hd answer
      | recording index =>
        rw [drain]
        exact ⟨rfl, h.writeReady index, hd.current (fun i => id) (.inr rfl) hd.acknowledged⟩
      | removing index =>
        have hfinal := hd.acknowledged index rfl
        rw [drain]
        refine ⟨rfl, h.removePending hfinal, hd.idle fun i hi => ?_⟩
        exact (mem_append.mp hi).imp_right fun hi => (mem_filter.mp hi).1

/-! ## Captures -/

variable {state : NativeState δ} {file : Bytes} {w : World δ} {turnId : String}

theorem scan_holds (hS : Addressed.Faithful host.sha256 S)
    (h : Stored host S taken disk service captured) {previous : Option (HarnessArchiveIndex δ)}
    (hfile : file ∈ S) (hphase : PhaseHolds host S disk.versions taken t (.opened previous))
    (hscan : scan host state previous file = .next phase) :
    PhaseHolds host S disk.versions taken t phase := by
  unfold scan at hscan
  dsimp only at hscan
  split at hscan
  case isTrue => cases hscan
  case isFalse =>
  split at hscan
  case isTrue => cases hscan
  case isFalse =>
    obtain ⟨hnone, hprevious⟩ := hphase
    obtain rfl := Progress.next.inj hscan
    generalize (state.sizeBytes.getD (file.length : Int)).toNat = sizeBytes
    have hmem : file.take sizeBytes ∈ S :=
      hS.piece file hfile _ (List.take_prefix _ _).isInfix
    generalize hbytes : file.take sizeBytes = bytes at hmem
    have hpieces : ∀ offset, (Addressed.pieces RUNTIME_ARCHIVE_SEGMENT_BYTES bytes.length
        (bytes.drop offset)).flatten = bytes.drop offset := fun offset =>
      Addressed.flatten_pieces (by decide) _ _ (by simp)
    refine ⟨hnone, hmem, fun c hc => ?_, ?_⟩
    · refine hS.piece bytes hmem c ((Addressed.infix_of_mem_flatten hc).trans ?_)
      rw [hpieces]
      exact (drop_suffix _ _).isInfix
    · cases hparent : parentOf host state previous bytes with
      | none => exact ⟨[], _, rfl, by simpa using hpieces 0, rfl⟩
      | some parent =>
        obtain ⟨hhead, hchecks⟩ := filter_eq_some_iff.mp hparent
        simp only [Bool.and_eq_true, decide_eq_true_eq, beq_iff_eq] at hchecks
        obtain ⟨⟨-, hle⟩, hsha⟩ := hchecks
        obtain ⟨before, hrests⟩ := hprevious parent hhead
        obtain ⟨-, _, _, _, -, hcut⟩ := h.recorded _ _ _ hrests.2
        have hprefix : bytes.take parent.sizeBytes = before :=
          hS.eq (hS.piece bytes hmem _ (List.take_prefix _ _).isInfix) hcut.mem (hsha.trans hcut.sha)
        refine ⟨before, Addressed.pieces RUNTIME_ARCHIVE_SEGMENT_BYTES bytes.length
          (bytes.drop parent.sizeBytes), hrests, ?_, ?_⟩
        · rw [hpieces, ← hprefix, take_append_drop]
        · rw [← hcut.size]
          rfl

theorem sealIndex_holds {segments : List (RuntimeArchiveSegment δ)}
    (hphase : PhaseHolds host S versions taken t (.storing parent bytes segments []))
    (hseal : sealIndex host t state parent bytes segments = .next phase) :
    PhaseHolds host S versions taken t phase := by
  obtain ⟨hnone, hmem, -, before, chunks, hrests, hjoined, rfl⟩ := hphase
  unfold sealIndex at hseal
  dsimp only at hseal
  split at hseal
  case isTrue => cases hseal
  case isFalse hvalid =>
  split at hseal
  case h_1 => cases hseal
  case h_2 hboundary =>
  split at hseal
  case isTrue => cases hseal
  case isFalse =>
    obtain rfl := Progress.next.inj hseal
    exact ⟨hnone, rfl, parent, before, chunks, hrests, not_not.mp hvalid, hboundary, hjoined, rfl, rfl,
      rfl, hmem⟩

/-- What a step of the capture of a Turn leaves. -/
structure Advanced (host : Host δ) (S : Set Bytes) (versions : Versions δ) (taken taken' : Taken δ)
    (service : Service δ) (captured : String → Option Bytes) (t : String)
    (result : Disk δ × Progress δ) : Prop where
  stored   : Stored host S taken' result.1 service captured
  settled  : Settled versions result.1.versions taken taken'
  others   : ∀ t' ≠ t, result.1.versions t' = versions t' ∧ taken' t' = taken t'
  phase    : ∀ phase, result.2 = .next phase → PhaseHolds host S result.1.versions taken' t phase
  returned : result.2 = .returned → (captured t).isSome

theorem Stored.advanced {disk' : Disk δ} (h : Stored host S taken disk' service captured)
    (hversions : disk'.versions = disk.versions) (progress : Progress δ)
    (hphase : ∀ phase, progress = .next phase → PhaseHolds host S disk.versions taken t phase)
    (hreturned : progress = .returned → ∃ i, disk.versions t = some i) :
    Advanced host S disk.versions taken taken service captured t (disk', progress) where
  stored := h
  settled := by rw [hversions]; exact Settled.refl _ _
  others t' _ := ⟨by rw [hversions], rfl⟩
  phase := by rw [hversions]; exact hphase
  returned hr := by
    obtain ⟨i, hi⟩ := hreturned hr
    obtain ⟨b, -, hb⟩ := h.versions t i (hversions ▸ hi)
    rw [hb]
    rfl

theorem capture_advanced (hS : Addressed.Faithful host.sha256 S)
    (h : Stored host S taken disk service captured)
    (hfile : file ∈ S) (hphase : PhaseHolds host S disk.versions taken t phase)
    (hpublishing : ∀ index bytes, phase ≠ .publishing index bytes)
    (hversioning : ∀ index bytes, phase ≠ .versioning index bytes) :
    Advanced host S disk.versions taken taken service captured t
      (capture host disk t state file phase) := by
  cases phase with
  | started =>
    rw [capture]
    cases hversion : disk.versions t with
    | none =>
      refine h.advanced rfl _ ?_ (by simp)
      intro phase hnext
      obtain rfl := Progress.next.inj hnext
      refine ⟨hversion, fun p hp => ?_⟩
      have hhead := h.heads _ p hp
      obtain ⟨before, htaken, -⟩ := h.versions _ p hhead
      exact ⟨before, hhead, htaken⟩
    | some saved =>
      dsimp only
      split
      · exact h.advanced rfl _ (by simp) (by simp)
      · split
        · exact h.advanced rfl _ (by simp) (by simp)
        · refine h.advanced rfl _ ?_ (by simp)
          intro phase hnext
          obtain rfl := Progress.next.inj hnext
          exact hversion
  | checking saved =>
    rw [capture]
    split <;> refine h.advanced rfl _ (fun phase hnext => ?_) (by simp)
    all_goals
      obtain rfl := Progress.next.inj hnext
      exact hphase
  | restaging saved =>
    obtain ⟨b, hb, -⟩ := h.versions t saved hphase
    refine (h.restage hb).advanced rfl _ ?_ (by simp)
    intro phase hnext
    obtain rfl := Progress.next.inj hnext
    exact hphase
  | reheading saved =>
    have hversion : disk.versions saved.turnId = some saved := by
      obtain ⟨b, hb, -⟩ := h.versions t saved hphase
      rw [h.turnId_eq hb]
      exact hphase
    rw [capture]
    split
    · exact (h.writeHead hversion).advanced rfl _ (by simp) fun _ => ⟨saved, hphase⟩
    · exact h.advanced rfl _ (by simp) fun _ => ⟨saved, hphase⟩
  | opened previous =>
    refine h.advanced rfl _ (fun phase => scan_holds hS h hfile hphase) ?_
    unfold scan
    dsimp only
    split
    · simp
    · split <;> simp
  | storing parent bytes segments left =>
    cases left with
    | nil =>
      refine h.advanced rfl _ (fun phase => sealIndex_holds hphase) ?_
      unfold sealIndex
      dsimp only
      split
      · simp
      · split
        · simp
        · split <;> simp
    | cons blob left =>
      obtain ⟨hnone, hmem, hleft, hcut⟩ := hphase
      obtain ⟨hblob, hleft⟩ := forall_mem_cons.mp hleft
      refine (h.cache (h.blobs.put rfl hblob)).advanced rfl _ ?_ (by simp)
      intro phase hnext
      obtain rfl := Progress.next.inj hnext
      exact ⟨hnone, hmem, hleft, hcut⟩
  | publishing index bytes => exact absurd rfl (hpublishing index bytes)
  | versioning index bytes => exact absurd rfl (hversioning index bytes)
  | heading index =>
    have hversion : disk.versions index.turnId = some index := by
      obtain ⟨b, hb, -⟩ := h.versions t index hphase
      rw [h.turnId_eq hb]
      exact hphase
    exact (h.writeHead hversion).advanced rfl _ (by simp) fun _ => ⟨index, hphase⟩

theorem version_advanced (h : Stored host S taken disk service captured)
    (hphase : PhaseHolds host S disk.versions taken t (.versioning index bytes)) :
    Advanced host S disk.versions taken taken service (Function.update captured t (some bytes)) t
      (disk.writeVersion index, .next (.heading index)) where
  stored := h.writeVersion hphase.1 hphase.2
  settled := by
    rw [← h.turnId_eq hphase.2] at hphase
    exact settled_version taken hphase.1 index
  others t' ht := ⟨update_of_ne (by rwa [h.turnId_eq hphase.2]) _ _, rfl⟩
  phase phase hnext := by
    obtain rfl := Progress.next.inj hnext
    have hturn := h.turnId_eq hphase.2
    subst hturn
    exact update_self _ _ _
  returned hr := by cases hr

theorem publish_advanced (hS : Addressed.Faithful host.sha256 S)
    (h : Stored host S taken disk service captured)
    (hphase : PhaseHolds host S disk.versions taken t (.publishing index bytes))
    (hfresh : ∀ i, service.archives t = some i → i = index) :
    Advanced host S disk.versions taken (Function.update taken t (some (index, bytes))) service captured t
      (disk.writePending index, .next (.versioning index bytes)) := by
  obtain ⟨hnone, hturn, hrecorded⟩ := hphase
  have hkeep := settled_take taken hnone (index, bytes)
  refine ⟨h.writePending hturn (update_self _ _ _)
    (fun _ ht => update_of_ne ht _ _) (hrecorded.settled hkeep) hkeep ?_, hkeep,
    fun t' ht => ⟨rfl, update_of_ne ht _ _⟩, ?_, by simp⟩
  · intro i hi
    obtain ⟨b, rest, hb, hchain⟩ := h.final t i hi
    obtain rfl := hfresh i hi
    obtain ⟨_, _, _, -, hcut⟩ := hrecorded
    obtain ⟨-, _, _, _, -, hold⟩ := h.recorded t i b hb
    rw [update_self, hb, hcut.bytes_eq hS hold]
  · intro phase hnext
    obtain rfl := Progress.next.inj hnext
    exact ⟨hnone, update_self _ _ _⟩

/-! ## Runs -/

theorem archived_empty (host : Host δ) (S : Set Bytes) :
    Archived host S (fun _ => none) World.empty where
  stored :=
    { blobs := Addressed.holds_empty _ _
      objects := fun _ => Addressed.holds_empty _ _
      recorded := fun _ _ _ h => by cases h
      held := fun _ _ _ h => by cases h
      pending := fun _ _ h => by cases h
      versions := fun _ _ h => by cases h
      captured := fun _ _ h => by cases h
      heads := fun _ _ h => by cases h
      final := fun _ _ h => by cases h }
  tasks := fun _ _ h => by cases h
  draining := fun _ h => by cases h

variable {task : Task δ} {a : Action δ}

theorem Archived.advance (h : Archived host S taken w)
    (hstep : Advanced host S w.disk.versions taken taken' w.service (w.capturedAfter t task.phase) t
      (capture host w.disk t task.state file task.phase))
    (hdrain : ∀ d, w.flushing = some d → DrainHolds taken' w.service d) :
    Archived host S taken' (advance host w t task file).1 := by
  have hothers : ∀ t' other, t' ≠ t → w.capturing.get? t' = some other →
      PhaseHolds host S (capture host w.disk t task.state file task.phase).1.versions taken' t'
        other.phase := fun t' other ht hother =>
    (h.tasks t' other hother).settled hstep.settled (hstep.others t' ht).1 (hstep.others t' ht).2
  unfold Runtime.advance
  dsimp only
  split
  · next phase hnext =>
    refine ⟨hstep.stored, fun t' other hother => ?_, hdrain⟩
    by_cases ht : t' = t
    · subst ht
      obtain rfl := Option.some.inj ((get?_set_self _ _ _).symm.trans hother)
      exact hstep.phase phase hnext
    · exact hothers t' other ht ((get?_set_ne _ _ ht).symm.trans hother)
  all_goals
    refine ⟨hstep.stored, fun t' other hother => ?_, hdrain⟩
    by_cases ht : t' = t
    · subst ht
      cases (get?_delete_self _ _).symm.trans hother
    · exact hothers t' other ht ((get?_delete_ne _ ht).symm.trans hother)

theorem Archived.exists_advanced (hS : Addressed.Faithful host.sha256 S)
    (h : Archived host S taken w) (htask : w.capturing.get? t = some task)
    (hfile : file ∈ S) (hfresh : PublishesFresh w (.advance t file)) :
    ∃ taken', Advanced host S w.disk.versions taken taken' w.service (w.capturedAfter t task.phase) t
        (capture host w.disk t task.state file task.phase) ∧
      ∀ d, w.flushing = some d → DrainHolds taken' w.service d := by
  have hphase := h.tasks t task htask
  have hmine := hfresh task htask
  obtain ⟨state, phase⟩ := task
  cases phase with
  | publishing index bytes =>
    obtain ⟨hnone, hturn, -⟩ := id hphase
    subst hturn
    have hmine := hmine index rfl
    refine ⟨_, publish_advanced hS h.stored hphase hmine.1, fun d hd => ⟨fun i hi => ?_, ?_⟩⟩
    · -- the drain has no other index of this Turn
      by_cases heq : i.turnId = index.turnId
      · rw [hmine.2 d hd i hi heq]
        exact ⟨bytes, update_self _ _ _⟩
      · obtain ⟨b, hb⟩ := (h.draining d hd).indexes i hi
        exact ⟨b, (update_of_ne heq _ _).trans hb⟩
    · exact (h.draining d hd).acknowledged
  | versioning index bytes => exact ⟨taken, version_advanced h.stored hphase, h.draining⟩
  | started | checking | restaging | reheading | opened | storing | heading =>
    exact ⟨taken, capture_advanced hS h.stored hfile hphase (by simp) (by simp), h.draining⟩

/-- The action reads native files of `S` only. -/
def Action.ReadsIn (S : Set Bytes) : Action δ → Prop
  | .advance _ file => file ∈ S
  | _ => True

theorem step_archived (hS : Addressed.Faithful host.sha256 S)
    (h : Archived host S taken w) (hread : a.ReadsIn S) (hfresh : PublishesFresh w a) :
    ∃ taken', Archived host S taken' (step host w a).1 := by
  cases a with
  | stage turnId state =>
    rw [step]
    cases htask : w.capturing.get? turnId with
    | some task => exact ⟨taken, h⟩
    | none =>
      refine ⟨taken, { h with tasks := fun t task ht => ?_ }⟩
      by_cases heq : t = turnId
      · subst heq
        obtain rfl := Option.some.inj ((get?_set_self _ _ _).symm.trans ht)
        trivial
      · exact h.tasks t task ((get?_set_ne _ _ heq).symm.trans ht)
  | advance turnId file =>
    rw [step]
    cases htask : w.capturing.get? turnId with
    | none => exact ⟨taken, h⟩
    | some task =>
      obtain ⟨taken', hstep, hdrain⟩ := h.exists_advanced hS htask hread hfresh
      exact ⟨taken', h.advance hstep hdrain⟩
  | flush names =>
    rw [step]
    cases hd : w.flushing with
    | some d => exact ⟨taken, h⟩
    | none =>
      refine ⟨taken, { h with draining := fun d hd => ?_ }⟩
      obtain rfl := Option.some.inj hd
      exact ⟨fun i hi => (not_mem_nil hi).elim, fun i hi => by cases hi⟩
  | pump answer =>
    rw [step]
    cases hd : w.flushing with
    | none => exact ⟨taken, h⟩
    | some d =>
      obtain ⟨hversions, hstored, hdrain⟩ := drain_drained hS h.stored (h.draining d hd) answer
      exact ⟨taken, hstored, fun t task ht => hversions ▸ h.tasks t task ht, hdrain⟩
  | restore fuel reference =>
    have hcache := restore_holds h.stored.objects h.stored.blobs fuel reference
    exact ⟨taken, { h with stored := h.stored.cache hcache }⟩
  | crash =>
    exact ⟨taken, h.stored, by simp [step], by simp [step]⟩

omit [DecidableEq δ] in
theorem World.capturedAfter_isSome (w : World δ) (t : String) (phase : Phase δ)
    (h : (w.captured turnId).isSome) : (w.capturedAfter t phase turnId).isSome := by
  cases phase with
  | versioning index bytes =>
    by_cases heq : turnId = t
    · simp [World.capturedAfter, heq]
    · simpa [World.capturedAfter, heq] using h
  | _ => exact h

theorem step_captured (host : Host δ) (w : World δ) (a : Action δ)
    (h : (w.captured turnId).isSome) : ((step host w a).1.captured turnId).isSome := by
  cases a with
  | advance t file =>
    rw [step]
    cases w.capturing.get? t with
    | none => exact h
    | some task =>
      have hcaptured := w.capturedAfter_isSome t task.phase h
      unfold advance
      dsimp only
      split <;> exact hcaptured
  | stage t state => rw [step]; split <;> exact h
  | flush names => rw [step]; split <;> exact h
  | pump answer => rw [step]; split <;> exact h
  | restore fuel reference => exact h
  | crash => exact h

theorem step_returned (hS : Addressed.Faithful host.sha256 S)
    (h : Archived host S taken w) (hread : a.ReadsIn S) (hfresh : PublishesFresh w a)
    (hreturned : .returned turnId ∈ (step host w a).2) :
    ((step host w a).1.captured turnId).isSome := by
  cases a with
  | advance t file =>
    rw [step] at hreturned ⊢
    cases htask : w.capturing.get? t with
    | none => simp [htask] at hreturned
    | some task =>
      obtain ⟨taken', hstep, -⟩ := h.exists_advanced hS htask hread hfresh
      simp only [htask] at hreturned ⊢
      unfold advance at hreturned ⊢
      dsimp only at hreturned ⊢
      split at hreturned
      · simp at hreturned
      · next hr =>
        obtain rfl : turnId = t := by simpa using hreturned
        exact hstep.returned hr
      · simp at hreturned
  | stage t state => rw [step] at hreturned; split at hreturned <;> simp at hreturned
  | flush names => rw [step] at hreturned; split at hreturned <;> simp at hreturned
  | pump answer => rw [step] at hreturned; split at hreturned <;> simp at hreturned
  | restore fuel reference => cases hreturned
  | crash => cases hreturned

theorem run_archived (hS : Addressed.Faithful host.sha256 S) {actions : List (Action δ)}
    (hread : ∀ a ∈ actions, a.ReadsIn S)
    (hfresh : (machine host).Meets PublishesFresh World.empty actions) :
    (∃ taken, Archived host S taken ((machine host).run World.empty actions).1) ∧
      ∀ turnId, .returned turnId ∈ ((machine host).run World.empty actions).2 →
        (((machine host).run World.empty actions).1.captured turnId).isSome := by
  refine Mealy.run_history (I := fun w events => (∃ taken, Archived host S taken w) ∧
    ∀ turnId, .returned turnId ∈ events → (w.captured turnId).isSome) ?_
    ⟨⟨_, archived_empty host S⟩, by simp⟩ (hfresh.and_inputs hread)
  rintro w events a ⟨⟨taken, h⟩, hevents⟩ ⟨hread, hfresh⟩
  refine ⟨step_archived hS h hread hfresh, fun turnId hreturned => ?_⟩
  rcases mem_append.mp hreturned with hold | hnew
  · exact step_captured host w a (hevents turnId hold)
  · exact step_returned hS h hread hfresh hnew

/-- In every run in which outbox entries are written fresh: a Turn whose capture
    returned is in the outbox or final, with the bytes that were captured; a
    final index has a final parent; and a restore of it gives its bytes, from
    any cache of segments. -/
theorem archives_restore_exactly (host : Host δ) (S : Set Bytes)
    (hS : Addressed.Faithful host.sha256 S) (actions : List (Action δ))
    (hread : ∀ a ∈ actions, a.ReadsIn S)
    (hfresh : (machine host).Meets PublishesFresh World.empty actions) :
    let w := ((machine host).run World.empty actions).1
    let events := ((machine host).run World.empty actions).2
    (∀ turnId, .returned turnId ∈ events → (w.captured turnId).isSome) ∧
    (∀ turnId bytes, w.captured turnId = some bytes → ∃ index,
      w.disk.versions turnId = some index ∧ index.turnId = turnId ∧
      (w.disk.pending turnId = some index ∨ w.service.archives turnId = some index) ∧
      ∀ final, w.service.archives turnId = some final → final = index) ∧
    (∀ turnId index, w.service.archives turnId = some index →
      (∀ parent, index.parentTurnId = some parent → (w.service.archives parent).isSome) ∧
      ∃ bytes, (∀ taken, w.captured turnId = some taken → taken = bytes) ∧
        ∃ pages, ∀ fuel, pages ≤ fuel → ∀ cache, Addressed.Holds host.sha256 S cache →
          (restore host w.service fuel cache index.toHarnessArchive).2 = .ok (index, bytes)) ∧
    Addressed.Holds host.sha256 S w.disk.objects := by
  intro w events
  obtain ⟨⟨taken, h⟩, hreturned⟩ := run_archived hS hread hfresh
  refine ⟨hreturned, ?_, ?_, h.stored.blobs⟩
  · intro turnId bytes hbytes
    obtain ⟨index, hversion⟩ := Option.isSome_iff_exists.mp (h.stored.captured turnId bytes hbytes)
    obtain ⟨b, hb, -⟩ := h.stored.versions turnId index hversion
    refine ⟨index, hversion, h.stored.turnId_eq hb, h.stored.held turnId index b hb, ?_⟩
    intro final hfinal
    obtain ⟨b', rest, hb', -⟩ := h.stored.final turnId final hfinal
    rw [hb] at hb'
    cases hb'
    rfl
  · intro turnId index hfinal
    obtain ⟨b, rest, hb, hchain⟩ := h.stored.final turnId index hfinal
    refine ⟨?_, b, ?_, rest.length + 1, fun fuel hfuel cache hcache =>
      restore_chain hS hcache hchain hfuel⟩
    · intro parent hparent
      cases hchain with
      | cons hrest hcut =>
        rw [boundary_parent hcut.boundary] at hparent
        obtain ⟨i, hhead, rfl⟩ := Option.map_eq_some_iff.mp hparent
        rw [hrest.final i (List.mem_of_mem_head? hhead)]
        rfl
    · intro c hc
      obtain ⟨i, hversion⟩ := Option.isSome_iff_exists.mp (h.stored.captured turnId c hc)
      obtain ⟨b', hb', hc'⟩ := h.stored.versions turnId i hversion
      rw [hb] at hb'
      cases hb'
      exact Option.some.inj (hc.symm.trans hc')

/-! ## Two runs -/

/-- Digests that are the contents themselves. -/
def plainHost : Host Bytes := ⟨id, id, fun _ => true⟩

def piState : NativeState Bytes := ⟨"s", .pi, "native", none, none⟩

/-- Two Turns are captured, the file growing between them, and uploaded. -/
def grownRun : List (Action Bytes) :=
  .stage "t" piState :: List.replicate 7 (.advance "t" [1]) ++
    .stage "u" piState :: List.replicate 7 (.advance "u" [1, 2]) ++
      .flush ["u", "t"] :: List.replicate 14 (.pump .answered)

theorem archives_restore_exactly_grown :
    (restore plainHost ((machine plainHost).run World.empty grownRun).1.service 2 (fun _ => none)
        ⟨"s", "u", .pi⟩).2.toOption.map (·.2) = some [1, 2] ∧
      ∃ index, ((machine plainHost).run World.empty grownRun).1.disk.versions "u" = some index := by
  obtain ⟨-, hcaptured, -, -⟩ := archives_restore_exactly plainHost Set.univ
    (Addressed.faithful_univ Function.injective_id) grownRun
    (by intro a _; cases a <;> trivial) (by decide +kernel)
  obtain ⟨index, hversion, -⟩ := hcaptured "u" [1, 2] (by decide +kernel)
  exact ⟨by decide +kernel, index, hversion⟩

/-- A crash falls between the outbox entry and the version, the entry is
    uploaded, and the Turn is captured again from a changed file. -/
def crashedRun : List (Action Bytes) :=
  .stage "t" piState :: List.replicate 5 (.advance "t" [1]) ++
    [.crash, .flush ["t"]] ++ List.replicate 7 (.pump .answered) ++
      .stage "t" piState :: List.replicate 7 (.advance "t" [2])

/-- The capture returned, and the restore gives what the file had before. -/
theorem recaptured_restores_other_bytes :
    .returned "t" ∈ ((machine plainHost).run World.empty crashedRun).2 ∧
      ((machine plainHost).run World.empty crashedRun).1.captured "t" = some [2] ∧
        (restore plainHost ((machine plainHost).run World.empty crashedRun).1.service 1 (fun _ => none)
          ⟨"s", "t", .pi⟩).2.toOption.map (·.2) = some [1] := by
  decide +kernel

end Cohub.Runtime
