import Cohub.SpaceFs.Repo

/-! # Fresh listings

    After an invalidation the store has no listing of a directory it covers
    whose fetch began before: what was stored is deleted, and what is stored
    later began with the new epoch.  A tab's memory is cleared when it completes
    or is told of an invalidation, but what it took from the store before may
    still come into its memory afterwards. -/

namespace Cohub.SpaceFs

open Function List Option

variable {ε : Type}

/-! ## Plumbing -/

@[simp] theorem setTab_store (s : World ε) (t : Nat) (tab : Tab ε) : (s.setTab t tab).store = s.store := rfl

@[simp] theorem setTab_history (s : World ε) (t : Nat) (tab : Tab ε) : (s.setTab t tab).history = s.history := rfl

@[simp] theorem setTab_time (s : World ε) (t : Nat) (tab : Tab ε) : (s.setTab t tab).time = s.time := rfl

@[simp] theorem setTab_tabs_self (s : World ε) (t : Nat) (tab : Tab ε) : (s.setTab t tab).tabs t = tab := by
  simp [World.setTab]

variable {t : Nat} {m : Memory ε} {record : Record ε}

@[simp] theorem setTab_tabs_ne (s : World ε) {t' : Nat} (tab : Tab ε) (h : t' ≠ t) :
    (s.setTab t tab).tabs t' = s.tabs t' := by
  simp [World.setTab, h]

@[simp] theorem post_store (s : World ε) (t : Nat) (message : Message) : (s.post t message).store = s.store := rfl

@[simp] theorem post_history (s : World ε) (t : Nat) (message : Message) : (s.post t message).history = s.history := rfl

@[simp] theorem post_time (s : World ε) (t : Nat) (message : Message) : (s.post t message).time = s.time := rfl

variable {e : Dir × Record ε} {dir : Dir} {P : Dir × Record ε → Prop}

theorem mem_dropOldest {n : Nat} (h : e ∈ (m.dropOldest n).entries) : e ∈ m.entries :=
  mem_of_mem_drop h

theorem mem_delete (h : e ∈ (m.delete dir).entries) : e ∈ m.entries :=
  mem_of_mem_filter h

theorem forall_mem_memorySet (h : ∀ e ∈ m.entries, P e)
    (hrecord : P (record.dir, record)) : ∀ e ∈ (memorySet m record).entries, P e := by
  have hdelete : ∀ e ∈ (m.delete record.dir).entries, P e := fun e he => h e (mem_delete he)
  exact fun e he => OrderedMap.forall_mem_set hdelete hrecord e (mem_dropOldest he)

theorem forall_mem_memoryGet (h : ∀ e ∈ m.entries, P e)
    {after : Memory ε} (hget : memoryGet m dir = (some record, after)) :
    P (dir, record) ∧ ∀ e ∈ after.entries, P e := by
  unfold memoryGet at hget
  cases hm : m.get? dir with
  | none => simp [hm] at hget
  | some found =>
    rw [hm] at hget
    simp only [Prod.mk.injEq, Option.some.injEq] at hget
    obtain ⟨rfl, rfl⟩ := hget
    have hfound := h _ ((m.mem_entries_iff dir found).mpr hm)
    exact ⟨hfound, OrderedMap.forall_mem_set (fun e he => h e (mem_delete he)) hfound⟩

/-! ## The invariant -/

/-- No invalidation of the list that covers the directory of a record was after
    its fetch began. -/
def FreshFor (invs : List Invalidation) (record : Record ε) : Prop :=
  ∀ inv ∈ invs, inv.covers record.dir = true → inv.at_ ≤ record.began

/-- An epoch that was read when a fetch began is below that of the store if an
    invalidation of the space was since. -/
structure EpochOk (epochs : String → Nat) (history : List Invalidation) (spaceId : String) (epoch began : Nat) :
    Prop where
  le    : epoch ≤ epochs spaceId
  below : ∀ inv ∈ history, inv.spaceId = spaceId → began < inv.at_ → epoch < epochs spaceId

def MessageOk (epochs : String → Nat) (history : List Invalidation) : Message → Prop
  | .updated dir epoch => epoch ≤ epochs dir.spaceId
  | .invalidated spaceId epoch inv => epoch ≤ epochs spaceId ∧ ∀ i ∈ inv, i ∈ history

def RunningOk (epochs : String → Nat) (history : List Invalidation) (spaceId : String) : Running → Prop
  | .committing _ fallbackEpoch => fallbackEpoch ≤ epochs spaceId + 1
  | .committed inv epoch => epoch ≤ epochs spaceId ∧ inv ∈ history

/-- When the tab knew `seen` of the invalidations, the record was fresh. -/
structure SeenOk (known : List Invalidation) (seen : Nat) (record : Record ε) : Prop where
  le    : seen ≤ known.length
  fresh : FreshFor (known.take seen) record

def OpOk (epochs : String → Nat) (history known : List Invalidation) : Op ε → Prop
  | .reading _ _ => True
  | .read record _ seen => ∀ r ∈ record, SeenOk known seen r
  | .readingEpoch _ => True
  | .readEpoch dir epoch => epoch ≤ epochs dir.spaceId
  | .fetching dir epoch began => EpochOk epochs history dir.spaceId epoch began
  | .committing record expectedEpoch => EpochOk epochs history record.dir.spaceId expectedEpoch record.began
  | .committed record epoch seen => epoch ≤ epochs record.dir.spaceId ∧ SeenOk known seen record
  | .rejected spaceId epoch => epoch ≤ epochs spaceId
  | .patching dir _ fallbackEpoch => fallbackEpoch ≤ epochs dir.spaceId + 1
  | .patched record epoch seen => epoch ≤ epochs record.dir.spaceId ∧ SeenOk known seen record
  | .unpatched spaceId epoch => epoch ≤ epochs spaceId
  | .done => True

structure TabOk (epochs : String → Nat) (history : List Invalidation) (tab : Tab ε) : Prop where
  cached : ∀ spaceId epoch, tab.epochs spaceId = some epoch → epoch ≤ epochs spaceId
  known  : ∀ inv ∈ tab.known, inv ∈ history
  memory : ∀ e ∈ tab.memory.entries, e.2.dir = e.1 ∧ FreshFor tab.known e.2
  inbox  : ∀ message ∈ tab.inbox, MessageOk epochs history message
  lanes  : ∀ spaceId running, (tab.lanes spaceId).running = some running → RunningOk epochs history spaceId running
  ops    : ∀ op ∈ tab.ops, OpOk epochs history tab.known op

structure StoreOk (store : Store ε) (history : List Invalidation) : Prop where
  dir   : ∀ dir record, store.dirs dir = some record → record.dir = dir
  fresh : ∀ dir record, store.dirs dir = some record → FreshFor history record

structure Ok (s : World ε) : Prop where
  store : StoreOk s.store s.history
  times : ∀ inv ∈ s.history, inv.at_ ≤ s.time
  tabs  : ∀ t, TabOk s.store.epochs s.history (s.tabs t)

/-! ## What a raised epoch and a new invalidation leave -/

variable {epochs epochs' : String → Nat} {history history' : List Invalidation}

/-- The epochs of the store after a transaction, and the invalidations: each new
    one raised the epoch of its space. -/
structure Raised (epochs epochs' : String → Nat) (history history' : List Invalidation) : Prop where
  le     : ∀ spaceId, epochs spaceId ≤ epochs' spaceId
  subset : ∀ inv ∈ history, inv ∈ history'
  new    : ∀ inv ∈ history', inv ∈ history ∨ epochs inv.spaceId < epochs' inv.spaceId

variable {spaceId : String} {epoch : Nat} {message : Message} {known : List Invalidation}
    {op : Op ε} {tab : Tab ε} {s : World ε}

theorem EpochOk.raised {began : Nat} (h : EpochOk epochs history spaceId epoch began)
    (hraised : Raised epochs epochs' history history') : EpochOk epochs' history' spaceId epoch began := by
  have hle := h.le
  have hstore := hraised.le spaceId
  refine ⟨by omega, fun inv hinv hspace hbegan => ?_⟩
  rcases hraised.new inv hinv with hold | hnew
  · have hbelow := h.below inv hold hspace hbegan
    omega
  · subst hspace
    omega

theorem MessageOk.raised (h : MessageOk epochs history message)
    (hraised : Raised epochs epochs' history history') : MessageOk epochs' history' message := by
  cases message with
  | updated dir epoch => exact Nat.le_trans h (hraised.le _)
  | invalidated spaceId epoch inv => exact ⟨Nat.le_trans h.1 (hraised.le _), fun i hi => hraised.subset i (h.2 i hi)⟩

theorem RunningOk.raised {running : Running} (h : RunningOk epochs history spaceId running)
    (hraised : Raised epochs epochs' history history') : RunningOk epochs' history' spaceId running := by
  cases running with
  | committing targets fallbackEpoch => exact Nat.le_trans h (Nat.succ_le_succ (hraised.le _))
  | committed inv epoch => exact ⟨Nat.le_trans h.1 (hraised.le _), hraised.subset inv h.2⟩

theorem OpOk.raised (h : OpOk epochs history known op)
    (hraised : Raised epochs epochs' history history') : OpOk epochs' history' known op := by
  cases op with
  | reading dir returns => trivial
  | read record returns seen => exact h
  | readingEpoch dir => trivial
  | readEpoch dir epoch => exact Nat.le_trans h (hraised.le _)
  | fetching dir epoch began => exact EpochOk.raised h hraised
  | committing record expectedEpoch => exact EpochOk.raised h hraised
  | committed record epoch seen => exact ⟨Nat.le_trans h.1 (hraised.le _), h.2⟩
  | rejected spaceId epoch => exact Nat.le_trans h (hraised.le _)
  | patching dir updater fallbackEpoch => exact Nat.le_trans h (Nat.succ_le_succ (hraised.le _))
  | patched record epoch seen => exact ⟨Nat.le_trans h.1 (hraised.le _), h.2⟩
  | unpatched spaceId epoch => exact Nat.le_trans h (hraised.le _)
  | done => trivial

theorem TabOk.raised (h : TabOk epochs history tab) (hraised : Raised epochs epochs' history history') :
    TabOk epochs' history' tab :=
  { cached := fun spaceId epoch hepoch => Nat.le_trans (h.cached spaceId epoch hepoch) (hraised.le _)
    known  := fun inv hinv => hraised.subset inv (h.known inv hinv)
    memory := h.memory
    inbox  := fun message hmessage => (h.inbox message hmessage).raised hraised
    lanes  := fun spaceId running hrunning => (h.lanes spaceId running hrunning).raised hraised
    ops    := fun op hop => (h.ops op hop).raised hraised }

theorem Raised.update (h : epochs spaceId ≤ epoch) (history : List Invalidation) :
    Raised epochs (Function.update epochs spaceId epoch) history history := by
  refine ⟨fun other => ?_, fun _ h => h, fun _ h => .inl h⟩
  by_cases hother : other = spaceId
  · subst hother
    simpa using h
  · simp [hother]

/-! ## Steps of one tab -/

section

variable (h : TabOk epochs history tab)
include h

theorem TabOk.epoch_le (spaceId : String) : (tab.epochs spaceId).getD 0 ≤ epochs spaceId := by
  cases hepoch : tab.epochs spaceId with
  | none => exact Nat.zero_le _
  | some epoch => exact h.cached spaceId epoch hepoch

theorem TabOk.cacheEpoch
    (hle : epoch ≤ epochs spaceId) : TabOk epochs history (tab.cacheEpoch spaceId epoch) := by
  refine { h with cached := fun other e he => ?_ }
  unfold Tab.cacheEpoch at he
  dsimp only at he
  by_cases hother : other = spaceId
  · subst hother
    rw [update_self, Option.some.injEq] at he
    have hcached := h.epoch_le other
    omega
  · rw [update_of_ne hother] at he
    exact h.cached other e he

theorem TabOk.subscribe :
    TabOk epochs history (ensureBroadcastSubscription tab) :=
  { h with }

theorem TabOk.addOp (hop : OpOk epochs history tab.known op) :
    TabOk epochs history (tab.addOp op) := by
  refine { h with ops := fun other hother => ?_ }
  rcases mem_append.mp hother with hold | hnew
  · exact h.ops other hold
  · rw [mem_singleton] at hnew
    subst hnew
    exact hop

theorem TabOk.setOp (i : Nat)
    (hop : OpOk epochs history tab.known op) : TabOk epochs history (tab.setOp i op) := by
  refine { h with ops := fun other hother => ?_ }
  rcases mem_or_eq_of_mem_set hother with hold | hnew
  · exact h.ops other hold
  · subst hnew
    exact hop

theorem TabOk.setDone (i : Nat) : TabOk epochs history (tab.setOp i .done) :=
  h.setOp i trivial

end

variable {seen : Nat} {inv : Option Invalidation} {lane : Lane} {store : Store ε}

theorem SeenOk.learn (h : SeenOk known seen record)
    (more : List Invalidation) : SeenOk (known ++ more) seen record := by
  refine ⟨?_, ?_⟩
  · rw [length_append]
    exact Nat.le_add_right_of_le h.le
  · rw [take_append_of_le_length h.le]
    exact h.fresh

theorem OpOk.learn (h : OpOk epochs history known op)
    (more : List Invalidation) : OpOk epochs history (known ++ more) op := by
  cases op with
  | read record returns seen => exact fun r hr => (h r hr).learn more
  | committed record epoch seen => exact ⟨h.1, h.2.learn more⟩
  | patched record epoch seen => exact ⟨h.1, h.2.learn more⟩
  | _ => exact h

theorem TabOk.clear (h : TabOk epochs history tab) (hle : epoch ≤ epochs spaceId)
    (hinv : ∀ i ∈ inv, i ∈ history) : TabOk epochs history (tab.clear spaceId epoch inv) := by
  refine { h.cacheEpoch hle with known := fun i hi => ?_, memory := ?_, ops := fun op hop => ?_ }
  · rcases mem_append.mp hi with hold | hnew
    · exact h.known i hold
    · exact hinv i (mem_toList.mp hnew)
  · intro e he
    simp [Tab.clear, OrderedMap.empty] at he
  · exact (h.ops op hop).learn _

theorem TabOk.setMemory (h : TabOk epochs history tab) {memory : Memory ε}
    (hmemory : ∀ e ∈ memory.entries, e.2.dir = e.1 ∧ FreshFor tab.known e.2) :
    TabOk epochs history { tab with memory := memory } :=
  { h with memory := hmemory }

theorem TabOk.setLane (h : TabOk epochs history tab) (spaceId : String)
    (hlane : ∀ running, lane.running = some running → RunningOk epochs history spaceId running) :
    TabOk epochs history { tab with lanes := Function.update tab.lanes spaceId lane } := by
  refine { h with lanes := fun other running hrunning => ?_ }
  dsimp only at hrunning
  by_cases hother : other = spaceId
  · subst hother
    rw [update_self] at hrunning
    exact hlane running hrunning
  · rw [update_of_ne hother] at hrunning
    exact h.lanes other running hrunning

theorem TabOk.receive (h : TabOk epochs history tab)
    (hmessage : MessageOk epochs history message) : TabOk epochs history (receive tab message) := by
  cases message with
  | invalidated spaceId epoch inv => exact h.clear hmessage.1 hmessage.2
  | updated dir epoch =>
    have hcached := h.cacheEpoch hmessage
    exact (hcached.setMemory fun e he => hcached.memory e (mem_delete he)).addOp trivial

/-! ## Steps of the browser -/

theorem Ok.setTab (h : Ok s) (t : Nat) (htab : TabOk s.store.epochs s.history tab) :
    Ok (s.setTab t tab) := by
  refine ⟨h.store, h.times, fun other => ?_⟩
  by_cases hother : other = t
  · subst hother
    rw [setTab_tabs_self]
    exact htab
  · rw [setTab_tabs_ne s tab hother]
    exact h.tabs other

theorem Ok.post (h : Ok s) (t : Nat)
    (hmessage : MessageOk s.store.epochs s.history message) : Ok (s.post t message) := by
  refine ⟨h.store, h.times, fun other => ?_⟩
  unfold World.post
  dsimp only
  split
  · refine { h.tabs other with inbox := fun m hm => ?_ }
    rcases mem_append.mp hm with hold | hnew
    · exact (h.tabs other).inbox m hold
    · have hm' : m = message := by simpa using hnew
      subst hm'
      exact hmessage
  · exact h.tabs other

theorem Ok.setStore (h : Ok s) (hraised : Raised s.store.epochs store.epochs s.history history')
    (hstore : StoreOk store history') (htimes : ∀ inv ∈ history', inv.at_ ≤ s.time) :
    Ok { s with store := store, history := history' } :=
  ⟨hstore, htimes, fun t => (h.tabs t).raised hraised⟩

theorem ok_publishInvalidation (h : Ok s) (t : Nat) (htab : TabOk s.store.epochs s.history tab)
    (hle : epoch ≤ s.store.epochs spaceId) (hinv : ∀ i ∈ inv, i ∈ s.history) :
    Ok (publishInvalidation s t tab spaceId epoch inv) :=
  (h.setTab t (htab.clear hle hinv)).post t ⟨hle, hinv⟩

theorem ok_publishRecord (h : Ok s) (t : Nat) (htab : TabOk s.store.epochs s.history tab)
    (hle : epoch ≤ s.store.epochs record.dir.spaceId)
    (hfresh : FreshFor tab.known record) : Ok (publishRecord s t tab record epoch) := by
  refine (h.setTab t ?_).post t hle
  have hcached := htab.cacheEpoch hle
  exact hcached.setMemory (forall_mem_memorySet hcached.memory ⟨rfl, hfresh⟩)

theorem StoreOk.put {history : List Invalidation} (h : StoreOk store history)
    (hfresh : FreshFor history record) (epochs : String → Nat) :
    StoreOk ⟨Function.update store.dirs record.dir (some record), epochs⟩ history := by
  have hput : ∀ dir found, Function.update store.dirs record.dir (some record) dir = some found →
      found = record ∧ dir = record.dir ∨ store.dirs dir = some found := by
    intro dir found hfound
    by_cases hdir : dir = record.dir
    · subst hdir
      rw [update_self, Option.some.injEq] at hfound
      exact .inl ⟨hfound.symm, rfl⟩
    · rw [update_of_ne hdir] at hfound
      exact .inr hfound
  refine ⟨fun dir found hfound => ?_, fun dir found hfound => ?_⟩
  · rcases hput dir found hfound with ⟨rfl, rfl⟩ | hold
    · rfl
    · exact h.dir dir found hold
  · rcases hput dir found hfound with ⟨rfl, -⟩ | hold
    · exact hfresh
    · exact h.fresh dir found hold

/-- What a `getDir` returned was fetched after the invalidations that the tab
    knew. -/
def Returned.Fresh (returned : Returned ε) : Prop := ∀ record ∈ returned.record, FreshFor returned.known record

theorem ok_getDir (h : Ok s) (t : Nat) (dir : Dir) :
    Ok (getDir s t dir).1 ∧ ∀ returned ∈ (getDir s t dir).2, returned.Fresh := by
  have htab := (h.tabs t).subscribe
  unfold getDir
  dsimp only
  split
  · next record memory hget =>
    obtain ⟨⟨-, hfresh⟩, hmemory⟩ := forall_mem_memoryGet htab.memory hget
    refine ⟨h.setTab t (htab.setMemory hmemory), fun returned hreturned => ?_⟩
    rw [mem_singleton] at hreturned
    subst hreturned
    intro r hr
    rw [mem_some] at hr
    subst hr
    exact hfresh
  · exact ⟨h.setTab t (htab.addOp trivial), by simp⟩

theorem epochOk_now (h : Ok s) (hle : epoch ≤ s.store.epochs spaceId) :
    EpochOk s.store.epochs s.history spaceId epoch s.time := by
  refine ⟨hle, fun inv hinv _ hbegan => ?_⟩
  have htime := h.times inv hinv
  omega

theorem ok_fetch (h : Ok s) (t : Nat) (dir : Dir) : Ok (fetch s t dir) := by
  have htab := (h.tabs t).subscribe
  unfold fetch
  dsimp only
  split
  · next epoch hepoch => exact h.setTab t (htab.addOp (epochOk_now h (htab.cached _ _ hepoch)))
  · exact h.setTab t (htab.addOp trivial)

variable {normalizeEntries : List ε → List ε}

theorem ok_reply (h : Ok s) (t i : Nat) (entries : List ε) : Ok (reply normalizeEntries s t i entries) := by
  have htab := (h.tabs t).subscribe
  unfold reply
  dsimp only
  split
  · next dir epoch began hop =>
    have hfetch := htab.ops _ (mem_of_getElem? hop)
    exact h.setTab t (htab.setOp i hfetch)
  · exact h

theorem ok_patch (h : Ok s) (t : Nat) (dir : Dir) (updater : List ε → List ε) :
    Ok (patch s t dir updater) := by
  have htab := (h.tabs t).subscribe
  exact h.setTab t (htab.addOp (Nat.succ_le_succ (htab.epoch_le dir.spaceId)))

theorem ok_invalidateRecords (h : Ok s) (t : Nat) (spaceId : String) (targets : Targets) :
    Ok (invalidateRecords s t spaceId targets) := by
  unfold invalidateRecords
  dsimp only
  split
  · exact h
  · exact h.setTab t ((h.tabs t).setLane spaceId ((h.tabs t).lanes spaceId))

theorem ok_commitInvalidation (h : Ok s) (t : Nat) (spaceId : String) (targets : Targets)
    {fallbackEpoch : Nat} : Ok (commitInvalidation s t spaceId lane targets fallbackEpoch) := by
  unfold commitInvalidation
  dsimp only
  have hlt : s.store.epochs spaceId < max (s.store.epochs spaceId) (fallbackEpoch - 1) + 1 := by omega
  generalize max (s.store.epochs spaceId) (fallbackEpoch - 1) + 1 = epoch at hlt ⊢
  generalize hinv : (⟨spaceId, targets, s.time⟩ : Invalidation) = inv
  have hraised : Raised s.store.epochs (Function.update s.store.epochs spaceId epoch) s.history (s.history ++ [inv]) := by
    have hupdate := Raised.update (Nat.le_of_lt hlt) s.history
    refine ⟨hupdate.le, fun i hi => mem_append_left _ hi, fun i hi => ?_⟩
    rcases mem_append.mp hi with hold | hnew
    · exact .inl hold
    · rw [mem_singleton] at hnew
      subst hnew hinv
      refine .inr ?_
      rw [update_self]
      exact hlt
  have hstore : StoreOk ⟨fun dir => if inv.covers dir then none else s.store.dirs dir,
      Function.update s.store.epochs spaceId epoch⟩ (s.history ++ [inv]) := by
    refine ⟨fun dir record hrecord => ?_, fun dir record hrecord => ?_⟩
    · dsimp only at hrecord
      split at hrecord
      · cases hrecord
      · exact h.store.dir dir record hrecord
    · dsimp only at hrecord
      split at hrecord
      · cases hrecord
      · next hnot =>
        intro i hi hcovers
        rcases mem_append.mp hi with hold | hnew
        · exact h.store.fresh dir record hrecord i hold hcovers
        · rw [mem_singleton] at hnew
          subst hnew
          rw [h.store.dir dir record hrecord] at hcovers
          exact absurd hcovers hnot
  have htimes : ∀ i ∈ s.history ++ [inv], i.at_ ≤ s.time := by
    intro i hi
    rcases mem_append.mp hi with hold | hnew
    · exact h.times i hold
    · rw [mem_singleton] at hnew
      subst hnew hinv
      exact Nat.le_refl _
  have hok := h.setStore hraised hstore htimes
  apply hok.setTab t
  refine (hok.tabs t).setLane spaceId fun running hrunning => ?_
  rw [← Option.some.inj hrunning]
  have hself : Function.update s.store.epochs spaceId epoch spaceId = epoch := update_self _ _ _
  exact ⟨Nat.le_of_eq hself.symm, mem_append_right _ (mem_singleton_self inv)⟩

theorem ok_runLane (h : Ok s) (t : Nat) (spaceId : String) : Ok (runLane s t spaceId) := by
  have htab := h.tabs t
  unfold runLane
  dsimp only
  cases hrunning : ((s.tabs t).lanes spaceId).running with
  | none =>
    dsimp only
    split
    · exact h
    · refine h.setTab t (htab.subscribe.setLane spaceId fun running hrunning => ?_)
      rw [← Option.some.inj hrunning]
      exact Nat.succ_le_succ (htab.epoch_le spaceId)
  | some running =>
    have hok := htab.lanes spaceId running hrunning
    cases running with
    | committing targets fallbackEpoch => exact ok_commitInvalidation h t spaceId targets
    | committed inv epoch =>
      refine ok_publishInvalidation h t (htab.setLane spaceId fun running hrunning => ?_) hok.1 fun i hi => ?_
      · cases hrunning
      · rw [mem_some] at hi
        subst hi
        exact hok.2

theorem ok_commitDir (h : Ok s) (t i : Nat) {expectedEpoch : Nat}
    (hop : EpochOk s.store.epochs s.history record.dir.spaceId expectedEpoch record.began) :
    Ok (commitDir s t i (s.tabs t) record expectedEpoch) := by
  have htab := h.tabs t
  have hcached := htab.epoch_le record.dir.spaceId
  have hmax : max (s.store.epochs record.dir.spaceId) (((s.tabs t).epochs record.dir.spaceId).getD 0)
      = s.store.epochs record.dir.spaceId := Nat.max_eq_left hcached
  unfold commitDir
  dsimp only
  rw [hmax]
  split
  · exact h.setTab t (htab.setOp i (Nat.le_refl _))
  · next hepoch =>
    have hfresh : FreshFor s.history record := by
      intro inv hinv hcovers
      unfold Invalidation.covers at hcovers
      simp only [Bool.and_eq_true, beq_iff_eq] at hcovers
      by_contra hbegan
      have hbelow := hop.below inv hinv hcovers.1 (by omega)
      omega
    have hraised := Raised.update (Nat.le_refl (s.store.epochs record.dir.spaceId)) s.history
    have hstore : StoreOk ⟨Function.update s.store.dirs record.dir (some record),
        Function.update s.store.epochs record.dir.spaceId (s.store.epochs record.dir.spaceId)⟩ s.history :=
      h.store.put hfresh _
    have hok := h.setStore hraised hstore h.times
    refine hok.setTab t ((hok.tabs t).setOp i ⟨hraised.le _, Nat.le_refl _, ?_⟩)
    rw [take_length]
    exact fun inv hinv => hfresh inv (htab.known inv hinv)

theorem ok_commitPatch (h : Ok s) (t i : Nat) (dir : Dir) (updater : List ε → List ε)
    (fallbackEpoch : Nat) : Ok (commitPatch normalizeEntries s t i (s.tabs t) dir updater fallbackEpoch) := by
  have htab := h.tabs t
  unfold commitPatch
  dsimp only
  have hlt : s.store.epochs dir.spaceId ≤ max (s.store.epochs dir.spaceId) (fallbackEpoch - 1) + 1 := by omega
  generalize max (s.store.epochs dir.spaceId) (fallbackEpoch - 1) + 1 = epoch at hlt ⊢
  have hraised := Raised.update hlt s.history
  have hself : Function.update s.store.epochs dir.spaceId epoch dir.spaceId = epoch := update_self _ _ _
  split
  · have hstore : StoreOk ⟨s.store.dirs, Function.update s.store.epochs dir.spaceId epoch⟩ s.history :=
      ⟨h.store.dir, h.store.fresh⟩
    have hok := h.setStore hraised hstore h.times
    exact hok.setTab t ((hok.tabs t).setOp i (Nat.le_of_eq hself.symm))
  · next current hcurrent =>
    -- a patched listing is as old as the one that it is made of
    have hfresh : FreshFor s.history (createRecord normalizeEntries dir (updater current.entries) current.began) := by
      intro inv hinv hcovers
      apply h.store.fresh dir current hcurrent inv hinv
      rw [h.store.dir dir current hcurrent]
      exact hcovers
    have hok := h.setStore hraised (h.store.put hfresh _) h.times
    refine hok.setTab t ((hok.tabs t).setOp i ⟨Nat.le_of_eq hself.symm, Nat.le_refl _, ?_⟩)
    rw [take_length]
    exact fun inv hinv => hfresh inv (htab.known inv hinv)

/-- The invalidations that a tab came to know since a transaction do not cover
    the directory of what it read or wrote there. -/
def Tab.Quiet (tab : Tab ε) (record : Record ε) (seen : Nat) : Prop :=
  ∀ inv ∈ tab.known.drop seen, inv.covers record.dir = false

/-- Where a step brings what a transaction gave into the memory of a tab, the
    tab did not complete and was not told of an invalidation that covers the
    directory since that transaction. -/
def Undisturbed (s : World ε) : Input ε → Prop
  | .act t i =>
      match (s.tabs t).ops[i]? with
      | some (.read (some record) _ seen) => (s.tabs t).Quiet record seen
      | some (.committed record _ seen) => (s.tabs t).Quiet record seen
      | some (.patched record _ seen) => (s.tabs t).Quiet record seen
      | _ => True
  | _ => True

theorem SeenOk.freshFor (h : SeenOk tab.known seen record)
    (hquiet : tab.Quiet record seen) : FreshFor tab.known record := by
  intro inv hinv hcovers
  rw [← take_append_drop seen tab.known] at hinv
  rcases mem_append.mp hinv with hold | hnew
  · exact h.fresh inv hold hcovers
  · rw [hquiet inv hnew] at hcovers
    cases hcovers

theorem ok_act (h : Ok s) (t i : Nat) (hinput : Undisturbed s (.act t i)) :
    Ok (act normalizeEntries s t i).1 ∧ ∀ returned ∈ (act normalizeEntries s t i).2, returned.Fresh := by
  have htab := h.tabs t
  unfold Undisturbed at hinput
  dsimp only at hinput
  unfold act
  dsimp only
  cases hop : (s.tabs t).ops[i]? with
  | none => exact ⟨h, by simp⟩
  | some op =>
    have hok := htab.ops op (mem_of_getElem? hop)
    rw [hop] at hinput
    cases op with
    | reading dir returns =>
      refine ⟨h.setTab t (htab.setOp i fun r hr => ⟨Nat.le_refl _, ?_⟩), by simp⟩
      rw [take_length]
      exact fun inv hinv => h.store.fresh dir r hr inv (htab.known inv hinv)
    | read record returns seen =>
      cases record with
      | none => exact ⟨h.setTab t (htab.setDone i), by simp⟩
      | some record =>
        have hfresh : FreshFor (s.tabs t).known record := (hok record rfl).freshFor hinput
        have hdone := htab.setDone i
        refine ⟨h.setTab t (hdone.setMemory (forall_mem_memorySet htab.memory ⟨rfl, hfresh⟩)), ?_⟩
        intro returned hreturned
        dsimp only at hreturned
        split at hreturned
        · rw [mem_singleton] at hreturned
          subst hreturned
          intro r hr
          rw [mem_some] at hr
          subst hr
          exact hfresh
        · cases hreturned
    | readingEpoch dir => exact ⟨h.setTab t (htab.setOp i (Nat.le_refl _)), by simp⟩
    | readEpoch dir epoch =>
      have hcached : TabOk s.store.epochs s.history ((s.tabs t).cacheEpoch dir.spaceId epoch) := htab.cacheEpoch hok
      exact ⟨h.setTab t (hcached.setOp i (epochOk_now h (hcached.epoch_le dir.spaceId))), by simp⟩
    | fetching dir epoch began => exact ⟨h, by simp⟩
    | committing record expectedEpoch => exact ⟨ok_commitDir h t i hok, by simp⟩
    | committed record epoch seen =>
      exact ⟨ok_publishRecord h t (htab.setDone i) hok.1 (hok.2.freshFor hinput), by simp⟩
    | rejected spaceId epoch => exact ⟨h.setTab t ((htab.setDone i).cacheEpoch hok), by simp⟩
    | patching dir updater fallbackEpoch => exact ⟨ok_commitPatch h t i dir updater fallbackEpoch, by simp⟩
    | patched record epoch seen =>
      exact ⟨ok_publishRecord h t (htab.setDone i) hok.1 (hok.2.freshFor hinput), by simp⟩
    | unpatched spaceId epoch =>
      exact ⟨ok_publishInvalidation h t (htab.setDone i) hok (by simp), by simp⟩
    | done => exact ⟨h, by simp⟩

theorem ok_deliver (h : Ok s) (t k : Nat) : Ok (deliver s t k) := by
  have htab := h.tabs t
  unfold deliver
  dsimp only
  split
  · exact h
  · next message hmessage =>
    have hrest : TabOk s.store.epochs s.history { s.tabs t with inbox := (s.tabs t).inbox.eraseIdx k } :=
      { htab with inbox := fun m hm => htab.inbox m (mem_of_mem_eraseIdx hm) }
    exact h.setTab t (hrest.receive (htab.inbox message (mem_of_getElem? hmessage)))

/-! ## Runs -/

theorem Ok.tick (h : Ok s) : Ok s.tick :=
  ⟨h.store, fun inv hinv => Nat.le_succ_of_le (h.times inv hinv), h.tabs⟩

theorem ok_next (h : Ok s) {input : Input ε} (hinput : Undisturbed s input) :
    Ok (next normalizeEntries s input).1 ∧ ∀ returned ∈ (next normalizeEntries s input).2, returned.Fresh := by
  have htick := h.tick
  cases input with
  | getDir t dir => exact ok_getDir htick t dir
  | fetch t dir => exact ⟨ok_fetch htick t dir, by simp [next]⟩
  | reply t i entries => exact ⟨ok_reply htick t i entries, by simp [next]⟩
  | patch t dir updater => exact ⟨ok_patch htick t dir updater, by simp [next]⟩
  | invalidate t spaceId targets => exact ⟨ok_invalidateRecords htick t spaceId targets, by simp [next]⟩
  | runLane t spaceId => exact ⟨ok_runLane htick t spaceId, by simp [next]⟩
  | act t i => exact ok_act htick t i hinput
  | deliver t k => exact ⟨ok_deliver htick t k, by simp [next]⟩

theorem ok_start : Ok (World.start : World ε) := by
  refine ⟨⟨by simp [World.start], by simp [World.start]⟩, by simp [World.start], fun t => ?_⟩
  exact ⟨by simp [World.start, Tab.start], by simp [World.start, Tab.start],
    by simp [World.start, Tab.start, OrderedMap.empty], by simp [World.start, Tab.start],
    by simp [World.start, Tab.start], by simp [World.start, Tab.start]⟩

def Tab.seenEpoch (tab : Tab ε) (spaceId : String) : Nat := (tab.epochs spaceId).getD 0

/-- No tab sees a lower epoch than before. -/
def EpochsLe (s s' : World ε) : Prop := ∀ t spaceId, (s.tabs t).seenEpoch spaceId ≤ (s'.tabs t).seenEpoch spaceId

theorem seenEpoch_cacheEpoch (tab : Tab ε) (spaceId other : String) (epoch : Nat) :
    tab.seenEpoch other ≤ (tab.cacheEpoch spaceId epoch).seenEpoch other := by
  unfold Tab.seenEpoch Tab.cacheEpoch
  dsimp only
  by_cases hother : other = spaceId
  · subst hother
    rw [update_self]
    exact Nat.le_max_left _ _
  · exact Nat.le_of_eq (by rw [update_of_ne hother])

theorem EpochsLe.refl (s : World ε) : EpochsLe s s := fun _ _ => Nat.le_refl _

theorem epochsLe_setTab
    (h : ∀ spaceId, (s.tabs t).seenEpoch spaceId ≤ tab.seenEpoch spaceId) : EpochsLe s (s.setTab t tab) := by
  intro other spaceId
  by_cases hother : other = t
  · subst hother
    rw [setTab_tabs_self]
    exact h spaceId
  · exact Nat.le_of_eq (by rw [setTab_tabs_ne s tab hother])

theorem EpochsLe.post {s' : World ε} (h : EpochsLe s s') (t : Nat) (message : Message) :
    EpochsLe s (s'.post t message) := by
  intro other spaceId
  have hsame : ((s'.post t message).tabs other).seenEpoch spaceId = (s'.tabs other).seenEpoch spaceId := by
    unfold World.post
    dsimp only
    split <;> rfl
  rw [hsame]
  exact h other spaceId

theorem epochsLe_publish
    (h : ∀ spaceId, (s.tabs t).seenEpoch spaceId = tab.seenEpoch spaceId) (spaceId : String) (epoch : Nat)
    (inv : Option Invalidation) : EpochsLe s (publishInvalidation s t tab spaceId epoch inv) := by
  refine (epochsLe_setTab fun other => ?_).post t _
  rw [h]
  exact seenEpoch_cacheEpoch tab spaceId other epoch

theorem epochsLe_publishRecord (h : ∀ spaceId, (s.tabs t).seenEpoch spaceId = tab.seenEpoch spaceId)
    (record : Record ε) (epoch : Nat) : EpochsLe s (publishRecord s t tab record epoch) := by
  refine (epochsLe_setTab fun other => ?_).post t _
  rw [h]
  have hle := seenEpoch_cacheEpoch tab record.dir.spaceId other epoch
  unfold Tab.seenEpoch at hle ⊢
  exact hle

theorem epochsLe_same (h : tab.epochs = (s.tabs t).epochs) : EpochsLe s (s.setTab t tab) :=
  epochsLe_setTab fun spaceId => Nat.le_of_eq (congrArg (fun epochs => (epochs spaceId).getD 0) h.symm)

theorem epochsLe_runLane (s : World ε) (t : Nat) (spaceId : String) : EpochsLe s (runLane s t spaceId) := by
  unfold runLane
  dsimp only
  cases ((s.tabs t).lanes spaceId).running with
  | none =>
    dsimp only
    split
    · exact EpochsLe.refl s
    · exact epochsLe_same rfl
  | some running =>
    cases running with
    | committing targets fallbackEpoch => exact epochsLe_same rfl
    | committed inv epoch =>
      refine epochsLe_publish ?_ spaceId epoch _
      exact fun _ => rfl

theorem epochsLe_act (s : World ε) (t i : Nat) : EpochsLe s (act normalizeEntries s t i).1 := by
  unfold act
  dsimp only
  cases (s.tabs t).ops[i]? with
  | none => exact EpochsLe.refl s
  | some op =>
    cases op with
    | reading dir returns => exact epochsLe_same rfl
    | read record returns seen => cases record <;> exact epochsLe_same rfl
    | readingEpoch dir => exact epochsLe_same rfl
    | readEpoch dir epoch => exact epochsLe_setTab fun other => seenEpoch_cacheEpoch _ dir.spaceId other epoch
    | fetching dir epoch began => exact EpochsLe.refl s
    | committing record expectedEpoch =>
      dsimp only [commitDir]
      split <;> exact epochsLe_same rfl
    | committed record epoch seen =>
      refine epochsLe_publishRecord ?_ record epoch
      exact fun _ => rfl
    | rejected spaceId epoch => exact epochsLe_setTab fun other => seenEpoch_cacheEpoch _ spaceId other epoch
    | patching dir updater fallbackEpoch =>
      dsimp only [commitPatch]
      split <;> exact epochsLe_same rfl
    | patched record epoch seen =>
      refine epochsLe_publishRecord ?_ record epoch
      exact fun _ => rfl
    | unpatched spaceId epoch =>
      refine epochsLe_publish ?_ spaceId epoch none
      exact fun _ => rfl
    | done => exact EpochsLe.refl s

theorem epochsLe_deliver (s : World ε) (t k : Nat) : EpochsLe s (deliver s t k) := by
  unfold deliver
  dsimp only
  split
  · exact EpochsLe.refl s
  · next message _ =>
    refine epochsLe_setTab fun other => ?_
    cases message with
    | updated dir epoch => exact seenEpoch_cacheEpoch _ dir.spaceId other epoch
    | invalidated spaceId epoch inv => exact seenEpoch_cacheEpoch _ spaceId other epoch

theorem epochsLe_next (s : World ε) (input : Input ε) : EpochsLe s (next normalizeEntries s input).1 := by
  -- the clock is no tab's
  have htick : ∀ s', EpochsLe s.tick s' → EpochsLe s s' := fun _ h => h
  apply htick
  unfold next
  cases input with
  | getDir t dir =>
    dsimp only [getDir]
    split <;> exact epochsLe_same rfl
  | fetch t dir =>
    dsimp only [fetch]
    split <;> exact epochsLe_same rfl
  | reply t i entries =>
    dsimp only [reply]
    split
    · exact epochsLe_same rfl
    · exact EpochsLe.refl _
  | patch t dir updater => exact epochsLe_same rfl
  | invalidate t spaceId targets =>
    dsimp only [invalidateRecords]
    split
    · exact EpochsLe.refl _
    · exact epochsLe_same rfl
  | runLane t spaceId => exact epochsLe_runLane _ t spaceId
  | act t i => exact epochsLe_act _ t i
  | deliver t k => exact epochsLe_deliver _ t k

theorem epochsLe_run (s : World ε) (inputs : List (Input ε)) : EpochsLe s ((browser normalizeEntries).run s inputs).1 :=
  Mealy.run_invariant_of_step (I := fun s' => EpochsLe s s')
    (fun s' input h t spaceId => Nat.le_trans (h t spaceId) (epochsLe_next s' input t spaceId)) (EpochsLe.refl s) inputs

/-- In every run in which no tab completes or is told of an invalidation between
    a transaction on a directory that the invalidation covers and the step that
    brings what it gave into memory, no `getDir` returns a listing whose fetch
    began before an invalidation that the tab completed or was told of; and the
    epoch that a tab sees never decreases. -/
theorem getDir_fresh (earlier later : List (Input ε))
    (h : (browser normalizeEntries).Meets Undisturbed World.start (earlier ++ later)) :
    (∀ returned ∈ ((browser normalizeEntries).run World.start (earlier ++ later)).2, returned.Fresh) ∧
      EpochsLe ((browser normalizeEntries).run World.start earlier).1
        ((browser normalizeEntries).run World.start (earlier ++ later)).1 := by
  refine ⟨Mealy.run_outputs (I := Ok) (fun _ _ hok hinput => ok_next hok hinput) ok_start h, ?_⟩
  rw [Mealy.run_append]
  exact epochsLe_run _ later

def exampleDir : Dir := ⟨"space", "src"⟩

def fetchRun : List (Input Nat) :=
  [.fetch 0 exampleDir, .act 0 0, .act 0 0, .reply 0 0 [7], .act 0 0]

def invalidateRun : List (Input Nat) :=
  [.invalidate 1 "space" ⟨["src"], []⟩, .runLane 1 "space", .runLane 1 "space", .runLane 1 "space", .deliver 0 0]

/-- A listing that is in memory before the invalidation comes. -/
theorem getDir_fresh_in_order :
    (∀ returned ∈ ((browser id).run World.start (fetchRun ++ (.act 0 0 :: invalidateRun ++ [.getDir 0 exampleDir]))).2,
      returned.Fresh) ∧
      EpochsLe ((browser id).run World.start fetchRun).1
        ((browser id).run World.start (fetchRun ++ (.act 0 0 :: invalidateRun ++ [.getDir 0 exampleDir]))).1 := by
  apply getDir_fresh
  exact ⟨trivial, trivial, trivial, trivial, trivial, fun inv hinv => absurd hinv List.not_mem_nil, trivial, trivial,
    trivial, trivial, trivial, trivial, trivial⟩

/-- The transaction of a fetched listing is followed by an invalidation of
    another tab, whose message comes before the listing is in memory. -/
theorem stale_listing_returned :
    ¬ ∀ inputs : List (Input Nat), ∀ returned ∈ ((browser id).run World.start inputs).2, returned.Fresh := by
  intro h
  have hreturned := h (fetchRun ++ (invalidateRun ++ [.act 0 0, .getDir 0 exampleDir])) _ (List.mem_of_getElem? (i := 0) rfl)
  have hfresh : 8 ≤ 3 := hreturned ⟨exampleDir, [7], 3⟩ rfl ⟨"space", ⟨["src"], []⟩, 8⟩ List.mem_cons_self (by decide)
  omega

end Cohub.SpaceFs
