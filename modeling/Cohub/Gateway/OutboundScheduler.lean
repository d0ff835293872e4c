import Mathlib
import Cohub.Lib.Mealy
import Cohub.Lib.OrderedMap

/-! # The outbound scheduler

    Tasks wait in one queue per key.  `pump` goes over the map of queues and
    starts the first task of each key that is idle, within three limits.  A
    queue that a task was taken from moves to the end of the map, so the loop
    meets its key again, which is active by then.

    The world beside the scheduler has the tasks that were added, started and
    released, and those that run.  A task runs until it finishes, successfully
    or not.  Every `add`, completion and `releaseQueued` is one event. -/

namespace Cohub.Gateway

open List

/-! ## The scheduler -/

/-- A task; `id` tells the objects apart. -/
structure OutboundTask where
  id : Nat
  key : String
  provider : String
  media : Bool
deriving DecidableEq

structure OutboundLimits where
  capacity : Nat
  concurrency : Nat
  mediaConcurrency : Nat
  providerConcurrency : Nat

structure OutboundScheduler where
  limits : OutboundLimits
  queues : OrderedMap String (List OutboundTask)
  activeKeys : Finset String
  providers : OrderedMap String Int
  running : Int
  mediaRunning : Int
  size : Int

namespace OutboundScheduler

def new (limits : OutboundLimits) : OutboundScheduler where
  limits := limits
  queues := OrderedMap.empty
  activeKeys := ∅
  providers := OrderedMap.empty
  running := 0
  mediaRunning := 0
  size := 0

/-- `this.queues.get(key) ?? []`. -/
def queue (s : OutboundScheduler) (key : String) : List OutboundTask := (s.queues.get? key).getD []

def providerRunning (s : OutboundScheduler) (provider : String) : Int :=
  (s.providers.get? provider).getD 0

/-- The tests on the first task of a queue. -/
def Held (s : OutboundScheduler) (key : String) (task : OutboundTask) : Prop :=
  key ∈ s.activeKeys ∨ (task.media = true ∧ s.limits.mediaConcurrency ≤ s.mediaRunning) ∨
    s.limits.providerConcurrency ≤ s.providerRunning task.provider

instance (s : OutboundScheduler) (key : String) (task : OutboundTask) :
    Decidable (s.Held key task) := by
  unfold Held
  infer_instance

/-- The first task of a queue starts, and `rest` is what is left of the queue. -/
def start (s : OutboundScheduler) (key : String) (task : OutboundTask) (rest : List OutboundTask) :
    OutboundScheduler :=
  { s with
    queues := if rest = [] then s.queues.delete key else (s.queues.delete key).set key rest,
    activeKeys := insert key s.activeKeys,
    running := s.running + 1,
    mediaRunning := s.mediaRunning + if task.media then 1 else 0,
    providers := s.providers.set task.provider (s.providerRunning task.provider + 1) }

/-- The loop of `pump` over the keys that are still to be visited, and the tasks
    that it starts.  The number of rounds is a bound. -/
def pumpLoop : Nat → List String → OutboundScheduler → OutboundScheduler × List OutboundTask
  | 0, _, s => (s, [])
  | _ + 1, [], s => (s, [])
  | rounds + 1, key :: keys, s =>
      if s.limits.concurrency ≤ s.running then (s, [])
      else match s.queue key with
        | [] => pumpLoop rounds keys s
        | task :: rest =>
            if s.Held key task then pumpLoop rounds keys s
            else
              -- a key that is set again comes last
              let keys := if rest = [] then keys else keys ++ [key]
              let later := pumpLoop rounds keys (s.start key task rest)
              (later.1, task :: later.2)

def pump (s : OutboundScheduler) : OutboundScheduler × List OutboundTask :=
  pumpLoop (2 * s.queues.keys.length) s.queues.keys s

/-- `add`; `none` where it throws. -/
def add (s : OutboundScheduler) (task : OutboundTask) :
    Option (OutboundScheduler × List OutboundTask) :=
  if s.limits.capacity ≤ s.size then none
  else some { s with queues := s.queues.set task.key (s.queue task.key ++ [task]),
                     size := s.size + 1 }.pump

/-- `releaseQueued`, and the tasks that it releases. -/
def releaseQueued (s : OutboundScheduler) (key : String) : OutboundScheduler × List OutboundTask :=
  ({ s with queues := s.queues.delete key, size := s.size - (s.queue key).length }, s.queue key)

/-- The `finally` of a task, before it pumps. -/
def settle (s : OutboundScheduler) (task : OutboundTask) : OutboundScheduler :=
  let left := (s.providers.get? task.provider).getD 1 - 1
  { s with
    activeKeys := s.activeKeys.erase task.key,
    running := s.running - 1,
    mediaRunning := s.mediaRunning - if task.media then 1 else 0,
    providers := if left = 0 then (s.providers.set task.provider left).delete task.provider
      else s.providers.set task.provider left,
    size := s.size - 1 }

def finish (s : OutboundScheduler) (task : OutboundTask) : OutboundScheduler × List OutboundTask :=
  (s.settle task).pump

end OutboundScheduler

/-! ## Runs -/

structure OutboundWorld where
  scheduler : OutboundScheduler
  added     : List OutboundTask
  started   : List OutboundTask
  active    : List OutboundTask
  released  : List OutboundTask

inductive OutboundEvent where
  | add (key provider : String) (media : Bool)
  /-- A running task finishes, or fails. -/
  | finish (id : Nat) (ok : Bool)
  | release (key : String)

namespace OutboundWorld

def new (limits : OutboundLimits) : OutboundWorld where
  scheduler := .new limits
  added := []
  started := []
  active := []
  released := []

def begin (w : OutboundWorld) (pumped : OutboundScheduler × List OutboundTask) : OutboundWorld :=
  { w with scheduler := pumped.1, started := w.started ++ pumped.2, active := w.active ++ pumped.2 }

def step (w : OutboundWorld) : OutboundEvent → OutboundWorld
  | .add key provider media =>
      let task := { id := w.added.length, key, provider, media }
      match w.scheduler.add task with
      | none => w
      | some pumped => { w with added := w.added ++ [task] }.begin pumped
  | .finish id _ =>
      match w.active.find? fun task => task.id = id with
      | none => w
      | some task => { w with active := w.active.erase task }.begin (w.scheduler.finish task)
  | .release key =>
      let freed := w.scheduler.releaseQueued key
      { w with scheduler := freed.1, released := w.released ++ freed.2 }

def machine : Mealy OutboundWorld OutboundEvent Empty where
  step w event := (w.step event, [])

end OutboundWorld

/-! ## Queues and counters -/

def ofKey (key : String) (tasks : List OutboundTask) : List OutboundTask :=
  tasks.filter fun task => task.key = key

namespace OutboundScheduler

/-- Queues are not empty, and each has the tasks of its key. -/
structure Queued (s : OutboundScheduler) : Prop where
  nonempty : ∀ key, s.queues.get? key ≠ some []
  keyed    : ∀ key, ∀ task ∈ s.queue key, task.key = key

/-- The counters are those of the running tasks, and within the limits. -/
structure Counted (s : OutboundScheduler) (active : List OutboundTask) : Prop where
  keys : ∀ key, key ∈ s.activeKeys ↔ ∃ task ∈ active, task.key = key
  distinct : (active.map OutboundTask.key).Nodup
  running : s.running = active.length
  media : s.mediaRunning = active.countP fun task => task.media
  provider : ∀ provider, s.providers.get? provider =
    let count := active.countP fun task => task.provider = provider
    if count = 0 then none else some (count : Int)
  within : s.running ≤ s.limits.concurrency
  mediaIn : s.mediaRunning ≤ s.limits.mediaConcurrency
  providerIn : ∀ provider, s.providerRunning provider ≤ s.limits.providerConcurrency

/-- No task at the head of an idle key could start. -/
def Conserved (s : OutboundScheduler) : Prop :=
  ∀ key task rest, s.queue key = task :: rest →
    s.limits.concurrency ≤ s.running ∨ s.Held key task

variable {s : OutboundScheduler} {active : List OutboundTask}

theorem queue_start (key : String) (task : OutboundTask) (rest : List OutboundTask)
    (other : String) :
    (s.start key task rest).queue other = if other = key then rest else s.queue other := by
  unfold start queue
  dsimp only
  by_cases hkey : other = key
  · rw [if_pos hkey, hkey]
    by_cases hrest : rest = []
    · rw [if_pos hrest, OrderedMap.get?_delete_self, hrest]
      rfl
    · rw [if_neg hrest, OrderedMap.get?_set_self]
      rfl
  · rw [if_neg hkey]
    by_cases hrest : rest = []
    · rw [if_pos hrest, OrderedMap.get?_delete_ne _ hkey]
    · rw [if_neg hrest, OrderedMap.get?_set_ne _ _ hkey, OrderedMap.get?_delete_ne _ hkey]

variable {task : OutboundTask} {key : String}

theorem Queued.start (h : s.Queued) {rest : List OutboundTask}
    (hqueue : s.queue key = task :: rest) : (s.start key task rest).Queued where
  nonempty := by
    intro other
    by_cases hrest : rest = []
    · show (if rest = [] then _ else _ : OrderedMap _ _).get? other ≠ _
      rw [if_pos hrest, OrderedMap.get?_delete]
      split
      · simp
      · exact h.nonempty other
    · show (if rest = [] then _ else _ : OrderedMap _ _).get? other ≠ _
      rw [if_neg hrest, OrderedMap.get?_set]
      split
      · exact fun heq => hrest (Option.some.inj heq)
      · next hne =>
        rw [OrderedMap.get?_delete_ne _ hne]
        exact h.nonempty other
  keyed := by
    intro other t ht
    rw [queue_start] at ht
    split at ht
    · next heq =>
      rw [heq]
      exact h.keyed key t (by rw [hqueue]; exact mem_cons_of_mem _ ht)
    · exact h.keyed other t ht

theorem Counted.providerRunning (h : s.Counted active) (provider : String) :
    s.providerRunning provider = active.countP fun task => task.provider = provider := by
  unfold OutboundScheduler.providerRunning
  rw [h.provider]
  dsimp only
  split
  · next hzero => rw [hzero]; rfl
  · rfl

theorem Counted.start (h : s.Counted active) (hkey : task.key = key) (rest : List OutboundTask)
    (hheld : ¬ s.Held key task) (hrunning : ¬ (s.limits.concurrency : Int) ≤ s.running) :
    (s.start key task rest).Counted (active ++ [task]) := by
  unfold Held at hheld
  rw [not_or, not_or] at hheld
  obtain ⟨hidle, hmedia, hprovider⟩ := hheld
  have hcount : ∀ provider, (active ++ [task]).countP (fun t => t.provider = provider) =
      active.countP (fun t => t.provider = provider) + if task.provider = provider then 1 else 0 := by
    intro provider
    rw [countP_append, countP_singleton]
    simp
  refine ⟨?_, ?_, ?_, ?_, ?_, ?_, ?_, ?_⟩
  · intro other
    show other ∈ insert key s.activeKeys ↔ _
    rw [Finset.mem_insert, h.keys]
    constructor
    · rintro (rfl | ⟨t, ht, hother⟩)
      · exact ⟨task, mem_concat_self, hkey⟩
      · exact ⟨t, mem_append_left _ ht, hother⟩
    · rintro ⟨t, ht, hother⟩
      rcases mem_append.mp ht with hold | hnew
      · exact .inr ⟨t, hold, hother⟩
      · rw [mem_singleton.mp hnew, hkey] at hother
        exact .inl hother.symm
  · rw [map_append, nodup_append]
    refine ⟨h.distinct, nodup_singleton _, ?_⟩
    intro a ha b hb heq
    -- an active key is not idle
    obtain ⟨t, ht, rfl⟩ := mem_map.mp ha
    rw [map_singleton, mem_singleton, hkey] at hb
    exact hidle ((h.keys key).mpr ⟨t, ht, heq.trans hb⟩)
  · show s.running + 1 = _
    rw [h.running, length_append]
    simp
  · show s.mediaRunning + _ = _
    rw [h.media, countP_append, countP_singleton]
    cases task.media <;> simp
  · intro provider
    show (s.providers.set task.provider _).get? provider = _
    rw [OrderedMap.get?_set, hcount, h.providerRunning]
    by_cases heq : provider = task.provider
    · rw [if_pos heq, if_pos heq.symm, if_neg (Nat.succ_ne_zero _), heq]
      simp
    · have hnone : (if task.provider = provider then 1 else 0) = 0 := if_neg fun hne => heq hne.symm
      rw [if_neg heq, hnone, add_zero]
      exact h.provider provider
  · show s.running + 1 ≤ (s.limits.concurrency : Int)
    omega
  · show s.mediaRunning + _ ≤ (s.limits.mediaConcurrency : Int)
    have hin := h.mediaIn
    cases hmediaTask : task.media with
    | true =>
      rw [hmediaTask] at hmedia
      have hlt : ¬ (s.limits.mediaConcurrency : Int) ≤ s.mediaRunning := fun hle => hmedia ⟨rfl, hle⟩
      rw [if_pos rfl]
      omega
    | false => simpa using hin
  · intro provider
    show ((s.providers.set task.provider _).get? provider).getD 0 ≤ (s.limits.providerConcurrency : Int)
    rw [OrderedMap.get?_set]
    by_cases heq : provider = task.provider
    · rw [if_pos heq, Option.getD_some]
      omega
    · rw [if_neg heq]
      exact h.providerIn provider

theorem Counted.settle (h : s.Counted active) (htask : task ∈ active) :
    (s.settle task).Counted (active.erase task) := by
  have hperm : active.Perm (task :: active.erase task) := perm_cons_erase htask
  have hcount : ∀ p : OutboundTask → Bool,
      active.countP p = (active.erase task).countP p + if p task then 1 else 0 := by
    intro p
    rw [hperm.countP_eq, countP_cons]
  have hdistinct : ((task :: active.erase task).map OutboundTask.key).Nodup :=
    (hperm.map _).nodup_iff.mp h.distinct
  rw [map_cons, nodup_cons] at hdistinct
  have hprovider : ∀ provider, (s.settle task).providers.get? provider =
      let count := (active.erase task).countP fun t => t.provider = provider
      if count = 0 then none else some (count : Int) := by
    intro provider
    have hself : (s.providers.get? task.provider).getD 1 - 1 =
        ((active.erase task).countP fun t => t.provider = task.provider : Nat) := by
      rw [h.provider, hcount]
      simp
    show (if _ then _ else _ : OrderedMap String Int).get? provider = _
    rw [hself]
    by_cases hzero : (active.erase task).countP (fun t => t.provider = task.provider) = 0
    · rw [hzero, Nat.cast_zero, if_pos rfl, OrderedMap.get?_delete]
      by_cases heq : provider = task.provider
      · rw [if_pos heq, heq]
        dsimp only
        rw [if_pos hzero]
      · rw [if_neg heq, OrderedMap.get?_set_ne _ _ heq, h.provider, hcount]
        simp [show ¬ task.provider = provider from fun hne => heq hne.symm]
    · rw [if_neg (by exact_mod_cast hzero), OrderedMap.get?_set]
      by_cases heq : provider = task.provider
      · rw [if_pos heq, heq]
        dsimp only
        rw [if_neg hzero]
      · rw [if_neg heq, h.provider, hcount]
        simp [show ¬ task.provider = provider from fun hne => heq hne.symm]
  have hrunning : (s.settle task).running = (active.erase task).length := by
    show s.running - 1 = _
    rw [h.running, hperm.length_eq, length_cons]
    simp
  have hmedia : (s.settle task).mediaRunning = (active.erase task).countP fun t => t.media := by
    show s.mediaRunning - _ = _
    rw [h.media, hcount]
    cases task.media <;> simp
  refine ⟨?_, hdistinct.2, hrunning, hmedia, hprovider, ?_, ?_, ?_⟩
  · intro key
    show key ∈ s.activeKeys.erase task.key ↔ _
    rw [Finset.mem_erase, h.keys]
    constructor
    · rintro ⟨hne, t, ht, rfl⟩
      exact ⟨t, (mem_erase_of_ne fun heq => hne (congrArg _ heq)).mpr ht, rfl⟩
    · rintro ⟨t, ht, rfl⟩
      refine ⟨fun heq => hdistinct.1 ?_, t, mem_of_mem_erase ht, rfl⟩
      exact heq ▸ mem_map_of_mem ht
  · show s.running - 1 ≤ (s.limits.concurrency : Int)
    have hin := h.within
    omega
  · show s.mediaRunning - _ ≤ (s.limits.mediaConcurrency : Int)
    have hin := h.mediaIn
    split <;> omega
  · intro provider
    have hin := h.providerIn provider
    rw [h.providerRunning, hcount] at hin
    show ((s.settle task).providers.get? provider).getD 0 ≤ (s.limits.providerConcurrency : Int)
    rw [hprovider]
    dsimp only
    split
    · simp
    · rw [Option.getD_some]
      push_cast at hin
      split at hin <;> omega

/-! ## The pump -/

theorem ofKey_append (key : String) (tasks tasks' : List OutboundTask) :
    ofKey key (tasks ++ tasks') = ofKey key tasks ++ ofKey key tasks' :=
  filter_append _ _

theorem ofKey_cons (key : String) (task : OutboundTask) (tasks : List OutboundTask) :
    ofKey key (task :: tasks) = if task.key = key then task :: ofKey key tasks else ofKey key tasks := by
  unfold ofKey
  rw [filter_cons]
  simp

theorem pumpLoop_spec (rounds : Nat) :
    ∀ {keys : List String} {s : OutboundScheduler} {active : List OutboundTask}, s.Queued →
      s.Counted active →
      (pumpLoop rounds keys s).1.Queued ∧
        (pumpLoop rounds keys s).1.Counted (active ++ (pumpLoop rounds keys s).2) ∧
        ∀ key, s.queue key = ofKey key (pumpLoop rounds keys s).2 ++ (pumpLoop rounds keys s).1.queue key := by
  induction rounds with
  | zero =>
    intro keys s active hqueued hcounted
    exact ⟨hqueued, (append_nil active).symm ▸ hcounted, fun key => rfl⟩
  | succ rounds ih =>
    intro keys s active hqueued hcounted
    have hstop : s.Queued ∧ s.Counted (active ++ []) ∧ ∀ key, s.queue key = [] ++ s.queue key :=
      ⟨hqueued, (append_nil active).symm ▸ hcounted, fun key => rfl⟩
    cases keys with
    | nil => exact hstop
    | cons key keys =>
      unfold pumpLoop
      by_cases hrunning : (s.limits.concurrency : Int) ≤ s.running
      · rw [if_pos hrunning]
        exact hstop
      · rw [if_neg hrunning]
        cases hqueue : s.queue key with
        | nil => exact ih hqueued hcounted
        | cons task rest =>
          dsimp only
          by_cases hheld : s.Held key task
          · rw [if_pos hheld]
            exact ih hqueued hcounted
          · -- the task starts: it is the first of its key, and the rest follows
            rw [if_neg hheld]
            have hkey : task.key = key :=
              hqueued.keyed key task (by rw [hqueue]; exact mem_cons_self)
            obtain ⟨hqueued', hcounted', hqueues⟩ := @ih (if rest = [] then keys else keys ++ [key]) _ _
              (hqueued.start hqueue) (hcounted.start hkey rest hheld hrunning)
            refine ⟨hqueued', ?_, fun other => ?_⟩
            · rw [append_assoc] at hcounted'
              exact hcounted'
            · have hother := hqueues other
              rw [queue_start] at hother
              rw [ofKey_cons]
              by_cases heq : other = key
              · rw [heq, if_pos rfl] at hother
                rw [heq, if_pos hkey, hqueue]
                exact congrArg (cons task) hother
              · rw [if_neg heq] at hother
                rw [if_neg fun hne => heq (hne.symm.trans hkey)]
                exact hother

theorem providerRunning_start (key : String) (task : OutboundTask) (rest : List OutboundTask)
    (provider : String) :
    s.providerRunning provider ≤ (s.start key task rest).providerRunning provider := by
  show _ ≤ ((s.providers.set task.provider _).get? provider).getD 0
  rw [OrderedMap.get?_set]
  split
  · next heq =>
    rw [heq, Option.getD_some]
    omega
  · exact Int.le_refl _

theorem Held.start {other : String} {held : OutboundTask} (h : s.Held other held) (key : String)
    (task : OutboundTask) (rest : List OutboundTask) : (s.start key task rest).Held other held := by
  rcases h with hactive | ⟨hmedia, hlimit⟩ | hlimit
  · exact .inl (Finset.mem_insert_of_mem hactive)
  · refine .inr (.inl ⟨hmedia, ?_⟩)
    show (s.limits.mediaConcurrency : Int) ≤ s.mediaRunning + _
    have hle : (s.limits.mediaConcurrency : Int) ≤ s.mediaRunning := hlimit
    split <;> omega
  · exact .inr (.inr (le_trans hlimit (providerRunning_start key task rest held.provider)))

/-- The keys to visit, and once more those that are idle. -/
def rounds (s : OutboundScheduler) (keys : List String) : Nat :=
  keys.length + (keys.filter fun key => key ∉ s.activeKeys).length

theorem rounds_start {key : String} {keys : List String} (hidle : key ∉ s.activeKeys)
    (task : OutboundTask) (rest : List OutboundTask) :
    (s.start key task rest).rounds (if rest = [] then keys else keys ++ [key]) <
      s.rounds (key :: keys) := by
  have hactive : (s.start key task rest).activeKeys = insert key s.activeKeys := rfl
  have hfewer : (keys.filter fun k => k ∉ insert key s.activeKeys).length ≤
      (keys.filter fun k => k ∉ s.activeKeys).length := by
    refine (monotone_filter_right keys fun k hk => ?_).length_le
    have hout := of_decide_eq_true hk
    exact decide_eq_true fun hmem => hout (Finset.mem_insert_of_mem hmem)
  unfold rounds
  rw [hactive, length_cons, filter_cons_of_pos (by simpa using hidle), length_cons]
  split
  · omega
  · -- the key that comes again is active by now
    rw [filter_append, length_append, length_append,
      filter_cons_of_neg (by simp), filter_nil]
    simp only [length_nil, length_singleton]
    omega

theorem pumpLoop_conserved (n : Nat) :
    ∀ {keys : List String} {s : OutboundScheduler}, s.rounds keys ≤ n →
      (∀ key task rest, s.queue key = task :: rest → key ∈ keys ∨ s.Held key task) →
      (pumpLoop n keys s).1.Conserved := by
  induction n with
  | zero =>
    intro keys s hrounds hvisited key task rest hqueue
    have hkeys : keys = [] := eq_nil_of_length_eq_zero (by unfold rounds at hrounds; omega)
    rw [hkeys] at hvisited
    exact .inr ((hvisited key task rest hqueue).resolve_left not_mem_nil)
  | succ n ih =>
    intro keys s hrounds hvisited
    cases keys with
    | nil =>
      intro key task rest hqueue
      exact .inr ((hvisited key task rest hqueue).resolve_left not_mem_nil)
    | cons key keys =>
      have hfewer : s.rounds keys ≤ n := by
        unfold rounds at hrounds ⊢
        rw [length_cons, filter_cons] at hrounds
        split at hrounds
        · rw [length_cons] at hrounds
          omega
        · omega
      unfold pumpLoop
      by_cases hrunning : (s.limits.concurrency : Int) ≤ s.running
      · rw [if_pos hrunning]
        exact fun _ _ _ _ => .inl hrunning
      · rw [if_neg hrunning]
        cases hqueue : s.queue key with
        | nil =>
          refine ih hfewer fun other task rest hother => ?_
          refine (hvisited other task rest hother).imp_left fun hmem => ?_
          refine (mem_cons.mp hmem).resolve_left ?_
          rintro rfl
          rw [hqueue] at hother
          cases hother
        | cons task rest =>
          dsimp only
          by_cases hheld : s.Held key task
          · rw [if_pos hheld]
            refine ih hfewer fun other t later hother => ?_
            rcases hvisited other t later hother with hmem | hheld'
            · rcases mem_cons.mp hmem with rfl | hmem
              · rw [hqueue] at hother
                injection hother with hfirst
                exact .inr (hfirst ▸ hheld)
              · exact .inl hmem
            · exact .inr hheld'
          · rw [if_neg hheld]
            have hidle : key ∉ s.activeKeys := fun hmem => hheld (.inl hmem)
            have hlt := @rounds_start s key keys hidle task rest
            refine ih (by omega) fun other t later hother => ?_
            rw [queue_start] at hother
            by_cases heq : other = key
            · exact .inr (.inl (heq ▸ Finset.mem_insert_self _ _))
            · rw [if_neg heq] at hother
              rcases hvisited other t later hother with hmem | hheld'
              · refine .inl ?_
                have hin := (mem_cons.mp hmem).resolve_left heq
                split
                · exact hin
                · exact mem_append_left _ hin
              · exact .inr (hheld'.start key task rest)

theorem pump_conserved (s : OutboundScheduler) : s.pump.1.Conserved := by
  refine pumpLoop_conserved _ ?_ fun key task rest hqueue => .inl ?_
  · have hle := length_filter_le (fun key => decide (key ∉ s.activeKeys)) s.queues.keys
    unfold rounds
    omega
  · rw [OrderedMap.mem_keys_iff, OrderedMap.has_iff]
    cases hget : s.queues.get? key with
    | none =>
      rw [queue, hget] at hqueue
      cases hqueue
    | some tasks => exact ⟨tasks, rfl⟩

@[simp] theorem pumpLoop_limits (rounds : Nat) (keys : List String) (s : OutboundScheduler) :
    (pumpLoop rounds keys s).1.limits = s.limits := by
  induction rounds generalizing keys s with
  | zero => rfl
  | succ rounds ih =>
    cases keys with
    | nil => rfl
    | cons key keys =>
      unfold pumpLoop
      by_cases hrunning : (s.limits.concurrency : Int) ≤ s.running
      · rw [if_pos hrunning]
      · rw [if_neg hrunning]
        cases s.queue key with
        | nil => exact ih keys s
        | cons task rest =>
          dsimp only
          by_cases hheld : s.Held key task
          · rw [if_pos hheld]
            exact ih keys s
          · rw [if_neg hheld]
            exact ih _ (s.start key task rest)

end OutboundScheduler

/-! ## The invariant of a run -/

namespace OutboundWorld

/-- Every task of a key has started, waits or was released, and the ones of a
    key that started come before the ones that wait. -/
structure Inv (w : OutboundWorld) : Prop where
  queued    : w.scheduler.Queued
  counted   : w.scheduler.Counted w.active
  conserved : w.scheduler.Conserved
  parted    : ∀ key, (ofKey key w.started ++ w.scheduler.queue key ++ ofKey key w.released).Perm
    (ofKey key w.added)
  ordered   : ∀ key, (ofKey key w.started ++ w.scheduler.queue key).Sublist (ofKey key w.added)
  numbered  : w.added.map OutboundTask.id = List.range w.added.length

variable (limits : OutboundLimits)

theorem Inv.new : (OutboundWorld.new limits).Inv where
  queued := ⟨fun _ => nofun, fun _ _ => nofun⟩
  counted :=
    { keys := fun _ => ⟨nofun, nofun⟩
      distinct := nodup_nil
      running := rfl
      media := rfl
      provider := fun _ => rfl
      within := Int.natCast_nonneg _
      mediaIn := Int.natCast_nonneg _
      providerIn := fun _ => Int.natCast_nonneg _ }
  conserved := nofun
  parted := fun _ => List.Perm.refl _
  ordered := fun _ => List.Sublist.refl _
  numbered := rfl

theorem Inv.begin {w : OutboundWorld} (hqueued : w.scheduler.Queued)
    (hcounted : w.scheduler.Counted w.active)
    (hparted : ∀ key, (ofKey key w.started ++ w.scheduler.queue key ++ ofKey key w.released).Perm
      (ofKey key w.added))
    (hordered : ∀ key, (ofKey key w.started ++ w.scheduler.queue key).Sublist (ofKey key w.added))
    (hnumbered : w.added.map OutboundTask.id = List.range w.added.length) :
    (w.begin w.scheduler.pump).Inv := by
  obtain ⟨hqueued', hcounted', hqueues⟩ := @OutboundScheduler.pumpLoop_spec
    (2 * w.scheduler.queues.keys.length) w.scheduler.queues.keys _ _ hqueued hcounted
  -- what starts was at the front of its queue
  have hmoved : ∀ key, ofKey key (w.started ++ w.scheduler.pump.2) ++ w.scheduler.pump.1.queue key =
      ofKey key w.started ++ w.scheduler.queue key := by
    intro key
    rw [OutboundScheduler.ofKey_append, append_assoc]
    exact congrArg _ (hqueues key).symm
  refine ⟨hqueued', hcounted', w.scheduler.pump_conserved, fun key => ?_, fun key => ?_, hnumbered⟩
  · have hkey := hparted key
    rw [← hmoved] at hkey
    exact hkey
  · have hkey := hordered key
    rw [← hmoved] at hkey
    exact hkey

variable {w : OutboundWorld}

theorem Inv.add (h : w.Inv) (key provider : String) (media : Bool) :
    (w.step (.add key provider media)).Inv := by
  unfold step
  dsimp only
  generalize htask : (⟨w.added.length, key, provider, media⟩ : OutboundTask) = task
  have hid : task.id = w.added.length := by rw [← htask]
  unfold OutboundScheduler.add
  by_cases hfull : (w.scheduler.limits.capacity : Int) ≤ w.scheduler.size
  · rw [if_pos hfull]
    exact h
  · rw [if_neg hfull]
    generalize hset : ({ w.scheduler with
      queues := w.scheduler.queues.set task.key (w.scheduler.queue task.key ++ [task]),
      size := w.scheduler.size + 1 } : OutboundScheduler) = s
    have hqueue : ∀ other, s.queue other =
        w.scheduler.queue other ++ if other = task.key then [task] else [] := by
      intro other
      subst hset
      show ((w.scheduler.queues.set _ _).get? other).getD [] = _
      rw [OrderedMap.get?_set]
      by_cases heq : other = task.key
      · rw [if_pos heq, if_pos heq, heq]
        rfl
      · rw [if_neg heq, if_neg heq, append_nil]
        rfl
    have hof : ∀ other, ofKey other (w.added ++ [task]) =
        ofKey other w.added ++ if other = task.key then [task] else [] := by
      intro other
      rw [OutboundScheduler.ofKey_append, OutboundScheduler.ofKey_cons]
      by_cases heq : other = task.key
      · rw [if_pos heq, if_pos heq.symm]
        rfl
      · rw [if_neg heq, if_neg fun hne => heq hne.symm]
        rfl
    refine @Inv.begin { w with scheduler := s, added := w.added ++ [task] } ⟨?_, ?_⟩ ?_ ?_ ?_ ?_
    · intro other
      subst hset
      show (w.scheduler.queues.set _ _).get? other ≠ _
      rw [OrderedMap.get?_set]
      split
      · simp
      · exact h.queued.nonempty other
    · intro other t ht
      rw [hqueue] at ht
      rcases mem_append.mp ht with hold | hnew
      · exact h.queued.keyed other t hold
      · split at hnew
        · next heq => rw [mem_singleton.mp hnew, heq]
        · cases hnew
    · subst hset
      exact ⟨h.counted.keys, h.counted.distinct, h.counted.running, h.counted.media,
        h.counted.provider, h.counted.within, h.counted.mediaIn, h.counted.providerIn⟩
    · intro other
      have hparted := h.parted other
      show (ofKey other w.started ++ s.queue other ++ ofKey other w.released).Perm
        (ofKey other (w.added ++ [task]))
      rw [hqueue, hof, ← append_assoc, append_assoc _ _ (ofKey other w.released)]
      refine (perm_append_comm.append_left _).trans ?_
      rw [← append_assoc]
      exact hparted.append_right _
    · intro other
      show (ofKey other w.started ++ s.queue other).Sublist (ofKey other (w.added ++ [task]))
      rw [hqueue, hof, ← append_assoc]
      exact (h.ordered other).append (List.Sublist.refl _)
    · show (w.added ++ [task]).map OutboundTask.id = List.range (w.added ++ [task]).length
      rw [map_append, length_append, h.numbered, map_singleton, length_singleton,
        range_succ, hid]

theorem Inv.finish (h : w.Inv) (id : Nat) (ok : Bool) : (w.step (.finish id ok)).Inv := by
  unfold step
  dsimp only
  cases hfind : w.active.find? fun task => task.id = id with
  | none => exact h
  | some task =>
    have hmem : task ∈ w.active := mem_of_find?_eq_some hfind
    exact @Inv.begin { w with scheduler := w.scheduler.settle task, active := w.active.erase task }
      ⟨h.queued.nonempty, h.queued.keyed⟩ (h.counted.settle hmem) h.parted h.ordered h.numbered

theorem Inv.release (h : w.Inv) (key : String) : (w.step (.release key)).Inv := by
  have hqueue : ∀ other, (w.scheduler.releaseQueued key).1.queue other =
      if other = key then [] else w.scheduler.queue other := by
    intro other
    show ((w.scheduler.queues.delete key).get? other).getD [] = _
    rw [OrderedMap.get?_delete]
    by_cases heq : other = key
    · rw [if_pos heq, if_pos heq]
      rfl
    · rw [if_neg heq, if_neg heq]
      rfl
  -- the released tasks are all of one key
  have hfreed : ∀ other, ofKey other (w.scheduler.queue key) =
      if other = key then w.scheduler.queue key else [] := by
    intro other
    by_cases heq : other = key
    · rw [if_pos heq, heq]
      exact filter_eq_self.mpr fun task ht => decide_eq_true (h.queued.keyed key task ht)
    · rw [if_neg heq]
      refine filter_eq_nil_iff.mpr fun task ht => ?_
      rw [decide_eq_true_eq, h.queued.keyed key task ht]
      exact fun hne => heq hne.symm
  refine ⟨⟨?_, ?_⟩, ?_, ?_, fun other => ?_, fun other => ?_, h.numbered⟩
  · intro other
    show (w.scheduler.queues.delete key).get? other ≠ _
    rw [OrderedMap.get?_delete]
    split
    · simp
    · exact h.queued.nonempty other
  · intro other task ht
    have hin : task ∈ (w.scheduler.releaseQueued key).1.queue other := ht
    rw [hqueue] at hin
    split at hin
    · cases hin
    · exact h.queued.keyed other task hin
  · exact ⟨h.counted.keys, h.counted.distinct, h.counted.running, h.counted.media,
      h.counted.provider, h.counted.within, h.counted.mediaIn, h.counted.providerIn⟩
  · intro other task rest hother
    have hin : (w.scheduler.releaseQueued key).1.queue other = task :: rest := hother
    rw [hqueue] at hin
    split at hin
    · cases hin
    · exact h.conserved other task rest hin
  · show (ofKey other w.started ++ (w.scheduler.releaseQueued key).1.queue other ++
      ofKey other (w.released ++ w.scheduler.queue key)).Perm (ofKey other w.added)
    rw [hqueue, OutboundScheduler.ofKey_append, hfreed]
    refine List.Perm.trans ?_ (h.parted other)
    by_cases heq : other = key
    · rw [if_pos heq, if_pos heq, append_nil, append_assoc, heq]
      exact perm_append_comm.append_left _
    · rw [if_neg heq, if_neg heq, append_nil]
  · show (ofKey other w.started ++ (w.scheduler.releaseQueued key).1.queue other).Sublist
      (ofKey other w.added)
    rw [hqueue]
    refine List.Sublist.trans (List.Sublist.append (List.Sublist.refl _) ?_) (h.ordered other)
    split
    · exact nil_sublist _
    · exact List.Sublist.refl _

theorem Inv.step {w : OutboundWorld} (h : w.Inv) (event : OutboundEvent) : (w.step event).Inv := by
  cases event with
  | add key provider media => exact h.add key provider media
  | finish id ok => exact h.finish id ok
  | release key => exact h.release key

theorem Inv.run (events : List OutboundEvent) : (machine.run (.new limits) events).1.Inv :=
  Mealy.run_invariant_of_step (I := Inv) (fun _ event hw => hw.step event) (Inv.new limits) events

theorem step_limits (w : OutboundWorld) (event : OutboundEvent) :
    (w.step event).scheduler.limits = w.scheduler.limits := by
  cases event with
  | add key provider media =>
    unfold step
    dsimp only
    unfold OutboundScheduler.add
    split
    · next hadd => rfl
    · next pumped hadd =>
      split at hadd
      · cases hadd
      · rw [← Option.some.inj hadd]
        exact OutboundScheduler.pumpLoop_limits _ _ _
  | finish id ok =>
    unfold step
    dsimp only
    split
    · rfl
    · exact OutboundScheduler.pumpLoop_limits _ _ _
  | release key => rfl

theorem run_limits (events : List OutboundEvent) :
    (machine.run (.new limits) events).1.scheduler.limits = limits :=
  Mealy.run_invariant_of_step (I := fun w => w.scheduler.limits = limits)
    (fun w event hw => (step_limits w event).trans hw) rfl events

theorem Inv.places (h : w.Inv) (task : OutboundTask) :
    w.started.count task + w.released.count task + (w.scheduler.queue task.key).count task =
      if task ∈ w.added then 1 else 0 := by
  have hself : ∀ tasks : List OutboundTask, (ofKey task.key tasks).count task = tasks.count task :=
    fun tasks => count_filter (decide_eq_true rfl)
  have hnodup : w.added.Nodup := by
    refine List.Nodup.of_map OutboundTask.id ?_
    rw [h.numbered]
    exact nodup_range
  have hcount := (h.parted task.key).count_eq task
  rw [count_append, count_append, hself, hself, hself, hnodup.count] at hcount
  omega

end OutboundWorld

theorem OutboundWorld.Inv.drained {w : OutboundWorld} (h : w.Inv) (hidle : w.active = [])
    (hall : 0 < w.scheduler.limits.concurrency) (hmedia : 0 < w.scheduler.limits.mediaConcurrency)
    (hprovider : 0 < w.scheduler.limits.providerConcurrency) (key : String) :
    w.scheduler.queue key = [] := by
  have hcounted := h.counted
  rw [hidle] at hcounted
  cases hqueue : w.scheduler.queue key with
  | nil => rfl
  | cons task rest =>
    exfalso
    rcases h.conserved key task rest hqueue with hfull | hactive | ⟨-, hfull⟩ | hfull
    · rw [hcounted.running, length_nil] at hfull
      omega
    · obtain ⟨other, hmem, -⟩ := (hcounted.keys key).mp hactive
      cases hmem
    · rw [hcounted.media, countP_nil] at hfull
      omega
    · rw [hcounted.providerRunning, countP_nil] at hfull
      omega

/-! ## Scheduling -/

/-- Over every run: each task is in one place, the tasks of a key start in order
    and one at a time, the counters are right and within the limits, and no task
    that could start waits. -/
theorem outbound_scheduling (limits : OutboundLimits) (events : List OutboundEvent) :
    let w := (OutboundWorld.machine.run (.new limits) events).1
    (∀ task, w.started.count task + w.released.count task +
        (w.scheduler.queue task.key).count task = if task ∈ w.added then 1 else 0) ∧
      (w.active.map OutboundTask.key).Nodup ∧
      (∀ key, (ofKey key w.started).Sublist (ofKey key w.added)) ∧
      w.scheduler.running = w.active.length ∧
      w.scheduler.mediaRunning = (w.active.countP fun task => task.media) ∧
      (∀ provider, w.scheduler.providerRunning provider =
        w.active.countP fun task => task.provider = provider) ∧
      w.active.length ≤ limits.concurrency ∧
      (w.active.countP fun task => task.media) ≤ limits.mediaConcurrency ∧
      (∀ provider, (w.active.countP fun task => task.provider = provider) ≤
        limits.providerConcurrency) ∧
      (∀ key task rest, w.scheduler.queue key = task :: rest →
        (∀ other ∈ w.active, other.key ≠ key) →
        limits.concurrency ≤ w.active.length ∨
          (task.media = true ∧ limits.mediaConcurrency ≤ w.active.countP fun t => t.media) ∨
          limits.providerConcurrency ≤ w.active.countP fun t => t.provider = task.provider) ∧
      (0 < limits.concurrency → 0 < limits.mediaConcurrency → 0 < limits.providerConcurrency →
        w.active = [] → ∀ task, w.started.count task + w.released.count task =
          if task ∈ w.added then 1 else 0) := by
  intro w
  have h : w.Inv := OutboundWorld.Inv.run limits events
  have hlimits : w.scheduler.limits = limits := OutboundWorld.run_limits limits events
  have hcounted := h.counted
  refine ⟨h.places, hcounted.distinct, fun key => ?_, hcounted.running, hcounted.media,
    hcounted.providerRunning, ?_, ?_, fun provider => ?_, fun key task rest hqueue hidle => ?_,
    fun hall hmedia hprovider hidle task => ?_⟩
  · exact (List.sublist_append_left _ _).trans (h.ordered key)
  · have hin := hcounted.within
    rw [hcounted.running, hlimits] at hin
    exact_mod_cast hin
  · have hin := hcounted.mediaIn
    rw [hcounted.media, hlimits] at hin
    exact_mod_cast hin
  · have hin := hcounted.providerIn provider
    rw [hcounted.providerRunning, hlimits] at hin
    exact_mod_cast hin
  · rcases h.conserved key task rest hqueue with hfull | hactive | ⟨hmedia, hfull⟩ | hfull
    · rw [hcounted.running, hlimits] at hfull
      exact .inl (by exact_mod_cast hfull)
    · obtain ⟨other, hmem, hkey⟩ := (hcounted.keys key).mp hactive
      exact absurd hkey (hidle other hmem)
    · rw [hcounted.media, hlimits] at hfull
      exact .inr (.inl ⟨hmedia, by exact_mod_cast hfull⟩)
    · rw [hcounted.providerRunning, hlimits] at hfull
      exact .inr (.inr (by exact_mod_cast hfull))
  · have hplace := h.places task
    rw [h.drained hidle (by rwa [hlimits]) (by rwa [hlimits]) (by rwa [hlimits])] at hplace
    exact hplace

end Cohub.Gateway
