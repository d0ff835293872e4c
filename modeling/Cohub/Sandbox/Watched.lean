import Cohub.Sandbox.SnapshotDiff

/-! # The consumer of a watcher converges

    Everything on its way to the consumer is one sequence: the batches, what is
    pending, and the changes that were not enqueued.  At each path the last item
    of it that decides must lead to what is there now, where a resync decides
    for what is there now.  Merging keeps what is decided last, and cutting the
    sequence before a resync keeps it too. -/

namespace Cohub.Sandbox

open LastWrite List OrderedMap

variable {Path : Type} [LinearOrder Path]

/-! ## What is on its way -/

/-- Whether an item says that `path` is there; `none` is a resync. -/
def tells (reading : Reading) (path : Path) (present : Bool) : Option (Change Path) → Option Bool
  | none => some present
  | some change => if change.path = path then reading.effect change.kind else none

def itemsOf (resync : Bool) (changes : List (Change Path)) : List (Option (Change Path)) :=
  (if resync then [none] else []) ++ changes.map some

namespace WatchWorld

def items (w : WatchWorld Path) : List (Option (Change Path)) :=
  (w.batches.flatMap fun batch => itemsOf batch.resync batch.changes) ++
    (itemsOf w.watcher.resync (w.watcher.pending.entries.map Prod.snd) ++ w.waiting.map some)

def present (reading : Reading) (initial : Finset Path) (w : WatchWorld Path) : Finset Path :=
  reading.applyAll initial w.happened

end WatchWorld

variable (reading : Reading) (path : Path) (paths : Finset Path)

theorem mem_apply (change : Change Path) (present : Bool) :
    decide (path ∈ reading.apply paths change) =
      (tells reading path present (some change)).getD (decide (path ∈ paths)) := by
  unfold Reading.apply tells
  dsimp only
  by_cases hpath : change.path = path
  · rw [if_pos hpath, ← hpath]
    cases reading.effect change.kind with
    | none => rfl
    | some added => cases added <;> simp
  · have hne : ¬ path = change.path := fun heq => hpath heq.symm
    rw [if_neg hpath]
    cases reading.effect change.kind with
    | none => rfl
    | some added => cases added <;> simp [hne]

theorem mem_applyAll (changes : List (Change Path)) (present : Bool) :
    decide (path ∈ reading.applyAll paths changes) =
      (last (tells reading path present) (changes.map some)).getD (decide (path ∈ paths)) := by
  have hread := @read_foldl _ _ _ (fun change => tells reading path present (some change))
    reading.apply (fun s => decide (path ∈ s))
    (fun s change => mem_apply reading path s change present) changes paths
  have hmap : last (tells reading path present) (changes.map some) =
      last (fun change => tells reading path present (some change)) changes := by
    unfold last
    rw [← map_reverse, findSome?_map]
    rfl
  rw [hmap]
  exact hread

theorem mem_applyBatch (present paths : Finset Path) (batch : Batch Path) :
    decide (path ∈ reading.applyBatch present paths batch) =
      (last (tells reading path (decide (path ∈ present))) (itemsOf batch.resync batch.changes)).getD
        (decide (path ∈ paths)) := by
  unfold Reading.applyBatch itemsOf
  rw [mem_applyAll reading path _ _ (decide (path ∈ present)), last_append]
  cases batch.resync with
  | false =>
    rw [if_neg Bool.false_ne_true, if_neg Bool.false_ne_true, last_nil, Option.or_none]
  | true =>
    rw [if_pos rfl, if_pos rfl, last_singleton]
    cases last (tells reading path (decide (path ∈ present))) (batch.changes.map some) <;> rfl

omit [LinearOrder Path] in
theorem effect_mergeChange (a b : Change Path)
    (h : reading = .keeps → a.kind = .delete → b.kind ≠ .modify) :
    reading.effect (mergeChange a b).kind = (reading.effect b.kind).or (reading.effect a.kind) := by
  unfold mergeChange
  cases reading <;> cases ha : a.kind <;> cases hb : b.kind <;> simp_all [Reading.effect]

theorem mem_changes (pending : OrderedMap Path (Change Path)) (change : Change Path) :
    change ∈ pending.entries.map Prod.snd ↔ ∃ path, pending.get? path = some change := by
  rw [mem_map]
  constructor
  · rintro ⟨⟨path, c⟩, hmem, rfl⟩
    exact ⟨path, (mem_entries_iff _ _ _).mp hmem⟩
  · rintro ⟨path, hget⟩
    exact ⟨(path, change), (mem_entries_iff _ _ _).mpr hget, rfl⟩

variable {changes : List (Change Path)}

theorem last_pending {pending : OrderedMap Path (Change Path)}
    (hkeyed : ∀ path change, pending.get? path = some change → change.path = path)
    (hchanges : ∀ change, change ∈ changes ↔ ∃ path, pending.get? path = some change)
    (path : Path) (present : Bool) :
    last (tells reading path present) (changes.map some) =
      (pending.get? path).bind fun change => reading.effect change.kind := by
  -- an item of another path does not decide
  have hother : ∀ change ∈ changes, change.path ≠ path →
      tells reading path present (some change) = none := fun change _ hne => if_neg hne
  cases hget : pending.get? path with
  | none =>
    refine last_eq_none _ fun item hitem => ?_
    obtain ⟨change, hmem, rfl⟩ := mem_map.mp hitem
    refine hother change hmem fun heq => ?_
    obtain ⟨key, hkey⟩ := (hchanges change).mp hmem
    rw [← hkeyed key change hkey, heq, hget] at hkey
    cases hkey
  | some change =>
    have hpath : change.path = path := hkeyed path change hget
    rw [last_unique _ (mem_map_of_mem ((hchanges change).mpr ⟨path, hget⟩))]
    · exact if_pos hpath
    · intro item hitem hne
      obtain ⟨change', hmem, rfl⟩ := mem_map.mp hitem
      refine hother change' hmem fun heq => hne ?_
      obtain ⟨key, hkey⟩ := (hchanges change').mp hmem
      rw [← hkeyed key change' hkey, heq, hget] at hkey
      rw [Option.some.inj hkey]

/-! ## Deletions that were followed by nothing -/

/-- The last of the changes before `waiting` to the path is its deletion. -/
def DeletedLast (happened waiting : List (Change Path)) (path : Path) : Prop :=
  ∃ before change after, happened = before ++ change :: (after ++ waiting) ∧ change.path = path ∧
    change.kind = .delete ∧ ∀ later ∈ after, later.path ≠ path

theorem Recreated.suffix {before : List (Change Path)} (h : Recreated (before ++ changes)) :
    Recreated changes := by
  induction before with
  | nil => exact h
  | cons change rest ih => exact ih h.2

theorem Recreated.initial {later : List (Change Path)} (h : Recreated (changes ++ later)) :
    Recreated changes := by
  induction changes with
  | nil => trivial
  | cons change rest ih =>
    refine ⟨fun hkind hfirst => h.1 hkind ?_, ih h.2⟩
    unfold firstKind at hfirst ⊢
    rw [Option.map_eq_some_iff] at hfirst
    obtain ⟨found, hfound, hmodify⟩ := hfirst
    rw [append_eq, find?_append, hfound]
    exact congrArg some hmodify

theorem DeletedLast.not_modify {happened rest : List (Change Path)} {next : Change Path}
    (h : DeletedLast happened (next :: rest) next.path) (hrecreated : Recreated happened) :
    next.kind ≠ .modify := by
  obtain ⟨before, change, after, rfl, hpath, hkind, hafter⟩ := h
  have hfirst := hrecreated.suffix.1 hkind
  have hnone : after.find? (fun c => c.path = change.path) = none := by
    refine find?_eq_none.mpr fun c hc => ?_
    rw [decide_eq_true_eq, hpath]
    exact hafter c hc
  unfold firstKind at hfirst
  rw [find?_append, hnone, Option.none_or, find?_cons, decide_eq_true hpath.symm] at hfirst
  exact fun heq => hfirst (congrArg some heq)

/-! ## The invariant -/

namespace WatchWorld

variable (initial : Finset Path)

structure Inv (w : WatchWorld Path) : Prop where
  opened  : w.watcher.closed = false
  cleared : w.watcher.resync = true → w.watcher.pending = OrderedMap.empty
  keyed   : ∀ path change, w.watcher.pending.get? path = some change → change.path = path
  behind  : ∃ enqueued, w.happened = enqueued ++ w.waiting
  deleted : ∀ path change, w.watcher.pending.get? path = some change → change.kind = .delete →
    DeletedLast w.happened w.waiting path
  decided : ∀ path, (last (tells reading path (decide (path ∈ w.present reading initial)))
    w.items).getD (decide (path ∈ w.paths)) = decide (path ∈ w.present reading initial)

/-- A flush is due whenever there is something to hand on. -/
def Due (w : WatchWorld Path) : Prop :=
  w.watcher.timer = false → w.watcher.resync = false ∧ w.watcher.pending.entries = []

variable {change : Change Path}

theorem get?_empty_ne {path : Path} {P : Prop}
    (h : (OrderedMap.empty : OrderedMap Path (Change Path)).get? path = some change) : P := by
  cases h

theorem Inv.start : (start initial).Inv reading initial where
  opened := rfl
  cleared := nofun
  keyed := fun _ _ h => get?_empty_ne h
  behind := ⟨[], rfl⟩
  deleted := fun _ _ h => get?_empty_ne h
  decided := fun _ => rfl

variable {reading initial} {w : WatchWorld Path}

theorem Inv.happen (h : w.Inv reading initial) (change : Change Path) :
    (w.step reading initial (.happen change)).Inv reading initial where
  opened := h.opened
  cleared := h.cleared
  keyed := h.keyed
  behind := by
    obtain ⟨enqueued, hbehind⟩ := h.behind
    refine ⟨enqueued, ?_⟩
    show w.happened ++ [change] = enqueued ++ (w.waiting ++ [change])
    rw [hbehind, append_assoc]
  deleted := by
    intro path pending hget hkind
    obtain ⟨before, deleted, after, hsplit, hpath⟩ := h.deleted path pending hget hkind
    refine ⟨before, deleted, after, ?_, hpath⟩
    show w.happened ++ [change] = before ++ deleted :: (after ++ (w.waiting ++ [change]))
    rw [hsplit]
    simp
  decided := by
    intro path
    have hdecided := h.decided path
    have hitems : (w.step reading initial (.happen change)).items = w.items ++ [some change] := by
      simp [items, step]
    have hpresent : (w.step reading initial (.happen change)).present reading initial =
        reading.apply (w.present reading initial) change := by
      show reading.applyAll initial (w.happened ++ [change]) = _
      exact foldl_concat _ _ _ _
    rw [hitems, hpresent, last_append, last_singleton]
    have hmem := fun b => mem_apply reading path (w.present reading initial) change b
    cases htells : tells reading path
        (decide (path ∈ reading.apply (w.present reading initial) change)) (some change) with
    | some added =>
      -- the change decides
      rw [hmem, htells]
      rfl
    | none =>
      -- the path is as it was
      rw [hmem, htells]
      exact hdecided

theorem Inv.decided_congr (h : w.Inv reading initial) {w' : WatchWorld Path}
    (hhappened : w'.happened = w.happened) (hpaths : w'.paths = w.paths)
    (hlast : ∀ path present, last (tells reading path present) w'.items =
      last (tells reading path present) w.items) (path : Path) :
    (last (tells reading path (decide (path ∈ w'.present reading initial))) w'.items).getD
      (decide (path ∈ w'.paths)) = decide (path ∈ w'.present reading initial) := by
  have hpresent : w'.present reading initial = w.present reading initial :=
    congrArg (reading.applyAll initial) hhappened
  rw [hpresent, hlast, hpaths]
  exact h.decided path

theorem Inv.flush (h : w.Inv reading initial) :
    (w.step reading initial .flush).Inv reading initial := by
  have hflush : w.watcher.flush = if w.watcher.resync = false ∧
      w.watcher.pending.entries.map Prod.snd = [] then
        ({ w.watcher with pending := OrderedMap.empty, resync := false, timer := false }, none)
      else ({ w.watcher with pending := OrderedMap.empty, resync := false, timer := false,
                             seq := w.watcher.seq + 1 },
        some ⟨w.watcher.seq + 1, w.watcher.resync,
          Watcher.sortChanges (w.watcher.pending.entries.map Prod.snd)⟩) := by
    unfold Watcher.flush
    rw [if_neg (by rw [h.opened]; exact Bool.false_ne_true)]
  unfold step
  dsimp only
  rw [hflush]
  by_cases hnone : w.watcher.resync = false ∧ w.watcher.pending.entries.map Prod.snd = []
  · rw [if_pos hnone]
    refine ⟨h.opened, fun _ => rfl, fun _ _ hget => get?_empty_ne hget, h.behind, fun _ _ hget => get?_empty_ne hget,
      h.decided_congr rfl rfl fun path present => ?_⟩
    have hentries : w.watcher.pending.entries = [] := map_eq_nil_iff.mp hnone.2
    simp [items, itemsOf, OrderedMap.empty, hnone.1, hentries]
  · rw [if_neg hnone]
    refine ⟨h.opened, fun _ => rfl, fun _ _ hget => get?_empty_ne hget, h.behind, fun _ _ hget => get?_empty_ne hget,
      h.decided_congr rfl rfl fun path present => ?_⟩
    -- the batch has the pending changes in another order
    have hsorted : last (tells reading path present)
          ((Watcher.sortChanges (w.watcher.pending.entries.map Prod.snd)).map some) =
        last (tells reading path present) ((w.watcher.pending.entries.map Prod.snd).map some) := by
      rw [last_pending reading h.keyed (mem_changes _), last_pending reading h.keyed]
      intro change
      rw [← mem_changes]
      exact (mergeSort_perm _ _).mem_iff
    simp [items, itemsOf, OrderedMap.empty, hsorted, Option.or_assoc]

theorem Inv.deliver (h : w.Inv reading initial) :
    (w.step reading initial .deliver).Inv reading initial := by
  unfold step
  dsimp only
  cases hbatches : w.batches with
  | nil => exact h
  | cons batch rest =>
    refine ⟨h.opened, h.cleared, h.keyed, h.behind, h.deleted, fun path => ?_⟩
    have hdecided := h.decided path
    unfold items at hdecided ⊢
    rw [hbatches, flatMap_cons, append_assoc, last_append] at hdecided
    dsimp only
    rw [mem_applyBatch]
    have hsame : (last (tells reading path (decide (path ∈ w.present reading initial)))
        (itemsOf batch.resync batch.changes)).getD (decide (path ∈ w.paths)) =
      (last (tells reading path (decide (path ∈ reading.applyAll initial w.happened)))
        (itemsOf batch.resync batch.changes)).getD (decide (path ∈ w.paths)) := rfl
    rw [← hsame]
    rw [Option.getD_or] at hdecided
    exact hdecided

theorem Inv.decided_cut (h : w.Inv reading initial) {w' : WatchWorld Path}
    (hhappened : w'.happened = w.happened) {front : List (Option (Change Path))}
    {dropped : List (Change Path)} (hitems : w'.items = front ++ none :: w'.waiting.map some)
    (hwaiting : w.waiting = dropped ++ w'.waiting) (path : Path) :
    (last (tells reading path (decide (path ∈ w'.present reading initial))) w'.items).getD
      (decide (path ∈ w'.paths)) = decide (path ∈ w'.present reading initial) := by
  have hpresent : w'.present reading initial = w.present reading initial :=
    congrArg (reading.applyAll initial) hhappened
  have hdecided := h.decided path
  unfold items at hdecided
  rw [hwaiting, map_append, ← append_assoc, ← append_assoc] at hdecided
  have hsuffix := last_suffix _ hdecided
  rw [hitems, hpresent, last_append, last_cons]
  cases hlast : last (tells reading path (decide (path ∈ w.present reading initial)))
      (w'.waiting.map some) with
  | none => rfl
  | some there =>
    rw [hlast] at hsuffix
    exact hsuffix

theorem Inv.resync (h : w.Inv reading initial) :
    (w.step reading initial .resync).Inv reading initial := by
  have hresync : w.watcher.enqueueResync =
      { w.watcher with pending := OrderedMap.empty, resync := true, timer := true } :=
    if_neg (by rw [h.opened]; exact Bool.false_ne_true)
  unfold step
  dsimp only
  rw [hresync]
  exact ⟨h.opened, fun _ => rfl, fun _ _ hget => get?_empty_ne hget, h.behind, fun _ _ hget => get?_empty_ne hget,
    h.decided_cut rfl rfl (nil_append _).symm⟩

theorem Inv.join (h : w.Inv reading initial) {merged : Change Path}
    {rest : List (Change Path)} (hwaiting : w.waiting = change :: rest)
    (hresync : ¬ w.watcher.resync = true) (hpath : merged.path = change.path) (hdelete : merged.kind = .delete → change.kind = .delete)
    (heffect : reading.effect merged.kind = (reading.effect change.kind).or
      ((w.watcher.pending.get? change.path).bind fun previous => reading.effect previous.kind)) :
    WatchWorld.Inv reading initial
      { w with watcher := { w.watcher with
                  pending := w.watcher.pending.set change.path merged, timer := true },
               waiting := rest } := by
  obtain ⟨enqueued, hbehind⟩ := h.behind
  rw [hwaiting] at hbehind
  have hkeyed : ∀ path c, (w.watcher.pending.set change.path merged).get? path = some c →
      c.path = path := by
    intro path c hget
    rw [get?_set] at hget
    split at hget
    · next heq => rw [← Option.some.inj hget, hpath, heq]
    · exact h.keyed path c hget
  refine ⟨h.opened, fun htrue => absurd htrue hresync, hkeyed, ⟨enqueued ++ [change], ?_⟩, ?_, ?_⟩
  · show w.happened = enqueued ++ [change] ++ rest
    rw [hbehind, append_assoc]
    rfl
  · intro path c hget hkind
    show DeletedLast w.happened rest path
    rw [get?_set] at hget
    split at hget
    · next heq =>
      rw [← Option.some.inj hget] at hkind
      exact ⟨enqueued, change, [], hbehind, heq.symm, hdelete hkind, fun _ h => absurd h not_mem_nil⟩
    · next hne =>
      obtain ⟨before, deleted, after, hsplit, hdpath, hdkind, hafter⟩ :=
        h.deleted path c hget hkind
      refine ⟨before, deleted, after ++ [change], ?_, hdpath, hdkind, fun later hlater => ?_⟩
      · rw [hsplit, hwaiting, append_assoc]
        rfl
      · rcases mem_append.mp hlater with hold | hnew
        · exact hafter later hold
        · rw [mem_singleton.mp hnew]
          exact fun heq => hne heq.symm
  · refine h.decided_congr rfl rfl fun path present => ?_
    have hmerged : last (tells reading path present)
          (((w.watcher.pending.set change.path merged).entries.map Prod.snd).map some) =
        (tells reading path present (some change)).or (last (tells reading path present)
          ((w.watcher.pending.entries.map Prod.snd).map some)) := by
      rw [last_pending reading hkeyed (mem_changes _), last_pending reading h.keyed (mem_changes _),
        get?_set]
      have htells : tells reading path present (some change) =
        if change.path = path then reading.effect change.kind else none := rfl
      rw [htells]
      by_cases heq : path = change.path
      · rw [if_pos heq, if_pos heq.symm, heq]
        exact heffect
      · rw [if_neg heq, if_neg fun hne => heq hne.symm, Option.none_or]
    simp only [items, itemsOf, hwaiting, map_cons, last_append, last_cons, hmerged,
      Option.or_assoc]

theorem Inv.enqueue (h : w.Inv reading initial) (hrecreated : reading = .keeps → Recreated w.happened) :
    (w.step reading initial .enqueue).Inv reading initial := by
  unfold step
  dsimp only
  cases hwaiting : w.waiting with
  | nil => exact h
  | cons change rest =>
    obtain ⟨enqueued, hbehind⟩ := h.behind
    rw [hwaiting] at hbehind
    have hbehind' : w.happened = enqueued ++ [change] ++ rest := by
      rw [hbehind, append_assoc]
      rfl
    have hcut : w.waiting = [change] ++ rest := hwaiting
    have henqueue : w.watcher.enqueue change = if w.watcher.resync then
        ({ w.watcher with timer := true }, false)
      else match w.watcher.pending.get? change.path with
        | none =>
            if maxBatchSize ≤ w.watcher.pending.size then
              ({ w.watcher with pending := OrderedMap.empty, resync := true, timer := true }, false)
            else ({ w.watcher with pending := w.watcher.pending.set change.path change,
                                   timer := true }, true)
        | some previous =>
            ({ w.watcher with
                pending := w.watcher.pending.set change.path (mergeChange previous change),
                timer := true }, true) :=
      if_neg (by rw [h.opened]; exact Bool.false_ne_true)
    dsimp only
    rw [henqueue]
    by_cases hresync : w.watcher.resync = true
    · -- the resync stands for the change
      rw [if_pos hresync]
      refine ⟨h.opened, h.cleared, h.keyed, ⟨_, hbehind'⟩, fun path c hget => ?_,
        @Inv.decided_cut _ _ _ _ w h _ rfl
          (w.batches.flatMap fun batch => itemsOf batch.resync batch.changes) _ ?_ hcut⟩
      · rw [h.cleared hresync] at hget
        cases hget
      · unfold items
        dsimp only
        rw [hresync, h.cleared hresync]
        rfl
    · rw [if_neg hresync]
      cases hget : w.watcher.pending.get? change.path with
      | none =>
        dsimp only
        by_cases hfull : maxBatchSize ≤ w.watcher.pending.size
        · -- too many paths: a resync instead
          rw [if_pos hfull]
          exact ⟨h.opened, fun _ => rfl, fun _ _ hget' => get?_empty_ne hget', ⟨_, hbehind'⟩,
            fun _ _ hget' => get?_empty_ne hget', h.decided_cut rfl rfl hcut⟩
        · rw [if_neg hfull]
          refine h.join hwaiting hresync rfl id ?_
          rw [hget]
          exact Option.or_none.symm
      | some previous =>
        dsimp only
        have hpath : (mergeChange previous change).path = change.path := by
          unfold mergeChange
          split_ifs <;> rfl
        refine h.join hwaiting hresync hpath (fun hkind => ?_) ?_
        · unfold mergeChange at hkind
          split_ifs at hkind with hdelete
          · exact hdelete
          · exact hkind
        · rw [hget]
          refine effect_mergeChange reading previous change fun hkeeps hdelete => ?_
          have hlast := h.deleted change.path previous hget hdelete
          rw [hwaiting] at hlast
          exact hlast.not_modify (hrecreated hkeeps)

theorem Inv.step (h : w.Inv reading initial) (hrecreated : reading = .keeps → Recreated w.happened)
    (event : WatchEvent Path) : (w.step reading initial event).Inv reading initial := by
  cases event with
  | happen change => exact h.happen change
  | enqueue => exact h.enqueue hrecreated
  | resync => exact h.resync
  | flush => exact h.flush
  | deliver => exact h.deliver

/-- What has happened in a run. -/
def changesOf (events : List (WatchEvent Path)) : List (Change Path) :=
  events.filterMap fun event => match event with
    | .happen change => some change
    | _ => none

theorem step_happened (reading : Reading) (initial : Finset Path) (w : WatchWorld Path)
    (event : WatchEvent Path) :
    (w.step reading initial event).happened = w.happened ++ changesOf [event] := by
  cases event with
  | happen change => rfl
  | enqueue =>
    unfold step
    dsimp only
    split <;> exact (append_nil _).symm
  | resync => exact (append_nil _).symm
  | flush => exact (append_nil _).symm
  | deliver =>
    unfold step
    dsimp only
    split <;> exact (append_nil _).symm

theorem run_happened (reading : Reading) (initial : Finset Path) (events : List (WatchEvent Path)) :
    ((machine reading initial).run (start initial) events).1.happened = changesOf events := by
  induction events using reverseRecOn with
  | nil => rfl
  | append_singleton events event ih =>
    rw [Mealy.run_concat]
    show (WatchWorld.step _ _ _ event).happened = _
    rw [step_happened, ih]
    exact (filterMap_append).symm

theorem Inv.run (reading : Reading) (initial : Finset Path) (events : List (WatchEvent Path))
    (h : reading = .keeps → Recreated (changesOf events)) :
    ((machine reading initial).run (WatchWorld.start initial) events).1.Inv reading initial := by
  induction events using reverseRecOn with
  | nil => exact Inv.start reading initial
  | append_singleton events event ih =>
    have hbefore : reading = .keeps → Recreated (changesOf events) := by
      intro hkeeps
      have hall := h hkeeps
      unfold changesOf at hall
      rw [filterMap_append] at hall
      exact hall.initial
    rw [Mealy.run_concat]
    exact (ih hbefore).step (fun hkeeps => run_happened reading initial events ▸ hbefore hkeeps) event

/-! ## A run comes to rest -/

theorem enqueue_due (watcher : Watcher Path) (change : Change Path) :
    (watcher.enqueue change).1 = watcher ∨
      (watcher.enqueue change).1.timer = true ∧ (watcher.enqueue change).1.closed = watcher.closed := by
  unfold Watcher.enqueue
  by_cases hclosed : watcher.closed = true
  · rw [if_pos hclosed]
    exact .inl rfl
  · rw [if_neg hclosed]
    by_cases hresync : watcher.resync = true
    · rw [if_pos hresync]
      exact .inr ⟨rfl, rfl⟩
    · rw [if_neg hresync]
      cases watcher.pending.get? change.path with
      | none =>
        dsimp only
        split <;> exact .inr ⟨rfl, rfl⟩
      | some previous => exact .inr ⟨rfl, rfl⟩

theorem Due.step (h : w.Due) (reading : Reading) (initial : Finset Path) (event : WatchEvent Path) :
    (w.step reading initial event).Due := by
  cases event with
  | happen change => exact h
  | enqueue =>
    unfold WatchWorld.step
    dsimp only
    cases w.waiting with
    | nil => exact h
    | cons change rest =>
      unfold Due at h ⊢
      dsimp only
      rcases enqueue_due w.watcher change with hsame | ⟨htimer, -⟩
      · rw [hsame]
        exact h
      · rw [htimer]
        exact nofun
  | resync =>
    unfold WatchWorld.step Watcher.enqueueResync
    dsimp only
    split_ifs
    · exact h
    · exact nofun
  | flush =>
    unfold WatchWorld.step Watcher.flush
    dsimp only
    split_ifs
    · exact h
    · exact fun _ => ⟨rfl, rfl⟩
    · exact fun _ => ⟨rfl, rfl⟩
  | deliver =>
    unfold WatchWorld.step
    dsimp only
    cases w.batches <;> exact h

theorem run_due (reading : Reading) (initial : Finset Path) (events : List (WatchEvent Path)) :
    ((machine reading initial).run (start initial) events).1.Due :=
  Mealy.run_invariant_of_step (I := Due) (fun _ event hw => hw.step reading initial event)
    (fun _ => ⟨rfl, rfl⟩) events

/-- The waiting changes are enqueued, a flush follows, and the batches are applied. -/
def settling (w : WatchWorld Path) : List (WatchEvent Path) :=
  List.replicate w.waiting.length .enqueue ++ .flush :: List.replicate (w.batches.length + 1) .deliver

theorem run_enqueue (reading : Reading) (initial : Finset Path) (n : Nat) (w : WatchWorld Path)
    (hclosed : w.watcher.closed = false) (hn : w.waiting.length = n) :
    let w' := ((machine reading initial).run w (List.replicate n .enqueue)).1
    w'.waiting = [] ∧ w'.watcher.closed = false ∧ w'.batches = w.batches := by
  induction n generalizing w with
  | zero => exact ⟨eq_nil_of_length_eq_zero hn, hclosed, rfl⟩
  | succ n ih =>
    cases hwaiting : w.waiting with
    | nil =>
      rw [hwaiting] at hn
      cases hn
    | cons change rest =>
      have hstep : w.step reading initial .enqueue =
          { w with watcher := (w.watcher.enqueue change).1, waiting := rest } := by
        unfold WatchWorld.step
        rw [hwaiting]
      have hclosed' : (w.watcher.enqueue change).1.closed = false := by
        rcases enqueue_due w.watcher change with hsame | ⟨-, hsame⟩ <;> rw [hsame, hclosed]
      rw [hwaiting, length_cons, Nat.add_right_cancel_iff] at hn
      have hrest := ih { w with watcher := (w.watcher.enqueue change).1, waiting := rest } hclosed' hn
      rw [replicate_succ, Mealy.run_cons]
      show _ ∧ _
      rw [show (machine reading initial).step w .enqueue = (w.step reading initial .enqueue, []) from rfl,
        hstep]
      exact hrest

theorem run_deliver (reading : Reading) (initial : Finset Path) (n : Nat) (w : WatchWorld Path)
    (hn : w.batches.length ≤ n) :
    let w' := ((machine reading initial).run w (List.replicate n .deliver)).1
    w'.batches = [] ∧ w'.watcher = w.watcher ∧ w'.waiting = w.waiting := by
  induction n generalizing w with
  | zero => exact ⟨eq_nil_of_length_eq_zero (Nat.le_zero.mp hn), rfl, rfl⟩
  | succ n ih =>
    rw [replicate_succ, Mealy.run_cons]
    cases hbatches : w.batches with
    | nil =>
      have hstep : w.step reading initial .deliver = w := by
        unfold WatchWorld.step
        rw [hbatches]
      have hrest := ih w (by rw [hbatches]; exact Nat.zero_le _)
      rw [show (machine reading initial).step w .deliver = (w.step reading initial .deliver, []) from rfl,
        hstep]
      exact hrest
    | cons batch rest =>
      rw [hbatches, length_cons] at hn
      have hstep : w.step reading initial .deliver =
          { w with batches := rest,
                   paths := reading.applyBatch (reading.applyAll initial w.happened) w.paths batch } := by
        unfold WatchWorld.step
        rw [hbatches]
      have hrest := ih { w with batches := rest,
                                paths := reading.applyBatch (reading.applyAll initial w.happened) w.paths batch }
        (Nat.le_of_succ_le_succ hn)
      rw [show (machine reading initial).step w .deliver = (w.step reading initial .deliver, []) from rfl,
        hstep]
      exact hrest

theorem run_settling (reading : Reading) (initial : Finset Path) (w : WatchWorld Path)
    (hclosed : w.watcher.closed = false) :
    ((machine reading initial).run w w.settling).1.Quiet := by
  unfold settling
  rw [Mealy.run_append, Mealy.run_cons]
  obtain ⟨hwaiting, hopen, hbatches⟩ := run_enqueue reading initial w.waiting.length w hclosed rfl
  generalize ((machine reading initial).run w (List.replicate w.waiting.length .enqueue)).1 = w₁ at *
  -- the flush leaves nothing pending, and adds one batch at most
  have hflush : (w₁.step reading initial .flush).watcher.pending.entries = [] ∧
      (w₁.step reading initial .flush).watcher.resync = false ∧
      (w₁.step reading initial .flush).batches.length ≤ w₁.batches.length + 1 ∧
      (w₁.step reading initial .flush).waiting = [] := by
    unfold WatchWorld.step Watcher.flush
    dsimp only
    rw [if_neg (by rw [hopen]; exact Bool.false_ne_true)]
    split_ifs
    · exact ⟨rfl, rfl, by simp, hwaiting⟩
    · exact ⟨rfl, rfl, by simp, hwaiting⟩
  obtain ⟨hpending, hresync, hlength, hwaiting'⟩ := hflush
  have hdeliver := run_deliver reading initial (w.batches.length + 1) (w₁.step reading initial .flush)
    (by rw [← hbatches]; exact hlength)
  obtain ⟨hnone, hwatcher, hsame⟩ := hdeliver
  exact ⟨hsame.trans hwaiting', (congrArg (fun watcher => watcher.pending.entries) hwatcher).trans
    hpending, (congrArg (fun watcher => watcher.resync) hwatcher).trans hresync, hnone⟩

theorem Inv.quiet (h : w.Inv reading initial) (hquiet : w.Quiet) :
    w.paths = w.present reading initial := by
  ext path
  have hdecided := h.decided path
  have hitems : w.items = [] := by
    unfold items itemsOf
    rw [hquiet.waiting, hquiet.pending, hquiet.resync, hquiet.batches]
    rfl
  rw [hitems, last_nil, Option.getD_none] at hdecided
  exact decide_eq_decide.mp hdecided

end WatchWorld

/-! ## Convergence -/

/-- Once a run has come to rest, and each can, the consumer has what the changes
    lead to one by one.  Here a deleted path is not modified before it is created
    again, unless a modification adds the path.  And the events of the scanner
    are a resync, or lead from one snapshot to the next, in any order of the maps. -/
theorem file_watching_converges (reading : Reading) (initial : Finset Path)
    (events : List (WatchEvent Path))
    (h : reading = .keeps → Recreated (WatchWorld.changesOf events)) :
    let w := ((WatchWorld.machine reading initial).run (.start initial) events).1
    (w.Quiet → w.paths = reading.applyAll initial (WatchWorld.changesOf events)) ∧
      ((WatchWorld.machine reading initial).run w w.settling).1.Quiet ∧
      WatchWorld.changesOf w.settling = [] ∧
      w.Due ∧
      ∀ previous next : OrderedMap Path ScannerEntry,
        (diffSnapshots previous next = [.resync] ∨
          ∃ changes : List (ScannerChange Path), diffSnapshots previous next = changes.map .change ∧
            (changes.Pairwise fun a b => a.path < b.path) ∧
            (∀ change, change ∈ changes ↔ Differs previous next change) ∧
            ∀ path, (changes.foldl (applyFound next) previous).get? path = next.get? path) ∧
        ∀ previous' next', (∀ path, previous.get? path = previous'.get? path) →
          (∀ path, next.get? path = next'.get? path) →
          diffSnapshots previous next = diffSnapshots previous' next' := by
  intro w
  have hinv := WatchWorld.Inv.run reading initial events h
  have hhappened := WatchWorld.run_happened reading initial events
  refine ⟨fun hquiet => ?_, WatchWorld.run_settling reading initial w hinv.opened, ?_,
    WatchWorld.run_due reading initial events, fun previous next => ⟨diffSnapshots_spec previous next,
      fun previous' next' hprevious hnext => diffSnapshots_order hprevious hnext⟩⟩
  · rw [hinv.quiet hquiet]
    exact congrArg (reading.applyAll initial) hhappened
  · unfold WatchWorld.settling WatchWorld.changesOf
    simp

/-- One path, created and modified in one window, and modifications kept apart
    from its presence. -/
theorem file_watching_converges_once :
    ((WatchWorld.machine .keeps (∅ : Finset Nat)).run (.start ∅)
      [.happen ⟨1, .create, "file", 5, 3⟩, .enqueue, .happen ⟨1, .modify, "file", 6, 4⟩, .enqueue,
        .flush, .deliver]).1.paths = {1} := by
  have h := (file_watching_converges .keeps (∅ : Finset Nat)
    [.happen ⟨1, .create, "file", 5, 3⟩, .enqueue, .happen ⟨1, .modify, "file", 6, 4⟩, .enqueue,
      .flush, .deliver] (fun _ => by decide)).1 ⟨rfl, rfl, rfl, rfl⟩
  exact h.trans (by decide)

/-- A deleted path that is modified in the same window comes back as created. -/
theorem modified_after_deletion :
    let w := ((WatchWorld.machine .keeps ({1} : Finset Nat)).run (.start {1})
      [.happen ⟨1, .delete, "unknown", 0, 0⟩, .enqueue, .happen ⟨1, .modify, "unknown", 0, 0⟩,
        .enqueue, .flush, .deliver]).1
    w.Quiet ∧ 1 ∈ w.paths ∧ 1 ∉ Reading.applyAll .keeps {1} w.happened :=
  ⟨⟨rfl, rfl, rfl, rfl⟩, by decide +kernel, by decide +kernel⟩

end Cohub.Sandbox
