import Mathlib.Logic.Relation

/-! # Programs that share a store under a lock

    Programs run side by side on a store.  A program reads the store at any
    time, and changes it by guarded calls only: a guard refuses the call unless
    the program holds the lock, and nothing else happens between the guard and
    the end of the call.  Between its steps a program may lose the lock.

    `Good` is what one program has to keep to, step by step: while it holds the
    lock the store is as it left it, else the store may have moved (`Later`);
    each of its calls moves the store as the guarantee `G` allows; and in the
    end the store satisfies the postcondition.  `reachable_good` is the result
    for all interleavings. -/

namespace LockedRuns

/-! ## Programs -/

/-- What a guarded call gives: the guard's refusal or the outcome of the call. -/
inductive Guarded (ε : Type) where
  | refused (e : ε)
  | returned (outcome : Except ε Unit)

/-- A program as the tree of its steps. -/
inductive Prog (Query : Type) (Answer : Query → Type) (Mutation ε α : Type) where
  | done (a : α)
  | read (q : Query) (next : Answer q → Prog Query Answer Mutation ε α)
  | guarded (m : Mutation) (next : Guarded ε → Prog Query Answer Mutation ε α)
  | lock (next : Except ε Bool → Prog Query Answer Mutation ε α)
  | unlock (next : Prog Query Answer Mutation ε α)

variable {Query : Type} {Answer : Query → Type} {Mutation ε σ α β : Type}

/-- One program after another. -/
def Prog.bind : Prog Query Answer Mutation ε α → (α → Prog Query Answer Mutation ε β) →
    Prog Query Answer Mutation ε β
  | .done a, f => f a
  | .read q next, f => .read q fun x => (next x).bind f
  | .guarded m next, f => .guarded m fun x => (next x).bind f
  | .lock next, f => .lock fun x => (next x).bind f
  | .unlock next, f => .unlock (next.bind f)

instance : Monad (Prog Query Answer Mutation ε) where
  pure := .done
  bind := Prog.bind

/-- A program that may end with an error. -/
abbrev Call (Query : Type) (Answer : Query → Type) (Mutation ε α : Type) :=
  ExceptT ε (Prog Query Answer Mutation ε) α

/-- How a store answers queries, and what calls do to it. -/
structure World (Query : Type) (Answer : Query → Type) (Mutation ε σ : Type) where
  answers : σ → (q : Query) → Answer q → Prop
  effect  : σ → Mutation → σ → Except ε Unit → Prop

/-! ## What a program keeps to -/

section

variable (G : σ → σ → Prop)

/-- The store may have moved, unless the lock is still held. -/
structure Later (held : Bool) (s : σ) (held' : Bool) (s' : σ) : Prop where
  moves : Relation.ReflTransGen G s s'
  same  : held' = true → held = true ∧ s' = s

variable {G}

theorem Later.refl (held : Bool) (s : σ) : Later G held s held s :=
  ⟨Relation.ReflTransGen.refl, fun h => ⟨h, rfl⟩⟩

variable {held : Bool} {s : σ} {held' : Bool} {s' : σ}

theorem Later.trans {held'' : Bool} {s'' : σ} (h : Later G held s held' s')
    (h' : Later G held' s' held'' s'') : Later G held s held'' s'' := by
  refine ⟨h.moves.trans h'.moves, ?_⟩
  intro hheld
  obtain ⟨hheld', hsame'⟩ := h'.same hheld
  obtain ⟨hheld, hsame⟩ := h.same hheld'
  exact ⟨hheld, hsame'.trans hsame⟩

theorem Later.lost (held : Bool) (s : σ) : Later G held s false s :=
  ⟨Relation.ReflTransGen.refl, nofun⟩

variable (W : World Query Answer Mutation ε σ) (G)

/-- A program keeps to the guarantee and to the postcondition, from a store on
    and with the lock or without. -/
def Good (post : Bool → σ → α → Prop) : Prog Query Answer Mutation ε α → Bool → σ → Prop
  | .done a => fun held s => post held s a
  | .read q next => fun held s => ∀ held' s', Later G held s held' s' →
      ∀ x, W.answers s' q x → Good post (next x) held' s'
  | .guarded m next => fun held s =>
      (∀ held' s', Later G held s held' s' → ∀ e, Good post (next (.refused e)) held' s') ∧
        (held = true → ∀ s' outcome, W.effect s m s' outcome →
          (s' = s ∨ G s s') ∧ Good post (next (.returned outcome)) true s')
  | .lock next => fun held s => ∀ held' s', Later G held s held' s' →
      (∀ r, r ≠ .ok true → Good post (next r) held' s') ∧ Good post (next (.ok true)) true s'
  | .unlock next => fun held s => ∀ held' s', Later G held s held' s' → Good post next false s'

/-- A postcondition that keeps holding. -/
def Stable (post : Bool → σ → α → Prop) : Prop :=
  ∀ held s held' s' a, Later G held s held' s' → post held s a → post held' s' a

variable {W G} {p : Prog Query Answer Mutation ε α} {post : Bool → σ → α → Prop}

theorem Good.later (hpost : Stable G post)
    (h : Good G W post p held s) (hlater : Later G held s held' s') : Good G W post p held' s' := by
  cases p with
  | done a => exact hpost held s held' s' a hlater h
  | read q next => exact fun held'' s'' hlater' x => h held'' s'' (hlater.trans hlater') x
  | guarded m next =>
    refine ⟨fun held'' s'' hlater' e => h.1 held'' s'' (hlater.trans hlater') e, ?_⟩
    intro hheld
    obtain ⟨hheld, hsame⟩ := hlater.same hheld
    rw [hsame]
    exact h.2 hheld
  | lock next => exact fun held'' s'' hlater' => h held'' s'' (hlater.trans hlater')
  | unlock next => exact fun held'' s'' hlater' => h held'' s'' (hlater.trans hlater')

theorem good_bind {post : Bool → σ → β → Prop} {middle : Bool → σ → α → Prop}
    {f : α → Prog Query Answer Mutation ε β} (hp : Good G W middle p held s)
    (hf : ∀ held s a, middle held s a → Good G W post (f a) held s) :
    Good G W post (p.bind f) held s := by
  induction p generalizing held s with
  | done a => exact hf held s a hp
  | read q next ih => exact fun held' s' hlater x hx => ih x (hp held' s' hlater x hx)
  | guarded m next ih =>
    refine ⟨fun held' s' hlater e => ih _ (hp.1 held' s' hlater e), ?_⟩
    intro hheld s' outcome heffect
    obtain ⟨hmove, hnext⟩ := hp.2 hheld s' outcome heffect
    exact ⟨hmove, ih _ hnext⟩
  | lock next ih =>
    intro held' s' hlater
    obtain ⟨hrefused, hlocked⟩ := hp held' s' hlater
    exact ⟨fun r hr => ih r (hrefused r hr), ih _ hlocked⟩
  | unlock next ih => exact fun held' s' hlater => ih (hp held' s' hlater)

theorem Good.weaken {post' : Bool → σ → α → Prop} (h : Good G W post p held s)
    (hpost : ∀ held s a, post held s a → post' held s a) : Good G W post' p held s := by
  induction p generalizing held s with
  | done a => exact hpost held s a h
  | read q next ih => exact fun held' s' hlater x hx => ih x (h held' s' hlater x hx)
  | guarded m next ih =>
    refine ⟨fun held' s' hlater e => ih _ (h.1 held' s' hlater e), ?_⟩
    intro hheld s' outcome heffect
    obtain ⟨hmove, hnext⟩ := h.2 hheld s' outcome heffect
    exact ⟨hmove, ih _ hnext⟩
  | lock next ih =>
    intro held' s' hlater
    obtain ⟨hrefused, hlocked⟩ := h held' s' hlater
    exact ⟨fun r hr => ih r (hrefused r hr), ih _ hlocked⟩
  | unlock next ih => exact fun held' s' hlater => ih (h held' s' hlater)

end

/-! ## Programs with errors -/

section

variable {Value : Query → Type}

/-- Read, and stop on an error. -/
def Call.read (q : Query) : Call Query (fun q => Except ε (Value q)) Mutation ε (Value q) :=
  ExceptT.mk (.read q .done)

/-- A guarded call, with its outcome; the guard's refusal is an error. -/
def Call.guarded (m : Mutation) : Call Query Answer Mutation ε (Except ε Unit) :=
  ExceptT.mk (.guarded m fun
    | .refused e => .done (.error e)
    | .returned outcome => .done (.ok outcome))

/-- Run under the lock, and let go of it in the end; `busy` is the error if
    another run has the lock. -/
def Call.withLock (busy : ε) (run : Call Query Answer Mutation ε α) :
    Call Query Answer Mutation ε α :=
  ExceptT.mk (.lock fun
    | .error e => .done (.error e)
    | .ok false => .done (.error busy)
    | .ok true => run.run.bind fun result => .unlock (.done result))

variable (G : σ → σ → Prop) (Inv : σ → Prop)

/-- What a program with errors ends with: the postcondition holds of its
    result, and the invariant in either case. -/
def Ends (post : Bool → σ → α → Prop) (held : Bool) (s : σ) (r : Except ε α) : Prop :=
  Inv s ∧ ∀ a, r = .ok a → post held s a

/-- `Good` for programs with errors, between stores with the invariant. -/
def Sound (W : World Query Answer Mutation ε σ) (post : Bool → σ → α → Prop)
    (p : Call Query Answer Mutation ε α) (held : Bool) (s : σ) : Prop :=
  Good G W (Ends Inv post) p.run held s

variable {G Inv} {W : World Query Answer Mutation ε σ} {held : Bool} {s : σ}
  {post : Bool → σ → α → Prop}

theorem invariant_later (hinv : ∀ s s', Inv s → G s s' → Inv s') {held' : Bool} {s' : σ}
    (hs : Inv s) (h : Later G held s held' s') : Inv s' := by
  have hmoves := h.moves
  clear h
  induction hmoves with
  | refl => exact hs
  | tail _ hmove ih => exact hinv _ _ ih hmove

theorem ends_stable (hinv : ∀ s s', Inv s → G s s' → Inv s') (hpost : Stable G post) :
    Stable G (Ends (ε := ε) Inv post) := by
  intro held s held' s' r hlater hends
  refine ⟨invariant_later hinv hends.1 hlater, ?_⟩
  intro a ha
  exact hpost held s held' s' a hlater (hends.2 a ha)

theorem sound_pure {a : α} (hs : Inv s) (ha : post held s a) :
    Sound G Inv W post (pure a : Call Query Answer Mutation ε α) held s := by
  refine ⟨hs, ?_⟩
  intro a' ha'
  injection ha' with ha'
  rw [← ha']
  exact ha

theorem sound_throw {e : ε} (hs : Inv s) :
    Sound G Inv W post (throw e : Call Query Answer Mutation ε α) held s :=
  ⟨hs, nofun⟩

theorem sound_bind {middle : Bool → σ → β → Prop} {p : Call Query Answer Mutation ε β}
    {f : β → Call Query Answer Mutation ε α} (hp : Sound G Inv W middle p held s)
    (hf : ∀ held s a, Inv s → middle held s a → Sound G Inv W post (f a) held s) :
    Sound G Inv W post (p >>= f) held s := by
  apply good_bind hp
  rintro held s (e | a) ⟨hs, ha⟩
  · exact sound_throw hs
  · exact hf held s a hs (ha a rfl)

variable {p : Call Query Answer Mutation ε α}

theorem sound_tryCatch
    {handler : ε → Call Query Answer Mutation ε α} (hp : Sound G Inv W post p held s)
    (hhandler : ∀ held s e, Inv s → Sound G Inv W post (handler e) held s) :
    Sound G Inv W post (tryCatch p handler) held s := by
  apply good_bind hp
  rintro held s (e | a) ⟨hs, ha⟩
  · exact hhandler held s e hs
  · exact sound_pure hs (ha a rfl)

theorem sound_read {W : World Query (fun q => Except ε (Value q)) Mutation ε σ} {q : Query}
    {post : Bool → σ → Value q → Prop} (hinv : ∀ s s', Inv s → G s s' → Inv s') (hs : Inv s)
    (h : ∀ held' s', Later G held s held' s' → ∀ x, W.answers s' q (.ok x) → post held' s' x) :
    Sound G Inv W post (Call.read q) held s := by
  intro held' s' hlater x hx
  refine ⟨invariant_later hinv hs hlater, ?_⟩
  intro a ha
  subst ha
  exact h held' s' hlater a hx

theorem sound_guarded {m : Mutation} {post : Bool → σ → Except ε Unit → Prop}
    (hinv : ∀ s s', Inv s → G s s' → Inv s') (hs : Inv s)
    (h : held = true → ∀ s' outcome, W.effect s m s' outcome →
      (s' = s ∨ G s s') ∧ post true s' outcome) :
    Sound G Inv W post (Call.guarded m) held s := by
  refine ⟨?_, ?_⟩
  · intro held' s' hlater e
    exact ⟨invariant_later hinv hs hlater, nofun⟩
  · intro hheld s' outcome heffect
    obtain ⟨hmove, hpost⟩ := h hheld s' outcome heffect
    refine ⟨hmove, ?_, ?_⟩
    · rcases hmove with rfl | hmove
      · exact hs
      · exact hinv s s' hs hmove
    · intro outcome' houtcome
      injection houtcome with houtcome
      rw [← houtcome]
      exact hpost

theorem sound_withLock {busy : ε} {run : Call Query Answer Mutation ε α}
    (hinv : ∀ s s', Inv s → G s s' → Inv s') (hpost : Stable G post) (hs : Inv s)
    (h : ∀ s, Inv s → Sound G Inv W post run true s) :
    Sound G Inv W post (Call.withLock busy run) held s := by
  intro held' s' hlater
  have hs' := invariant_later hinv hs hlater
  refine ⟨?_, ?_⟩
  · rintro (e | locked) hr
    · exact ⟨hs', nofun⟩
    · cases locked with
      | false => exact ⟨hs', nofun⟩
      | true => exact absurd rfl hr
  · apply good_bind (h s' hs')
    intro held s r hends held' s' hlater
    exact ends_stable hinv hpost held s false s' r
      (hlater.trans (Later.lost _ _)) hends

theorem Sound.weaken {post' : Bool → σ → α → Prop}
    (h : Sound G Inv W post p held s) (hpost : ∀ held s a, Inv s → post held s a → post' held s a) :
    Sound G Inv W post' p held s := by
  apply Good.weaken h
  intro held s r hends
  exact ⟨hends.1, fun a ha => hpost held s a hends.1 (hends.2 a ha)⟩

end

/-! ## Runs side by side -/

/-- The store, who holds the lock, and the programs that run. -/
structure Pool (Query : Type) (Answer : Query → Type) (Mutation ε σ α : Type) where
  store  : σ
  holder : Option Nat
  runs   : Nat → Option (Prog Query Answer Mutation ε α)

/-- A pool with a run's program replaced. -/
def Pool.goOn (pool : Pool Query Answer Mutation ε σ α) (id : Nat)
    (p : Prog Query Answer Mutation ε α) : Nat → Option (Prog Query Answer Mutation ε α) :=
  fun j => if j = id then some p else pool.runs j

section

variable (W : World Query Answer Mutation ε σ) (Starts : Prog Query Answer Mutation ε α → Prop)

/-- One step of one run, the start of a run, or the loss of the lock. -/
inductive Step : Pool Query Answer Mutation ε σ α → Pool Query Answer Mutation ε σ α → Prop where
  | start (pool) (id : Nat) (p) (hnew : pool.runs id = none) (hfree : pool.holder ≠ some id)
      (hp : Starts p) : Step pool { pool with runs := pool.goOn id p }
  | read (pool) (id : Nat) (q next) (hrun : pool.runs id = some (.read q next)) (x)
      (hx : W.answers pool.store q x) : Step pool { pool with runs := pool.goOn id (next x) }
  | refused (pool) (id : Nat) (m next) (hrun : pool.runs id = some (.guarded m next)) (e : ε) :
      Step pool { pool with runs := pool.goOn id (next (.refused e)) }
  | call (pool) (id : Nat) (m next) (hrun : pool.runs id = some (.guarded m next))
      (hheld : pool.holder = some id) (s' outcome) (heffect : W.effect pool.store m s' outcome) :
      Step pool { pool with store := s', runs := pool.goOn id (next (.returned outcome)) }
  | locked (pool) (id : Nat) (next) (hrun : pool.runs id = some (.lock next))
      (hfree : pool.holder = none) :
      Step pool { pool with holder := some id, runs := pool.goOn id (next (.ok true)) }
  | notLocked (pool) (id : Nat) (next) (hrun : pool.runs id = some (.lock next)) (r)
      (hr : r ≠ .ok true) : Step pool { pool with runs := pool.goOn id (next r) }
  | unlock (pool) (id : Nat) (next) (hrun : pool.runs id = some (.unlock next)) :
      Step pool { pool with
        holder := if pool.holder = some id then none else pool.holder
        runs := pool.goOn id next }
  | lose (pool) : Step pool { pool with holder := none }

variable {W Starts} {G : σ → σ → Prop} {Inv : σ → Prop} {post : Bool → σ → α → Prop}

/-- The run with this number holds the lock. -/
def Pool.holds (pool : Pool Query Answer Mutation ε σ α) (id : Nat) : Bool := pool.holder = some id

/-- Every run keeps to its guarantee from here on. -/
structure AllGood (W : World Query Answer Mutation ε σ) (G : σ → σ → Prop) (Inv : σ → Prop)
    (post : Bool → σ → α → Prop) (pool : Pool Query Answer Mutation ε σ α) : Prop where
  store : Inv pool.store
  runs  : ∀ id p, pool.runs id = some p → Good G W post p (pool.holds id) pool.store

variable {pool : Pool Query Answer Mutation ε σ α}

theorem AllGood.others (h : AllGood W G Inv post pool) (hpost : Stable G post) {id : Nat}
    {p : Prog Query Answer Mutation ε α} {s' : σ} {holder' : Option Nat} (hstore : Inv s')
    (hothers : ∀ j, j ≠ id → Later G (pool.holds j) pool.store (decide (holder' = some j)) s')
    (hp : Good G W post p (decide (holder' = some id)) s') :
    AllGood W G Inv post { store := s', holder := holder', runs := pool.goOn id p } := by
  refine ⟨hstore, ?_⟩
  intro j pj hj
  by_cases hjd : j = id
  · subst hjd
    have heq : some p = some pj := by
      have hthis : (if j = j then some p else pool.runs j) = some pj := hj
      rwa [if_pos rfl] at hthis
    injection heq with heq
    rw [← heq]
    exact hp
  · have heq : pool.runs j = some pj := by
      have hthis : (if j = id then some p else pool.runs j) = some pj := hj
      rwa [if_neg hjd] at hthis
    exact (h.runs j pj heq).later hpost (hothers j hjd)

theorem step_good (hstarts : ∀ p, Starts p → ∀ s, Inv s → Good G W post p false s)
    (hinv : ∀ s s', Inv s → G s s' → Inv s') (hpost : Stable G post)
    {pool' : Pool Query Answer Mutation ε σ α} (h : AllGood W G Inv post pool)
    (hstep : Step W Starts pool pool') :
    (pool'.store = pool.store ∨ G pool.store pool'.store) ∧ AllGood W G Inv post pool' := by
  have hstay : ∀ j, Later G (pool.holds j) pool.store (pool.holds j) pool.store :=
    fun j => Later.refl _ _
  cases hstep with
  | start id p hnew hfree hp =>
    refine ⟨.inl rfl, h.others hpost h.store (fun j _ => hstay j) ?_⟩
    rw [decide_eq_false hfree]
    exact hstarts p hp pool.store h.store
  | read id q next hrun x hx =>
    refine ⟨.inl rfl, h.others hpost h.store (fun j _ => hstay j) ?_⟩
    exact h.runs id _ hrun _ _ (hstay id) x hx
  | refused id m next hrun e =>
    refine ⟨.inl rfl, h.others hpost h.store (fun j _ => hstay j) ?_⟩
    exact (h.runs id _ hrun).1 _ _ (hstay id) e
  | call id m next hrun hheld s' outcome heffect =>
    have hholds : pool.holds id = true := decide_eq_true hheld
    obtain ⟨hmove, hnext⟩ := (h.runs id _ hrun).2 hholds s' outcome heffect
    have hstore : Inv s' := by
      rcases hmove with rfl | hmove
      · exact h.store
      · exact hinv _ _ h.store hmove
    refine ⟨hmove, h.others hpost hstore ?_ ?_⟩
    · -- no other run holds the lock
      intro j hj
      have hnot : pool.holder ≠ some j := by
        rw [hheld]
        intro heq
        injection heq with heq
        exact hj heq.symm
      refine ⟨?_, fun hj' => absurd (of_decide_eq_true hj') hnot⟩
      rcases hmove with rfl | hmove
      · exact Relation.ReflTransGen.refl
      · exact Relation.ReflTransGen.single hmove
    · rw [decide_eq_true hheld]
      exact hnext
  | locked id next hrun hfree =>
    refine ⟨.inl rfl, h.others hpost h.store ?_ ?_⟩
    · intro j hj
      refine ⟨Relation.ReflTransGen.refl, ?_⟩
      intro hj'
      have heq := of_decide_eq_true hj'
      injection heq with heq
      exact absurd heq.symm hj
    · rw [decide_eq_true rfl]
      exact (h.runs id _ hrun _ _ (hstay id)).2
  | notLocked id next hrun r hr =>
    refine ⟨.inl rfl, h.others hpost h.store (fun j _ => hstay j) ?_⟩
    exact (h.runs id _ hrun _ _ (hstay id)).1 r hr
  | unlock id next hrun =>
    refine ⟨.inl rfl, h.others hpost h.store ?_ ?_⟩
    · intro j hj
      refine ⟨Relation.ReflTransGen.refl, ?_⟩
      intro hj'
      have heq := of_decide_eq_true hj'
      split at heq
      · cases heq
      · exact ⟨decide_eq_true heq, rfl⟩
    · have hnot : (if pool.holder = some id then none else pool.holder) ≠ some id := by
        split
        · nofun
        · next hother => exact hother
      rw [decide_eq_false hnot]
      exact h.runs id _ hrun _ _ (hstay id)
  | lose =>
    refine ⟨.inl rfl, h.store, ?_⟩
    intro j pj hj
    exact (h.runs j pj hj).later hpost (Later.lost _ _)

theorem reachable_good (hstarts : ∀ p, Starts p → ∀ s, Inv s → Good G W post p false s)
    (hinv : ∀ s s', Inv s → G s s' → Inv s') (hpost : Stable G post) {s : σ} (hs : Inv s)
    (hreach : Relation.ReflTransGen (Step W Starts)
      { store := s, holder := none, runs := fun _ => none } pool) :
    AllGood W G Inv post pool := by
  induction hreach with
  | refl => exact ⟨hs, nofun⟩
  | tail _ hstep ih => exact (step_good hstarts hinv hpost ih hstep).2

end

/-! ## A run alone -/

section

variable (reply : σ → (q : Query) → Answer q) (act : σ → Mutation → σ × Except ε Unit)
  (refusal : ε)

/-- A program run to its end with nothing else running, and what the store is
    in the end. -/
def Prog.alone : Prog Query Answer Mutation ε α → Bool → σ → σ × α
  | .done a, _, s => (s, a)
  | .read q next, held, s => (next (reply s q)).alone held s
  | .guarded m next, held, s =>
      if held = true then (next (.returned (act s m).2)).alone held (act s m).1
      else (next (.refused refusal)).alone held s
  | .lock next, held, s =>
      if held = true then (next (.ok false)).alone held s else (next (.ok true)).alone true s
  | .unlock next, _, s => next.alone false s

variable {reply act refusal} {W : World Query Answer Mutation ε σ}
  {Starts : Prog Query Answer Mutation ε α → Prop}

theorem alone_reachable (hreply : ∀ s q, W.answers s q (reply s q))
    (hact : ∀ s m, W.effect s m (act s m).1 (act s m).2) (id : Nat)
    (p : Prog Query Answer Mutation ε α) :
    ∀ (pool : Pool Query Answer Mutation ε σ α) (held : Bool), pool.runs id = some p →
      pool.holder = (if held = true then some id else none) →
      ∃ pool', Relation.ReflTransGen (Step W Starts) pool pool' ∧
        pool'.store = (p.alone reply act refusal held pool.store).1 ∧
        pool'.runs id = some (.done (p.alone reply act refusal held pool.store).2) ∧
        ∀ j, j ≠ id → pool'.runs j = pool.runs j := by
  have hgoOn : ∀ (pool : Pool Query Answer Mutation ε σ α) p, pool.goOn id p id = some p :=
    fun pool p => if_pos rfl
  have hothers : ∀ (pool : Pool Query Answer Mutation ε σ α) p j, j ≠ id → pool.goOn id p j = pool.runs j :=
    fun pool p j hj => if_neg hj
  induction p with
  | done a => exact fun pool held hrun _ => ⟨pool, Relation.ReflTransGen.refl, rfl, hrun, fun _ _ => rfl⟩
  | read q next ih =>
    intro pool held hrun hholder
    have hstep : Step W Starts pool
        { pool with runs := pool.goOn id (next (reply pool.store q)) } :=
      .read pool id q next hrun _ (hreply pool.store q)
    obtain ⟨pool', hreach, hstore, hend, hsame⟩ := ih _
      { pool with runs := pool.goOn id (next (reply pool.store q)) } held (hgoOn pool _) hholder
    exact ⟨pool', hreach.head hstep, hstore, hend,
      fun j hj => (hsame j hj).trans (hothers pool _ j hj)⟩
  | guarded m next ih =>
    intro pool held hrun hholder
    unfold Prog.alone
    split
    · next hheld =>
      rw [if_pos hheld] at hholder
      have hstep : Step W Starts pool { pool with
          store := (act pool.store m).1
          runs := pool.goOn id (next (.returned (act pool.store m).2)) } :=
        .call pool id m next hrun hholder _ _ (hact pool.store m)
      obtain ⟨pool', hreach, hstore, hend, hsame⟩ := ih _
        { pool with
          store := (act pool.store m).1
          runs := pool.goOn id (next (.returned (act pool.store m).2)) }
        held (hgoOn pool _) (hholder.trans (if_pos hheld).symm)
      exact ⟨pool', hreach.head hstep, hstore, hend,
      fun j hj => (hsame j hj).trans (hothers pool _ j hj)⟩
    · have hstep : Step W Starts pool
          { pool with runs := pool.goOn id (next (.refused refusal)) } :=
        .refused pool id m next hrun refusal
      obtain ⟨pool', hreach, hstore, hend, hsame⟩ := ih _
        { pool with runs := pool.goOn id (next (.refused refusal)) } held (hgoOn pool _) hholder
      exact ⟨pool', hreach.head hstep, hstore, hend,
      fun j hj => (hsame j hj).trans (hothers pool _ j hj)⟩
  | lock next ih =>
    intro pool held hrun hholder
    unfold Prog.alone
    split
    · have hstep : Step W Starts pool { pool with runs := pool.goOn id (next (.ok false)) } :=
        .notLocked pool id next hrun (.ok false) nofun
      obtain ⟨pool', hreach, hstore, hend, hsame⟩ := ih _
        { pool with runs := pool.goOn id (next (.ok false)) } held (hgoOn pool _) hholder
      exact ⟨pool', hreach.head hstep, hstore, hend,
      fun j hj => (hsame j hj).trans (hothers pool _ j hj)⟩
    · next hheld =>
      rw [if_neg hheld] at hholder
      have hstep : Step W Starts pool
          { pool with holder := some id, runs := pool.goOn id (next (.ok true)) } :=
        .locked pool id next hrun hholder
      obtain ⟨pool', hreach, hstore, hend, hsame⟩ := ih _
        { pool with holder := some id, runs := pool.goOn id (next (.ok true)) } true
        (hgoOn pool _) rfl
      exact ⟨pool', hreach.head hstep, hstore, hend,
      fun j hj => (hsame j hj).trans (hothers pool _ j hj)⟩
  | unlock next ih =>
    intro pool held hrun hholder
    have hstep : Step W Starts pool { pool with
        holder := if pool.holder = some id then none else pool.holder
        runs := pool.goOn id next } := .unlock pool id next hrun
    have hfree : (if pool.holder = some id then none else pool.holder) = none := by
      rw [hholder]
      cases held <;> simp
    obtain ⟨pool', hreach, hstore, hend, hsame⟩ := ih
      { pool with
        holder := if pool.holder = some id then none else pool.holder
        runs := pool.goOn id next }
      false (hgoOn pool _) hfree
    exact ⟨pool', hreach.head hstep, hstore, hend,
      fun j hj => (hsame j hj).trans (hothers pool _ j hj)⟩

end

/-! ## The calls of a program -/

/-- Every guarded call of the program is allowed, whatever the program is answered. -/
def Prog.Calls (allowed : Mutation → Prop) : Prog Query Answer Mutation ε α → Prop
  | .done _ => True
  | .read _ next => ∀ x, (next x).Calls allowed
  | .guarded m next => allowed m ∧ ∀ x, (next x).Calls allowed
  | .lock next => ∀ x, (next x).Calls allowed
  | .unlock next => next.Calls allowed

section

variable {allowed : Mutation → Prop} {p : Prog Query Answer Mutation ε α}

theorem Prog.Calls.bind {f : α → Prog Query Answer Mutation ε β} (hp : p.Calls allowed)
    (hf : ∀ a, (f a).Calls allowed) : (p.bind f).Calls allowed := by
  induction p with
  | done a => exact hf a
  | read q next ih => exact fun x => ih x (hp x)
  | guarded m next ih => exact ⟨hp.1, fun x => ih x (hp.2 x)⟩
  | lock next ih => exact fun x => ih x (hp x)
  | unlock next ih => exact ih hp

theorem calls_pure (a : α) : (pure a : Call Query Answer Mutation ε α).run.Calls allowed := trivial

theorem calls_throw (e : ε) : (throw e : Call Query Answer Mutation ε α).run.Calls allowed := trivial

theorem calls_bind {p : Call Query Answer Mutation ε β} {f : β → Call Query Answer Mutation ε α}
    (hp : p.run.Calls allowed) (hf : ∀ b, (f b).run.Calls allowed) :
    (p >>= f).run.Calls allowed := by
  refine Prog.Calls.bind hp fun result => ?_
  cases result with
  | error e => exact calls_throw e
  | ok b => exact hf b

theorem calls_tryCatch {p : Call Query Answer Mutation ε α}
    {handler : ε → Call Query Answer Mutation ε α} (hp : p.run.Calls allowed)
    (hhandler : ∀ e, (handler e).run.Calls allowed) : (tryCatch p handler).run.Calls allowed := by
  refine Prog.Calls.bind hp fun result => ?_
  cases result with
  | error e => exact hhandler e
  | ok a => exact calls_pure a

theorem calls_read {Value : Query → Type} (q : Query) :
    (Call.read q : Call Query (fun q => Except ε (Value q)) Mutation ε (Value q)).run.Calls allowed :=
  fun _ => trivial

theorem calls_guarded {m : Mutation} (hm : allowed m) :
    (Call.guarded m : Call Query Answer Mutation ε (Except ε Unit)).run.Calls allowed := by
  refine ⟨hm, fun x => ?_⟩
  cases x <;> trivial

theorem calls_withLock {busy : ε} {run : Call Query Answer Mutation ε α}
    (h : run.run.Calls allowed) : (Call.withLock busy run).run.Calls allowed := by
  intro x
  rcases x with e | locked
  · trivial
  · cases locked with
    | false => trivial
    | true => exact Prog.Calls.bind h fun _ => trivial

variable {G : σ → σ → Prop} {Inv : σ → Prop} {W : World Query Answer Mutation ε σ}

theorem good_of_calls (hinv : ∀ s s', Inv s → G s s' → Inv s')
    (hcall : ∀ s m s' outcome, Inv s → allowed m → W.effect s m s' outcome → s' = s ∨ G s s')
    (hp : p.Calls allowed) :
    ∀ {held : Bool} {s : σ}, Inv s → Good G W (fun _ s _ => Inv s) p held s := by
  induction p with
  | done a => exact fun hs => hs
  | read q next ih =>
    exact fun hs held' s' hlater x _ => ih x (hp x) (invariant_later hinv hs hlater)
  | guarded m next ih =>
    intro held s hs
    refine ⟨fun held' s' hlater e => ih _ (hp.2 _) (invariant_later hinv hs hlater), ?_⟩
    intro _ s' outcome heffect
    have hmove := hcall s m s' outcome hs hp.1 heffect
    refine ⟨hmove, ih _ (hp.2 _) ?_⟩
    rcases hmove with rfl | hmove
    · exact hs
    · exact hinv s s' hs hmove
  | lock next ih =>
    intro held s hs held' s' hlater
    have hs' := invariant_later hinv hs hlater
    exact ⟨fun r _ => ih r (hp r) hs', ih _ (hp _) hs'⟩
  | unlock next ih => exact fun hs held' s' hlater => ih hp (invariant_later hinv hs hlater)

theorem sound_of_calls (hinv : ∀ s s', Inv s → G s s' → Inv s')
    (hcall : ∀ s m s' outcome, Inv s → allowed m → W.effect s m s' outcome → s' = s ∨ G s s')
    {p : Call Query Answer Mutation ε α} (hp : p.run.Calls allowed) {held : Bool} {s : σ}
    (hs : Inv s) : Sound G Inv W (fun _ _ _ => True) p held s :=
  (good_of_calls hinv hcall hp hs).weaken fun _ _ _ hinvariant => ⟨hinvariant, fun _ _ => trivial⟩

end

/-! ## Places -/

section

variable {ι : Type}

/-- A program that asks and calls at one place of a store. -/
def Prog.inPlace (place : ι) : Prog Query Answer Mutation ε α →
    Prog (ι × Query) (fun q => Answer q.2) (ι × Mutation) ε α
  | .done a => .done a
  | .read q next => .read (place, q) fun x => (next x).inPlace place
  | .guarded m next => .guarded (place, m) fun x => (next x).inPlace place
  | .lock next => .lock fun x => (next x).inPlace place
  | .unlock next => .unlock (next.inPlace place)

/-- A store with many places. -/
def World.places (W : ι → World Query Answer Mutation ε σ) :
    World (ι × Query) (fun q => Answer q.2) (ι × Mutation) ε σ where
  answers s q x := (W q.1).answers s q.2 x
  effect s m := (W m.1).effect s m.2

theorem good_inPlace {G : σ → σ → Prop} {W : ι → World Query Answer Mutation ε σ}
    {post : Bool → σ → α → Prop} {place : ι} {p : Prog Query Answer Mutation ε α} :
    ∀ {held : Bool} {s : σ}, Good G (W place) post p held s →
      Good G (World.places W) post (p.inPlace place) held s := by
  induction p with
  | done a => exact fun h => h
  | read q next ih => exact fun h held' s' hlater x hx => ih x (h held' s' hlater x hx)
  | guarded m next ih =>
    intro held s h
    refine ⟨fun held' s' hlater e => ih _ (h.1 held' s' hlater e), ?_⟩
    intro hheld s' outcome heffect
    obtain ⟨hmove, hnext⟩ := h.2 hheld s' outcome heffect
    exact ⟨hmove, ih _ hnext⟩
  | lock next ih =>
    intro held s h held' s' hlater
    obtain ⟨hrefused, hlocked⟩ := h held' s' hlater
    exact ⟨fun r hr => ih r (hrefused r hr), ih _ hlocked⟩
  | unlock next ih => exact fun h held' s' hlater => ih (h held' s' hlater)

end

end LockedRuns
