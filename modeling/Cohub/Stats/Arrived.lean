import Cohub.Stats.BufferedFlush

/-! # Buffered counts arrive once

    A view waits in the active batch or in a pending batch that no flush has
    added.  `Kept` is what holds between two steps; with it, the table and what
    waits come to the views there were.

    A batch is added twice when its flush ends between adding and removing it,
    or when two flushes have read it, which `Clean` leaves out. -/

namespace Cohub.Stats

open Function List Mealy OrderedMap

/-! ## What a batch adds -/

def countIn (batch : Batch) (field : AppViewStatsRedisField) : Nat := (batch.get? field).getD 0

/-- The counts of a batch are positive and exact. -/
def Exact (batch : Batch) : Prop := ∀ entry ∈ batch.entries, 0 < entry.2 ∧ entry.2 ≤ MAX_SAFE_INTEGER

/-- The field is one that `parseAppViewStatsBatch` keeps. -/
def Valid (field : AppViewStatsRedisField) : Prop := decodeAppViewStatsRedisField field = some field

instance (field : AppViewStatsRedisField) : Decidable (Valid field) := inferInstanceAs (Decidable (_ = _))

theorem decode_eq (field : AppViewStatsRedisField) :
    decodeAppViewStatsRedisField field = none ∨ Valid field := by
  unfold Valid decodeAppViewStatsRedisField
  split_ifs <;> simp

theorem flatten_chunkStatsRows (rows : List AppViewStatsBatchRow) : (chunkStatsRows rows).flatten = rows :=
  Addressed.flatten_pieces (by decide) _ _ le_rfl

theorem insertRows_eq (table : Table) (rows : List AppViewStatsBatchRow) :
    insertRows table rows = rows.foldl upsert table := by
  unfold insertRows
  rw [← foldl_flatten, flatten_chunkStatsRows]

variable {field : AppViewStatsRedisField} {batch : Batch} {f : Nat → Nat} {keys : List Nat}
    {s s' : World} {k : Nat}

theorem upsert_of_ne {table : Table} {rows : List AppViewStatsBatchRow}
    (h : ∀ row ∈ rows, row.dimensions ≠ field) : rows.foldl upsert table field = table field := by
  induction rows generalizing table with
  | nil => rfl
  | cons row rest ih =>
    rw [foldl_cons, ih fun r hr => h r (mem_cons_of_mem _ hr)]
    exact update_of_ne (Ne.symm (h row mem_cons_self)) _ _

theorem dimensions_of_parseEntry {entry : AppViewStatsRedisField × Nat} {row : AppViewStatsBatchRow}
    (h : parseEntry entry = some row) : row.dimensions = entry.1 := by
  unfold parseEntry at h
  rcases decode_eq entry.1 with hnone | hvalid
  · simp [hnone] at h
  · rw [hvalid] at h
    simp only [Option.ite_none_left_eq_some, Option.some.injEq] at h
    rw [← h.2]

theorem insertRows_parse (hexact : Exact batch) (table : Table) (hvalid : Valid field) :
    insertRows table (parseAppViewStatsBatch batch) field = table field + countIn batch field := by
  rw [insertRows_eq]
  unfold parseAppViewStatsBatch countIn
  cases hfield : batch.get? field with
  | none =>
    have hnot := batch.key_ne_of_get?_none hfield
    rw [upsert_of_ne fun row hrow => ?_]
    · rfl
    · obtain ⟨entry, hentry, hparse⟩ := mem_filterMap.mp hrow
      rw [dimensions_of_parseEntry hparse]
      exact hnot entry hentry
  | some count =>
    obtain ⟨front, back, hsplit, hfront, hback⟩ := batch.entries_split hfield
    obtain ⟨hpos, hle⟩ := hexact (field, count) ((batch.mem_entries_iff field count).mpr hfield)
    have hparse : parseEntry (field, count) = some ⟨field, count⟩ := by
      unfold parseEntry
      dsimp only
      rw [hvalid]
      dsimp only
      rw [if_neg (by simp; omega)]
    have hother : ∀ part : List (AppViewStatsRedisField × Nat), (∀ e ∈ part, e.1 ≠ field) →
        ∀ row ∈ part.filterMap parseEntry, row.dimensions ≠ field := by
      intro part hpart row hrow
      obtain ⟨entry, hentry, hparse⟩ := mem_filterMap.mp hrow
      rw [dimensions_of_parseEntry hparse]
      exact hpart entry hentry
    rw [hsplit, filterMap_append, filterMap_cons, hparse, foldl_append, foldl_cons,
      upsert_of_ne (hother back hback)]
    show Function.update _ field _ field = _
    rw [update_self, upsert_of_ne (hother front hfront)]
    rfl

theorem countIn_of_no_rows (hexact : Exact batch) (h : parseAppViewStatsBatch batch = [])
    (hvalid : Valid field) : countIn batch field = 0 := by
  have hadds := insertRows_parse hexact (fun _ => 0) hvalid
  rw [h, insertRows_eq, foldl_nil] at hadds
  omega

theorem countIn_hincrby (batch : Batch) (field other : AppViewStatsRedisField) :
    countIn (hincrby batch field) other = countIn batch other + if field = other then 1 else 0 := by
  unfold countIn hincrby
  rw [get?_set]
  by_cases h : other = field
  · simp [h]
  · simp [h, Ne.symm h]

theorem exact_hincrby (h : Exact batch)
    (hless : countIn batch field < MAX_SAFE_INTEGER) : Exact (hincrby batch field) := by
  unfold Exact hincrby
  refine forall_mem_set h ?_
  unfold countIn at hless
  dsimp only
  omega

theorem exact_empty : Exact .empty := nofun

/-! ## What waits -/

def Phase.removes (key : Nat) : Phase → Prop
  | .removing k _ => k = key
  | _ => False

/-- A flush has added the batch and not removed it yet. -/
def World.Added (s : World) (key : Nat) : Prop := ∃ i, (s.phase i).removes key

def sumOver (f : Nat → Nat) : List Nat → Nat
  | [] => 0
  | k :: rest => f k + sumOver f rest

open Classical in
/-- The views of a field in a pending batch that is not in the table. -/
noncomputable def World.pendingViews (s : World) (field : AppViewStatsRedisField) (key : Nat) : Nat :=
  if s.Added key then 0 else countIn (s.pending key) field

/-- The views of a field that are not in the table. -/
noncomputable def World.waiting (s : World) (field : AppViewStatsRedisField) : Nat :=
  countIn s.active field + sumOver (s.pendingViews field) s.index

variable {g : Nat → Nat} {key i : Nat}

theorem sumOver_congr (h : ∀ k ∈ keys, f k = g k) : sumOver f keys = sumOver g keys := by
  induction keys with
  | nil => rfl
  | cons k rest ih =>
    rw [sumOver, sumOver, h k mem_cons_self, ih fun k' hk' => h k' (mem_cons_of_mem _ hk')]

theorem sumOver_concat (f : Nat → Nat) (keys : List Nat) (key : Nat) :
    sumOver f (keys ++ [key]) = sumOver f keys + f key := by
  induction keys with
  | nil => simp [sumOver]
  | cons k rest ih =>
    rw [cons_append, sumOver, sumOver, ih]
    omega

theorem sumOver_update (hnodup : keys.Nodup) (hmem : key ∈ keys) (hkey : g key = 0)
    (hother : ∀ k ∈ keys, k ≠ key → g k = f k) : sumOver g keys + f key = sumOver f keys := by
  induction keys with
  | nil => simp at hmem
  | cons k rest ih =>
    obtain ⟨hnot, hrest⟩ := nodup_cons.mp hnodup
    rw [sumOver, sumOver]
    rcases mem_cons.mp hmem with rfl | hin
    · have hsame : sumOver g rest = sumOver f rest := by
        refine sumOver_congr fun k' hk' => hother k' (mem_cons_of_mem _ hk') ?_
        rintro rfl
        exact hnot hk'
      omega
    · have hne : k ≠ key := by
        rintro rfl
        exact hnot hin
      have := ih hrest hin fun k' hk' => hother k' (mem_cons_of_mem _ hk')
      have := hother k mem_cons_self hne
      omega

theorem sumOver_filter (hkey : f key = 0) :
    sumOver f (keys.filter fun k => k ≠ key) = sumOver f keys := by
  induction keys with
  | nil => rfl
  | cons k rest ih =>
    rw [filter_cons, sumOver]
    by_cases h : k = key
    · simp [h, hkey] at ih ⊢
      exact ih
    · simp [h, sumOver] at ih ⊢
      exact ih

theorem phase_goTo (s : World) (i j : Nat) (phase : Phase) :
    (s.goTo i phase).phase j = if j = i ∧ i < s.flushes.length then phase else s.phase j := by
  unfold World.phase World.goTo
  dsimp only
  rw [getElem?_set]
  by_cases hij : i = j
  · subst hij
    by_cases hlt : i < s.flushes.length <;> simp [hlt]
  · simp [hij, Ne.symm hij]

theorem phase_of_le (h : s.flushes.length ≤ i) : s.phase i = .ended := by
  unfold World.phase
  rw [getElem?_eq_none h]
  rfl

/-! ## Between two steps -/

/-- What a flush has read is still so, and its keys are old. -/
def Phase.Fits (s : World) : Phase → Prop
  | .working keys => ∀ k ∈ keys, k < s.nextKey
  | .read key batch rest =>
      key < s.nextKey ∧ (∀ k ∈ rest, k < s.nextKey) ∧ Exact batch ∧ (key ∈ s.index → s.pending key = batch)
  | .removing key rest => key < s.nextKey ∧ ∀ k ∈ rest, k < s.nextKey
  | _ => True

structure Kept (s : World) : Prop where
  active  : Exact s.active
  pending : ∀ k, Exact (s.pending k)
  empty   : ∀ k, k ∉ s.index → s.pending k = .empty
  nodup   : s.index.Nodup
  fresh   : ∀ k ∈ s.index, k < s.nextKey
  phases  : ∀ i, (s.phase i).Fits s

theorem kept_start : Kept .start := by
  refine ⟨exact_empty, fun _ => exact_empty, fun _ _ => rfl, nodup_nil, ?_, ?_⟩
  · intro k hk
    exact absurd hk not_mem_nil
  · intro i
    rw [phase_of_le (Nat.zero_le i)]
    trivial

/-- What the counts have to do with, apart from the phases. -/
structure SameStore (s s' : World) : Prop where
  active  : s'.active = s.active
  pending : s'.pending = s.pending
  index   : s'.index = s.index
  nextKey : s'.nextKey = s.nextKey

theorem SameStore.fits (h : SameStore s s') {phase : Phase} (hfits : phase.Fits s) :
    phase.Fits s' := by
  cases phase <;> simp only [Phase.Fits, h.nextKey, h.index, h.pending] at hfits ⊢ <;> exact hfits

/-- All views that there were are in the table or wait. -/
def Counted (s : World) (views : List AppViewStatsRedisField) : Prop :=
  ∀ field, Valid field → s.table field + s.waiting field = views.count field

theorem added_iff (hothers : ∀ j, j ≠ i → s'.phase j = s.phase j)
    (h : (s'.phase i).removes k ↔ (s.phase i).removes k) : s'.Added k ↔ s.Added k := by
  have hall : ∀ j, (s'.phase j).removes k ↔ (s.phase j).removes k := by
    intro j
    by_cases hj : j = i
    · rw [hj, h]
    · rw [hothers j hj]
  exact exists_congr hall

theorem pendingViews_congr (hpending : s'.pending k = s.pending k) (hadded : s'.Added k ↔ s.Added k)
    (field : AppViewStatsRedisField) : s'.pendingViews field k = s.pendingViews field k := by
  by_cases h : s.Added k
  · rw [World.pendingViews, World.pendingViews, if_pos h, if_pos (hadded.mpr h)]
  · rw [World.pendingViews, World.pendingViews, if_neg h, if_neg (fun h' => h (hadded.mp h')), hpending]

theorem pendingViews_of_none
    (h : countIn (s.pending k) field = 0) : s.pendingViews field k = 0 := by
  unfold World.pendingViews
  split <;> simp [h]

theorem pendingViews_of_added (h : s.Added k) (field : AppViewStatsRedisField) :
    s.pendingViews field k = 0 := if_pos h

theorem pendingViews_of_not_added (h : ¬s.Added k) (field : AppViewStatsRedisField) :
    s.pendingViews field k = countIn (s.pending k) field := if_neg h

/-! ## Steps that leave the batches alone -/

section

variable {s s' : World} {i : Nat} {views : List AppViewStatsRedisField}

theorem kept_of_same (h : Kept s) (hsame : SameStore s s') (hothers : ∀ j, j ≠ i → s'.phase j = s.phase j)
    (hfits : (s'.phase i).Fits s) : Kept s' := by
  refine ⟨hsame.active ▸ h.active, ?_, ?_, hsame.index ▸ h.nodup, ?_, ?_⟩
  · intro k
    rw [hsame.pending]
    exact h.pending k
  · intro k hk
    rw [hsame.index] at hk
    rw [hsame.pending]
    exact h.empty k hk
  · intro k hk
    rw [hsame.index] at hk
    rw [hsame.nextKey]
    exact h.fresh k hk
  · intro j
    by_cases hj : j = i
    · rw [hj]
      exact hsame.fits hfits
    · rw [hothers j hj]
      exact hsame.fits (h.phases j)

theorem moved (h : Kept s) (hcount : Counted s views) (hsame : SameStore s s') (htable : s'.table = s.table)
    (hothers : ∀ j, j ≠ i → s'.phase j = s.phase j) (hfits : (s'.phase i).Fits s)
    (hnew : ∀ k, ¬(s'.phase i).removes k)
    (hold : ∀ k, (s.phase i).removes k → parseAppViewStatsBatch (s.pending k) = []) :
    Kept s' ∧ Counted s' views := by
  refine ⟨kept_of_same h hsame hothers hfits, ?_⟩
  intro field hvalid
  rw [← hcount field hvalid, htable]
  unfold World.waiting
  rw [hsame.active, hsame.index, sumOver_congr fun k _ => ?_]
  by_cases hk : (s.phase i).removes k
  · have hzero := countIn_of_no_rows (h.pending k) (hold k hk) hvalid
    rw [pendingViews_of_none hzero, pendingViews_of_none (by rw [hsame.pending, hzero])]
  · exact pendingViews_congr (by rw [hsame.pending]) (added_iff hothers (by simp [hk, hnew k])) field

theorem goTo_others (s : World) (i : Nat) (phase : Phase) :
    ∀ j, j ≠ i → (s.goTo i phase).phase j = s.phase j := by
  intro j hj
  simp [phase_goTo, hj]

theorem goTo_self (s : World) (i : Nat) (phase : Phase) :
    (s.goTo i phase).phase i = phase ∨ (s.goTo i phase).phase i = .ended := by
  rw [phase_goTo]
  by_cases hlt : i < s.flushes.length
  · simp [hlt]
  · right
    simp [hlt, phase_of_le (Nat.le_of_not_lt hlt)]

theorem fits_ended (s : World) : Phase.ended.Fits s := trivial

theorem not_removes_ended (k : Nat) : ¬Phase.ended.removes k := id

theorem moved_goTo (h : Kept s) (hcount : Counted s views) {lock : Option Nat} {phase : Phase}
    (hfits : phase.Fits s) (hnew : ∀ k, ¬phase.removes k)
    (hold : ∀ k, (s.phase i).removes k → parseAppViewStatsBatch (s.pending k) = []) :
    Kept (({ s with lock := lock } : World).goTo i phase) ∧
      Counted (({ s with lock := lock } : World).goTo i phase) views := by
  have hself := goTo_self { s with lock := lock } i phase
  refine moved h hcount ⟨rfl, rfl, rfl, rfl⟩ rfl (goTo_others { s with lock := lock } i phase) ?_ ?_ hold
  · rcases hself with hself | hself <;> rw [hself]
    · exact hfits
    · exact fits_ended s
  · intro k
    rcases hself with hself | hself <;> rw [hself]
    · exact hnew k
    · exact not_removes_ended k

/-! ## Counting, cutting, adding and removing -/

theorem viewed (h : Kept s) (hcount : Counted s views) {field : AppViewStatsRedisField}
    (hless : countIn s.active field < MAX_SAFE_INTEGER) :
    Kept { s with active := hincrby s.active field } ∧
      Counted { s with active := hincrby s.active field } (views ++ [field]) := by
  constructor
  · exact ⟨exact_hincrby h.active hless, h.pending, h.empty, h.nodup, h.fresh, h.phases⟩
  · intro other hvalid
    have hbefore := hcount other hvalid
    unfold World.waiting at hbefore ⊢
    dsimp only
    rw [countIn_hincrby, count_append, count_singleton]
    have hsame : sumOver (({ s with active := hincrby s.active field } : World).pendingViews other) s.index =
        sumOver (s.pendingViews other) s.index := rfl
    by_cases heq : field = other
    · simp only [heq, if_true, BEq.rfl] at hsame ⊢
      omega
    · simp only [heq, if_false, beq_iff_eq] at hsame ⊢
      omega

theorem cut (h : Kept s) (hcount : Counted s views) : Kept (cutActiveHash s) ∧ Counted (cutActiveHash s) views := by
  -- No flush has heard of the fresh key.
  have hold : ∀ phase : Phase, phase.Fits s → ¬phase.removes s.nextKey := by
    intro phase hfits
    cases phase with
    | removing key rest =>
      have := hfits.1
      simp only [Phase.removes]
      omega
    | _ => exact id
  unfold cutActiveHash
  by_cases hempty : s.active.entries = []
  · rw [if_pos hempty]
    refine ⟨⟨h.active, h.pending, h.empty, h.nodup, ?_, ?_⟩, hcount⟩
    · intro k hk
      exact Nat.lt_succ_of_lt (h.fresh k hk)
    · intro j
      have hfits := h.phases j
      revert hfits
      show (s.phase j).Fits s → (s.phase j).Fits _
      cases s.phase j <;> simp only [Phase.Fits] <;> intro hfits
      all_goals grind
  · rw [if_neg hempty]
    have hnot : s.nextKey ∉ s.index := by
      intro hmem
      have := h.fresh _ hmem
      omega
    refine ⟨⟨exact_empty, ?_, ?_, ?_, ?_, ?_⟩, ?_⟩
    · intro k
      by_cases hk : k = s.nextKey
      · subst hk
        simp [h.active]
      · simp [hk, h.pending k]
    · intro k hk
      simp only [mem_append, mem_singleton, not_or] at hk
      simp [hk.2, h.empty k hk.1]
    · simp only [nodup_append, h.nodup, nodup_singleton, true_and, mem_singleton]
      rintro k hk _ rfl rfl
      exact hnot hk
    · intro k hk
      simp only [mem_append, mem_singleton] at hk
      dsimp only
      rcases hk with hk | rfl
      · exact Nat.lt_succ_of_lt (h.fresh k hk)
      · exact Nat.lt_succ_self _
    · intro j
      have hfits := h.phases j
      revert hfits
      show (s.phase j).Fits s → (s.phase j).Fits _
      cases s.phase j <;> simp only [Phase.Fits] <;> intro hfits
      all_goals grind
    · intro field hvalid
      rw [← hcount field hvalid]
      unfold World.waiting
      dsimp only
      rw [sumOver_concat, pendingViews_of_not_added]
      · have hsame : ∀ k ∈ s.index, Function.update s.pending s.nextKey s.active k = s.pending k := by
          intro k hk
          refine update_of_ne ?_ _ _
          rintro rfl
          exact hnot hk
        rw [sumOver_congr (g := s.pendingViews field) fun k hk => ?_]
        · dsimp only
          rw [update_self]
          have hzero : countIn .empty field = 0 := rfl
          omega
        · refine pendingViews_congr ?_ ?_ field
          · exact hsame k hk
          · exact Iff.rfl
      · rintro ⟨j, hj⟩
        exact hold _ (h.phases j) hj

variable {key : Nat} {rest : List Nat}

theorem added (h : Kept s) (hcount : Counted s views) {batch : Batch}
    (hphase : s.phase i = .read key batch rest)
    (hclean : parseAppViewStatsBatch batch = [] ∨ key ∈ s.index ∧ ∀ j, j ≠ i → ¬(s.phase j).removes key)
    (hsame : SameStore s s') (hothers : ∀ j, j ≠ i → s'.phase j = s.phase j)
    (hself : s'.phase i = .removing key rest) (htable : s'.table = insertRows s.table (parseAppViewStatsBatch batch)) :
    Kept s' ∧ Counted s' views := by
  have hfits := h.phases i
  rw [hphase] at hfits
  obtain ⟨hkey, hrest, hexact, hread⟩ := hfits
  refine ⟨kept_of_same h hsame hothers ?_, ?_⟩
  · rw [hself]
    exact ⟨hkey, hrest⟩
  intro field hvalid
  have hviews := hcount field hvalid
  have hnow : s'.pendingViews field key = 0 := pendingViews_of_added ⟨i, by rw [hself]; rfl⟩ field
  have helse : ∀ k, k ≠ key → s'.pendingViews field k = s.pendingViews field k := by
    intro k hk
    refine pendingViews_congr (by rw [hsame.pending]) (added_iff hothers ?_) field
    simp [hself, hphase, Phase.removes, Ne.symm hk]
  have hadds : s'.table field = s.table field + countIn batch field := by
    rw [htable]
    exact insertRows_parse hexact s.table hvalid
  unfold World.waiting at hviews ⊢
  rw [hsame.active, hsame.index]
  by_cases hmem : key ∈ s.index
  · have hsum := sumOver_update h.nodup hmem hnow fun k _ hk => helse k hk
    have hbefore : s.pendingViews field key = countIn batch field := by
      rcases hclean with hnone | ⟨-, halone⟩
      · have hzero := countIn_of_no_rows hexact hnone hvalid
        rw [hzero, pendingViews_of_none]
        rw [hread hmem, hzero]
      · rw [pendingViews_of_not_added, hread hmem]
        rintro ⟨j, hj⟩
        by_cases hij : j = i
        · rw [hij, hphase] at hj
          exact hj
        · exact halone j hij hj
    omega
  · -- The batch is gone, so it has no rows.
    have hnone := hclean.resolve_right fun hin => hmem hin.1
    have hzero := countIn_of_no_rows hexact hnone hvalid
    have hsum : sumOver (s'.pendingViews field) s.index = sumOver (s.pendingViews field) s.index :=
      sumOver_congr fun k hk => helse k fun heq => hmem (heq ▸ hk)
    omega

theorem removed (h : Kept s) (hcount : Counted s views)
    (hphase : s.phase i = .removing key rest) (hsame : SameStore (removeBatch s key) s')
    (htable : s'.table = s.table) (hothers : ∀ j, j ≠ i → s'.phase j = s.phase j)
    (hself : s'.phase i = .working rest) : Kept s' ∧ Counted s' views := by
  have hfits := h.phases i
  rw [hphase] at hfits
  have hindex : ∀ k, k ∈ s'.index ↔ k ∈ s.index ∧ k ≠ key := by
    intro k
    rw [hsame.index]
    simp [removeBatch]
  have hpending : ∀ k, k ≠ key → s'.pending k = s.pending k := by
    intro k hk
    rw [hsame.pending]
    exact update_of_ne hk _ _
  have hgone : s'.pending key = .empty := by
    rw [hsame.pending]
    exact update_self ..
  have hnext : s'.nextKey = s.nextKey := hsame.nextKey
  constructor
  · refine ⟨hsame.active ▸ h.active, ?_, ?_, hsame.index ▸ h.nodup.filter _, ?_, ?_⟩
    · intro k
      by_cases hk : k = key
      · rw [hk, hgone]
        exact exact_empty
      · rw [hpending k hk]
        exact h.pending k
    · intro k hk
      by_cases hkey : k = key
      · rw [hkey, hgone]
      · rw [hpending k hkey]
        exact h.empty k fun hmem => hk ((hindex k).mpr ⟨hmem, hkey⟩)
    · intro k hk
      rw [hnext]
      exact h.fresh k ((hindex k).mp hk).1
    · intro j
      by_cases hj : j = i
      · rw [hj, hself]
        intro k hk
        rw [hnext]
        exact hfits.2 k hk
      · rw [hothers j hj]
        have hfits := h.phases j
        revert hfits
        cases s.phase j with
        | read k batch keys =>
          simp only [Phase.Fits, hnext]
          rintro ⟨hk, hkeys, hexact, hread⟩
          refine ⟨hk, hkeys, hexact, fun hmem => ?_⟩
          obtain ⟨hmem, hne⟩ := (hindex k).mp hmem
          rw [hpending k hne, hread hmem]
        | _ =>
          simp only [Phase.Fits, hnext]
          exact id
  · intro field hvalid
    rw [← hcount field hvalid, htable]
    unfold World.waiting
    have hadded : s.pendingViews field key = 0 := pendingViews_of_added ⟨i, by rw [hphase]; rfl⟩ field
    have hfiltered : s'.index = s.index.filter fun k => k ≠ key := hsame.index
    rw [← sumOver_filter hadded, show s'.active = s.active from hsame.active, hfiltered]
    rw [sumOver_congr fun k hk => ?_]
    have hne : k ≠ key := by simpa using (mem_filter.mp hk).2
    refine pendingViews_congr (hpending k hne) (added_iff hothers ?_) field
    simp [hself, hphase, Phase.removes, Ne.symm hne]

end

/-! ## Every step -/

/-- A flush adds what it read, if that has rows, only while the batch is still
    there and no other flush has added it. -/
def MayAdd (s : World) (i : Nat) : Phase → Prop
  | .read key batch _ =>
      parseAppViewStatsBatch batch = [] ∨
        key ∈ s.index ∧ ∀ j < s.flushes.length, j ≠ i → ¬(s.phase j).removes key
  | _ => True

/-- A flush ends between adding a batch and removing it only if that has no
    rows. -/
def MayEnd (s : World) : Phase → Prop
  | .removing key _ => parseAppViewStatsBatch (s.pending key) = []
  | _ => True

/-- No batch is added twice, and no count gets too large to be one. -/
def Clean (s : World) : Input → Prop
  | .view field => countIn s.active field < MAX_SAFE_INTEGER
  | .act i _ => MayAdd s i (s.phase i)
  | .fail i => MayEnd s (s.phase i)
  | .die i => MayEnd s (s.phase i)
  | _ => True

section

variable {s : World} {views : List AppViewStatsRedisField}

theorem mayEnd_iff (i : Nat) :
    MayEnd s (s.phase i) ↔ ∀ k, (s.phase i).removes k → parseAppViewStatsBatch (s.pending k) = [] := by
  cases s.phase i <;> simp [MayEnd, Phase.removes]

variable {i : Nat}

theorem alone_of_mayAdd {key : Nat} (h : ∀ j < s.flushes.length, j ≠ i → ¬(s.phase j).removes key) :
    ∀ j, j ≠ i → ¬(s.phase j).removes key := by
  intro j hj
  by_cases hlt : j < s.flushes.length
  · exact h j hlt hj
  · rw [phase_of_le (Nat.le_of_not_lt hlt)]
    exact not_removes_ended key

theorem lt_of_phase (h : s.phase i ≠ .ended) : i < s.flushes.length := by
  by_contra hle
  exact h (phase_of_le (Nat.le_of_not_lt hle))

theorem goTo_now (h : s.phase i ≠ .ended) (phase : Phase) : (s.goTo i phase).phase i = phase := by
  rw [phase_goTo, if_pos ⟨rfl, lt_of_phase h⟩]

theorem act_counted (h : Kept s) (hcount : Counted s views) {order : List Nat}
    (hclean : MayAdd s i (s.phase i)) : Kept (act s i order) ∧ Counted (act s i order) views := by
  unfold act
  cases hphase : s.phase i with
  | starting =>
    have hold : ∀ k, (s.phase i).removes k → parseAppViewStatsBatch (s.pending k) = [] := by
      simp [hphase, Phase.removes]
    dsimp only
    split
    · exact moved_goTo h hcount trivial (fun _ => id) hold
    · exact moved_goTo h hcount trivial (fun _ => id) hold
  | locked =>
    obtain ⟨hkept, hcounted⟩ := cut h hcount
    have hflushes : (cutActiveHash s).flushes = s.flushes := by
      unfold cutActiveHash
      split <;> rfl
    refine moved_goTo hkept hcounted trivial (fun _ => id) ?_
    have hnow : (cutActiveHash s).phase i = s.phase i := by
      unfold World.phase
      rw [hflushes]
    simp [hnow, hphase, Phase.removes]
  | cut =>
    refine moved_goTo h hcount ?_ (fun _ => id) (by simp [hphase, Phase.removes])
    intro k hk
    split at hk
    · next hperm => exact h.fresh k ((isPerm_iff.mp hperm).mem_iff.mp hk)
    · exact h.fresh k hk
  | working keys =>
    have hfits := h.phases i
    rw [hphase] at hfits
    cases keys with
    | nil => exact moved_goTo h hcount trivial (fun _ => id) (by simp [hphase, Phase.removes])
    | cons key rest =>
      refine moved_goTo h hcount ⟨?_, ?_, h.pending key, fun _ => rfl⟩ (fun _ => id)
        (by simp [hphase, Phase.removes])
      · exact hfits key mem_cons_self
      · exact fun k hk => hfits k (mem_cons_of_mem _ hk)
  | read key batch rest =>
    rw [hphase] at hclean
    have hne : s.phase i ≠ .ended := by simp [hphase]
    refine added h hcount hphase (hclean.imp id fun hin => ⟨hin.1, alone_of_mayAdd hin.2⟩) ⟨rfl, rfl, rfl, rfl⟩
      ?_ ?_ rfl
    · exact goTo_others { s with table := insertRows s.table (parseAppViewStatsBatch batch) } i _
    · exact goTo_now (s := { s with table := insertRows s.table (parseAppViewStatsBatch batch) }) hne _
  | removing key rest =>
    have hne : s.phase i ≠ .ended := by simp [hphase]
    exact removed h hcount hphase ⟨rfl, rfl, rfl, rfl⟩ rfl (goTo_others (removeBatch s key) i _)
      (goTo_now (s := removeBatch s key) hne _)
  | releasing =>
    have hold : ∀ k, (s.phase i).removes k → parseAppViewStatsBatch (s.pending k) = [] := by
      simp [hphase, Phase.removes]
    dsimp only
    unfold releaseLock
    split
    · exact moved_goTo h hcount trivial (fun _ => id) hold
    · exact moved_goTo h hcount trivial (fun _ => id) hold
  | ended => exact ⟨h, hcount⟩

theorem step_counted (h : Kept s) (hcount : Counted s views) {input : Input} (hclean : Clean s input) :
    Kept (step s input).1 ∧ Counted (step s input).1 (views ++ (step s input).2) := by
  cases input with
  | view field => exact viewed h hcount hclean
  | begin =>
    simp only [step, append_nil]
    -- The new flush is one more that has ended, seen before it starts.
    have hnew : ∀ j, ({ s with flushes := s.flushes ++ [.starting] } : World).phase j =
        if j = s.flushes.length then .starting else s.phase j := by
      intro j
      unfold World.phase
      dsimp only
      rw [getElem?_append]
      split_ifs <;> grind
    refine moved (i := s.flushes.length) h hcount ⟨rfl, rfl, rfl, rfl⟩ rfl ?_ ?_ ?_ ?_
    · intro j hj
      simp [hnew, hj]
    · simp [hnew, Phase.Fits]
    · simp [hnew, Phase.removes]
    · simp [phase_of_le le_rfl, Phase.removes]
  | act i order =>
    simp only [step, append_nil]
    exact act_counted h hcount hclean
  | fail i =>
    simp only [step, append_nil]
    have hafter : afterFailure (s.phase i) = .ended ∨ afterFailure (s.phase i) = .releasing := by
      cases s.phase i <;> simp [afterFailure]
    rcases hafter with hafter | hafter <;> rw [hafter]
    · exact moved_goTo h hcount trivial (fun _ => id) ((mayEnd_iff i).mp hclean)
    · exact moved_goTo h hcount trivial (fun _ => id) ((mayEnd_iff i).mp hclean)
  | die i =>
    simp only [step, append_nil]
    exact moved_goTo h hcount trivial (fun _ => id) ((mayEnd_iff i).mp hclean)
  | expire =>
    simp only [step, append_nil]
    exact ⟨⟨h.active, h.pending, h.empty, h.nodup, h.fresh, h.phases⟩, hcount⟩

end

/-! ## Whole runs -/

theorem run_counted {inputs : List Input} (h : Kept s) {views : List AppViewStatsRedisField}
    (hcount : Counted s views) (hclean : flushes.Meets Clean s inputs) :
    Kept (flushes.run s inputs).1 ∧ Counted (flushes.run s inputs).1 (views ++ (flushes.run s inputs).2) := by
  refine run_history (m := flushes) (C := Clean)
    (I := fun s outputs => Kept s ∧ Counted s (views ++ outputs)) ?_ ?_ hclean
  · rintro s outputs input ⟨hkept, hcounted⟩ hclean
    obtain ⟨hnext, hsum⟩ := step_counted hkept hcounted hclean
    rw [append_assoc] at hsum
    exact ⟨hnext, hsum⟩
  · rw [append_nil]
    exact ⟨h, hcount⟩

section

variable {i : Nat} (order : List Nat) {s : World}

theorem one_batch {key : Nat} {rest : List Nat} (hphase : s.phase i = .working (key :: rest))
    (halone : ∀ j, j ≠ i → s.phase j = .ended) (hmem : key ∈ s.index) :
    flushes.Meets Clean s (List.replicate 3 (.act i order)) ∧
      (flushes.run s (List.replicate 3 (.act i order))).1.phase i = .working rest ∧
      (∀ j, j ≠ i → (flushes.run s (List.replicate 3 (.act i order))).1.phase j = .ended) ∧
      (flushes.run s (List.replicate 3 (.act i order))).1.index = s.index.filter (fun k => k ≠ key) ∧
      (flushes.run s (List.replicate 3 (.act i order))).1.active = s.active := by
  have hread : act s i order = s.goTo i (.read key (s.pending key) rest) := by
    unfold act
    rw [hphase]
  have hone : (act s i order).phase i = .read key (s.pending key) rest := by
    rw [hread, goTo_now (by simp [hphase])]
  have hadd : act (act s i order) i order =
      World.goTo { act s i order with table := insertRows s.table (parseAppViewStatsBatch (s.pending key)) } i
        (.removing key rest) := by
    conv_lhs => rw [act.eq_def, hone]
    rw [hread]
    rfl
  have htwo : (act (act s i order) i order).phase i = .removing key rest := by
    rw [hadd]
    refine goTo_now (s := { act s i order with table := insertRows s.table (parseAppViewStatsBatch (s.pending key)) })
      ?_ _
    show (act s i order).phase i ≠ .ended
    simp [hone]
  have hremove : act (act (act s i order) i order) i order =
      (removeBatch (act (act s i order) i order) key).goTo i (.working rest) := by
    conv_lhs => rw [act.eq_def, htwo]
  have hthree : (act (act (act s i order) i order) i order).phase i = .working rest := by
    rw [hremove]
    refine goTo_now (s := removeBatch (act (act s i order) i order) key) ?_ _
    show (act (act s i order) i order).phase i ≠ .ended
    simp [htwo]
  have hother : ∀ j, j ≠ i → (act s i order).phase j = .ended := by
    intro j hj
    rw [hread, goTo_others _ _ _ j hj, halone j hj]
  refine ⟨⟨?_, ?_, ?_, trivial⟩, hthree, ?_, ?_, ?_⟩
  · simp [Clean, hphase, MayAdd]
  · show MayAdd (act s i order) i ((act s i order).phase i)
    rw [hone]
    refine .inr ⟨?_, fun j _ hj => ?_⟩
    · rw [hread]
      exact hmem
    · rw [hother j hj]
      exact not_removes_ended key
  · show MayAdd (act (act s i order) i order) i ((act (act s i order) i order).phase i)
    simp [htwo, MayAdd]
  · intro j hj
    show (act (act (act s i order) i order) i order).phase j = .ended
    rw [hremove, goTo_others _ _ _ j hj]
    show (act (act s i order) i order).phase j = .ended
    rw [hadd, goTo_others _ _ _ j hj]
    exact hother j hj
  · show (act (act (act s i order) i order) i order).index = _
    rw [hremove, hadd, hread]
    rfl
  · show (act (act (act s i order) i order) i order).active = _
    rw [hremove, hadd, hread]
    rfl

theorem drains (keys : List Nat) (hphase : s.phase i = .working keys)
    (halone : ∀ j, j ≠ i → s.phase j = .ended) (hindex : ∀ k, k ∈ s.index ↔ k ∈ keys) (hnodup : keys.Nodup) :
    flushes.Meets Clean s (List.replicate (3 * keys.length) (.act i order)) ∧
      (flushes.run s (List.replicate (3 * keys.length) (.act i order))).1.index = [] ∧
      (flushes.run s (List.replicate (3 * keys.length) (.act i order))).1.active = s.active := by
  induction keys generalizing s with
  | nil => exact ⟨trivial, eq_nil_iff_forall_not_mem.mpr fun k hk => by simpa using (hindex k).mp hk, rfl⟩
  | cons key rest ih =>
    obtain ⟨hnot, hrest⟩ := nodup_cons.mp hnodup
    obtain ⟨hfirst, hphase', halone', hindex', hactive'⟩ :=
      one_batch order hphase halone ((hindex key).mpr mem_cons_self)
    have hleft : ∀ k, k ∈ (flushes.run s (List.replicate 3 (.act i order))).1.index ↔ k ∈ rest := by
      intro k
      rw [hindex', mem_filter, hindex k, mem_cons]
      constructor
      · rintro ⟨rfl | hk, hne⟩
        · simp at hne
        · exact hk
      · intro hk
        refine ⟨.inr hk, ?_⟩
        have hne : k ≠ key := by
          rintro rfl
          exact hnot hk
        simpa using hne
    obtain ⟨hlater, hempty, hactive⟩ := ih hphase' halone' hleft hrest
    have hsteps : List.replicate (3 * (key :: rest).length) (Input.act i order) =
        List.replicate 3 (.act i order) ++ List.replicate (3 * rest.length) (.act i order) := by
      rw [← replicate_add, length_cons]
      congr 1
      omega
    rw [hsteps, run_append, meets_append]
    exact ⟨⟨hfirst, hlater⟩, hempty, hactive.trans hactive'⟩

theorem cutActiveHash_active (s : World) : (cutActiveHash s).active.entries = [] := by
  unfold cutActiveHash
  split
  · next h => exact h
  · rfl

theorem cutActiveHash_index (s : World) :
    (cutActiveHash s).index = if s.active.entries = [] then s.index else s.index ++ [s.nextKey] := by
  unfold cutActiveHash
  split <;> rfl

theorem cutActiveHash_phase (s : World) (j : Nat) : (cutActiveHash s).phase j = s.phase j := by
  unfold cutActiveHash
  split <;> rfl

theorem begins (hlock : s.lock = none) (hquiet : ∀ j, s.phase j = .ended) (hi : i = s.flushes.length) :
    let t := (flushes.run s (.begin :: List.replicate 3 (.act i order))).1
    flushes.Meets Clean s (.begin :: List.replicate 3 (.act i order)) ∧
      (∃ keys, t.phase i = .working keys ∧ keys.Perm t.index) ∧ (∀ j, j ≠ i → t.phase j = .ended) ∧
      t.index = (cutActiveHash s).index ∧ t.active.entries = [] := by
  let begun : World := { s with flushes := s.flushes ++ [.starting] }
  have hbegun : ∀ j, begun.phase j = if j = i then .starting else .ended := by
    intro j
    have hbefore := hquiet j
    unfold World.phase at hbefore ⊢
    dsimp only [begun]
    rw [getElem?_append]
    split_ifs <;> grind
  have hzero : begun.phase i = .starting := by simp [hbegun]
  have hlocks : act begun i order = World.goTo { begun with lock := some i } i .locked := by
    conv_lhs => rw [act.eq_def, hzero]
    exact if_pos hlock
  have hone : (act begun i order).phase i = .locked := by
    rw [hlocks]
    refine goTo_now (s := { begun with lock := some i }) ?_ _
    show begun.phase i ≠ .ended
    simp [hzero]
  have hcuts : act (act begun i order) i order = (cutActiveHash (act begun i order)).goTo i .cut := by
    conv_lhs => rw [act.eq_def, hone]
  have htwo : (act (act begun i order) i order).phase i = .cut := by
    rw [hcuts]
    refine goTo_now ?_ _
    rw [cutActiveHash_phase, hone]
    simp
  let keys : List Nat :=
    if order.isPerm (act (act begun i order) i order).index then order else (act (act begun i order) i order).index
  have hworks : act (act (act begun i order) i order) i order =
      (act (act begun i order) i order).goTo i (.working keys) := by
    conv_lhs => rw [act.eq_def, htwo]
  have hindex : (act (act begun i order) i order).index = (cutActiveHash s).index := by
    rw [hcuts, hlocks, cutActiveHash_index s]
    exact cutActiveHash_index (World.goTo { begun with lock := some i } i .locked)
  refine ⟨⟨trivial, ?_, ?_, ?_, trivial⟩, ⟨keys, ?_, ?_⟩, ?_, ?_, ?_⟩
  · show MayAdd begun i (begun.phase i)
    simp [hzero, MayAdd]
  · show MayAdd (act begun i order) i ((act begun i order).phase i)
    simp [hone, MayAdd]
  · show MayAdd (act (act begun i order) i order) i ((act (act begun i order) i order).phase i)
    simp [htwo, MayAdd]
  · show (act (act (act begun i order) i order) i order).phase i = _
    rw [hworks, goTo_now (by simp [htwo])]
  · show List.Perm _ (act (act (act begun i order) i order) i order).index
    rw [hworks]
    show List.Perm keys (act (act begun i order) i order).index
    dsimp only [keys]
    split
    · next hperm => exact isPerm_iff.mp hperm
    · exact .refl _
  · intro j hj
    show (act (act (act begun i order) i order) i order).phase j = .ended
    rw [hworks, goTo_others _ _ _ j hj, hcuts, goTo_others _ _ _ j hj, cutActiveHash_phase, hlocks,
      goTo_others _ _ _ j hj]
    show begun.phase j = .ended
    simp [hbegun, hj]
  · show (act (act (act begun i order) i order) i order).index = _
    rw [hworks]
    exact hindex
  · show (act (act (act begun i order) i order) i order).active.entries = []
    rw [hworks]
    show (act (act begun i order) i order).active.entries = []
    rw [hcuts]
    exact cutActiveHash_active _

/-- A flush that nothing disturbs. -/
def undisturbed (s : World) (order : List Nat) : List Input :=
  .begin :: List.replicate (3 + 3 * (cutActiveHash s).index.length) (.act s.flushes.length order)

theorem flushed (hkept : Kept s) {views : List AppViewStatsRedisField} (hcount : Counted s views)
    (hlock : s.lock = none) (hquiet : ∀ j, s.phase j = .ended) :
    flushes.Meets Clean s (undisturbed s order) ∧
      ∀ field, (flushes.run s (undisturbed s order)).1.waiting field = 0 := by
  obtain ⟨hfirst, ⟨keys, hphase, hperm⟩, halone, hindex, hactive⟩ := begins order hlock hquiet rfl
  have hkept' := (run_counted hkept hcount hfirst).1
  obtain ⟨hlater, hempty, hsame⟩ :=
    drains order keys hphase halone (fun k => hperm.mem_iff.symm) (hperm.nodup_iff.mpr hkept'.nodup)
  rw [hperm.length_eq, hindex] at hlater hempty hsame
  have hnone : ∀ t : World, t.index = [] → t.active.entries = [] → ∀ field, t.waiting field = 0 := by
    intro t hindex hactive field
    unfold World.waiting countIn get?
    rw [hindex, hactive]
    rfl
  unfold undisturbed
  rw [replicate_add, ← cons_append, run_append, meets_append]
  exact ⟨⟨hfirst, hlater⟩, hnone _ hempty (hsame ▸ hactive)⟩

end

/-- A view is in the table or waits, and is in the table once a flush that
    nothing disturbs has run. -/
theorem counts_arrive_once {inputs : List Input} (hclean : flushes.Meets Clean .start inputs) :
    let s := (flushes.run .start inputs).1
    (∀ field, Valid field → s.table field + s.waiting field = (flushes.run .start inputs).2.count field) ∧
      (s.lock = none → (∀ i, s.phase i = .ended) → ∀ order field, Valid field →
        (flushes.run .start (inputs ++ undisturbed s order)).1.table field =
          (flushes.run .start (inputs ++ undisturbed s order)).2.count field) := by
  have hstart : Counted .start [] := by
    intro field _
    rfl
  obtain ⟨hkept, hcount⟩ := run_counted kept_start hstart hclean
  refine ⟨hcount, fun hlock hquiet order field hvalid => ?_⟩
  obtain ⟨hmeets, hnone⟩ := flushed order hkept hcount hlock hquiet
  have hafter := (run_counted hkept hcount hmeets).2 field hvalid
  rw [hnone, Nat.add_zero] at hafter
  rw [Mealy.run_append]
  exact hafter

/-! ## A process that dies too late -/

def someField : AppViewStatsRedisField :=
  ⟨"00000000-0000-0000-0000-000000000000", "00000000-0000-0000-0000-000000000000", 0, .web⟩

theorem valid_someField : Valid someField := by decide +kernel

theorem counts_arrive_once_one_view :
    (flushes.run .start ([.view someField] ++
      undisturbed (flushes.run .start [.view someField]).1 [])).1.table someField = 1 := by
  have hclean : flushes.Meets Clean .start [.view someField] := by
    refine ⟨?_, trivial⟩
    show countIn .empty someField < MAX_SAFE_INTEGER
    decide +kernel
  have hviews : (flushes.run .start ([.view someField] ++
      undisturbed (flushes.run .start [.view someField]).1 [])).2.count someField = 1 := by
    decide +kernel
  rw [← hviews]
  exact (counts_arrive_once hclean).2 rfl (fun _ => rfl) [] someField valid_someField

/-- The process dies after the transaction, and the next flush adds the batch
    again. -/
def addedTwice : List Input :=
  .view someField :: .begin :: (List.replicate 5 (.act 0 []) ++ .die 0 :: .expire :: .begin ::
    List.replicate 8 (.act 1 []))

theorem one_view_counts_two :
    (flushes.run .start addedTwice).1.table someField = 2 ∧
      (flushes.run .start addedTwice).2.count someField = 1 := by
  decide +kernel

end Cohub.Stats
