import Mathlib.Data.List.Nodup
import Mathlib.Data.List.Basic

/-! # Insertion-ordered maps

    Finite maps that remember the order in which their keys were first
    inserted: a later write to a present key keeps the key's position, and a
    deleted key that is written again goes to the end.  This is the iteration
    order of the keyed collections of scripting languages, so a model that
    loops over such a collection can loop over `entries`.

    The carrier is a list of entries with pairwise distinct keys.  All facts
    below are about `get?`, so that users never look at the list, and one
    membership lemma (`mem_entries_iff`) leads from the loops back to `get?`. -/

/-- A finite map from `κ` to `α` in insertion order. -/
structure OrderedMap (κ α : Type) where
  /-- The entries, oldest key first. -/
  entries : List (κ × α)
  /-- No key occurs twice. -/
  nodup   : (entries.map Prod.fst).Nodup

namespace OrderedMap

open List

variable {κ α β : Type} [DecidableEq κ]

/-! ## Plumbing on entry lists -/

/-- The first value stored under `k`. -/
def lookupEntry (k : κ) : List (κ × α) → Option α
  | [] => none
  | (k', v) :: rest => if k = k' then some v else lookupEntry k rest

/-- Overwrite the value under `k` in place, or append a new entry. -/
def setEntry (k : κ) (v : α) : List (κ × α) → List (κ × α)
  | [] => [(k, v)]
  | (k', v') :: rest =>
      if k = k' then (k, v) :: rest else (k', v') :: setEntry k v rest

theorem keys_setEntry (k : κ) (v : α) (l : List (κ × α)) :
    (setEntry k v l).map Prod.fst =
      if k ∈ l.map Prod.fst then l.map Prod.fst else l.map Prod.fst ++ [k] := by
  induction l with
  | nil => simp [setEntry]
  | cons e rest ih =>
    obtain ⟨k', v'⟩ := e
    by_cases hk : k = k'
    · subst hk
      simp [setEntry]
    · by_cases hmem : k ∈ rest.map Prod.fst
      · have hkeys : (setEntry k v rest).map Prod.fst = rest.map Prod.fst := by
          rw [ih, if_pos hmem]
        rw [if_pos (by simp only [map_cons]; exact mem_cons_of_mem _ hmem)]
        simp only [setEntry, if_neg hk, map_cons, hkeys]
      · have hkeys : (setEntry k v rest).map Prod.fst = rest.map Prod.fst ++ [k] := by
          rw [ih, if_neg hmem]
        have hnot : k ∉ ((k', v') :: rest).map Prod.fst := by
          simp only [map_cons, mem_cons, not_or]
          exact ⟨hk, hmem⟩
        rw [if_neg hnot]
        simp only [setEntry, if_neg hk, map_cons, hkeys, cons_append]

variable {k : κ} {l : List (κ × α)} {v : α} {m : OrderedMap κ α}

theorem setEntry_of_not_mem (v : α) (h : k ∉ l.map Prod.fst) : setEntry k v l = l ++ [(k, v)] := by
  induction l with
  | nil => rfl
  | cons e rest ih =>
    obtain ⟨k', v'⟩ := e
    simp only [map_cons, mem_cons, not_or] at h
    rw [setEntry, if_neg h.1, ih h.2]
    rfl

theorem nodup_setEntry (k : κ) (v : α)
    (h : (l.map Prod.fst).Nodup) : ((setEntry k v l).map Prod.fst).Nodup := by
  rw [keys_setEntry]
  split
  · exact h
  · next hk =>
    rw [nodup_append]
    refine ⟨h, by simp, ?_⟩
    intro a ha b hb hab
    rw [mem_singleton] at hb
    exact hk (hb ▸ hab ▸ ha)

theorem lookupEntry_setEntry (k k' : κ) (v : α) (l : List (κ × α)) :
    lookupEntry k' (setEntry k v l) = if k' = k then some v else lookupEntry k' l := by
  induction l with
  | nil => simp [setEntry, lookupEntry]
  | cons e rest ih =>
    obtain ⟨k₀, v₀⟩ := e
    by_cases hk : k = k₀
    · subst hk
      by_cases hk' : k' = k <;> simp [setEntry, lookupEntry, hk']
    · by_cases h₀ : k' = k₀
      · have hne : k₀ ≠ k := fun h => hk h.symm
        simp [setEntry, lookupEntry, hk, h₀, hne]
      · simp [setEntry, lookupEntry, hk, h₀, ih]

theorem lookupEntry_filter (p : κ → Bool) (k : κ) (l : List (κ × α)) :
    lookupEntry k (l.filter fun e => p e.1) = if p k then lookupEntry k l else none := by
  induction l with
  | nil => simp [lookupEntry]
  | cons e rest ih =>
    obtain ⟨k₀, v₀⟩ := e
    by_cases hp : p k₀
    · by_cases hk : k = k₀
      · subst hk; simp [lookupEntry, hp]
      · simp [lookupEntry, hp, hk, ih]
    · by_cases hk : k = k₀
      · subst hk
        simp only [Bool.not_eq_true] at hp
        simp [hp, ih]
      · simp [hp, lookupEntry, hk, ih]

theorem lookupEntry_eq_some_iff (h : (l.map Prod.fst).Nodup)
    (k : κ) (v : α) : lookupEntry k l = some v ↔ (k, v) ∈ l := by
  induction l with
  | nil => simp [lookupEntry]
  | cons e rest ih =>
    obtain ⟨k₀, v₀⟩ := e
    have hcons : k₀ ∉ rest.map Prod.fst ∧ (rest.map Prod.fst).Nodup := by
      simpa using h
    by_cases hk : k = k₀
    · subst hk
      have hnot : (k, v) ∉ rest := fun hm => hcons.1 (mem_map_of_mem (f := Prod.fst) hm)
      simp [lookupEntry, hnot, eq_comm]
    · simp [lookupEntry, hk, ih hcons.2]

theorem mem_of_lookupEntry (h : lookupEntry k l = some v) : (k, v) ∈ l := by
  induction l with
  | nil => cases h
  | cons e rest ih =>
    obtain ⟨k₀, v₀⟩ := e
    rw [lookupEntry] at h
    split at h
    · next hk => cases h; rw [hk]; exact mem_cons_self
    · exact mem_cons_of_mem _ (ih h)

theorem lookupEntry_eq_none_iff (k : κ) (l : List (κ × α)) :
    lookupEntry k l = none ↔ k ∉ l.map Prod.fst := by
  induction l with
  | nil => simp [lookupEntry]
  | cons e rest ih =>
    obtain ⟨k₀, v₀⟩ := e
    by_cases hk : k = k₀
    · simp [lookupEntry, hk]
    · simp only [lookupEntry, if_neg hk, ih, map_cons, mem_cons, not_or]
      exact ⟨fun h => ⟨hk, h⟩, fun h => h.2⟩

/-! ## Operations -/

/-- The map without entries. -/
def empty : OrderedMap κ α := ⟨[], by simp⟩

/-- The value stored under a key. -/
def get? (m : OrderedMap κ α) (k : κ) : Option α := lookupEntry k m.entries

/-- Whether a key is present. -/
def has (m : OrderedMap κ α) (k : κ) : Bool := (m.get? k).isSome

/-- The keys, oldest first. -/
def keys (m : OrderedMap κ α) : List κ := m.entries.map Prod.fst

def size (m : OrderedMap κ α) : Nat := m.entries.length

/-- Write `v` under `k`. -/
def set (m : OrderedMap κ α) (k : κ) (v : α) : OrderedMap κ α :=
  ⟨setEntry k v m.entries, nodup_setEntry k v m.nodup⟩

/-- Keep the entries that satisfy `p`. -/
def filter (m : OrderedMap κ α) (p : κ → α → Bool) : OrderedMap κ α :=
  ⟨m.entries.filter fun e => p e.1 e.2,
    m.nodup.sublist ((List.filter_sublist (p := fun e => p e.1 e.2)).map Prod.fst)⟩

/-- Remove the entry of `k`. -/
def delete (m : OrderedMap κ α) (k : κ) : OrderedMap κ α :=
  m.filter fun k' _ => k' ≠ k

/-- Change every value, keys and order staying. -/
def mapValues (m : OrderedMap κ α) (f : κ → α → β) : OrderedMap κ β :=
  ⟨m.entries.map fun e => (e.1, f e.1 e.2), by simpa [Function.comp_def] using m.nodup⟩

/-- Write all entries of a list, first to last. -/
def setAll (m : OrderedMap κ α) (l : List (κ × α)) : OrderedMap κ α :=
  l.foldl (fun acc e => acc.set e.1 e.2) m

/-- The map with the entries of a list, a later one overwriting an earlier. -/
def ofList (l : List (κ × α)) : OrderedMap κ α := empty.setAll l

/-- Leave out the keys that were inserted first. -/
def dropOldest (m : OrderedMap κ α) (n : Nat) : OrderedMap κ α :=
  ⟨m.entries.drop n, m.nodup.sublist ((List.drop_sublist n m.entries).map Prod.fst)⟩

/-! ## Reading back -/

omit [DecidableEq κ] in
theorem ext_entries {m' : OrderedMap κ α} (h : m.entries = m'.entries) : m = m' := by
  cases m; cases m'; cases h; rfl

@[simp] theorem get?_empty (k : κ) : (empty : OrderedMap κ α).get? k = none := rfl

theorem get?_set (m : OrderedMap κ α) (k k' : κ) (v : α) :
    (m.set k v).get? k' = if k' = k then some v else m.get? k' :=
  lookupEntry_setEntry k k' v m.entries

@[simp] theorem get?_set_self (m : OrderedMap κ α) (k : κ) (v : α) :
    (m.set k v).get? k = some v := by
  rw [get?_set, if_pos rfl]

variable {k' : κ} {P : κ × α → Prop}

@[simp] theorem get?_set_ne (m : OrderedMap κ α) (v : α) (h : k' ≠ k) :
    (m.set k v).get? k' = m.get? k' := by
  rw [get?_set, if_neg h]

theorem get?_delete (m : OrderedMap κ α) (k k' : κ) :
    (m.delete k).get? k' = if k' = k then none else m.get? k' := by
  have h := lookupEntry_filter (fun k₀ => decide (k₀ ≠ k)) k' m.entries
  by_cases hk : k' = k
  · simpa [delete, filter, get?, hk] using h
  · simpa [delete, filter, get?, hk] using h

@[simp] theorem get?_delete_self (m : OrderedMap κ α) (k : κ) : (m.delete k).get? k = none := by
  rw [get?_delete, if_pos rfl]

@[simp] theorem get?_delete_ne (m : OrderedMap κ α) (h : k' ≠ k) :
    (m.delete k).get? k' = m.get? k' := by
  rw [get?_delete, if_neg h]

theorem mem_entries_iff (m : OrderedMap κ α) (k : κ) (v : α) :
    (k, v) ∈ m.entries ↔ m.get? k = some v :=
  (lookupEntry_eq_some_iff m.nodup k v).symm

theorem mem_entries_set (m : OrderedMap κ α) (k : κ) (v : α) (e : κ × α) :
    e ∈ (m.set k v).entries ↔ e = (k, v) ∨ e.1 ≠ k ∧ e ∈ m.entries := by
  obtain ⟨k', v'⟩ := e
  rw [mem_entries_iff, get?_set, mem_entries_iff]
  by_cases hk : k' = k
  · subst hk
    simp [eq_comm]
  · simp [hk]

theorem forall_mem_set (hm : ∀ e ∈ m.entries, P e)
    (hv : P (k, v)) : ∀ e ∈ (m.set k v).entries, P e := by
  intro e he
  rcases (mem_entries_set m k v e).mp he with rfl | ⟨-, he⟩
  · exact hv
  · exact hm e he

theorem forall_mem_setAll (l : List (κ × α))
    (hm : ∀ e ∈ m.entries, P e) (hl : ∀ e ∈ l, P e) : ∀ e ∈ (m.setAll l).entries, P e := by
  induction l generalizing m with
  | nil => exact hm
  | cons e rest ih =>
    apply ih
    · exact forall_mem_set hm (hl e mem_cons_self)
    · exact fun e' he' => hl e' (mem_cons_of_mem _ he')

theorem get?_setAll (h : ∀ e ∈ l, e.1 = k → e.2 = v) (m : OrderedMap κ α) :
    (m.setAll l).get? k = if k ∈ l.map Prod.fst then some v else m.get? k := by
  induction l generalizing m with
  | nil => rfl
  | cons e rest ih =>
    have hrest := ih (fun e' he' => h e' (mem_cons_of_mem _ he')) (m.set e.1 e.2)
    show ((m.set e.1 e.2).setAll rest).get? k = _
    rw [hrest, get?_set, map_cons]
    by_cases hk : k = e.1
    · simp [hk, h e mem_cons_self hk.symm]
    · rw [if_neg hk]
      simp only [mem_cons, hk, false_or]

theorem get?_ofList (h : ∀ e ∈ l, e.1 = k → e.2 = v) :
    (ofList l).get? k = if k ∈ l.map Prod.fst then some v else none :=
  get?_setAll h empty

theorem entries_foldl_set {γ : Type} (f : γ → κ) (g : γ → α) (l : List γ) :
    ∀ m : OrderedMap κ α, (m.keys ++ l.map f).Nodup →
      (l.foldl (fun m e => m.set (f e) (g e)) m).entries =
        m.entries ++ l.map fun e => (f e, g e) := by
  induction l with
  | nil =>
    intro m _
    exact (append_nil _).symm
  | cons e rest ih =>
    intro m hnodup
    have hnew : f e ∉ m.entries.map Prod.fst := by
      intro hmem
      exact (nodup_append.mp hnodup).2.2 _ hmem _ mem_cons_self rfl
    have hset : (m.set (f e) (g e)).entries = m.entries ++ [(f e, g e)] :=
      setEntry_of_not_mem (g e) hnew
    have hkeys : (m.set (f e) (g e)).keys = m.keys ++ [f e] := by
      unfold keys
      rw [hset, map_append]
      rfl
    rw [foldl_cons, ih _ (by rw [hkeys, append_assoc]; exact hnodup), hset,
      append_assoc]
    rfl

theorem entries_ofList (h : (l.map Prod.fst).Nodup) : (ofList l).entries = l := by
  have hfold := entries_foldl_set Prod.fst Prod.snd l (empty : OrderedMap κ α) h
  rw [map_id'] at hfold
  exact hfold

theorem get?_setAll_of_not_mem (h : k ∉ l.map Prod.fst)
    (m : OrderedMap κ α) : (m.setAll l).get? k = m.get? k := by
  induction l generalizing m with
  | nil => rfl
  | cons e rest ih =>
    rw [map_cons, mem_cons, not_or] at h
    obtain ⟨hne, hrest⟩ := h
    show ((m.set e.1 e.2).setAll rest).get? k = _
    rw [ih hrest, get?_set_ne _ _ hne]

theorem entries_split (m : OrderedMap κ α) (h : m.get? k = some v) :
    ∃ before after, m.entries = before ++ (k, v) :: after ∧ (∀ e ∈ before, e.1 ≠ k) ∧
      ∀ e ∈ after, e.1 ≠ k := by
  obtain ⟨before, after, hsplit⟩ := append_of_mem ((mem_entries_iff m k v).mpr h)
  have hnodup := m.nodup
  rw [hsplit, map_append, map_cons, nodup_append] at hnodup
  refine ⟨before, after, hsplit, ?_, ?_⟩
  · intro e he hk
    exact hnodup.2.2 e.1 (mem_map_of_mem he) k mem_cons_self hk
  · intro e he hk
    have hmem : e.1 ∈ after.map Prod.fst := mem_map_of_mem he
    rw [hk] at hmem
    exact (nodup_cons.mp hnodup.2.1).1 hmem

theorem key_ne_of_get?_none (h : m.get? k = none) : ∀ e ∈ m.entries, e.1 ≠ k := by
  intro e he hk
  have hget := (mem_entries_iff m e.1 e.2).mp he
  rw [hk, h] at hget
  cases hget

theorem mem_keys_iff (m : OrderedMap κ α) (k : κ) : k ∈ m.keys ↔ m.has k = true := by
  have h := lookupEntry_eq_none_iff k m.entries
  unfold keys has get?
  cases hl : lookupEntry k m.entries with
  | none => simpa [hl] using h
  | some v =>
    have hne : ¬ lookupEntry k m.entries = none := by rw [hl]; simp
    simpa using fun hmem => hne (h.mpr hmem)

theorem get?_filter (m : OrderedMap κ α) (p : κ → α → Bool) (k : κ) :
    (m.filter p).get? k = (m.get? k).filter (p k) := by
  cases hf : (m.filter p).get? k with
  | some v =>
    have hmem := ((m.filter p).mem_entries_iff k v).mpr hf
    have hparts : (k, v) ∈ m.entries ∧ p k v = true := mem_filter.mp hmem
    rw [(m.mem_entries_iff k v).mp hparts.1]
    exact (Option.filter_some_pos hparts.2).symm
  | none =>
    cases hm : m.get? k with
    | none => rfl
    | some v =>
      by_cases hp : p k v = true
      · have hmem : (k, v) ∈ (m.filter p).entries :=
          mem_filter.mpr ⟨(m.mem_entries_iff k v).mpr hm, hp⟩
        rw [((m.filter p).mem_entries_iff k v).mp hmem] at hf
        cases hf
      · exact (Option.filter_some_neg (by simpa using hp)).symm

theorem get?_filter_eq_or (m : OrderedMap κ α) (p : κ → α → Bool) (k : κ) :
    (m.filter p).get? k = none ∨ (m.filter p).get? k = m.get? k := by
  rw [get?_filter]
  cases m.get? k with
  | none => exact .inl rfl
  | some v =>
    by_cases hp : p k v = true
    · exact .inr (Option.filter_some_pos hp)
    · exact .inl (Option.filter_some_neg (by simpa using hp))

theorem has_iff (m : OrderedMap κ α) (k : κ) : m.has k = true ↔ ∃ v, m.get? k = some v := by
  unfold has
  rw [Option.isSome_iff_exists]

omit [DecidableEq κ] in
theorem lookupEntry_map [DecidableEq κ] (f : κ → α → β) (k : κ) (l : List (κ × α)) :
    lookupEntry k (l.map fun e => (e.1, f e.1 e.2)) = (lookupEntry k l).map (f k) := by
  induction l with
  | nil => rfl
  | cons e rest ih =>
    obtain ⟨k₀, v₀⟩ := e
    simp only [map_cons, lookupEntry]
    by_cases hk : k = k₀
    · simp [hk]
    · simp [hk, ih]

theorem get?_mapValues (m : OrderedMap κ α) (f : κ → α → β) (k : κ) :
    (m.mapValues f).get? k = (m.get? k).map (f k) :=
  lookupEntry_map f k m.entries

theorem filter_filterMap_entries (m : OrderedMap κ α) {f : κ → α → Option β} {p : β → Bool}
    (h : ∀ k' v, ∀ b ∈ f k' v, p b = decide (k' = k)) :
    (m.entries.filterMap fun e => f e.1 e.2).filter p = ((m.get? k).bind (f k)).toList := by
  obtain ⟨entries, hnodup⟩ := m
  show (entries.filterMap fun e => f e.1 e.2).filter p = ((lookupEntry k entries).bind (f k)).toList
  induction entries with
  | nil => rfl
  | cons e rest ih =>
    obtain ⟨k₀, v₀⟩ := e
    have hcons : k₀ ∉ rest.map Prod.fst ∧ (rest.map Prod.fst).Nodup := by simpa using hnodup
    have hrest := ih hcons.2
    rw [lookupEntry, filterMap_cons]
    by_cases hk : k = k₀
    · -- no later entry has the key
      subst hk
      rw [(lookupEntry_eq_none_iff k rest).mpr hcons.1] at hrest
      rw [if_pos rfl, Option.bind_some]
      cases hf : f k v₀ with
      | none => exact hrest
      | some b =>
        have hb : p b = true := by rw [h k v₀ b hf]; exact decide_eq_true rfl
        simp only [filter_cons_of_pos hb, hrest]
        rfl
    · rw [if_neg hk]
      cases hf : f k₀ v₀ with
      | none => exact hrest
      | some b =>
        have hb : p b = false := by
          rw [h k₀ v₀ b hf]
          exact decide_eq_false fun heq => hk heq.symm
        simp only [filter_cons_of_neg (by simp [hb] : ¬ p b = true)]
        exact hrest

theorem get?_foldl_entries {step : OrderedMap κ α → κ × β → OrderedMap κ α}
    {f : κ → β → Option α → Option α}
    (hstep : ∀ acc e k, (step acc e).get? k =
      if k = e.1 then f e.1 e.2 (acc.get? e.1) else acc.get? k)
    (m : OrderedMap κ α) (delta : OrderedMap κ β) (k : κ) :
    (delta.entries.foldl step m).get? k =
      ((delta.get? k).map fun b => f k b (m.get? k)).getD (m.get? k) := by
  obtain ⟨entries, hnodup⟩ := delta
  show (entries.foldl step m).get? k =
    ((lookupEntry k entries).map fun b => f k b (m.get? k)).getD (m.get? k)
  induction entries generalizing m with
  | nil => rfl
  | cons e rest ih =>
    obtain ⟨k₀, b₀⟩ := e
    have hcons : k₀ ∉ rest.map Prod.fst ∧ (rest.map Prod.fst).Nodup := by simpa using hnodup
    rw [foldl_cons, ih _ hcons.2, lookupEntry, hstep]
    by_cases hk : k = k₀
    · subst hk
      rw [(lookupEntry_eq_none_iff k rest).mpr hcons.1]
      simp
    · simp [hk]

/-! ## Sizes -/

omit [DecidableEq κ] in
theorem length_keys (m : OrderedMap κ α) : m.keys.length = m.size := by
  unfold keys size
  rw [length_map]

theorem size_set_le (m : OrderedMap κ α) (k : κ) (v : α) : (m.set k v).size ≤ m.size + 1 := by
  have hkeys : (m.set k v).keys = if k ∈ m.keys then m.keys else m.keys ++ [k] :=
    keys_setEntry k v m.entries
  rw [← length_keys, ← length_keys, hkeys]
  split
  · omega
  · simp

theorem size_delete_lt (m : OrderedMap κ α) (h : m.get? k = some v) :
    (m.delete k).size < m.size := by
  have hmem := (m.mem_entries_iff k v).mpr h
  refine length_filter_lt_length_iff_exists.mpr ⟨(k, v), hmem, ?_⟩
  simp

theorem size_set_of_has (m : OrderedMap κ α) (v : α) (h : m.has k = true) :
    (m.set k v).size = m.size := by
  have hkeys : (m.set k v).keys = if k ∈ m.keys then m.keys else m.keys ++ [k] :=
    keys_setEntry k v m.entries
  rw [← length_keys, ← length_keys, hkeys, if_pos ((m.mem_keys_iff k).mpr h)]

theorem size_delete_le (m : OrderedMap κ α) (k : κ) : (m.delete k).size ≤ m.size :=
  length_filter_le _ _

theorem get?_of_size_eq_zero (h : m.size = 0) (k : κ) : m.get? k = none := by
  have hnil : m.entries = [] := eq_nil_of_length_eq_zero h
  unfold get?
  rw [hnil]
  rfl

theorem size_eq_zero_iff (m : OrderedMap κ α) : m.size = 0 ↔ ∀ k, m.get? k = none := by
  constructor
  · exact fun h k => get?_of_size_eq_zero h k
  · intro h
    cases hentries : m.entries with
    | nil => simp [size, hentries]
    | cons e rest =>
      have hmem : (e.1, e.2) ∈ m.entries := by
        rw [hentries]
        exact mem_cons_self
      have hget := (m.mem_entries_iff e.1 e.2).mp hmem
      rw [h e.1] at hget
      cases hget

end OrderedMap
