import Cohub.Lib.LastWrite
import Cohub.Sandbox.FileWatch

/-! # Differences of two snapshots

    The scanner compares two snapshots of the workspace.  Both are maps that a
    loop visits in any order; the order of an `OrderedMap` stands for it.  The
    events are one resync, or one event for each path whose entry differs. -/

namespace Cohub.Sandbox

open List OrderedMap

structure ScannerEntry where
  nodeType : String
  size     : Int
  mtimeNs  : Int
  mode     : Nat
deriving DecidableEq

/-- A change that the scanner has found; it has no metadata but the type. -/
structure ScannerChange (Path : Type) where
  path     : Path
  kind     : ChangeKind
  nodeType : String
deriving DecidableEq

inductive BackendEvent (Path : Type) where
  | resync
  | change (change : ScannerChange Path)
deriving DecidableEq

/-- What the loop does at one entry. -/
inductive Found (Path : Type) where
  | same
  | change (change : ScannerChange Path)
  | retyped

variable {Path : Type}

def Found.change? : Found Path → Option (ScannerChange Path)
  | .change found => some found
  | _ => none

@[simp] theorem Found.change?_same : (same : Found Path).change? = none := rfl

@[simp] theorem Found.change?_retyped : (retyped : Found Path).change? = none := rfl

@[simp] theorem Found.change?_change (found : ScannerChange Path) :
    (Found.change found).change? = some found := rfl

/-- A loop over the entries; `none` where it returns the resync. -/
def collect (found : Path × ScannerEntry → Found Path) :
    List (Path × ScannerEntry) → List (ScannerChange Path) → Option (List (ScannerChange Path))
  | [], changes => some changes
  | entry :: rest, changes =>
      match found entry with
      | .same => collect found rest changes
      | .retyped => none
      | .change change =>
          if changes.length = maxBatchSize then none
          else collect found rest (changes ++ [change])

section
variable [LinearOrder Path]

/-- An entry of the earlier snapshot. -/
def foundOld (next : OrderedMap Path ScannerEntry) (entry : Path × ScannerEntry) : Found Path :=
  match next.get? entry.1 with
  | some _ => .same
  | none => .change { path := entry.1, kind := .delete, nodeType := entry.2.nodeType }

/-- An entry of the later snapshot. -/
def foundNew (previous : OrderedMap Path ScannerEntry) (entry : Path × ScannerEntry) : Found Path :=
  match previous.get? entry.1 with
  | none => .change { path := entry.1, kind := .create, nodeType := entry.2.nodeType }
  | some oldEntry =>
      if oldEntry ≠ entry.2 then
        if oldEntry.nodeType ≠ entry.2.nodeType then .retyped
        else .change { path := entry.1, kind := .modify, nodeType := entry.2.nodeType }
      else .same

def diffSnapshots (previous next : OrderedMap Path ScannerEntry) : List (BackendEvent Path) :=
  match (collect (foundOld next) previous.entries []).bind
      (collect (foundNew previous) next.entries) with
  | none => [.resync]
  | some changes => (changes.mergeSort fun a b => a.path ≤ b.path).map .change

/-- A change of the scanner applied to a snapshot; what is there has the
    metadata of the later snapshot. -/
def applyFound (next snapshot : OrderedMap Path ScannerEntry) (change : ScannerChange Path) :
    OrderedMap Path ScannerEntry :=
  match change.kind, next.get? change.path with
  | .create, some entry => snapshot.set change.path entry
  | .modify, some entry => snapshot.set change.path entry
  | _, _ => snapshot.delete change.path

/-! ## The loops -/

variable {found : Path × ScannerEntry → Found Path} {previous next : OrderedMap Path ScannerEntry}

omit [LinearOrder Path] in
theorem collect_eq_some (entries : List (Path × ScannerEntry)) :
    ∀ {changes result : List (ScannerChange Path)}, changes.length ≤ maxBatchSize →
      (collect found entries changes = some result ↔
        (∀ entry ∈ entries, found entry ≠ .retyped) ∧
          result = changes ++ entries.filterMap (fun entry => (found entry).change?) ∧
          result.length ≤ maxBatchSize) := by
  induction entries with
  | nil =>
    intro changes result hlength
    simp only [collect, filterMap_nil, append_nil, Option.some.injEq]
    constructor
    · rintro rfl
      exact ⟨nofun, rfl, hlength⟩
    · exact fun h => h.2.1.symm
  | cons entry rest ih =>
    intro changes result hlength
    unfold collect
    rw [forall_mem_cons, filterMap_cons]
    cases hfound : found entry with
    | same =>
      rw [Found.change?_same]
      dsimp only
      rw [ih hlength]
      simp
    | retyped => simp
    | change change =>
      rw [Found.change?_change]
      dsimp only
      by_cases hfull : changes.length = maxBatchSize
      · -- there is one change too many
        rw [if_pos hfull]
        refine ⟨nofun, fun ⟨_, hresult, hle⟩ => ?_⟩
        rw [hresult, length_append, length_cons] at hle
        omega
      · rw [if_neg hfull, ih (by rw [length_append, length_singleton]; omega)]
        simp

omit [LinearOrder Path] in
theorem paths_sublist (hpath : ∀ entry change, found entry = .change change → change.path = entry.1)
    (entries : List (Path × ScannerEntry)) :
    ((entries.filterMap fun entry => (found entry).change?).map ScannerChange.path).Sublist
      (entries.map Prod.fst) := by
  induction entries with
  | nil => exact List.Sublist.refl _
  | cons entry rest ih =>
    rw [filterMap_cons, map_cons]
    cases hfound : found entry with
    | same => exact ih.cons _
    | retyped => exact ih.cons _
    | change change =>
      rw [Found.change?_change]
      simp only [map_cons]
      rw [hpath entry change hfound]
      exact ih.cons_cons _

theorem foundOld_path (next : OrderedMap Path ScannerEntry) (entry : Path × ScannerEntry)
    (change : ScannerChange Path) (h : foundOld next entry = .change change) :
    change.path = entry.1 := by
  unfold foundOld at h
  split at h
  · cases h
  · cases h
    rfl

theorem foundNew_path (previous : OrderedMap Path ScannerEntry) (entry : Path × ScannerEntry)
    (change : ScannerChange Path) (h : foundNew previous entry = .change change) :
    change.path = entry.1 := by
  unfold foundNew at h
  split at h
  · cases h
    rfl
  · split_ifs at h
    cases h
    rfl

/-! ## What the difference is -/

/-- The changes that the loops find, before they are sorted. -/
def differences (previous next : OrderedMap Path ScannerEntry) : List (ScannerChange Path) :=
  previous.entries.filterMap (fun entry => (foundOld next entry).change?) ++
    next.entries.filterMap fun entry => (foundNew previous entry).change?

/-- A path is in both snapshots, with another type. -/
def Retyped (previous next : OrderedMap Path ScannerEntry) : Prop :=
  ∃ path oldEntry nextEntry, previous.get? path = some oldEntry ∧ next.get? path = some nextEntry ∧
    oldEntry.nodeType ≠ nextEntry.nodeType

theorem not_retyped_iff (previous next : OrderedMap Path ScannerEntry) :
    (∀ entry ∈ next.entries, foundNew previous entry ≠ .retyped) ↔ ¬ Retyped previous next := by
  have hentry : ∀ path nextEntry, foundNew previous (path, nextEntry) = .retyped ↔
      ∃ oldEntry, previous.get? path = some oldEntry ∧ oldEntry.nodeType ≠ nextEntry.nodeType := by
    intro path nextEntry
    unfold foundNew
    dsimp only
    cases hget : previous.get? path with
    | none => simp
    | some oldEntry =>
      dsimp only
      by_cases htype : oldEntry.nodeType = nextEntry.nodeType
      · split_ifs <;> simp_all
      · have hne : oldEntry ≠ nextEntry := fun heq => htype (congrArg _ heq)
        rw [if_pos hne, if_pos htype]
        simp [htype]
  constructor
  · rintro h ⟨path, oldEntry, nextEntry, hold, hnew, htype⟩
    exact h _ ((mem_entries_iff next _ _).mpr hnew)
      ((hentry path nextEntry).mpr ⟨oldEntry, hold, htype⟩)
  · rintro h ⟨path, nextEntry⟩ hmem hretyped
    obtain ⟨oldEntry, hold, htype⟩ := (hentry path nextEntry).mp hretyped
    exact h ⟨path, oldEntry, nextEntry, hold, (mem_entries_iff next _ _).mp hmem, htype⟩

theorem foundOld_ne_retyped (next : OrderedMap Path ScannerEntry) (entry : Path × ScannerEntry) :
    foundOld next entry ≠ .retyped := by
  unfold foundOld
  split <;> exact nofun

theorem diffSnapshots_eq (previous next : OrderedMap Path ScannerEntry) [Decidable (Retyped previous next)] :
    diffSnapshots previous next =
      if Retyped previous next ∨ maxBatchSize < (differences previous next).length then [.resync]
      else ((differences previous next).mergeSort fun a b => a.path ≤ b.path).map .change := by
  have hnil : ([] : List (ScannerChange Path)).length ≤ maxBatchSize := Nat.zero_le _
  have hsome : ∀ result, (collect (foundOld next) previous.entries []).bind
      (collect (foundNew previous) next.entries) = some result ↔
        ¬ Retyped previous next ∧ result = differences previous next ∧
          result.length ≤ maxBatchSize := by
    intro result
    rw [Option.bind_eq_some_iff]
    constructor
    · rintro ⟨changes, hold, hnew⟩
      obtain ⟨-, rfl, hlength⟩ := (collect_eq_some _ hnil).mp hold
      obtain ⟨hsame, rfl, hlength'⟩ := (collect_eq_some _ hlength).mp hnew
      exact ⟨(not_retyped_iff previous next).mp hsame, rfl, hlength'⟩
    · rintro ⟨hsame, rfl, hlength⟩
      have hlength' : (previous.entries.filterMap
          fun entry => (foundOld next entry).change?).length ≤ maxBatchSize := by
        unfold differences at hlength
        rw [length_append] at hlength
        omega
      refine ⟨_, (collect_eq_some _ hnil).mpr
        ⟨fun entry _ => foundOld_ne_retyped next entry, rfl, hlength'⟩, ?_⟩
      exact (collect_eq_some _ hlength').mpr
        ⟨(not_retyped_iff previous next).mpr hsame, rfl, hlength⟩
  unfold diffSnapshots
  cases hcollect : (collect (foundOld next) previous.entries []).bind
      (collect (foundNew previous) next.entries) with
  | none =>
    rw [if_pos]
    by_contra hnot
    rw [not_or, not_lt] at hnot
    have hresult := (hsome _).mpr ⟨hnot.1, rfl, hnot.2⟩
    rw [hcollect] at hresult
    cases hresult
  | some result =>
    obtain ⟨hsame, rfl, hlength⟩ := (hsome result).mp hcollect
    rw [if_neg (not_or.mpr ⟨hsame, Nat.not_lt.mpr hlength⟩)]

/-- The change that a path has between the snapshots. -/
def Differs (previous next : OrderedMap Path ScannerEntry) (change : ScannerChange Path) : Prop :=
  match previous.get? change.path, next.get? change.path with
  | some oldEntry, none => change.kind = .delete ∧ change.nodeType = oldEntry.nodeType
  | none, some entry => change.kind = .create ∧ change.nodeType = entry.nodeType
  | some oldEntry, some entry => oldEntry ≠ entry ∧ oldEntry.nodeType = entry.nodeType ∧
      change.kind = .modify ∧ change.nodeType = entry.nodeType
  | none, none => False

theorem mem_differences (previous next : OrderedMap Path ScannerEntry)
    (change : ScannerChange Path) :
    change ∈ differences previous next ↔ Differs previous next change := by
  obtain ⟨path, kind, nodeType⟩ := change
  have hold : ∀ entry, foundOld next entry = .change ⟨path, kind, nodeType⟩ ↔
      entry.1 = path ∧ next.get? path = none ∧ kind = .delete ∧ nodeType = entry.2.nodeType := by
    rintro ⟨key, entry⟩
    unfold foundOld
    dsimp only
    cases hget : next.get? key <;> simp <;> grind
  have hnew : ∀ entry, foundNew previous entry = .change ⟨path, kind, nodeType⟩ ↔
      entry.1 = path ∧ nodeType = entry.2.nodeType ∧
        ((previous.get? path = none ∧ kind = .create) ∨
          ∃ oldEntry, previous.get? path = some oldEntry ∧ oldEntry ≠ entry.2 ∧
            oldEntry.nodeType = entry.2.nodeType ∧ kind = .modify) := by
    rintro ⟨key, entry⟩
    unfold foundNew
    dsimp only
    cases hget : previous.get? key with
    | none => simp; grind
    | some oldEntry => dsimp only; split_ifs <;> simp <;> grind
  have hchange : ∀ found : Found Path, ∀ c, found.change? = some c ↔ found = .change c := by
    intro found c
    cases found <;> simp
  unfold differences Differs
  rw [mem_append, mem_filterMap, mem_filterMap]
  simp only [hchange, hold, hnew, Prod.exists, mem_entries_iff]
  cases hp : previous.get? path <;> cases hn : next.get? path <;> grind

theorem differences_paths (previous next : OrderedMap Path ScannerEntry) :
    ((differences previous next).map ScannerChange.path).Nodup := by
  unfold differences
  rw [map_append, nodup_append]
  refine ⟨(paths_sublist (foundOld_path next) _).nodup previous.nodup,
    (paths_sublist (foundNew_path previous) _).nodup next.nodup, ?_⟩
  rintro a ha b hb rfl
  -- a path of the first loop is not in the later snapshot, one of the second is
  obtain ⟨change, hchange, rfl⟩ := mem_map.mp ha
  obtain ⟨entry, -, hfound⟩ := mem_filterMap.mp hchange
  have hin := (paths_sublist (foundNew_path previous) _).subset hb
  obtain ⟨⟨key, nextEntry⟩, hmem, hkey⟩ := mem_map.mp hin
  rw [mem_entries_iff] at hmem
  unfold foundOld at hfound
  cases hget : next.get? entry.1 with
  | some _ =>
    rw [hget] at hfound
    cases hfound
  | none =>
    rw [hget] at hfound
    rw [← Option.some.inj hfound] at hkey
    rw [show key = entry.1 from hkey, hget] at hmem
    cases hmem

theorem sorted_differences (previous next : OrderedMap Path ScannerEntry) :
    ((differences previous next).mergeSort fun a b => a.path ≤ b.path).Pairwise
      fun a b => a.path < b.path := by
  have hsorted := @List.pairwise_mergeSort _
    (fun a b : ScannerChange Path => decide (a.path ≤ b.path))
    (fun a b c hab hbc => decide_eq_true ((of_decide_eq_true hab).trans (of_decide_eq_true hbc)))
    (fun a b => by simpa using le_total a.path b.path) (differences previous next)
  have hdistinct : (((differences previous next).mergeSort fun a b => a.path ≤ b.path).map
      ScannerChange.path).Nodup :=
    ((mergeSort_perm _ _).map _).nodup_iff.mpr (differences_paths previous next)
  rw [List.Nodup, pairwise_map] at hdistinct
  refine (hsorted.and hdistinct).imp fun h => ?_
  exact lt_of_le_of_ne (of_decide_eq_true h.1) h.2

theorem get?_applyFound (next snapshot : OrderedMap Path ScannerEntry) (path : Path)
    (change : ScannerChange Path) :
    (applyFound next snapshot change).get? path =
      (if change.path = path then
        some (if change.kind = .delete then none else next.get? path) else none).getD
        (snapshot.get? path) := by
  unfold applyFound
  by_cases hpath : change.path = path
  · subst hpath
    cases change.kind <;> cases next.get? change.path <;> simp
  · have hne : path ≠ change.path := fun heq => hpath heq.symm
    cases change.kind <;> cases next.get? change.path <;> simp [hpath, hne]

theorem applyFound_differences
    (hsame : ¬ Retyped previous next) {changes : List (ScannerChange Path)}
    (hchanges : ∀ change, change ∈ changes ↔ Differs previous next change)
    (hdistinct : changes.Pairwise fun a b => a.path < b.path) (path : Path) :
    (changes.foldl (applyFound next) previous).get? path = next.get? path := by
  have hread := @LastWrite.read_foldl _ _ _ (fun change : ScannerChange Path =>
      if change.path = path then some (if change.kind = .delete then none else next.get? path)
      else none)
    (applyFound next) (fun s => s.get? path) (fun s change => get?_applyFound next s path change)
    changes previous
  rw [hread]
  by_cases hany : ∃ change ∈ changes, change.path = path
  · obtain ⟨change, hmem, rfl⟩ := hany
    have honly : ∀ other ∈ changes, other ≠ change → ¬ other.path = change.path := by
      intro other hother hne heq
      have hnodup : (changes.map ScannerChange.path).Nodup :=
        pairwise_map.mpr (hdistinct.imp fun hlt => hlt.ne)
      exact hne (inj_on_of_nodup_map hnodup hother hmem heq)
    rw [LastWrite.last_unique _ hmem fun other hother hne => if_neg (honly other hother hne),
      if_pos rfl, Option.getD_some]
    have hdiffers := (hchanges change).mp hmem
    unfold Differs at hdiffers
    split_ifs with hkind
    · cases hnext : next.get? change.path with
      | none => rfl
      | some entry =>
        cases hprevious : previous.get? change.path <;> simp_all
    · rfl
  · rw [LastWrite.last_eq_none _ fun change hmem => if_neg fun hpath => hany ⟨change, hmem, hpath⟩,
      Option.getD_none]
    have hno : ∀ kind nodeType, ¬ Differs previous next ⟨path, kind, nodeType⟩ :=
      fun kind nodeType h => hany ⟨_, (hchanges _).mpr h, rfl⟩
    unfold Differs at hno
    cases hprevious : previous.get? path with
    | none =>
      cases hnext : next.get? path with
      | none => rfl
      | some entry => exact absurd (by simp [hprevious, hnext]) (hno .create entry.nodeType)
    | some oldEntry =>
      cases hnext : next.get? path with
      | none => exact absurd (by simp [hprevious, hnext]) (hno .delete oldEntry.nodeType)
      | some entry =>
        by_contra hne
        have hentry : oldEntry ≠ entry := fun heq => hne (congrArg some heq)
        have htype : oldEntry.nodeType = entry.nodeType := by
          by_contra htype
          exact hsame ⟨path, oldEntry, entry, hprevious, hnext, htype⟩
        exact hno .modify entry.nodeType (by simp [hprevious, hnext, hentry, htype])

theorem diffSnapshots_spec (previous next : OrderedMap Path ScannerEntry) :
    diffSnapshots previous next = [.resync] ∨
      ∃ changes : List (ScannerChange Path), diffSnapshots previous next = changes.map .change ∧
        (changes.Pairwise fun a b => a.path < b.path) ∧
        (∀ change, change ∈ changes ↔ Differs previous next change) ∧
        ∀ path, (changes.foldl (applyFound next) previous).get? path = next.get? path := by
  classical
  rw [diffSnapshots_eq]
  by_cases hresync : Retyped previous next ∨ maxBatchSize < (differences previous next).length
  · exact .inl (if_pos hresync)
  · rw [if_neg hresync]
    have hmem : ∀ change, change ∈ (differences previous next).mergeSort (fun a b => a.path ≤ b.path) ↔
        Differs previous next change := by
      intro change
      rw [(mergeSort_perm _ _).mem_iff]
      exact mem_differences previous next change
    have hsorted := sorted_differences previous next
    exact .inr ⟨_, rfl, hsorted, hmem,
      applyFound_differences (fun h => hresync (.inl h)) hmem hsorted⟩

theorem entries_perm {m m' : OrderedMap Path ScannerEntry} (h : ∀ path, m.get? path = m'.get? path) :
    m.entries.Perm m'.entries := by
  rw [perm_ext_iff_of_nodup (List.Nodup.of_map _ m.nodup) (List.Nodup.of_map _ m'.nodup)]
  rintro ⟨path, entry⟩
  rw [mem_entries_iff, mem_entries_iff, h]

theorem diffSnapshots_order {previous' next' : OrderedMap Path ScannerEntry}
    (hprevious : ∀ path, previous.get? path = previous'.get? path)
    (hnext : ∀ path, next.get? path = next'.get? path) :
    diffSnapshots previous next = diffSnapshots previous' next' := by
  classical
  have hold : foundOld next = foundOld next' := by
    funext entry
    unfold foundOld
    rw [hnext]
  have hnew : foundNew previous = foundNew previous' := by
    funext entry
    unfold foundNew
    rw [hprevious]
  have hretyped : Retyped previous next ↔ Retyped previous' next' := by
    unfold Retyped
    simp only [hprevious, hnext]
  have hperm : (differences previous next).Perm (differences previous' next') := by
    unfold differences
    rw [hold, hnew]
    exact ((entries_perm hprevious).filterMap _).append ((entries_perm hnext).filterMap _)
  have hsorted : (differences previous next).mergeSort (fun a b => a.path ≤ b.path) =
      (differences previous' next').mergeSort fun a b => a.path ≤ b.path := by
    refine @List.Perm.eq_of_pairwise _ (fun a b => a.path < b.path) _ _
      (fun a b _ _ hab hba => absurd hab hba.asymm) (sorted_differences _ _)
      (sorted_differences _ _) ?_
    exact (mergeSort_perm _ _).trans (hperm.trans (mergeSort_perm _ _).symm)
  rw [diffSnapshots_eq, diffSnapshots_eq, hperm.length_eq, hsorted]
  simp only [hretyped]

end

end Cohub.Sandbox
