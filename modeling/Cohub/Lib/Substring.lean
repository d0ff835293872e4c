import Mathlib.Data.List.Basic
import Mathlib.Data.List.Pairwise
import Mathlib.Data.List.Perm.Basic
import Mathlib.Data.List.Sort

/-! # Occurrences of a pattern, and replacing parts of a text

    Where a pattern occurs in a text: the first place (`find?`), the places that
    a search from left to right finds, each after the end of the one before
    (`scan`), and when an occurrence overlaps another (`occursAt_add`).  Then
    the text with some parts replaced: what `splice` builds from left to right
    is what replacing the last part first gives. -/

namespace Substring

open List Option

variable {α : Type}

/-! ## Occurrences -/

/-- The pattern occurs in the text at a position. -/
def OccursAt (pattern text : List α) (p : Nat) : Prop := pattern <+: text.drop p

variable {pattern text : List α} {p : Nat}

theorem occursAt_length (h : OccursAt pattern text p)
    (hne : pattern ≠ []) : p + pattern.length ≤ text.length := by
  have hle := h.length_le
  rw [length_drop] at hle
  have hpos := length_pos_iff.mpr hne
  omega

theorem occursAt_drop {lo : Nat} :
    OccursAt pattern (text.drop lo) p ↔ OccursAt pattern text (lo + p) := by
  unfold OccursAt
  rw [drop_drop]

theorem occursAt_iff_take :
    OccursAt pattern text p ↔ (text.drop p).take pattern.length = pattern := by
  unfold OccursAt
  rw [prefix_iff_eq_take, eq_comm]

theorem occursAt_add {d : Nat} (h : OccursAt pattern text p) (hd : d ≤ pattern.length) :
    OccursAt pattern text (p + d) ↔
      pattern.drop d = pattern.take (pattern.length - d) ∧
        pattern.drop (pattern.length - d) <+: text.drop (p + pattern.length) := by
  obtain ⟨rest, hrest⟩ := h
  have hafter : text.drop (p + pattern.length) = rest := by
    rw [← drop_drop, ← hrest, drop_left]
  have hshift : text.drop (p + d) = pattern.drop d ++ rest := by
    rw [← drop_drop, ← hrest, drop_append_of_le_length hd]
  unfold OccursAt
  rw [hafter, hshift]
  have hlength : (pattern.drop d).length = (pattern.take (pattern.length - d)).length := by
    rw [length_drop, length_take]
    omega
  constructor
  · rintro ⟨tail, htail⟩
    have hsplit : pattern.take (pattern.length - d) ++ (pattern.drop (pattern.length - d) ++ tail) =
        pattern.drop d ++ rest := by
      rw [← append_assoc, take_append_drop]
      exact htail
    have hparts := append_inj hsplit hlength.symm
    exact ⟨hparts.1.symm, tail, hparts.2⟩
  · rintro ⟨hperiod, tail, htail⟩
    refine ⟨tail, ?_⟩
    rw [hperiod, ← htail, ← append_assoc, take_append_drop]

section

variable [DecidableEq α]

instance (pattern text : List α) (p : Nat) : Decidable (OccursAt pattern text p) :=
  inferInstanceAs (Decidable (pattern <+: text.drop p))

/-- The first place where the pattern occurs. -/
def find? (pattern : List α) : List α → Option Nat
  | [] => if pattern = [] then some 0 else none
  | a :: rest => if pattern <+: a :: rest then some 0 else (find? pattern rest).map (· + 1)

variable {pattern text : List α} {p : Nat}

theorem find?_some (h : find? pattern text = some p) :
    OccursAt pattern text p ∧ ∀ q < p, ¬ OccursAt pattern text q := by
  induction text generalizing p with
  | nil =>
    unfold find? at h
    split at h
    · next hnil =>
      cases h
      exact ⟨by rw [hnil]; exact List.nil_prefix, fun q hq => absurd hq (Nat.not_lt_zero q)⟩
    · cases h
  | cons a rest ih =>
    unfold find? at h
    split at h
    · next hfirst =>
      cases h
      exact ⟨hfirst, fun q hq => absurd hq (Nat.not_lt_zero q)⟩
    · next hfirst =>
      obtain ⟨p', hp', rfl⟩ := map_eq_some_iff.mp h
      obtain ⟨hoccurs, hbefore⟩ := ih hp'
      refine ⟨hoccurs, ?_⟩
      intro q hq
      match q with
      | 0 => exact hfirst
      | q + 1 => exact hbefore q (by omega)

theorem find?_none (h : find? pattern text = none) (p : Nat) : ¬ OccursAt pattern text p := by
  induction text generalizing p with
  | nil =>
    unfold find? at h
    split at h
    · cases h
    · next hne =>
      unfold OccursAt
      rw [drop_nil, prefix_nil]
      exact hne
  | cons a rest ih =>
    unfold find? at h
    split at h
    · cases h
    · next hfirst =>
      rw [map_eq_none_iff] at h
      match p with
      | 0 => exact hfirst
      | p + 1 => exact ih h p

/-- The places where the pattern is found from left to right, each after the
    end of the one before: `skip` elements are passed over first. -/
def scanFrom (pattern : List α) : Nat → Nat → List α → List Nat
  | _, _, [] => []
  | 0, p, a :: rest =>
      if pattern <+: a :: rest then p :: scanFrom pattern (pattern.length - 1) (p + 1) rest
      else scanFrom pattern 0 (p + 1) rest
  | skip + 1, p, _ :: rest => scanFrom pattern skip (p + 1) rest

def scan (pattern text : List α) : List Nat := scanFrom pattern 0 0 text

theorem scanFrom_skip (pattern : List α) (skip p : Nat) (text : List α) :
    scanFrom pattern skip p text = scanFrom pattern 0 (p + skip) (text.drop skip) := by
  induction skip generalizing p text with
  | zero => rfl
  | succ skip ih =>
    cases text with
    | nil => rfl
    | cons a rest =>
      have hshift : p + (skip + 1) = p + 1 + skip := by omega
      rw [scanFrom, ih, drop_succ_cons, hshift]

theorem scanFrom_find? (hne : pattern ≠ []) (p : Nat) (text : List α) :
    scanFrom pattern 0 p text =
      (find? pattern text).elim [] fun i =>
        (p + i) :: scanFrom pattern 0 (p + i + pattern.length) (text.drop (i + pattern.length)) := by
  have hpos := length_pos_iff.mpr hne
  induction text generalizing p with
  | nil =>
    unfold find?
    rw [if_neg hne]
    rfl
  | cons a rest ih =>
    rw [scanFrom, find?]
    split
    · rw [scanFrom_skip]
      simp only [elim_some, Nat.add_zero, Nat.zero_add]
      obtain ⟨n, hn⟩ : ∃ n, pattern.length = n + 1 := ⟨pattern.length - 1, by omega⟩
      have hshift : p + 1 + n = p + (n + 1) := by omega
      rw [hn, drop_succ_cons, Nat.add_sub_cancel, hshift]
    · rw [ih]
      cases find? pattern rest with
      | none => rfl
      | some i =>
        simp only [map_some, elim_some]
        have hdrop : i + 1 + pattern.length = (i + pattern.length) + 1 := by omega
        have hplace : p + 1 + i = p + (i + 1) := by omega
        rw [hdrop, drop_succ_cons, hplace]

theorem scanFrom_eq_nil (hne : pattern ≠ []) :
    scanFrom pattern 0 p text = [] ↔ ∀ q, ¬ OccursAt pattern text q := by
  rw [scanFrom_find? hne]
  cases h : find? pattern text with
  | none =>
    constructor
    · intro _
      exact find?_none h
    · intro _
      rfl
  | some i =>
    constructor
    · intro hnil
      cases hnil
    · intro hnone
      exact absurd (find?_some h).1 (hnone i)

variable {q : Nat}

theorem occursAt_of_mem_scanFrom {skip : Nat}
    (h : q ∈ scanFrom pattern skip p text) : p ≤ q ∧ OccursAt pattern text (q - p) := by
  induction text generalizing skip p with
  | nil =>
    rw [scanFrom] at h
    exact absurd h not_mem_nil
  | cons a rest ih =>
    have hlater : ∀ {skip}, q ∈ scanFrom pattern skip (p + 1) rest →
        p ≤ q ∧ OccursAt pattern (a :: rest) (q - p) := by
      intro skip hq
      obtain ⟨hle, hoccurs⟩ := ih hq
      have hsub : q - p = (q - (p + 1)) + 1 := by omega
      rw [hsub]
      exact ⟨by omega, hoccurs⟩
    match skip with
    | 0 =>
      unfold scanFrom at h
      split at h
      · next hfirst =>
        rcases mem_cons.mp h with rfl | h
        · refine ⟨le_rfl, ?_⟩
          rw [Nat.sub_self]
          exact hfirst
        · exact hlater h
      · exact hlater h
    | skip + 1 =>
      unfold scanFrom at h
      exact hlater h

theorem occursAt_of_mem_scan (h : q ∈ scan pattern text) : OccursAt pattern text q := by
  have hoccurs := (occursAt_of_mem_scanFrom h).2
  rwa [Nat.sub_zero] at hoccurs

theorem scan_eq_nil (hne : pattern ≠ []) :
    scan pattern text = [] ↔ ∀ q, ¬ OccursAt pattern text q := scanFrom_eq_nil hne

theorem scan_eq_singleton (hne : pattern ≠ []) (h : scan pattern text = [p]) :
    OccursAt pattern text p ∧ ∀ q, OccursAt pattern text q → p ≤ q ∧ q < p + pattern.length := by
  unfold scan at h
  rw [scanFrom_find? hne] at h
  cases hfind : find? pattern text with
  | none =>
    rw [hfind] at h
    cases h
  | some i =>
    rw [hfind, elim_some] at h
    injection h with hi hrest
    rw [Nat.zero_add] at hi
    subst hi
    obtain ⟨hoccurs, hbefore⟩ := find?_some hfind
    refine ⟨hoccurs, ?_⟩
    intro q hq
    refine ⟨Nat.le_of_not_lt fun hlt => hbefore q hlt hq, ?_⟩
    by_contra hpast
    have hlater := (scanFrom_eq_nil hne).mp hrest (q - (i + pattern.length))
    rw [occursAt_drop] at hlater
    apply hlater
    have hsum : i + pattern.length + (q - (i + pattern.length)) = q := by omega
    rwa [hsum]

end

/-! ## Replacing parts of a text -/

/-- A part of a text and what stands in its place. -/
structure Replacement (α : Type) where
  start   : Nat
  stop    : Nat
  newText : List α

/-- The text from a position on, with the parts replaced from left to right. -/
def splice (text : List α) : Nat → List (Replacement α) → List α
  | p, [] => text.drop p
  | p, r :: rest => (text.take r.start).drop p ++ r.newText ++ splice text r.stop rest

/-- The parts lie in the text from a position on, each after the one before. -/
def Apart (text : List α) : Nat → List (Replacement α) → Prop
  | p, [] => p ≤ text.length
  | p, r :: rest => p ≤ r.start ∧ r.start ≤ r.stop ∧ Apart text r.stop rest

variable {rs : List (Replacement α)}

theorem Apart.le_length (h : Apart text p rs) : p ≤ text.length := by
  induction rs generalizing p with
  | nil => exact h
  | cons r rest ih =>
    have hrest := ih h.2.2
    have hstart := h.1
    have hstop := h.2.1
    omega

def replaceOne (r : Replacement α) (text : List α) : List α :=
  text.take r.start ++ r.newText ++ text.drop r.stop

theorem foldr_replaceOne
    (h : Apart text p rs) : rs.foldr replaceOne text = text.take p ++ splice text p rs := by
  induction rs generalizing p with
  | nil => exact (take_append_drop p text).symm
  | cons r rest ih =>
    obtain ⟨hstart, hstop, hrest⟩ := h
    have hlength := hrest.le_length
    rw [foldr_cons, ih hrest, splice, replaceOne]
    have htake : (text.take r.stop ++ splice text r.stop rest).take r.start = text.take r.start := by
      rw [take_append_of_le_length (by rw [length_take]; omega), take_take,
        min_eq_left hstop]
    have hdrop : (text.take r.stop ++ splice text r.stop rest).drop r.stop =
        splice text r.stop rest := by
      apply drop_left'
      rw [length_take]
      omega
    have hfront : text.take r.start = text.take p ++ (text.take r.start).drop p := by
      conv => lhs; rw [← take_append_drop p (text.take r.start)]
      rw [take_take, min_eq_left hstart]
    rw [htake, hdrop]
    conv => lhs; rw [hfront]
    simp only [append_assoc]

theorem length_foldr_replaceOne (h : Apart text p rs) : p ≤ (rs.foldr replaceOne text).length := by
  rw [foldr_replaceOne h, length_append, length_take]
  have hlength := h.le_length
  omega

end Substring
