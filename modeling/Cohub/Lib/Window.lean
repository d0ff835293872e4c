import Mathlib.Data.List.Basic
import Mathlib.Tactic.Common

/-! # Selecting what is near

    Elements are numbered one after the other and some of them are hits.  A pass
    that keeps the last elements it did not select, and counts down after a hit,
    selects exactly the elements that are within a width of a hit. -/

namespace Window

open List

variable {α : Type} (number : α → Nat) (width : Nat)

/-! ## The pass -/

/-- Keep one more element, and no more than the width. -/
def keep (before : List α) (x : α) : List α :=
  if width = 0 then before
  else if before.length = width then before.drop 1 ++ [x] else before ++ [x]

/-- The elements that are selected: `before` was not selected so far, `after`
    elements are still to be. -/
def select : List α → Nat → List (α × Bool) → List α
  | _, _, [] => []
  | before, _, (x, true) :: rest => before ++ x :: select [] width rest
  | before, after + 1, (x, false) :: rest => x :: select before after rest
  | before, 0, (x, false) :: rest => select (keep width before x) 0 rest

/-! ## What is near -/

/-- An element is within the width of a hit. -/
def near (rest : List (α × Bool)) (x : α) : Bool :=
  rest.any fun hit => hit.2 && decide (number x ≤ number hit.1 + width) &&
    decide (number hit.1 ≤ number x + width)

/-- The numbers of the elements, one after the other. -/
def Consecutive : Nat → List α → Prop
  | _, [] => True
  | n, x :: rest => number x = n ∧ Consecutive (n + 1) rest

variable {number width} {n start : Nat} {l before : List α} {x : α} {rest : List (α × Bool)}

theorem consecutive_append {m : List α} :
    Consecutive number n (l ++ m) ↔
      Consecutive number n l ∧ Consecutive number (n + l.length) m := by
  induction l generalizing n with
  | nil => simp [Consecutive]
  | cons x l ih =>
    simp only [cons_append, Consecutive, ih, and_assoc, length_cons]
    rw [Nat.add_assoc, Nat.add_comm 1 l.length]

theorem Consecutive.bounds (h : Consecutive number n l)
    (hx : x ∈ l) : n ≤ number x ∧ number x < n + l.length := by
  induction l generalizing n with
  | nil => exact absurd hx not_mem_nil
  | cons y l ih =>
    rw [length_cons]
    rcases mem_cons.mp hx with rfl | hx
    · have hy := h.1
      omega
    · have hl := ih h.2 hx
      omega

theorem Consecutive.pairwise (h : Consecutive number n l) :
    l.Pairwise fun x y => number x < number y := by
  induction l generalizing n with
  | nil => exact List.Pairwise.nil
  | cons x l ih =>
    refine List.Pairwise.cons (fun y hy => ?_) (ih h.2)
    have hfirst := h.1
    have hrest := (h.2.bounds hy).1
    omega

theorem near_cons_false (x y : α) :
    near number width ((x, false) :: rest) y = near number width rest y := by
  simp [near]

theorem near_cons_true (x y : α) :
    near number width ((x, true) :: rest) y =
      (decide (number y ≤ number x + width ∧ number x ≤ number y + width) ||
        near number width rest y) := by
  simp [near]

theorem near_of_close {y : α} (h : number y ≤ number x + width)
    (h' : number x ≤ number y + width) : near number width ((x, true) :: rest) y = true := by
  simp [near, h, h']

theorem near_of_far (h : Consecutive number n (rest.map Prod.fst)) (hfar : number x + width < n) :
    near number width rest x = false := by
  rw [near, any_eq_false]
  intro hit hmem
  have hn := (h.bounds (mem_map_of_mem hmem)).1
  simp only [Bool.and_eq_true, decide_eq_true_eq, not_and]
  omega

section

variable (hlength : before.length ≤ width) (hbefore : Consecutive number start before)
  (hstart : start + before.length = n) (hx : number x = n)
include hlength hbefore hstart hx

theorem near_kept :
    before.filter (near number width ((x, true) :: rest)) = before := by
  rw [filter_eq_self]
  intro y hy
  have hbounds := hbefore.bounds hy
  exact near_of_close (by omega) (by omega)

theorem filter_keep (hrest : Consecutive number (n + 1) (rest.map Prod.fst)) :
    (keep width before x).filter (near number width rest) =
      (before ++ [x]).filter (near number width rest) := by
  unfold keep
  split
  · next hzero =>
    have hempty : before = [] := eq_nil_of_length_eq_zero (by omega)
    have hfar : near number width rest x = false := near_of_far hrest (by omega)
    rw [hempty, nil_append, filter_nil, filter_cons_of_neg (by simp [hfar]),
      filter_nil]
  · split
    · next hfull =>
      cases before with
      | nil => rfl
      | cons y before =>
        have hy := hbefore.1
        rw [length_cons] at hstart hfull
        have hfar : near number width rest y = false := near_of_far hrest (by omega)
        rw [cons_append, filter_cons_of_neg (by simp [hfar])]
        rfl
    · rfl

theorem consecutive_keep :
    (keep width before x).length ≤ width ∧
      ∃ start', Consecutive number start' (keep width before x) ∧
        start' + (keep width before x).length = n + 1 := by
  have hall : Consecutive number start (before ++ [x]) :=
    consecutive_append.mpr ⟨hbefore, by rw [hstart]; exact ⟨hx, trivial⟩⟩
  unfold keep
  split
  · next hzero =>
    have hempty : before = [] := eq_nil_of_length_eq_zero (by omega)
    rw [hempty]
    exact ⟨Nat.zero_le _, n + 1, trivial, rfl⟩
  · split
    · next hwidth hfull =>
      cases before with
      | nil => exact absurd hfull.symm hwidth
      | cons y before =>
        rw [length_cons] at hstart hfull
        refine ⟨?_, start + 1, hall.2, ?_⟩
        · simp
          omega
        · simp
          omega
    · next hmore =>
      refine ⟨?_, start, hall, ?_⟩
      · rw [length_append, length_singleton]
        omega
      · rw [length_append, length_singleton]
        omega

end

theorem select_eq {after : Nat} (hlength : before.length ≤ width) (hempty : 0 < after → before = [])
    (hafter : after ≤ width) (hbefore : Consecutive number start before)
    (hstart : start + before.length = n) (hrest : Consecutive number n (rest.map Prod.fst)) :
    select width before after rest =
      before.filter (near number width rest) ++
        (rest.map Prod.fst).filter fun x =>
          decide (number x < n + after) || near number width rest x := by
  induction rest generalizing n before after start with
  | nil => simp [select, near]
  | cons first rest ih =>
    obtain ⟨x, hit⟩ := first
    have hx : number x = n := hrest.1
    have hlater : Consecutive number (n + 1) (rest.map Prod.fst) := hrest.2
    rw [map_cons]
    cases hit with
    | true =>
      have hnear : near number width ((x, true) :: rest) x = true :=
        near_of_close (Nat.le_add_right _ _) (Nat.le_add_right _ _)
      have htail := ih (Nat.zero_le _) (fun _ => rfl) (Nat.le_refl width) trivial
        (Nat.add_zero (n + 1)) hlater
      have hsame : ∀ y ∈ rest.map Prod.fst,
          (decide (number y < n + 1 + width) || near number width rest y) =
            (decide (number y < n + after) || near number width ((x, true) :: rest) y) := by
        intro y hy
        have hbounds := (hlater.bounds hy).1
        rw [near_cons_true, ← Bool.or_assoc, ← Bool.decide_or]
        congr 1
        exact decide_eq_decide.mpr (by omega)
      rw [select, htail, near_kept hlength hbefore hstart hx, filter_nil, nil_append,
        filter_congr hsame, filter_cons_of_pos (by simp [hnear])]
    | false =>
      cases after with
      | succ after =>
        have hnone := hempty (Nat.succ_pos after)
        subst hnone
        have htail := ih (Nat.zero_le _) (fun _ => rfl) (Nat.le_of_succ_le hafter) trivial
          (Nat.add_zero (n + 1)) hlater
        have hfirst : number x < n + (after + 1) := by omega
        rw [select, htail, filter_nil, nil_append, filter_nil, nil_append,
          filter_cons_of_pos (by simp [hfirst])]
        simp only [near_cons_false, Nat.add_assoc, Nat.add_comm after 1]
      | zero =>
        obtain ⟨hkept, start', hconsecutive, hnext⟩ := consecutive_keep hlength hbefore hstart hx
        have htail := ih hkept (fun hpos => absurd hpos (Nat.lt_irrefl _)) (Nat.zero_le _)
          hconsecutive hnext hlater
        have hfirst : ¬ number x < n + 0 := by omega
        have hsame : ∀ y ∈ rest.map Prod.fst,
            (decide (number y < n + 1 + 0) || near number width rest y) =
              (decide (number y < n + 0) || near number width rest y) := by
          intro y hy
          have hbounds := (hlater.bounds hy).1
          congr 1
          exact decide_eq_decide.mpr (by omega)
        have hx' : (decide (number x < n + 0) || near number width rest x) =
            near number width rest x := by rw [decide_eq_false hfirst, Bool.false_or]
        rw [select, htail, filter_keep hlength hbefore hstart hx hlater, filter_append,
          append_assoc, filter_congr hsame]
        simp only [near_cons_false]
        congr 1
        rw [filter_cons, filter_cons, filter_nil, hx']
        split <;> rfl

theorem select_eq_filter {elements : List (α × Bool)}
    (h : Consecutive number n (elements.map Prod.fst)) :
    select width [] 0 elements =
      (elements.map Prod.fst).filter (near number width elements) := by
  have hall : select width [] 0 elements = [] ++ _ :=
    select_eq (Nat.zero_le _) (fun _ => rfl) (Nat.zero_le width) trivial (Nat.add_zero n) h
  rw [hall, nil_append]
  refine filter_congr fun x hx => ?_
  have hbounds := (h.bounds hx).1
  rw [decide_eq_false (by omega), Bool.false_or]

theorem select_of_no_hits (h : ∀ hit ∈ rest, hit.2 = false) : select width before 0 rest = [] := by
  induction rest generalizing before with
  | nil => rfl
  | cons first rest ih =>
    obtain ⟨x, hit⟩ := first
    have hfirst : hit = false := h _ mem_cons_self
    subst hfirst
    rw [select]
    exact ih fun hit hmem => h hit (mem_cons_of_mem _ hmem)

end Window
