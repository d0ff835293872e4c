import Mathlib.Data.List.Basic
import Mathlib.Tactic.Common

/-! # Cutting a stream into lines

    A separator ends a line; what follows the last separator is the tail.  A
    stream is its lines and its tail, in one way only, so that it does not matter
    in which pieces it arrives. -/

namespace Lines

open List

variable {α : Type} [DecidableEq α] (sep : α)

/-! ## Cutting and joining -/

/-- The lines, without their separators, and the tail. -/
def cut : List α → List (List α) × List α
  | [] => ([], [])
  | a :: rest =>
      let (bodies, tail) := cut rest
      if a = sep then ([] :: bodies, tail)
      else
        match bodies with
        | [] => ([], a :: tail)
        | body :: more => ((a :: body) :: more, tail)

/-- Lines with their separators. -/
def ended (bodies : List (List α)) : List α := bodies.flatMap fun body => body ++ [sep]

/-- The stream of some lines and a tail. -/
def joined (bodies : List (List α)) (tail : List α) : List α := ended sep bodies ++ tail

/-- No line contains a separator. -/
def Clean (bodies : List (List α)) : Prop := ∀ body ∈ bodies, sep ∉ body

variable {sep}

@[simp] theorem ended_nil : ended sep [] = [] := rfl

variable (body : List α)

@[simp] theorem ended_cons (bodies : List (List α)) :
    ended sep (body :: bodies) = body ++ [sep] ++ ended sep bodies := rfl

@[simp] theorem ended_append (before after : List (List α)) :
    ended sep (before ++ after) = ended sep before ++ ended sep after := flatMap_append

/-! ## One way only -/

variable (s : List α)

theorem joined_cut : joined sep (cut sep s).1 (cut sep s).2 = s := by
  induction s with
  | nil => rfl
  | cons a rest ih =>
    unfold cut
    dsimp only
    split
    · next ha =>
      rw [joined, ended_cons, nil_append, append_assoc, ← joined, ih, ha]
      rfl
    · cases hbodies : (cut sep rest).1 with
      | nil =>
        rw [hbodies] at ih
        exact congrArg (a :: ·) ih
      | cons body more =>
        rw [hbodies] at ih
        exact congrArg (a :: ·) ih

theorem clean_cut : Clean sep (cut sep s).1 ∧ sep ∉ (cut sep s).2 := by
  induction s with
  | nil => exact ⟨fun _ h => absurd h not_mem_nil, not_mem_nil⟩
  | cons a rest ih =>
    obtain ⟨hbodies, htail⟩ := ih
    unfold cut
    dsimp only
    split
    · refine ⟨fun body h => ?_, htail⟩
      rcases mem_cons.mp h with rfl | h
      · exact not_mem_nil
      · exact hbodies body h
    · next ha =>
      have hne : sep ≠ a := fun h => ha h.symm
      cases hcut : (cut sep rest).1 with
      | nil =>
        refine ⟨fun _ h => absurd h not_mem_nil, fun h => ?_⟩
        exact (mem_cons.mp h).elim hne htail
      | cons first more =>
        rw [hcut] at hbodies
        refine ⟨fun body h => ?_, htail⟩
        rcases mem_cons.mp h with rfl | h
        · exact fun hmem => (mem_cons.mp hmem).elim hne (hbodies first mem_cons_self)
        · exact hbodies body (mem_cons_of_mem _ h)

variable {tail : List α}

theorem cut_of_not_mem (h : sep ∉ tail) : cut sep tail = ([], tail) := by
  induction tail with
  | nil => rfl
  | cons a tail ih =>
    have ha : ¬ a = sep := fun heq => h (heq ▸ mem_cons_self)
    have htail := ih fun hmem => h (mem_cons_of_mem _ hmem)
    rw [cut, htail]
    exact if_neg ha

theorem cut_line (rest : List α) (h : sep ∉ body) :
    cut sep (body ++ sep :: rest) = (body :: (cut sep rest).1, (cut sep rest).2) := by
  induction body with
  | nil => exact if_pos rfl
  | cons a body ih =>
    have ha : ¬ a = sep := fun heq => h (heq ▸ mem_cons_self)
    have hbody := ih fun hmem => h (mem_cons_of_mem _ hmem)
    rw [cons_append, cut, hbody]
    exact if_neg ha

theorem cut_joined {bodies : List (List α)} (hbodies : Clean sep bodies)
    (htail : sep ∉ tail) : cut sep (joined sep bodies tail) = (bodies, tail) := by
  induction bodies with
  | nil => exact cut_of_not_mem htail
  | cons body bodies ih =>
    have hrest := ih fun other h => hbodies other (mem_cons_of_mem _ h)
    have hsplit : joined sep (body :: bodies) tail = body ++ sep :: joined sep bodies tail := by
      simp [joined]
    rw [hsplit, cut_line body _ (hbodies body mem_cons_self), hrest]

theorem cut_append (t : List α) :
    cut sep (s ++ t) =
      ((cut sep s).1 ++ (cut sep ((cut sep s).2 ++ t)).1, (cut sep ((cut sep s).2 ++ t)).2) := by
  obtain ⟨hbodies, -⟩ : Clean sep (cut sep s).1 ∧ sep ∉ (cut sep s).2 := clean_cut s
  obtain ⟨hmore, htail⟩ : Clean sep (cut sep ((cut sep s).2 ++ t)).1 ∧
      sep ∉ (cut sep ((cut sep s).2 ++ t)).2 := clean_cut ((cut sep s).2 ++ t)
  have hclean : Clean sep ((cut sep s).1 ++ (cut sep ((cut sep s).2 ++ t)).1) := fun body h =>
    (mem_append.mp h).elim (hbodies body) (hmore body)
  have hfirst : ended sep (cut sep s).1 ++ (cut sep s).2 = s := joined_cut s
  have hsecond : ended sep (cut sep ((cut sep s).2 ++ t)).1 ++ (cut sep ((cut sep s).2 ++ t)).2 =
      (cut sep s).2 ++ t := joined_cut ((cut sep s).2 ++ t)
  have hwhole : joined sep ((cut sep s).1 ++ (cut sep ((cut sep s).2 ++ t)).1)
      (cut sep ((cut sep s).2 ++ t)).2 = s ++ t := by
    rw [joined, ended_append, append_assoc, hsecond, ← append_assoc, hfirst]
  exact (congrArg (cut sep) hwhole.symm).trans (cut_joined hclean htail)

theorem cut_append_line (body : List α) (h : sep ∉ body) :
    cut sep (s ++ (body ++ [sep])) = ((cut sep s).1 ++ [(cut sep s).2 ++ body], []) := by
  have htail : sep ∉ (cut sep s).2 := (clean_cut s).2
  have hbody : sep ∉ (cut sep s).2 ++ body := fun hmem =>
    (mem_append.mp hmem).elim htail h
  rw [cut_append, ← append_assoc, cut_line _ [] hbody]
  rfl

theorem cut_append_tail (t : List α) (h : sep ∉ t) :
    cut sep (s ++ t) = ((cut sep s).1, (cut sep s).2 ++ t) := by
  have htail : sep ∉ (cut sep s).2 := (clean_cut s).2
  have hmore : sep ∉ (cut sep s).2 ++ t := fun hmem => (mem_append.mp hmem).elim htail h
  rw [cut_append, cut_of_not_mem hmore, append_nil]

end Lines
