import Mathlib.Logic.Relation

/-! # Objects of a git repository

    A commit names a tree and its parents, a tree its entries, and names are
    digests of the content, so one map gives the object of every name.  An entry
    of a tree that is a commit (a submodule) is not followed.

    A pack made for `include` minus `exclude` has what is reached from the first
    and not from the second.  It may have more trees and blobs than that, but its
    commits are exact. -/

namespace GitObjects

open List

inductive Object (α : Type) where
  | commit (tree : α) (parents : List α)
  | tree (entries : List α)
  | blob
deriving DecidableEq

variable {α : Type} (git : α → Object α)

/-! ## Reachability -/

def isCommit (a : α) : Bool :=
  match git a with
  | .commit _ _ => true
  | _ => false

/-- What an object names. -/
def edges (a : α) : List α :=
  match git a with
  | .commit tree parents => [tree].filter (fun b => !isCommit git b) ++ parents
  | .tree entries => entries.filter fun b => !isCommit git b
  | .blob => []

def Reaches (a b : α) : Prop := Relation.ReflTransGen (fun a b => b ∈ edges git a) a b

variable {git}

theorem Reaches.refl (a : α) : Reaches git a a := Relation.ReflTransGen.refl

variable {a b : α} {c : α}

theorem Reaches.trans (h : Reaches git a b) (h' : Reaches git b c) : Reaches git a c :=
  Relation.ReflTransGen.trans h h'

theorem Reaches.of_edge (h : b ∈ edges git a) : Reaches git a b :=
  Relation.ReflTransGen.single h

theorem Reaches.cases (h : Reaches git a b) : a = b ∨ ∃ c ∈ edges git a, Reaches git c b :=
  Relation.ReflTransGen.cases_head_iff.mp h

theorem Reaches.not_commit (h : Reaches git a b) (ha : isCommit git a = false) :
    isCommit git b = false := by
  induction h with
  | refl => exact ha
  | @tail b c _ hedge ih =>
    unfold isCommit at ih
    unfold edges at hedge
    cases hb : git b with
    | commit tree parents => simp [hb] at ih
    | tree entries =>
      simp only [hb] at hedge
      exact (Bool.not_eq_true' _).mp (mem_filter.mp hedge).2
    | blob => simp [hb] at hedge

theorem Reaches.commit_cases {tree : α} {parents : List α} (h : Reaches git a b)
    (ha : git a = .commit tree parents) (hb : isCommit git b = true) :
    b = a ∨ ∃ p ∈ parents, Reaches git p b := by
  rcases h.cases with rfl | ⟨c, hc, hreach⟩
  · exact .inl rfl
  · rw [edges, ha] at hc
    rcases mem_append.mp hc with htree | hparent
    · have hnot : isCommit git c = false := by simpa using (mem_filter.mp htree).2
      rw [hreach.not_commit hnot] at hb
      cases hb
    · exact .inr ⟨c, hparent, hreach⟩

/-! ## First parents -/

variable (git)

def firstParent (a : α) : Option α :=
  match git a with
  | .commit _ parents => parents.head?
  | _ => none

/-- The `n`-th ancestor along first parents. -/
def ancestor : Nat → α → Option α
  | 0, a => some a
  | n + 1, a => (firstParent git a).bind (ancestor n)

variable {git}

theorem ancestor_add (m n : Nat) (a : α) :
    ancestor git (m + n) a = (ancestor git m a).bind (ancestor git n) := by
  induction m generalizing a with
  | zero => simp [ancestor]
  | succ m ih =>
    rw [Nat.succ_add, ancestor, ancestor, Option.bind_assoc]
    congr 1
    funext b
    exact ih b

theorem reaches_firstParent {p : α} (h : firstParent git a = some p) : Reaches git a p := by
  refine .of_edge ?_
  unfold firstParent at h
  unfold edges
  cases ha : git a with
  | commit tree parents =>
    rw [ha] at h
    exact mem_append_right _ (mem_of_mem_head? h)
  | tree entries => simp [ha] at h
  | blob => simp [ha] at h

variable {n : Nat} {objects : List α}

theorem reaches_ancestor (h : ancestor git n a = some b) : Reaches git a b := by
  induction n generalizing a with
  | zero =>
    obtain rfl := Option.some.inj h
    exact .refl a
  | succ n ih =>
    obtain ⟨p, hp, hb⟩ := Option.bind_eq_some_iff.mp h
    exact (reaches_firstParent hp).trans (ih hb)

/-- The commits from `a` to before its `n`-th ancestor have one parent each and
    satisfy `P`. -/
def Linear (git : α → Object α) (P : α → Prop) : Nat → α → Prop
  | 0, _ => True
  | n + 1, a => P a ∧ ∃ tree p, git a = .commit tree [p] ∧ Linear git P n p

variable {P : α → Prop} {included : List α}

theorem Linear.mono {m : Nat} (h : Linear git P n a) (hm : m ≤ n) : Linear git P m a := by
  induction m generalizing n a with
  | zero => trivial
  | succ m ih =>
    cases n with
    | zero => exact absurd hm (Nat.not_succ_le_zero m)
    | succ n =>
      obtain ⟨ha, tree, p, hp, hrest⟩ := h
      exact ⟨ha, tree, p, hp, ih hrest (Nat.le_of_succ_le_succ hm)⟩

theorem Linear.commit_cases (h : Linear git P n a) (hb : ancestor git n a = some b)
    (hc : isCommit git c = true) (hreach : Reaches git a c) : P c ∨ Reaches git b c := by
  induction n generalizing a with
  | zero =>
    obtain rfl := Option.some.inj hb
    exact .inr hreach
  | succ n ih =>
    obtain ⟨ha, tree, p, hp, hrest⟩ := h
    have hfirst : firstParent git a = some p := by simp [firstParent, hp]
    rw [ancestor, hfirst] at hb
    rcases hreach.commit_cases hp hc with rfl | ⟨q, hq, hreach⟩
    · exact .inl ha
    · obtain rfl := mem_singleton.mp hq
      exact ih hrest hb hreach

/-! ## Packs -/

/-- All that `a` reaches is there. -/
def Complete (git : α → Object α) (objects : List α) (a : α) : Prop :=
  ∀ b, Reaches git a b → b ∈ objects

theorem Complete.mono {objects' : List α} (h : Complete git objects a)
    (hsub : ∀ b ∈ objects, b ∈ objects') : Complete git objects' a :=
  fun b hb => hsub b (h b hb)

theorem Complete.reached (h : Complete git objects a)
    (hb : Reaches git a b) : Complete git objects b :=
  fun c hc => h c (hb.trans hc)

/-- What a pack for `include` minus `exclude` has. -/
structure Packs (git : α → Object α) (included excluded objects : List α) : Prop where
  holds   : ∀ a ∈ included, ∀ b, Reaches git a b → (∀ e ∈ excluded, ¬ Reaches git e b) → b ∈ objects
  commits : ∀ b ∈ objects, isCommit git b = true →
    (∃ a ∈ included, Reaches git a b) ∧ ∀ e ∈ excluded, ¬ Reaches git e b

theorem Packs.complete (h : Packs git included [] objects)
    (ha : a ∈ included) : Complete git objects a :=
  fun b hb => h.holds a ha b hb (fun _ he => absurd he not_mem_nil)

theorem Packs.complete_commit (h : Packs git included [] objects)
    (ha : a ∈ objects) (hcommit : isCommit git a = true) : Complete git objects a := by
  obtain ⟨⟨top, htop, hreach⟩, -⟩ := h.commits a ha hcommit
  exact (h.complete htop).reached hreach

end GitObjects
