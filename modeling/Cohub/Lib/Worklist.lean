import Mathlib.Data.List.Basic
import Mathlib.Data.List.TakeWhile
import Mathlib.Logic.Relation

/-! # Walks with a stack

    A walk pops a node, skips it if it was seen, and otherwise marks it and
    pushes its successors.  `visit` returns what it has seen in the end,
    `finds` stops at a goal.  The number of rounds is a bound on the nodes that
    can still be marked; it is enough when the nodes the walk can meet fit in a
    list of that many.

    With enough rounds, `visit` is closed under successors and `finds` decides
    reachability. -/

namespace Worklist

open List

variable {α : Type} [DecidableEq α]

/-! ## Walks -/

/-- Mark everything on the stack and whatever it leads to. -/
def visit (succ : α → List α) : Nat → List α → List α → List α
  | rounds, stack, seen =>
      match stack.dropWhile fun a => seen.contains a with
      | [] => seen
      | a :: rest =>
          match rounds with
          | 0 => seen
          | n + 1 => visit succ n (succ a ++ rest) (a :: seen)

/-- Whether the walk meets `goal`. -/
def finds (succ : α → List α) (goal : α) : Nat → List α → List α → Bool
  | rounds, stack, seen =>
      -- a node already seen is skipped, unless it is the goal
      match stack.dropWhile fun a => a != goal && seen.contains a with
      | [] => false
      | a :: rest =>
          if a = goal then true
          else match rounds with
            | 0 => false
            | n + 1 => finds succ goal n (succ a ++ rest) (a :: seen)

/-- One step of the walk. -/
def Leads (succ : α → List α) (a b : α) : Prop := b ∈ succ a

/-! ## Plumbing -/

/-- The nodes of `nodes` that are not marked. -/
def unseen (nodes seen : List α) : List α := nodes.filter fun a => !seen.contains a

variable {nodes seen : List α} {a : α} {succ : α → List α}

theorem length_unseen_cons (ha : a ∈ nodes) (hs : a ∉ seen) :
    (unseen nodes (a :: seen)).length < (unseen nodes seen).length := by
  have hsub : unseen nodes (a :: seen) = (unseen nodes seen).filter fun b => b != a := by
    unfold unseen
    rw [filter_filter]
    apply filter_congr
    intro b _
    by_cases hb : b = a <;> simp [hb]
  rw [hsub]
  apply length_filter_lt_length_iff_exists.mpr
  exact ⟨a, mem_filter.mpr ⟨ha, by simpa using hs⟩, by simp⟩

variable {rest : List α}

omit [DecidableEq α] in
theorem dropWhile_eq_cons {p : α → Bool} {l : List α} (h : l.dropWhile p = a :: rest) :
    ∃ before, l = before ++ a :: rest ∧ (∀ b ∈ before, p b = true) ∧ p a = false := by
  induction l with
  | nil => cases h
  | cons b l ih =>
    by_cases hb : p b = true
    · rw [dropWhile_cons_of_pos hb] at h
      obtain ⟨before, hl, hbefore, ha⟩ := ih h
      refine ⟨b :: before, by rw [hl]; rfl, ?_, ha⟩
      intro c hc
      rcases mem_cons.mp hc with rfl | hc
      · exact hb
      · exact hbefore c hc
    · rw [dropWhile_cons_of_neg hb] at h
      cases h
      exact ⟨[], rfl, by simp, by simpa using hb⟩

omit [DecidableEq α] in
theorem closed_push {before : List α}
    (hclosed : ∀ b ∈ seen, ∀ c ∈ succ b, c ∈ seen ∨ c ∈ before ++ a :: rest)
    (hbefore : ∀ b ∈ before, b ∈ seen) :
    ∀ b ∈ a :: seen, ∀ c ∈ succ b, c ∈ a :: seen ∨ c ∈ succ a ++ rest := by
  intro b hb c hc
  rcases mem_cons.mp hb with rfl | hb
  · exact .inr (mem_append_left _ hc)
  · rcases hclosed b hb c hc with h | h
    · exact .inl (mem_cons_of_mem _ h)
    · rcases mem_append.mp h with h | h
      · exact .inl (mem_cons_of_mem _ (hbefore c h))
      · rcases mem_cons.mp h with rfl | h
        · exact .inl mem_cons_self
        · exact .inr (mem_append_right _ h)

/-! ## What a walk marks -/

theorem visit_complete (hsucc : ∀ a b, b ∈ succ a → b ∈ nodes) :
    ∀ {rounds : Nat} {stack seen : List α}, (∀ a ∈ stack, a ∈ nodes) →
      (unseen nodes seen).length ≤ rounds →
      (∀ a ∈ seen, ∀ b ∈ succ a, b ∈ seen ∨ b ∈ stack) →
      (∀ a ∈ seen, a ∈ visit succ rounds stack seen) ∧
      (∀ a ∈ stack, a ∈ visit succ rounds stack seen) ∧
      ∀ a ∈ visit succ rounds stack seen, ∀ b ∈ succ a, b ∈ visit succ rounds stack seen := by
  intro rounds
  induction rounds with
  | zero =>
    intro stack seen hstack hrounds hclosed
    have hall : ∀ a ∈ nodes, a ∈ seen := by
      intro a ha
      have hnil := eq_nil_of_length_eq_zero (Nat.le_zero.mp hrounds)
      have hmem := filter_eq_nil_iff.mp hnil a ha
      simpa using hmem
    have hvisit : visit succ 0 stack seen = seen := by
      unfold visit
      split <;> rfl
    rw [hvisit]
    exact ⟨fun a ha => ha, fun a ha => hall a (hstack a ha),
      fun a _ b hb => hall b (hsucc a b hb)⟩
  | succ n ih =>
    intro stack seen hstack hrounds hclosed
    unfold visit
    split
    · next hnil =>
      have hskip : ∀ a ∈ stack, a ∈ seen := by
        intro a ha
        have := dropWhile_eq_nil_iff.mp hnil a ha
        simpa using this
      refine ⟨fun a ha => ha, hskip, fun a ha b hb => ?_⟩
      rcases hclosed a ha b hb with h | h
      · exact h
      · exact hskip b h
    · next a rest hcons =>
      obtain ⟨before, rfl, hbefore, ha⟩ := dropWhile_eq_cons hcons
      have hnot : a ∉ seen := by simpa using ha
      have hnodes : a ∈ nodes := hstack a (by simp)
      have hlt := length_unseen_cons hnodes hnot
      have hstack' : ∀ b ∈ succ a ++ rest, b ∈ nodes := by
        intro b hb
        rcases mem_append.mp hb with hb | hb
        · exact hsucc a b hb
        · exact hstack b (by simp [hb])
      have hbeforeSeen : ∀ b ∈ before, b ∈ seen := by
        intro b hb
        simpa using hbefore b hb
      have hclosed' : ∀ b ∈ a :: seen, ∀ c ∈ succ b, c ∈ a :: seen ∨ c ∈ succ a ++ rest :=
        closed_push hclosed hbeforeSeen
      obtain ⟨hseen, hstk, hcl⟩ := ih hstack' (by omega) hclosed'
      refine ⟨fun b hb => hseen b (mem_cons_of_mem _ hb), ?_, hcl⟩
      intro b hb
      rcases mem_append.mp hb with hb | hb
      · exact hseen b (mem_cons_of_mem _ (hbeforeSeen b hb))
      · rcases mem_cons.mp hb with rfl | hb
        · exact hseen _ mem_cons_self
        · exact hstk b (mem_append_right _ hb)

/-! ## What a walk finds -/

omit [DecidableEq α] in
theorem reaches_from_stack {stack : List α} {b : α}
    (hclosed : ∀ a ∈ seen, ∀ b ∈ succ a, b ∈ seen ∨ b ∈ stack)
    (hreach : Relation.ReflTransGen (Leads succ) a b) (ha : a ∈ seen) (hb : b ∉ seen) :
    ∃ c ∈ stack, Relation.ReflTransGen (Leads succ) c b := by
  induction hreach using Relation.ReflTransGen.head_induction_on with
  | refl => exact absurd ha hb
  | head hstep hrest ih =>
    rcases hclosed _ ha _ hstep with h | h
    · exact ih h
    · exact ⟨_, h, hrest⟩

theorem finds_complete {goal : α} (hsucc : ∀ a b, b ∈ succ a → b ∈ nodes) :
    ∀ {rounds : Nat} {stack seen : List α}, (∀ a ∈ stack, a ∈ nodes) →
      (unseen nodes seen).length ≤ rounds → goal ∉ seen →
      (∀ a ∈ seen, ∀ b ∈ succ a, b ∈ seen ∨ b ∈ stack) →
      (∃ a ∈ stack, Relation.ReflTransGen (Leads succ) a goal) →
      finds succ goal rounds stack seen = true := by
  intro rounds
  induction rounds with
  | zero =>
    intro stack seen hstack hrounds hgoal hclosed ⟨a, ha, hreach⟩
    -- every node is marked, so the goal would be
    have hall : ∀ a ∈ nodes, a ∈ seen := by
      intro a ha
      have hnil := eq_nil_of_length_eq_zero (Nat.le_zero.mp hrounds)
      have hmem := filter_eq_nil_iff.mp hnil a ha
      simpa using hmem
    have hnode : goal ∈ nodes := by
      rcases Relation.ReflTransGen.cases_tail hreach with rfl | ⟨c, -, hc⟩
      · exact hstack _ ha
      · exact hsucc c goal hc
    exact absurd (hall goal hnode) hgoal
  | succ n ih =>
    intro stack seen hstack hrounds hgoal hclosed hreaches
    unfold finds
    split
    · next hnil =>
      obtain ⟨a, ha, hreach⟩ := hreaches
      have hskip := dropWhile_eq_nil_iff.mp hnil
      have hparts : ∀ b ∈ stack, b ≠ goal ∧ b ∈ seen := by
        intro b hb
        simpa using hskip b hb
      -- the goal is reached from a marked node without ever passing the stack's goal
      have hout : ∃ c ∈ stack, c ∉ seen ∨ c = goal := by
        by_contra hno
        have hall : ∀ c ∈ seen, ∀ b ∈ succ c, b ∈ seen := by
          intro c hc b hb
          rcases hclosed c hc b hb with h | h
          · exact h
          · exact (hparts b h).2
        have hseen : ∀ {c d : α}, Relation.ReflTransGen (Leads succ) c d → c ∈ seen → d ∈ seen := by
          intro c d hcd hc
          induction hcd with
          | refl => exact hc
          | tail _ hstep ih' => exact hall _ ih' _ hstep
        exact hgoal (hseen hreach (hparts a ha).2)
      obtain ⟨c, hc, hcase⟩ := hout
      rcases hcase with h | h
      · exact absurd (hparts c hc).2 h
      · exact absurd h (hparts c hc).1
    · next a rest hcons =>
      obtain ⟨before, rfl, hbefore, ha⟩ := dropWhile_eq_cons hcons
      split
      · rfl
      · next hne =>
        have hnot : a ∉ seen := by simpa [hne] using ha
        have hnodes : a ∈ nodes := hstack a (by simp)
        have hlt := length_unseen_cons hnodes hnot
        have hbeforeSeen : ∀ b ∈ before, b ∈ seen := by
          intro b hb
          have := hbefore b hb
          simp at this
          exact this.2
        have hclosed' : ∀ b ∈ a :: seen, ∀ c ∈ succ b, c ∈ a :: seen ∨ c ∈ succ a ++ rest :=
          closed_push hclosed hbeforeSeen
        have hgoal' : goal ∉ a :: seen := by
          intro hmem
          rcases mem_cons.mp hmem with h | h
          · exact hne h.symm
          · exact hgoal h
        apply ih
        · intro b hb
          rcases mem_append.mp hb with hb | hb
          · exact hsucc a b hb
          · exact hstack b (by simp [hb])
        · omega
        · exact hgoal'
        · exact hclosed'
        · obtain ⟨c, hc, hreach⟩ := hreaches
          rcases mem_append.mp hc with hc | hc
          · exact reaches_from_stack hclosed' hreach
              (mem_cons_of_mem _ (hbeforeSeen c hc)) hgoal'
          · rcases mem_cons.mp hc with rfl | hc
            · exact reaches_from_stack hclosed' hreach mem_cons_self hgoal'
            · exact ⟨c, mem_append_right _ hc, hreach⟩

end Worklist
