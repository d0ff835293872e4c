import Mathlib.Data.Set.Function
import Mathlib.Data.List.Infix

/-! # Content-addressed stores

    A store keeps byte strings under their digests.  `Faithful` says of a set of
    byte strings that it is closed under pieces and that no two of its members
    share a digest.  A store that `Holds` only members of such a set, each under
    its own digest, can only answer with the content that was asked for.

    The second half cuts a byte string into pieces of a bounded size. -/

namespace Addressed

variable {α δ : Type}

/-! ## Digests -/

/-- Pieces of members are members, and the digest tells members apart. -/
structure Faithful (sha : List α → δ) (S : Set (List α)) : Prop where
  piece     : ∀ b ∈ S, ∀ p, p <:+: b → p ∈ S
  injective : Set.InjOn sha S

variable {sha : List α → δ} {S : Set (List α)} {store : δ → Option (List α)} {b c : List α}

theorem Faithful.eq (h : Faithful sha S) (hb : b ∈ S) (hc : c ∈ S) (hsha : sha b = sha c) : b = c :=
  h.injective hb hc hsha

theorem faithful_univ {sha : List α → δ} (h : Function.Injective sha) :
    Faithful sha Set.univ where
  piece _ _ _ _ := Set.mem_univ _
  injective := h.injOn

/-! ## Stores -/

/-- Every content is a member, under its own digest. -/
def Holds (sha : List α → δ) (S : Set (List α)) (store : δ → Option (List α)) : Prop :=
  ∀ d b, store d = some b → sha b = d ∧ b ∈ S

theorem holds_empty (sha : List α → δ) (S : Set (List α)) : Holds sha S fun _ => none := by
  intro d b h
  cases h

theorem Holds.eq (h : Holds sha S store) (hS : Faithful sha S) (hc : c ∈ S)
    (hb : store (sha c) = some b) : b = c := by
  obtain ⟨hsha, hmem⟩ := h _ _ hb
  exact hS.eq hmem hc hsha

variable [DecidableEq δ]

/-- Adds a content, unless one is there already. -/
def put (store : δ → Option (List α)) (d : δ) (b : List α) : δ → Option (List α) :=
  fun d' => if d' = d then some ((store d).getD b) else store d'

variable {d : δ}

theorem put_of_some {d' : δ} (h : store d' = some c) : put store d b d' = some c := by
  unfold put
  by_cases hd : d' = d
  · rw [if_pos hd, ← hd, h]
    rfl
  · rw [if_neg hd, h]

theorem Holds.put (h : Holds sha S store) (hsha : sha b = d) (hb : b ∈ S) :
    Holds sha S (put store d b) := by
  intro d' c hc
  unfold Addressed.put at hc
  by_cases hd : d' = d
  · rw [if_pos hd] at hc
    subst hd
    cases hstore : store d' with
    | none =>
      rw [hstore] at hc
      obtain rfl : b = c := Option.some.inj hc
      exact ⟨hsha, hb⟩
    | some old =>
      rw [hstore] at hc
      obtain rfl : old = c := Option.some.inj hc
      exact h _ _ hstore
  · rw [if_neg hd] at hc
    exact h _ _ hc

/-! ## Pieces -/

/-- The pieces of at most `size` elements, in order. -/
def pieces (size : Nat) : Nat → List α → List (List α)
  | 0, _ => []
  | _ + 1, [] => []
  | n + 1, b :: bs => (b :: bs).take size :: pieces size n ((b :: bs).drop size)

theorem flatten_pieces {size : Nat} (hsize : 0 < size) :
    ∀ (n : Nat) (bs : List α), bs.length ≤ n → (pieces size n bs).flatten = bs := by
  intro n
  induction n with
  | zero =>
    intro bs h
    rw [List.length_eq_zero_iff.mp (Nat.le_zero.mp h)]
    rfl
  | succ n ih =>
    intro bs h
    cases bs with
    | nil => rfl
    | cons b bs =>
      have hshorter : ((b :: bs).drop size).length ≤ n := by
        rw [List.length_drop]
        omega
      rw [pieces, List.flatten_cons, ih _ hshorter, List.take_append_drop]

theorem infix_of_mem_flatten {p : List α} {ps : List (List α)} (h : p ∈ ps) : p <:+: ps.flatten := by
  obtain ⟨before, after, rfl⟩ := List.append_of_mem h
  exact ⟨before.flatten, after.flatten, by simp⟩

end Addressed
