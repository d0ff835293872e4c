import Cohub.Lib.OrderedMap

/-! # Stamped stores

    A store has contents by key, and beside it a record that has a stamp for
    some keys.  A stamp is meant to say which content its key has: that of a
    write with this stamp.  The two are kept apart, so each can change without
    the other.  A key without a content is noticed by its reader. -/

namespace Stamped

variable {κ σ γ : Type} [DecidableEq κ]

/-- A key that has a stamp and a content has that of a write with the stamp. -/
def Truthful (written : List (κ × σ × γ)) (content : κ → Option γ) (stamps : OrderedMap κ σ) : Prop :=
  ∀ k s, stamps.get? k = some s → ∀ c, content k = some c → (k, s, c) ∈ written

/-- Contents of stamped keys are as they were, or gone. -/
def Spares (stamps : OrderedMap κ σ) (content content' : κ → Option γ) : Prop :=
  ∀ k, (stamps.get? k).isSome → content' k = content k ∨ content' k = none

variable {written : List (κ × σ × γ)} {content content' : κ → Option γ}
  {stamps stamps' : OrderedMap κ σ}

theorem truthful_empty (written : List (κ × σ × γ)) (content : κ → Option γ) :
    Truthful written content OrderedMap.empty := by
  intro k s hs
  cases hs

theorem Truthful.spares (h : Truthful written content stamps)
    (hspares : Spares stamps content content') : Truthful written content' stamps := by
  intro k s hs c hc
  rcases hspares k (by rw [hs]; rfl) with hsame | hgone
  · exact h k s hs c (hsame ▸ hc)
  · rw [hgone] at hc
    cases hc

theorem Truthful.forget (h : Truthful written content stamps)
    (hsub : ∀ k s, stamps'.get? k = some s → stamps.get? k = some s) :
    Truthful written content stamps' :=
  fun k s hs => h k s (hsub k s hs)

theorem Spares.forget (h : ∀ k, (stamps'.get? k).isSome → content' k = content k) :
    Spares stamps' content content' :=
  fun k hk => .inl (h k hk)

theorem Truthful.write (h : Truthful written content stamps) (k : κ) (s : σ) (c : γ)
    (hk : content' k = some c) (hothers : ∀ k' ≠ k, content' k' = content k') :
    Truthful (written ++ [(k, s, c)]) content' (stamps.set k s) := by
  intro k' s' hs c' hc
  rw [OrderedMap.get?_set] at hs
  by_cases heq : k' = k
  · rw [if_pos heq] at hs
    rw [heq, hk] at hc
    obtain rfl := Option.some.inj hs
    obtain rfl := Option.some.inj hc
    rw [heq]
    exact List.mem_append_right _ (List.mem_singleton_self _)
  · rw [if_neg heq] at hs
    rw [hothers k' heq] at hc
    exact List.mem_append_left _ (h k' s' hs c' hc)

end Stamped
