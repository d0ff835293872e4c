import Mathlib.Data.Option.Basic

/-! # Keys that expire

    A key of an in-memory store holds a value and may have a deadline, after
    which the store drops it.  `default` is the value of a key that does not
    exist.  Time is a natural number; a key is still there at its deadline. -/

/-- A key: its value and the last moment it exists, if it has one. -/
structure ExpiringKey (α : Type) where
  value    : α
  deadline : Option Nat

namespace ExpiringKey

variable {α : Type} [Inhabited α]

def absent : ExpiringKey α := { value := default, deadline := none }

/-- The key as a reader finds it at a time. -/
def expire (key : ExpiringKey α) (now : Nat) : ExpiringKey α :=
  if key.deadline.any (· < now) then absent else key

omit [Inhabited α] in
/-- A write to the key: the deadline stays. -/
def write (key : ExpiringKey α) (value : α) : ExpiringKey α := { key with value := value }

omit [Inhabited α] in
def expireAt (key : ExpiringKey α) (deadline : Nat) : ExpiringKey α :=
  { key with deadline := some deadline }

omit [Inhabited α] in
@[simp] theorem value_write (key : ExpiringKey α) (value : α) : (key.write value).value = value := rfl

omit [Inhabited α] in
@[simp] theorem deadline_write (key : ExpiringKey α) (value : α) :
    (key.write value).deadline = key.deadline := rfl

omit [Inhabited α] in
@[simp] theorem value_expireAt (key : ExpiringKey α) (deadline : Nat) :
    (key.expireAt deadline).value = key.value := rfl

omit [Inhabited α] in
@[simp] theorem deadline_expireAt (key : ExpiringKey α) (deadline : Nat) :
    (key.expireAt deadline).deadline = some deadline := rfl

@[simp] theorem value_absent : (absent : ExpiringKey α).value = default := rfl

@[simp] theorem deadline_absent : (absent : ExpiringKey α).deadline = none := rfl

theorem expire_eq (key : ExpiringKey α) (now : Nat) :
    key.expire now = key ∨ key.expire now = absent ∧ ∃ d ∈ key.deadline, d < now := by
  unfold expire
  split
  · next h =>
    right
    refine ⟨rfl, ?_⟩
    simpa [Option.any_eq_true] using h
  · exact .inl rfl

variable {key : ExpiringKey α}

theorem expire_of_le {now : Nat} (h : ∀ d ∈ key.deadline, now ≤ d) : key.expire now = key := by
  rcases key.expire_eq now with hkey | ⟨-, d, hd, hlt⟩
  · exact hkey
  · have := h d hd
    omega

theorem expire_same {β : Type} [Inhabited β] {key' : ExpiringKey β}
    (h : key.deadline = key'.deadline) (now : Nat) :
    key.expire now = key ∧ key'.expire now = key' ∨
      key.expire now = absent ∧ key'.expire now = absent := by
  unfold expire
  rw [h]
  split
  · exact .inr ⟨rfl, rfl⟩
  · exact .inl ⟨rfl, rfl⟩

end ExpiringKey
