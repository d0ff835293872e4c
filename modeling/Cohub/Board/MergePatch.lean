import Cohub.Lib.Json

/-! # Merge patches

    `mergePatch` and `diffMergePatch` of `packages/protocol/src/board-patch.ts`:
    applying a patch to a JSON value, where `null` removes a member, and
    finding the patch that leads from one value to another.

    `diffMergePatch` reads the members of both objects by name, and a name
    that every object inherits is always found. -/

namespace Cohub.Board

open Fields

/-! ## Inherited members -/

/-- The names of `Object.prototype`'s own properties. -/
def inheritedNames : List String :=
  ["constructor", "__defineGetter__", "__defineSetter__", "hasOwnProperty", "__lookupGetter__",
    "__lookupSetter__", "isPrototypeOf", "propertyIsEnumerable", "toString", "valueOf",
    "__proto__", "toLocaleString"]

/-- Every object has a member of this name. -/
def isInherited (name : String) : Bool := inheritedNames.contains name

/-- What a read by name finds: an own value, else an inherited one. -/
def readMember (own : Option Json) (name : String) : Option Json :=
  match own with
  | some v => some v
  | none => if isInherited name then some (.native name) else none

@[simp] theorem readMember_some (v : Json) (name : String) : readMember (some v) name = some v :=
  rfl

theorem readMember_eq_own {own : Option Json} {name : String} (h : isInherited name = false) :
    readMember own name = own := by
  cases own with
  | some v => rfl
  | none => simp [readMember, h]

/-! ## Model -/

/-- `boardJsonEquals`, on canonical values. -/
def boardJsonEquals (a b : Json) : Bool := decide (a = b)

mutual
def mergePatch (target : Option Json) : Json → Json
  | .obj members => .obj (mergeMembers ((target.map Json.fields).getD []) members)
  | patch => patch
/-- The loop of `mergePatch` over the members of the patch.  Their names are
    distinct, so that the order in which they are written is free. -/
def mergeMembers (target : Fields) : List (String × Json) → Fields
  | [] => target
  | (k, .null) :: rest => Fields.erase (mergeMembers target rest) k
  | (k, v) :: rest => Fields.set (mergeMembers target rest) k (mergePatch (Fields.get? target k) v)
end

/-! ## Members after a merge -/

theorem mergeMembers_cons {target : Fields} {k : String} {v : Json}
    {rest : List (String × Json)} (hv : v ≠ .null) :
    mergeMembers target ((k, v) :: rest) =
      Fields.set (mergeMembers target rest) k (mergePatch (get? target k) v) := by
  cases v with
  | null => exact absurd rfl hv
  | _ => rfl

theorem get?_mergeMembers (target : Fields) (members : Fields) (k : String) :
    get? (mergeMembers target members) k =
      match get? members k with
      | none => get? target k
      | some v => if v = .null then none else some (mergePatch (get? target k) v) := by
  induction members with
  | nil => rfl
  | cons e rest ih =>
    obtain ⟨k₀, v₀⟩ := e
    rw [get?_cons]
    by_cases hv : v₀ = .null
    · subst hv
      show get? (Fields.erase (mergeMembers target rest) k₀) k = _
      rw [get?_erase]
      by_cases hk : k = k₀
      · simp [hk]
      · rw [if_neg hk, if_neg hk, ih]
    · rw [mergeMembers_cons hv, get?_set]
      by_cases hk : k = k₀
      · simp [hk, hv]
      · rw [if_neg hk, if_neg hk, ih]

theorem text_of_mergePatch {patch : Json} {target : Option Json} {path : List String} {t : String}
    (h : (mergePatch target patch).at? path = some (.str t)) :
    patch.at? path = some (.str t) ∨ ∃ c, target = some c ∧ c.at? path = some (.str t) := by
  induction path generalizing patch target with
  | nil =>
    cases patch with
    | obj members => cases h
    | _ => exact .inl h
  | cons k path ih =>
    cases patch with
    | obj members =>
      rw [mergePatch, Json.at?_cons, Json.get?_obj, get?_mergeMembers] at h
      rw [Json.at?_cons, Json.get?_obj]
      have htarget : ∀ w, get? ((target.map Json.fields).getD []) k = some w →
          w.at? path = some (.str t) →
          ∃ c, target = some c ∧ c.at? (k :: path) = some (.str t) := by
        intro w hw ht
        cases target with
        | none => cases hw
        | some c =>
          refine ⟨c, rfl, ?_⟩
          rw [Json.at?_cons]
          show (get? c.fields k).bind _ = _
          rw [show get? c.fields k = some w from hw]
          exact ht
      split at h
      · obtain ⟨w, hw, ht⟩ := Option.bind_eq_some_iff.mp h
        exact .inr (htarget w hw ht)
      · next v hv =>
        split at h
        · cases h
        · rw [Option.bind_some] at h
          rw [hv]
          rcases ih h with h | ⟨c, hc, ht⟩
          · exact .inl h
          · exact .inr (htarget c hc ht)
    | _ => exact .inl h

end Cohub.Board
