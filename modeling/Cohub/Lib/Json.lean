import Mathlib.Data.String.Basic
import Mathlib.Data.Rat.Init
import Mathlib.Tactic.Common
import Cohub.Lib.OrderedMap

/-! # JSON values

    JSON values with unordered objects.  An object is a list of members; the
    writing operations keep the keys strictly ascending, so that two canonical
    values are equal as JSON exactly when they are equal in Lean.  Numbers are
    exact rationals.

    A program that reads a member an object lacks can get a value every object
    inherits (`constructor`, `toString`, ...).  Such a value is no JSON value,
    but it can end up where one is expected: it is a `native`.  No object has
    a member named `__proto__` of its own.

    `Fields` has the operations on member lists (read, write, remove), `Json`
    the tests a dynamically typed program makes, and `Canonical` the
    well-formedness that makes equality of members equality of objects. -/

/-- A JSON value, or a value inherited under the given name. -/
inductive Json where
  | null
  | bool (b : Bool)
  | num (n : Rat)
  | str (s : String)
  | arr (items : List Json)
  | obj (fields : List (String × Json))
  | native (name : String)

instance : Inhabited Json := ⟨.null⟩

namespace Json

/-! ## Induction and decidable equality -/

mutual
/-- Equality of JSON values is decided by comparing them member by member. -/
def decEq : (a b : Json) → Decidable (a = b)
  | .null, .null => isTrue rfl
  | .bool a, .bool b => if h : a = b then isTrue (h ▸ rfl) else isFalse (fun e => h (by injection e))
  | .num a, .num b => if h : a = b then isTrue (h ▸ rfl) else isFalse (fun e => h (by injection e))
  | .str a, .str b => if h : a = b then isTrue (h ▸ rfl) else isFalse (fun e => h (by injection e))
  | .native a, .native b =>
    if h : a = b then isTrue (h ▸ rfl) else isFalse (fun e => h (by injection e))
  | .arr a, .arr b => match decEqItems a b with
    | isTrue h => isTrue (h ▸ rfl)
    | isFalse h => isFalse (fun e => h (by injection e))
  | .obj a, .obj b => match decEqFields a b with
    | isTrue h => isTrue (h ▸ rfl)
    | isFalse h => isFalse (fun e => h (by injection e))
  | .null, .bool _ | .null, .num _ | .null, .str _ | .null, .arr _ | .null, .obj _
  | .bool _, .null | .bool _, .num _ | .bool _, .str _ | .bool _, .arr _ | .bool _, .obj _
  | .num _, .null | .num _, .bool _ | .num _, .str _ | .num _, .arr _ | .num _, .obj _
  | .str _, .null | .str _, .bool _ | .str _, .num _ | .str _, .arr _ | .str _, .obj _
  | .arr _, .null | .arr _, .bool _ | .arr _, .num _ | .arr _, .str _ | .arr _, .obj _
  | .obj _, .null | .obj _, .bool _ | .obj _, .num _ | .obj _, .str _ | .obj _, .arr _
  | .native _, .null | .native _, .bool _ | .native _, .num _ | .native _, .str _
  | .native _, .arr _ | .native _, .obj _ | .null, .native _ | .bool _, .native _
  | .num _, .native _ | .str _, .native _ | .arr _, .native _ | .obj _, .native _ =>
      isFalse nofun
/-- Arrays item by item. -/
def decEqItems : (a b : List Json) → Decidable (a = b)
  | [], [] => isTrue rfl
  | [], _ :: _ | _ :: _, [] => isFalse nofun
  | x :: xs, y :: ys => match decEq x y, decEqItems xs ys with
    | isTrue h, isTrue h' => isTrue (h ▸ h' ▸ rfl)
    | isFalse h, _ => isFalse (fun e => h (by injection e))
    | _, isFalse h => isFalse (fun e => h (by injection e))
/-- Objects member by member. -/
def decEqFields : (a b : List (String × Json)) → Decidable (a = b)
  | [], [] => isTrue rfl
  | [], _ :: _ | _ :: _, [] => isFalse nofun
  | (k, x) :: xs, (k', y) :: ys =>
    match instDecidableEqString k k', decEq x y, decEqFields xs ys with
    | isTrue h, isTrue h', isTrue h'' => isTrue (h ▸ h' ▸ h'' ▸ rfl)
    | isFalse h, _, _ => isFalse (fun e => h (by injection e with e; injection e))
    | _, isFalse h, _ => isFalse (fun e => h (by injection e with e; injection e))
    | _, _, isFalse h => isFalse (fun e => h (by injection e))
end

instance : DecidableEq Json := decEq

end Json

/-- The members of an object. -/
abbrev Fields := List (String × Json)

namespace Fields

/-! ## Member lists -/

/-- The member named `k`. -/
def get? (fs : Fields) (k : String) : Option Json := OrderedMap.lookupEntry k fs

/-- Write the member `k`, before the first larger key. -/
def set (fs : Fields) (k : String) (v : Json) : Fields :=
  match fs with
  | [] => [(k, v)]
  | (k', v') :: rest =>
      if k = k' then (k, v) :: rest
      else if k < k' then (k, v) :: (k', v') :: rest
      else (k', v') :: set rest k v

/-- Write members one after the other. -/
def assign (fs gs : Fields) : Fields := gs.foldl (fun (acc : Fields) e => acc.set e.1 e.2) fs

/-- Remove the member `k`. -/
def erase (fs : Fields) (k : String) : Fields := fs.filter fun e => e.1 ≠ k

def keys (fs : Fields) : List String := fs.map Prod.fst

/-- The keys are strictly ascending. -/
def Sorted (fs : Fields) : Prop := fs.Pairwise fun a b => a.1 < b.1

@[simp] theorem get?_nil (k : String) : get? [] k = none := rfl

theorem get?_cons (k k' : String) (v : Json) (rest : Fields) :
    get? ((k', v) :: rest) k = if k = k' then some v else get? rest k := rfl

theorem get?_set (fs : Fields) (k k' : String) (v : Json) :
    (fs.set k v).get? k' = if k' = k then some v else fs.get? k' := by
  induction fs with
  | nil => simp [set, get?_cons]
  | cons e rest ih =>
    obtain ⟨k₀, v₀⟩ := e
    unfold set
    by_cases hk : k = k₀
    · subst hk
      by_cases hk' : k' = k <;> simp [get?_cons, hk']
    · rw [if_neg hk]
      split
      · simp [get?_cons]
      · rw [get?_cons, ih, get?_cons]
        by_cases h₀ : k' = k₀
        · have hne : k' ≠ k := fun h => hk (h ▸ h₀)
          rw [if_pos h₀, if_neg hne, if_pos h₀]
        · rw [if_neg h₀, if_neg h₀]

@[simp] theorem get?_set_self (fs : Fields) (k : String) (v : Json) :
    (fs.set k v).get? k = some v := by
  rw [get?_set, if_pos rfl]

variable {k : String} {fs : Fields} {v : Json} {k' : String} {gs : Fields} {e : String × Json}

@[simp] theorem get?_set_ne (fs : Fields) (v : Json) (h : k' ≠ k) :
    (fs.set k v).get? k' = fs.get? k' := by
  rw [get?_set, if_neg h]

theorem set_set (fs : Fields) (k : String) (v w : Json) : (fs.set k v).set k w = fs.set k w := by
  induction fs with
  | nil => simp [set]
  | cons e rest ih =>
    obtain ⟨k', v'⟩ := e
    by_cases hk : k = k'
    · simp [set, hk]
    · by_cases hlt : k < k'
      · simp [set, hk, hlt]
      · simp [set, hk, hlt, ih]

theorem get?_assign_of_none (h : gs.get? k = none) : (fs.assign gs).get? k = fs.get? k := by
  induction gs generalizing fs with
  | nil => rfl
  | cons e rest ih =>
    obtain ⟨k', v⟩ := e
    rw [get?_cons] at h
    have hne : k ≠ k' := by
      rintro rfl
      rw [if_pos rfl] at h
      cases h
    rw [if_neg hne] at h
    show (assign (fs.set k' v) rest).get? k = _
    rw [ih h, get?_set_ne fs v hne]

theorem get?_erase (fs : Fields) (k k' : String) :
    (fs.erase k).get? k' = if k' = k then none else fs.get? k' := by
  have h := OrderedMap.lookupEntry_filter (fun k₀ => decide (k₀ ≠ k)) k' fs
  by_cases hk : k' = k
  · simpa [erase, get?, hk] using h
  · simpa [erase, get?, hk] using h

@[simp] theorem get?_erase_self (fs : Fields) (k : String) : (fs.erase k).get? k = none := by
  rw [get?_erase, if_pos rfl]

@[simp] theorem get?_erase_ne (fs : Fields) (h : k' ≠ k) : (fs.erase k).get? k' = fs.get? k' := by
  rw [get?_erase, if_neg h]

/-! ### Sortedness -/

theorem Sorted.tail {e : String × Json} {fs : Fields} (h : Sorted (e :: fs)) : Sorted fs :=
  (List.pairwise_cons.mp h).2

theorem Sorted.head_lt (h : Sorted (e :: fs)) : ∀ e' ∈ fs, e.1 < e'.1 :=
  (List.pairwise_cons.mp h).1

theorem sorted_nil : Sorted [] := List.Pairwise.nil

theorem Sorted.nodup (h : Sorted fs) : (fs.map Prod.fst).Nodup := by
  rw [List.Nodup, List.pairwise_map]
  exact h.imp fun hlt => ne_of_lt hlt

theorem mem_set (h : e ∈ fs.set k v) : e = (k, v) ∨ e ∈ fs := by
  induction fs with
  | nil => exact .inl (List.mem_singleton.mp h)
  | cons e₀ rest ih =>
    obtain ⟨k₀, v₀⟩ := e₀
    unfold set at h
    split at h
    · rcases List.mem_cons.mp h with h | h
      · exact .inl h
      · exact .inr (List.mem_cons_of_mem _ h)
    · split at h
      · rcases List.mem_cons.mp h with h | h
        · exact .inl h
        · exact .inr h
      · rcases List.mem_cons.mp h with h | h
        · exact .inr (h ▸ List.mem_cons_self)
        · rcases ih h with h | h
          · exact .inl h
          · exact .inr (List.mem_cons_of_mem _ h)

theorem sorted_set (h : Sorted fs) (k : String) (v : Json) : Sorted (fs.set k v) := by
  induction fs with
  | nil => exact List.pairwise_singleton _ _
  | cons e₀ rest ih =>
    obtain ⟨k₀, v₀⟩ := e₀
    unfold set
    split
    · next hk =>
      subst hk
      exact List.pairwise_cons.mpr ⟨h.head_lt, h.tail⟩
    · next hk =>
      split
      · next hlt =>
        refine List.pairwise_cons.mpr ⟨?_, h⟩
        intro e he
        rcases List.mem_cons.mp he with rfl | he
        · exact hlt
        · exact lt_trans hlt (h.head_lt e he)
      · next hnlt =>
        have hgt : k₀ < k := lt_of_le_of_ne (not_lt.mp hnlt) (Ne.symm hk)
        refine List.pairwise_cons.mpr ⟨?_, ih h.tail⟩
        intro e he
        rcases mem_set he with rfl | he
        · exact hgt
        · exact h.head_lt e he

theorem mem_of_get? (h : fs.get? k = some v) : (k, v) ∈ fs :=
  OrderedMap.mem_of_lookupEntry h

theorem get?_eq_some_iff (h : Sorted fs) (k : String) (v : Json) :
    fs.get? k = some v ↔ (k, v) ∈ fs :=
  OrderedMap.lookupEntry_eq_some_iff h.nodup k v

theorem get?_eq_none_iff (fs : Fields) (k : String) : fs.get? k = none ↔ k ∉ fs.keys :=
  OrderedMap.lookupEntry_eq_none_iff k fs

theorem mem_keys_iff (fs : Fields) (k : String) : k ∈ fs.keys ↔ ∃ v, fs.get? k = some v := by
  have h := get?_eq_none_iff fs k
  cases hg : fs.get? k with
  | none => simpa using h.mp hg
  | some v =>
    have hne : ¬ fs.get? k = none := by rw [hg]; simp
    simpa using not_not.mp fun hnot => hne (h.mpr hnot)

theorem Sorted.ext (hf : Sorted fs) (hg : Sorted gs)
    (h : ∀ k, fs.get? k = gs.get? k) : fs = gs := by
  have hmem : ∀ e, e ∈ fs ↔ e ∈ gs := by
    intro ⟨k, v⟩
    rw [← get?_eq_some_iff hf, ← get?_eq_some_iff hg, h]
  have hperm : fs.Perm gs := by
    refine (List.perm_ext_iff_of_nodup ?_ ?_).mpr hmem
    · exact List.Nodup.of_map _ hf.nodup
    · exact List.Nodup.of_map _ hg.nodup
  have hasymm : ∀ a b : String × Json, a ∈ fs → b ∈ gs → a.1 < b.1 → b.1 < a.1 → a = b :=
    fun a b _ _ hab hba => absurd (lt_trans hab hba) (lt_irrefl _)
  exact hperm.eq_of_pairwise hasymm hf hg

theorem Sorted.set_eq_self (h : Sorted fs) (hv : fs.get? k = some v) : fs.set k v = fs := by
  refine Sorted.ext (sorted_set h k v) h ?_
  intro k'
  rw [get?_set]
  split
  · next hk => rw [hk, hv]
  · rfl

end Fields

namespace Json

/-! ## Dynamic tests and reads -/

/-- The members of an object, none for any other value. -/
def fields : Json → Fields
  | .obj fs => fs
  | _ => []

/-- The value is an object, not an array or a primitive value. -/
def isRecord : Json → Bool
  | .obj _ => true
  | _ => false

/-- The member `k` of an object. -/
def get? (v : Json) (k : String) : Option Json := v.fields.get? k

/-- The string, if the value is one. -/
def asString? : Json → Option String
  | .str s => some s
  | _ => none

/-- The number, if the value is one. -/
def asNum? : Json → Option Rat
  | .num n => some n
  | _ => none

variable (fs : Fields)

@[simp] theorem fields_obj : (Json.obj fs).fields = fs := rfl

@[simp] theorem get?_obj (k : String) : (Json.obj fs).get? k = fs.get? k := rfl

variable (v : Json)

theorem isRecord_iff : v.isRecord = true ↔ ∃ fs, v = .obj fs := by
  cases v <;> simp [isRecord]

/-! ## Canonical values -/

mutual
/-- A JSON value whose objects all have strictly ascending keys. -/
def Canonical : Json → Prop
  | .arr xs => CanonicalItems xs
  | .obj fs => Fields.Sorted fs ∧ CanonicalFields fs
  | .native _ => False
  | _ => True
/-- Every item is canonical. -/
def CanonicalItems : List Json → Prop
  | [] => True
  | x :: xs => Canonical x ∧ CanonicalItems xs
/-- Every member is canonical. -/
def CanonicalFields : List (String × Json) → Prop
  | [] => True
  | (_, x) :: rest => Canonical x ∧ CanonicalFields rest
end

theorem canonicalFields_iff :
    CanonicalFields fs ↔ ∀ k v, (k, v) ∈ fs → Canonical v := by
  induction fs with
  | nil => simp [CanonicalFields]
  | cons e rest ih =>
    obtain ⟨k, v⟩ := e
    simp only [CanonicalFields, ih, List.mem_cons]
    constructor
    · rintro ⟨hv, hrest⟩ k' v' (h | h)
      · cases h; exact hv
      · exact hrest k' v' h
    · intro h
      exact ⟨h k v (.inl rfl), fun k' v' hm => h k' v' (.inr hm)⟩

theorem canonical_obj_iff :
    Canonical (.obj fs) ↔ Fields.Sorted fs ∧ ∀ k v, fs.get? k = some v → Canonical v := by
  rw [Canonical, canonicalFields_iff]
  constructor
  · rintro ⟨hs, hv⟩
    exact ⟨hs, fun k v h => hv k v (Fields.mem_of_get? h)⟩
  · rintro ⟨hs, hv⟩
    exact ⟨hs, fun k v h => hv k v ((Fields.get?_eq_some_iff hs k v).mpr h)⟩

/-! ## Paths of keys -/

/-- The value found by reading one member after the other. -/
def at? : Json → List String → Option Json
  | v, [] => some v
  | v, k :: path => (v.get? k).bind fun w => at? w path

@[simp] theorem at?_nil : v.at? [] = some v := rfl

theorem at?_cons (k : String) (path : List String) :
    v.at? (k :: path) = (v.get? k).bind fun w => w.at? path := rfl

theorem at?_append (path path' : List String) :
    v.at? (path ++ path') = (v.at? path).bind fun w => w.at? path' := by
  induction path generalizing v with
  | nil => rfl
  | cons k path ih =>
    rw [List.cons_append, at?_cons, at?_cons]
    cases v.get? k with
    | none => rfl
    | some w => exact ih w

end Json
