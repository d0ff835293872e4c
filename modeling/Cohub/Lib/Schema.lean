import Cohub.Lib.Json
import Cohub.Lib.Text

/-! # Schemas and validating parsers

    A schema describes JSON values, and parsing a value against a schema
    either returns the value with its defaults filled in or the list of
    issues, each with the path it is about.  Objects are strict: a member the
    shape does not name is an issue of its own (`unrecognized_keys`), which a
    caller can tell from the others.

    The main fact is that parsing is idempotent: what a parser returns it
    accepts again and returns unchanged (`parse_stable`).  It holds of schemas
    that pass `lawful`, a check that computes: every default is its own parse,
    and no option of a union takes what a later option returns. -/

/-! ## Paths and issues -/

/-- One step into a value: a member of an object or an item of an array. -/
inductive Segment where
  | key (k : String)
  | index (i : Nat)
  deriving DecidableEq

/-- What is wrong, and where.  `keys` are the members of an
    `unrecognized_keys` issue; `message` is empty where the library's own text
    for the code is used. -/
structure Issue where
  code    : String
  path    : List Segment
  keys    : List String
  message : String
  deriving DecidableEq

/-- An issue of the library's own at the value itself. -/
def Issue.ofCode (code : String) : Issue :=
  { code := code, path := [], keys := [], message := "" }

/-- The issue seen from one level up. -/
def Issue.under (s : Segment) (i : Issue) : Issue := { i with path := s :: i.path }

/-- A test on strings with the issue it raises. -/
structure StringCheck where
  ok      : String → Bool
  code    : String
  message : String

/-- A test on numbers with the issue it raises. -/
structure NumberCheck where
  ok   : Rat → Bool
  code : String

namespace StringCheck

/-- At least `n` code units. -/
def min (n : Nat) : StringCheck :=
  { ok := fun s => n ≤ Text.utf16Length s, code := "too_small", message := "" }

/-- At most `n` code units. -/
def max (n : Nat) : StringCheck :=
  { ok := fun s => Text.utf16Length s ≤ n, code := "too_big", message := "" }

end StringCheck

namespace NumberCheck

/-- At least `b`. -/
def min (b : Rat) : NumberCheck := { ok := fun n => b ≤ n, code := "too_small" }

/-- At most `b`. -/
def max (b : Rat) : NumberCheck := { ok := fun n => n ≤ b, code := "too_big" }

/-- Above zero. -/
def positive : NumberCheck := { ok := fun n => 0 < n, code := "too_small" }

/-- Not below zero. -/
def nonnegative : NumberCheck := min 0

/-- An integer that a double represents without a gap to its neighbours. -/
def int : NumberCheck :=
  { ok := fun n => n.den = 1 && decide (-9007199254740991 ≤ n) && decide (n ≤ 9007199254740991)
    code := "invalid_type" }

end NumberCheck

/-! ## Schemas -/

/-- A schema.  `tagged` names the schema below it, so that two occurrences of
    one named schema can be recognised. -/
inductive Schema where
  | unknown
  | json
  | string (checks : List StringCheck)
  | number (checks : List NumberCheck)
  | boolean
  | enum (options : List String)
  | array (item : Schema) (minLength maxLength : Option Nat)
  | object (shape : List (String × Schema))
  | record (keys : List StringCheck) (value : Schema)
  | union (options : List Schema)
  | switch (key : String) (cases : List (String × Schema))
  | optional (inner : Schema)
  | default (inner : Schema) (value : Json)
  | prefault (inner : Schema) (value : Json)
  | refine (inner : Schema) (check : Json → List Issue)
  | tagged (name : String) (inner : Schema)

instance : Inhabited Schema := ⟨.unknown⟩

/-- What a parser returns: the value (absent if the schema lets it be), or
    what is wrong with it. -/
abbrev Parsed := Except (List Issue) (Option Json)

namespace Schema

mutual
/-- No inherited value anywhere inside. -/
def isJson : Json → Bool
  | .native _ => false
  | .arr xs => isJsonItems xs
  | .obj fs => isJsonFields fs
  | _ => true
def isJsonItems : List Json → Bool
  | [] => true
  | x :: xs => isJson x && isJsonItems xs
/-- The same for all members. -/
def isJsonFields : List (String × Json) → Bool
  | [] => true
  | (_, x) :: rest => isJson x && isJsonFields rest
end

/-- The issues of all failing string tests. -/
def stringIssues (checks : List StringCheck) (s : String) : List Issue :=
  (checks.filter fun c => !c.ok s).map fun c => { Issue.ofCode c.code with message := c.message }

/-- The issues of all failing number tests. -/
def numberIssues (checks : List NumberCheck) (n : Rat) : List Issue :=
  (checks.filter fun c => !c.ok n).map fun c => Issue.ofCode c.code

/-- The issues of an array's length. -/
def lengthIssues (minLength maxLength : Option Nat) (n : Nat) : List Issue :=
  (if minLength.all (fun m => m ≤ n) then [] else [Issue.ofCode "too_small"]) ++
    if maxLength.all (fun m => n ≤ m) then [] else [Issue.ofCode "too_big"]

def conclude (value : Json) : List Issue → Parsed
  | [] => .ok (some value)
  | issues => .error issues

/-- The same with issues found after those of the value's parts. -/
def concludeParts (value : Except (List Issue) Json) (issues : List Issue) : Parsed :=
  match value with
  | .ok v => conclude v issues
  | .error earlier => .error (earlier ++ issues)

/-- The issues of a failed parse and of what comes after it. -/
def failWith {α : Type} (issues : List Issue) : Except (List Issue) α → Except (List Issue) α
  | .ok _ => .error issues
  | .error later => .error (issues ++ later)

/-- All items parsed, or the issues of those that did not, counting from `i`. -/
def gatherItems : Nat → List Parsed → Except (List Issue) (List Json)
  | _, [] => .ok []
  | i, .ok y :: rest => (gatherItems (i + 1) rest).map (y.getD .null :: ·)
  | i, .error issues :: rest =>
      failWith (issues.map (Issue.under (.index i))) (gatherItems (i + 1) rest)

/-- All members parsed, or the issues of those that did not. -/
def gatherFields : List (String × Parsed) → Except (List Issue) Fields
  | [] => .ok []
  | (k, .ok (some y)) :: rest => (gatherFields rest).map fun fs => Fields.set fs k y
  | (_, .ok none) :: rest => gatherFields rest
  | (k, .error issues) :: rest =>
      failWith (issues.map (Issue.under (.key k))) (gatherFields rest)

/-- The issue of a key that fails the tests for keys. -/
def keyIssues (checks : List StringCheck) (fs : Fields) : List Issue :=
  (fs.keys.filter fun k => !(stringIssues checks k).isEmpty).map fun k =>
    (Issue.ofCode "invalid_key").under (.key k)

/-- The issue of the members a shape does not name. -/
def unrecognized (names : List String) (fs : Fields) : List Issue :=
  match fs.keys.filter fun k => !names.contains k with
  | [] => []
  | keys => [{ Issue.ofCode "unrecognized_keys" with keys := keys }]

/-- The first option that accepts. -/
def firstOk : List Parsed → Parsed
  | [] => .error [Issue.ofCode "invalid_union"]
  | .ok y :: _ => .ok y
  | .error _ :: rest => firstOk rest

mutual
/-- Parse a value, or its absence, against a schema. -/
def parse : Schema → Option Json → Parsed
  | .unknown, x => .ok x
  | .json, some v => if isJson v then .ok (some v) else .error [Issue.ofCode "invalid_union"]
  | .json, none => .error [Issue.ofCode "invalid_union"]
  | .string checks, some (.str s) => conclude (.str s) (stringIssues checks s)
  | .string _, _ => .error [Issue.ofCode "invalid_type"]
  | .number checks, some (.num n) => conclude (.num n) (numberIssues checks n)
  | .number _, _ => .error [Issue.ofCode "invalid_type"]
  | .boolean, some (.bool b) => .ok (some (.bool b))
  | .boolean, _ => .error [Issue.ofCode "invalid_type"]
  | .enum options, some (.str s) =>
      if options.contains s then .ok (some (.str s)) else .error [Issue.ofCode "invalid_value"]
  | .enum _, _ => .error [Issue.ofCode "invalid_value"]
  | .array item minLength maxLength, some (.arr xs) =>
      concludeParts ((gatherItems 0 (xs.map fun x => parse item (some x))).map .arr)
        (lengthIssues minLength maxLength xs.length)
  | .array _ _ _, _ => .error [Issue.ofCode "invalid_type"]
  | .object shape, some (.obj fs) =>
      concludeParts ((gatherFields (parseShape shape fs)).map .obj)
        (unrecognized (shape.map Prod.fst) fs)
  | .object _, _ => .error [Issue.ofCode "invalid_type"]
  | .record keys value, some (.obj fs) =>
      concludeParts ((gatherFields (fs.map fun e => (e.1, parse value (some e.2)))).map .obj)
        (keyIssues keys fs)
  | .record _ _, _ => .error [Issue.ofCode "invalid_type"]
  | .union options, x => firstOk (parseOptions options x)
  | .switch key cases, some (.obj fs) =>
      match Fields.get? fs key with
      | some (.str t) => parseCase t cases (some (.obj fs))
      | _ => .error [Issue.ofCode "invalid_union"]
  | .switch _ _, _ => .error [Issue.ofCode "invalid_type"]
  | .optional _, none => .ok none
  | .optional inner, some v => parse inner (some v)
  | .default _ value, none => .ok (some value)
  | .default inner _, some v => parse inner (some v)
  | .prefault inner value, none => parse inner (some value)
  | .prefault inner _, some v => parse inner (some v)
  | .refine inner check, x =>
      match parse inner x with
      | .ok (some y) => conclude y (check y)
      | r => r
  | .tagged _ inner, x => parse inner x
/-- Parse the members a shape names. -/
def parseShape : List (String × Schema) → Fields → List (String × Parsed)
  | [], _ => []
  | (k, s) :: rest, fs => (k, parse s (fs.get? k)) :: parseShape rest fs
/-- Parse with every option. -/
def parseOptions : List Schema → Option Json → List Parsed
  | [], _ => []
  | s :: rest, x => parse s x :: parseOptions rest x
/-- Parse with the case filed under `t`. -/
def parseCase : String → List (String × Schema) → Option Json → Parsed
  | _, [], _ => .error [Issue.ofCode "invalid_union"]
  | t, (k, s) :: rest, x => if t = k then parse s x else parseCase t rest x
end

section

-- The equations are derived here, once for all the proofs below.
attribute [local simp] parse parseShape parseOptions parseCase

end

end Schema

namespace Schema

/-! ## What a successful parse says -/

@[elab_as_elim]
theorem inductionOn {motive : Schema → Prop} (unknown : motive .unknown) (json : motive .json)
    (string : ∀ cs, motive (.string cs)) (number : ∀ cs, motive (.number cs))
    (boolean : motive .boolean) (enum : ∀ os, motive (.enum os))
    (array : ∀ s lo hi, motive s → motive (.array s lo hi))
    (object : ∀ shape, (∀ e ∈ shape, motive e.2) → motive (.object shape))
    (record : ∀ ks v, motive v → motive (.record ks v))
    (union : ∀ os, (∀ s ∈ os, motive s) → motive (.union os))
    (switch : ∀ k cs, (∀ e ∈ cs, motive e.2) → motive (.switch k cs))
    (optional : ∀ s, motive s → motive (.optional s))
    (default : ∀ s v, motive s → motive (.default s v))
    (prefault : ∀ s v, motive s → motive (.prefault s v))
    (refine : ∀ s c, motive s → motive (.refine s c))
    (tagged : ∀ n s, motive s → motive (.tagged n s)) (s : Schema) : motive s := by
  refine Schema.rec (motive_1 := motive) (motive_2 := fun shape => ∀ e ∈ shape, motive e.2)
    (motive_3 := fun os => ∀ s ∈ os, motive s) (motive_4 := fun e => motive e.2)
    unknown json string number boolean enum array object record union switch optional default
    prefault refine tagged ?_ ?_ ?_ ?_ ?_ s
  · intro e he; cases he
  · intro e shape he hshape e' he'
    rcases List.mem_cons.mp he' with rfl | he'
    · exact he
    · exact hshape e' he'
  · intro s hs; cases hs
  · intro s os hs hos s' hs'
    rcases List.mem_cons.mp hs' with rfl | hs'
    · exact hs
    · exact hos s' hs'
  · intro k s hs; exact hs

/-! ### A failed parse has issues -/

theorem conclude_ne_error_nil (v : Json) (issues : List Issue) : conclude v issues ≠ .error [] := by
  cases issues <;> simp [conclude]

variable {v : Except (List Issue) Json}

theorem concludeParts_ne_error_nil (hv : v ≠ .error [])
    (issues : List Issue) : concludeParts v issues ≠ .error [] := by
  cases v with
  | ok w => exact conclude_ne_error_nil w issues
  | error earlier =>
    intro h
    have hnil : earlier ++ issues = [] := by simpa [concludeParts] using h
    exact hv (by rw [(List.append_eq_nil_iff.mp hnil).1])

variable {α : Type} {issues : List Issue} {l : List (String × Parsed)} {r x : Option Json}
    {t : String} {cases shape : List (String × Schema)} {s : Schema} {fs : Fields} {y : Json}
    {path : List String}

theorem failWith_ne_error_nil (h : issues ≠ [])
    (later : Except (List Issue) α) : failWith issues later ≠ .error [] := by
  cases later <;> simp [failWith, h]

variable {β : Type} {f : α → β} {options before later : List Schema} {out : Fields} {k : String}
    {keys : List StringCheck} {value : Schema}

theorem map_ne_error_nil {v : Except (List Issue) α} (h : v ≠ .error []) : v.map f ≠ .error [] := by
  cases v with
  | ok a => simp [Except.map]
  | error issues => simpa [Except.map] using h

theorem gatherItems_ne_error_nil {l : List Parsed} (h : ∀ r ∈ l, r ≠ .error []) (i : Nat) :
    gatherItems i l ≠ .error [] := by
  induction l generalizing i with
  | nil => simp [gatherItems]
  | cons r rest ih =>
    have hrest := fun i => ih (fun r hr => h r (List.mem_cons_of_mem _ hr)) i
    have hr := h r List.mem_cons_self
    cases r with
    | ok y => exact map_ne_error_nil (hrest (i + 1))
    | error issues =>
      apply failWith_ne_error_nil
      intro hnil
      exact hr (by rw [List.map_eq_nil_iff.mp hnil])

theorem gatherFields_ne_error_nil (h : ∀ e ∈ l, e.2 ≠ .error []) : gatherFields l ≠ .error [] := by
  induction l with
  | nil => simp [gatherFields]
  | cons e rest ih =>
    have hrest := ih (fun e he => h e (List.mem_cons_of_mem _ he))
    have he := h e List.mem_cons_self
    obtain ⟨k, r⟩ := e
    cases r with
    | ok y =>
      cases y with
      | none => exact hrest
      | some y => exact map_ne_error_nil hrest
    | error issues =>
      apply failWith_ne_error_nil
      intro hnil
      exact he (by rw [List.map_eq_nil_iff.mp hnil])

theorem conclude_eq_ok {v : Json} : conclude v issues = .ok r ↔ issues = [] ∧ r = some v := by
  cases issues with
  | nil => simp [conclude, eq_comm]
  | cons i is => simp [conclude]

theorem concludeParts_eq_ok :
    concludeParts v issues = .ok r ↔ ∃ w, v = .ok w ∧ issues = [] ∧ r = some w := by
  cases v with
  | ok w => simp [concludeParts, conclude_eq_ok]
  | error is => simp [concludeParts]

theorem failWith_ne_ok {later : Except (List Issue) α} {a : α} : failWith issues later ≠ .ok a := by
  cases later <;> simp [failWith]

theorem map_eq_ok {ε : Type} {v : Except ε α} {b : β} :
    v.map f = .ok b ↔ ∃ a, v = .ok a ∧ f a = b := by
  cases v <;> simp [Except.map]

theorem parseShape_eq (shape : List (String × Schema)) (fs : Fields) :
    parseShape shape fs = shape.map fun e => (e.1, parse e.2 (fs.get? e.1)) := by
  induction shape with
  | nil => rfl
  | cons e rest ih => rw [parseShape, ih]; rfl

theorem parseOptions_eq (options : List Schema) (x : Option Json) :
    parseOptions options x = options.map fun s => parse s x := by
  induction options with
  | nil => rfl
  | cons s rest ih => rw [parseOptions, ih]; rfl

theorem parseCase_eq_ok (h : parseCase t cases x = .ok r) :
    ∃ s, (t, s) ∈ cases ∧ parse s x = .ok r ∧ ∀ x', parseCase t cases x' = parse s x' := by
  induction cases with
  | nil => cases h
  | cons e rest ih =>
    obtain ⟨k, s⟩ := e
    rw [parseCase] at h
    split at h
    · next hk =>
      exact ⟨s, by rw [hk]; exact List.mem_cons_self, h, fun x' => by rw [parseCase, if_pos hk]⟩
    · next hk =>
      obtain ⟨s', hs', hp, hall⟩ := ih h
      refine ⟨s', List.mem_cons_of_mem _ hs', hp, fun x' => ?_⟩
      rw [parseCase, if_neg hk, hall]

theorem parseCase_ne_error_nil
    (h : ∀ e ∈ cases, parse e.2 x ≠ .error []) (t : String) : parseCase t cases x ≠ .error [] := by
  induction cases with
  | nil => simp [parseCase]
  | cons e rest ih =>
    rw [parseCase]
    split
    · exact h e List.mem_cons_self
    · exact ih fun e he => h e (List.mem_cons_of_mem _ he)

theorem firstOk_ne_error_nil (l : List Parsed) : firstOk l ≠ .error [] := by
  induction l with
  | nil => simp [firstOk]
  | cons r rest ih =>
    cases r with
    | ok y => simp [firstOk]
    | error issues => exact ih

theorem parse_ne_error_nil (s : Schema) : ∀ x, s.parse x ≠ .error [] := by
  induction s using inductionOn with
  | unknown => simp [parse]
  | json =>
    rintro (_ | v)
    · simp [parse]
    · rw [parse]
      split <;> simp
  | string checks =>
    rintro (_ | _ | _ | _ | s | _ | _ | _)
    case some.str => exact conclude_ne_error_nil _ _
    all_goals simp [parse]
  | number checks =>
    rintro (_ | _ | _ | n | _ | _ | _ | _)
    case some.num => exact conclude_ne_error_nil _ _
    all_goals simp [parse]
  | boolean =>
    rintro (_ | _ | _ | _ | _ | _ | _ | _)
    all_goals simp [parse]
  | enum options =>
    rintro (_ | _ | _ | _ | s | _ | _ | _)
    case some.str =>
      rw [parse]
      split <;> simp
    all_goals simp [parse]
  | array item lo hi ih =>
    rintro (_ | _ | _ | _ | _ | xs | _ | _)
    case some.arr =>
      rw [parse]
      apply concludeParts_ne_error_nil
      apply map_ne_error_nil
      apply gatherItems_ne_error_nil
      intro r hr
      obtain ⟨x, -, rfl⟩ := List.mem_map.mp hr
      exact ih (some x)
    all_goals simp [parse]
  | object shape ih =>
    rintro (_ | _ | _ | _ | _ | _ | fs | _)
    case some.obj =>
      rw [parse, parseShape_eq]
      apply concludeParts_ne_error_nil
      apply map_ne_error_nil
      apply gatherFields_ne_error_nil
      intro r hr
      obtain ⟨e, he, rfl⟩ := List.mem_map.mp hr
      exact ih e he _
    all_goals simp [parse]
  | record keys value ih =>
    rintro (_ | _ | _ | _ | _ | _ | fs | _)
    case some.obj =>
      rw [parse]
      apply concludeParts_ne_error_nil
      apply map_ne_error_nil
      apply gatherFields_ne_error_nil
      intro r hr
      obtain ⟨e, -, rfl⟩ := List.mem_map.mp hr
      exact ih (some e.2)
    all_goals simp [parse]
  | union options ih =>
    intro x
    exact firstOk_ne_error_nil _
  | switch key cases ih =>
    rintro (_ | _ | _ | _ | _ | _ | fs | _)
    case some.obj =>
      rw [parse]
      split
      · exact parseCase_ne_error_nil (fun e he => ih e he _) _
      · simp
    all_goals simp [parse]
  | optional inner ih =>
    rintro (_ | v)
    · simp [parse]
    · exact ih (some v)
  | default inner value ih =>
    rintro (_ | v)
    · simp [parse]
    · exact ih (some v)
  | prefault inner value ih =>
    rintro (_ | v)
    · exact ih (some value)
    · exact ih (some v)
  | refine inner check ih =>
    intro x
    rw [parse]
    split
    · exact conclude_ne_error_nil _ _
    · exact ih x
  | tagged name inner ih => exact ih

theorem firstOk_map_eq_ok (h : firstOk (options.map fun s => parse s x) = .ok r) :
    ∃ before s later, options = before ++ s :: later ∧ parse s x = .ok r := by
  induction options with
  | nil => cases h
  | cons s rest ih =>
    rw [List.map_cons] at h
    cases hp : parse s x with
    | ok y =>
      rw [hp] at h
      cases h
      exact ⟨[], s, rest, rfl, hp⟩
    | error is =>
      rw [hp] at h
      obtain ⟨before, s', later, heq, hs'⟩ := ih h
      exact ⟨s :: before, s', later, by rw [heq]; rfl, hs'⟩

theorem firstOk_map_append (hbefore : ∀ s' ∈ before, ∀ r', parse s' x ≠ .ok r')
    (hs : parse s x = .ok r) : firstOk ((before ++ s :: later).map fun s => parse s x) = .ok r := by
  induction before with
  | nil => simp [hs, firstOk]
  | cons s' rest ih =>
    have hrest := ih fun s'' hs'' => hbefore s'' (List.mem_cons_of_mem _ hs'')
    cases hp : parse s' x with
    | ok y => exact absurd hp (hbefore s' List.mem_cons_self y)
    | error is =>
      rw [List.cons_append, List.map_cons, hp]
      exact hrest

theorem gatherFields_eq_ok (h : gatherFields l = .ok out) (hnodup : (l.map Prod.fst).Nodup) :
    Fields.Sorted out ∧ (∀ k p, (k, p) ∈ l → p = .ok (out.get? k)) ∧
      ∀ k, k ∉ l.map Prod.fst → out.get? k = none := by
  induction l generalizing out with
  | nil =>
    cases h
    exact ⟨Fields.sorted_nil, by simp, fun k _ => rfl⟩
  | cons e rest ih =>
    obtain ⟨k₀, p₀⟩ := e
    have hcons : k₀ ∉ rest.map Prod.fst ∧ (rest.map Prod.fst).Nodup := by simpa using hnodup
    have hrest : ∀ {k p}, (k, p) ∈ rest → k ≠ k₀ := fun hm heq =>
      hcons.1 (heq ▸ List.mem_map_of_mem (f := Prod.fst) hm)
    match p₀ with
    | .error is => exact absurd h failWith_ne_ok
    | .ok none =>
      obtain ⟨hs, hin, hout⟩ := ih h hcons.2
      refine ⟨hs, ?_, fun k hk => hout k (fun hm => hk (by simp [hm]))⟩
      intro k p hm
      rcases List.mem_cons.mp hm with heq | hm
      · cases heq
        rw [hout k₀ hcons.1]
      · exact hin k p hm
    | .ok (some y) =>
      obtain ⟨later, hlater, rfl⟩ := map_eq_ok.mp h
      obtain ⟨hs, hin, hout⟩ := ih hlater hcons.2
      refine ⟨Fields.sorted_set hs k₀ y, ?_, ?_⟩
      · intro k p hm
        rcases List.mem_cons.mp hm with heq | hm
        · cases heq
          rw [Fields.get?_set_self]
        · rw [Fields.get?_set_ne _ _ (hrest hm)]
          exact hin k p hm
      · intro k hk
        have hne : k ≠ k₀ := fun heq => hk (by simp [heq])
        rw [Fields.get?_set_ne _ _ hne]
        exact hout k (fun hm => hk (by simp [hm]))

theorem parse_object_eq_ok (hnodup : (shape.map Prod.fst).Nodup)
    (h : parse (.object shape) x = .ok r) :
    ∃ fs out : Fields, x = some (.obj fs) ∧ r = some (.obj out) ∧ Fields.Sorted out ∧
      (∀ k ∈ fs.keys, k ∈ shape.map Prod.fst) ∧
      (∀ k s, (k, s) ∈ shape → parse s (fs.get? k) = .ok (out.get? k)) ∧
      ∀ k, k ∉ shape.map Prod.fst → out.get? k = none := by
  match x with
  | some (.obj fs) =>
    rw [parse, concludeParts_eq_ok] at h
    obtain ⟨w, hw, hunrec, rfl⟩ := h
    obtain ⟨out, hout, rfl⟩ := map_eq_ok.mp hw
    rw [parseShape_eq] at hout
    have hkeys : (shape.map fun e => (e.1, parse e.2 (Fields.get? fs e.1))).map Prod.fst =
        shape.map Prod.fst := by simp [Function.comp_def]
    obtain ⟨hs, hin, hnone⟩ := gatherFields_eq_ok hout (by rw [hkeys]; exact hnodup)
    refine ⟨fs, out, rfl, rfl, hs, ?_, ?_, ?_⟩
    · intro k hk
      unfold unrecognized at hunrec
      split at hunrec
      · next hfilter =>
        have hall := List.filter_eq_nil_iff.mp hfilter k hk
        simpa using hall
      · cases hunrec
    · intro k s hm
      exact hin k _ (List.mem_map.mpr ⟨(k, s), hm, rfl⟩)
    · intro k hk
      exact hnone k (by rw [hkeys]; exact hk)
  | none | some .null | some (.bool _) | some (.num _) | some (.str _) | some (.arr _)
  | some (.native _) => simp [parse] at h

theorem gatherItems_eq_ok {l : List Parsed} {i : Nat} {out : List Json}
    (h : gatherItems i l = .ok out) :
    ∃ rs : List (Option Json), l = rs.map .ok ∧ out = rs.map fun y => y.getD .null := by
  induction l generalizing i out with
  | nil => cases h; exact ⟨[], rfl, rfl⟩
  | cons p rest ih =>
    match p with
    | .error is => exact absurd h failWith_ne_ok
    | .ok y =>
      obtain ⟨later, hlater, rfl⟩ := map_eq_ok.mp h
      obtain ⟨rs, rfl, rfl⟩ := ih hlater
      exact ⟨y :: rs, rfl, rfl⟩

theorem gatherItems_ok (rs : List (Option Json)) (i : Nat) :
    gatherItems i (rs.map .ok) = .ok (rs.map fun y => y.getD .null) := by
  induction rs generalizing i with
  | nil => rfl
  | cons y rest ih => simp [gatherItems, ih, Except.map]

theorem parse_array_eq_ok {item : Schema} {lo hi : Option Nat}
    (h : parse (.array item lo hi) x = .ok r) :
    ∃ (xs : List Json) (rs : List (Option Json)), x = some (.arr xs) ∧
      xs.map (fun x => parse item (some x)) = rs.map .ok ∧
      lengthIssues lo hi xs.length = [] ∧ r = some (.arr (rs.map fun y => y.getD .null)) := by
  match x with
  | some (.arr xs) =>
    rw [parse, concludeParts_eq_ok] at h
    obtain ⟨w, hw, hlen, rfl⟩ := h
    obtain ⟨out, hout, rfl⟩ := map_eq_ok.mp hw
    obtain ⟨rs, hrs, rfl⟩ := gatherItems_eq_ok hout
    exact ⟨xs, rs, rfl, hrs, hlen, rfl⟩
  | none | some .null | some (.bool _) | some (.num _) | some (.str _) | some (.obj _)
  | some (.native _) => simp [parse] at h

theorem parse_some_ne_none (s : Schema) : ∀ v : Json, parse s (some v) ≠ .ok none := by
  induction s using inductionOn with
  | unknown => intro v; simp [parse]
  | json => intro v; rw [parse]; split <;> simp
  | string cs =>
    intro v h
    cases v <;> simp [parse, conclude_eq_ok] at h
  | number cs =>
    intro v h
    cases v <;> simp [parse, conclude_eq_ok] at h
  | boolean => intro v h; cases v <;> simp [parse] at h
  | enum os =>
    intro v h
    cases v <;> simp [parse] at h
    split at h <;> cases h
  | array s lo hi ih =>
    intro v h
    obtain ⟨xs, rs, _, _, _, hr⟩ := parse_array_eq_ok h
    cases hr
  | object shape ih =>
    intro v h
    cases v <;> simp [parse, concludeParts_eq_ok] at h
  | record ks v' ih =>
    intro v h
    cases v <;> simp [parse, concludeParts_eq_ok] at h
  | union os ih =>
    intro v h
    rw [parse, parseOptions_eq] at h
    obtain ⟨before, s, later, rfl, hs⟩ := firstOk_map_eq_ok h
    exact ih s (by simp) v hs
  | switch k cs ih =>
    intro v h
    cases v with
    | obj fs =>
      rw [parse] at h
      split at h
      · obtain ⟨s, hs, hp, _⟩ := parseCase_eq_ok h
        exact ih _ hs _ hp
      · cases h
    | _ => simp [parse] at h
  | optional s ih => intro v; exact ih v
  | default s w ih => intro v; exact ih v
  | prefault s w ih => intro v; exact ih v
  | refine s c ih =>
    intro v h
    rw [parse] at h
    split at h
    · simp [conclude_eq_ok] at h
    · next hne =>
      cases hp : parse s (some v) with
      | ok y =>
        cases y with
        | none => exact ih v hp
        | some w => exact hne w hp
      | error is => rw [hp] at h; cases h
  | tagged n s ih => intro v; exact ih v

theorem gatherFields_total (h : ∀ e ∈ l, ∃ r, e.2 = .ok r) : ∃ out, gatherFields l = .ok out := by
  induction l with
  | nil => exact ⟨[], rfl⟩
  | cons e rest ih =>
    obtain ⟨later, hlater⟩ := ih fun e' he' => h e' (List.mem_cons_of_mem _ he')
    obtain ⟨k, p⟩ := e
    obtain ⟨r, hr⟩ := h (k, p) List.mem_cons_self
    have hp : p = .ok r := hr
    subst hp
    cases r with
    | none => exact ⟨later, hlater⟩
    | some y => exact ⟨Fields.set later k y, by simp [gatherFields, hlater, Except.map]⟩

theorem lookup_of_gatherFields (h : gatherFields l = .ok out) (hsome : ∀ e ∈ l, e.2 ≠ .ok none) :
    Fields.Sorted out ∧ ∀ k v, Fields.get? out k = some v →
      OrderedMap.lookupEntry k l = some (Except.ok (some v)) := by
  induction l generalizing out with
  | nil => cases h; exact ⟨Fields.sorted_nil, fun k v hv => by cases hv⟩
  | cons e rest ih =>
    obtain ⟨k₀, p₀⟩ := e
    match p₀ with
    | .error is => exact absurd h failWith_ne_ok
    | .ok none => exact absurd rfl (hsome _ List.mem_cons_self)
    | .ok (some y) =>
      obtain ⟨later, hlater, rfl⟩ := map_eq_ok.mp h
      obtain ⟨hs, hlookup⟩ := ih hlater fun e he => hsome e (List.mem_cons_of_mem _ he)
      refine ⟨Fields.sorted_set hs k₀ y, ?_⟩
      intro k v hv
      rw [Fields.get?_set] at hv
      rw [OrderedMap.lookupEntry]
      split at hv
      · next hk => cases hv; rw [if_pos hk]
      · next hk => rw [if_neg hk]; exact hlookup k v hv

theorem parse_object_self (hnodup : (shape.map Prod.fst).Nodup) (hs : Fields.Sorted fs)
    (hkeys : ∀ k ∈ fs.keys, k ∈ shape.map Prod.fst)
    (hself : ∀ k s, (k, s) ∈ shape → parse s (fs.get? k) = .ok (fs.get? k)) :
    parse (.object shape) (some (.obj fs)) = .ok (some (.obj fs)) := by
  have hshape : (parseShape shape fs).map Prod.fst = shape.map Prod.fst := by
    rw [parseShape_eq]; simp [Function.comp_def]
  have hall : ∀ e ∈ parseShape shape fs, e.2 = .ok (fs.get? e.1) := by
    intro e he
    rw [parseShape_eq] at he
    obtain ⟨⟨k, s⟩, hm, rfl⟩ := List.mem_map.mp he
    exact hself k s hm
  obtain ⟨out, hout⟩ := gatherFields_total fun e he => ⟨_, hall e he⟩
  obtain ⟨houtSorted, hin, hnone⟩ := gatherFields_eq_ok hout (by rw [hshape]; exact hnodup)
  have heq : out = fs := by
    refine Fields.Sorted.ext houtSorted hs fun k => ?_
    by_cases hk : k ∈ shape.map Prod.fst
    · rw [← hshape] at hk
      obtain ⟨e, he, rfl⟩ := List.mem_map.mp hk
      have h₁ := hin e.1 e.2 he
      rw [hall e he] at h₁
      exact (Except.ok.inj h₁).symm
    · rw [hnone k (by rw [hshape]; exact hk)]
      symm
      rw [Fields.get?_eq_none_iff]
      exact fun hm => hk (hkeys k hm)
  have hunrec : unrecognized (shape.map Prod.fst) fs = [] := by
    unfold unrecognized
    rw [List.filter_eq_nil_iff.mpr]
    intro k hk
    simpa using hkeys k hk
  rw [parse, hout, heq, hunrec]
  rfl

theorem parse_object_set (hnodup : (shape.map Prod.fst).Nodup)
    (hself : parse (.object shape) (some (.obj fs)) = .ok (some (.obj fs)))
    (hmem : (k, s) ∈ shape) {v : Json} (hv : parse s (some v) = .ok (some v)) :
    parse (.object shape) (some (.obj (fs.set k v))) = .ok (some (.obj (fs.set k v))) := by
  obtain ⟨fs', out, hfs, hout, hs, hkeys, hin, -⟩ := parse_object_eq_ok hnodup hself
  cases hfs
  cases hout
  refine parse_object_self hnodup (Fields.sorted_set hs k v) ?_ ?_
  · intro k' hk'
    obtain ⟨w, hw⟩ := (Fields.mem_keys_iff _ k').mp hk'
    by_cases hk : k' = k
    · rw [hk]
      exact List.mem_map.mpr ⟨(k, s), hmem, rfl⟩
    · rw [Fields.get?_set_ne _ _ hk] at hw
      exact hkeys k' ((Fields.mem_keys_iff _ k').mpr ⟨w, hw⟩)
  · intro k' s' hmem'
    by_cases hk : k' = k
    · subst hk
      have hs' : s' = s := by
        have h := List.inj_on_of_nodup_map hnodup hmem' hmem rfl
        exact congrArg Prod.snd h
      rw [hs', Fields.get?_set_self]
      exact hv
    · rw [Fields.get?_set_ne _ _ hk]
      exact hin k' s' hmem'

theorem parse_record_eq_ok (h : parse (.record keys value) x = .ok r) :
    ∃ fs out : Fields, x = some (.obj fs) ∧ r = some (.obj out) ∧ Fields.Sorted out ∧
      (∀ k ∈ fs.keys, stringIssues keys k = []) ∧
      ∀ k v, out.get? k = some v →
        ∃ w, fs.get? k = some w ∧ parse value (some w) = .ok (some v) := by
  match x with
  | some (.obj fs) =>
    rw [parse, concludeParts_eq_ok] at h
    obtain ⟨w, hw, hkeys, rfl⟩ := h
    obtain ⟨out, hout, rfl⟩ := map_eq_ok.mp hw
    have hsome : ∀ e ∈ fs.map (fun e => (e.1, parse value (some e.2))), e.2 ≠ .ok none := by
      intro e he
      obtain ⟨e', -, rfl⟩ := List.mem_map.mp he
      exact parse_some_ne_none value e'.2
    obtain ⟨hs, hlookup⟩ := lookup_of_gatherFields hout hsome
    refine ⟨fs, out, rfl, rfl, hs, ?_, ?_⟩
    · intro k hk
      have hnil := List.map_eq_nil_iff.mp hkeys
      have hall := List.filter_eq_nil_iff.mp hnil k hk
      simpa using hall
    · intro k v hv
      have hl := hlookup k v hv
      rw [OrderedMap.lookupEntry_map (fun _ w => parse value (some w))] at hl
      obtain ⟨w, hw, hp⟩ := Option.map_eq_some_iff.mp hl
      exact ⟨w, hw, hp⟩
  | none | some .null | some (.bool _) | some (.num _) | some (.str _) | some (.arr _)
  | some (.native _) => simp [parse] at h

theorem parse_record_self (hs : Fields.Sorted fs) (hkeys : ∀ k ∈ fs.keys, stringIssues keys k = [])
    (hself : ∀ k v, fs.get? k = some v → parse value (some v) = .ok (some v)) :
    parse (.record keys value) (some (.obj fs)) = .ok (some (.obj fs)) := by
  have hall : ∀ e ∈ fs.map (fun e => (e.1, parse value (some e.2))),
      e.2 = .ok (fs.get? e.1) := by
    intro e he
    obtain ⟨⟨k, v⟩, hm, rfl⟩ := List.mem_map.mp he
    have hget := (Fields.get?_eq_some_iff hs k v).mpr hm
    rw [hself k v hget, hget]
  obtain ⟨out, hout⟩ := gatherFields_total fun e he => ⟨_, hall e he⟩
  have hmap : (fs.map fun e => (e.1, parse value (some e.2))).map Prod.fst = fs.map Prod.fst := by
    simp [Function.comp_def]
  obtain ⟨houtSorted, hin, hnone⟩ := gatherFields_eq_ok hout (by rw [hmap]; exact hs.nodup)
  have heq : out = fs := by
    refine Fields.Sorted.ext houtSorted hs fun k => ?_
    by_cases hk : k ∈ fs.map Prod.fst
    · rw [← hmap] at hk
      obtain ⟨e, he, rfl⟩ := List.mem_map.mp hk
      have h₁ := hin e.1 e.2 he
      rw [hall e he] at h₁
      exact (Except.ok.inj h₁).symm
    · rw [hnone k (by rw [hmap]; exact hk)]
      exact ((Fields.get?_eq_none_iff fs k).mpr hk).symm
  have hissues : keyIssues keys fs = [] := by
    unfold keyIssues
    rw [List.filter_eq_nil_iff.mpr, List.map_nil]
    intro k hk
    simpa using hkeys k hk
  rw [parse, hout, heq, hissues]
  rfl

/-! ## Lawful schemas -/

/-- The kinds of JSON values a schema can be about. -/
inductive Kind where
  | bool | num | str | arr | obj
  deriving DecidableEq

def kindOfValue : Json → Option Kind
  | .bool _ => some .bool
  | .num _ => some .num
  | .str _ => some .str
  | .arr _ => some .arr
  | .obj _ => some .obj
  | _ => none

/-- The one kind of value a schema takes and returns, where there is one. -/
def kind : Schema → Option Kind
  | .string _ | .enum _ => some .str
  | .number _ => some .num
  | .boolean => some .bool
  | .array _ _ _ => some .arr
  | .object _ | .record _ _ => some .obj
  | .refine inner _ | .tagged _ inner => kind inner
  | _ => none

/-- The members an object schema names, through the names put on it. -/
def shapeOf : Schema → Option (List (String × Schema))
  | .object shape => some shape
  | .tagged _ inner => shapeOf inner
  | _ => none

/-- The schema has no value for an absent member. -/
def required (s : Schema) : Bool :=
  match parse s none with
  | .ok _ => false
  | .error _ => true

/-- Both members have finitely many values, and none in common. -/
def apart : Schema → Schema → Bool
  | .enum as, .enum bs => as.all fun a => !bs.contains a
  | _, _ => false

/-- Nothing the second object schema returns is taken by the first: a member
    that is always there is unknown to it, or a discriminator differs. -/
def shapesApart (a b : List (String × Schema)) : Bool :=
  b.any fun e =>
    (e.2.required && !(a.map Prod.fst).contains e.1) ||
      a.any fun e' => e'.1 = e.1 && apart e'.2 e.2

/-- Nothing that `b` returns is taken by `a`. -/
def rejects (a b : Schema) : Bool :=
  match a.kind, b.kind with
  | some ka, some kb =>
      if ka = kb then
        match shapeOf a, shapeOf b with
        | some sa, some sb => shapesApart sa sb
        | _, _ => false
      else true
  | _, _ => false

/-- Every option rejects what the later ones return. -/
def optionsApart : List Schema → Bool
  | [] => true
  | s :: rest => rest.all (fun later => rejects s later) && optionsApart rest

/-- The parse of a present value is the value itself. -/
def parsesToItself (s : Schema) (v : Json) : Bool :=
  match parse s (some v) with
  | .ok (some w) => w = v
  | _ => false

mutual
/-- No `null` anywhere inside. -/
def nullFree : Json → Bool
  | .null => false
  | .arr xs => nullFreeItems xs
  | .obj fs => nullFreeFields fs
  | _ => true
def nullFreeItems : List Json → Bool
  | [] => true
  | x :: xs => nullFree x && nullFreeItems xs
/-- The same for all members. -/
def nullFreeFields : List (String × Json) → Bool
  | [] => true
  | (_, x) :: rest => nullFree x && nullFreeFields rest
end

mutual
/-- The schema's unions can be told apart by what they return, its defaults
    are their own parses and contain no `null`, and no member is named twice. -/
def lawful : Schema → Bool
  | .array item _ _ => item.lawful
  | .object shape => decide (shape.map Prod.fst).Nodup && lawfulShape shape
  | .record _ value => value.lawful
  | .union options => optionsApart options && lawfulOptions options
  | .switch key cases => lawfulCases key cases
  | .optional inner => inner.lawful
  | .default inner value => inner.lawful && parsesToItself inner value && nullFree value
  | .prefault inner value => inner.lawful && nullFree value
  | .refine inner _ => inner.lawful
  | .tagged _ inner => inner.lawful
  | _ => true
/-- All members are lawful. -/
def lawfulShape : List (String × Schema) → Bool
  | [] => true
  | (_, s) :: rest => s.lawful && lawfulShape rest
def lawfulOptions : List Schema → Bool
  | [] => true
  | s :: rest => s.lawful && lawfulOptions rest
/-- All cases are lawful objects whose discriminator is the case's name. -/
def lawfulCases : String → List (String × Schema) → Bool
  | _, [] => true
  | key, (t, s) :: rest =>
      s.lawful && (match shapeOf s with
        | some shape => shape.any fun e => e.1 = key && match e.2 with
          | .enum [t'] => t' = t
          | _ => false
        | none => false) && lawfulCases key rest
end

theorem lawfulShape_iff (shape : List (String × Schema)) :
    lawfulShape shape = true ↔ ∀ e ∈ shape, e.2.lawful = true := by
  induction shape with
  | nil => simp [lawfulShape]
  | cons e rest ih => simp [lawfulShape, ih]

theorem lawfulOptions_iff (options : List Schema) :
    lawfulOptions options = true ↔ ∀ s ∈ options, s.lawful = true := by
  induction options with
  | nil => simp [lawfulOptions]
  | cons s rest ih => simp [lawfulOptions, ih]

theorem optionsApart_append
    (h : optionsApart (before ++ s :: later) = true) : ∀ s' ∈ before, rejects s' s = true := by
  induction before with
  | nil => simp
  | cons s₀ rest ih =>
    simp only [List.cons_append, optionsApart, Bool.and_eq_true, List.all_eq_true] at h
    intro s' hs'
    rcases List.mem_cons.mp hs' with rfl | hs'
    · exact h.1 s (by simp)
    · exact ih h.2 s' hs'

theorem lawfulCases_mem {key : String} (h : lawfulCases key cases = true) (hm : (t, s) ∈ cases) :
    s.lawful = true ∧ ∃ shape, shapeOf s = some shape ∧ (key, Schema.enum [t]) ∈ shape := by
  induction cases with
  | nil => cases hm
  | cons e rest ih =>
    obtain ⟨t₀, s₀⟩ := e
    simp only [lawfulCases, Bool.and_eq_true] at h
    rcases List.mem_cons.mp hm with heq | hm
    · cases heq
      refine ⟨h.1.1, ?_⟩
      have hshape := h.1.2
      split at hshape
      · next shape hshapeOf =>
        refine ⟨shape, hshapeOf, ?_⟩
        obtain ⟨⟨k, s'⟩, hm', hk⟩ := List.any_eq_true.mp hshape
        simp only [Bool.and_eq_true, decide_eq_true_eq] at hk
        obtain ⟨rfl, hs'⟩ := hk
        split at hs'
        · next _ t' =>
          have ht : t' = t := by simpa using hs'
          rwa [← ht]
        · cases hs'
      · cases hshape
    · exact ih h.2 hm

theorem parse_shapeOf
    (h : shapeOf s = some shape) (x : Option Json) : parse s x = parse (.object shape) x := by
  induction s using inductionOn with
  | object shape' ih => cases h; rfl
  | tagged n s ih =>
    show parse s x = _
    exact ih h
  | _ => cases h

theorem lawful_shapeOf (h : shapeOf s = some shape) (hs : s.lawful = true) :
    (shape.map Prod.fst).Nodup ∧ ∀ e ∈ shape, e.2.lawful = true := by
  induction s using inductionOn with
  | object shape' ih =>
    cases h
    simp only [lawful, Bool.and_eq_true, decide_eq_true_eq, lawfulShape_iff] at hs
    exact hs
  | tagged n s ih => exact ih h hs
  | _ => cases h

theorem kind_spec {κ : Kind} (h : s.kind = some κ) (hp : parse s x = .ok r) :
    ∃ v y, x = some v ∧ r = some y ∧ kindOfValue v = some κ ∧ kindOfValue y = some κ := by
  induction s using inductionOn generalizing r with
  | string cs =>
    cases h
    cases x with
    | none => cases hp
    | some v =>
      cases v <;> simp [parse, conclude_eq_ok] at hp
      obtain ⟨_, rfl⟩ := hp
      exact ⟨_, _, rfl, rfl, rfl, rfl⟩
  | number cs =>
    cases h
    cases x with
    | none => cases hp
    | some v =>
      cases v <;> simp [parse, conclude_eq_ok] at hp
      obtain ⟨_, rfl⟩ := hp
      exact ⟨_, _, rfl, rfl, rfl, rfl⟩
  | boolean =>
    cases h
    cases x with
    | none => cases hp
    | some v =>
      cases v <;> simp [parse] at hp
      subst hp
      exact ⟨_, _, rfl, rfl, rfl, rfl⟩
  | enum os =>
    cases h
    cases x with
    | none => cases hp
    | some v =>
      cases v <;> simp [parse] at hp
      split at hp
      · cases hp; exact ⟨_, _, rfl, rfl, rfl, rfl⟩
      · cases hp
  | array item lo hi ih =>
    cases h
    obtain ⟨xs, rs, rfl, _, _, rfl⟩ := parse_array_eq_ok hp
    exact ⟨_, _, rfl, rfl, rfl, rfl⟩
  | object shape ih =>
    cases h
    match x with
    | some (.obj fs) =>
      rw [parse, concludeParts_eq_ok] at hp
      obtain ⟨w, hw, _, rfl⟩ := hp
      obtain ⟨out, _, rfl⟩ := map_eq_ok.mp hw
      exact ⟨_, _, rfl, rfl, rfl, rfl⟩
    | none | some .null | some (.bool _) | some (.num _) | some (.str _) | some (.arr _)
    | some (.native _) => simp [parse] at hp
  | record ks value ih =>
    cases h
    obtain ⟨fs, out, rfl, rfl, _⟩ := parse_record_eq_ok hp
    exact ⟨_, _, rfl, rfl, rfl, rfl⟩
  | refine inner check ih =>
    rw [parse] at hp
    split at hp
    · next y hy =>
      obtain ⟨_, rfl⟩ := conclude_eq_ok.mp hp
      exact ih h hy
    · exact ih h hp
  | tagged n inner ih => exact ih h hp
  | unknown => cases h
  | json => cases h
  | union os ih => cases h
  | switch k cs ih => cases h
  | optional inner ih => cases h
  | default inner v ih => cases h
  | prefault inner v ih => cases h

theorem parse_enum_eq_ok {options : List String} (h : parse (.enum options) x = .ok r) :
    ∃ t ∈ options, x = some (.str t) ∧ r = some (.str t) := by
  cases x with
  | none => cases h
  | some v =>
    cases v <;> simp [parse] at h
    split at h
    · next t ht => cases h; exact ⟨t, ht, rfl, rfl⟩
    · cases h

theorem shapesApart_spec {a b : List (String × Schema)} (ha : (a.map Prod.fst).Nodup)
    (hb : (b.map Prod.fst).Nodup) (h : shapesApart a b = true)
    (hy : parse (.object b) x = .ok (some y)) (r : Option Json) :
    parse (.object a) (some y) ≠ .ok r := by
  intro hr
  obtain ⟨fs, out, -, hout, -, -, hmem, -⟩ := parse_object_eq_ok hb hy
  cases Option.some.inj hout
  obtain ⟨fs', out', hfs', -, -, hkeys, hmem', -⟩ := parse_object_eq_ok ha hr
  cases Json.obj.inj (Option.some.inj hfs')
  obtain ⟨⟨k, s⟩, hk, hcase⟩ := List.any_eq_true.mp h
  have hparse := hmem k s hk
  rcases Bool.or_eq_true_iff.mp hcase with hreq | hdisc
  · -- a member the second shape always returns and the first does not know
    simp only [Bool.and_eq_true, Bool.not_eq_true', List.contains_eq_mem,
      decide_eq_false_iff_not] at hreq
    cases hget : Fields.get? out k with
    | some v =>
      have : k ∈ out.keys := (Fields.mem_keys_iff out k).mpr ⟨v, hget⟩
      exact hreq.2 (hkeys k this)
    | none =>
      rw [hget] at hparse
      have hnone : Fields.get? fs k = none := by
        cases hf : Fields.get? fs k with
        | none => rfl
        | some v => rw [hf] at hparse; exact absurd hparse (parse_some_ne_none s v)
      rw [hnone] at hparse
      have hreq' := hreq.1
      unfold required at hreq'
      rw [hparse] at hreq'
      cases hreq'
  · -- a discriminator
    obtain ⟨⟨k', s'⟩, hk', hapart⟩ := List.any_eq_true.mp hdisc
    simp only [Bool.and_eq_true, decide_eq_true_eq] at hapart
    obtain ⟨rfl, hapart⟩ := hapart
    cases s' with
    | enum as =>
      cases s with
      | enum bs =>
        simp only [apart, List.all_eq_true, Bool.not_eq_true', List.contains_eq_mem,
          decide_eq_false_iff_not] at hapart
        obtain ⟨t, ht, -, hget⟩ := parse_enum_eq_ok hparse
        have hparse' := hmem' _ _ hk'
        rw [hget] at hparse'
        obtain ⟨t', ht', heq, -⟩ := parse_enum_eq_ok hparse'
        cases heq
        exact hapart _ ht' ht
      | _ => cases hapart
    | _ => cases s <;> cases hapart

theorem rejects_spec {a b : Schema} (ha : a.lawful = true) (hb : b.lawful = true)
    (h : rejects a b = true) (hy : parse b x = .ok (some y))
    (r : Option Json) : parse a (some y) ≠ .ok r := by
  intro hr
  unfold rejects at h
  split at h
  · next ka kb hka hkb =>
    obtain ⟨_, y', -, hy', -, hkind⟩ := kind_spec hkb hy
    obtain ⟨v', _, hv', -, hkind', -⟩ := kind_spec hka hr
    cases hy'
    cases hv'
    split at h
    · split at h
      · next sa sb hsa hsb =>
        rw [parse_shapeOf hsb] at hy
        rw [parse_shapeOf hsa] at hr
        exact shapesApart_spec (lawful_shapeOf hsa ha).1 (lawful_shapeOf hsb hb).1 h hy r hr
      · cases h
    · next hne =>
      rw [hkind] at hkind'
      exact hne (Option.some.inj hkind').symm
  · cases h

/-! ## Parsing is idempotent -/

theorem parse_stable (hs : s.lawful = true)
    (h : parse s x = .ok (some y)) : parse s (some y) = .ok (some y) := by
  induction s using inductionOn generalizing x y with
  | unknown => rfl
  | json =>
    cases x with
    | none => cases h
    | some v =>
      rw [parse] at h
      split at h
      · next hv => cases h; rw [parse, if_pos hv]
      · cases h
  | string cs =>
    cases x with
    | none => cases h
    | some v =>
      cases v <;> simp [parse, conclude_eq_ok] at h
      obtain ⟨hcs, rfl⟩ := h
      simp [parse, conclude_eq_ok, hcs]
  | number cs =>
    cases x with
    | none => cases h
    | some v =>
      cases v <;> simp [parse, conclude_eq_ok] at h
      obtain ⟨hcs, rfl⟩ := h
      simp [parse, conclude_eq_ok, hcs]
  | boolean =>
    cases x with
    | none => cases h
    | some v =>
      cases v <;> simp [parse] at h
      subst h
      rfl
  | enum os =>
    obtain ⟨t, ht, rfl, heq⟩ := parse_enum_eq_ok h
    cases heq
    simp [parse, ht]
  | array item lo hi ih =>
    obtain ⟨xs, rs, rfl, hrs, hlen, heq⟩ := parse_array_eq_ok h
    cases heq
    have hlength : xs.length = rs.length := by simpa using congrArg List.length hrs
    have hself : (rs.map fun y => y.getD .null).map (fun x => parse item (some x)) =
        rs.map .ok := by
      rw [List.map_map]
      refine List.map_congr_left fun r hr => ?_
      have hmem : Except.ok r ∈ xs.map fun x => parse item (some x) := by
        rw [hrs]; exact List.mem_map_of_mem hr
      obtain ⟨v, -, hv⟩ := List.mem_map.mp hmem
      cases r with
      | none => exact absurd hv (parse_some_ne_none item v)
      | some w => exact ih hs hv
    rw [parse, hself, gatherItems_ok, List.length_map, ← hlength, hlen]
    rfl
  | object shape ih =>
    simp only [lawful, Bool.and_eq_true, decide_eq_true_eq, lawfulShape_iff] at hs
    obtain ⟨fs, out, rfl, heq, hsorted, -, hmem, hnone⟩ := parse_object_eq_ok hs.1 h
    cases Option.some.inj heq
    refine parse_object_self hs.1 hsorted ?_ ?_
    · intro k hk
      obtain ⟨v, hv⟩ := (Fields.mem_keys_iff out k).mp hk
      by_contra hnot
      rw [hnone k hnot] at hv
      cases hv
    · intro k s hk
      have hparse := hmem k s hk
      cases hget : Fields.get? out k with
      | some v =>
        rw [hget] at hparse
        exact ih (k, s) hk (hs.2 (k, s) hk) hparse
      | none =>
        rw [hget] at hparse
        cases hf : Fields.get? fs k with
        | none => rw [hf] at hparse; exact hparse
        | some v => rw [hf] at hparse; exact absurd hparse (parse_some_ne_none s v)
  | record ks value ih =>
    obtain ⟨fs, out, rfl, heq, hsorted, hkeys, hmem⟩ := parse_record_eq_ok h
    cases Option.some.inj heq
    refine parse_record_self hsorted ?_ ?_
    · intro k hk
      obtain ⟨v, hv⟩ := (Fields.mem_keys_iff out k).mp hk
      obtain ⟨w, hw, -⟩ := hmem k v hv
      exact hkeys k ((Fields.mem_keys_iff fs k).mpr ⟨w, hw⟩)
    · intro k v hv
      obtain ⟨w, -, hw⟩ := hmem k v hv
      exact ih hs hw
  | union options ih =>
    simp only [lawful, Bool.and_eq_true, lawfulOptions_iff] at hs
    rw [parse, parseOptions_eq] at h
    obtain ⟨before, s, later, rfl, hp⟩ := firstOk_map_eq_ok h
    have hls : s.lawful = true := hs.2 s (by simp)
    rw [parse, parseOptions_eq]
    refine firstOk_map_append ?_ (ih s (by simp) hls hp)
    intro s' hs' r'
    exact rejects_spec (hs.2 s' (by simp [hs'])) hls (optionsApart_append hs.1 s' hs') hp r'
  | switch key cases ih =>
    match x with
    | some (.obj fs) =>
      rw [parse] at h
      split at h
      · next t _ =>
        obtain ⟨s, hm, hp, hcase⟩ := parseCase_eq_ok h
        obtain ⟨hls, shape, hshape, hkey⟩ := lawfulCases_mem hs hm
        have hself := ih (t, s) hm hls hp
        rw [parse_shapeOf hshape] at hp
        obtain ⟨_, out, -, heq, -, -, hmem, -⟩ :=
          parse_object_eq_ok (lawful_shapeOf hshape hls).1 hp
        cases Option.some.inj heq
        obtain ⟨t', ht', -, hget⟩ := parse_enum_eq_ok (hmem key _ hkey)
        have ht : t' = t := by simpa using ht'
        rw [ht] at hget
        rw [parse, hget]
        show parseCase t cases (some (.obj out)) = _
        rw [hcase]
        exact hself
      · cases h
    | none | some .null | some (.bool _) | some (.num _) | some (.str _) | some (.arr _)
    | some (.native _) => simp [parse] at h
  | optional inner ih =>
    cases x with
    | none => cases h
    | some v => exact ih hs h
  | default inner value ih =>
    simp only [lawful, Bool.and_eq_true] at hs
    cases x with
    | none =>
      have hvalue : value = y := by simpa [parse] using h
      subst hvalue
      have hself := hs.1.2
      unfold parsesToItself at hself
      split at hself
      · next w hw =>
        have hw' : w = value := by simpa using hself
        rw [hw'] at hw
        exact hw
      · cases hself
    | some v => exact ih hs.1.1 h
  | prefault inner value ih =>
    simp only [lawful, Bool.and_eq_true] at hs
    cases x with
    | none => exact ih hs.1 h
    | some v => exact ih hs.1 h
  | refine inner check ih =>
    rw [parse] at h
    split at h
    · next w hw =>
      obtain ⟨hcheck, heq⟩ := conclude_eq_ok.mp h
      cases heq
      rw [parse, ih hs hw]
      exact conclude_eq_ok.mpr ⟨hcheck, rfl⟩
    · next hne =>
      exact absurd h (hne y)
  | tagged n inner ih => exact ih hs h

/-! ## Where a parsed text comes from -/

mutual
/-- No default on the way down the path: a text at the path in the output was
    there in the input. -/
def keepsText : Schema → List String → Bool
  | .object shape, k :: path => keepsTextShape k path shape
  | .record _ value, _ :: path => value.keepsText path
  | .union options, path => keepsTextOptions path options
  | .switch _ cases, path => keepsTextCases path cases
  | .optional inner, path => inner.keepsText path
  | .default _ _, _ => false
  | .prefault _ _, _ => false
  | .refine inner _, path => inner.keepsText path
  | .tagged _ inner, path => inner.keepsText path
  | _, _ => true
/-- The same for the member `k` of a shape. -/
def keepsTextShape : String → List String → List (String × Schema) → Bool
  | _, _, [] => true
  | k, path, (k', s) :: rest => (k != k' || s.keepsText path) && keepsTextShape k path rest
def keepsTextOptions : List String → List Schema → Bool
  | _, [] => true
  | path, s :: rest => s.keepsText path && keepsTextOptions path rest
def keepsTextCases : List String → List (String × Schema) → Bool
  | _, [] => true
  | path, (_, s) :: rest => s.keepsText path && keepsTextCases path rest
end

theorem keepsTextShape_mem (h : keepsTextShape k path shape = true) (hm : (k, s) ∈ shape) :
    s.keepsText path = true := by
  induction shape with
  | nil => cases hm
  | cons e rest ih =>
    simp only [keepsTextShape, Bool.and_eq_true] at h
    rcases List.mem_cons.mp hm with heq | hm
    · subst heq
      simpa using h.1
    · exact ih h.2 hm

theorem keepsTextOptions_mem
    (h : keepsTextOptions path options = true) (hm : s ∈ options) : s.keepsText path = true := by
  induction options with
  | nil => cases hm
  | cons s' rest ih =>
    simp only [keepsTextOptions, Bool.and_eq_true] at h
    rcases List.mem_cons.mp hm with rfl | hm
    · exact h.1
    · exact ih h.2 hm

theorem keepsTextCases_mem (h : keepsTextCases path cases = true) (hm : (t, s) ∈ cases) :
    s.keepsText path = true := by
  induction cases with
  | nil => cases hm
  | cons e rest ih =>
    simp only [keepsTextCases, Bool.and_eq_true] at h
    rcases List.mem_cons.mp hm with rfl | hm
    · exact h.1
    · exact ih h.2 hm

theorem parse_text (hs : s.lawful = true)
    (hk : s.keepsText path = true) (h : parse s x = .ok (some y))
    (ht : y.at? path = some (.str t)) : ∃ v, x = some v ∧ v.at? path = some (.str t) := by
  induction s using inductionOn generalizing path x y with
  | unknown => cases h; exact ⟨y, rfl, ht⟩
  | json =>
    cases x with
    | none => cases h
    | some v =>
      rw [parse] at h
      split at h
      · cases h; exact ⟨_, rfl, ht⟩
      · cases h
  | string cs =>
    cases x with
    | none => cases h
    | some v =>
      cases v <;> simp [parse, conclude_eq_ok] at h
      obtain ⟨-, rfl⟩ := h
      exact ⟨_, rfl, ht⟩
  | number cs =>
    cases x with
    | none => cases h
    | some v =>
      cases v <;> simp [parse, conclude_eq_ok] at h
      obtain ⟨-, rfl⟩ := h
      exact ⟨_, rfl, ht⟩
  | boolean =>
    cases x with
    | none => cases h
    | some v =>
      cases v <;> simp [parse] at h
      subst h
      exact ⟨_, rfl, ht⟩
  | enum os =>
    obtain ⟨t', -, rfl, heq⟩ := parse_enum_eq_ok h
    cases heq
    exact ⟨_, rfl, ht⟩
  | array item lo hi ih =>
    obtain ⟨xs, rs, rfl, -, -, heq⟩ := parse_array_eq_ok h
    cases heq
    cases path with
    | nil => cases ht
    | cons k path => cases ht
  | object shape ih =>
    simp only [lawful, Bool.and_eq_true, decide_eq_true_eq, lawfulShape_iff] at hs
    obtain ⟨fs, out, rfl, heq, -, -, hmem, hnone⟩ := parse_object_eq_ok hs.1 h
    cases Option.some.inj heq
    cases path with
    | nil => cases ht
    | cons k path =>
      rw [Json.at?_cons, Json.get?_obj] at ht
      obtain ⟨w, hw, hwt⟩ := Option.bind_eq_some_iff.mp ht
      by_cases hin : k ∈ shape.map Prod.fst
      · obtain ⟨⟨k', s⟩, hs', rfl⟩ := List.mem_map.mp hin
        have hparse := hmem k' s hs'
        rw [hw] at hparse
        obtain ⟨v, hv, hvt⟩ := ih (k', s) hs' (hs.2 _ hs') (keepsTextShape_mem hk hs') hparse hwt
        refine ⟨.obj fs, rfl, ?_⟩
        rw [Json.at?_cons, Json.get?_obj, hv]
        exact hvt
      · rw [hnone k hin] at hw
        cases hw
  | record ks value ih =>
    obtain ⟨fs, out, rfl, heq, -, -, hmem⟩ := parse_record_eq_ok h
    cases Option.some.inj heq
    cases path with
    | nil => cases ht
    | cons k path =>
      rw [Json.at?_cons, Json.get?_obj] at ht
      obtain ⟨w, hw, hwt⟩ := Option.bind_eq_some_iff.mp ht
      obtain ⟨w', hw', hp⟩ := hmem k w hw
      obtain ⟨v, hv, hvt⟩ := ih hs hk hp hwt
      refine ⟨.obj fs, rfl, ?_⟩
      rw [Json.at?_cons, Json.get?_obj, hw', hv]
      exact hvt
  | union options ih =>
    simp only [lawful, Bool.and_eq_true, lawfulOptions_iff] at hs
    rw [parse, parseOptions_eq] at h
    obtain ⟨before, s, later, rfl, hp⟩ := firstOk_map_eq_ok h
    exact ih s (by simp) (hs.2 s (by simp)) (keepsTextOptions_mem hk (by simp)) hp ht
  | switch key cases ih =>
    match x with
    | some (.obj fs) =>
      rw [parse] at h
      split at h
      · obtain ⟨s, hm, hp, -⟩ := parseCase_eq_ok h
        exact ih _ hm (lawfulCases_mem hs hm).1 (keepsTextCases_mem hk hm) hp ht
      · cases h
    | none | some .null | some (.bool _) | some (.num _) | some (.str _) | some (.arr _)
    | some (.native _) => simp [parse] at h
  | optional inner ih =>
    cases x with
    | none => cases h
    | some v => exact ih hs hk h ht
  | default inner value ih => cases hk
  | prefault inner value ih => cases hk
  | refine inner check ih =>
    rw [parse] at h
    split at h
    · next w hw =>
      obtain ⟨-, heq⟩ := conclude_eq_ok.mp h
      cases heq
      exact ih hs hk hw ht
    · next hne => exact absurd h (hne y)
  | tagged n inner ih => exact ih hs hk h ht

end Schema
