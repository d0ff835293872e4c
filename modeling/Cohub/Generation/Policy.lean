import Cohub.Board.MergePatch
import Cohub.Lib.Number

/-! # Generation policies

    `packages/protocol/src/generation/policy.ts`.  A limited policy names the
    models a turn may use, with constraints on their parameters.  Requests that
    break it are refused, and the model declarations are shown narrowed to it.

    The narrowing changes the members a specification has: an `enum` is
    filtered, a bound is tightened.  What a constraint asks for beyond them is
    enforced but not shown.

    How a message writes a value (`String(value)`) is a parameter. -/

namespace Cohub.Generation

open List Number Fields Json
open Board (isInherited)

/-- The limits of a `number` or `integer` constraint. -/
structure NumberConstraint where
  min    : Option Rat
  max    : Option Rat
  values : Option (List Rat)

/-- A constraint; the values of an `enum` are strings, numbers and booleans. -/
inductive GenerationParameterConstraint where
  | enum (values : List Json)
  | number (limits : NumberConstraint)
  | integer (limits : NumberConstraint)
  | boolean (value : Option Bool)

/-- What a policy says of a model; without `parameters` there are none. -/
structure GenerationModelPolicy where
  model      : String
  parameters : OrderedMap String GenerationParameterConstraint

inductive GenerationPolicy where
  | auto
  | limited (models : List GenerationModelPolicy)

/-- A declared model, with a specification for each of its parameters. -/
structure GenerationModelDeclaration where
  model      : String
  parameters : Option (OrderedMap String Fields)

def getAllowedGenerationModelIds : Option GenerationPolicy → Option (List String)
  | some (.limited models) => some (models.map (·.model)).eraseDups
  | _ => none

def findGenerationModelPolicy (policy : Option GenerationPolicy) (model : String) :
    Option GenerationModelPolicy :=
  match policy with
  | some (.limited models) => models.find? (·.model = model)
  | _ => none

/-! ## Requests -/

section

variable (text : Json → String)

def formatList (values : List Json) : String :=
  "\n".intercalate (values.map fun value => "- " ++ text value)

def modelNotSupportedMessage (allowedModels : List String) : String :=
  "\n".intercalate ["This turn supports the following generation models:", "",
    formatList text (allowedModels.map .str), "",
    "Choose one of these models or update Generation settings in the Models panel."]

def valuesNotSupportedMessage (model name : String) (values : List Json) (received : Json) : String :=
  "\n".intercalate ["This turn supports selected values for " ++ model ++ "." ++ name ++ ":", "",
    formatList text values, "", "Received:", "- " ++ text received]

def rangeNotSupportedMessage (model name : String) (limits : NumberConstraint) (received : Json) :
    String :=
  let range := match limits.min, limits.max with
    | some least, some most => text (.num least) ++ "–" ++ text (.num most)
    | some least, none => "at least " ++ text (.num least)
    | none, some most => "at most " ++ text (.num most)
    | none, none => "at most undefined"
  "\n".intercalate ["This turn supports " ++ model ++ "." ++ name ++ " in the range " ++ range ++ ".",
    "", "Received:", "- " ++ text received]

def booleanNotSupportedMessage (model name : String) (expected : Bool) (received : Json) : String :=
  "\n".intercalate ["This turn supports " ++ model ++ "." ++ name ++ "=" ++ text (.bool expected) ++ ".",
    "", "Received:", "- " ++ text received]

/-- `validateConstraint` for a `number` and, with `whole`, an `integer`. -/
def validateNumber (model name : String) (value : Json) (whole : Bool) (limits : NumberConstraint) :
    Except String Unit :=
  let outOfRange := .error (rangeNotSupportedMessage text model name limits value)
  match value.asNum? with
  | none => outOfRange
  | some x =>
    if whole && x.den ≠ 1 then outOfRange
    else if limits.values.any fun values => !values.isEmpty && !values.contains x then
      .error (valuesNotSupportedMessage text model name ((limits.values.getD []).map .num) value)
    else if limits.min.any fun least => decide (x < least) then outOfRange
    else if limits.max.any fun most => decide (most < x) then outOfRange
    else .ok ()

def validateConstraint (model name : String) (value : Json) :
    GenerationParameterConstraint → Except String Unit
  | .enum values =>
      if values.contains value then .ok ()
      else .error (valuesNotSupportedMessage text model name values value)
  | .number limits => validateNumber text model name value false limits
  | .integer limits => validateNumber text model name value true limits
  | .boolean none => .ok ()
  | .boolean (some expected) =>
      if value = .bool expected then .ok ()
      else .error (booleanNotSupportedMessage text model name expected value)

/-- The loop over the parameters of a request.  A name that every object
    inherits finds a function, which is of no kind and refuses nothing. -/
def validateParameters (modelPolicy : GenerationModelPolicy) (model : String) :
    List (String × Json) → Except String Unit
  | [] => .ok ()
  | (name, value) :: rest => do
      match modelPolicy.parameters.get? name with
      | none => .ok ()
      | some constraint => validateConstraint text model name value constraint
      validateParameters modelPolicy model rest

def assertGenerationRequestAllowedByPolicy (policy : Option GenerationPolicy) (model : String)
    (parameters : List (String × Json)) : Except String Unit :=
  match getAllowedGenerationModelIds policy with
  | none => .ok ()
  | some allowedModels =>
    match findGenerationModelPolicy policy model with
    | none => .error (modelNotSupportedMessage text allowedModels)
    | some modelPolicy => validateParameters text modelPolicy model parameters

end

/-! ## Declarations -/

/-- Leaves the allowed members of an `enum`, if there is one. -/
def narrowEnum (spec : Fields) (allowed : List Json) : Fields :=
  match spec.get? "enum" with
  | some (.arr items) => spec.set "enum" (.arr (items.filter allowed.contains))
  | _ => spec

/-- Tightens a bound, if there is one. -/
def narrowBound (spec : Fields) (key : String) (tighter : Rat → Rat → Rat) (limit : Option Rat) :
    Fields :=
  match spec.get? key, limit with
  | some (.num own), some limit => spec.set key (.num (tighter own limit))
  | some _, some limit => spec.set key (.num limit)
  | _, _ => spec

def narrowParameterSpec (spec : Fields) : GenerationParameterConstraint → Fields
  | .enum values => narrowEnum spec values
  | .number limits | .integer limits =>
      let bounded := narrowBound (narrowBound spec "min" maximum limits.min) "max" minimum limits.max
      match limits.values with
      | some (x :: rest) => narrowEnum bounded ((x :: rest).map .num)
      | _ => bounded
  | .boolean _ => spec

/-- What the loop stores for a constrained parameter.  Where the model has no
    specification but every object has a member of this name, that member is
    copied, and the copy is empty. -/
def narrowedSpec (name : String) (constraint : GenerationParameterConstraint) :
    Option Fields → Option Fields
  | some spec => some (narrowParameterSpec spec constraint)
  | none => if isInherited name then some [] else none

def narrowParameter (parameters : OrderedMap String Fields)
    (e : String × GenerationParameterConstraint) : OrderedMap String Fields :=
  match narrowedSpec e.1 e.2 (parameters.get? e.1) with
  | some spec => parameters.set e.1 spec
  | none => parameters

def narrowDeclaration (policy : Option GenerationPolicy) (declaration : GenerationModelDeclaration) :
    GenerationModelDeclaration :=
  match findGenerationModelPolicy policy declaration.model, declaration.parameters with
  | some modelPolicy, some parameters =>
      { declaration with
        parameters := some (modelPolicy.parameters.entries.foldl narrowParameter parameters) }
  | _, _ => declaration

def filterGenerationDeclarationsByPolicy (declarations : List GenerationModelDeclaration)
    (policy : Option GenerationPolicy) : List GenerationModelDeclaration :=
  match getAllowedGenerationModelIds policy with
  | none => declarations
  | some allowedModels =>
      (declarations.filter fun declaration => allowedModels.contains declaration.model).map
        (narrowDeclaration policy)

/-! ## What is admitted -/

/-- A number within a limit, if there is one. -/
def Meets (within : Rat → Rat → Prop) (limit : Option Rat) (v : Json) : Prop :=
  ∀ own, limit = some own → ∀ x, v = .num x → within own x

def InEnum : Option Json → Json → Prop
  | some (.arr items), v => v ∈ items
  | _, _ => True

/-- What a specification admits, whatever its type means. -/
def Admits (ofType : Option Json → Json → Prop) (spec : Fields) (v : Json) : Prop :=
  ofType (spec.get? "type") v ∧ InEnum (spec.get? "enum") v ∧
    Meets (· ≤ ·) ((spec.get? "min").bind Json.asNum?) v ∧
    Meets (· ≥ ·) ((spec.get? "max").bind Json.asNum?) v

def hasEnum (spec : Fields) : Bool :=
  match spec.get? "enum" with
  | some (.arr _) => true
  | _ => false

/-- What a constraint asks for that the specification has a member for
    (`has`), or has none for. -/
def Part (has : Bool) (spec : Fields) (v : Json) : GenerationParameterConstraint → Prop
  | .enum values => hasEnum spec = has → v ∈ values
  | .number limits | .integer limits =>
      (hasEnum spec = has → ∀ values, limits.values = some values → values ≠ [] →
        v ∈ values.map .num) ∧
      ((spec.get? "min").isSome = has → Meets (· ≤ ·) limits.min v) ∧
      ((spec.get? "max").isSome = has → Meets (· ≥ ·) limits.max v)
  | .boolean _ => True

/-- What a constraint asks for by its kind. -/
def OfKind (v : Json) : GenerationParameterConstraint → Prop
  | .enum _ => True
  | .number _ => ∃ x, v = .num x
  | .integer _ => ∃ x, v = .num x ∧ x.den = 1
  | .boolean value => ∀ b, value = some b → v = .bool b

variable {text : Json → String} {ofType : Option Json → Json → Prop} {spec : Fields} {v : Json}
  {limits : NumberConstraint}

theorem and_parts {b : Bool} {P : Prop} : (b = true → P) ∧ (b = false → P) ↔ P := by
  cases b <;> simp

theorem validateNumber_iff {model name : String} {whole : Bool} :
    validateNumber text model name v whole limits = .ok () ↔
      (∃ x, v = .num x ∧ (whole = true → x.den = 1)) ∧
      (∀ values, limits.values = some values → values ≠ [] → v ∈ values.map .num) ∧
      Meets (· ≤ ·) limits.min v ∧ Meets (· ≥ ·) limits.max v := by
  cases v with
  | num x =>
    unfold validateNumber Meets
    cases limits.values <;> cases limits.min <;> cases limits.max <;> cases whole <;>
      simp [asNum?, ite_eq_iff]
  | _ => simp [validateNumber, asNum?]

theorem validateConstraint_iff {model name : String} {constraint : GenerationParameterConstraint} :
    validateConstraint text model name v constraint = .ok () ↔
      OfKind v constraint ∧ Part true spec v constraint ∧ Part false spec v constraint := by
  have hnumber (kind : Prop) (limits : NumberConstraint) :
      kind ∧ Part true spec v (.number limits) ∧ Part false spec v (.number limits) ↔
        kind ∧ (∀ values, limits.values = some values → values ≠ [] → v ∈ values.map .num) ∧
          Meets (· ≤ ·) limits.min v ∧ Meets (· ≥ ·) limits.max v := by
    simp only [Part]
    rw [and_and_and_comm, and_parts, and_and_and_comm, and_parts, and_parts]
  cases constraint with
  | enum values =>
    rw [OfKind, true_and]
    exact Iff.trans (by simp [validateConstraint]) and_parts.symm
  | number limits =>
    refine validateNumber_iff.trans (Iff.trans ?_ (hnumber _ limits).symm)
    exact and_congr_left fun _ => by simp [OfKind]
  | integer limits =>
    refine validateNumber_iff.trans (Iff.trans ?_ (hnumber _ limits).symm)
    exact and_congr_left fun _ => by simp [OfKind]
  | boolean value => cases value <;> simp [validateConstraint, OfKind, Part]

/-! ## What narrowing keeps -/

theorem get?_narrowEnum {allowed : List Json} {key : String} (hkey : key ≠ "enum") :
    (narrowEnum spec allowed).get? key = spec.get? key := by
  unfold narrowEnum
  split
  · rw [get?_set, if_neg hkey]
  · rfl

theorem inEnum_narrowEnum {allowed : List Json} :
    InEnum ((narrowEnum spec allowed).get? "enum") v ↔
      InEnum (spec.get? "enum") v ∧ (hasEnum spec = true → v ∈ allowed) := by
  unfold narrowEnum hasEnum
  split
  · next items henum =>
    rw [get?_set, if_pos rfl, henum]
    simp [InEnum]
  · simp

section

variable {key : String} {tighter : Rat → Rat → Rat} {limit : Option Rat}

theorem get?_narrowBound {other : String} (hkey : other ≠ key) :
    (narrowBound spec key tighter limit).get? other = spec.get? other := by
  unfold narrowBound
  split
  · rw [get?_set, if_neg hkey]
  · rw [get?_set, if_neg hkey]
  · rfl

theorem meets_narrowBound {within : Rat → Rat → Prop}
    (htighter : ∀ a b x, within (tighter a b) x ↔ within a x ∧ within b x) :
    Meets within (((narrowBound spec key tighter limit).get? key).bind asNum?) v ↔
      Meets within ((spec.get? key).bind asNum?) v ∧
        ((spec.get? key).isSome = true → Meets within limit v) := by
  unfold narrowBound
  cases hw : spec.get? key with
  | none => simp [hw]
  | some w =>
    cases limit with
    | none => simp [hw, Meets]
    | some limit =>
      cases w with
      | num own =>
        rw [get?_set, if_pos rfl]
        simp only [Meets, Option.bind_some, asNum?, Option.some.injEq, forall_eq', htighter,
          Option.isSome_some, forall_const]
        exact ⟨fun h => ⟨fun x hx => (h x hx).1, fun x hx => (h x hx).2⟩,
          fun h x hx => ⟨h.1 x hx, h.2 x hx⟩⟩
      | _ =>
        rw [get?_set, if_pos rfl]
        simp [Meets, asNum?]

theorem meets_atLeast : Meets (· ≤ ·)
    (((narrowBound spec "min" maximum limit).get? "min").bind asNum?) v ↔
      Meets (· ≤ ·) ((spec.get? "min").bind asNum?) v ∧
        ((spec.get? "min").isSome = true → Meets (· ≤ ·) limit v) :=
  meets_narrowBound fun a b _ => ⟨fun h => ⟨(le_maximum_left a b).trans h,
    (le_maximum_right a b).trans h⟩, fun h => maximum_le h.1 h.2⟩

theorem meets_atMost : Meets (· ≥ ·)
    (((narrowBound spec "max" minimum limit).get? "max").bind asNum?) v ↔
      Meets (· ≥ ·) ((spec.get? "max").bind asNum?) v ∧
        ((spec.get? "max").isSome = true → Meets (· ≥ ·) limit v) :=
  meets_narrowBound fun a b _ => ⟨fun h => ⟨le_trans h (minimum_le_left a b),
    le_trans h (minimum_le_right a b)⟩, fun h => le_minimum h.1 h.2⟩

end

theorem admits_narrowEnum {allowed : List Json} :
    Admits ofType (narrowEnum spec allowed) v ↔
      Admits ofType spec v ∧ (hasEnum spec = true → v ∈ allowed) := by
  unfold Admits
  rw [get?_narrowEnum (by decide), inEnum_narrowEnum, get?_narrowEnum (by decide),
    get?_narrowEnum (by decide)]
  tauto

variable (ofType v) in
theorem admits_bounded {least most : Fields}
    (hleast : narrowBound spec "min" maximum limits.min = least)
    (hmost : narrowBound least "max" minimum limits.max = most) :
    hasEnum most = hasEnum spec ∧ (Admits ofType most v ↔ Admits ofType spec v ∧
      ((spec.get? "min").isSome = true → Meets (· ≤ ·) limits.min v) ∧
      ((spec.get? "max").isSome = true → Meets (· ≥ ·) limits.max v)) := by
  subst hleast hmost
  constructor
  · unfold hasEnum
    rw [get?_narrowBound (by decide), get?_narrowBound (by decide)]
  · unfold Admits
    rw [meets_atMost]
    simp only [get?_narrowBound, ne_eq, String.reduceEq, not_false_eq_true]
    rw [meets_atLeast]
    tauto

theorem admits_narrowParameterSpec {constraint : GenerationParameterConstraint} :
    Admits ofType (narrowParameterSpec spec constraint) v ↔
      Admits ofType spec v ∧ Part true spec v constraint := by
  have hnumber (limits : NumberConstraint) :
      Admits ofType (narrowParameterSpec spec (.number limits)) v ↔
        Admits ofType spec v ∧ Part true spec v (.number limits) := by
    obtain ⟨henum, hbounded⟩ := admits_bounded ofType v
      (Eq.refl (narrowBound spec "min" maximum limits.min)) rfl
    unfold narrowParameterSpec Part
    dsimp only
    cases limits.values with
    | none =>
      dsimp only
      rw [hbounded]
      simp
    | some values =>
      cases values with
      | nil =>
        dsimp only
        rw [hbounded]
        simp
      | cons x rest =>
        dsimp only
        rw [admits_narrowEnum, henum, hbounded]
        simp
        tauto
  cases constraint with
  | enum values => exact admits_narrowEnum
  | number limits => exact hnumber limits
  | integer limits => exact hnumber limits
  | boolean value => exact (and_true _).to_iff.symm

/-! ## What is shown and what is enforced -/

variable {models : List GenerationModelPolicy} {model name : String}

theorem allowed_iff {parameters : List (String × Json)} :
    assertGenerationRequestAllowedByPolicy text (some (.limited models)) model parameters = .ok () ↔
      ∃ modelPolicy, models.find? (·.model = model) = some modelPolicy ∧
        validateParameters text modelPolicy model parameters = .ok () := by
  unfold assertGenerationRequestAllowedByPolicy findGenerationModelPolicy
  cases hfind : models.find? (·.model = model) with
  | none => simp [getAllowedGenerationModelIds, hfind]
  | some modelPolicy => simp [getAllowedGenerationModelIds, hfind]

theorem get?_narrowed {constraints : OrderedMap String GenerationParameterConstraint}
    {parameters : OrderedMap String Fields} (hspec : parameters.get? name = some spec) :
    (constraints.entries.foldl narrowParameter parameters).get? name =
      some ((constraints.get? name).elim spec (narrowParameterSpec spec)) := by
  have hstep (acc : OrderedMap String Fields) (e : String × GenerationParameterConstraint)
      (k : String) : (narrowParameter acc e).get? k =
        if k = e.1 then narrowedSpec e.1 e.2 (acc.get? e.1) else acc.get? k := by
    unfold narrowParameter
    cases hown : narrowedSpec e.1 e.2 (acc.get? e.1) with
    | some own => exact OrderedMap.get?_set _ _ _ _
    | none =>
      by_cases hk : k = e.1
      · rw [if_pos hk, hk]
        cases hget : acc.get? e.1 with
        | some own =>
          rw [hget] at hown
          cases hown
        | none => rfl
      · rw [if_neg hk]
  rw [OrderedMap.get?_foldl_entries hstep parameters constraints name, hspec]
  cases constraints.get? name <;> rfl

theorem validateParameters_single {modelPolicy : GenerationModelPolicy} :
    validateParameters text modelPolicy model [(name, v)] = .ok () ↔
      ∀ constraint, modelPolicy.parameters.get? name = some constraint →
        validateConstraint text model name v constraint = .ok () := by
  unfold validateParameters validateParameters
  cases hconstraint : modelPolicy.parameters.get? name with
  | none => exact ⟨fun _ => nofun, fun _ => rfl⟩
  | some constraint =>
    simp only [Option.some.injEq, forall_eq']
    cases validateConstraint text model name v constraint with
    | ok _ => rfl
    | error message => exact ⟨fun h => h, fun h => h⟩

theorem listed_iff : assertGenerationRequestAllowedByPolicy text (some (.limited models)) model [] =
    .ok () ↔ model ∈ models.map (·.model) := by
  rw [allowed_iff, mem_map]
  constructor
  · rintro ⟨modelPolicy, hfind, -⟩
    exact ⟨modelPolicy, mem_of_find?_eq_some hfind,
      by simpa only [decide_eq_true_eq] using find?_some hfind⟩
  · rintro ⟨modelPolicy, hmem, rfl⟩
    obtain ⟨first, hfirst⟩ := Option.isSome_iff_exists.mp
      (find?_isSome (p := fun entry => decide (entry.model = modelPolicy.model)) |>.mpr
        ⟨modelPolicy, hmem, decide_eq_true rfl⟩)
    exact ⟨first, hfirst, rfl⟩

theorem model_narrowDeclaration (policy : Option GenerationPolicy)
    (declaration : GenerationModelDeclaration) :
    (narrowDeclaration policy declaration).model = declaration.model := by
  unfold narrowDeclaration
  split <;> rfl

/-- The constraint a limited policy has for a parameter. -/
def constraintOf (models : List GenerationModelPolicy) (model name : String) :
    Option GenerationParameterConstraint :=
  (models.find? (·.model = model)).bind (·.parameters.get? name)

theorem shown_is_enforced_iff (text : Json → String) (ofType : Option Json → Json → Prop)
    (declarations : List GenerationModelDeclaration) (models : List GenerationModelPolicy) :
    let policy := some (GenerationPolicy.limited models)
    let shown := filterGenerationDeclarationsByPolicy declarations policy
    let allowed (model : String) (parameters : List (String × Json)) : Prop :=
      assertGenerationRequestAllowedByPolicy text policy model parameters = .ok ()
    (∀ model, model ∈ shown.map (·.model) ↔
      model ∈ declarations.map (·.model) ∧ allowed model []) ∧
    ∀ declaration ∈ declarations, allowed declaration.model [] →
      ∀ parameters, declaration.parameters = some parameters →
      ∃ narrowed, { declaration with parameters := some narrowed } ∈ shown ∧
        ∀ name spec, parameters.get? name = some spec → ∃ spec', narrowed.get? name = some spec' ∧
          ∀ v, ((Admits ofType spec' v ↔
              Admits ofType spec v ∧ allowed declaration.model [(name, v)]) ↔
            ∀ constraint, constraintOf models declaration.model name = some constraint →
              Admits ofType spec v → Part true spec v constraint →
                OfKind v constraint ∧ Part false spec v constraint) := by
  intro policy shown allowed
  have hshown {declaration : GenerationModelDeclaration} : declaration ∈ shown ↔
      ∃ declared ∈ declarations, allowed declared.model [] ∧
        narrowDeclaration policy declared = declaration := by
    simp [shown, filterGenerationDeclarationsByPolicy, getAllowedGenerationModelIds, policy,
      allowed, listed_iff, and_assoc]
  refine ⟨fun model => ?_, fun declaration hdeclared hallowed parameters hparameters => ?_⟩
  · constructor
    · intro hmem
      obtain ⟨declaration, hin, rfl⟩ := mem_map.mp hmem
      obtain ⟨declared, hdeclared, hallowed, rfl⟩ := hshown.mp hin
      rw [model_narrowDeclaration]
      exact ⟨mem_map_of_mem hdeclared, hallowed⟩
    · rintro ⟨hmem, hallowed⟩
      obtain ⟨declared, hdeclared, rfl⟩ := mem_map.mp hmem
      exact mem_map.mpr ⟨_, hshown.mpr ⟨declared, hdeclared, hallowed, rfl⟩,
        model_narrowDeclaration _ declared⟩
  · obtain ⟨modelPolicy, hfind, -⟩ := allowed_iff.mp hallowed
    refine ⟨modelPolicy.parameters.entries.foldl narrowParameter parameters,
      hshown.mpr ⟨declaration, hdeclared, hallowed, ?_⟩, fun name spec hspec =>
        ⟨_, get?_narrowed hspec, fun v => ?_⟩⟩
    · unfold narrowDeclaration
      rw [show findGenerationModelPolicy policy declaration.model = _ from hfind, hparameters]
    · have hrequest : allowed declaration.model [(name, v)] ↔
          ∀ constraint, modelPolicy.parameters.get? name = some constraint →
            validateConstraint text declaration.model name v constraint = .ok () := by
        refine allowed_iff.trans ?_
        rw [hfind]
        simpa using validateParameters_single
      rw [hrequest, constraintOf, hfind, Option.bind_some]
      cases modelPolicy.parameters.get? name with
      | none => simp
      | some constraint =>
        have hvalid : validateConstraint text declaration.model name v constraint = .ok () ↔
            OfKind v constraint ∧ Part true spec v constraint ∧ Part false spec v constraint :=
          validateConstraint_iff
        simp only [Option.elim_some, Option.some.injEq, forall_eq', admits_narrowParameterSpec,
          hvalid]
        tauto

/-- At most four pictures, of a model that states no bound. -/
def fourPictures : List GenerationModelPolicy :=
  [⟨"draw", OrderedMap.empty.set "count" (.integer ⟨none, some 4, none⟩)⟩]

theorem missing_bound_stays_open :
    let draw : GenerationModelDeclaration :=
      ⟨"draw", some (OrderedMap.empty.set "count" [("type", .str "integer")])⟩
    filterGenerationDeclarationsByPolicy [draw] (some (.limited fourPictures)) = [draw] ∧
      Admits (fun _ _ => True) [("type", .str "integer")] (.num 8) ∧
      assertGenerationRequestAllowedByPolicy (fun _ => "") (some (.limited fourPictures)) "draw"
        [("count", .num 8)] ≠ .ok () := by
  refine ⟨rfl, ⟨trivial, trivial, ?_, ?_⟩, ?_⟩
  · intro own hown
    cases hown
  · intro own hown
    cases hown
  · rw [ne_eq, assertGenerationRequestAllowedByPolicy]
    decide +kernel

end Cohub.Generation
