import Cohub.Board.MergePatch
import Cohub.Board.Model

/-! # Animatable properties

    `resolveBoardProperty` of `packages/protocol/src/board-patch.ts`: which
    properties of a target a track may animate, and what its keyframes must
    be.  The properties of an item are found by walking its schema. -/

namespace Cohub.Board

/-! ## Walking a schema -/

/-- `unwrap`: the schema below its optional, default and prefault layers. -/
def unwrap : Schema → Schema
  | .optional inner => unwrap inner
  | .default inner _ => unwrap inner
  | .prefault inner _ => unwrap inner
  | schema => schema

/-- A schema without its checks and its name, which leave `def` as it is. -/
def withoutChecks : Schema → Schema
  | .refine inner _ => withoutChecks inner
  | .tagged _ inner => withoutChecks inner
  | schema => schema

def unwrapObjectShape (schema : Schema) : Option (List (String × Schema)) :=
  match withoutChecks (unwrap schema) with
  | .object shape => some shape
  | _ => none

/-- The result of a walk: a schema, nothing, or a read of an inherited member
    that ends in a `TypeError`. -/
inductive SchemaWalk where
  | found (schema : Schema)
  | missing
  | typeError

/-- The member of the first option that has one. -/
def optionMember (segment : String) : List Schema → SchemaWalk
  | [] => .missing
  | option :: rest =>
      match unwrapObjectShape option with
      | some shape =>
          match OrderedMap.lookupEntry segment shape with
          | some schema => .found schema
          | none => if isInherited segment then .typeError else optionMember segment rest
      | none => optionMember segment rest

def schemaAtPath (schema : Schema) : List String → SchemaWalk
  | [] => .found schema
  | segment :: path =>
      match withoutChecks (unwrap schema) with
      | .object shape =>
          match OrderedMap.lookupEntry segment shape with
          | some s => schemaAtPath s path
          | none => .missing
      | .record _ value => schemaAtPath value path
      | .union options =>
          match optionMember segment options with
          | .found s => schemaAtPath s path
          | r => r
      | .switch _ cases =>
          match optionMember segment (cases.map Prod.snd) with
          | .found s => schemaAtPath s path
          | r => r
      | _ => .missing

/-! ## Properties -/

inductive BoardValueKind where
  | number | vec2 | scale | color | discrete
  deriving DecidableEq

/-- `BoardPropertySpec`, as far as validation reads it. -/
structure BoardPropertySpec where
  kind   : BoardValueKind
  schema : Schema

/-- The schema is the one named `BoardColor`. -/
def isColorSchema : Schema → Bool
  | .tagged name _ => name = "BoardColor"
  | _ => false

def kindOf (schema : Schema) (path : List String) : BoardValueKind :=
  if path.length = 1 ∧ path.getLast? = some "scale" then .scale
  else if isColorSchema (unwrap schema) then .color
  else match withoutChecks (unwrap schema) with
    | .number _ => .number
    | .object shape =>
        let keys := shape.map Prod.fst
        if keys.length = 2 ∧ keys.contains "x" ∧ keys.contains "y" then .vec2 else .discrete
    | _ => .discrete

/-- `NOT_ANIMATABLE`. -/
def notAnimatable : List String :=
  ["type", "parent", "z", "locked", "autoplay", "metadata", "script"]

/-- `CAMERA_PROPERTIES`. -/
def cameraProperties : List (String × BoardPropertySpec) := [
  ("focus", { kind := .discrete, schema := .union [text (some 1) none, .object [
    ("x", finite), ("y", finite), ("width", positive), ("height", positive)]] }),
  ("zoom", { kind := .number, schema := positive }),
  ("center", { kind := .vec2, schema := boardVec2Schema }),
  ("shake", { kind := .number, schema := nonNegative })]

/-- `ANIMATION_PROPERTIES`. -/
def animationProperties : List (String × BoardPropertySpec) :=
  [("time", { kind := .number, schema := nonNegative })]

/-- `SCRIPT_PARAMETER`. -/
def scriptParameter : BoardPropertySpec := { kind := .discrete, schema := .json }

/-- The property is `before` followed by a name without a dot. -/
def isParameterOf (before property : String) : Bool :=
  before.toList.isPrefixOf property.toList &&
    let name := property.toList.drop before.length
    !name.isEmpty && !name.contains '.'

/-- The result of `resolveBoardProperty`; `typeError` where it reads a member
    inherited by one of its tables. -/
inductive PropertyResult where
  | ok (spec : BoardPropertySpec)
  | unknown (message : String)
  | typeError

/-- A table of properties, read by name. -/
def readProperty (table : List (String × BoardPropertySpec)) (property message : String) :
    PropertyResult :=
  match OrderedMap.lookupEntry property table with
  | some spec => .ok spec
  | none => if isInherited property then .typeError else .unknown message

def resolveBoardProperty (rules : TextRules) (targetType property : String) : PropertyResult :=
  if targetType = boardCameraTarget then
    readProperty cameraProperties property
      ("camera has no property " ++ property ++ "; expected focus, zoom, center, shake")
  else if targetType = "animation" then
    readProperty animationProperties property "animations are driven through time"
  else if targetType = "script" then
    if isParameterOf "params." property then .ok scriptParameter
    else .unknown ("Board scripts animate params.<name>, not " ++ property)
  else if isParameterOf "script.params." property then .ok scriptParameter
  else
    let path := (Text.splitAt (· == '.') property).map String.ofList
    if path.any (· = "") || notAnimatable.contains (path.headD "") then
      .unknown (property ++ " cannot be animated")
    else match boardItemSchema rules targetType with
      | none => .unknown ("unknown item type " ++ targetType)
      | some schema =>
          if !isBuiltinItemType targetType && path.headD "" = "props" then
            .ok { kind := .discrete, schema := .unknown }
          else match schemaAtPath schema path with
            | .found leaf => .ok { kind := kindOf leaf path, schema := unwrap leaf }
            | .missing => .unknown (targetType ++ " has no property " ++ property)
            | .typeError => .typeError

end Cohub.Board
