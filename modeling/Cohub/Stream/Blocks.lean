import Mathlib.Data.List.Sort
import Cohub.Lib.JsonPointer
import Cohub.Realtime.Types

/-! # Content blocks and the paths that name them

    What the producer of a stream (`apps/agent/src/stream/patch-delta.ts`) and
    its client (`packages/sdk/src/session-patch-reducer.ts`) both know about
    content blocks: the index of a block in its stream, which blocks can stand
    for one another, and the paths of patch operations.

    A block is an object of JSON members.  The functions below read it
    dynamically, as the source does. -/

namespace Cohub.Stream

open Cohub.Realtime List

/-! ## Blocks -/

/-- `ContentBlock`: the members of the object. -/
abbrev ContentBlock := Fields

namespace ContentBlock

/-- `block.type`. -/
def type? (block : ContentBlock) : Option Json := block.get? "type"

end ContentBlock

/-- `getStreamIndex`: `block._meta?.streamIndex`, if that is a number. -/
def getStreamIndex (block : ContentBlock) : Option Rat :=
  (block.get? "_meta").bind fun _meta => (_meta.get? "streamIndex").bind Json.asNum?

def blockIdentityCompatible (prev next : ContentBlock) : Bool :=
  if prev.type? ≠ next.type? then false
  else if prev.type? = some (.str "tool_use") then
    prev.get? "id" = next.get? "id" ∧ prev.get? "name" = next.get? "name"
  else if prev.type? = some (.str "tool_result") then
    prev.get? "tool_use_id" = next.get? "tool_use_id"
  else true

/-- The block is a tool call or its result. -/
def isToolBlock (block : ContentBlock) : Bool :=
  block.type? = some (.str "tool_use") || block.type? = some (.str "tool_result")

theorem type_eq_of_compatible {prev next : ContentBlock}
    (h : blockIdentityCompatible prev next = true) : prev.type? = next.type? := by
  unfold blockIdentityCompatible at h
  split at h
  · cases h
  · next hne => exact not_not.mp hne

/-- A block as the schema has it: an object with a type, and with a record for
    its metadata if it has any. -/
structure IsBlock (block : ContentBlock) : Prop where
  canonical : Json.Canonical (.obj block)
  typed     : ∃ t, block.get? "type" = some (.str t)
  record    : ∀ v ∈ block.get? "_meta", v.isRecord = true

def textBlock (streamIndex : Nat) (text : String) : ContentBlock :=
  [("_meta", .obj [("streamIndex", .num streamIndex)]), ("text", .str text), ("type", .str "text")]

def thinkingBlock (streamIndex : Nat) (thinking : String) : ContentBlock :=
  [("_meta", .obj [("streamIndex", .num streamIndex)]), ("thinking", .str thinking),
    ("type", .str "thinking")]

/-! ## Numbers in text -/

/-- A number in a template string.  A fraction is written with a dot; that no
    path pattern matches one is all that depends on how. -/
def numberToString (n : Rat) : String :=
  if n.den = 1 then toString n.num else toString n.num ++ "." ++ toString n.den

variable (n : Nat)

theorem numberToString_natCast : numberToString n = toString n := by
  unfold numberToString
  rw [if_pos (Rat.den_natCast n), Rat.num_natCast]
  rfl

theorem toList_toString : (toString n).toList = Nat.toDigits 10 n := Nat.toList_repr

theorem isDigit_of_mem_toString {n : Nat} {c : Char} (h : c ∈ (toString n).toList) :
    c.isDigit = true := by
  rw [toList_toString] at h
  exact Nat.isDigit_of_mem_toDigits (by decide) (by decide) h

theorem toString_ne_nil : (toString n).toList ≠ [] := by
  rw [toList_toString]
  exact Nat.toDigits_ne_nil

/-! ## Paths -/

/-- What every path of a block starts with. -/
def blocksPath : List Char := "/message/content/blocks/".toList

/-- `` `/message/content/blocks/${streamIndex}` ``. -/
def blockPath (streamIndex : Rat) : String :=
  "/message/content/blocks/" ++ numberToString streamIndex

def joinPointerPath (basePath : String) (segments : List String) : String :=
  basePath ++ String.ofList (JsonPointer.encodeTail segments)

/-- The characters that `.` does not match. -/
def isLineTerminator (c : Char) : Bool := c.toNat ∈ [10, 13, 0x2028, 0x2029]

/-- `` ^/message/content/blocks/(\d+) ``: the index and what follows it. -/
def matchBlockIndex (path : String) : Option (Nat × List Char) :=
  if blocksPath.isPrefixOf path.toList then
    let rest := path.toList.drop blocksPath.length
    let digits := rest.takeWhile Char.isDigit
    if digits = [] then none
    else some (Nat.ofDigitChars 10 digits 0, rest.dropWhile Char.isDigit)
  else none

/-- `blockPathPattern`. -/
def matchBlockPath (path : String) : Option Nat :=
  (matchBlockIndex path).bind fun (streamIndex, rest) =>
    if rest = [] then some streamIndex else none

/-- `blockSubPathPattern`: the index and the encoded tail. -/
def matchBlockSubPath (path : String) : Option (Nat × String) :=
  (matchBlockIndex path).bind fun (streamIndex, rest) =>
    match rest with
    | '/' :: tail =>
        if tail = [] ∨ tail.any isLineTerminator then none
        else some (streamIndex, String.ofList tail)
    | _ => none

/-- `blockMetaPathPattern`. -/
def matchBlockMetaPath (path : String) : Option Nat :=
  (matchBlockIndex path).bind fun (streamIndex, rest) =>
    if rest = "/_meta".toList then some streamIndex else none

/-- The client's pattern matches the keys once they are joined: the text is
    not empty and has no line terminator. -/
def Readable (segments : List String) : Prop :=
  JsonPointer.encode segments ≠ "" ∧
    (JsonPointer.encode segments).toList.any isLineTerminator = false

instance (segments : List String) : Decidable (Readable segments) :=
  inferInstanceAs (Decidable (_ ∧ _))

variable (streamIndex : Nat)

theorem matchBlockIndex_append (rest : List Char) (hrest : ∀ c ∈ rest.head?, c.isDigit = false) :
    matchBlockIndex (blockPath streamIndex ++ String.ofList rest) = some (streamIndex, rest) := by
  have hpath : (blockPath streamIndex ++ String.ofList rest).toList =
      blocksPath ++ ((toString streamIndex).toList ++ rest) := by
    unfold blockPath
    rw [String.toList_append, String.toList_ofList, String.toList_append, numberToString_natCast,
      append_assoc]
    rfl
  have hprefix : blocksPath.isPrefixOf (blocksPath ++ ((toString streamIndex).toList ++ rest)) := by
    rw [List.isPrefixOf_iff_prefix]
    exact prefix_append _ _
  have hdigits : ∀ c ∈ (toString streamIndex).toList, c.isDigit = true :=
    fun c hc => isDigit_of_mem_toString hc
  have hstop : rest.takeWhile Char.isDigit = [] ∧ rest.dropWhile Char.isDigit = rest := by
    cases rest with
    | nil => exact ⟨rfl, rfl⟩
    | cons c rest =>
      have hc := hrest c rfl
      exact ⟨takeWhile_cons_of_neg (by simp [hc]), dropWhile_cons_of_neg (by simp [hc])⟩
  unfold matchBlockIndex
  rw [hpath, if_pos hprefix, drop_left]
  simp only [takeWhile_append_of_pos hdigits, dropWhile_append_of_pos hdigits, hstop.1,
    hstop.2, append_nil, if_neg (toString_ne_nil streamIndex)]
  rw [toList_toString, Nat.ofDigitChars_ten_toDigits]

@[simp] theorem matchBlockPath_blockPath :
    matchBlockPath (blockPath streamIndex) = some streamIndex := by
  have h := matchBlockIndex_append streamIndex [] (by simp)
  rw [String.ofList_nil, String.append_empty] at h
  unfold matchBlockPath
  rw [h]
  rfl

@[simp] theorem matchBlockSubPath_blockPath :
    matchBlockSubPath (blockPath streamIndex) = none := by
  have h := matchBlockIndex_append streamIndex [] (by simp)
  rw [String.ofList_nil, String.append_empty] at h
  unfold matchBlockSubPath
  rw [h]
  rfl

theorem matchBlockSubPath_joinPointerPath {segments : List String} (h : Readable segments) :
    matchBlockSubPath (joinPointerPath (blockPath streamIndex) segments) =
      some (streamIndex, JsonPointer.encode segments) := by
  obtain ⟨hne, hlines⟩ := h
  unfold JsonPointer.encode at hne hlines
  rw [String.toList_ofList] at hlines
  cases segments with
  | nil => exact absurd rfl hne
  | cons s rest =>
    have htail : JsonPointer.encodeTail (s :: rest) =
        '/' :: (JsonPointer.encodeTail (s :: rest)).tail := rfl
    have hnil : (JsonPointer.encodeTail (s :: rest)).tail ≠ [] := fun hnil => hne (by rw [hnil])
    unfold matchBlockSubPath joinPointerPath
    rw [matchBlockIndex_append streamIndex _ (by rw [htail]; simp), htail]
    simp only [Option.bind_some]
    rw [if_neg (by rw [hlines]; simp [hnil])]
    unfold JsonPointer.encode
    rw [htail]

end Cohub.Stream
