import Cohub.Board.View
import Cohub.Timeline.Sampling

/-! # Copying and pasting items

    `packages/sdk/src/board/editor/clipboard.ts`.  The clipboard holds items,
    with their scripts; it holds no animations.  `encodeClipboard` moves the
    items without a parent in the copy by the origin, `parseClipboard` parses
    every item as a board does, and `materializeClipboard` gives the items new
    ids, rewrites what they say about each other and moves them to where they
    are pasted.

    Moving an item is something that its schema does not notice
    (`parseBoardItem_shiftItem`), so what is pasted is a copy of what was
    copied (`IsCopy`). -/

namespace Cohub.Board

open Json List Option OrderedMap Schema

open Timeline (BoardVec2)

/-! ## The clipboard -/

/-- `BOARD_CLIPBOARD_KIND`. -/
def boardClipboardKind : String := "cohub.board.clipboard"

/-- `BOARD_CLIPBOARD_VERSION`. -/
def boardClipboardVersion : Rat := 3

/-- `MAX_CLIPBOARD_ITEMS`. -/
def maxClipboardItems : Nat := 2000

/-- `MAX_CLIPBOARD_CHARS`. -/
def maxClipboardChars : Nat := 4 * 1024 * 1024

structure BoardClipboardPayload where
  items  : OrderedMap String Json
  origin : BoardVec2

/-- The payload as a value; its items keep their order. -/
def BoardClipboardPayload.toJson (payload : BoardClipboardPayload) : Json :=
  .obj [("items", .obj payload.items.entries), ("kind", .str boardClipboardKind),
    ("origin", payload.origin.toJson), ("version", .num boardClipboardVersion)]

/-- A coordinate of an item's position. -/
def positionOf (item : Json) (axis : String) : Rat :=
  ((item.at? ["position", axis]).bind Json.asNum?).getD 0

def shiftItem (item : Json) (dx dy : Rat) : Json :=
  .obj (Fields.set item.fields "position"
    (BoardVec2.toJson { x := positionOf item "x" + dx, y := positionOf item "y" + dy }))

/-- `item.parent && items[item.parent]`. -/
def hasParentIn (items : OrderedMap String Json) (item : Json) : Bool :=
  match itemParent item with
  | some parent => parent != "" && (readMember (items.get? parent) parent).isSome
  | none => false

/-- An item as `encodeClipboard` stores it. -/
def encodeItem (items : OrderedMap String Json) (origin : BoardVec2) (item : Json) : Json :=
  if hasParentIn items item then item else shiftItem item (-origin.x) (-origin.y)

def encodeClipboard (items : OrderedMap String Json) (origin : BoardVec2) :
    Option BoardClipboardPayload :=
  if items.size = 0 ∨ maxClipboardItems < items.size then none
  else some { items := items.mapValues fun _ item => encodeItem items origin item
              origin := origin }

/-- What `parseClipboard` may be given. -/
inductive ClipboardInput where
  | missing
  | text (s : String)
  | value (v : Json)

section Parse

variable (rules : TextRules)

/-- `items[id] = item`; under `__proto__` this makes no entry. -/
def storeItem (items : OrderedMap String Json) (id : String) (item : Json) :
    OrderedMap String Json :=
  if id = "__proto__" then items else items.set id item

/-- The items of a payload, if each is one. -/
def parseClipboardItems (items : OrderedMap String Json) : Fields → Option (OrderedMap String Json)
  | [] => some items
  | (id, value) :: rest =>
      match parseBoardItem rules value "item" none with
      | .ok item => parseClipboardItems (storeItem items id item) rest
      | .error _ => none

/-- `parseClipboard` of a value. -/
def parseClipboardValue (raw : Json) : Option BoardClipboardPayload :=
  if raw.get? "kind" = some (.str boardClipboardKind) ∧
      raw.get? "version" = some (.num boardClipboardVersion) then
    match (raw.at? ["origin", "x"]).bind Json.asNum?, (raw.at? ["origin", "y"]).bind Json.asNum?,
      raw.get? "items" with
    | some x, some y, some (.obj entries) =>
        if entries.length = 0 ∨ maxClipboardItems < entries.length then none
        else (parseClipboardItems rules OrderedMap.empty entries).map fun items =>
          { items := items, origin := { x := x, y := y } }
    | _, _, _ => none
  else none

/-- `parseClipboard`; `parseJson` is `JSON.parse`, which may throw. -/
def parseClipboard (parseJson : String → Option Json) :
    ClipboardInput → Option BoardClipboardPayload
  | .missing => none
  | .text s =>
      if maxClipboardChars < Text.utf16Length s then none
      else (parseJson s).bind (parseClipboardValue rules)
  | .value v => parseClipboardValue rules v

end Parse

/-! ### Remapping -/

/-- Where the ends of arrows are that are bound outside the copy. -/
abbrev ResolveEnd := String → ArrowSide → Option BoardPoint

section Remap

variable (idMap : OrderedMap String String)

/-- The new id for an old one; an empty text counts as none. -/
def mappedId (id : String) : Option String := (idMap.get? id).filter (· != "")

/-- The item without `locked`. -/
def unlockItem (item : Json) : Json := .obj (Fields.erase item.fields "locked")

/-- A target of a script, mapped where it is copied. -/
def remapTarget (copyOf : String → Option String) : Json → Json
  | .str target => .str ((copyOf target).getD target)
  | target => target

/-- The members of an object, or none. -/
def membersOf (v : Json) (k : String) : Fields := ((v.get? k).map Json.fields).getD []

/-- The item with the targets of its script mapped. -/
def remapScript (item : Json) : Json :=
  match item.get? "script" with
  | some script =>
      .obj (Fields.set item.fields "script" (.obj (Fields.set script.fields "targets"
        (.obj ((membersOf script "targets").map fun e => (e.1, remapTarget idMap.get? e.2))))))
  | none => item

/-- The item in its copied parent, or in none. -/
def remapParent (item : Json) : Json :=
  match itemParent item with
  | some parent =>
      if parent = "" then item
      else match mappedId idMap parent with
        | some copy => .obj (Fields.set item.fields "parent" (.str copy))
        | none => .obj (Fields.erase item.fields "parent")
  | none => item

/-- An end of an arrow: bound to the copy, or a point. -/
def remapEnd (resolveEnd : ResolveEnd) (id : String) (which : ArrowSide) (end_ : Json) : Json :=
  match boundItem (some end_) with
  | some bound =>
      match mappedId idMap bound with
      | some copy => .obj (Fields.set end_.fields "item" (.str copy))
      | none => pointEnd ((resolveEnd id which).getD { x := .num 0, y := .num 0 })
  | none => end_

/-- The props with one end of the arrow mapped. -/
def withEnd (resolveEnd : ResolveEnd) (id : String) (item : Json) (props : Fields)
    (which : ArrowSide) : Fields :=
  match arrowEnd item which with
  | some end_ => Fields.set props which.name (remapEnd idMap resolveEnd id which end_)
  | none => props

/-- The item with the ends of a bound arrow mapped. -/
def remapEnds (resolveEnd : ResolveEnd) (id : String) (item : Json) : Json :=
  if itemType item = some "arrow" ∧ arrowBindings item ≠ [] then
    .obj (Fields.set item.fields "props" (.obj
      ([ArrowSide.start, .end_].foldl (withEnd idMap resolveEnd id item) (membersOf item "props"))))
  else item

/-- One item of `remapItems`. -/
def remapItem (place : Json → Json) (resolveEnd : ResolveEnd) (id : String) (source : Json) :
    Json :=
  remapEnds idMap resolveEnd id
    (remapParent idMap (remapScript idMap (unlockItem (place source))))

/-- `remapItems`; `created` are the ids made for items that the map leaves out. -/
def remapItems (items : OrderedMap String Json) (place : Json → Json) (resolveEnd : ResolveEnd)
    (created : String → String) : OrderedMap String Json :=
  items.entries.foldl
    (fun result e => result.set ((idMap.get? e.1).getD (created e.1))
      (remapItem idMap place resolveEnd e.1 e.2))
    OrderedMap.empty

/-- The `place` of a paste: only what has no parent in the copy is moved. -/
def placeItem (landing : BoardVec2) (item : Json) : Json :=
  match itemParent item with
  | some parent =>
      if parent != "" && idMap.has parent then item else shiftItem item landing.x landing.y
  | none => shiftItem item landing.x landing.y

end Remap

/-- `createBoardItemId`; `createBoardEntityId` are the ids that the platform makes. -/
def createBoardItemId (createBoardEntityId : Nat → String) (n : Nat) : String :=
  "item_" ++ createBoardEntityId n

/-- The `idMap` of a paste, the ids in the order they are made. -/
def pasteIds (createBoardEntityId : Nat → String) (items : OrderedMap String Json) :
    OrderedMap String String :=
  OrderedMap.ofList
    (items.keys.zipIdx.map fun e => (e.1, createBoardItemId createBoardEntityId e.2))

def materializeClipboard (createBoardEntityId : Nat → String) (payload : BoardClipboardPayload)
    (landing : BoardVec2) (resolveEnd : ResolveEnd) : OrderedMap String Json :=
  let idMap := pasteIds createBoardEntityId payload.items
  remapItems idMap payload.items (placeItem idMap landing) resolveEnd
    (fun id =>
      createBoardItemId createBoardEntityId (payload.items.size + payload.items.keys.idxOf id))

/-! ## Members of a rewritten item -/

theorem get?_obj_set (fs : Fields) (k k' : String) (v : Json) :
    (Json.obj (Fields.set fs k v)).get? k' = if k' = k then some v else Fields.get? fs k' :=
  Fields.get?_set fs k k' v

theorem get?_obj_erase (fs : Fields) (k k' : String) :
    (Json.obj (Fields.erase fs k)).get? k' = if k' = k then none else Fields.get? fs k' :=
  Fields.get?_erase fs k k'

variable {item : Json} {k : String}

theorem get?_shiftItem {dx dy : Rat} (h : k ≠ "position") :
    (shiftItem item dx dy).get? k = item.get? k := by
  unfold shiftItem
  rw [get?_obj_set, if_neg h]
  rfl

theorem get?_unlockItem (h : k ≠ "locked") : (unlockItem item).get? k = item.get? k := by
  unfold unlockItem
  rw [get?_obj_erase, if_neg h]
  rfl

section

variable (idMap : OrderedMap String String) {item : Json} {k : String}

theorem get?_remapScript (h : k ≠ "script") : (remapScript idMap item).get? k = item.get? k := by
  unfold remapScript
  split
  · rw [get?_obj_set, if_neg h]
    rfl
  · rfl

theorem get?_remapParent (h : k ≠ "parent") : (remapParent idMap item).get? k = item.get? k := by
  unfold remapParent
  split
  · split
    · rfl
    · split
      · rw [get?_obj_set, if_neg h]
        rfl
      · rw [get?_obj_erase, if_neg h]
        rfl
  · rfl

theorem get?_remapEnds {resolveEnd : ResolveEnd} {id : String}
    (h : k ≠ "props") : (remapEnds idMap resolveEnd id item).get? k = item.get? k := by
  unfold remapEnds
  split
  · rw [get?_obj_set, if_neg h]
    rfl
  · rfl

theorem get?_placeItem {landing : BoardVec2} (h : k ≠ "position") :
    (placeItem idMap landing item).get? k = item.get? k := by
  unfold placeItem
  split
  · split
    · rfl
    · exact get?_shiftItem h
  · exact get?_shiftItem h

end

/-! ## The schema of a moved item -/

variable {rules : TextRules} {value : Json} {path : String} {items : OrderedMap String Json}
    {payload : BoardClipboardPayload}

theorem parseBoardItem_eq_ok :
    parseBoardItem rules value path none = .ok item ↔
      ∃ type schema, itemType value = some type ∧ boardItemSchema rules type = some schema ∧
        schema.parse (some value) = .ok (some item) := by
  constructor
  · intro h
    unfold parseBoardItem at h
    split at h
    · cases h
    · next type htype =>
      split at h
      · cases h
      · next schema hschema =>
        split at h
        · next y hy =>
          cases h
          exact ⟨type, schema, htype, hschema, parseKeeping_none_eq_ok hy⟩
        · cases h
  · rintro ⟨type, schema, htype, hschema, hparse⟩
    have hkeep : parseKeepingBoardFields schema value none = .ok item := by
      unfold parseKeepingBoardFields
      simp only [hparse]
      rfl
    unfold parseBoardItem
    simp only [htype, hschema, hkeep]

variable {type : String} {schema : Schema} {origin : BoardVec2} {createBoardEntityId : Nat → String}

theorem boardItemSchema_shape (h : boardItemSchema rules type = some schema) :
    ∃ shape, schema = .object shape ∧ (shape.map Prod.fst).Nodup ∧
      ("parent", .optional boardIdSchema) ∈ shape ∧
      ("position", .default boardVec2Schema (record [("x", .num 0), ("y", .num 0)])) ∈ shape := by
  have hlawful := boardItemSchema_lawful h
  have hshape : ∃ shape, schema = .object shape ∧
      ("parent", .optional boardIdSchema) ∈ shape ∧
      ("position", .default boardVec2Schema (record [("x", .num 0), ("y", .num 0)])) ∈ shape := by
    unfold boardItemSchema at h
    split at h
    · have hall : ∀ e ∈ boardItemSchemas rules, ∃ shape, e.2 = .object shape ∧
          ("parent", .optional boardIdSchema) ∈ shape ∧
          ("position", .default boardVec2Schema (record [("x", .num 0), ("y", .num 0)])) ∈
            shape := by
        intro e he
        simp only [boardItemSchemas, mem_cons, not_mem_nil, or_false] at he
        rcases he with rfl | rfl | rfl | rfl | rfl | rfl | rfl | rfl | rfl | rfl | rfl | rfl | rfl
          <;> exact ⟨_, rfl, by simp [unsized, itemEnvelope], by simp [unsized, itemEnvelope]⟩
      exact hall _ (mem_of_lookupEntry h)
    · split at h
      · cases h
        exact ⟨_, rfl, by simp [unsized, itemEnvelope], by simp [unsized, itemEnvelope]⟩
      · cases h
  obtain ⟨shape, rfl, hparent, hposition⟩ := hshape
  exact ⟨shape, rfl, (lawful_shapeOf rfl hlawful).1, hparent, hposition⟩

theorem boardItemSchema_type (h : boardItemSchema rules type = some schema) :
    ∃ shape s, schema = .object shape ∧ lookupEntry "type" shape = some s ∧
      ((∃ name, s = .enum [name]) ∨ ∃ checks, s = .string checks) := by
  unfold boardItemSchema at h
  split at h
  · have hall : ∀ e ∈ boardItemSchemas rules, ∃ shape s, e.2 = .object shape ∧
        lookupEntry "type" shape = some s ∧
        ((∃ name, s = enum [name]) ∨ ∃ checks, s = .string checks) := by
      intro e he
      simp only [boardItemSchemas, mem_cons, not_mem_nil, or_false] at he
      rcases he with rfl | rfl | rfl | rfl | rfl | rfl | rfl | rfl | rfl | rfl | rfl | rfl | rfl <;>
        exact ⟨_, _, rfl, rfl, .inl ⟨_, rfl⟩⟩
    exact hall _ (mem_of_lookupEntry h)
  · split at h
    · cases h
      exact ⟨_, _, rfl, rfl, .inr ⟨_, rfl⟩⟩
    · cases h

theorem parse_vec2 (v : BoardVec2) :
    boardVec2Schema.parse (some v.toJson) = .ok (some v.toJson) := by
  have hxy : "x" < "y" := by decide +kernel
  refine parse_object_self (by decide) (pairwise_pair.mpr hxy) ?_ ?_
  · intro k hk
    exact hk
  · intro k s hmem
    simp only [mem_cons, not_mem_nil, or_false] at hmem
    rcases hmem with h | h <;> cases h <;> rfl

/-- What `parseClipboard` returns unchanged. -/
def Plain (rules : TextRules) (item : Json) : Prop :=
  parseBoardItem rules item "item" none = .ok item

theorem plain_of_parseBoardItem
    (h : parseBoardItem rules value path none = .ok item) : Plain rules item := by
  obtain ⟨type, schema, htype, hschema, hparse⟩ := parseBoardItem_eq_ok.mp h
  refine parseBoardItem_eq_ok.mpr ⟨type, schema, ?_, hschema,
    parse_stable (boardItemSchema_lawful hschema) hparse⟩
  obtain ⟨shape, s, rfl, hlookup, htypeSchema⟩ := boardItemSchema_type hschema
  have hmem := mem_of_lookupEntry hlookup
  obtain ⟨fs, out, hfs, hout, -, -, hmember, -⟩ := parse_object_eq_ok
    (lawful_shapeOf rfl (boardItemSchema_lawful hschema)).1 hparse
  cases hfs
  cases hout
  have htext : Fields.get? fs "type" = some (.str type) := asString?_eq_some.mp htype
  have hsame := hmember "type" s hmem
  rw [htext] at hsame
  have hout : Fields.get? out "type" = some (.str type) := by
    rcases htypeSchema with ⟨name, rfl⟩ | ⟨checks, rfl⟩
    · obtain ⟨t, -, ht, hr⟩ := parse_enum_eq_ok hsame
      cases ht
      exact hr
    · rw [parse, conclude_eq_ok] at hsame
      exact hsame.2
  exact asString?_eq_some.mpr hout

theorem parseBoardItem_shiftItem (h : Plain rules item)
    (dx dy : Rat) : Plain rules (shiftItem item dx dy) := by
  obtain ⟨type, schema, htype, hschema, hparse⟩ := parseBoardItem_eq_ok.mp h
  obtain ⟨shape, rfl, hnodup, -, hposition⟩ := boardItemSchema_shape hschema
  obtain ⟨fs, hfs⟩ := (isRecord_iff item).mp (parseBoardItem_spec h).1
  subst hfs
  have htype' : itemType (shiftItem (.obj fs) dx dy) = some type := by
    unfold itemType at htype ⊢
    rw [get?_shiftItem (by decide)]
    exact htype
  exact parseBoardItem_eq_ok.mpr ⟨type, .object shape, htype', hschema,
    parse_object_set hnodup hparse hposition (parse_vec2 _)⟩

theorem parent_of_plain (h : Plain rules item) :
    item.get? "parent" = none ∨ ∃ q, item.get? "parent" = some (.str q) ∧ q ≠ "" := by
  obtain ⟨type, schema, -, hschema, hparse⟩ := parseBoardItem_eq_ok.mp h
  obtain ⟨shape, rfl, hnodup, hparent, -⟩ := boardItemSchema_shape hschema
  obtain ⟨fs, out, hfs, -, -, -, hmember, -⟩ := parse_object_eq_ok hnodup hparse
  cases hfs
  have hid := hmember "parent" _ hparent
  rw [get?_obj]
  cases hget : Fields.get? fs "parent" with
  | none => exact .inl rfl
  | some v =>
    right
    rw [hget] at hid
    cases v with
    | str q =>
      refine ⟨q, rfl, ?_⟩
      intro hq
      subst hq
      simp only [boardIdSchema, parse, conclude_eq_ok] at hid
      exact absurd hid.1 (by decide)
    | _ => cases hid

/-! ## The clipboard keeps its items -/

theorem encodeClipboard_eq_none (items : OrderedMap String Json) (origin : BoardVec2) :
    encodeClipboard items origin = none ↔ items.size = 0 ∨ maxClipboardItems < items.size := by
  unfold encodeClipboard
  split
  · next h => exact iff_of_true rfl h
  · next h => exact iff_of_false (by simp) h

theorem encodeClipboard_eq_some (h : encodeClipboard items origin = some payload) :
    ¬ (items.size = 0 ∨ maxClipboardItems < items.size) ∧
      payload = { items := items.mapValues fun _ item => encodeItem items origin item
                  origin := origin } := by
  unfold encodeClipboard at h
  split at h
  · cases h
  · next hsize =>
    cases h
    exact ⟨hsize, rfl⟩

theorem plain_encodeItem (h : Plain rules item) (items : OrderedMap String Json)
    (origin : BoardVec2) : Plain rules (encodeItem items origin item) := by
  unfold encodeItem
  split
  · exact h
  · exact parseBoardItem_shiftItem h _ _

theorem parseClipboardItems_of_plain (entries : Fields)
    (hplain : ∀ e ∈ entries, Plain rules e.2) (hproto : ∀ e ∈ entries, e.1 ≠ "__proto__") :
    ∀ items, parseClipboardItems rules items entries =
      some (entries.foldl (fun items e => items.set e.1 e.2) items) := by
  induction entries with
  | nil =>
    intro items
    rfl
  | cons e rest ih =>
    intro items
    have hitem : parseBoardItem rules e.2 "item" none = .ok e.2 := hplain e mem_cons_self
    have hstore : storeItem items e.1 e.2 = items.set e.1 e.2 :=
      if_neg (hproto e mem_cons_self)
    rw [parseClipboardItems, hitem]
    simp only [hstore]
    exact ih (fun e he => hplain e (mem_cons_of_mem _ he))
      (fun e he => hproto e (mem_cons_of_mem _ he)) _

/-- What the clipboard gives back for a payload: the payload, or a text that is
    not too long and that reads as it. -/
def Carries (parseJson : String → Option Json) (payload : BoardClipboardPayload) :
    ClipboardInput → Prop
  | .missing => False
  | .text s =>
      Text.utf16Length s ≤ maxClipboardChars ∧ parseJson s = some payload.toJson
  | .value v => v = payload.toJson

section

variable (hplain : ∀ e ∈ payload.items.entries, Plain rules e.2)
  (hproto : payload.items.has "__proto__" = false)
  (hsize : ¬ (payload.items.size = 0 ∨ maxClipboardItems < payload.items.size))
include hplain hproto hsize

theorem parseClipboardValue_toJson :
    parseClipboardValue rules payload.toJson = some payload := by
  have hkeys : ∀ e ∈ payload.items.entries, e.1 ≠ "__proto__" := by
    intro e he heq
    have hget := (payload.items.mem_entries_iff e.1 e.2).mp he
    unfold has at hproto
    rw [← heq, hget] at hproto
    cases hproto
  have hitems : parseClipboardItems rules OrderedMap.empty payload.items.entries =
      some payload.items := by
    rw [parseClipboardItems_of_plain _ hplain hkeys]
    exact congrArg some (ext_entries (entries_ofList payload.items.nodup))
  have hsize' : ¬ (payload.items.entries.length = 0 ∨
      maxClipboardItems < payload.items.entries.length) := hsize
  have hkind : payload.toJson.get? "kind" = some (.str boardClipboardKind) ∧
      payload.toJson.get? "version" = some (.num boardClipboardVersion) := ⟨rfl, rfl⟩
  have hx : (payload.toJson.at? ["origin", "x"]).bind asNum? = some payload.origin.x := rfl
  have hy : (payload.toJson.at? ["origin", "y"]).bind asNum? = some payload.origin.y := rfl
  have hentries : payload.toJson.get? "items" = some (.obj payload.items.entries) := rfl
  unfold parseClipboardValue
  rw [if_pos hkind, hx, hy, hentries]
  simp only [if_neg hsize', hitems]
  rfl

theorem parseClipboard_of_carries {parseJson : String → Option Json} {raw : ClipboardInput}
    (h : Carries parseJson payload raw) : parseClipboard rules parseJson raw = some payload := by
  have hvalue := parseClipboardValue_toJson hplain hproto hsize
  cases raw with
  | missing => exact h.elim
  | text s =>
    rw [parseClipboard, if_neg (Nat.not_lt.mpr h.1), h.2]
    exact hvalue
  | value v =>
    rw [parseClipboard, show v = payload.toJson from h]
    exact hvalue

/-! ## New ids -/

/-- The platform never makes an id twice, nor one that is taken. -/
structure FreshIds (createBoardEntityId : Nat → String) (taken : String → Prop) : Prop where
  distinct : Function.Injective createBoardEntityId
  free : ∀ n, ¬ taken (createBoardItemId createBoardEntityId n)

end

theorem createBoardItemId_injective (h : Function.Injective createBoardEntityId) :
    Function.Injective (createBoardItemId createBoardEntityId) := by
  intro m n heq
  exact h ((String.append_right_inj "item_").mp heq)

theorem createBoardItemId_ne_empty (createBoardEntityId : Nat → String) (n : Nat) :
    createBoardItemId createBoardEntityId n ≠ "" := by
  intro h
  exact absurd (String.append_eq_empty_iff.mp h).1 (by decide)

section

variable (createBoardEntityId : Nat → String) (items : OrderedMap String Json)

theorem entries_pasteIds : (pasteIds createBoardEntityId items).entries =
    items.keys.zipIdx.map fun e => (e.1, createBoardItemId createBoardEntityId e.2) := by
  refine entries_ofList ?_
  rw [List.map_map]
  show (items.keys.zipIdx.map Prod.fst).Nodup
  rw [zipIdx_map_fst]
  exact items.nodup

theorem get?_pasteIds (id : String) : (pasteIds createBoardEntityId items).get? id =
    if items.has id then
      some (createBoardItemId createBoardEntityId (items.keys.idxOf id))
    else none := by
  by_cases hhas : items.has id = true
  · rw [if_pos hhas, ← mem_entries_iff, entries_pasteIds]
    refine List.mem_map.mpr ⟨(id, items.keys.idxOf id), ?_, rfl⟩
    exact mem_zipIdx_iff_getElem?.mpr
      (getElem?_idxOf ((items.mem_keys_iff id).mpr hhas))
  · rw [if_neg hhas]
    unfold OrderedMap.get?
    rw [lookupEntry_eq_none_iff, entries_pasteIds, List.map_map]
    show id ∉ items.keys.zipIdx.map Prod.fst
    rw [zipIdx_map_fst, items.mem_keys_iff]
    exact hhas

variable {createBoardEntityId items} {copy : String}

theorem has_of_get?_pasteIds {id : String}
    (h : (pasteIds createBoardEntityId items).get? id = some copy) : items.has id = true ∧
      copy = createBoardItemId createBoardEntityId (items.keys.idxOf id) := by
  rw [get?_pasteIds] at h
  split at h
  · next hhas =>
    cases h
    exact ⟨hhas, rfl⟩
  · cases h

theorem pasteIds_injective (h : Function.Injective createBoardEntityId) {a b : String}
    (ha : (pasteIds createBoardEntityId items).get? a = some copy)
    (hb : (pasteIds createBoardEntityId items).get? b = some copy) : a = b := by
  obtain ⟨hamem, hacopy⟩ := has_of_get?_pasteIds ha
  obtain ⟨-, hbcopy⟩ := has_of_get?_pasteIds hb
  have hindex := createBoardItemId_injective h (hacopy.symm.trans hbcopy)
  exact (idxOf_inj ((items.mem_keys_iff a).mpr hamem)).mp hindex

theorem mappedId_pasteIds (id : String) :
    mappedId (pasteIds createBoardEntityId items) id =
      (pasteIds createBoardEntityId items).get? id := by
  unfold mappedId
  cases hget : (pasteIds createBoardEntityId items).get? id with
  | none => rfl
  | some copy =>
    have hne : copy ≠ "" := by
      rw [(has_of_get?_pasteIds hget).2]
      exact createBoardItemId_ne_empty _ _
    simp [Option.filter, hne]

end

/-! ## Copies -/

/-- `copy` is item `id` as it is pasted.  `copyOf` are the new ids of the copied
    items, and `shift` leads from where they were to where they are pasted. -/
structure IsCopy (copyOf : String → Option String) (shift : BoardVec2) (resolveEnd : ResolveEnd)
    (id : String) (item copy : Json) : Prop where
  /-- What is not about other items is the same. -/
  same : ∀ k, k ∉ ["locked", "parent", "position", "script", "props"] →
    copy.get? k = item.get? k
  /-- A copy is not locked. -/
  unlocked : copy.get? "locked" = none
  /-- What has its parent in the copy is in the copied parent, where it was. -/
  inside : ∀ q q', itemParent item = some q → copyOf q = some q' →
    itemParent copy = some q' ∧ copy.get? "position" = item.get? "position"
  /-- Nothing else has a parent. -/
  root : (∀ q, itemParent item = some q → copyOf q = none) → copy.get? "parent" = none
  /-- And it is moved, unless its parent has the name of something inherited. -/
  moved : (∀ q, itemParent item = some q → copyOf q = none ∧ isInherited q = false) →
    copy.get? "position" = some (BoardVec2.toJson
      { x := positionOf item "x" + shift.x, y := positionOf item "y" + shift.y })
  /-- Targets of scripts are mapped where they are copied. -/
  target : ∀ name, copy.at? ["script", "targets", name] =
    (item.at? ["script", "targets", name]).map (remapTarget copyOf)
  /-- Otherwise a script is the same. -/
  script : (copy.get? "script").isSome = (item.get? "script").isSome ∧
    ∀ k, k ≠ "targets" → copy.at? ["script", k] = item.at? ["script", k]
  /-- An end bound in the copy is bound to the copied item. -/
  bound : ∀ which e b b', itemType item = some "arrow" → arrowEnd item which = some e →
    boundItem (some e) = some b → copyOf b = some b' →
    arrowEnd copy which = some (.obj (Fields.set e.fields "item" (.str b')))
  /-- An end bound to something else is a point. -/
  released : ∀ which b, itemType item = some "arrow" →
    boundItem (arrowEnd item which) = some b → copyOf b = none →
    arrowEnd copy which =
      some (pointEnd ((resolveEnd id which).getD { x := .num 0, y := .num 0 }))
  /-- All other props are the same. -/
  prop : ∀ k, (∀ which : ArrowSide, k = which.name → itemType item = some "arrow" →
      boundItem (arrowEnd item which) = none) →
    copy.at? ["props", k] = item.at? ["props", k]
  /-- There are props if there were. -/
  props : (copy.get? "props").isSome = (item.get? "props").isSome

section

variable (idMap : OrderedMap String String)

theorem at?_pair (v : Json) (k k' : String) :
    v.at? [k, k'] = (v.get? k).bind fun w => w.get? k' := by
  rw [at?_cons]
  cases v.get? k with
  | none => rfl
  | some w =>
    rw [bind_some, bind_some, at?_cons]
    cases w.get? k' <;> rfl

theorem get?_membersOf (v : Json) (k k' : String) :
    Fields.get? (membersOf v k) k' = v.at? [k, k'] := by
  rw [at?_pair]
  unfold membersOf
  cases v.get? k <;> rfl

theorem script_remapScript (item : Json) :
    (remapScript idMap item).get? "script" = (item.get? "script").map fun script =>
      .obj (Fields.set script.fields "targets"
        (.obj ((membersOf script "targets").map fun e => (e.1, remapTarget idMap.get? e.2)))) := by
  unfold remapScript
  cases hscript : item.get? "script" with
  | some script =>
    simp only
    rw [get?_obj_set, if_pos rfl]
    rfl
  | none => exact hscript

theorem target_remapScript (item : Json) (name : String) :
    (remapScript idMap item).at? ["script", "targets", name] =
      (item.at? ["script", "targets", name]).map (remapTarget idMap.get?) := by
  rw [at?_cons, at?_cons, script_remapScript]
  cases item.get? "script" with
  | none => rfl
  | some script =>
    rw [map_some, bind_some, bind_some, at?_pair, get?_obj_set, if_pos rfl,
      bind_some, ← get?_membersOf]
    exact lookupEntry_map (fun _ v => remapTarget idMap.get? v) name _

theorem member_remapScript (item : Json) (h : k ≠ "targets") :
    (remapScript idMap item).at? ["script", k] = item.at? ["script", k] := by
  rw [at?_pair, at?_pair, script_remapScript]
  cases item.get? "script" with
  | none => rfl
  | some script =>
    rw [map_some, bind_some, bind_some, get?_obj_set, if_neg h]
    rfl

variable {item : Json}

theorem parent_remapParent {rules : TextRules} {source : Json}
    (hplain : Plain rules source) (hparent : item.get? "parent" = source.get? "parent") :
    (remapParent idMap item).get? "parent" =
      ((itemParent source).bind (mappedId idMap)).map Json.str := by
  have hsame : itemParent item = itemParent source := by
    unfold itemParent
    rw [hparent]
  unfold remapParent
  rw [hsame]
  rcases parent_of_plain hplain with hnone | ⟨q, hq, hne⟩
  · have hitem : itemParent source = none := by
      unfold itemParent
      rw [hnone]
      rfl
    rw [hitem]
    exact hparent.trans hnone
  · have hitem : itemParent source = some q := by
      unfold itemParent
      rw [hq]
      rfl
    rw [hitem, bind_some]
    simp only [if_neg hne]
    cases mappedId idMap q with
    | some copy =>
      simp only
      rw [get?_obj_set, if_pos rfl]
      rfl
    | none =>
      simp only
      rw [get?_obj_erase, if_pos rfl]
      rfl

/-! ### Ends of arrows -/

variable (resolveEnd : ResolveEnd) (id : String)

theorem get?_withEnds (item : Json) (props : Fields) (k : String) :
    Fields.get? ([ArrowSide.start, .end_].foldl (withEnd idMap resolveEnd id item) props) k =
      if k = "end" ∧ (arrowEnd item .end_).isSome then
        (arrowEnd item .end_).map (remapEnd idMap resolveEnd id .end_)
      else if k = "start" ∧ (arrowEnd item .start).isSome then
        (arrowEnd item .start).map (remapEnd idMap resolveEnd id .start)
      else Fields.get? props k := by
  have hstep : ∀ (props : Fields) (which : ArrowSide),
      Fields.get? (withEnd idMap resolveEnd id item props which) k =
        if k = which.name ∧ (arrowEnd item which).isSome then
          (arrowEnd item which).map (remapEnd idMap resolveEnd id which)
        else Fields.get? props k := by
    intro props which
    unfold withEnd
    cases arrowEnd item which with
    | none => simp
    | some e =>
      simp only [Fields.get?_set, isSome_some, and_true, map_some]
  rw [foldl_cons, foldl_cons, foldl_nil, hstep, hstep]
  rfl

theorem remapEnd_of_free {which : ArrowSide} {e : Json} (h : boundItem (some e) = none) :
    remapEnd idMap resolveEnd id which e = e := by
  unfold remapEnd
  rw [h]

theorem at?_props (item : Json) (which : ArrowSide) :
    item.at? ["props", which.name] = arrowEnd item which := at?_pair item "props" which.name

theorem boundItem_of_no_bindings (htype : itemType item = some "arrow")
    (h : arrowBindings item = []) (which : ArrowSide) : boundItem (arrowEnd item which) = none := by
  cases hbound : boundItem (arrowEnd item which) with
  | none => rfl
  | some b =>
    have hmem := mem_arrowBindings.mpr ⟨htype, which, hbound⟩
    rw [h] at hmem
    cases hmem

theorem arrowEnd_remapEnds (htype : itemType item = some "arrow")
    (which : ArrowSide) : arrowEnd (remapEnds idMap resolveEnd id item) which =
      (arrowEnd item which).map (remapEnd idMap resolveEnd id which) := by
  unfold remapEnds
  by_cases hbindings : arrowBindings item = []
  · rw [if_neg (fun h => h.2 hbindings)]
    have hfree := boundItem_of_no_bindings htype hbindings which
    cases hend : arrowEnd item which with
    | none => rfl
    | some e =>
      rw [hend] at hfree
      rw [map_some, remapEnd_of_free idMap resolveEnd id hfree]
  · rw [if_pos ⟨htype, hbindings⟩]
    show Option.bind ((Json.obj _).get? "props") _ = _
    rw [get?_obj_set, if_pos rfl, bind_some]
    show Json.get? _ which.name = _
    rw [get?_obj, get?_withEnds, get?_membersOf]
    cases which with
    | start =>
      have hne : ¬ (ArrowSide.start.name = "end" ∧ (arrowEnd item .end_).isSome = true) := by
        intro h
        exact absurd h.1 (by decide)
      rw [if_neg hne]
      cases hend : arrowEnd item .start with
      | none =>
        rw [at?_props, hend]
        simp
      | some e => rw [if_pos ⟨rfl, rfl⟩]
    | end_ =>
      cases hend : arrowEnd item .end_ with
      | none =>
        have hne : ¬ (ArrowSide.end_.name = "start" ∧ (arrowEnd item .start).isSome = true) := by
          intro h
          exact absurd h.1 (by decide)
        rw [if_neg (by simp), if_neg hne, at?_props, hend]
        rfl
      | some e => rw [if_pos ⟨rfl, rfl⟩]

theorem prop_remapEnds (h : ∀ which : ArrowSide, k = which.name → itemType item = some "arrow" →
      boundItem (arrowEnd item which) = none) :
    (remapEnds idMap resolveEnd id item).at? ["props", k] = item.at? ["props", k] := by
  by_cases htype : itemType item = some "arrow"
  · -- an end that is free is mapped to itself, and so is every other prop
    by_cases hside : ∃ which : ArrowSide, k = which.name
    · obtain ⟨which, rfl⟩ := hside
      rw [at?_props, at?_props, arrowEnd_remapEnds idMap resolveEnd id htype]
      have hfree := h which rfl htype
      cases hend : arrowEnd item which with
      | none => rfl
      | some e =>
        rw [hend] at hfree
        rw [map_some, remapEnd_of_free idMap resolveEnd id hfree]
    · unfold remapEnds
      split
      · have hend : ¬ (k = "end" ∧ (arrowEnd item .end_).isSome = true) :=
          fun hk => hside ⟨.end_, hk.1⟩
        have hstart : ¬ (k = "start" ∧ (arrowEnd item .start).isSome = true) :=
          fun hk => hside ⟨.start, hk.1⟩
        rw [at?_pair, get?_obj_set, if_pos rfl, bind_some]
        rw [get?_obj, get?_withEnds, if_neg hend, if_neg hstart, get?_membersOf]
      · rfl
  · unfold remapEnds
    rw [if_neg (fun hboth => htype hboth.1)]

theorem isSome_props_remapEnds (item : Json) :
    ((remapEnds idMap resolveEnd id item).get? "props").isSome =
      (item.get? "props").isSome := by
  unfold remapEnds
  split
  · next h =>
    obtain ⟨b, hb⟩ := exists_mem_of_ne_nil _ h.2
    obtain ⟨-, which, hbound⟩ := mem_arrowBindings.mp hb
    have hprops : (item.get? "props").isSome = true := by
      unfold arrowEnd at hbound
      cases hget : item.get? "props" with
      | none =>
        rw [hget] at hbound
        cases hbound
      | some props => rfl
    rw [get?_obj_set, if_pos rfl, hprops]
    rfl
  · rfl

end

/-! ### Moving -/

theorem position_shiftItem (item : Json) (dx dy : Rat) :
    (shiftItem item dx dy).get? "position" = some (BoardVec2.toJson
      { x := positionOf item "x" + dx, y := positionOf item "y" + dy }) := by
  unfold shiftItem
  rw [get?_obj_set, if_pos rfl]

theorem positionOf_of_position {v : BoardVec2} (h : item.get? "position" = some v.toJson) :
    positionOf item "x" = v.x ∧ positionOf item "y" = v.y := by
  unfold positionOf
  rw [at?_pair, at?_pair, h]
  exact ⟨rfl, rfl⟩

theorem itemParent_shiftItem (item : Json) (dx dy : Rat) :
    itemParent (shiftItem item dx dy) = itemParent item := by
  unfold itemParent
  rw [get?_shiftItem (by decide)]

theorem itemParent_encodeItem (items : OrderedMap String Json) (origin : BoardVec2) (item : Json) :
    itemParent (encodeItem items origin item) = itemParent item := by
  unfold encodeItem
  split
  · rfl
  · exact itemParent_shiftItem item _ _

theorem get?_encodeItem
    (h : k ≠ "position") : (encodeItem items origin item).get? k = item.get? k := by
  unfold encodeItem
  split
  · rfl
  · exact get?_shiftItem h

/-! ## What is pasted is a copy -/

section

variable {rules : TextRules} {items : OrderedMap String Json} {item : Json}
  {createBoardEntityId : Nat → String}

theorem has_encoded (origin : BoardVec2) (id : String) :
    (items.mapValues fun _ item => encodeItem items origin item).has id = items.has id := by
  unfold has
  rw [get?_mapValues, isSome_map]

variable {idMap : OrderedMap String String} {origin landing : BoardVec2}

theorem position_inside (hplain : Plain rules item) {q : String}
    (hparent : itemParent item = some q) (hitems : items.has q = true) (hmap : idMap.has q = true) :
    (placeItem idMap landing (encodeItem items origin item)).get? "position" =
      item.get? "position" := by
  have hne : q ≠ "" := by
    rcases parent_of_plain hplain with hnone | ⟨q', hq', hne⟩
    · unfold itemParent at hparent
      rw [hnone] at hparent
      cases hparent
    · unfold itemParent at hparent
      rw [hq'] at hparent
      cases hparent
      exact hne
  have hin : hasParentIn items item = true := by
    obtain ⟨frame, hframe⟩ := isSome_iff_exists.mp hitems
    unfold hasParentIn
    rw [hparent]
    simp [hne, hframe]
  have hencode : encodeItem items origin item = item := if_pos hin
  rw [hencode]
  unfold placeItem
  rw [hparent]
  simp [hne, hmap]

theorem position_moved (h : ∀ q, itemParent item = some q →
      items.has q = false ∧ idMap.has q = false ∧ isInherited q = false) :
    (placeItem idMap landing (encodeItem items origin item)).get? "position" =
      some (BoardVec2.toJson { x := positionOf item "x" + (landing.x - origin.x)
                               y := positionOf item "y" + (landing.y - origin.y) }) := by
  have hout : hasParentIn items item = false := by
    unfold hasParentIn
    cases hparent : itemParent item with
    | none => rfl
    | some q =>
      obtain ⟨hitems, -, hinherited⟩ := h q hparent
      have hnone : items.get? q = none := isNone_iff_eq_none.mp
        (by simpa [has] using hitems)
      simp [hnone, readMember, hinherited]
  have hencode : encodeItem items origin item = shiftItem item (-origin.x) (-origin.y) :=
    if_neg (by rw [hout]; exact Bool.false_ne_true)
  have hplace : placeItem idMap landing (encodeItem items origin item) =
      shiftItem (encodeItem items origin item) landing.x landing.y := by
    unfold placeItem
    rw [itemParent_encodeItem]
    cases hparent : itemParent item with
    | none => rfl
    | some q =>
      obtain ⟨-, hmap, -⟩ := h q hparent
      simp [hmap]
  obtain ⟨hx, hy⟩ := positionOf_of_position (position_shiftItem item (-origin.x) (-origin.y))
  rw [hplace, position_shiftItem, hencode, hx, hy]
  have haxis : ∀ a b c : Rat, a + -b + c = a + (c - b) := by
    intro a b c
    rw [Rat.add_assoc, Rat.add_comm (-b), ← Rat.sub_eq_add_neg]
  show some (BoardVec2.toJson { x := positionOf item "x" + -origin.x + landing.x
                                y := positionOf item "y" + -origin.y + landing.y }) = _
  rw [haxis, haxis]

theorem isCopy_remapItem (hplain : Plain rules item)
    (hids : ∀ id, mappedId idMap id = idMap.get? id)
    (hdomain : ∀ id, (idMap.get? id).isSome = items.has id)
    (origin landing : BoardVec2) (resolveEnd : ResolveEnd) (id : String) :
    IsCopy idMap.get? { x := landing.x - origin.x, y := landing.y - origin.y } resolveEnd id item
      (remapItem idMap (placeItem idMap landing) resolveEnd id (encodeItem items origin item)) := by
  -- each member is written by one of the steps, the others keep it
  let placed := placeItem idMap landing (encodeItem items origin item)
  let scripted := remapScript idMap (unlockItem placed)
  let rooted := remapParent idMap scripted
  have hunlocked : ∀ k, k ≠ "locked" → k ≠ "position" →
      (unlockItem placed).get? k = item.get? k := by
    intro k hlocked hpos
    rw [get?_unlockItem hlocked, get?_placeItem idMap hpos, get?_encodeItem hpos]
  have hrooted : ∀ k, k ≠ "locked" → k ≠ "position" → k ≠ "script" → k ≠ "parent" →
      rooted.get? k = item.get? k := by
    intro k hlocked hpos hscript hparent
    rw [get?_remapParent idMap hparent, get?_remapScript idMap hscript, hunlocked k hlocked hpos]
  have htype : itemType rooted = itemType item := by
    unfold itemType
    rw [hrooted "type" (by decide) (by decide) (by decide) (by decide)]
  have hprops : rooted.get? "props" = item.get? "props" :=
    hrooted "props" (by decide) (by decide) (by decide) (by decide)
  have hend : ∀ which, arrowEnd rooted which = arrowEnd item which := by
    intro which
    unfold arrowEnd
    rw [hprops]
  have hscript : ∀ path, (remapEnds idMap resolveEnd id rooted).at? ("script" :: path) =
      scripted.at? ("script" :: path) := by
    intro path
    rw [at?_cons, at?_cons, get?_remapEnds idMap (by decide),
      get?_remapParent idMap (by decide)]
  have hsource : ∀ path, (unlockItem placed).at? ("script" :: path) =
      item.at? ("script" :: path) := by
    intro path
    rw [at?_cons, at?_cons, hunlocked "script" (by decide) (by decide)]
  have hparent : (remapEnds idMap resolveEnd id rooted).get? "parent" =
      ((itemParent item).bind idMap.get?).map Json.str := by
    rw [get?_remapEnds idMap (by decide)]
    refine (parent_remapParent idMap hplain ?_).trans ?_
    · rw [get?_remapScript idMap (by decide), hunlocked "parent" (by decide) (by decide)]
    · rw [funext hids]
  have hposition : (remapEnds idMap resolveEnd id rooted).get? "position" =
      placed.get? "position" := by
    rw [get?_remapEnds idMap (by decide), get?_remapParent idMap (by decide),
      get?_remapScript idMap (by decide), get?_unlockItem (by decide)]
  have hnone : ∀ q, idMap.get? q = none → items.has q = false ∧ idMap.has q = false := by
    intro q hq
    have hdom := hdomain q
    rw [hq] at hdom
    refine ⟨hdom.symm, ?_⟩
    unfold has
    rw [hq]
    rfl
  show IsCopy idMap.get? _ resolveEnd id item (remapEnds idMap resolveEnd id rooted)
  constructor
  case same =>
    intro k hk
    simp only [mem_cons, not_mem_nil, or_false, not_or] at hk
    obtain ⟨hlocked, hpar, hpos, hscr, hpro⟩ := hk
    rw [get?_remapEnds idMap hpro, hrooted k hlocked hpos hscr hpar]
  case unlocked =>
    rw [get?_remapEnds idMap (by decide), get?_remapParent idMap (by decide),
      get?_remapScript idMap (by decide)]
    unfold unlockItem
    rw [get?_obj_erase, if_pos rfl]
  case inside =>
    intro q q' hq hq'
    have hdom := hdomain q
    have hmap : idMap.has q = true := by
      unfold has
      rw [hq']
      rfl
    rw [hq'] at hdom
    refine ⟨?_, hposition.trans (position_inside hplain hq hdom.symm hmap)⟩
    rw [hq, bind_some, hq'] at hparent
    unfold itemParent
    rw [hparent]
    rfl
  case root =>
    intro h
    rw [hparent]
    cases hq : itemParent item with
    | none => rfl
    | some q =>
      rw [bind_some, h q hq]
      rfl
  case moved =>
    intro h
    refine hposition.trans (position_moved ?_)
    intro q hq
    obtain ⟨hout, hinherited⟩ := h q hq
    exact ⟨(hnone q hout).1, (hnone q hout).2, hinherited⟩
  case target =>
    intro name
    rw [hscript, target_remapScript, hsource]
  case script =>
    constructor
    · rw [get?_remapEnds idMap (by decide), get?_remapParent idMap (by decide),
        script_remapScript, isSome_map, hunlocked "script" (by decide) (by decide)]
    · intro k hk
      rw [hscript, member_remapScript idMap _ hk, hsource]
  case bound =>
    intro which e b b' harrow he hb hb'
    rw [arrowEnd_remapEnds idMap resolveEnd id (htype.trans harrow), hend, he, map_some]
    unfold remapEnd
    rw [hb]
    simp only [hids, hb']
  case released =>
    intro which b harrow hb hb'
    rw [arrowEnd_remapEnds idMap resolveEnd id (htype.trans harrow), hend]
    cases he : arrowEnd item which with
    | none =>
      rw [he] at hb
      cases hb
    | some e =>
      rw [he] at hb
      rw [map_some]
      unfold remapEnd
      rw [hb]
      simp only [hids, hb']
  case prop =>
    intro k hk
    rw [prop_remapEnds idMap resolveEnd id, at?_pair, at?_pair, hprops]
    intro which hwhich harrow
    rw [hend]
    exact hk which hwhich (htype.symm.trans harrow)
  case props =>
    rw [isSome_props_remapEnds, hprops]

theorem entries_remapItems (hdistinct : Function.Injective createBoardEntityId)
    (copied : OrderedMap String Json) (place : Json → Json) (resolveEnd : ResolveEnd)
    (created : String → String) :
    (remapItems (pasteIds createBoardEntityId copied) copied place resolveEnd created).entries =
      copied.entries.map fun e =>
        (((pasteIds createBoardEntityId copied).get? e.1).getD (created e.1),
          remapItem (pasteIds createBoardEntityId copied) place resolveEnd e.1 e.2) := by
  unfold remapItems
  refine entries_foldl_set _ _ copied.entries OrderedMap.empty ?_
  show (copied.entries.map _).Nodup
  refine List.Nodup.map_on ?_ copied.nodup.of_map
  intro a ha b hb hsame
  have hget : ∀ e ∈ copied.entries, (pasteIds createBoardEntityId copied).get? e.1 =
      some (createBoardItemId createBoardEntityId (copied.keys.idxOf e.1)) := by
    intro e he
    have hhas : copied.has e.1 = true := by
      unfold has
      rw [(copied.mem_entries_iff e.1 e.2).mp he]
      rfl
    rw [get?_pasteIds, if_pos hhas]
  rw [hget a ha, hget b hb] at hsame
  have hkey : a.1 = b.1 :=
    pasteIds_injective hdistinct (hget a ha) ((hget b hb).trans (congrArg some hsame.symm))
  have hvalue := (copied.mem_entries_iff a.1 a.2).mp ha
  rw [hkey, (copied.mem_entries_iff b.1 b.2).mp hb] at hvalue
  exact Prod.ext hkey (Option.some.inj hvalue.symm)

end

/-- A paste: one copy of each copied item, under an id of its own. -/
structure IsPaste (taken : String → Prop) (items : OrderedMap String Json) (shift : BoardVec2)
    (resolveEnd : ResolveEnd) (copyOf : String → Option String)
    (pasted : OrderedMap String Json) : Prop where
  domain : ∀ id, (copyOf id).isSome = items.has id
  distinct : ∀ a b c, copyOf a = some c → copyOf b = some c → a = b
  free : ∀ id c, copyOf id = some c → ¬ taken c
  only : ∀ c, pasted.has c = true → ∃ id, copyOf id = some c
  copy : ∀ id item c, items.get? id = some item → copyOf id = some c →
    ∃ copy, pasted.get? c = some copy ∧ IsCopy copyOf shift resolveEnd id item copy

theorem isPaste_materializeClipboard
    {taken : String → Prop} (hids : FreshIds createBoardEntityId taken)
    (hplain : ∀ id item, items.get? id = some item → Plain rules item)
    (origin landing : BoardVec2) (resolveEnd : ResolveEnd) :
    ∃ copyOf, IsPaste taken items { x := landing.x - origin.x, y := landing.y - origin.y }
      resolveEnd copyOf (materializeClipboard createBoardEntityId
        { items := items.mapValues fun _ item => encodeItem items origin item, origin := origin }
        landing resolveEnd) := by
  generalize hcopied : items.mapValues (fun _ item => encodeItem items origin item) = copied
  have hhas : ∀ id, copied.has id = items.has id := by
    intro id
    rw [← hcopied]
    exact has_encoded origin id
  have hdomain : ∀ id, ((pasteIds createBoardEntityId copied).get? id).isSome = items.has id := by
    intro id
    rw [get?_pasteIds, hhas]
    cases items.has id <;> rfl
  refine ⟨(pasteIds createBoardEntityId copied).get?, hdomain, ?_, ?_, ?_, ?_⟩
  · intro a b c ha hb
    exact pasteIds_injective hids.distinct ha hb
  · intro id c hc
    rw [(has_of_get?_pasteIds hc).2]
    exact hids.free _
  · intro c hc
    obtain ⟨copy, hcopy⟩ := isSome_iff_exists.mp hc
    have hmem := (mem_entries_iff _ c copy).mpr hcopy
    unfold materializeClipboard at hmem
    simp only [entries_remapItems hids.distinct, List.mem_map] at hmem
    obtain ⟨e, he, heq⟩ := hmem
    have hin : copied.has e.1 = true := by
      unfold has
      rw [(copied.mem_entries_iff e.1 e.2).mp he]
      rfl
    refine ⟨e.1, ?_⟩
    obtain ⟨q, hq⟩ := isSome_iff_exists.mp ((hdomain e.1).trans ((hhas e.1).symm.trans hin))
    rw [hq, getD_some] at heq
    have hqc : q = c := congrArg Prod.fst heq
    rw [hq, hqc]
  · intro id item c hitem hc
    refine ⟨_, ?_, isCopy_remapItem (hplain id item hitem) mappedId_pasteIds hdomain origin landing
      resolveEnd id⟩
    rw [← mem_entries_iff]
    unfold materializeClipboard
    simp only [entries_remapItems hids.distinct, List.mem_map]
    refine ⟨(id, encodeItem items origin item), ?_, ?_⟩
    · rw [mem_entries_iff, ← hcopied, get?_mapValues, hitem]
      rfl
    · rw [hc]
      rfl

/-- The items are what a board's parser returned. -/
def ParsedItems (rules : TextRules) (items : OrderedMap String Json) : Prop :=
  ∀ id item, items.get? id = some item →
    ∃ value path, parseBoardItem rules value path none = .ok item

/-- Copy and paste: the clipboard takes between 1 and 2000 items.  What it
    gives back is what was put into it, and the paste makes one copy of each
    item, under a new id. -/
theorem clipboard_isPaste (rules : TextRules) (parseJson : String → Option Json)
    (createBoardEntityId : Nat → String) (taken : String → Prop)
    (hids : FreshIds createBoardEntityId taken) (items : OrderedMap String Json)
    (hparsed : ParsedItems rules items) (hproto : items.has "__proto__" = false)
    (origin landing : BoardVec2) (resolveEnd : ResolveEnd) :
    (encodeClipboard items origin = none ↔ items.size = 0 ∨ maxClipboardItems < items.size) ∧
      ∀ payload, encodeClipboard items origin = some payload →
        ∀ raw, Carries parseJson payload raw →
          parseClipboard rules parseJson raw = some payload ∧
          ∃ copyOf, IsPaste taken items
            { x := landing.x - origin.x, y := landing.y - origin.y } resolveEnd copyOf
            (materializeClipboard createBoardEntityId payload landing resolveEnd) := by
  have hplain : ∀ id item, items.get? id = some item → Plain rules item := by
    intro id item hitem
    obtain ⟨value, path, hparse⟩ := hparsed id item hitem
    exact plain_of_parseBoardItem hparse
  refine ⟨encodeClipboard_eq_none items origin, ?_⟩
  intro payload hencode raw hraw
  obtain ⟨hsize, rfl⟩ := encodeClipboard_eq_some hencode
  refine ⟨parseClipboard_of_carries ?_ ?_ ?_ hraw,
    isPaste_materializeClipboard hids hplain origin landing resolveEnd⟩
  · intro e he
    obtain ⟨source, hsource, heq⟩ := List.mem_map.mp he
    have hget := (items.mem_entries_iff source.1 source.2).mp hsource
    rw [← heq]
    exact plain_encodeItem (hplain source.1 source.2 hget) items origin
  · exact (has_encoded origin "__proto__").trans hproto
  · show ¬ ((items.entries.map _).length = 0 ∨ maxClipboardItems < (items.entries.map _).length)
    rw [List.length_map]
    exact hsize

/-! ## A locked frame -/

/-- A locked frame whose script drives something that is not copied. -/
def lockedFrame : Json :=
  record [("type", .str "frame"), ("locked", .bool true),
    ("script", record [("src", .str "a.js"), ("targets", record [("other", .str "outside")])])]

/-- Ids that differ in their length. -/
def lengthIds (n : Nat) : String := String.ofList (List.replicate (n + 1) 'a')

theorem lengthIds_injective : Function.Injective lengthIds := by
  intro m n h
  have hlist := congrArg (fun s : String => s.toList.length) h
  simpa [lengthIds] using hlist

theorem freshIds_lengthIds : FreshIds lengthIds fun id => id = "frame" where
  distinct := lengthIds_injective
  free := by
    intro n h
    have hlength : "item_".length + (lengthIds n).length = "frame".length := by
      rw [← String.length_append]
      exact congrArg String.length h
    have hshort : (lengthIds n).length = n + 1 := by simp [lengthIds]
    have hitem : "item_".length = "frame".length := by decide
    omega

/-- One parsed item of id `frame`. -/
def oneItem (item : Json) : OrderedMap String Json := OrderedMap.ofList [("frame", item)]

theorem get?_oneItem {found : Json} {id : String} (h : (oneItem item).get? id = some found) :
    id = "frame" ∧ found = item := by
  have hget : (oneItem item).get? id = if id = "frame" then some item else none := rfl
  rw [hget] at h
  split at h
  · next hid =>
    cases h
    exact ⟨hid, rfl⟩
  · cases h

theorem parsedItems_oneItem
    (h : parseBoardItem rules value path none = .ok item) : ParsedItems rules (oneItem item) := by
  intro id found hfound
  obtain ⟨-, rfl⟩ := get?_oneItem hfound
  exact ⟨value, path, h⟩

/-- The results of a parse that pass a test. -/
def parsesWith (test : Json → Bool) : Except (List BoardDiagnostic) Json → Bool
  | .ok item => test item
  | .error _ => false

theorem exists_of_parsesWith {test : Json → Bool} {result : Except (List BoardDiagnostic) Json}
    (h : parsesWith test result = true) : ∃ item, result = .ok item ∧ test item = true := by
  cases result with
  | ok item => exact ⟨item, rfl, h⟩
  | error errors => cases h

theorem clipboard_isPaste_lockedFrame :
    ∃ item payload copyOf, encodeClipboard (oneItem item) { x := 10, y := 0 } = some payload ∧
      IsPaste (fun id => id = "frame") (oneItem item) { x := 24 - 10, y := 24 - 0 }
        (fun _ _ => none) copyOf
        (materializeClipboard lengthIds payload { x := 24, y := 24 } fun _ _ => none) := by
  have hrun : parsesWith (fun item => (oneItem item).size = 1 && !(oneItem item).has "__proto__")
      (parseBoardItem allTextRules lockedFrame "item" none) = true := by decide +kernel
  obtain ⟨item, hparse, htest⟩ := exists_of_parsesWith hrun
  simp only [Bool.and_eq_true, decide_eq_true_eq, Bool.not_eq_true'] at htest
  have hsize : ¬ ((oneItem item).size = 0 ∨ maxClipboardItems < (oneItem item).size) := by
    rw [htest.1]
    decide
  obtain ⟨hnone, hpaste⟩ := clipboard_isPaste allTextRules (fun _ => none) lengthIds
    (fun id => id = "frame") freshIds_lengthIds (oneItem item) (parsedItems_oneItem hparse)
    htest.2 { x := 10, y := 0 } { x := 24, y := 24 } (fun _ _ => none)
  obtain ⟨payload, hpayload⟩ := Option.ne_none_iff_exists'.mp fun h => hsize (hnone.mp h)
  obtain ⟨-, copyOf, hcopy⟩ := hpaste payload hpayload (.value payload.toJson) rfl
  exact ⟨item, payload, copyOf, hpayload, hcopy⟩

/-- The copy of a locked item is not locked, and its script drives what is not
    copied. -/
theorem clipboard_unlocks :
    ∃ item payload parsed c copy, ParsedItems allTextRules (oneItem item) ∧
      encodeClipboard (oneItem item) { x := 0, y := 0 } = some payload ∧
      parseClipboard allTextRules (fun _ => none) (.value payload.toJson) = some parsed ∧
      (materializeClipboard lengthIds parsed { x := 0, y := 0 } fun _ _ => none).get? c =
        some copy ∧
      item.get? "locked" = some (.bool true) ∧ copy.get? "locked" = none ∧
      (oneItem item).has "outside" = false ∧
      copy.at? ["script", "targets", "other"] = some (.str "outside") := by
  have hrun : parsesWith (fun item =>
      (encodeClipboard (oneItem item) { x := 0, y := 0 }).any fun payload =>
      (parseClipboard allTextRules (fun _ => none) (.value payload.toJson)).any fun parsed =>
      (materializeClipboard lengthIds parsed { x := 0, y := 0 } fun _ _ => none).entries.any
        fun e => decide (item.get? "locked" = some (.bool true)) && decide (e.2.get? "locked" = none) &&
        !(oneItem item).has "outside" &&
        decide (e.2.at? ["script", "targets", "other"] = some (.str "outside")))
      (parseBoardItem allTextRules lockedFrame "item" none) = true := by decide +kernel
  obtain ⟨item, hparse, htest⟩ := exists_of_parsesWith hrun
  obtain ⟨payload, hpayload, htest⟩ := (Option.any_eq_true _ _).mp htest
  obtain ⟨parsed, hparsed, htest⟩ := (Option.any_eq_true _ _).mp htest
  obtain ⟨e, he, htest⟩ := List.any_eq_true.mp htest
  simp only [Bool.and_eq_true, decide_eq_true_eq, Bool.not_eq_true'] at htest
  obtain ⟨⟨⟨hlocked, hunlocked⟩, houtside⟩, htarget⟩ := htest
  exact ⟨item, payload, parsed, e.1, e.2, parsedItems_oneItem hparse, hpayload, hparsed,
    (OrderedMap.mem_entries_iff _ _ _).mp he, hlocked, hunlocked, houtside, htarget⟩

end Cohub.Board
