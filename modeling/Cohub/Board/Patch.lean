import Cohub.Lib.Worklist
import Cohub.Board.Property

/-! # Applying a patch to a board

    `packages/protocol/src/board-patch.ts`.  `applyBoardPatch` reads a board
    through the lookups of a `BoardState`, collects what the patch writes
    (`Pending`), deals with what refers to the things it deletes, validates
    what it touched, and returns the delta.  `applyBoardPatchToDocument` runs
    it over the lookups of a whole document.

    A document's records are plain objects: a lookup by id also finds what
    every object inherits.

    Where a bound arrow loses its target, its end becomes the point it was at.
    That point is computed in floating point by `board-layout.ts`, which is a
    parameter (`BoardLayout`). -/

namespace Cohub.Board

/-! ## Documents, patches and deltas -/

/-- `BoardAnimation`: a header and its tracks. -/
structure BoardAnimation where
  header : Json
  tracks : OrderedMap String Json

structure BoardDocument where
  board      : Json
  items      : OrderedMap String Json
  animations : OrderedMap String BoardAnimation

/-- One entry of `BoardPatch.animations`: `null`, or header fields and
    tracks. -/
inductive AnimationPatch where
  | remove
  | write (header : Fields) (tracks : OrderedMap String Json)

/-- `BoardPatch`.  Item and track entries are the raw values, `null` to
    remove. -/
structure BoardPatch where
  board      : Option Json
  items      : OrderedMap String Json
  animations : OrderedMap String AnimationPatch

/-- `BoardDelta`: new values, `none` for what is removed. -/
structure BoardDelta where
  board : Option Json
  items : OrderedMap String (Option Json)
  animations : OrderedMap String (Option Json)
  tracks : OrderedMap String (OrderedMap String (Option Json))

structure TrackRef where
  animation : String
  track     : String
  deriving DecidableEq

/-! ## Reading items and tracks -/

/-- `item.parent`. -/
def itemParent (item : Json) : Option String := (item.get? "parent").bind Json.asString?

/-- `item.z`. -/
def itemZ (item : Json) : Option Rat := (item.get? "z").bind Json.asNum?

/-- `track.target`. -/
def trackTarget (track : Json) : String := ((track.get? "target").bind Json.asString?).getD ""

/-- `track.property`. -/
def trackProperty (track : Json) : String := ((track.get? "property").bind Json.asString?).getD ""

/-- The two ends of an arrow. -/
inductive ArrowSide where
  | start | end_
  deriving DecidableEq

/-- The name of an end in an arrow's props. -/
def ArrowSide.name : ArrowSide → String
  | .start => "start"
  | .end_ => "end"

/-- The item an end is bound to (`isArrowBinding`). -/
def boundItem (end_ : Option Json) : Option String :=
  (end_.bind fun e => e.get? "item").bind Json.asString?

def arrowEnd (item : Json) (which : ArrowSide) : Option Json :=
  (item.get? "props").bind fun props => props.get? which.name

/-- Add a value to a set kept in insertion order. -/
def addNew (l : List String) (s : String) : List String := if l.contains s then l else l ++ [s]

def arrowBindings (item : Json) : List String :=
  if itemType item = some "arrow" then
    ((boundItem (arrowEnd item .start)).toList ++ (boundItem (arrowEnd item .end_)).toList).foldl
      addNew []
  else []

def keyframeStrings (keyframes : List Json) : List String :=
  keyframes.filterMap fun keyframe => (keyframe.get? "value").bind Json.asString?

/-- The track moves the camera's focus. -/
def isFocusTrack (track : Json) : Bool :=
  trackTarget track = boardCameraTarget && trackProperty track = "focus"

def trackReferences (track : Json) : List String :=
  let refs := if isFocusTrack track then keyframeStrings (keyframesOf track) else []
  ((trackTarget track :: refs).foldl addNew []).filter (· != boardCameraTarget)

/-- `pruneBoardTrack` for one deleted item. -/
def pruneBoardTrack (track : Json) (deleted : String) : Option Json :=
  if trackTarget track = deleted then none
  else if !isFocusTrack track then some track
  else
    let kept := (keyframesOf track).filter fun keyframe => keyframe.get? "value" != some (.str deleted)
    if kept.length = (keyframesOf track).length then some track
    else if kept.isEmpty then none
    else some (.obj (Fields.set track.fields "keyframes" (.arr kept)))

def stripId (value : Fields) : Fields := Fields.erase value "id"

def lastKeyframeAt (tracks : List Json) : Option Rat :=
  let ats := tracks.flatMap fun track =>
    (keyframesOf track).filterMap fun keyframe => (keyframe.get? "at").bind Json.asNum?
  let last := ats.foldl (fun last at_ => if last < at_ then at_ else last) 0
  if 0 < last then some last else none

/-! ## Lookups -/

/-- `BoardState`.  `size` bounds the walks over items and animations: no
    walk visits more. -/
structure BoardState where
  settings : Json
  item : String → Option Json
  animation : String → Option Json
  track : String → String → Option Json
  /-- Reading a track of this animation is a `TypeError`. -/
  noTracks : String → Bool
  trackIds : String → List String
  children : String → List String
  binders : String → List String
  trackRefs : String → List TrackRef
  maxZ : Option String → Rat
  size : Nat

/-- A point in world or local coordinates. -/
structure BoardPoint where
  x : Json
  y : Json

/-- `createBoardLayout`, as far as a deletion uses it.  The layout caches what
    it computed; its lookup sees the items as they are when it is called. -/
structure BoardLayout where
  Cache    : Type
  fresh    : Cache
  /-- `layout.arrowEnd(arrowId, which)`. -/
  arrowEnd : (String → Option Json) → Cache → String → ArrowSide → Cache × BoardPoint
  /-- `applyMatrix(invertMatrix(layout.matrix(arrowId)), world)`. -/
  toLocal  : (String → Option Json) → Cache → String → BoardPoint → Cache × BoardPoint

structure BoardApplyOptions where
  cascade         : Bool
  keepUnknown     : Bool
  resolveArrowEnd : Option (String → ArrowSide → BoardPoint)

def BoardApplyOptions.none : BoardApplyOptions :=
  { cascade := false, keepUnknown := false, resolveArrowEnd := Option.none }

/-- What the patch has written so far: new values, `none` for what it
    removes. -/
structure Pending where
  settings   : Option Json
  items      : OrderedMap String (Option Json)
  animations : OrderedMap String (Option Json)
  tracks     : OrderedMap String (OrderedMap String (Option Json))

namespace Pending

/-- Nothing written. -/
def empty : Pending :=
  { settings := none, items := OrderedMap.empty, animations := OrderedMap.empty
    tracks := OrderedMap.empty }

/-- `item(id)`: the pending value, else the stored one. -/
def item (p : Pending) (state : BoardState) (id : String) : Option Json :=
  match p.items.get? id with
  | some value => value
  | none => state.item id

def animation (p : Pending) (state : BoardState) (id : String) : Option Json :=
  match p.animations.get? id with
  | some value => value
  | none => state.animation id

/-- `nextTracks.get(animationId)?.get(trackId)`. -/
def trackEntry (p : Pending) (animationId trackId : String) : Option (Option Json) :=
  (p.tracks.get? animationId).bind fun tracks => tracks.get? trackId

def track (p : Pending) (state : BoardState) (animationId trackId : String) : Option Json :=
  match p.trackEntry animationId trackId with
  | some value => value
  | none => state.track animationId trackId

/-- `nextItems.set(id, value)`. -/
def setItem (p : Pending) (id : String) (value : Option Json) : Pending :=
  { p with items := p.items.set id value }

/-- `nextAnimations.set(id, value)`. -/
def setAnimation (p : Pending) (id : String) (value : Option Json) : Pending :=
  { p with animations := p.animations.set id value }

def setTrack (p : Pending) (animationId trackId : String) (value : Option Json) : Pending :=
  let tracks := (p.tracks.get? animationId).getD OrderedMap.empty
  { p with tracks := p.tracks.set animationId (tracks.set trackId value) }

/-- The scripts of the board after the patch. -/
def scripts (p : Pending) (state : BoardState) : Fields :=
  (((p.settings.getD state.settings).get? "scripts").map Json.fields).getD []

def script (p : Pending) (state : BoardState) (id : String) : Bool :=
  ((p.scripts state).get? id).isSome

end Pending

/-- What a phase leaves behind: the pending values and the errors found. -/
abbrev Phase := Pending × List BoardDiagnostic

def boardError (path code message : String) : BoardDiagnostic :=
  { code := code, path := path, message := message }

/-- `keep(existing)`. -/
def keepFor (options : BoardApplyOptions) (existing : Option Json) : Option BoardKeepField :=
  if options.keepUnknown then some keepAllBoardFields else existing.map keepBoardFieldsOf

/-- The errors of a value that did not parse. -/
def issueErrors (before : List String) (code : String) (issues : List Issue) :
    List BoardDiagnostic :=
  issues.map fun issue => boardError (joinPath before issue.path) code issue.message

/-! ## What the patch writes -/

section Apply

variable (rules : TextRules) (state : BoardState) (options : BoardApplyOptions)

/-- A record entry that is neither `null` nor an object. -/
def entryIssues (path : List Segment) (value : Json) : List Issue :=
  if value = .null ∨ value.isRecord then [] else [{ Issue.ofCode "invalid_type" with path := path }]

/-- A key that fails the tests for keys. -/
def keyIssue (checks : List StringCheck) (path : List Segment) (key : String) : List Issue :=
  if (Schema.stringIssues checks key).isEmpty then []
  else [{ Issue.ofCode "invalid_key" with path := path }]

/-- `BoardPatchSchema.safeParse`: the issues of a patch. -/
def patchIssues (patch : BoardPatch) : List Issue :=
  (patch.board.toList.flatMap fun board => entryIssues [.key "board"] board) ++
  (patch.items.entries.flatMap fun e =>
    keyIssue boardIdChecks [.key "items", .key e.1] e.1 ++
      entryIssues [.key "items", .key e.1] e.2) ++
  patch.animations.entries.flatMap fun e =>
    keyIssue boardIdChecks [.key "animations", .key e.1] e.1 ++
      match e.2 with
      | .remove => []
      | .write _ tracks => tracks.entries.flatMap fun t =>
          keyIssue boardKeyChecks [.key "animations", .key e.1, .key "tracks", .key t.1] t.1 ++
            entryIssues [.key "animations", .key e.1, .key "tracks", .key t.1] t.2

/-- The patch's settings. -/
def applySettings (board : Option Json) : Phase :=
  match board with
  | none => (Pending.empty, [])
  | some board =>
      let merged := if board = .null then .obj [] else mergePatch (some state.settings) board
      match parseKeepingBoardFields (boardSettingsSchema rules) merged
          (keepFor options (some state.settings)) with
      | .ok settings => ({ Pending.empty with settings := some settings }, [])
      | .error issues => (Pending.empty, issueErrors ["board"] "INVALID_BOARD" issues)

/-- The candidate for an item, before it gets a `z`: the body alone for a new
    item or one that changes its type, else the stored item with the body
    merged in. -/
def isReplacing (current : Option Json) (body : Json) : Bool :=
  match current with
  | none => true
  | some c => match itemType body with
    | some type => itemType c != some type
    | none => false

/-- The items so far, with the highest `z` given out under each parent. -/
structure ItemPhase where
  phase     : Phase
  zByParent : OrderedMap String Rat

def applyItem (acc : ItemPhase) (id : String) (value : Json) : ItemPhase :=
  if value = .null then
    if (state.item id).isSome then
      { acc with phase := (acc.phase.1.setItem id none, acc.phase.2) }
    else acc
  else
    let current := state.item id
    let body := Json.obj (stripId value.fields)
    let replacing := isReplacing current body
    let merged := if replacing then body else mergePatch current body
    let parent := itemParent merged
    let key := parent.getD ""
    let top := (acc.zByParent.get? key).getD (state.maxZ parent)
    let needsZ := (merged.get? "z").isNone
    let candidate :=
      if needsZ then
        .obj (Fields.set merged.fields "z" (.num ((current.bind itemZ).getD (top + 1))))
      else merged
    let zByParent :=
      if needsZ && current.isNone then acc.zByParent.set key (top + 1) else acc.zByParent
    match parseBoardItem rules candidate ("items." ++ id)
        (keepFor options (if replacing then none else current)) with
    | .error diagnostics =>
        { phase := (acc.phase.1, acc.phase.2 ++ diagnostics), zByParent := zByParent }
    | .ok parsed =>
        if current.any fun c => boardJsonEquals c parsed then
          { acc with zByParent := zByParent }
        else { phase := (acc.phase.1.setItem id (some parsed), acc.phase.2), zByParent := zByParent }

/-- The candidate for a track: merged into the stored one. -/
def trackCandidate (existing : Option Json) (value : Json) : Json :=
  match existing with
  | some track => mergePatch (some track) value
  | none => value

def applyTrack (id : String) (acc : Phase) (trackId : String) (value : Json) : Phase :=
  let existing := state.track id trackId
  -- the exception ends the whole call
  if state.noTracks id then
    (acc.1, acc.2 ++ [boardError (joinPath ["animations", id, "tracks", trackId] []) "TypeError" id])
  else if value = .null then
    if existing.isSome then (acc.1.setTrack id trackId none, acc.2) else acc
  else
    match parseKeepingBoardFields (boardTrackSchema rules) (trackCandidate existing value)
        (keepFor options existing) with
    | .error issues =>
        (acc.1, acc.2 ++ issueErrors ["animations", id, "tracks", trackId] "INVALID_TRACK" issues)
    | .ok parsed =>
        if existing.any fun track => boardJsonEquals track parsed then acc
        else (acc.1.setTrack id trackId (some parsed), acc.2)

def headerCandidate (id : String) (header : Fields) (tracks : OrderedMap String Json) : Json :=
  match state.animation id with
  | some current => mergePatch (some current) (.obj header)
  | none =>
      if (Fields.get? header "duration").isSome then .obj header
      else
        let stored := (state.trackIds id).filterMap fun trackId => state.track id trackId
        match lastKeyframeAt (tracks.entries.map Prod.snd ++ stored) with
        | some duration => .obj (Fields.set header "duration" (.num duration))
        | none => .obj header

def applyAnimation (acc : Phase) (id : String) (value : AnimationPatch) : Phase :=
  match value with
  | .remove =>
      if (state.animation id).isSome then
        ((state.trackIds id).foldl (fun p trackId => p.setTrack id trackId none)
          (acc.1.setAnimation id none), acc.2)
      else acc
  | .write fields tracks =>
      let header := stripId fields
      let writeTracks := fun (acc : Phase) =>
        tracks.entries.foldl (fun acc e => applyTrack rules state options id acc e.1 e.2) acc
      if (state.item id).isSome || ((acc.1.items.get? id).getD none).isSome then
        (acc.1, acc.2 ++
          [boardError ("animations." ++ id) "ID_CONFLICT" (id ++ " is already an item id")])
      else if (state.animation id).isNone || !header.isEmpty then
        match parseKeepingBoardFields boardAnimationHeaderSchema (headerCandidate state id header tracks)
            (keepFor options (state.animation id)) with
        | .error issues =>
            (acc.1, acc.2 ++ issueErrors ["animations", id] "INVALID_ANIMATION" issues)
        | .ok parsed =>
            if (state.animation id).any fun current => boardJsonEquals current parsed then
              writeTracks acc
            else writeTracks (acc.1.setAnimation id (some parsed), acc.2)
      else writeTracks acc

def takenBy (p : Pending) (id : String) : Option String :=
  if (p.item state id).isSome then some "an item"
  else if (p.animation state id).isSome then some "an animation"
  else none

/-- Ids used twice. -/
def idConflicts (p : Pending) : List BoardDiagnostic :=
  (p.items.entries.flatMap fun e =>
    if e.2.isSome && (p.animation state e.1).isSome then
      [boardError ("items." ++ e.1) "ID_CONFLICT" (e.1 ++ " is already an animation id")]
    else []) ++
  (p.scripts state).flatMap fun e =>
    match takenBy state p e.1 with
    | none => []
    | some taken =>
        if ((p.items.get? e.1).getD none).isSome then
          [boardError ("items." ++ e.1) "ID_CONFLICT" (e.1 ++ " is already a Board script id")]
        else if ((p.animations.get? e.1).getD none).isSome then
          [boardError ("animations." ++ e.1) "ID_CONFLICT" (e.1 ++ " is already a Board script id")]
        else
          [boardError ("board.scripts." ++ e.1) "ID_CONFLICT" (e.1 ++ " is already " ++ taken ++ " id")]

/-- Everything the patch writes, and the errors in it. -/
def writePatch (patch : BoardPatch) : Phase :=
  let settings := applySettings rules state options patch.board
  let items := patch.items.entries.foldl
    (fun acc e => applyItem rules state options acc e.1 e.2)
    { phase := settings, zByParent := OrderedMap.empty }
  let animations := patch.animations.entries.foldl
    (fun acc e => applyAnimation rules state options acc e.1 e.2) items.phase
  (animations.1, animations.2 ++ idConflicts state animations.1)

end Apply

/-! ## What refers to deleted things -/

section Delete

variable (layout : BoardLayout) (state : BoardState) (options : BoardApplyOptions)

/-- The state of the deletion loop: the pending values, the ids still to be
    looked at (`pendingDeletes`, last first), the errors, and the layout's
    cache. -/
structure Deletion where
  pending : Pending
  deletes : List String
  diagnostics : List BoardDiagnostic
  cache : layout.Cache

variable {layout}

/-- A child of the deleted item `id`. -/
def deleteChild (id : String) (d : Deletion layout) (child : String) : Deletion layout :=
  let entry := d.pending.items.get? child
  if entry.any fun value => value.bind itemParent != some id then d
  else if options.cascade then
    if entry = some none then d
    else { d with pending := d.pending.setItem child none, deletes := child :: d.deletes }
  else
    { d with diagnostics := d.diagnostics ++ [boardError ("items." ++ id) "ITEM_REFERENCED"
        (id ++ " still has child " ++ child ++ "; delete it too or use cascade")] }

/-- `item(id) ?? state.item(id)`, what the layout of a deletion looks at. -/
def layoutLookup (p : Pending) (id : String) : Option Json := (p.item state id) <|> state.item id

/-- A point as an arrow's end. -/
def pointEnd (point : BoardPoint) : Json := record [("x", point.x), ("y", point.y)]

/-- Unbind one end of an arrow from the deleted item `id`. -/
def unbindEnd (id arrowId : String) (which : ArrowSide)
    (acc : Fields × Deletion layout) : Fields × Deletion layout :=
  if boundItem (Fields.get? acc.1 which.name) = some id then
    let lookup := layoutLookup state acc.2.pending
    let world := match options.resolveArrowEnd with
      | some resolve => (acc.2.cache, resolve arrowId which)
      | none => layout.arrowEnd lookup acc.2.cache arrowId which
    let local_ := layout.toLocal lookup world.1 arrowId world.2
    (Fields.set acc.1 which.name (pointEnd local_.2), { acc.2 with cache := local_.1 })
  else acc

/-- An arrow bound to the deleted item `id`. -/
def unbindArrow (id : String) (d : Deletion layout) (arrowId : String) : Deletion layout :=
  match d.pending.item state arrowId with
  | none => d
  | some arrow =>
      if itemType arrow = some "arrow" then
        let props := ((arrow.get? "props").map Json.fields).getD []
        let unbound := unbindEnd state options id arrowId .end_
          (unbindEnd state options id arrowId .start (props, d))
        { unbound.2 with
          pending := unbound.2.pending.setItem arrowId
            (some (.obj (Fields.set arrow.fields "props" (.obj unbound.1)))) }
      else d

/-- A track that refers to the deleted item `id`. -/
def releaseTrack (id : String) (d : Deletion layout) (ref : TrackRef) : Deletion layout :=
  match d.pending.track state ref.animation ref.track with
  | none => d
  | some current =>
      if (trackReferences current).contains id then
        if options.cascade then
          { d with pending :=
              d.pending.setTrack ref.animation ref.track (pruneBoardTrack current id) }
        else
          { d with diagnostics := d.diagnostics ++ [boardError ("items." ++ id) "ITEM_REFERENCED"
              (id ++ " is animated by " ++ ref.animation ++ "." ++ ref.track ++
                "; delete the track or use cascade")] }
      else d

/-- One round of the deletion loop. -/
def deleteOne (d : Deletion layout) (id : String) : Deletion layout :=
  let children := (state.children id).foldl (deleteChild options id) d
  let arrows := (state.binders id).foldl (unbindArrow state options id) children
  (state.trackRefs id).foldl (releaseTrack state options id) arrows

/-- The deletion loop.  An id is pushed when its item is first deleted, so
    the patch's deletions and the number of items bound the rounds. -/
def deleteRounds : Nat → Deletion layout → Deletion layout
  | 0, d => d
  | n + 1, d =>
      match d.deletes with
      | [] => d
      | id :: rest => deleteRounds n (deleteOne state options { d with deletes := rest } id)

def deletedItems (p : Pending) : List String :=
  (p.items.entries.filter fun e => e.2.isNone).map Prod.fst

variable (layout)

/-- All deletions, cascaded or reported. -/
def applyDeletions (p : Pending) : Phase :=
  let deleted := deletedItems p
  let d := deleteRounds state options (deleted.length + state.size)
    { pending := p, deletes := deleted.reverse, diagnostics := [], cache := layout.fresh }
  (d.pending, d.diagnostics)

/-- A stored track that refers to a removed script. -/
def releaseScriptTrack (id : String) (acc : Phase) (ref : TrackRef) : Phase :=
  if (acc.1.track state ref.animation ref.track).map trackTarget = some id then
    if options.cascade then (acc.1.setTrack ref.animation ref.track none, acc.2)
    else (acc.1, acc.2 ++ [boardError ("board.scripts." ++ id) "SCRIPT_REFERENCED"
      (id ++ " is animated by " ++ ref.animation ++ "." ++ ref.track ++
        "; delete the track or use cascade")])
  else acc

/-- The tracks of the scripts the patch removes. -/
def releaseScripts (acc : Phase) : Phase :=
  (((state.settings.get? "scripts").map Json.fields).getD []).foldl
    (fun acc e =>
      if acc.1.script state e.1 then acc
      else (state.trackRefs e.1).foldl (releaseScriptTrack state options e.1) acc) acc

/-- A stored track that nests a removed animation. -/
def releaseNestedTrack (id : String) (acc : Phase) (ref : TrackRef) : Phase :=
  if ref.animation = id ∨ (acc.1.track state ref.animation ref.track).isNone then acc
  else if options.cascade then (acc.1.setTrack ref.animation ref.track none, acc.2)
  else (acc.1, acc.2 ++ [boardError ("animations." ++ id) "ANIMATION_REFERENCED"
    (id ++ " is nested in " ++ ref.animation ++ "." ++ ref.track ++
      "; delete the track or use cascade")])

/-- The tracks that nest the animations the patch removes. -/
def releaseAnimations (acc : Phase) : Phase :=
  acc.1.animations.entries.foldl
    (fun acc e =>
      if e.2.isSome then acc
      else (state.trackRefs e.1).foldl (releaseNestedTrack state options e.1) acc) acc

/-- Everything that refers to what the patch deletes. -/
def releaseReferences (p : Pending) : Phase :=
  releaseAnimations state options (releaseScripts state options (applyDeletions layout state options p))

end Delete

/-! ## Validation -/

section Validate

variable (rules : TextRules) (state : BoardState) (options : BoardApplyOptions)

/-- `validationState.trackIds`: the stored and the pending tracks. -/
def allTrackIds (p : Pending) (id : String) : List String :=
  (state.trackIds id ++ (p.tracks.get? id).elim [] OrderedMap.keys).foldl addNew []

/-- The animations nested in an animation by its time tracks. -/
def nestedAnimations (p : Pending) (id : String) : List String :=
  if (p.animation state id).isSome then
    (allTrackIds state p id).filterMap fun trackId =>
      match p.track state id trackId with
      | some value =>
          if trackProperty value = "time" && (p.animation state (trackTarget value)).isSome then
            some (trackTarget value)
          else none
      | none => none
  else []

/-- `nestsInto`: look for `into` among what `from_` nests.  Every animation is
    expanded once, so their number bounds the rounds. -/
def nestsInto (p : Pending) (from_ into : String) : Bool :=
  Worklist.finds (fun id => (nestedAnimations state p id).reverse) into
    (state.size + p.animations.size + inheritedNames.length + 1) [from_] []

/-- The value of a keyframe is legal, and what it focuses exists. -/
def keyframeErrors (p : Pending) (path : String) (property : String) (spec : BoardPropertySpec)
    (index : Nat) (keyframe : Json) : List BoardDiagnostic :=
  let path := path ++ ".keyframes." ++ toString index ++ ".value"
  match spec.schema.parse (keyframe.get? "value") with
  | .error issues =>
      [boardError path "INVALID_KEYFRAME" ((issues.head?.map Issue.message).getD "invalid value")]
  | .ok _ =>
      match (keyframe.get? "value").bind Json.asString? with
      | some focused =>
          if property = "focus" && (p.item state focused).isNone then
            [boardError path "TARGET_NOT_FOUND" ("focus item " ++ focused ++ " does not exist")]
          else []
      | none => []

/-- The type of a track's target; none when the target does not exist. -/
def targetType (p : Pending) (target : String) : Option String :=
  if target = boardCameraTarget then some boardCameraTarget
  else match p.item state target with
    | some item => some ((itemType item).getD "undefined")
    | none =>
        if (p.animation state target).isSome then some "animation"
        else if p.script state target then some "script"
        else none

/-- The target is an animation that the track would put inside itself. -/
def targetCycle (p : Pending) (animationId target : String) : Bool :=
  target != boardCameraTarget && (p.item state target).isNone &&
    (p.animation state target).isSome &&
    (target = animationId || nestsInto state p target animationId)

/-- `validateTrack`.  A `TypeError` ends the whole call; as an error it fails
    the patch as well. -/
def validateTrack (p : Pending) (path animationId : String) (value : Json)
    (keepUnknownProperty : Bool) : List BoardDiagnostic :=
  let target := trackTarget value
  let property := trackProperty value
  if targetCycle state p animationId target then
    [boardError (path ++ ".target") "ANIMATION_CYCLE"
      (animationId ++ " cannot contain itself through " ++ target)]
  else match targetType state p target with
    | none => [boardError (path ++ ".target") "TARGET_NOT_FOUND"
        ("target " ++ target ++ " is not an item, animation, Board script or camera")]
    | some type =>
        if !keepUnknownProperty && "script.".toList.isPrefixOf property.toList &&
            ((p.item state target).bind fun item => item.get? "script").isNone then
          [boardError (path ++ ".property") "INVALID_PROPERTY"
            (target ++ " has no script to animate")]
        else match resolveBoardProperty rules type property with
          | .typeError => [boardError path "TypeError" property]
          | .unknown message =>
              if keepUnknownProperty then []
              else [boardError (path ++ ".property") "INVALID_PROPERTY" message]
          | .ok spec =>
              ((keyframesOf value).zipIdx.flatMap fun e =>
                keyframeErrors state p path property spec e.2 e.1) ++
              if (value.get? "interpolation") = some (.str "spline") && spec.kind != .vec2 then
                [boardError (path ++ ".interpolation") "INVALID_TRACK"
                  "spline interpolation needs a position-like property"]
              else []

/-- `PARENT_DEPTH`'s bound. -/
def maxParentDepth : Nat := 64

/-- The walk up from an item's parent: an error at the item itself or at more
    than 64 ancestors. -/
def parentChainErrors (p : Pending) (id : String) : Nat → Option String → List BoardDiagnostic
  | _, none => []
  | 0, some cursor =>
      if cursor = "" then []
      else [boardError ("items." ++ id ++ ".parent") "PARENT_DEPTH"
        "parent hierarchy exceeds 64 levels"]
  | n + 1, some cursor =>
      if cursor = "" then []
      else if cursor = id then
        [boardError ("items." ++ id ++ ".parent") "PARENT_CYCLE" (id ++ " cannot be inside itself")]
      else parentChainErrors p id n ((p.item state cursor).bind itemParent)

/-- The errors of an item's parent. -/
def parentErrors (p : Pending) (id : String) (value : Json) : List BoardDiagnostic :=
  match itemParent value with
  | none => []
  | some parentId =>
      match p.item state parentId with
      | none => [boardError ("items." ++ id ++ ".parent") "PARENT_NOT_FOUND"
          ("parent " ++ parentId ++ " does not exist")]
      | some parent =>
          if itemType parent != some "frame" then
            [boardError ("items." ++ id ++ ".parent") "INVALID_PARENT"
              ("parent " ++ parentId ++ " is a " ++ (itemType parent).getD "undefined" ++
                "; only frames contain items")]
          else parentChainErrors state p id maxParentDepth (some parentId)

/-- The errors of an arrow's bindings. -/
def bindingErrors (p : Pending) (id : String) (value : Json) : List BoardDiagnostic :=
  (arrowBindings value).flatMap fun bound =>
    match p.item state bound with
    | none => [boardError ("items." ++ id ++ ".props") "BINDING_NOT_FOUND"
        ("bound item " ++ bound ++ " does not exist")]
    | some target =>
        if bound = id ∨ itemType target = some "arrow" then
          [boardError ("items." ++ id ++ ".props") "INVALID_BINDING"
            "arrows bind to items other than arrows"]
        else []

/-- The items whose parent the patch changes. -/
def movedItems (p : Pending) : List String :=
  (p.items.entries.filter fun e =>
    e.2.any fun value => itemParent value != (state.item e.1).bind itemParent).map Prod.fst

/-- The descendants of moved items, in the order they are found. -/
def movedDescendants (p : Pending) : List String :=
  (Worklist.visit (fun id => (state.children id).reverse) state.size
    ((movedItems state p).flatMap state.children).reverse []).reverse

/-- `validationItems`: the pending items, then the descendants of moved ones. -/
def validationItems (p : Pending) : List (String × Option Json) :=
  p.items.entries ++
    ((movedDescendants state p).filter fun id => (p.items.get? id).isNone).map fun id =>
      (id, p.item state id)

def itemErrors (p : Pending) : List BoardDiagnostic :=
  (validationItems state p).flatMap fun e =>
    match e.2 with
    | none => []
    | some value => parentErrors state p e.1 value ++ bindingErrors state p e.1 value

/-- The errors of what refers to an item whose type changed. -/
def retypeErrors (p : Pending) (id : String) (value : Json) : List BoardDiagnostic :=
  (if itemType value != some "frame" then
    (state.children id).flatMap fun child =>
      if (p.item state child).bind itemParent = some id then
        [boardError ("items." ++ child ++ ".parent") "INVALID_PARENT" (id ++ " is not a frame")]
      else []
  else []) ++
  (if itemType value = some "arrow" then
    (state.binders id).flatMap fun binder =>
      match p.item state binder with
      | some arrow =>
          if (arrowBindings arrow).contains id then
            [boardError ("items." ++ binder ++ ".props") "INVALID_BINDING"
              "arrows cannot bind to arrows"]
          else []
      | none => []
  else []) ++
  (state.trackRefs id).flatMap fun ref =>
    match p.track state ref.animation ref.track with
    | some current => validateTrack rules state p
        ("animations." ++ ref.animation ++ ".tracks." ++ ref.track) ref.animation current
        options.keepUnknown
    | none => []

/-- The errors around all items whose type changed. -/
def retypedErrors (p : Pending) : List BoardDiagnostic :=
  p.items.entries.flatMap fun e =>
    match e.2, state.item e.1 with
    | some value, some stored =>
        if itemType stored = itemType value then []
        else retypeErrors rules state options p e.1 value
    | _, _ => []

/-- The errors of the tracks the patch wrote. -/
def trackErrors (p : Pending) : List BoardDiagnostic :=
  p.tracks.entries.flatMap fun e =>
    e.2.entries.flatMap fun t =>
      match t.2 with
      | none => []
      | some value =>
          let path := "animations." ++ e.1 ++ ".tracks." ++ t.1
          if (p.animation state e.1).isNone then
            [boardError path "ANIMATION_NOT_FOUND" ("animation " ++ e.1 ++ " does not exist")]
          else
            let stored := options.keepUnknown ||
              (state.track e.1 t.1).any fun track => trackProperty track = trackProperty value
            validateTrack rules state p path e.1 value stored

end Validate

/-! ## The delta -/

inductive BoardPatchResult where
  | ok (before after : BoardDelta)
  | failed (diagnostics : List BoardDiagnostic)

/-- The pending tracks of one animation that differ from the stored ones. -/
def changedTracks (state : BoardState) (animationId : String)
    (tracks : OrderedMap String (Option Json)) : OrderedMap String (Option Json) :=
  tracks.filter fun trackId value => state.track animationId trackId != value

/-- The delta to the pending values.  `withoutEmpty` leaves out empty members,
    which `applyBoardDelta` makes nothing of; parsed settings are never empty. -/
def deltaAfter (state : BoardState) (p : Pending) : BoardDelta :=
  { board := p.settings.filter fun settings => settings != state.settings
    items := p.items.filter fun id value => state.item id != value
    animations := p.animations
    tracks := (p.tracks.mapValues (changedTracks state)).filter fun _ tracks => tracks.size != 0 }

/-- The delta back to the stored values. -/
def deltaBefore (state : BoardState) (p : Pending) : BoardDelta :=
  let after := deltaAfter state p
  { board := after.board.map fun _ => state.settings
    items := after.items.mapValues fun id _ => state.item id
    animations := after.animations.mapValues fun id _ => state.animation id
    tracks := after.tracks.mapValues fun id tracks =>
      tracks.mapValues fun trackId _ => state.track id trackId }

def applyBoardPatch (rules : TextRules) (layout : BoardLayout) (state : BoardState)
    (patch : BoardPatch) (options : BoardApplyOptions) : BoardPatchResult :=
  match patchIssues patch with
  | issue :: issues => .failed (issueErrors [] "INVALID_PATCH" (issue :: issues))
  | [] =>
      let written := writePatch rules state options patch
      if written.2 ≠ [] then .failed written.2
      else
        let released := releaseReferences layout state options written.1
        let p := released.1
        let errors := released.2 ++ itemErrors state p ++ retypedErrors rules state options p ++
          trackErrors rules state options p
        if errors ≠ [] then .failed errors
        else .ok (deltaBefore state p) (deltaAfter state p)

/-! ## Documents -/

/-- The items with a parent, under their parent. -/
def documentChildren (document : BoardDocument) (id : String) : List String :=
  (document.items.entries.filter fun e => id != "" && itemParent e.2 = some id).map Prod.fst

/-- The arrows bound to an item. -/
def documentBinders (document : BoardDocument) (id : String) : List String :=
  (document.items.entries.filter fun e => (arrowBindings e.2).contains id).map Prod.fst

/-- The tracks that refer to an id. -/
def documentTrackRefs (document : BoardDocument) (id : String) : List TrackRef :=
  document.animations.entries.flatMap fun a =>
    (a.2.tracks.entries.filter fun t => (trackReferences t.2).contains id).map fun t =>
      { animation := a.1, track := t.1 }

/-- `document.animations[id]` without its tracks.  What every object inherits
    has no members of its own. -/
def documentAnimation (document : BoardDocument) (id : String) : Option Json :=
  match document.animations.get? id with
  | some animation => some animation.header
  | none => if isInherited id then some (.obj []) else none

/-- `document.animations[animationId]?.tracks[trackId]`. -/
def documentTrack (document : BoardDocument) (animationId trackId : String) : Option Json :=
  (document.animations.get? animationId).bind fun animation =>
    readMember (animation.tracks.get? trackId) trackId

/-- The highest `z` under a parent. -/
def documentMaxZ (document : BoardDocument) (parent : Option String) : Rat :=
  document.items.entries.foldl
    (fun top e =>
      if itemParent e.2 = parent ∧ top < (itemZ e.2).getD 0 then (itemZ e.2).getD 0 else top) 0

def createDocumentState (document : BoardDocument) : BoardState :=
  { settings := document.board
    item := fun id => readMember (document.items.get? id) id
    animation := documentAnimation document
    track := documentTrack document
    noTracks := fun id => (document.animations.get? id).isNone && isInherited id
    trackIds := fun id => (document.animations.get? id).elim [] fun a => a.tracks.keys
    children := documentChildren document
    binders := documentBinders document
    trackRefs := documentTrackRefs document
    maxZ := documentMaxZ document
    size := document.items.size + document.animations.size }

def writeEntry {α : Type} (m : OrderedMap String α) (id : String) : Option α → OrderedMap String α
  | some value => m.set id value
  | none => m.delete id

/-- Write or delete a header; the tracks stay. -/
def writeHeader (animations : OrderedMap String BoardAnimation) (e : String × Option Json) :
    OrderedMap String BoardAnimation :=
  writeEntry animations e.1 (e.2.map fun header =>
    { header := header
      tracks := ((animations.get? e.1).map BoardAnimation.tracks).getD OrderedMap.empty })

/-- The tracks of one animation with those of a delta. -/
def writeTracks (tracks : OrderedMap String Json) (delta : OrderedMap String (Option Json)) :
    OrderedMap String Json :=
  delta.entries.foldl (fun acc e => writeEntry acc e.1 e.2) tracks

def writeAnimationTracks (animations : OrderedMap String BoardAnimation)
    (e : String × OrderedMap String (Option Json)) : OrderedMap String BoardAnimation :=
  match animations.get? e.1 with
  | none => animations
  | some current => animations.set e.1 { current with tracks := writeTracks current.tracks e.2 }

def applyBoardDelta (document : BoardDocument) (delta : BoardDelta) : BoardDocument :=
  { board := delta.board.getD document.board
    items := delta.items.entries.foldl (fun items e => writeEntry items e.1 e.2) document.items
    animations := delta.tracks.entries.foldl writeAnimationTracks
      (delta.animations.entries.foldl writeHeader document.animations) }

def applyBoardPatchToDocument (rules : TextRules) (layout : BoardLayout) (document : BoardDocument)
    (patch : BoardPatch) (options : BoardApplyOptions) : Except (List BoardDiagnostic) BoardDocument :=
  match applyBoardPatch rules layout (createDocumentState document) patch options with
  | .ok _ after => .ok (applyBoardDelta document after)
  | .failed diagnostics => .error diagnostics

/-- The document without items and animations. -/
def emptyBoardDocument (rules : TextRules) : BoardDocument :=
  { board := match (boardSettingsSchema rules).parse (some (.obj [])) with
      | .ok settings => settings.getD .null
      | .error _ => .null
    items := OrderedMap.empty
    animations := OrderedMap.empty }

/-- `parseBoardDocument`: the patch that makes the document out of nothing.
    Members that are no records are left out. -/
def parseBoardDocument (rules : TextRules) (layout : BoardLayout) (input : BoardPatch)
    (keepUnknown : Bool) : Except (List BoardDiagnostic) BoardDocument :=
  applyBoardPatchToDocument rules layout (emptyBoardDocument rules)
    { input with board := input.board.filter Json.isRecord }
    { BoardApplyOptions.none with keepUnknown := keepUnknown }

/-! ## A platform to run on

    Rules and a layout for runs on concrete boards whose texts are all legal
    and where no arrow loses an end. -/

/-- Every text is legal. -/
def allTextRules : TextRules :=
  { isBoardColorString := fun _ => true
    isBoardEase := fun _ => true
    isBoardRemoteUrl := fun _ => true
    isUrl := fun _ => true }

/-- The layout of a board without arrows that lose an end. -/
def originLayout : BoardLayout :=
  { Cache := Unit
    fresh := ()
    arrowEnd := fun _ _ _ _ => ((), { x := .num 0, y := .num 0 })
    toLocal := fun _ _ _ point => ((), point) }

/-- A run succeeded with a document that passes a test. -/
def succeedsWith (test : BoardDocument → Bool) :
    Except (List BoardDiagnostic) BoardDocument → Bool
  | .ok document => test document
  | .error _ => false

variable {result : Except (List BoardDiagnostic) BoardDocument}

theorem exists_of_succeedsWith {test : BoardDocument → Bool}
    (h : succeedsWith test result = true) : ∃ document, result = .ok document ∧ test document = true := by
  cases result with
  | ok document => exact ⟨document, rfl, h⟩
  | error diagnostics => cases h

/-- That a patch is refused with a diagnostic of this code. -/
def failsWith (code : String) : Except (List BoardDiagnostic) BoardDocument → Bool
  | .ok _ => false
  | .error diagnostics => diagnostics.any fun e => e.code = code

theorem exists_of_failsWith {code : String} (h : failsWith code result = true) :
    ∃ diagnostics, result = .error diagnostics ∧ ∃ e ∈ diagnostics, e.code = code := by
  cases result with
  | ok document => cases h
  | error diagnostics =>
    obtain ⟨e, he, hcode⟩ := List.any_eq_true.mp h
    exact ⟨diagnostics, rfl, e, he, of_decide_eq_true hcode⟩

end Cohub.Board
