import Cohub.Lib.Schema

/-! # Board documents: schemas and parsers

    `packages/protocol/src/board-model.ts`: what an item, an animation header,
    a track and the settings of a board are.  Values are JSON; a schema says
    which values are legal and what their defaults are.

    Three rules on strings rest on the platform (Unicode case mapping, number
    and URL parsing): they are a parameter, `TextRules`. -/

namespace Cohub.Board

/-! ## Identifiers -/

/-- `BOARD_ID_MAX_LENGTH`. -/
def boardIdMaxLength : Nat := 160

/-- `BOARD_CAMERA_TARGET`. -/
def boardCameraTarget : String := "camera"

/-- `/^[^\s/]+$/`. -/
def isKeyText (s : String) : Bool :=
  !s.toList.isEmpty && s.toList.all fun c => !Text.isWhiteSpace c && c != '/'

/-- The tests of `BoardKeySchema`. -/
def boardKeyChecks : List StringCheck :=
  [.min 1, .max boardIdMaxLength,
    { ok := isKeyText, code := "invalid_format"
      message := "ids must not contain whitespace or '/'" }]

/-- The tests of `BoardIdSchema`. -/
def boardIdChecks : List StringCheck :=
  boardKeyChecks ++
    [{ ok := fun s => s != boardCameraTarget, code := "custom", message := "\"camera\" is reserved" }]

/-- `BoardIdSchema`. -/
def boardIdSchema : Schema := .string boardIdChecks

/-- The key is a legal track id. -/
def isBoardKey (s : String) : Bool := boardKeyChecks.all fun c => c.ok s

/-- The key is a legal id of an item, an animation or a script. -/
def isBoardId (s : String) : Bool := boardIdChecks.all fun c => c.ok s

/-! ## Rules on strings -/

/-- The rules on strings that the platform decides: CSS colors
    (`isBoardColorString` lowers the case), easings (`isBoardEase` reads
    numbers), public URLs (`normalizeBoardRemoteUrl`) and URLs (`z.url`). -/
structure TextRules where
  isBoardColorString : String → Bool
  isBoardEase : String → Bool
  isBoardRemoteUrl : String → Bool
  isUrl : String → Bool

/-- `/^[a-z][a-z\d+.-]*:/i` on the text after leading white space. -/
def hasScheme (s : String) : Bool :=
  match s.toList.dropWhile Text.isWhiteSpace with
  | [] => false
  | c :: rest =>
      (Text.isLower c || Text.isUpper c) &&
        (rest.dropWhile fun c => Text.isLower c || Text.isUpper c || Text.isDigit c ||
          c == '+' || c == '.' || c == '-').head? == some ':'

def isSafeBoardSourcePath (value : String) : Bool :=
  0 < Text.utf16Length value && Text.utf16Length value ≤ 4096 &&
    value.toList.head? != some '/' && !hasScheme value && !value.toList.contains '\\' &&
    (Text.splitAt (· == '/') value).all fun part =>
      !part.isEmpty && part != ['.'] && part != ['.', '.']

/-- `parseBoardMediaSource(src) !== null`. -/
def isBoardMediaSource (rules : TextRules) (src : String) : Bool :=
  isSafeBoardSourcePath src || rules.isBoardRemoteUrl src

/-- `/\.m?js$/`. -/
def isScriptPath (path : String) : Bool :=
  ".js".toList.isSuffixOf path.toList || ".mjs".toList.isSuffixOf path.toList

/-- `/^[a-z0-9]+(?:[.-][a-z0-9]+)*$/`. -/
def isRelationSlug (s : String) : Bool :=
  (Text.splitAt (fun c => c == '.' || c == '-') s).all fun part =>
    !part.isEmpty && part.all Text.isSlugChar

/-- `BOARD_EXTENSION_TYPE_PATTERN`: `/^[a-z][a-z0-9]*(?:\.[a-z0-9-]+)+$/`. -/
def isExtensionType (type : String) : Bool :=
  match Text.splitAt (· == '.') type with
  | (c :: first) :: part :: parts =>
      Text.isLower c && first.all Text.isSlugChar &&
        (part :: parts).all fun p => !p.isEmpty && p.all fun c => Text.isSlugChar c || c == '-'
  | _ => false

/-! ## Building blocks of the schemas -/

/-- An object literal. -/
def record (fields : List (String × Json)) : Json :=
  .obj (fields.foldl (fun fs e => Fields.set fs e.1 e.2) [])

/-- `z.string()` with length bounds. -/
def text (min max : Option Nat) : Schema :=
  .string (min.toList.map StringCheck.min ++ max.toList.map StringCheck.max)

def finite : Schema := .number []

def nonNegative : Schema := .number [.nonnegative]

def positive : Schema := .number [.positive]

/-- `finite.min(lo).max(hi)`. -/
def within (lo hi : Rat) : Schema := .number [.min lo, .max hi]

def ratio : Schema := within 0 1

/-- A string that satisfies a rule. -/
def ruled (checks : List StringCheck) (ok : String → Bool) (message : String) : Schema :=
  .string (checks ++ [{ ok := ok, code := "custom", message := message }])

/-- `BoardVec2Schema`. -/
def boardVec2Schema : Schema := .object [("x", finite), ("y", finite)]

/-- `BoardSizeSchema`. -/
def boardSizeSchema : Schema := .object [("width", positive), ("height", positive)]

section Rules

variable (rules : TextRules)

def colorString : Schema :=
  ruled [.max 120] rules.isBoardColorString "expected a palette token or a CSS color"

/-- `BoardColorSchema`. -/
def boardColorSchema : Schema :=
  .tagged "BoardColor"
    (.union [colorString rules, .object [("light", colorString rules), ("dark", colorString rules)]])

/-- `BoardFilterSchema`. -/
def boardFilterSchema : Schema :=
  .object [
    ("blur", .optional (within 0 256)),
    ("brightness", .optional (within 0 10)),
    ("contrast", .optional (within 0 10)),
    ("saturate", .optional (within 0 10)),
    ("hue", .optional (within (-3600) 3600)),
    ("grayscale", .optional ratio),
    ("sepia", .optional ratio),
    ("invert", .optional ratio)]

/-- `BoardShadowSchema`. -/
def boardShadowSchema : Schema :=
  .object [
    ("color", .optional (boardColorSchema rules)),
    ("opacity", .optional ratio),
    ("blur", .optional (within 0 256)),
    ("x", .optional (within (-1024) 1024)),
    ("y", .optional (within (-1024) 1024))]

/-- `BoardStyleSchema`. -/
def boardStyleSchema : Schema :=
  .object [
    ("fill", .optional (boardColorSchema rules)),
    ("fillOpacity", .optional ratio),
    ("stroke", .optional (boardColorSchema rules)),
    ("strokeWidth", .optional (within 0 64)),
    ("dash", .optional (.enum ["solid", "dashed", "dotted"])),
    ("radius", .optional nonNegative),
    ("trim", .optional ratio),
    ("filter", .optional boardFilterSchema),
    ("shadow", .optional (boardShadowSchema rules)),
    ("blend", .optional (.enum ["normal", "multiply", "screen", "add"]))]

/-- `BoardMediaSourceSchema`. -/
def boardMediaSourceSchema : Schema :=
  ruled [.max 4096] (isBoardMediaSource rules)
    "src must be a public HTTP(S) URL or relative Space file path"

/-- `BoardScriptSchema`. -/
def boardScriptSchema : Schema :=
  .object [
    ("src", .string [
      { ok := isSafeBoardSourcePath, code := "custom"
        message := "src must be a relative Space file path" },
      { ok := isScriptPath, code := "custom"
        message := "script src must be a .js or .mjs module" }]),
    ("params", .default (.record [] .json) (.obj [])),
    ("targets", .default (.record [.min 1, .max 80] boardIdSchema) (.obj [])),
    ("seed", .optional (text (some 1) (some 160))),
    ("enabled", .default .boolean (.bool true))]

/-! ## Items -/

/-- `itemEnvelope`, with the schema of its `script` member. -/
def itemEnvelope (script : Schema) : List (String × Schema) := [
  ("script", script),
  ("parent", .optional boardIdSchema),
  ("z", .optional finite),
  ("position", .default boardVec2Schema (record [("x", .num 0), ("y", .num 0)])),
  ("rotation", .default finite (.num 0)),
  ("scale", .default (.union [finite, boardVec2Schema]) (.num 1)),
  ("origin", .default boardVec2Schema (record [("x", .num (1 / 2)), ("y", .num (1 / 2))])),
  ("opacity", .default ratio (.num 1)),
  ("visible", .optional .boolean),
  ("style", .default (boardStyleSchema rules) (.obj [])),
  ("locked", .optional .boolean),
  ("autoplay", .optional .boolean),
  ("metadata", .optional (.record [] .unknown))]

/-- The envelope of an item whose script is optional. -/
def unsized : List (String × Schema) := itemEnvelope rules (.optional boardScriptSchema)

/-- The `size` member with its default. -/
def sized (width height : Rat) : List (String × Schema) :=
  [("size", .default boardSizeSchema (record [("width", .num width), ("height", .num height)]))]

def fontSize : Schema := within 2 512

/-- `BoardFrameItemSchema`. -/
def boardFrameItemSchema : Schema :=
  .object (unsized rules ++ sized 480 320 ++ [
    ("type", .enum ["frame"]),
    ("props", .prefault (.object [
      ("label", .default (text none (some 280)) (.str "")),
      ("decoration", .optional (.enum ["frame", "none"])),
      ("clip", .default .boolean (.bool true))]) (.obj []))])

/-- `BoardTextItemSchema`; the line height is the double nearest to `4 / 3`. -/
def boardTextItemSchema : Schema :=
  .object (unsized rules ++ [
    ("type", .enum ["text"]),
    ("props", .prefault (.object [
      ("text", .default (text none none) (.str "")),
      ("fontSize", .default fontSize (.num 24)),
      ("fontWeight", .default (within 100 900) (.num 500)),
      ("font", .default (text (some 1) (some 120)) (.str "sans")),
      ("align", .default (.enum ["left", "center", "right"]) (.str "left")),
      ("lineHeight", .default (within (1 / 2) 4) (.num (6004799503160661 / 4503599627370496))),
      ("width", .optional positive),
      ("reveal", .default ratio (.num 1)),
      ("revealBy", .optional (.enum ["char", "word", "line"])),
      ("revealMotion", .optional (.enum ["cut", "fade", "rise"])),
      ("caret", .default .boolean (.bool false))]) (.obj []))])

/-- The check on a shape's props: path geometry has a path. -/
def shapePathIssues (props : Json) : List Issue :=
  if props.get? "geometry" ≠ some (.str "path") ∨ (props.get? "path").isSome then []
  else [{ code := "custom", path := [.key "path"], keys := []
          message := "path geometry requires props.path" }]

/-- `BoardShapeItemSchema`. -/
def boardShapeItemSchema : Schema :=
  .object (unsized rules ++ sized 200 140 ++ [
    ("type", .enum ["shape"]),
    ("props", .prefault (.refine (.object [
      ("geometry", .default
        (.enum ["rectangle", "rounded", "ellipse", "diamond", "triangle", "path"])
        (.str "rectangle")),
      ("path", .optional (text (some 1) (some 200000))),
      ("text", .default (text none none) (.str "")),
      ("fontSize", .default fontSize (.num 20)),
      ("align", .default (.enum ["left", "center", "right"]) (.str "center"))])
      shapePathIssues) (.obj []))])

/-- `BoardDrawPointSchema`. -/
def boardDrawPointSchema : Schema :=
  .object [("x", finite), ("y", finite), ("p", .default ratio (.num (1 / 2)))]

/-- `BoardDrawItemSchema`. -/
def boardDrawItemSchema : Schema :=
  .object (unsized rules ++ [
    ("type", .enum ["draw"]),
    ("props", .object [("points", .array boardDrawPointSchema (some 1) (some 100000))])])

/-- `BoardArrowAnchorSchema`. -/
def boardArrowAnchorSchema : Schema :=
  .union [
    .enum ["auto"],
    .object [("side", .enum ["top", "right", "bottom", "left"]),
      ("offset", .default ratio (.num (1 / 2)))],
    .object [("x", ratio), ("y", ratio)]]

/-- `BoardArrowBindingSchema`. -/
def boardArrowBindingSchema : Schema :=
  .object [
    ("item", boardIdSchema),
    ("anchor", .default boardArrowAnchorSchema (.str "auto")),
    ("port", .optional (text (some 1) (some 120)))]

/-- `BoardArrowEndSchema`. -/
def boardArrowEndSchema : Schema := .union [boardVec2Schema, boardArrowBindingSchema]

/-- The `props` of an arrow. -/
def boardArrowProps : List (String × Schema) := [
  ("start", boardArrowEndSchema),
  ("end", boardArrowEndSchema),
  ("route", .default (.enum ["straight", "curve", "orthogonal"]) (.str "straight")),
  ("bend", .default (within (-17 / 20) (17 / 20)) (.num 0)),
  ("waypoints", .default (.array boardVec2Schema none (some 64)) (.arr [])),
  ("arrowStart", .default .boolean (.bool false)),
  ("arrowEnd", .default .boolean (.bool true)),
  ("label", .default (text none (some 280)) (.str "")),
  ("fontSize", .default fontSize (.num 14)),
  ("relation", .optional (.string [.max 64,
    { ok := isRelationSlug, code := "invalid_format"
      message := "relation must be a lowercase slug" }]))]

/-- `BoardArrowItemSchema`. -/
def boardArrowItemSchema : Schema :=
  .object (unsized rules ++ [("type", .enum ["arrow"]), ("props", .object boardArrowProps)])

/-- `BoardMediaSnapshotSchema`. -/
def boardMediaSnapshotSchema : Schema :=
  .object [
    ("title", .optional (text none none)),
    ("mimeType", .optional (text none none)),
    ("size", .optional nonNegative),
    ("mtimeMs", .optional nonNegative),
    ("naturalWidth", .optional positive),
    ("naturalHeight", .optional positive),
    ("durationMs", .optional nonNegative),
    ("excerpt", .optional (text none none)),
    ("coverPath", .optional (text none none)),
    ("coverUrl", .optional (text none none))]

def fileProps : List (String × Schema) :=
  [("src", boardMediaSourceSchema rules), ("snapshot", .optional boardMediaSnapshotSchema)]

def mediaProps : List (String × Schema) :=
  fileProps rules ++ [("origin", .optional (.object [
    ("taskRunId", text (some 1) (some 160)), ("artifactId", text (some 1) (some 240))]))]

def timedFileProps : List (String × Schema) :=
  mediaProps rules ++ [("time", .optional nonNegative), ("volume", .optional ratio)]

/-- An item that shows a file. -/
def fileItemSchema (type : String) (width height : Rat) (props : List (String × Schema)) : Schema :=
  .object (unsized rules ++ sized width height ++
    [("type", .enum [type]), ("props", .object props)])

/-- `BoardImageItemSchema`. -/
def boardImageItemSchema : Schema :=
  fileItemSchema rules "image" 480 270 (mediaProps rules ++ [("crop", .optional (.object [
    ("x", ratio), ("y", ratio), ("w", ratio), ("h", ratio)]))])

/-- `BoardVideoItemSchema`. -/
def boardVideoItemSchema : Schema := fileItemSchema rules "video" 480 270 (timedFileProps rules)

/-- `BoardAudioItemSchema`. -/
def boardAudioItemSchema : Schema := fileItemSchema rules "audio" 320 112 (timedFileProps rules)

/-- `BoardFileItemSchema`. -/
def boardFileItemSchema : Schema := fileItemSchema rules "file" 260 132 (fileProps rules)

def httpsUrl : Schema :=
  .string [.max 4096, { ok := rules.isUrl, code := "invalid_format", message := "" }]

def artifactBase : List (String × Schema) := [
  ("id", text (some 1) (some 240)),
  ("title", .optional (text none (some 240))),
  ("url", httpsUrl rules),
  ("mimeType", .optional (text none (some 160)))]

/-- `z.number().int().positive()`. -/
def positiveInt : Schema := .number [.int, .positive]

/-- `BoardTaskArtifactSchema`. -/
def boardTaskArtifactSchema : Schema :=
  .switch "type" [
    ("image", .object (artifactBase rules ++ [("type", .enum ["image"]),
      ("naturalWidth", .optional positive), ("naturalHeight", .optional positive)])),
    ("video", .object (artifactBase rules ++ [("type", .enum ["video"]),
      ("previewUrl", .optional (httpsUrl rules)), ("durationMs", .optional positiveInt),
      ("naturalWidth", .optional positive), ("naturalHeight", .optional positive)])),
    ("audio", .object (artifactBase rules ++ [("type", .enum ["audio"]),
      ("previewUrl", .optional (httpsUrl rules)), ("durationMs", .optional positiveInt)])),
    ("text", .object [("id", text (some 1) (some 240)), ("type", .enum ["text"]),
      ("title", .optional (text none (some 240))), ("textExcerpt", text (some 1) (some 480))])]

/-- `BoardTaskSnapshotSchema`. -/
def boardTaskSnapshotSchema : Schema :=
  .object [
    ("taskType", text (some 1) (some 120)),
    ("status", .enum ["pending", "running", "completed", "failed"]),
    ("title", text (some 1) (some 240)),
    ("model", .optional (text none (some 160))),
    ("promptExcerpt", .optional (text none (some 480))),
    ("errorExcerpt", .optional (text none (some 240))),
    ("artifactCount", .number [.int, .nonnegative]),
    ("artifacts", .default (.array (boardTaskArtifactSchema rules) none (some 6)) (.arr [])),
    ("startedAt", .optional (text none (some 64))),
    ("updatedAt", .optional (text none none))]

/-- `BoardTaskItemSchema`. -/
def boardTaskItemSchema : Schema :=
  .object (unsized rules ++ sized 480 270 ++ [
    ("type", .enum ["task"]),
    ("props", .object [("taskRunId", text (some 1) (some 160)),
      ("snapshot", boardTaskSnapshotSchema rules)])])

/-- `BoardSessionSnapshotSchema`. -/
def boardSessionSnapshotSchema : Schema :=
  .object [
    ("title", .default (text none (some 255)) (.str "")),
    ("excerpt", .optional (text none (some 480))),
    ("source", .optional (text none (some 120))),
    ("issue", .optional (.enum ["failed", "lost"])),
    ("errorExcerpt", .optional (text none (some 240))),
    ("activityAt", .optional (text none (some 64)))]

/-- `BoardSessionItemSchema`. -/
def boardSessionItemSchema : Schema :=
  .object (unsized rules ++ sized 320 176 ++ [
    ("type", .enum ["session"]),
    ("props", .object [("sessionId", text (some 1) (some 160)),
      ("snapshot", boardSessionSnapshotSchema)])])

/-- `BoardEffectItemSchema`. -/
def boardEffectItemSchema : Schema :=
  .object (unsized rules ++ sized 240 240 ++ [
    ("type", .enum ["effect"]),
    ("props", .object [
      ("kind", .enum ["particles", "trail", "impact", "flash", "glow"]),
      ("rate", .default (.number [.nonnegative, .max 20000]) (.num 40)),
      ("life", .default (.number [.positive, .max 60000]) (.num 1200)),
      ("particleSize", .default (.number [.positive, .max 512]) (.num 6)),
      ("speed", .default (.number [.nonnegative, .max 10000]) (.num 120)),
      ("direction", .default finite (.num (-90))),
      ("spread", .default (within 0 360) (.num 360)),
      ("gravity", .default finite (.num 0)),
      ("intensity", .default (.number [.nonnegative, .max 10]) (.num 1)),
      ("follow", .optional boardIdSchema),
      ("seed", .optional (text (some 1) (some 160))),
      ("shape", .optional (.enum ["circle", "square", "star", "heart", "spark"])),
      ("colors", .optional (.array (boardColorSchema rules) (some 1) (some 8)))])])

/-- `BoardCustomItemSchema`; its own `script` takes the envelope's place. -/
def boardCustomItemSchema : Schema :=
  .object (itemEnvelope rules boardScriptSchema ++ sized 480 320 ++ [
    ("type", .enum ["custom"]),
    ("props", .default (.object []) (.obj []))])

/-- `BoardItemPreviewSchema`. -/
def boardItemPreviewSchema : Schema :=
  .object [
    ("title", .optional (text none (some 500))),
    ("excerpt", .optional (text none (some 2000))),
    ("cover", .optional (boardMediaSourceSchema rules)),
    ("src", .optional (boardMediaSourceSchema rules))]

/-- `BoardExtensionItemSchema`. -/
def boardExtensionItemSchema : Schema :=
  .object (unsized rules ++ sized 240 160 ++ [
    ("type", .string [{ ok := isExtensionType, code := "invalid_format", message := "" }]),
    ("props", .default (.record [] .unknown) (.obj [])),
    ("preview", .optional (boardItemPreviewSchema rules))])

/-- `BOARD_ITEM_SCHEMAS`. -/
def boardItemSchemas : List (String × Schema) := [
  ("frame", boardFrameItemSchema rules),
  ("text", boardTextItemSchema rules),
  ("shape", boardShapeItemSchema rules),
  ("draw", boardDrawItemSchema rules),
  ("arrow", boardArrowItemSchema rules),
  ("image", boardImageItemSchema rules),
  ("video", boardVideoItemSchema rules),
  ("audio", boardAudioItemSchema rules),
  ("file", boardFileItemSchema rules),
  ("task", boardTaskItemSchema rules),
  ("session", boardSessionItemSchema rules),
  ("effect", boardEffectItemSchema rules),
  ("custom", boardCustomItemSchema rules)]

/-- `BOARD_ITEM_TYPES`. -/
def boardItemTypes : List String :=
  ["frame", "text", "shape", "draw", "arrow", "image", "video", "audio", "file", "task",
    "session", "effect", "custom"]

def isBuiltinItemType (type : String) : Bool := boardItemTypes.contains type

def boardItemSchema (type : String) : Option Schema :=
  if isBuiltinItemType type then OrderedMap.lookupEntry type (boardItemSchemas rules)
  else if isExtensionType type then some (boardExtensionItemSchema rules)
  else none

/-! ## Tracks, animation headers and settings -/

/-- `BoardKeyframeSchema`. -/
def boardKeyframeSchema : Schema :=
  .object [
    ("at", nonNegative),
    ("value", .unknown),
    ("ease", .optional (ruled [.max 120] rules.isBoardEase
      "expected a CSS easing: linear, ease-in-out, cubic-bezier(…) or steps(…)"))]

def keyframesOf (track : Json) : List Json :=
  match track.get? "keyframes" with
  | some (.arr keyframes) => keyframes
  | _ => []

/-- When a keyframe is due. -/
def atOf (keyframe : Json) : Rat := ((keyframe.get? "at").bind Json.asNum?).getD 0

/-- The check on a track: keyframes are ordered by `at`. -/
def keyframeOrderIssues (track : Json) : List Issue :=
  let ats := (keyframesOf track).map atOf
  ((ats.zip (ats.drop 1)).zipIdx.filter fun e => e.1.2 < e.1.1).map fun e =>
    { code := "custom", path := [.key "keyframes", .index (e.2 + 1), .key "at"], keys := []
      message := "keyframes must be ordered by at" }

/-- `BoardTrackSchema`. -/
def boardTrackSchema : Schema :=
  .refine (.object [
    ("target", text (some 1) (some boardIdMaxLength)),
    ("property", text (some 1) (some 200)),
    ("keyframes", .array (boardKeyframeSchema rules) (some 1) (some 100000)),
    ("composite", .default (.enum ["replace", "add"]) (.str "replace")),
    ("interpolation", .default (.enum ["auto", "step", "spline"]) (.str "auto")),
    ("orient", .optional .boolean)]) keyframeOrderIssues

/-- `BoardMarkerSchema`. -/
def boardMarkerSchema : Schema :=
  .object [
    ("at", nonNegative),
    ("label", .optional (text none (some 280))),
    ("pause", .optional .boolean)]

/-- `BoardAnimationHeaderSchema`. -/
def boardAnimationHeaderSchema : Schema :=
  .object [
    ("name", .optional (text none (some 280))),
    ("duration", .number [.positive, .max 86400000]),
    ("play", .default (.enum ["manual", "auto", "always"]) (.str "manual")),
    ("delay", .default nonNegative (.num 0)),
    ("loop", .default .boolean (.bool false)),
    ("end", .default (.enum ["hold", "reset"]) (.str "hold")),
    ("markers", .default (.array boardMarkerSchema none (some 10000)) (.arr []))]

/-- `BoardBackgroundSchema`. -/
def boardBackgroundSchema : Schema :=
  .object [
    ("color", .optional (boardColorSchema rules)),
    ("pattern", .optional (.enum ["none", "dots", "grid"])),
    ("image", .optional (.object [
      ("src", boardMediaSourceSchema rules),
      ("fit", .default (.enum ["cover", "contain", "repeat"]) (.str "cover")),
      ("opacity", .optional ratio)]))]

/-- `BOARD_ROOT_SCRIPT_LIMIT`. -/
def boardRootScriptLimit : Nat := 32

/-- The check on the board's own scripts: there are not too many. -/
def scriptLimitIssues (scripts : Json) : List Issue :=
  if scripts.fields.length ≤ boardRootScriptLimit then []
  else [{ code := "custom", path := [], keys := []
          message := "A Board takes at most 32 scripts of its own." }]

/-- `BoardSettingsSchema`. -/
def boardSettingsSchema : Schema :=
  .object [
    ("title", .optional (text (some 1) (some 255))),
    ("background", .default (boardBackgroundSchema rules) (.obj [])),
    ("grid", .optional (.object [
      ("size", .default (within 4 512) (.num 24)),
      ("snap", .default .boolean (.bool false))])),
    ("atmosphere", .optional (.object [
      ("vignette", .optional ratio), ("grain", .optional ratio)])),
    ("enter", .optional (.object [
      ("preset", .enum ["fade-in", "rise", "drop", "pop", "deal"]),
      ("duration", .optional (.number [.positive, .max 10000]))])),
    ("scripts", .optional (.refine (.record boardIdChecks boardScriptSchema) scriptLimitIssues))]

end Rules

/-! ## Parsing with fields of newer clients -/

/-- `BoardDiagnostic`; every diagnostic of the patch code is an error. -/
structure BoardDiagnostic where
  code    : String
  path    : String
  message : String
  deriving DecidableEq

def segmentText : Segment → String
  | .key k => k
  | .index i => toString i

/-- `[...prefix, ...path.map(String)].join(".")`. -/
def joinPath (before : List String) (path : List Segment) : String :=
  ".".intercalate (before ++ path.map segmentText)

/-- `BoardKeepField`: whether to keep the unknown field `key` at `path`. -/
abbrev BoardKeepField := List Segment → String → Bool

def keepAllBoardFields : BoardKeepField := fun _ _ => true

/-- `fieldAt`: the object or array at a path. -/
def fieldAt : Json → List Segment → Option Json
  | .obj fs, [] => some (.obj fs)
  | .arr xs, [] => some (.arr xs)
  | .obj fs, .key k :: path => (Fields.get? fs k).bind fun v => fieldAt v path
  | .arr xs, .index i :: path => xs[i]?.bind fun v => fieldAt v path
  | _, _ => none

/-- `keepBoardFieldsOf`: keep the fields the stored value has. -/
def keepBoardFieldsOf (value : Json) : BoardKeepField := fun path key =>
  match fieldAt value path with
  | some (.obj fs) => (Fields.keys fs).contains key
  | _ => false

/-- Change the value at a path, where there is one. -/
def updateAt (f : Json → Json) : Json → List Segment → Json
  | v, [] => f v
  | .obj fs, .key k :: path =>
      match Fields.get? fs k with
      | some v => .obj (Fields.set fs k (updateAt f v path))
      | none => .obj fs
  | .arr xs, .index i :: path =>
      match xs[i]? with
      | some v => .arr (xs.set i (updateAt f v path))
      | none => .arr xs
  | v, _ => v

/-- `withoutFields`: the value without the members `keys` of the object at
    `path`. -/
def withoutFields (value : Json) (path : List Segment) (keys : List String) : Json :=
  updateAt (fun v => match v with
    | .obj fs => .obj (keys.foldl (fun fs k => Fields.erase fs k) fs)
    | v => v) value path

/-- A field taken out of a candidate. -/
structure KeptField where
  path  : List Segment
  key   : String
  value : Option Json

/-- Put a field back. -/
def restoreField (value : Json) (field : KeptField) : Json :=
  updateAt (fun v => match v, field.value with
    | .obj fs, some w => .obj (Fields.set fs field.key w)
    | v, _ => v) value field.path

/-- The unknown fields of an issue that are to be kept. -/
def keptKeys (keep : BoardKeepField) (issue : Issue) : List String :=
  if issue.code = "unrecognized_keys" then issue.keys.filter fun key => keep issue.path key else []

/-- Take the fields to keep out of the candidate, issue by issue. -/
def stripFields (keep : BoardKeepField) :
    List Issue → Json → List KeptField → Json × List KeptField
  | [], candidate, kept => (candidate, kept)
  | issue :: rest, candidate, kept =>
      match keptKeys keep issue with
      | [] => stripFields keep rest candidate kept
      | keys =>
          let taken := keys.map fun key =>
            { path := issue.path, key := key
              value := (fieldAt candidate issue.path).bind fun source => source.get? key }
          stripFields keep rest (withoutFields candidate issue.path keys) (kept ++ taken)

mutual
/-- The number of members of all objects inside. -/
def memberCount : Json → Nat
  | .arr xs => memberCountItems xs
  | .obj fs => memberCountFields fs
  | _ => 0
/-- The same over items. -/
def memberCountItems : List Json → Nat
  | [] => 0
  | x :: xs => memberCount x + memberCountItems xs
/-- The same over members. -/
def memberCountFields : List (String × Json) → Nat
  | [] => 0
  | (_, x) :: rest => 1 + memberCount x + memberCountFields rest
end

/-- The loop of `parseKeepingBoardFields`: every round but the last takes at
    least one member out of the candidate, so their number bounds the rounds. -/
def parseKeepingRounds (schema : Schema) (keep : BoardKeepField) :
    Nat → Json → List KeptField → Except (List Issue) Json
  | rounds, candidate, kept =>
      match schema.parse (some candidate) with
      | .ok y => .ok (kept.foldl restoreField (y.getD .null))
      | .error issues =>
          if issues.any fun issue => !(keptKeys keep issue).isEmpty then
            match rounds with
            | 0 => .error issues
            | n + 1 =>
                let stripped := stripFields keep issues candidate kept
                parseKeepingRounds schema keep n stripped.1 stripped.2
          else .error issues

def parseKeepingBoardFields (schema : Schema) (value : Json) (keep : Option BoardKeepField) :
    Except (List Issue) Json :=
  match keep with
  | some keep => parseKeepingRounds schema keep (memberCount value) value []
  | none =>
      match schema.parse (some value) with
      | .ok y => .ok (y.getD .null)
      | .error issues => .error issues

/-- The `type` of an item. -/
def itemType (item : Json) : Option String := (item.get? "type").bind Json.asString?

def issuesToDiagnostics (issues : List Issue) (path : String) : List BoardDiagnostic :=
  issues.map fun issue =>
    { code := "INVALID_ITEM", path := joinPath [path] issue.path
      message :=
        if issue.code = "unrecognized_keys" then
          "unknown " ++ (if issue.keys.length = 1 then "property" else "properties") ++ " " ++
            ", ".intercalate issue.keys
        else issue.message }

def parseBoardItem (rules : TextRules) (value : Json) (path : String)
    (keep : Option BoardKeepField) : Except (List BoardDiagnostic) Json :=
  match itemType value with
  | none =>
      .error [{ code := "INVALID_ITEM", path := path ++ ".type", message := "type is required" }]
  | some type =>
      match boardItemSchema rules type with
      | none =>
          .error [{ code := "INVALID_ITEM", path := path ++ ".type"
                    message := "unknown type " ++ type ++ "; expected " ++
                      ", ".intercalate boardItemTypes ++ " or a namespaced extension type" }]
      | some schema =>
          match parseKeepingBoardFields schema value keep with
          | .ok item => .ok item
          | .error issues => .error (issuesToDiagnostics issues path)

/-! ## The schemas are lawful -/

theorem boardItemSchemas_lawful (rules : TextRules) :
    ∀ e ∈ boardItemSchemas rules, e.2.lawful = true := by
  rw [← Schema.lawfulShape_iff]
  with_unfolding_all rfl

theorem boardItemSchema_lawful {rules : TextRules} {type : String} {schema : Schema}
    (h : boardItemSchema rules type = some schema) : schema.lawful = true := by
  unfold boardItemSchema at h
  split at h
  · exact boardItemSchemas_lawful rules _ (OrderedMap.mem_of_lookupEntry h)
  · split at h
    · cases h
      with_unfolding_all rfl
    · cases h

theorem boardTrackSchema_lawful (rules : TextRules) : (boardTrackSchema rules).lawful = true := by
  with_unfolding_all rfl

end Cohub.Board
