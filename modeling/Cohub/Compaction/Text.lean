import Cohub.Lib.CodeUnits

/-! # The texts of a summary request

    `apps/agent/src/runtime/compaction-summary.ts`: shortening texts and
    messages, and splitting a summary into messages.  Texts are lists of UTF-16
    code units.

    How many characters a message takes in a request is told by
    `serializeConversation` of another package, which is a parameter
    (`serialized`).  All that is used of it is that a message of one text takes
    little more than the text (`SerializesTexts`). -/

namespace Cohub.Compaction

open List

/-! ## Texts -/

/-- UTF-16 code units. -/
abbrev Units := List Nat

def units (s : String) : Units := Text.codeUnits s

def newline : Nat := 10

def lastDigits : Nat → Nat → Units
  | 0, _ => []
  | digits + 1, n => if n < 10 then [48 + n] else lastDigits digits (n / 10) ++ [48 + n % 10]

/-- A length or a count as text.  They are below `2 ^ 53`, which has 16 digits. -/
def decimal (n : Nat) : Units := lastDigits 16 n

/-- The text that stands for what was left out. -/
def omittedMarker (n : Nat) : Units :=
  units "\n[... " ++ decimal n ++ units " characters omitted ...]\n"

def truncateMiddle (text : Units) (maxChars : Nat) : Units :=
  if text.length ≤ maxChars then text
  else
    let marker := omittedMarker (text.length - maxChars)
    let keep := maxChars - marker.length
    let head := (keep + 1) / 2
    text.take head ++ marker ++ text.drop (text.length - (keep - head))

def join (separator : Units) (texts : List Units) : Units := separator.intercalate texts

/-! ## Messages -/

/-- The value of an argument: a text, or another value as `safeJson` prints
    it. -/
inductive Argument where
  | text (text : Units)
  | value (json : Units)
  deriving DecidableEq

def Argument.asText : Argument → Units
  | .text t => t
  | .value json => json

/-- A block of a message; an image with a URL has its data. -/
inductive Block where
  | text (text : Units)
  | image (url : Option Units)
  | toolCall (name : Units) (arguments : List (Units × Argument))
  | other
  deriving DecidableEq

inductive Role where
  | user | toolResult | assistant
  deriving DecidableEq

inductive Content where
  | text (text : Units)
  | blocks (blocks : List Block)
  deriving DecidableEq

structure Message where
  role    : Role
  content : Content
  deriving DecidableEq

def textMessage (role : Role) (text : Units) : Message :=
  { role := role, content := .blocks [.text text] }

/-- `message.content` as blocks. -/
def Message.blocks (m : Message) : List Block :=
  match m.content with
  | .text _ => []
  | .blocks blocks => blocks

def blockText : Block → Option Units
  | .text text => some text
  | .image (some data) => some (units "[image: " ++ data ++ units "]")
  | .image none => some (units "[image]")
  | _ => none

def contentToText (content : Content) (maxChars : Nat) : Units :=
  match content with
  | .text text => truncateMiddle text maxChars
  | .blocks blocks => truncateMiddle (join [newline] (blocks.filterMap blockText)) maxChars

def assistantText (m : Message) : Units :=
  join [newline] (m.blocks.filterMap fun block =>
    match block with
    | .text text => some text
    | _ => none)

def toolCalls (m : Message) : List (Units × List (Units × Argument)) :=
  m.blocks.filterMap fun block =>
    match block with
    | .toolCall name arguments => some (name, arguments)
    | _ => none

def countTool (counts : List (Units × Nat)) (name : Units) : List (Units × Nat) :=
  if counts.any fun e => e.1 = name then
    counts.map fun e => if e.1 = name then (e.1, e.2 + 1) else e
  else counts ++ [(name, 1)]

def formatTools (counts : List (Units × Nat)) : Units :=
  join (units ", ") (counts.map fun e =>
    if 1 < e.2 then e.1 ++ units " ×" ++ decimal e.2 else e.1)

/-! ## Sizes -/

/-- Every argument of the calls shortened. -/
def boundArguments (perArgument : Nat) (arguments : List (Units × Argument)) :
    List (Units × Argument) :=
  arguments.map fun e => (e.1, .text (truncateMiddle e.2.asText perArgument))

/-- An assistant message with all its texts shortened. -/
def boundedMessage (m : Message) (limit : Nat) : Message :=
  let text := assistantText m
  let calls := toolCalls m
  let argCount := calls.foldl (fun count call => count + Nat.max 1 call.2.length) 0
  let perArgument := Nat.max 64 (limit / (2 * Nat.max 1 argCount))
  { role := m.role
    content := .blocks
      ((if text ≠ [] then [.text (truncateMiddle text (limit / 2))] else []) ++
        calls.map fun call => .toolCall call.1 (boundArguments perArgument call.2)) }

/-- The text of an assistant message with a tally of its tool calls. -/
def talliedText (m : Message) : Units :=
  let text := assistantText m
  let calls := toolCalls m
  let toolLine := units "[" ++ decimal calls.length ++ units " tool calls: " ++
    formatTools (calls.foldl (fun counts call => countTool counts call.1) []) ++ units "]"
  if text ≠ [] then text ++ [newline] ++ toolLine else toolLine

section Sizes

variable (serialized : Message → Nat)

def serializedChars (m : Message) : Nat := serialized m + 2

def shrinkMessage (m : Message) (maxChars : Nat) : Message :=
  let limit := maxChars - 64
  if m.role ≠ .assistant then textMessage m.role (contentToText m.content limit)
  else
    let bounded := boundedMessage m limit
    if serializedChars serialized bounded ≤ maxChars then bounded
    else textMessage m.role (truncateMiddle (talliedText m) limit)

/-- A message of one text is serialised to the text after its role. -/
def SerializesTexts : Prop :=
  ∀ role text, serialized (textMessage role text) ≤ text.length + 62

end Sizes

/-! ## Splitting a summary -/

/-- The slices of a length, from the beginning of a text; there are at most
    `count`. -/
def slices (maxChars : Nat) : Nat → Units → List Units
  | 0, _ => []
  | _ + 1, [] => []
  | count + 1, text => text.take maxChars :: slices maxChars count (text.drop maxChars)

/-- A line in parts of a length; an empty line is one part. -/
def lineParts (maxChars : Nat) (line : Units) : List Units :=
  if line = [] then [[]] else slices maxChars line.length line

/-- Add a part to the piece at hand, or begin another. -/
def addPart (maxChars : Nat) (acc : List Units × Units) (part : Units) : List Units × Units :=
  let full := acc.2 ≠ [] ∧ maxChars < acc.2.length + part.length + 1
  let pieces := if full then acc.1 ++ [acc.2] else acc.1
  let current := if full then [] else acc.2
  (pieces, if current ≠ [] then current ++ [newline] ++ part else part)

def summaryPieces (summary : Units) (maxChars : Nat) : List Units :=
  let acc := ((summary.splitOn newline).flatMap (lineParts maxChars)).foldl (addPart maxChars)
    ([], [])
  if acc.2 ≠ [] then acc.1 ++ [acc.2] else acc.1

/-- The line above a piece. -/
def pieceHeader (index total : Nat) : Units :=
  units "[Earlier context summary, part " ++ decimal (index + 1) ++ units "/" ++
    decimal total ++ units "]\n"

def splitSummary (summary : Units) (maxChars : Nat) : List Message :=
  let pieces := summaryPieces summary maxChars
  pieces.zipIdx.map fun e => textMessage .user (pieceHeader e.2 pieces.length ++ e.1)

/-! ## How long shortened texts are -/

theorem length_lastDigits_le (digits n : Nat) : (lastDigits digits n).length ≤ digits := by
  induction digits generalizing n with
  | zero => exact Nat.le_refl 0
  | succ digits ih =>
    unfold lastDigits
    split
    · simp
    · rw [length_append, length_singleton]
      have := ih (n / 10)
      omega

theorem length_omittedMarker_le (n : Nat) : (omittedMarker n).length ≤ 47 := by
  have hdigits := length_lastDigits_le 16 n
  have hbefore : (units "\n[... ").length = 6 := by decide
  have hafter : (units " characters omitted ...]\n").length = 25 := by decide
  unfold omittedMarker decimal
  rw [length_append, length_append, hbefore, hafter]
  omega

variable {maxChars : Nat} (text : Units)

theorem length_truncateMiddle_le (h : 47 ≤ maxChars) :
    (truncateMiddle text maxChars).length ≤ maxChars := by
  unfold truncateMiddle
  split
  · assumption
  · have hmarker := length_omittedMarker_le (text.length - maxChars)
    dsimp only
    simp only [length_append, length_take, length_drop]
    omega

theorem length_contentToText_le (content : Content) (h : 47 ≤ maxChars) :
    (contentToText content maxChars).length ≤ maxChars := by
  cases content <;> exact length_truncateMiddle_le _ h

theorem serializedChars_shrinkMessage_le {serialized : Message → Nat}
    (hserialized : SerializesTexts serialized) (m : Message) (h : 111 ≤ maxChars) :
    serializedChars serialized (shrinkMessage serialized m maxChars) ≤ maxChars := by
  have htext : ∀ role text, text.length ≤ maxChars - 64 →
      serializedChars serialized (textMessage role text) ≤ maxChars := by
    intro role text hlength
    have hbound := hserialized role text
    unfold serializedChars
    omega
  unfold shrinkMessage
  dsimp only
  split
  · exact htext _ _ (length_contentToText_le _ (by omega))
  · split
    · assumption
    · exact htext _ _ (length_truncateMiddle_le _ (by omega))

/-! ## Nothing of a summary is lost -/

def withoutBreaks (text : Units) : Units := text.filter (· ≠ newline)

@[simp] theorem withoutBreaks_append (a b : Units) :
    withoutBreaks (a ++ b) = withoutBreaks a ++ withoutBreaks b := filter_append _ _

@[simp] theorem withoutBreaks_newline :
    withoutBreaks (newline :: text) = withoutBreaks text := rfl

theorem flatten_slices (hmax : 0 < maxChars) :
    ∀ (count : Nat) (text : Units), text.length ≤ count → (slices maxChars count text).flatten = text
  | 0, text, h => by
    rw [length_eq_zero_iff.mp (Nat.le_zero.mp h)]
    rfl
  | count + 1, [], _ => rfl
  | count + 1, unit :: text, h => by
    have hdrop : ((unit :: text).drop maxChars).length ≤ count := by
      rw [length_drop]
      omega
    rw [slices, flatten_cons, flatten_slices hmax count _ hdrop, take_append_drop]
    exact cons_ne_nil _ _

theorem flatten_lineParts (hmax : 0 < maxChars) (line : Units) :
    (lineParts maxChars line).flatten = line := by
  unfold lineParts
  split
  · next h => rw [h]; rfl
  · exact flatten_slices hmax _ _ (Nat.le_refl _)

theorem withoutBreaks_addPart (maxChars : Nat) (acc : List Units × Units) (part : Units) :
    withoutBreaks ((addPart maxChars acc part).1.flatten ++ (addPart maxChars acc part).2) =
      withoutBreaks (acc.1.flatten ++ acc.2) ++ withoutBreaks part := by
  unfold addPart
  dsimp only
  by_cases hfull : acc.2 ≠ [] ∧ maxChars < acc.2.length + part.length + 1
  · rw [if_pos hfull, if_pos hfull, if_neg (by simp)]
    simp
  · rw [if_neg hfull, if_neg hfull]
    split
    · simp
    · next hempty =>
      rw [not_not] at hempty
      simp [hempty]

theorem withoutBreaks_foldl_addPart (maxChars : Nat) (parts : List Units)
    (acc : List Units × Units) :
    withoutBreaks ((parts.foldl (addPart maxChars) acc).1.flatten ++
      (parts.foldl (addPart maxChars) acc).2) =
      withoutBreaks (acc.1.flatten ++ acc.2) ++ withoutBreaks parts.flatten := by
  induction parts generalizing acc with
  | nil => simp [withoutBreaks]
  | cons part parts ih =>
    rw [foldl_cons, ih, withoutBreaks_addPart, flatten_cons, append_assoc,
      ← withoutBreaks_append]

theorem withoutBreaks_lines :
    withoutBreaks (text.splitOn newline).flatten = withoutBreaks text := by
  have hjoin : ∀ lines : List Units,
      withoutBreaks ([newline].intercalate lines) = withoutBreaks lines.flatten := by
    intro lines
    induction lines with
    | nil => rfl
    | cons line lines ih =>
      cases lines with
      | nil => simp [intercalate]
      | cons next rest =>
        rw [intercalate_cons_cons, append_assoc, withoutBreaks_append,
          singleton_append, withoutBreaks_newline, ih, ← withoutBreaks_append]
        rfl
  rw [← hjoin, intercalate_splitOn]

theorem withoutBreaks_summaryPieces (summary : Units) (hmax : 0 < maxChars) :
    withoutBreaks (summaryPieces summary maxChars).flatten = withoutBreaks summary := by
  have hparts : ∀ lines : List Units, (lines.flatMap (lineParts maxChars)).flatten = lines.flatten := by
    intro lines
    induction lines with
    | nil => rfl
    | cons line lines ih =>
      rw [flatMap_cons, flatten_append, ih, flatten_lineParts hmax, flatten_cons]
  have hall := withoutBreaks_foldl_addPart maxChars
    ((summary.splitOn newline).flatMap (lineParts maxChars)) ([], [])
  rw [hparts, withoutBreaks_lines] at hall
  unfold summaryPieces
  dsimp only
  rw [← show _ = withoutBreaks summary from hall]
  split
  · simp
  · next hempty =>
    rw [not_not] at hempty
    simp [hempty]

end Cohub.Compaction
