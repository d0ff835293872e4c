import Cohub.Lib.Checked
import Cohub.Lib.Substring

/-! # Editing a file

    `apps/sandbox/rpc/edit.go`: `applyFSEdits` finds the text that each edit is
    about in the content of a file, exactly or up to line endings and blanks at
    the ends of lines, and replaces it.

    Texts are byte strings.  Every index and every slice is checked, so that a
    run of the code that panics is a computation that ends with
    `Fault.outOfRange`. -/

namespace Cohub.Edit

open Checked Substring

/-! ## Edits and errors -/

abbrev Bytes := List UInt8

/-- `'\n'`. -/
def LF : UInt8 := 10

/-- `'\r'`. -/
def CR : UInt8 := 13

/-- A space or a tab. -/
def isBlank (b : UInt8) : Bool := b == 32 || b == 9

/-- `"\uFEFF"`. -/
def byteOrderMark : Bytes := [0xEF, 0xBB, 0xBF]

/-- `fsEditItem`. -/
structure FsEditItem where
  oldText : Bytes
  newText : Bytes

/-- `editReplacement`. -/
structure EditReplacement where
  index   : Nat
  start   : Nat
  stop    : Nat
  newText : Bytes

/-- `editMatch`. -/
structure EditMatch where
  start : Nat
  stop  : Nat
  fuzzy : Bool
  deriving DecidableEq

/-- `editInputError`, `editMatchError` and `editOverlapError`. -/
inductive EditError where
  | input (index : Int) (message : String)
  | matched (index : Nat) (count : Nat) (lines : List Nat) (truncated : Bool)
  | overlap (first second : Nat)
  deriving DecidableEq

def maxEditMatches : Nat := 9

/-- `editOccurrenceSearch`. -/
structure EditOccurrenceSearch where
  positions : List Nat
  truncated : Bool

/-- `editMatchSearch`. -/
structure EditMatchSearch where
  found     : List EditMatch
  truncated : Bool
  deriving DecidableEq

/-! ## Lines -/

/-- The loop over `lineEnd`: on to the next line break or the end. -/
def lineEndFrom (text : Bytes) (lineStart : Nat) : Checked Nat :=
  loop (fun lineEnd =>
    if lineEnd < text.length then do
      let b ← index text lineEnd
      if b ≠ LF ∧ b ≠ CR then .ok (.inl (lineEnd + 1)) else .ok (.inr lineEnd)
    else .ok (.inr lineEnd)) (text.length + 1) lineStart

/-- The loop over `contentEnd`: back over the blanks at the end of a line. -/
def contentEndFrom (text : Bytes) (lineStart lineEnd : Nat) : Checked Nat :=
  loop (fun contentEnd =>
    if lineStart < contentEnd then do
      let b ← index text (contentEnd - 1)
      if isBlank b then .ok (.inl (contentEnd - 1)) else .ok (.inr contentEnd)
    else .ok (.inr contentEnd)) (text.length + 1) lineEnd

/-- `newlineEnd` in `normalizeEditText`. -/
def newlineEndOf (text : Bytes) (lineEnd : Nat) : Checked Nat := do
  let b ← index text lineEnd
  if b = CR ∧ lineEnd + 1 < text.length then
    let next ← index text (lineEnd + 1)
    .ok (if next = LF then lineEnd + 2 else lineEnd + 1)
  else .ok (lineEnd + 1)

/-- `newlineEnd` in `originalOffsetForNormalizedBoundary`: the byte after a
    carriage return is read without asking whether there is one. -/
def uncheckedNewlineEndOf (text : Bytes) (lineEnd : Nat) : Checked Nat := do
  let b ← index text lineEnd
  if b = CR then
    let next ← index text (lineEnd + 1)
    .ok (if next = LF then lineEnd + 2 else lineEnd + 1)
  else .ok (lineEnd + 1)

/-- A round of the loop of `normalizeEditText`. -/
def normalizeLine (text : Bytes) (s : Nat × Bytes) : Checked ((Nat × Bytes) ⊕ Bytes) :=
  if s.1 < text.length then do
    let lineEnd ← lineEndFrom text s.1
    let contentEnd ← contentEndFrom text s.1 lineEnd
    let line ← slice text s.1 contentEnd
    if lineEnd = text.length then .ok (.inr (s.2 ++ line))
    else do
      let newlineEnd ← newlineEndOf text lineEnd
      .ok (.inl (newlineEnd, s.2 ++ line ++ [LF]))
  else .ok (.inr s.2)

def normalizeEditText (text : Bytes) : Checked Bytes :=
  loop (normalizeLine text) (text.length + 1) (0, [])

/-- A round of the loop of `originalOffsetForNormalizedBoundary`; the state is
    `lineStart` and `normalizedOffset`. -/
def boundaryInLine (text : Bytes) (target : Nat) (s : Nat × Nat) :
    Checked ((Nat × Nat) ⊕ (Nat × Bool)) :=
  if s.1 < text.length then do
    let lineEnd ← lineEndFrom text s.1
    let contentEnd ← contentEndFrom text s.1 lineEnd
    let contentLength := contentEnd - s.1
    if target ≤ s.2 + contentLength then .ok (.inr (s.1 + target - s.2, true))
    else if lineEnd = text.length then .ok (.inr (contentEnd, target = s.2 + contentLength))
    else do
      let newlineEnd ← uncheckedNewlineEndOf text lineEnd
      if target ≤ s.2 + contentLength + 1 then .ok (.inr (newlineEnd, true))
      else .ok (.inl (newlineEnd, s.2 + contentLength + 1))
  else .ok (.inr (text.length, target = s.2))

/-- `originalOffsetForNormalizedBoundary`; a target is a position, so it is not
    negative. -/
def originalOffsetForNormalizedBoundary (text : Bytes) (target : Nat) : Checked (Nat × Bool) :=
  if text.length = 0 then .ok (0, target = 0)
  else loop (boundaryInLine text target) (text.length + 1) (0, 0)

def editLineNumber (content : Bytes) (offset : Nat) : Checked Nat :=
  let offset := min offset content.length
  loop (fun s : Nat × Nat =>
    if s.1 < offset then do
      let b ← index content s.1
      if b = CR then
        if s.1 + 1 < offset then do
          let next ← index content (s.1 + 1)
          .ok (.inl (if next = LF then s.1 + 2 else s.1 + 1, s.2 + 1))
        else .ok (.inl (s.1 + 1, s.2 + 1))
      else if b = LF then .ok (.inl (s.1 + 1, s.2 + 1))
      else .ok (.inl (s.1 + 1, s.2))
    else .ok (.inr s.2)) (content.length + 1) (0, 1)

def editLineEnding (content : Bytes) : Checked Bytes :=
  loop (fun i =>
    if i < content.length then do
      let b ← index content i
      if b = CR then
        if i + 1 < content.length then do
          let next ← index content (i + 1)
          .ok (.inr (if next = LF then [CR, LF] else [CR]))
        else .ok (.inr [CR])
      else if b = LF then .ok (.inr [LF])
      else .ok (.inl (i + 1))
    else .ok (.inr [LF])) (content.length + 1) 0

/-- `strings.ReplaceAll` for a text that is not empty; `skip` bytes belong to a
    text just replaced. -/
def replaceAllFrom (old new : Bytes) : Nat → Bytes → Bytes
  | _, [] => []
  | 0, b :: rest =>
      if old <+: b :: rest then new ++ replaceAllFrom old new (old.length - 1) rest
      else b :: replaceAllFrom old new 0 rest
  | skip + 1, _ :: rest => replaceAllFrom old new skip rest

def replaceAll (old new text : Bytes) : Bytes := replaceAllFrom old new 0 text

def restoreEditLineEndings (text content : Bytes) : Checked Bytes := do
  let normalized := replaceAll [CR] [LF] (replaceAll [CR, LF] [LF] text)
  let ending ← editLineEnding content
  if ending = [LF] then .ok normalized
  else .ok (replaceAll [LF] ending normalized)

/-! ## Matches -/

/-- A round of the loop of `findEditOccurrences`; `strings.Index` is `find?`. -/
def nextOccurrence (text pattern : Bytes) (s : Nat × List Nat) :
    Checked ((Nat × List Nat) ⊕ EditOccurrenceSearch) :=
  if s.1 + pattern.length ≤ text.length then do
    let rest ← slice text s.1 text.length
    match find? pattern rest with
    | none => .ok (.inr { positions := s.2, truncated := false })
    | some relative =>
        let occurrences := s.2 ++ [s.1 + relative]
        if maxEditMatches ≤ occurrences.length then
          .ok (.inr { positions := occurrences, truncated := true })
        else .ok (.inl (s.1 + relative + pattern.length, occurrences))
  else .ok (.inr { positions := s.2, truncated := false })

def findEditOccurrences (text pattern : Bytes) : Checked EditOccurrenceSearch :=
  if pattern = [] then .ok { positions := [], truncated := false }
  else loop (nextOccurrence text pattern) (text.length + 1) (0, [])

/-- The matches at some places of the normalized content. -/
def fuzzyMatches (content : Bytes) (length : Nat) : List Nat → Checked (List EditMatch)
  | [] => .ok []
  | start :: rest => do
      let originalStart ← originalOffsetForNormalizedBoundary content start
      let originalEnd ← originalOffsetForNormalizedBoundary content (start + length)
      let later ← fuzzyMatches content length rest
      if originalStart.2 ∧ originalEnd.2 then
        .ok ({ start := originalStart.1, stop := originalEnd.1, fuzzy := true } :: later)
      else .ok later

def findEditMatches (content oldText : Bytes) : Checked EditMatchSearch := do
  let exact ← findEditOccurrences content oldText
  if 0 < exact.positions.length then
    .ok { found := exact.positions.map fun start =>
            { start := start, stop := start + oldText.length, fuzzy := false }
          truncated := exact.truncated }
  else
    let normalizedContent ← normalizeEditText content
    let normalizedOldText ← normalizeEditText oldText
    if normalizedOldText = [] then .ok { found := [], truncated := false }
    else
      let occurrences ← findEditOccurrences normalizedContent normalizedOldText
      let found ← fuzzyMatches content normalizedOldText.length occurrences.positions
      .ok { found := found, truncated := occurrences.truncated }

/-! ## Edits -/

/-- The text without a byte order mark, `strings.TrimPrefix`. -/
def withoutBom (text : Bytes) : Bytes :=
  if byteOrderMark <+: text then text.drop byteOrderMark.length else text

/-- The lines of matches, as an error reports them. -/
def matchLines (content : Bytes) : List EditMatch → Checked (List Nat)
  | [] => .ok []
  | m :: rest => do
      let line ← editLineNumber content m.start
      let later ← matchLines content rest
      .ok (line :: later)

/-- `newText` of a match: one that is not exact gets the line endings of the
    content. -/
def replacementText (content newText : Bytes) (m : EditMatch) : Checked Bytes :=
  if m.fuzzy then restoreEditLineEndings newText content else .ok newText

/-- The loop of `applyFSEdits` over the edits. -/
def collectReplacements (content : Bytes) :
    Nat → List FsEditItem → Checked (Except EditError (List EditReplacement))
  | _, [] => .ok (.ok [])
  | index, edit :: rest =>
      let oldText := withoutBom edit.oldText
      if oldText = [] then .ok (.error (.input index "oldText must not be empty"))
      else if oldText = edit.newText then
        .ok (.error (.input index "oldText and newText must differ"))
      else do
        let search ← findEditMatches content oldText
        match search.found with
        | [m] => do
            let newText ← replacementText content edit.newText m
            let later ← collectReplacements content (index + 1) rest
            .ok (later.map fun replacements =>
              { index := index, start := m.start, stop := m.stop, newText := newText } ::
                replacements)
        | found => do
            let lines ← matchLines content found
            .ok (.error (.matched index found.length lines search.truncated))

/-- The first two replacements that overlap, of those sorted by their start. -/
def firstOverlap : List EditReplacement → Option (Nat × Nat)
  | previous :: current :: rest =>
      if current.start < previous.stop then some (previous.index, current.index)
      else firstOverlap (current :: rest)
  | _ => none

/-- The loop that replaces from the last to the first. -/
def replaceBackward (content : Bytes) : List EditReplacement → Checked Bytes
  | [] => .ok content
  | r :: rest => do
      let updated ← replaceBackward content rest
      let before ← slice updated 0 r.start
      let after ← slice updated r.stop updated.length
      .ok (before ++ r.newText ++ after)

/-- `sort.SliceStable` by the start. -/
def sortByStart (replacements : List EditReplacement) : List EditReplacement :=
  replacements.insertionSort fun a b => a.start ≤ b.start

def applyFSEdits (content : Bytes) (edits : List FsEditItem) : Checked (Except EditError Bytes) :=
  if edits.length = 0 then
    .ok (.error (.input (-1) "edits must contain at least one replacement"))
  else do
    let bom := if byteOrderMark <+: content then byteOrderMark else []
    let matchingContent := withoutBom content
    let collected ← collectReplacements matchingContent 0 edits
    match collected with
    | .error e => .ok (.error e)
    | .ok replacements =>
        let sorted := sortByStart replacements
        match firstOverlap sorted with
        | some (first, second) => .ok (.error (.overlap first second))
        | none => do
            let updated ← replaceBackward matchingContent sorted
            .ok (.ok (bom ++ updated))

end Cohub.Edit
