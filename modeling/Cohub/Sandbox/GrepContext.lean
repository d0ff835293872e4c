import Mathlib.Data.List.DropRight
import Cohub.Lib.Utf8
import Cohub.Lib.Window

/-! # The lines of a file that a search prints

    `searchFile` and `readLine` of `apps/sandbox/rpc/native_search.go`.  A file is
    its bytes; the pattern is any predicate on texts, with the places where it
    matches one.  A printed line is a text, or an event that is encoded as JSON.

    The printed lines are those within the context of the first matches.
    Separators stand between them only where there is a context, and not among
    events. -/

namespace Cohub.Sandbox

open List

open Utf8 (Byte)

/-! ## Lines of a file -/

def grepMaxLineBytes : Nat := 1048576

def newline : Byte := 10

def carriageReturn : Byte := 13

/-- The lines of a file, with their line breaks. -/
def fullLines : List Byte → List (List Byte)
  | [] => []
  | b :: rest =>
      if b = newline then [b] :: fullLines rest
      else
        match fullLines rest with
        | [] => [[b]]
        | line :: lines => (b :: line) :: lines

/-- `strings.ToValidUTF8(s, "\\uFFFD")`: a run of bytes that are no text becomes
    one replacement character.  `owed` bytes of the current character are still
    to come. -/
def toValidFrom : Bool → Nat → List Byte → List Byte
  | _, _, [] => []
  | _, owed + 1, b :: rest => b :: toValidFrom false owed rest
  | run, 0, b :: rest =>
      match Utf8.following b rest with
      | some owed => b :: toValidFrom false owed rest
      | none => (if run then [] else Utf8.replacement) ++ toValidFrom true 0 rest

def toValidUTF8 (s : List Byte) : List Byte := toValidFrom false 0 s

/-- `grepLine`. -/
structure GrepLine where
  number : Nat
  offset : Nat
  text   : List Byte
  deriving DecidableEq

/-- The lines that are read, one after the other.  Of a long line only the
    beginning is kept; a line that is not text ends the file. -/
def grepLines : Nat → Nat → List (List Byte) → List GrepLine
  | _, _, [] => []
  | number, offset, full :: rest =>
      let raw := full.take grepMaxLineBytes
      if (0 : Byte) ∈ raw then []
      else { number := number, offset := offset, text := toValidUTF8 raw } ::
        grepLines (number + 1) (offset + full.length) rest

def fileLines (file : List Byte) : List GrepLine := grepLines 1 0 (fullLines file)

/-! ## Printing -/

/-- The parameters that are used, and the compiled pattern. -/
structure GrepRun where
  context : Int
  maxCount : Int
  json : Bool
  limit : Nat
  withFilename : Bool
  display : List Byte
  matchString : List Byte → Bool
  findAll : List Byte → List (Nat × Nat)

inductive LineKind where
  | matched | context
  deriving DecidableEq

/-- `rgSubmatch`. -/
structure Submatch where
  text  : List Byte
  start : Nat
  stop  : Nat
  deriving DecidableEq

/-- What is printed: a text, or an event. -/
inductive Output where
  | text (line : List Byte)
  | started (path : List Byte)
  | event (kind : LineKind) (path lines : List Byte) (lineNumber absoluteOffset : Nat)
      (submatches : List Submatch)
  | ended (path : List Byte)
  deriving DecidableEq

/-- `strings.TrimRight`. -/
def trimRight (s cutset : List Byte) : List Byte := s.rdropWhile fun b => decide (b ∈ cutset)

/-- A number as text. -/
def decimalBytes (n : Nat) : List Byte :=
  (Nat.toDigits 10 n).map fun c => Fin.ofNat 256 c.toNat

/-- What the search keeps between two lines that it prints. -/
structure Printer where
  begun       : Bool
  lastPrinted : Nat
  lines       : List Output

section Printing

variable (g : GrepRun)

/-- `context`. -/
def GrepRun.width : Nat := g.context.toNat

/-- `emit`: no more lines are printed after the first one over the limit. -/
def emit (line : Output) (lines : List Output) : Except (List Output) (List Output) :=
  if g.limit < (lines ++ [line]).length then .error (lines ++ [line]) else .ok (lines ++ [line])

/-- The line a text search prints, or the event. -/
def lineOutput (kind : LineKind) (line : GrepLine) : Output :=
  let text := trimRight line.text [newline]
  if g.json then
    let submatches :=
      if kind = .matched then
        (g.findAll text).map fun loc =>
          { text := (text.take loc.2).drop loc.1, start := loc.1, stop := loc.2 }
      else []
    .event kind g.display line.text line.number line.offset submatches
  else
    let separator : List Byte := if kind = .matched then [58] else [45]
    let start := if g.withFilename then g.display ++ separator else []
    .text (start ++ decimalBytes line.number ++ separator ++ trimRight text [carriageReturn])

def separatorLine : Output := .text [45, 45]

def printLine (p : Printer) (e : LineKind × GrepLine) : Except (List Output) Printer := do
  let lines ←
    if p.begun = false then
      if g.json then emit g (.started g.display) p.lines else pure p.lines
    else if g.json = false ∧ 0 < g.width ∧ p.lastPrinted + 1 < e.2.number then
      emit g separatorLine p.lines
    else pure p.lines
  let lines ← emit g (lineOutput g e.1 e.2) lines
  return { begun := true, lastPrinted := e.2.number, lines := lines }

/-! ## The search -/

def matchesLine (line : GrepLine) : Bool :=
  g.matchString (trimRight line.text [carriageReturn, newline])

/-- `matches` has come to the limit on matches. -/
def limitReached (found : Nat) : Bool := decide (0 < g.maxCount ∧ g.maxCount ≤ found)

/-- The loop over the lines; `found` is the count of the matches. -/
def searchLines : List GrepLine → Nat → Nat → List GrepLine → Printer →
    Except (List Output) Printer
  | _, _, _, [], p => .ok p
  | before, found, after, line :: rest, p =>
      if limitReached g found = false ∧ matchesLine g line then do
        let p ← before.foldlM (fun p previous => printLine g p (.context, previous)) p
        let p ← printLine g p (.matched, line)
        searchLines [] (found + 1) g.width rest p
      else if 0 < after then do
        let p ← printLine g p (if matchesLine g line then .matched else .context, line)
        searchLines before found (after - 1) rest p
      else if limitReached g found then .ok p
      else if 0 < g.width then
        searchLines ((if before.length = g.width then before.drop 1 else before) ++ [line])
          found after rest p
      else searchLines before found after rest p

def grepBinaryProbeBytes : Nat := 65536

/-- `searchFile` of a file that can be opened, with what was printed before. -/
def searchFile (file : List Byte) (lines : List Output) : Except (List Output) (List Output) :=
  if (0 : Byte) ∈ file.take grepBinaryProbeBytes then .ok lines
  else do
    let p ← searchLines g [] 0 0 (fileLines file)
      { begun := false, lastPrinted := 0, lines := lines }
    if p.begun = true ∧ g.json = true then emit g (.ended g.display) p.lines else return p.lines

/-! ## What should be printed -/

/-- The matching lines that count: the first ones, or all if there is no limit. -/
def firstMatches (lines : List GrepLine) : List GrepLine :=
  if 0 < g.maxCount then (lines.filter (matchesLine g)).take g.maxCount.toNat
  else lines.filter (matchesLine g)

def contextLines (lines : List GrepLine) : List GrepLine :=
  lines.filter fun line => (firstMatches g lines).any fun found =>
    decide (line.number ≤ found.number + g.width) && decide (found.number ≤ line.number + g.width)

/-- How a line is printed. -/
def kindOf (line : GrepLine) : LineKind := if matchesLine g line then .matched else .context

/-- What stands before a printed line: the first one begins the file, and a
    separator follows lines that are left out. -/
def leading (begun : Bool) (lastPrinted : Nat) (line : GrepLine) : List Output :=
  if begun = false then (if g.json then [.started g.display] else [])
  else if g.json = false ∧ 0 < g.width ∧ lastPrinted + 1 < line.number then [separatorLine]
  else []

/-- Lines as they are printed, with what stands between them. -/
def layoutFrom : Bool → Nat → List (LineKind × GrepLine) → List Output
  | _, _, [] => []
  | begun, lastPrinted, e :: rest =>
      leading g begun lastPrinted e.2 ++ lineOutput g e.1 e.2 :: layoutFrom true e.2.number rest

/-- What a search of some lines prints. -/
def printed (lines : List GrepLine) : List Output :=
  let selected := (contextLines g lines).map fun line => (kindOf g line, line)
  layoutFrom g false 0 selected ++
    (if selected ≠ [] ∧ g.json then [.ended g.display] else [])

/-! ## Printing lines one after the other -/

/-- Print some outputs. -/
def emitAll (outputs lines : List Output) : Except (List Output) (List Output) :=
  outputs.foldlM (fun lines output => emit g output lines) lines

theorem emitAll_append (before after lines : List Output) :
    emitAll g (before ++ after) lines = emitAll g before lines >>= emitAll g after :=
  foldlM_append

theorem emitAll_eq (outputs : List Output) {lines : List Output} (h : lines.length ≤ g.limit) :
    emitAll g outputs lines =
      if (lines ++ outputs).length ≤ g.limit then .ok (lines ++ outputs)
      else .error ((lines ++ outputs).take (g.limit + 1)) := by
  induction outputs generalizing lines with
  | nil => rw [append_nil, if_pos h]; rfl
  | cons output outputs ih =>
    have hassoc : lines ++ output :: outputs = (lines ++ [output]) ++ outputs := by simp
    show (emit g output lines >>= emitAll g outputs) = _
    unfold emit
    split
    · next hfull =>
      -- the limit is reached by this output
      rw [length_append, length_singleton] at hfull
      have hlength : (lines ++ [output]).length = g.limit + 1 := by
        rw [length_append, length_singleton]
        omega
      have hlong : ¬ ((lines ++ [output]) ++ outputs).length ≤ g.limit := by
        rw [length_append, hlength]
        omega
      rw [hassoc, if_neg hlong, take_append_of_le_length (le_of_eq hlength.symm),
        take_of_length_le (le_of_eq hlength)]
      rfl
    · next hroom =>
      rw [hassoc]
      exact ih (Nat.le_of_not_lt hroom)

theorem printLine_eq (p : Printer) (e : LineKind × GrepLine) :
    printLine g p e = do
      let lines ← emitAll g (leading g p.begun p.lastPrinted e.2 ++ [lineOutput g e.1 e.2]) p.lines
      return { begun := true, lastPrinted := e.2.number, lines := lines } := by
  have hnil : ∀ lines, emitAll g [] lines = pure lines := fun _ => rfl
  have hone : ∀ output lines, emitAll g [output] lines = emit g output lines := fun output lines =>
    bind_pure (emit g output lines)
  rw [emitAll_append]
  unfold printLine leading
  split <;> split <;> simp only [hnil, hone, bind_assoc, pure_bind]

def lastNumber (lastPrinted : Nat) (es : List (LineKind × GrepLine)) : Nat :=
  es.foldl (fun _ e => e.2.number) lastPrinted

theorem printLines_eq (es : List (LineKind × GrepLine)) (p : Printer) :
    es.foldlM (printLine g) p = do
      let lines ← emitAll g (layoutFrom g p.begun p.lastPrinted es) p.lines
      return { begun := p.begun || !es.isEmpty, lastPrinted := lastNumber p.lastPrinted es,
               lines := lines } := by
  induction es generalizing p with
  | nil => simp [emitAll, layoutFrom, lastNumber]
  | cons e es ih =>
    have hsplit : layoutFrom g p.begun p.lastPrinted (e :: es) =
        (leading g p.begun p.lastPrinted e.2 ++ [lineOutput g e.1 e.2]) ++
          layoutFrom g true e.2.number es := by simp [layoutFrom]
    rw [foldlM_cons, printLine_eq, hsplit]
    simp only [emitAll_append, bind_assoc, pure_bind, ih, Bool.true_or, isEmpty_cons,
      Bool.not_false, Bool.or_true]
    rfl

/-! ## The lines that are printed -/

/-- The lines, with those that count as matches when some were found before. -/
def flagged : Nat → List GrepLine → List (GrepLine × Bool)
  | _, [] => []
  | found, line :: rest =>
      let hit := !limitReached g found && matchesLine g line
      (line, hit) :: flagged (if hit then found + 1 else found) rest

variable (lines : List GrepLine)

theorem map_fst_flagged :
    ∀ found, (flagged g found lines).map Prod.fst = lines := by
  induction lines with
  | nil => exact fun _ => rfl
  | cons line lines ih => exact fun found => congrArg (line :: ·) (ih _)

theorem flagged_of_limit {found : Nat} (h : limitReached g found = true) :
    ∀ lines, ∀ e ∈ flagged g found lines, e.2 = false
  | [], e, hmem => absurd hmem not_mem_nil
  | line :: lines, e, hmem => by
    rw [flagged, h] at hmem
    rcases mem_cons.mp hmem with rfl | hmem
    · rfl
    · exact flagged_of_limit h lines e hmem

theorem searchLines_eq (rest : List GrepLine) : ∀ {before : List GrepLine} {found after : Nat}
    {p : Printer}, (∀ line ∈ before, matchesLine g line = false) →
      searchLines g before found after rest p =
        ((Window.select g.width before after (flagged g found rest)).map fun line =>
          (kindOf g line, line)).foldlM (printLine g) p := by
  induction rest with
  | nil => exact fun _ => rfl
  | cons line rest ih =>
    intro before found after p hbefore
    unfold searchLines
    by_cases hhit : limitReached g found = false ∧ matchesLine g line
    · have hflag : (!limitReached g found && matchesLine g line) = true := by simp [hhit.1, hhit.2]
      have hkinds : (before.map fun line => (kindOf g line, line)) =
          before.map fun line => (LineKind.context, line) :=
        map_congr_left fun line hmem => by rw [kindOf, hbefore line hmem]; rfl
      rw [if_pos hhit, flagged, hflag, if_pos rfl, Window.select, map_append, map_cons,
        foldlM_append, hkinds, foldlM_map]
      have hnone : ∀ line ∈ ([] : List GrepLine), matchesLine g line = false :=
        fun _ hmem => absurd hmem not_mem_nil
      have hkind : kindOf g line = .matched := by rw [kindOf, hhit.2]; rfl
      simp only [ih hnone, foldlM_cons, hkind]
    · have hflag : (!limitReached g found && matchesLine g line) = false := by
        cases hlimit : limitReached g found <;> simp_all
      rw [if_neg hhit, flagged, hflag, if_neg Bool.false_ne_true]
      cases after with
      | succ after =>
        rw [if_pos (Nat.succ_pos after), Window.select, map_cons, foldlM_cons,
          Nat.add_sub_cancel]
        simp only [ih hbefore]
        rfl
      | zero =>
        rw [if_neg (lt_irrefl 0), Window.select]
        by_cases hlimit : limitReached g found = true
        · rw [if_pos hlimit, Window.select_of_no_hits (flagged_of_limit g hlimit rest)]
          rfl
        · have hcontext : matchesLine g line = false := by
            rw [Bool.not_eq_true] at hlimit
            exact Bool.eq_false_iff.mpr fun hmatch => hhit ⟨hlimit, hmatch⟩
          rw [if_neg hlimit]
          unfold Window.keep
          by_cases hwidth : g.width = 0
          · rw [if_neg (by omega), if_pos hwidth]
            exact ih hbefore
          · have hkept : ∀ other ∈ (if before.length = g.width then before.drop 1 else before) ++
                [line], matchesLine g other = false := by
              intro other hmem
              rcases mem_append.mp hmem with hmem | hmem
              · split at hmem
                · exact hbefore other (mem_of_mem_drop hmem)
                · exact hbefore other hmem
              · rw [mem_singleton.mp hmem]
                exact hcontext
            rw [if_pos (Nat.pos_of_ne_zero hwidth), if_neg hwidth, ih hkept]
            split <;> rfl

theorem hits_flagged : ∀ found : Nat,
    ((flagged g found lines).filter Prod.snd).map Prod.fst =
      if 0 < g.maxCount then (lines.filter (matchesLine g)).take (g.maxCount.toNat - found)
      else lines.filter (matchesLine g) := by
  induction lines with
  | nil => intro found; simp [flagged]
  | cons line lines ih =>
    intro found
    rw [flagged]
    cases hlimit : limitReached g found with
    | true =>
      obtain ⟨hpos, hle⟩ := of_decide_eq_true hlimit
      have hnone := flagged_of_limit g hlimit lines
      have hempty : (flagged g found lines).filter Prod.snd = [] := by
        rw [filter_eq_nil_iff]
        exact fun e hmem => by simp [hnone e hmem]
      have hzero : g.maxCount.toNat - found = 0 := by omega
      simp [hempty, hpos, hzero]
    | false =>
      have hmore := of_decide_eq_false hlimit
      cases hmatch : matchesLine g line with
      | true =>
        rw [filter_cons_of_pos hmatch]
        simp only [Bool.not_false, Bool.and_self, if_true, filter_cons_of_pos, map_cons, ih]
        split
        · have hnext : g.maxCount.toNat - found = g.maxCount.toNat - (found + 1) + 1 := by omega
          rw [hnext, take_succ_cons]
        · rfl
      | false =>
        have hskip : (line :: lines).filter (matchesLine g) = lines.filter (matchesLine g) :=
          filter_cons_of_neg (by simp [hmatch])
        simp only [Bool.not_false, Bool.and_false, Bool.false_eq_true, if_false, not_false_eq_true,
          filter_cons_of_neg, ih, hskip]

theorem near_flagged (line : GrepLine) :
    Window.near GrepLine.number g.width (flagged g 0 lines) line =
      (firstMatches g lines).any fun found =>
        decide (line.number ≤ found.number + g.width) &&
          decide (found.number ≤ line.number + g.width) := by
  have hhits := hits_flagged g lines 0
  rw [Nat.sub_zero] at hhits
  rw [firstMatches, ← hhits, any_map, any_filter, Window.near]
  congr 1
  funext e
  rw [Bool.and_assoc]
  rfl

/-! ## The lines of a file -/

theorem consecutive_grepLines : ∀ (lines : List (List Byte)) (number offset : Nat),
    Window.Consecutive GrepLine.number number (grepLines number offset lines)
  | [], _, _ => trivial
  | full :: lines, number, offset => by
    unfold grepLines
    dsimp only
    split
    · trivial
    · exact ⟨rfl, consecutive_grepLines lines _ _⟩

variable (file : List Byte)

theorem consecutive_fileLines :
    Window.Consecutive GrepLine.number 1 (fileLines file) := consecutive_grepLines _ _ _

theorem searchLines_contextLines {lines : List GrepLine}
    (h : Window.Consecutive GrepLine.number 1 lines) (p : Printer) :
    searchLines g [] 0 0 lines p =
      ((contextLines g lines).map fun line => (kindOf g line, line)).foldlM (printLine g) p := by
  have hnumbers : Window.Consecutive GrepLine.number 1 ((flagged g 0 lines).map Prod.fst) := by
    rw [map_fst_flagged]
    exact h
  rw [searchLines_eq g lines fun _ hmem => absurd hmem not_mem_nil,
    Window.select_eq_filter hnumbers, map_fst_flagged, contextLines]
  congr 2
  exact filter_congr fun line _ => near_flagged g lines line

theorem searchFile_eq {file : List Byte} (htext : (0 : Byte) ∉ file) (lines : List Output) :
    searchFile g file lines =
      emitAll g (printed g (fileLines file)) lines := by
  have hprobe : (0 : Byte) ∉ file.take grepBinaryProbeBytes := fun hmem =>
    htext (mem_of_mem_take hmem)
  unfold searchFile printed
  rw [if_neg hprobe, searchLines_contextLines g (consecutive_fileLines file), printLines_eq,
    emitAll_append]
  simp only [bind_assoc, pure_bind]
  congr 1
  funext lines
  cases hselected : (contextLines g (fileLines file)).map
      (fun line => (kindOf g line, line)) with
  | nil => simp [emitAll]
  | cons e es =>
    cases g.json with
    | false => simp [emitAll]
    | true => simp [emitAll]

/-! ### What the lines are -/

theorem flatten_fullLines : (fullLines file).flatten = file := by
  induction file with
  | nil => rfl
  | cons b rest ih =>
    unfold fullLines
    split
    · rw [flatten_cons, ih]
      rfl
    · cases hrest : fullLines rest with
      | nil =>
        rw [hrest] at ih
        rw [← ih]
        rfl
      | cons line lines =>
        rw [hrest] at ih
        rw [← ih]
        rfl

/-- A line: there is a line break at its end only; the last line may have none. -/
def IsLine (last : Bool) (line : List Byte) : Prop :=
  ∃ body, newline ∉ body ∧ (line = body ++ [newline] ∨ last = true ∧ line = body ∧ body ≠ [])

/-- The lines of a file, the last one with or without a line break. -/
def AreLines : List (List Byte) → Prop
  | [] => True
  | line :: lines => IsLine lines.isEmpty line ∧ AreLines lines

theorem areLines_fullLines : AreLines (fullLines file) := by
  induction file with
  | nil => trivial
  | cons b rest ih =>
    unfold fullLines
    split
    · next hb => exact ⟨⟨[], not_mem_nil, .inl (by rw [hb]; rfl)⟩, ih⟩
    · next hb =>
      have hnot : newline ≠ b := fun h => hb h.symm
      cases hrest : fullLines rest with
      | nil =>
        refine ⟨⟨[b], ?_, .inr ⟨rfl, rfl, cons_ne_nil _ _⟩⟩, trivial⟩
        exact fun hmem => hnot (mem_singleton.mp hmem)
      | cons line lines =>
        rw [hrest] at ih
        obtain ⟨⟨body, hbody, hline⟩, hlines⟩ := ih
        have hmore : newline ∉ b :: body := fun hmem =>
          (mem_cons.mp hmem).elim hnot hbody
        refine ⟨⟨b :: body, hmore, ?_⟩, hlines⟩
        rcases hline with rfl | ⟨hlast, rfl, -⟩
        · exact .inl rfl
        · exact .inr ⟨hlast, rfl, cons_ne_nil _ _⟩

/-- The line that is read from a place of the file. -/
def readAs (lines : List (List Byte)) (number offset index : Nat) (full : List Byte) : GrepLine :=
  { number := number + index
    offset := offset + (lines.take index).flatten.length
    text := toValidUTF8 (full.take grepMaxLineBytes) }

theorem getElem?_grepLines : ∀ (lines : List (List Byte)) (number offset index : Nat),
    (∀ full ∈ lines, (0 : Byte) ∉ full) →
    (grepLines number offset lines)[index]? =
      (lines[index]?).map (readAs lines number offset index)
  | [], _, _, _, _ => by simp [grepLines]
  | full :: lines, number, offset, index, h => by
    have hfull : (0 : Byte) ∉ full.take grepMaxLineBytes := fun hmem =>
      h full mem_cons_self (mem_of_mem_take hmem)
    rw [grepLines, if_neg hfull]
    cases index with
    | zero => rfl
    | succ index =>
      have hrest := getElem?_grepLines lines (number + 1) (offset + full.length) index
        fun other hmem => h other (mem_cons_of_mem _ hmem)
      rw [getElem?_cons_succ, getElem?_cons_succ, hrest]
      congr 1
      funext other
      simp only [readAs, take_succ_cons, flatten_cons, length_append]
      congr 1 <;> omega

/-- A search of a file that is text prints exactly the lines within the context of
    the first matches, each once and in their order, with separators between lines
    that are not adjacent where there is a context, up to the limit on what is
    printed; a line has its own number and offset. -/
theorem grep_context_is_exact {file : List Byte} (htext : (0 : Byte) ∉ file)
    {lines : List Output} (hroom : lines.length ≤ g.limit) :
    searchFile g file lines =
        (if (lines ++ printed g (fileLines file)).length ≤ g.limit then
          .ok (lines ++ printed g (fileLines file))
        else .error ((lines ++ printed g (fileLines file)).take (g.limit + 1))) ∧
      (contextLines g (fileLines file)).Pairwise (fun a b => a.number < b.number) ∧
      (∀ index, (fileLines file)[index]? =
        ((fullLines file)[index]?).map (readAs (fullLines file) 1 0 index)) ∧
      (fullLines file).flatten = file ∧ AreLines (fullLines file) := by
  refine ⟨?_, ?_, ?_, flatten_fullLines file, areLines_fullLines file⟩
  · rw [searchFile_eq g htext, emitAll_eq g _ hroom]
  · exact (consecutive_fileLines file).pairwise.filter _
  · intro index
    refine getElem?_grepLines _ 1 0 index fun full hmem hzero => htext ?_
    rw [← flatten_fullLines file]
    exact List.mem_flatten_of_mem hmem hzero

end Printing

/-- A search for the letter a, without context. -/
def plainGrep : GrepRun where
  context := 0
  maxCount := 0
  json := false
  limit := 100
  withFilename := false
  display := []
  matchString := fun text => decide ((97 : Byte) ∈ text)
  findAll := fun _ => []

theorem grep_context_is_exact_plain :
    (contextLines plainGrep (fileLines [97, 10, 98, 10, 97, 10])).Pairwise
      (fun a b => a.number < b.number) :=
  (grep_context_is_exact plainGrep (by decide) (show ([] : List Output).length ≤ 100 by decide)).2.1

/-- Without a context no separator stands between the printed lines. -/
theorem no_separator_without_context :
    ¬ ∀ (g : GrepRun) (file : List Byte) (out : List Output), (0 : Byte) ∉ file →
      g.json = false → searchFile g file [] = .ok out →
      ∀ a b, [a, b] <:+: contextLines g (fileLines file) → a.number + 1 < b.number →
        separatorLine ∈ out := by
  intro hclaim
  have hout : searchFile plainGrep [97, 10, 98, 10, 97, 10] [] =
      .ok [.text [49, 58, 97], .text [51, 58, 97]] := by rfl
  have hlines : [⟨1, 0, [97, 10]⟩, ⟨3, 4, [97, 10]⟩] <:+:
      contextLines plainGrep (fileLines [97, 10, 98, 10, 97, 10]) := List.infix_refl _
  have hseparator := hclaim plainGrep _ _ (by decide) rfl hout _ _ hlines (by decide)
  exact absurd hseparator (by decide)

end Cohub.Sandbox
