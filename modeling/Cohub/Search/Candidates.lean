import Cohub.Search.IndexStore
import Mathlib.Data.List.Forall2
import Mathlib.Data.List.Dedup
import Mathlib.Data.List.DropRight
import Mathlib.Data.List.Infix

/-! # The candidates of a query

    The index has, of every file, the runs of three characters of its text in lower
    case.  A query puts its literals into lower case, and returns the files that have
    all their runs; what contains the literals is checked afterwards.  So nothing that
    contains them may be missing.  Lower case goes character by character, but for
    the capital sigma, which becomes another letter at the end of a word: there the
    text around a literal matters. -/

namespace Cohub.Search

open List

/-! ## Lower case -/

/-- The tables of the characters. -/
structure Unicode where
  lower : Char → List Char
  cased : Char → Bool
  caseIgnorable : Char → Bool
  whitespace : Char → Bool

variable (u : Unicode)

def caseIgnorableThenCased (chars : List Char) : Bool :=
  match (chars.dropWhile u.caseIgnorable).head? with
  | some c => u.cased c
  | none => false

/-- `before` is the text before the sigma, backwards. -/
def mapUppercaseSigma (before after : List Char) : Char :=
  if caseIgnorableThenCased u before && !caseIgnorableThenCased u after then 'ς' else 'σ'

/-- The lower case of a text that follows another, each character with whether it comes
    from a capital sigma. -/
def lowerFrom : List Char → List Char → List (Char × Bool)
  | _, [] => []
  | before, c :: rest =>
      (if c = 'Σ' then [(mapUppercaseSigma u before rest, true)]
        else (u.lower c).map fun d => (d, false)) ++ lowerFrom (c :: before) rest

def toLowercase (text : List Char) : List Char := (lowerFrom u [] text).map Prod.fst

def trim (text : List Char) : List Char :=
  (text.dropWhile u.whitespace).rdropWhile u.whitespace

/-- The runs of three. -/
def windows {α : Type} : List α → List (List α)
  | a :: b :: c :: rest => [a, b, c] :: windows (b :: c :: rest)
  | _ => []

def shortLiteral : String := "search literals must contain at least 3 characters"

def noLiteral : String := "at least one search literal is required"

def queryGrams (literals : List (List Char)) : Except String (List (List Char)) :=
  let values := literals.map fun literal => toLowercase u (trim u literal)
  if values.any fun value => decide (value.length < 3) then .error shortLiteral
  else
    let grams := (values.flatMap windows).dedup
    if grams = [] then .error noLiteral
    else .ok (grams.insertionSort fun a b => pathLe a b)

/-! ## The query -/

structure IndexedFile where
  path : List Char
  /-- The text of the file as it is; the index has it in lower case. -/
  text : List Char
  deriving DecidableEq

/-- The index has one document for each path. -/
structure Index where
  files : List IndexedFile
  nodup : (files.map IndexedFile.path).Nodup

structure QueryRequest where
  literals   : List (List Char)
  pathPrefix : List Char
  glob       : Option (List Char)
  limit      : Nat

structure QueryResponse where
  matched   : List (List Char)
  truncated : Bool

def MAX_QUERY_LIMIT : Nat := 5000

def normalizePrefix (path : List Char) : Option (List Char) :=
  let normalized := ((slashed path).dropWhile (· == '/')).rdropWhile (· == '/')
  if normalized = [] ∨ normalized = ['.'] then none else some normalized

/-- What the service uses of the search engine and of the glob library. -/
structure Engine where
  /-- The documents of a search in the order in which they are paged through. -/
  ranked : List IndexedFile → List IndexedFile
  ranked_perm : ∀ files, (ranked files).Perm files
  /-- The matcher of a glob, `none` where it is invalid. -/
  compileMatcher : List Char → Option (List Char → Bool)

variable (engine : Engine)

/-- The documents whose content produced every gram. -/
def hits (index : Index) (grams : List (List Char)) : List IndexedFile :=
  engine.ranked (index.files.filter fun file =>
    grams.all fun gram => (windows (toLowercase u file.text)).contains gram)

/-- The prefix and the glob. -/
def accepts (start : Option (List Char)) (matcher : Option (List Char → Bool)) (file : IndexedFile) :
    Bool :=
  (match start with
    | some start => pathHasPrefix file.path start
    | none => true) &&
  (match matcher with
    | some matcher => matcher file.path
    | none => true)

section

variable (accept : IndexedFile → Bool) (limit : Nat)

/-- One page: the accepted files, and whether the limit is reached. -/
def inspectPage : List IndexedFile → List (List Char) → List (List Char) × Bool
  | [], found => (found, false)
  | file :: rest, found =>
      if !accept file then inspectPage rest found
      else if (found ++ [file.path]).length ≥ limit then (found ++ [file.path], true)
      else inspectPage rest (found ++ [file.path])

/-- The variables of the loop over pages. -/
structure Paging where
  offset : Nat
  inspected : Nat
  found : List (List Char)
  exhausted : Bool
  reachedLimit : Bool

/-- One page: `size` documents from the offset on. -/
def nextPage (documents : List IndexedFile) (size : Nat) (s : Paging) : Paging :=
  let page := (documents.drop s.offset).take size
  if page.isEmpty then { s with exhausted := true }
  else
    let (found, reachedLimit) := inspectPage accept limit page s.found
    { offset := s.offset + page.length, inspected := s.inspected + page.length, found,
      exhausted := decide (page.length < size), reachedLimit }

/-- The loop; `none` if it goes on after `fuel` pages. -/
def pageLoop (documents : List IndexedFile) (size : Nat) : Nat → Paging → Option Paging
  | 0, _ => none
  | fuel + 1, s =>
      if s.found.length < limit ∧ s.exhausted = false then
        pageLoop documents size fuel (nextPage accept limit documents size s)
      else some s

end

def invalidGlob : String := "invalid glob"

/-- What `query` computes before it pages: the limit, the documents of the query, in order,
    and which it accepts. -/
structure Plan where
  limit     : Nat
  documents : List IndexedFile
  accept    : IndexedFile → Bool

def planOf (index : Index) (request : QueryRequest) : Except String Plan := do
  let limit := max 1 (min request.limit MAX_QUERY_LIMIT)
  let grams ← queryGrams u request.literals
  let start := normalizePrefix request.pathPrefix
  let matcher ← match request.glob with
    | none => pure none
    | some glob =>
        match engine.compileMatcher glob with
        | none => .error invalidGlob
        | some matcher => pure (some matcher)
  return ⟨limit, hits u engine index grams, accepts start matcher⟩

/-- `limit.saturating_mul(8).clamp(limit + 1, 10_000)` -/
def candidateLimit (limit : Nat) : Nat := min 10000 (max (limit + 1) (limit * 8))

/-- The response of a plan; `none` if the loop goes on after `fuel` pages. -/
def respond (fuel : Nat) (plan : Plan) : Option QueryResponse :=
  let size := candidateLimit plan.limit
  (pageLoop plan.accept plan.limit plan.documents size fuel ⟨0, 0, [], false, false⟩).map fun s =>
    ⟨s.found, s.reachedLimit || (!s.exhausted && decide (s.inspected ≥ size))⟩

def query (fuel : Nat) (index : Index) (request : QueryRequest) :
    Except String (Option QueryResponse) :=
  (planOf u engine index request).map (respond fuel)

/-! ## The loop over pages -/

section

variable {accept : IndexedFile → Bool} {limit : Nat}

theorem inspectPage_eq {found : List (List Char)} (page : List IndexedFile)
    (hfound : found.length < limit) :
    inspectPage accept limit page found =
      (found ++ (((page.filter accept).map IndexedFile.path).take (limit - found.length)),
        decide (limit ≤ found.length + (page.filter accept).length)) := by
  induction page generalizing found with
  | nil =>
    have hless : ¬ limit ≤ found.length := by omega
    simp [inspectPage, hless]
  | cons file rest ih =>
    rw [inspectPage]
    cases haccept : accept file with
    | false => simp [ih hfound, haccept]
    | true =>
      obtain ⟨m, hm⟩ : ∃ m, limit - found.length = m + 1 := ⟨limit - found.length - 1, by omega⟩
      have hfilter : (file :: rest).filter accept = file :: rest.filter accept := by
        simp [haccept]
      rw [hfilter, map_cons, hm, take_succ_cons, length_cons]
      simp only [Bool.not_true, Bool.false_eq_true, if_false]
      split
      · next hfull =>
        simp only [length_append, length_singleton] at hfull
        have hzero : m = 0 := by omega
        have hreached : limit ≤ found.length + ((rest.filter accept).length + 1) := by omega
        simp [hzero, hreached]
      · next hroom =>
        simp only [length_append, length_singleton] at hroom
        have hrest : (found ++ [file.path]).length < limit := by
          simp only [length_append, length_singleton]
          omega
        have hleft : limit - (found ++ [file.path]).length = m := by
          simp only [length_append, length_singleton]
          omega
        rw [ih hrest, hleft]
        simp [Nat.add_assoc, Nat.add_comm 1]

def acceptedPaths (accept : IndexedFile → Bool) (documents : List IndexedFile) : List (List Char) :=
  (documents.filter accept).map IndexedFile.path

theorem acceptedPaths_append (before after : List IndexedFile) :
    acceptedPaths accept (before ++ after) =
      acceptedPaths accept before ++ acceptedPaths accept after := by
  rw [acceptedPaths, filter_append, map_append]
  rfl

/-- After some pages: what was found in them, and that no document is left if the loop has
    no more pages. -/
structure PagedTo (accept : IndexedFile → Bool) (limit : Nat) (documents : List IndexedFile)
    (s : Paging) : Prop where
  found : s.found = (acceptedPaths accept (documents.take s.offset)).take limit
  reached : s.reachedLimit = decide (limit ≤ (acceptedPaths accept (documents.take s.offset)).length)
  offset : s.offset ≤ documents.length
  exhausted : s.exhausted = true → documents.take s.offset = documents

variable {documents : List IndexedFile} {s : Paging} {size : Nat}

theorem PagedTo.found_eq (h : PagedTo accept limit documents s) (hless : s.found.length < limit) :
    s.found = acceptedPaths accept (documents.take s.offset) := by
  have hfound := h.found
  have hlength := congrArg List.length hfound
  rw [length_take] at hlength
  rw [hfound, take_of_length_le (by omega)]

theorem PagedTo.next (hsize : 0 < size)
    (h : PagedTo accept limit documents s) (hless : s.found.length < limit) :
    PagedTo accept limit documents (nextPage accept limit documents size s) := by
  have hfound := h.found_eq hless
  unfold nextPage
  dsimp only
  split
  · next hempty =>
    refine ⟨h.found, h.reached, h.offset, fun _ => ?_⟩
    have hlength : ((documents.drop s.offset).take size).length = 0 := by
      rw [List.isEmpty_iff.mp hempty, length_nil]
    rw [length_take, length_drop] at hlength
    have hend : documents.length ≤ s.offset := by omega
    exact take_of_length_le hend
  · obtain ⟨page, hpage⟩ : ∃ page, page = (documents.drop s.offset).take size := ⟨_, rfl⟩
    rw [← hpage, inspectPage_eq page hless]
    have hlength : page.length = min size (documents.length - s.offset) := by
      rw [hpage, length_take, length_drop]
    have htake : documents.take (s.offset + page.length) = documents.take s.offset ++ page := by
      have hsame : (documents.drop s.offset).take page.length = page := by
        conv => rhs; rw [hpage]
        rw [take_eq_take_iff, length_drop]
        omega
      rw [take_add, hsame]
    have hoffset := h.offset
    refine ⟨?_, ?_, ?_, ?_⟩
    · rw [htake, acceptedPaths_append, take_append, ← hfound,
        take_of_length_le (le_of_lt hless)]
      rfl
    · dsimp only
      rw [htake, acceptedPaths_append, length_append, ← hfound]
      simp [acceptedPaths]
    · dsimp only
      omega
    · dsimp only
      rw [decide_eq_true_eq]
      intro hshort
      exact take_of_length_le (by omega)

/-- The pages that are left, at most. -/
def pagesLeft (documents : List IndexedFile) (s : Paging) : Nat :=
  if s.exhausted then 1 else documents.length - s.offset + 2

theorem pagesLeft_next (hmore : s.exhausted = false) :
    pagesLeft documents (nextPage accept limit documents size s) + 1 ≤ pagesLeft documents s := by
  unfold nextPage pagesLeft
  dsimp only
  rw [hmore]
  split
  · simp
  · next hpage =>
    have hlength : 0 < ((documents.drop s.offset).take size).length := by
      rw [length_pos_iff]
      exact fun h => hpage (List.isEmpty_iff.mpr h)
    rw [length_take, length_drop] at hlength ⊢
    dsimp only
    simp only [Bool.false_eq_true, if_false]
    split <;> omega

theorem pageLoop_ends (hsize : 0 < size) (fuel : Nat)
    (h : PagedTo accept limit documents s) (hfuel : pagesLeft documents s ≤ fuel) :
    ∃ s', pageLoop accept limit documents size fuel s = some s' ∧
      PagedTo accept limit documents s' ∧ (limit ≤ s'.found.length ∨ s'.exhausted = true) := by
  induction fuel generalizing s with
  | zero =>
    unfold pagesLeft at hfuel
    split at hfuel <;> omega
  | succ fuel ih =>
    rw [pageLoop]
    split
    · next hmore =>
      have hleft : pagesLeft documents (nextPage accept limit documents size s) + 1 ≤
          pagesLeft documents s := pagesLeft_next hmore.2
      exact ih (h.next hsize hmore.1) (by omega)
    · next hdone =>
      refine ⟨s, rfl, h, ?_⟩
      by_cases hless : s.found.length < limit
      · refine .inr ?_
        cases hexhausted : s.exhausted with
        | true => rfl
        | false => exact absurd ⟨hless, hexhausted⟩ hdone
      · exact .inl (by omega)

theorem respond_eq (plan : Plan) (hlimit : 0 < plan.limit) {fuel : Nat}
    (hfuel : plan.documents.length + 2 ≤ fuel) :
    respond fuel plan = some ⟨(acceptedPaths plan.accept plan.documents).take plan.limit,
      decide (plan.limit ≤ (acceptedPaths plan.accept plan.documents).length)⟩ := by
  have hstart : PagedTo plan.accept plan.limit plan.documents ⟨0, 0, [], false, false⟩ := by
    refine ⟨?_, ?_, Nat.zero_le _, fun h => ?_⟩
    · exact take_nil.symm
    · symm
      rw [decide_eq_false_iff_not]
      simp [acceptedPaths]
      omega
    · cases h
  have hsize : 0 < candidateLimit plan.limit := by
    unfold candidateLimit
    omega
  obtain ⟨s, hs, hpaged, hdone⟩ := pageLoop_ends hsize fuel hstart (by simpa [pagesLeft] using hfuel)
  rw [respond, hs, Option.map_some]
  have hfound := hpaged.found
  have hreached := hpaged.reached
  have hlength := congrArg List.length hfound
  rw [length_take] at hlength
  have hall : acceptedPaths plan.accept plan.documents =
      acceptedPaths plan.accept (plan.documents.take s.offset) ++
        acceptedPaths plan.accept (plan.documents.drop s.offset) := by
    rw [← acceptedPaths_append, take_append_drop]
  by_cases hfull : plan.limit ≤ (acceptedPaths plan.accept (plan.documents.take s.offset)).length
  · have hmore : plan.limit ≤ (acceptedPaths plan.accept plan.documents).length := by
      rw [hall, length_append]
      omega
    have htake : (acceptedPaths plan.accept plan.documents).take plan.limit = s.found := by
      rw [hall, take_append_of_le_length hfull, ← hfound]
    rw [htake, hreached, decide_eq_true hfull, decide_eq_true hmore]
    rfl
  · have hexhausted := hdone.resolve_left (by omega)
    have hwhole := hpaged.exhausted hexhausted
    rw [hwhole] at hfound hreached hfull
    rw [hfound, hreached, hexhausted]
    simp

end

/-! ## Lower case in another text -/

variable {α : Type}

theorem mem_windows {w l : List α} : w ∈ windows l ↔ w.length = 3 ∧ w <:+: l := by
  fun_induction windows l with
  | case1 a b c rest ih =>
    have hfirst : w.length = 3 ∧ w <+: a :: b :: c :: rest ↔ w = [a, b, c] := by
      constructor
      · rintro ⟨hlength, hstarts⟩
        have htake := prefix_iff_eq_take.mp hstarts
        rw [hlength] at htake
        exact htake
      · rintro rfl
        exact ⟨rfl, rest, rfl⟩
    have hinfix : w <:+: a :: b :: c :: rest ↔
        w <+: a :: b :: c :: rest ∨ w <:+: b :: c :: rest := infix_cons_iff
    rw [mem_cons, ih, hinfix, and_or_left, hfirst]
  | case2 l hshort =>
    refine iff_of_false not_mem_nil ?_
    rintro ⟨hlength, hinfix⟩
    have hle := hinfix.length_le
    match l with
    | [] | [_] | [_, _] =>
      rw [hlength] at hle
      simp at hle
    | a :: b :: c :: rest => exact hshort a b c rest rfl

theorem windows_map {β : Type} (f : α → β) (l : List α) :
    windows (l.map f) = (windows l).map (List.map f) := by
  fun_induction windows l with
  | case1 a b c rest ih =>
    rw [map_cons, map_cons, map_cons, windows, ← map_cons, ← map_cons, ih]
    rfl
  | case2 l hshort =>
    match l with
    | [] | [_] | [_, _] => rfl
    | a :: b :: c :: rest => exact absurd rfl (hshort a b c rest)

/-- The same, but for the letter that a capital sigma became. -/
def Alike (x y : Char × Bool) : Prop := x.2 = y.2 ∧ (x.2 = false → x.1 = y.1)

theorem lowerFrom_after (before first rest : List Char) :
    ∃ start, lowerFrom u before (first ++ rest) =
      start ++ lowerFrom u (first.reverse ++ before) rest := by
  induction first generalizing before with
  | nil => exact ⟨[], rfl⟩
  | cons c first ih =>
    obtain ⟨start, hstart⟩ := ih (c :: before)
    refine ⟨(if c = 'Σ' then [(mapUppercaseSigma u before (first ++ rest), true)]
      else (u.lower c).map fun d => (d, false)) ++ start, ?_⟩
    rw [cons_append, lowerFrom, hstart, reverse_cons, append_assoc,
      append_assoc]
    rfl

theorem lowerFrom_alike (before before' literal rest : List Char) :
    ∃ middle, lowerFrom u before' (literal ++ rest) =
      middle ++ lowerFrom u (literal.reverse ++ before') rest ∧
        List.Forall₂ Alike (lowerFrom u before literal) middle := by
  induction literal generalizing before before' with
  | nil => exact ⟨[], rfl, .nil⟩
  | cons c literal ih =>
    obtain ⟨middle, hmiddle, halike⟩ := ih (c :: before) (c :: before')
    refine ⟨(if c = 'Σ' then [(mapUppercaseSigma u before' (literal ++ rest), true)]
      else (u.lower c).map fun d => (d, false)) ++ middle, ?_, ?_⟩
    · rw [cons_append, lowerFrom, hmiddle, reverse_cons, append_assoc,
        append_assoc]
      rfl
    · rw [lowerFrom]
      refine rel_append ?_ halike
      split
      · exact .cons ⟨rfl, fun h => by cases h⟩ .nil
      · exact forall₂_same.mpr fun x _ => ⟨rfl, fun _ => rfl⟩

variable {literal text : List Char}

theorem toLowercase_infix (h : literal <:+: text) :
    ∃ middle, middle.map Prod.fst <:+: toLowercase u text ∧
      List.Forall₂ Alike (lowerFrom u [] literal) middle := by
  obtain ⟨first, rest, rfl⟩ := h
  obtain ⟨start, hstart⟩ := lowerFrom_after u [] first (literal ++ rest)
  obtain ⟨middle, hmiddle, halike⟩ :=
    lowerFrom_alike u [] (first.reverse ++ []) literal rest
  refine ⟨middle, ?_, halike⟩
  rw [toLowercase, append_assoc, hstart, hmiddle, map_append, map_append]
  exact ⟨_, _, append_assoc _ _ _⟩

variable {w : List (Char × Bool)} {literals grams : List (List Char)}

theorem eq_of_alike {w' : List (Char × Bool)} (h : List.Forall₂ Alike w w')
    (hplain : w.any Prod.snd = false) : w.map Prod.fst = w'.map Prod.fst := by
  induction h with
  | nil => rfl
  | cons hxy _ ih =>
    rw [any_cons, Bool.or_eq_false_iff] at hplain
    rw [map_cons, map_cons, hxy.2 hplain.1, ih hplain.2]

theorem isInfix_trim (text : List Char) : trim u text <:+: text :=
  (List.rdropWhile_prefix _ _).isInfix.trans (dropWhile_suffix _).isInfix

theorem window_of_infix (h : literal <:+: text) (hw : w ∈ windows (lowerFrom u [] literal))
    (hplain : w.any Prod.snd = false) : w.map Prod.fst ∈ windows (toLowercase u text) := by
  obtain ⟨middle, hmiddle, halike⟩ := toLowercase_infix u h
  obtain ⟨hlength, before, after, hsplit⟩ := mem_windows.mp hw
  rw [← hsplit, append_assoc] at halike
  have hdrop := forall₂_drop before.length halike
  have htake := forall₂_take w.length hdrop
  rw [drop_left, take_left] at htake
  rw [mem_windows, length_map, eq_of_alike htake hplain]
  refine ⟨hlength, List.IsInfix.trans ?_ hmiddle⟩
  rw [map_take, map_drop]
  exact (List.take_prefix _ _).isInfix.trans (drop_suffix _ _).isInfix

/-! ## What a query misses -/

/-- Each run of the literal that a capital sigma is in is a run of the text. -/
def SigmaRuns (text literal : List Char) : Prop :=
  ∀ w ∈ windows (lowerFrom u [] (trim u literal)), w.any Prod.snd = true →
    w.map Prod.fst ∈ windows (toLowercase u text)

theorem sigmaRuns_of_not_mem (h : 'Σ' ∉ trim u literal) (text : List Char) :
    SigmaRuns u text literal := by
  have hplain : ∀ before chars, 'Σ' ∉ chars → ∀ x ∈ lowerFrom u before chars, x.2 = false := by
    intro before chars hchars
    induction chars generalizing before with
    | nil => exact fun x hx => absurd hx not_mem_nil
    | cons c chars ih =>
      intro x hx
      have hc : ¬ c = 'Σ' := fun hc => hchars (hc ▸ mem_cons_self)
      rw [lowerFrom, if_neg hc] at hx
      rcases mem_append.mp hx with hx | hx
      · obtain ⟨d, -, rfl⟩ := mem_map.mp hx
        rfl
      · exact ih _ (fun hmem => hchars (mem_cons_of_mem _ hmem)) x hx
  intro w hw hsigma
  obtain ⟨x, hx, hmark⟩ := any_eq_true.mp hsigma
  have hfalse := hplain [] _ h x ((mem_windows.mp hw).2.subset hx)
  rw [hfalse] at hmark
  cases hmark

theorem mem_of_queryGrams (h : queryGrams u literals = .ok grams) (gram : List Char) :
    gram ∈ grams ↔ ∃ literal ∈ literals,
      ∃ w ∈ windows (lowerFrom u [] (trim u literal)), w.map Prod.fst = gram := by
  unfold queryGrams at h
  dsimp only at h
  split at h
  · cases h
  · split at h
    · cases h
    · rw [← Except.ok.inj h, mem_insertionSort, mem_dedup, mem_flatMap]
      simp only [mem_map, toLowercase]
      constructor
      · rintro ⟨_, ⟨literal, hliteral, rfl⟩, hgram⟩
        rw [windows_map] at hgram
        obtain ⟨w, hw, rfl⟩ := mem_map.mp hgram
        exact ⟨literal, hliteral, w, hw, rfl⟩
      · rintro ⟨literal, hliteral, w, hw, rfl⟩
        refine ⟨_, ⟨literal, hliteral, rfl⟩, ?_⟩
        rw [windows_map]
        exact mem_map_of_mem hw

theorem grams_iff (h : queryGrams u literals = .ok grams)
    (hcontains : ∀ literal ∈ literals, literal <:+: text) :
    (∀ gram ∈ grams, gram ∈ windows (toLowercase u text)) ↔
      ∀ literal ∈ literals, SigmaRuns u text literal := by
  constructor
  · intro hgrams literal hliteral w hw _
    exact hgrams _ ((mem_of_queryGrams u h _).mpr ⟨literal, hliteral, w, hw, rfl⟩)
  · intro hruns gram hgram
    obtain ⟨literal, hliteral, w, hw, rfl⟩ := (mem_of_queryGrams u h gram).mp hgram
    cases hsigma : w.any Prod.snd with
    | true => exact hruns literal hliteral w hw hsigma
    | false =>
      exact window_of_infix u ((isInfix_trim u literal).trans (hcontains literal hliteral)) hw hsigma

variable {u engine} {index : Index} {request : QueryRequest} {plan : Plan}

theorem planOf_ok (h : planOf u engine index request = .ok plan) :
    ∃ grams matcher, queryGrams u request.literals = .ok grams ∧
      plan = ⟨max 1 (min request.limit MAX_QUERY_LIMIT), hits u engine index grams,
        accepts (normalizePrefix request.pathPrefix) matcher⟩ := by
  unfold planOf at h
  dsimp only at h
  cases hgrams : queryGrams u request.literals with
  | error e =>
    rw [hgrams] at h
    cases h
  | ok grams =>
    rw [hgrams] at h
    cases hglob : request.glob with
    | none =>
      rw [hglob] at h
      exact ⟨grams, none, rfl, (Except.ok.inj h).symm⟩
    | some glob =>
      rw [hglob] at h
      cases hmatcher : engine.compileMatcher glob with
      | none =>
        simp only [hmatcher] at h
        cases h
      | some matcher =>
        simp only [hmatcher] at h
        exact ⟨grams, some matcher, rfl, (Except.ok.inj h).symm⟩

theorem mem_documents_iff (h : planOf u engine index request = .ok plan) {file : IndexedFile}
    (hcontains : ∀ literal ∈ request.literals, literal <:+: file.text) :
    file ∈ plan.documents ↔
      file ∈ index.files ∧ ∀ literal ∈ request.literals, SigmaRuns u file.text literal := by
  obtain ⟨grams, matcher, hgrams, rfl⟩ := planOf_ok h
  dsimp only
  rw [hits, (engine.ranked_perm _).mem_iff, mem_filter, ← grams_iff u hgrams hcontains]
  simp

theorem documents_subset
    (h : planOf u engine index request = .ok plan) : plan.documents ⊆ index.files := by
  obtain ⟨grams, matcher, hgrams, rfl⟩ := planOf_ok h
  intro file hfile
  exact (mem_filter.mp ((engine.ranked_perm _).mem_iff.mp hfile)).1

theorem nodup_documents (h : planOf u engine index request = .ok plan) :
    (plan.documents.map IndexedFile.path).Nodup ∧ plan.documents.length ≤ index.files.length := by
  obtain ⟨grams, matcher, hgrams, rfl⟩ := planOf_ok h
  have hperm := engine.ranked_perm (index.files.filter fun file =>
    grams.all fun gram => (windows (toLowercase u file.text)).contains gram)
  constructor
  · refine (hperm.map _).nodup_iff.mpr ?_
    exact index.nodup.sublist (filter_sublist.map _)
  · exact hperm.length_eq.trans_le (length_filter_le _ _)

/-- What a query may be relied on for: it ends, with no more matches than the limit, each
    once, and unless it says that matches are left out, with every file under the prefix and
    the glob whose text contains the literals. -/
structure Complete (index : Index) (request : QueryRequest) (plan : Plan) (r : QueryResponse) :
    Prop where
  limit : r.matched.length ≤ plan.limit
  nodup : r.matched.Nodup
  found : r.truncated = false → ∀ file ∈ index.files, plan.accept file = true →
    (∀ literal ∈ request.literals, literal <:+: file.text) → file.path ∈ r.matched

/-- A query is complete exactly where it is truncated, or every file that contains the
    literals has their runs with a sigma. -/
theorem query_complete_iff {index : Index} {request : QueryRequest} {plan : Plan}
    (h : planOf u engine index request = .ok plan) {fuel : Nat}
    (hfuel : index.files.length + 2 ≤ fuel) :
    (∃ r, query u engine fuel index request = .ok (some r) ∧ Complete index request plan r) ↔
      plan.limit ≤ (plan.documents.filter plan.accept).length ∨
        ∀ file ∈ index.files, plan.accept file = true →
          (∀ literal ∈ request.literals, literal <:+: file.text) →
          ∀ literal ∈ request.literals, SigmaRuns u file.text literal := by
  obtain ⟨hnodup, hlength⟩ := nodup_documents h
  have hlimit : 0 < plan.limit := by
    obtain ⟨grams, matcher, -, rfl⟩ := planOf_ok h
    dsimp only
    omega
  have hresponse : query u engine fuel index request = .ok (some
      ⟨(acceptedPaths plan.accept plan.documents).take plan.limit,
        decide (plan.limit ≤ (acceptedPaths plan.accept plan.documents).length)⟩) := by
    have henough : plan.documents.length + 2 ≤ fuel := by omega
    rw [query, h, ← respond_eq plan hlimit henough]
    rfl
  have hcount : (acceptedPaths plan.accept plan.documents).length =
      (plan.documents.filter plan.accept).length := List.length_map _
  have hpaths : (acceptedPaths plan.accept plan.documents).Nodup :=
    hnodup.sublist (List.filter_sublist.map _)
  constructor
  · rintro ⟨r, hr, hcomplete⟩
    obtain rfl := Option.some.inj (Except.ok.inj (hresponse.symm.trans hr))
    by_cases hfull : plan.limit ≤ (plan.documents.filter plan.accept).length
    · exact .inl hfull
    · refine .inr fun file hfile haccept hcontains => ?_
      have hfound := hcomplete.found (decide_eq_false (by omega)) file hfile haccept hcontains
      -- the match is the file itself, since no other file has its path
      obtain ⟨other, hother, hpath⟩ := List.mem_map.mp (List.mem_of_mem_take hfound)
      have hdocument := (List.mem_filter.mp hother).1
      have hsame := List.inj_on_of_nodup_map index.nodup (documents_subset h hdocument) hfile hpath
      rw [hsame] at hdocument
      exact ((mem_documents_iff h hcontains).mp hdocument).2
  · intro hcondition
    refine ⟨_, hresponse, ?_, hpaths.sublist (List.take_sublist _ _), ?_⟩
    · rw [List.length_take]
      exact Nat.min_le_left _ _
    · intro htruncated file hfile haccept hcontains
      have hless := of_decide_eq_false htruncated
      have hruns := (hcondition.resolve_left (by omega)) file hfile haccept hcontains
      rw [List.take_of_length_le (by omega)]
      exact List.mem_map_of_mem (List.mem_filter.mpr
        ⟨(mem_documents_iff h hcontains).mpr ⟨hfile, hruns⟩, haccept⟩)

/-! ## A word that goes on -/

/-- Enough of the tables for a few Greek letters. -/
def greek : Unicode where
  lower := fun c =>
    if c = 'Ο' then ['ο'] else if c = 'Δ' then ['δ'] else if c = 'Α' then ['α'] else [c]
  cased := fun c => ['Ο', 'Δ', 'Σ', 'Α', 'ο', 'δ', 'σ', 'ς', 'α'].contains c
  caseIgnorable := fun _ => false
  whitespace := fun c => c == ' '

def inOrder : Engine where
  ranked := id
  ranked_perm := fun files => List.Perm.refl files
  compileMatcher := fun _ => none

def roads : Index where
  files := [⟨['a'], ['Ο', 'Δ', 'Ο', 'Σ', 'Α']⟩]
  nodup := List.nodup_singleton _

def roadRequest : QueryRequest where
  literals := [['Ο', 'Δ', 'Ο', 'Σ']]
  pathPrefix := []
  glob := none
  limit := 10

theorem query_complete_iff_roads :
    (∃ r, query greek inOrder 3 roads roadRequest = .ok (some r) ∧
        Complete roads roadRequest ⟨10, [], accepts none none⟩ r) ↔
      10 ≤ (([] : List IndexedFile).filter (accepts none none)).length ∨
        ∀ file ∈ roads.files, accepts none none file = true →
          (∀ literal ∈ roadRequest.literals, literal <:+: file.text) →
          ∀ literal ∈ roadRequest.literals, SigmaRuns greek file.text literal :=
  query_complete_iff (rfl : planOf greek inOrder roads roadRequest =
    .ok ⟨10, [], accepts none none⟩) (by decide)

/-- A word in capitals that goes on in the file is not found: its last letter is a final
    sigma in the literal, and not in the file. -/
theorem capital_sigma_is_missed :
    ¬ ∀ (index : Index) (request : QueryRequest) (plan : Plan),
      planOf greek inOrder index request = .ok plan →
        ∃ fuel r, query greek inOrder fuel index request = .ok (some r) ∧
          Complete index request plan r := by
  intro h
  obtain ⟨fuel, r, hr, hcomplete⟩ := h roads roadRequest ⟨10, [], accepts none none⟩ rfl
  have hempty : r = ⟨[], false⟩ := by
    match fuel with
    | 0 | 1 => cases hr
    | fuel + 2 => exact (Option.some.inj (Except.ok.inj hr)).symm
  have hfound := hcomplete.found (by rw [hempty]) ⟨['a'], ['Ο', 'Δ', 'Ο', 'Σ', 'Α']⟩
    (by decide) rfl (by decide)
  rw [hempty] at hfound
  exact List.not_mem_nil hfound

end Cohub.Search
