import Cohub.Search.Converges
import Mathlib.Data.List.Infix

/-! # Ignored files, in the walk and one at a time

    A walk goes down the tree, and passes over an entry that the names the service
    leaves out or the nearest `.gitignore` with a rule for it ignore; it never looks
    into a directory it passed over.  An incremental update has one path only.  It
    asks every `.gitignore` from the workspace down about the path, where each
    answers with its rule for the deepest of the path and its directories, and a
    deeper `.gitignore` overrides.  The two differ exactly where an ignored entry
    is on the path of a file for which a negated rule has the last word. -/

namespace Cohub.Search

open Interrupted Utf8 Bool List

/-! ## The last verdict -/

/-- The last of the first `n` verdicts that says something. -/
def lastVerdict (verdicts : Nat → Match) : Nat → Match
  | 0 => .none
  | n + 1 => if verdicts n = .none then lastVerdict verdicts n else verdicts n

variable {n : Nat}

theorem lastVerdict_eq_none {verdicts : Nat → Match} :
    lastVerdict verdicts n = .none ↔ ∀ i < n, verdicts i = .none := by
  induction n with
  | zero => simp [lastVerdict]
  | succ n ih =>
    rw [lastVerdict]
    split
    · next hnone =>
      rw [ih]
      constructor
      · intro h i hi
        rcases Nat.lt_succ_iff_lt_or_eq.mp hi with hi | rfl
        · exact h i hi
        · exact hnone
      · exact fun h i hi => h i (by omega)
    · next hsome => exact iff_of_false hsome fun h => hsome (h n (by omega))

variable {m : Match}

theorem lastVerdict_eq_iff {verdicts : Nat → Match} (hm : m ≠ .none) :
    lastVerdict verdicts n = m ↔
      ∃ i < n, verdicts i = m ∧ ∀ i', i < i' → i' < n → verdicts i' = .none := by
  induction n with
  | zero => simp [lastVerdict, hm.symm]
  | succ n ih =>
    rw [lastVerdict]
    split
    · next hnone =>
      rw [ih]
      constructor
      · rintro ⟨i, hi, hverdict, hafter⟩
        refine ⟨i, by omega, hverdict, fun i' hlt hle => ?_⟩
        rcases Nat.lt_succ_iff_lt_or_eq.mp hle with hle | rfl
        · exact hafter i' hlt hle
        · exact hnone
      · rintro ⟨i, hi, hverdict, hafter⟩
        rcases Nat.lt_succ_iff_lt_or_eq.mp hi with hi | rfl
        · exact ⟨i, hi, hverdict, fun i' hlt hle => hafter i' hlt (by omega)⟩
        · exact absurd (hnone.symm.trans hverdict).symm hm
    · next hsome =>
      constructor
      · exact fun h => ⟨n, by omega, h, fun i' hlt hle => by omega⟩
      · rintro ⟨i, hi, hverdict, hafter⟩
        rcases Nat.lt_succ_iff_lt_or_eq.mp hi with hi | rfl
        · exact absurd (hafter n hi (by omega)) hsome
        · exact hverdict

/-! ## A file and the directories above it -/

/-- `verdicts k j` is what the rules of the `k`th directory above a file say of the `j`th
    node on its path, the file being the `n`th.  A walk passes over a node if the
    nearest directory with a rule for it ignores it. -/
def PassedOver (verdicts : Nat → Nat → Match) (j : Nat) : Prop :=
  ∃ k < j, verdicts k j = .ignore ∧ ∀ k', k < k' → k' < j → verdicts k' j = .none

/-- What one directory says of the file: its rule for the deepest node. -/
def saysOf (verdicts : Nat → Nat → Match) (n k : Nat) : Match :=
  lastVerdict (fun j => if k < j then verdicts k j else .none) (n + 1)

/-- A node of the path is passed over, and the last word is a negated rule: no directory
    below the rule's own has a rule for a node of the path, and its own has none for a
    deeper node. -/
structure Overridden (verdicts : Nat → Nat → Match) (n : Nat) : Prop where
  passedOver : ∃ j ≤ n, PassedOver verdicts j
  lastWord : ∃ k j, k < j ∧ j ≤ n ∧ verdicts k j = .whitelist ∧
    (∀ j', j < j' → j' ≤ n → verdicts k j' = .none) ∧
    ∀ k' j', k < k' → k' < j' → j' ≤ n → verdicts k' j' = .none

variable {verdicts : Nat → Nat → Match} {n : Nat} {k : Nat}

theorem saysOf_eq_none :
    saysOf verdicts n k = .none ↔ ∀ j, k < j → j ≤ n → verdicts k j = .none := by
  unfold saysOf
  rw [lastVerdict_eq_none]
  constructor
  · intro h j hk hj
    have hj := h j (by omega)
    rwa [if_pos hk] at hj
  · intro h j hj
    split
    · next hk => exact h j hk (by omega)
    · rfl

theorem saysOf_eq_iff (hm : m ≠ .none) :
    saysOf verdicts n k = m ↔
      ∃ j, k < j ∧ j ≤ n ∧ verdicts k j = m ∧ ∀ j', j < j' → j' ≤ n → verdicts k j' = .none := by
  unfold saysOf
  rw [lastVerdict_eq_iff hm]
  constructor
  · rintro ⟨j, hj, hverdict, hafter⟩
    split at hverdict
    · next hk =>
      refine ⟨j, hk, by omega, hverdict, fun j' hlt hle => ?_⟩
      have hnone := hafter j' hlt (by omega)
      rwa [if_pos (by omega)] at hnone
    · exact absurd hverdict.symm hm
  · rintro ⟨j, hk, hj, hverdict, hafter⟩
    refine ⟨j, by omega, by rwa [if_pos hk], fun j' hlt hle => ?_⟩
    rw [if_pos (by omega)]
    exact hafter j' hlt (by omega)

theorem lastVerdict_saysOf_eq_iff (hm : m ≠ .none) :
    lastVerdict (saysOf verdicts n) n = m ↔
      ∃ k j, k < j ∧ j ≤ n ∧ verdicts k j = m ∧
        (∀ j', j < j' → j' ≤ n → verdicts k j' = .none) ∧
        ∀ k' j', k < k' → k' < j' → j' ≤ n → verdicts k' j' = .none := by
  rw [lastVerdict_eq_iff hm]
  constructor
  · rintro ⟨k, hk, hsays, hbelow⟩
    obtain ⟨j, hkj, hj, hverdict, hafter⟩ := (saysOf_eq_iff hm).mp hsays
    exact ⟨k, j, hkj, hj, hverdict, hafter, fun k' j' hlt hkj' hj' =>
      saysOf_eq_none.mp (hbelow k' hlt (by omega)) j' hkj' hj'⟩
  · rintro ⟨k, j, hkj, hj, hverdict, hafter, hbelow⟩
    refine ⟨k, by omega, (saysOf_eq_iff hm).mpr ⟨j, hkj, hj, hverdict, hafter⟩, fun k' hlt hk' => ?_⟩
    exact saysOf_eq_none.mpr fun j' hkj' hj' => hbelow k' j' hlt hkj' hj'

theorem passedOver_of_ignore (h : lastVerdict (saysOf verdicts n) n = .ignore) :
    ∃ j ≤ n, PassedOver verdicts j := by
  obtain ⟨k, j, hkj, hj, hverdict, -, hbelow⟩ := (lastVerdict_saysOf_eq_iff (by decide)).mp h
  exact ⟨j, hj, k, hkj, hverdict, fun k' hlt hk' => hbelow k' j hlt hk' hj⟩

theorem ignore_iff_passedOver :
    (lastVerdict (saysOf verdicts n) n ≠ .ignore ↔ ¬ ∃ j ≤ n, PassedOver verdicts j) ↔
      ¬ Overridden verdicts n := by
  constructor
  · intro hagree hover
    have hlast := (lastVerdict_saysOf_eq_iff (by decide)).mpr hover.lastWord
    exact hagree.mp (by rw [hlast]; decide) hover.passedOver
  · intro hover
    refine ⟨fun hadmit hpassed => hover ⟨hpassed, ?_⟩, fun hvisit hignore =>
      hvisit (passedOver_of_ignore hignore)⟩
    rw [← lastVerdict_saysOf_eq_iff (by decide)]
    cases hlast : lastVerdict (saysOf verdicts n) n with
    | whitelist => rfl
    | ignore => exact absurd hlast hadmit
    | none =>
      -- the rule that ignores the node says something
      obtain ⟨j, hj, k, hk, hverdict, -⟩ := hpassed
      have hnone := saysOf_eq_none.mp (lastVerdict_eq_none.mp hlast k (by omega)) j hk hj
      rw [hverdict] at hnone
      cases hnone

/-! ## The rules of the directories -/

variable {Name : Type} (env : Env Name)

-- `verdict directory file path isDir` is what the rules of a directory's `.gitignore`
-- say of one path, its parents aside
variable (verdict : List Name → List Byte → List Name → Bool → Match)

/-- The rule for the path, else for its nearest parent that has one. -/
def matchedPathOrAnyParents (directory : List Name) (file : List Byte) (path : List Name)
    (isDir : Bool) : Match :=
  lastVerdict (fun j =>
    if directory.length < j then
      verdict directory file (path.take j) (isDir || decide (j < path.length))
    else .none) (path.length + 1)

/-- Every `.gitignore` has a matcher, and the matcher asks the rules about the path and then
    about its parents. -/
def Implements : Prop :=
  ∀ directory file path isDir, env.matched directory file path isDir =
    some (matchedPathOrAnyParents verdict directory file path isDir)

/-- What the rules of one directory say of a node. -/
def verdictIn (w : Workspace Name) (directory path : List Name) (isDir : Bool) : Match :=
  match w.gitignore directory with
  | none => .none
  | some file => verdict directory file path isDir

/-- For the walk, the nearest directory with a rule for the entry decides. -/
def walkMatched (w : Workspace Name) (path : List Name) (isDir : Bool) : Match :=
  lastVerdict (fun k => verdictIn verdict w (path.take k) path isDir) path.length

/-- An entry that the walk goes into, or lists. -/
def walkEnters (w : Workspace Name) (path : List Name) (isDir : Bool) : Bool :=
  !env.isIgnoredWorkspacePath path && decide (walkMatched verdict w path isDir ≠ .ignore)

/-- The walk on its way down from a directory to a file. -/
def walkDown (w : Workspace Name) (directory : List Name) : List Name → Bool
  | [] => true
  | name :: rest =>
      walkEnters env verdict w (directory ++ [name]) (!rest.isEmpty) &&
        walkDown w (directory ++ [name]) rest

def visits (w : Workspace Name) (path : List Name) : Bool := walkDown env verdict w [] path

/-- What the `k`th directory above a file says of the `j`th node on its path. -/
def verdictsOn (w : Workspace Name) (path : List Name) (k j : Nat) : Match :=
  verdictIn verdict w (path.take k) (path.take j) (decide (j < path.length))

theorem walkDown_iff (w : Workspace Name) (directory rest : List Name) :
    walkDown env verdict w directory rest = true ↔
      ∀ j, directory.length < j → j ≤ (directory ++ rest).length →
        walkEnters env verdict w ((directory ++ rest).take j)
          (decide (j < (directory ++ rest).length)) = true := by
  induction rest generalizing directory with
  | nil =>
    refine iff_of_true rfl fun j hj hle => ?_
    rw [append_nil] at hle
    omega
  | cons name rest ih =>
    have happend : directory ++ name :: rest = directory ++ [name] ++ rest := by simp
    have hfirst : (directory ++ name :: rest).take (directory.length + 1) = directory ++ [name] := by
      rw [happend, take_left' (by simp)]
    have hisDir : decide (directory.length + 1 < (directory ++ name :: rest).length) =
        !rest.isEmpty := by cases rest <;> simp
    rw [walkDown, and_eq_true, ih, ← happend]
    constructor
    · rintro ⟨hname, hrest⟩ j hj hle
      rcases Nat.eq_or_lt_of_le (Nat.succ_le_of_lt hj) with heq | hlt
      · rw [← heq, hfirst, hisDir]
        exact hname
      · exact hrest j (by simpa using hlt) hle
    · intro h
      refine ⟨?_, fun j hj hle => h j ?_ hle⟩
      · have hname := h (directory.length + 1) (by omega) (by simp)
        rwa [hfirst, hisDir] at hname
      · rw [length_append] at hj
        omega

variable {j : Nat}

theorem walkMatched_eq_ignore_iff (w : Workspace Name) (path : List Name) (hj : j ≤ path.length) :
    walkMatched verdict w (path.take j) (decide (j < path.length)) = .ignore ↔
      PassedOver (verdictsOn verdict w path) j := by
  have hlength : (path.take j).length = j := by
    rw [length_take]
    omega
  have htake : ∀ k < j, (path.take j).take k = path.take k := fun k hk => by
    rw [take_take, min_eq_left (by omega)]
  unfold walkMatched
  rw [hlength, lastVerdict_eq_iff (by decide)]
  constructor
  · rintro ⟨k, hk, hverdict, hafter⟩
    refine ⟨k, hk, ?_, fun k' hlt hle => ?_⟩
    · rwa [htake k hk] at hverdict
    · have hnone := hafter k' hlt hle
      rwa [htake k' hle] at hnone
  · rintro ⟨k, hk, hverdict, hafter⟩
    refine ⟨k, hk, ?_, fun k' hlt hle => ?_⟩
    · rwa [htake k hk]
    · rw [htake k' hle]
      exact hafter k' hlt hle

variable {env verdict}

theorem gitIgnoredBy_eq (h : Implements env verdict) (w : Workspace Name) (path : List Name)
    (hk : k ≤ path.length) (ignored : Bool) :
    env.gitIgnoredBy w path false ignored (path.take k) =
      if saysOf (verdictsOn verdict w path) path.length k = .none then ignored
      else decide (saysOf (verdictsOn verdict w path) path.length k = .ignore) := by
  have hlength : (path.take k).length = k := by
    rw [length_take]
    omega
  unfold Env.gitIgnoredBy
  cases hfile : w.gitignore (path.take k) with
  | none =>
    have hsays : saysOf (verdictsOn verdict w path) path.length k = .none := by
      rw [saysOf_eq_none]
      intro j _ _
      rw [verdictsOn, verdictIn, hfile]
    rw [if_pos hsays]
  | some file =>
    have hsays : matchedPathOrAnyParents verdict (path.take k) file path false =
        saysOf (verdictsOn verdict w path) path.length k := by
      unfold matchedPathOrAnyParents saysOf verdictsOn verdictIn
      simp only [hlength, hfile, Bool.false_or]
    dsimp only
    rw [h, hsays]
    cases saysOf (verdictsOn verdict w path) path.length k <;> rfl

theorem isGitIgnored_iff (h : Implements env verdict) (w : Workspace Name) (path : List Name) :
    env.isGitIgnored w path false = true ↔
      lastVerdict (saysOf (verdictsOn verdict w path) path.length) path.length = .ignore := by
  have hinits : path.inits.dropLast = (List.range path.length).map fun k => path.take k := by
    apply ext_getElem
    · rw [length_dropLast, length_inits, length_map, length_range]
      omega
    · intro i h1 h2
      rw [getElem_dropLast, getElem_inits, getElem_map, getElem_range]
  have hloop : ∀ m ≤ path.length,
      ((List.range m).map fun k => path.take k).foldl (env.gitIgnoredBy w path false) false =
        decide (lastVerdict (saysOf (verdictsOn verdict w path) path.length) m = .ignore) := by
    intro m hm
    induction m with
    | zero => rfl
    | succ m ih =>
      rw [range_succ, map_append, foldl_append, ih (by omega)]
      simp only [map_cons, map_nil, foldl_cons, foldl_nil]
      rw [gitIgnoredBy_eq h w path (by omega), lastVerdict]
      split <;> rfl
  unfold Env.isGitIgnored
  rw [hinits, hloop _ le_rfl, decide_eq_true_eq]

/-! ## The names the service leaves out -/

/-- The names of a normalized path. -/
def segments (path : Path) : List (List Char) := path.1.splitOn '/'

omit env verdict in
theorem backslash_not_mem (path : Path) : '\\' ∉ path.1 := by
  have hnormal := path.2
  unfold normalizeText at hnormal
  split at hnormal
  · cases hnormal
  · split at hnormal
    · cases hnormal
    · split at hnormal
      · cases hnormal
      · rw [← Option.some.inj hnormal]
        intro hmem
        rcases mem_intercalate hmem with hslash | ⟨part, hpart, hc⟩
        · simp at hslash
        · exact (of_mem_parts hpart).2.2.2 hc

theorem path_ne_nil (path : Path) : path.1 ≠ [] := by
  intro hempty
  have hnormal := path.2
  rw [hempty] at hnormal
  simp [normalizeText, parts, slashed] at hnormal

theorem intercalate_append {before after : List (List Char)} (hbefore : before ≠ [])
    (hafter : after ≠ []) :
    ['/'].intercalate (before ++ after) =
      ['/'].intercalate before ++ '/' :: ['/'].intercalate after := by
  induction before with
  | nil => exact absurd rfl hbefore
  | cons name before ih =>
    cases before with
    | nil =>
      rw [cons_append, nil_append, intercalate_cons_of_ne_nil hafter,
        intercalate_singleton]
      simp
    | cons next rest =>
      have hrest := ih (by simp)
      rw [cons_append, cons_append, intercalate_cons_cons,
        ← cons_append, hrest, intercalate_cons_cons]
      simp

theorem pathHasPrefix_append {path start more : List Char} (h : pathHasPrefix path start = true) :
    pathHasPrefix (path ++ '/' :: more) start = true := by
  unfold pathHasPrefix at h ⊢
  simp only [or_eq_true, beq_iff_eq, List.isPrefixOf_iff_prefix] at h ⊢
  rcases h with (hempty | rfl) | hstart
  · exact .inl (.inl hempty)
  · exact .inr ⟨more, by simp⟩
  · exact .inr (hstart.trans (prefix_append _ _))

theorem isIgnoredPath_of_take {names : List (List Char)} (hnames : ∀ name ∈ names, '/' ∉ name)
    (hj : 0 < j) (hle : j ≤ names.length) {patterns : List (List Char)}
    (h : isIgnoredPath (['/'].intercalate (names.take j)) patterns = true) :
    isIgnoredPath (['/'].intercalate names) patterns = true := by
  rcases Nat.eq_or_lt_of_le hle with heq | hlt
  · rwa [take_of_length_le (by omega)] at h
  · have hbefore : names.take j ≠ [] := by
      intro hempty
      have hlength := congrArg List.length hempty
      rw [length_take, length_nil] at hlength
      omega
    have hafter : names.drop j ≠ [] := by
      intro hempty
      have hlength := congrArg List.length hempty
      rw [length_drop, length_nil] at hlength
      omega
    have hne : names ≠ [] := fun hempty => hbefore (by rw [hempty, take_nil])
    have hsplit : ['/'].intercalate names =
        ['/'].intercalate (names.take j) ++ '/' :: ['/'].intercalate (names.drop j) := by
      rw [← intercalate_append hbefore hafter, take_append_drop]
    have hsegments := splitOn_intercalate '/' hnames hne
    have hfirst := splitOn_intercalate '/'
      (fun name hname => hnames name (mem_of_mem_take hname)) hbefore
    unfold isIgnoredPath at h ⊢
    rw [or_eq_true] at h ⊢
    rcases h with hname | hpattern
    · refine .inl ?_
      rw [hfirst] at hname
      rw [hsegments]
      obtain ⟨name, hmem, hignored⟩ := any_eq_true.mp hname
      exact any_eq_true.mpr ⟨name, mem_of_mem_take hmem, hignored⟩
    · refine .inr ?_
      obtain ⟨pattern, hmem, hmatches⟩ := any_eq_true.mp hpattern
      refine any_eq_true.mpr ⟨pattern, hmem, ?_⟩
      unfold pathMatchesIgnorePattern at hmatches ⊢
      split
      · next hslash =>
        rw [if_pos hslash] at hmatches
        rw [hsplit]
        exact pathHasPrefix_append hmatches
      · next hslash =>
        rw [if_neg hslash, hfirst] at hmatches
        rw [hsegments]
        obtain ⟨name, hname, hsame⟩ := any_eq_true.mp hmatches
        exact any_eq_true.mpr ⟨name, mem_of_mem_take hname, hsame⟩

variable (env)

theorem text_take_absolute (path : Path) (j : Nat) :
    env.text ((env.absolute path).take j) = ['/'].intercalate ((segments path).take j) := by
  have hsame : env.lossy ∘ env.ofText = id := funext env.lossy_ofText
  rw [Env.text, Env.absolute, ← map_take, map_map, hsame, map_id]
  rfl

theorem length_absolute (path : Path) : (env.absolute path).length = (segments path).length :=
  length_map _

theorem segments_ne_nil (path : Path) : segments path ≠ [] := splitOn_ne_nil _ _

variable {path : Path}

theorem isIgnoredPath_of_workspace (hj : 0 < j) (hle : j ≤ (env.absolute path).length)
    (h : env.isIgnoredWorkspacePath ((env.absolute path).take j) = true) :
    isIgnoredPath path.1 env.ignorePatterns = true := by
  unfold Env.isIgnoredWorkspacePath at h
  have hignored := (and_eq_true _ _ ▸ h).2
  have hback : '\\' ∉ ['/'].intercalate ((segments path).take j) := by
    intro hmem
    rcases mem_intercalate hmem with hslash | ⟨part, hpart, hc⟩
    · simp at hslash
    · exact backslash_not_mem path ((of_mem_splitOn (mem_of_mem_take hpart)).2 hc)
  rw [text_take_absolute, slashed_of_not_mem hback] at hignored
  have hwhole := isIgnoredPath_of_take (fun name hname => (of_mem_splitOn hname).1) hj
    (length_absolute env path ▸ hle) hignored
  rwa [intercalate_splitOn] at hwhole

theorem isIgnoredWorkspacePath_absolute (path : Path) :
    env.isIgnoredWorkspacePath (env.absolute path) = isIgnoredPath path.1 env.ignorePatterns := by
  have htext : env.text (env.absolute path) = path.1 := by
    have htake := text_take_absolute env path (env.absolute path).length
    rw [take_length, length_absolute, take_length] at htake
    rw [htake, segments, intercalate_splitOn]
  unfold Env.isIgnoredWorkspacePath
  rw [htext, slashed_of_not_mem (backslash_not_mem path)]
  cases hempty : path.1 with
  | nil => exact absurd hempty (path_ne_nil path)
  | cons c rest => rfl

/-! ## Where the two agree -/

theorem visits_iff (w : Workspace Name) (path : Path) :
    visits env verdict w (env.absolute path) = true ↔
      isIgnoredPath path.1 env.ignorePatterns = false ∧
        ¬ ∃ j ≤ (env.absolute path).length,
          PassedOver (verdictsOn verdict w (env.absolute path)) j := by
  have hpos : 0 < (env.absolute path).length := by
    rw [length_absolute]
    exact length_pos_iff.mpr (segments_ne_nil path)
  unfold visits
  rw [walkDown_iff]
  simp only [nil_append, length_nil, walkEnters, and_eq_true, not_eq_true',
    decide_eq_true_eq]
  constructor
  · intro h
    refine ⟨?_, ?_⟩
    · have hwhole := (h _ hpos le_rfl).1
      rwa [take_length, isIgnoredWorkspacePath_absolute] at hwhole
    · rintro ⟨j, hj, hpassed⟩
      have hzero : 0 < j := by
        obtain ⟨k, hk, -⟩ := hpassed
        omega
      exact (h j hzero hj).2 ((walkMatched_eq_ignore_iff verdict w _ hj).mpr hpassed)
  · rintro ⟨hname, hpassed⟩ j hzero hj
    refine ⟨?_, fun hmatched => ?_⟩
    · by_contra hignored
      have hwhole := isIgnoredPath_of_workspace env hzero hj (not_eq_false _ ▸ hignored)
      rw [hname] at hwhole
      cases hwhole
    · exact hpassed ⟨j, hj, (walkMatched_eq_ignore_iff verdict w _ hj).mp hmatched⟩

/-- A file whose bytes make a document: it is not too large, can be read and is text. -/
def Indexable (w : Workspace Name) (path : Path) : Prop :=
  ∃ metadata, w.stat (env.absolute path) = some metadata ∧ metadata.len ≤ MAX_INDEXED_FILE_BYTES ∧
    ((w.content (env.absolute path)).bind (env.documentOf path)).isSome

/-- The file is admitted on its own exactly where the walk visits it. -/
def Agree (verdict : List Name → List Byte → List Name → Bool → Match) (w : Workspace Name)
    (path : Path) : Prop :=
  ((entryAt env w path).isSome ↔ visits env verdict w (env.absolute path) = true) ∧
    (Indexable env w path →
      ((documentAt env w (env.absolute path)).isSome ↔
        visits env verdict w (env.absolute path) = true))

variable {env} {w : Workspace Name} {metadata : Metadata}

theorem isSome_entryAt_iff
    (hstat : w.stat (env.absolute path) = some metadata) (hfile : metadata.isFile = true) :
    (entryAt env w path).isSome ↔ isIgnoredPath path.1 env.ignorePatterns = false ∧
      env.isGitIgnored w (env.absolute path) false = false := by
  rw [entryAt, hstat, Option.bind_some, hfile]
  cases isIgnoredPath path.1 env.ignorePatterns <;>
    cases env.isGitIgnored w (env.absolute path) false <;> simp

theorem isSome_documentAt_iff (hstat : w.stat (env.absolute path) = some metadata)
    (hfile : metadata.isFile = true) (hindexable : Indexable env w path) :
    (documentAt env w (env.absolute path)).isSome ↔
      isIgnoredPath path.1 env.ignorePatterns = false ∧
        env.isGitIgnored w (env.absolute path) false = false := by
  obtain ⟨found, hfound, hlen, hdocument⟩ := hindexable
  obtain rfl : metadata = found := Option.some.inj (hstat.symm.trans hfound)
  have hsmall : ¬ metadata.len > MAX_INDEXED_FILE_BYTES := by omega
  rw [documentAt, hstat, Option.bind_some, if_neg (by simp [hfile, hsmall]), relative_absolute,
    Option.bind_some]
  cases isIgnoredPath path.1 env.ignorePatterns <;>
    cases env.isGitIgnored w (env.absolute path) false <;> simp [hdocument]

def keepRules : List Byte :=
  "logs/\n!logs/keep.txt\n".toList.map fun c => Fin.ofNat 256 c.toNat

/-- What these rules say in the workspace's own `.gitignore`. -/
def keepVerdict (directory : List (List Char)) (_ : List Byte) (path : List (List Char))
    (isDir : Bool) : Match :=
  if directory = [] ∧ path = ["logs".toList] ∧ isDir = true then .ignore
  else if directory = [] ∧ path = ["logs".toList, "keep.txt".toList] then .whitelist
  else .none

def keepEnv : Env (List Char) where
  ofText := id
  lossy := id
  lossy_ofText := fun _ => rfl
  ignorePatterns := []
  matched := fun directory file path isDir =>
    some (matchedPathOrAnyParents keepVerdict directory file path isDir)
  toLowercase := id

def keepWorkspace : Workspace (List Char) where
  stat := fun path =>
    if path = ["logs".toList, "keep.txt".toList] ∨ path = ["logs".toList, "a.txt".toList] then
      some ⟨true, ⟨1, 0⟩⟩
    else none
  content := fun _ => some []
  gitignore := fun directory => if directory = [] then some keepRules else none
  entries := []

def keepPath : Path := ⟨"logs/keep.txt".toList, by decide +kernel⟩

def otherPath : Path := ⟨"logs/a.txt".toList, by decide +kernel⟩

end Cohub.Search
