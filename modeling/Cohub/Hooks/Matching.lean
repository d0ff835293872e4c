import Cohub.Lib.Json
import Cohub.Lib.Text

/-! # Hooks on file changes

    `matchFsChanged` and `collectFsPaths` of `packages/core/src/hooks/match.ts`.
    A hook names globs of paths, globs of paths to ignore, and kinds of changes.
    The paths and the kinds of a batch are collected apart from each other, over
    all changes, and each filter then asks for one member that passes it.

    The glob matcher is any predicate on normalised patterns and paths. -/

namespace Cohub.Hooks

open List

def normalizePath (path : String) : String :=
  let slashed := path.toList.map fun c => if c = '\\' then '/' else c
  let relative := match slashed with
    | '.' :: '/' :: rest => rest.dropWhile (· = '/')
    | other => other
  String.ofList (relative.dropWhile (· = '/'))

/-- The filters of a `SpaceHookDefinition` on file changes. -/
structure SpaceHookDefinition where
  paths  : Option (List String)
  ignore : Option (List String)
  kinds  : Option (List String)

/-- Whether there is a filter: a list that is absent or empty is none. -/
def filtered (patterns : Option (List String)) : Bool := patterns.any fun list => !list.isEmpty

structure Match where
  matched : Bool
  reason  : Option String := none

/-- A member that is a text and not blank. -/
def textMember (change : Json) (key : String) : Option String :=
  ((change.get? key).bind Json.asString?).filter fun text => Text.trim text ≠ ""

/-- The paths of a change: where it is, and where it was. -/
def pathsOf (change : Json) : List String :=
  ((textMember change "path").toList ++ (textMember change "oldPath").toList).map normalizePath

def kindsOf (change : Json) : List String := (textMember change "kind").toList.map Text.trim

/-- What `collectFsPaths` returns. -/
structure FsPaths where
  paths  : List String
  kinds  : List String
  resync : Bool

/-- `collectFsPaths`.  (A change that is no record has no members.) -/
def collectFsPaths (payload : Fields) : FsPaths :=
  let changes := match payload.get? "changes" with
    | some (.arr changes) => changes
    | _ => []
  { paths := (changes.flatMap pathsOf).eraseDups
    kinds := (changes.flatMap kindsOf).eraseDups
    resync := decide (payload.get? "resync" = some (.bool true)) }

section

variable (glob : String → String → Bool)

def matchGlob (pattern value : String) : Bool := glob (normalizePath pattern) (normalizePath value)

def matchesAny (patterns : Option (List String)) (values : List String) : Bool :=
  !filtered patterns ||
    values.any fun value => (patterns.getD []).any fun pattern => matchGlob glob pattern value

def isIgnored (patterns : Option (List String)) (values : List String) : Bool :=
  filtered patterns &&
    values.all fun value => (patterns.getD []).any fun pattern => matchGlob glob pattern value

/-- `!path.startsWith(".cohub/") && !isIgnored(hook.ignore, [path])`. -/
def isActive (hook : SpaceHookDefinition) (path : String) : Bool :=
  !path.startsWith ".cohub/" && !isIgnored glob hook.ignore [path]

def matchFsChanged (hook : SpaceHookDefinition) (payload : Fields) : Match :=
  let collected := collectFsPaths payload
  if collected.resync && collected.paths.isEmpty then
    { matched := false, reason := some "fs_resync_no_paths" }
  else if collected.paths.isEmpty then { matched := false, reason := some "no_paths" }
  else
    let activePaths := collected.paths.filter (isActive glob hook)
    if activePaths.isEmpty then { matched := false, reason := some "ignored" }
    else if !matchesAny glob hook.paths activePaths then
      { matched := false, reason := some "path_filter" }
    else if filtered hook.kinds && (collected.kinds.isEmpty ||
        !collected.kinds.any fun kind => (hook.kinds.getD []).contains kind) then
      { matched := false, reason := some "kind_filter" }
    else { matched := true }

/-! ## What a batch needs -/

/-- A path that the path filters let through. -/
def Passes (hook : SpaceHookDefinition) (path : String) : Prop :=
  isActive glob hook path = true ∧ matchesAny glob hook.paths [path] = true

/-- A kind that the hook names, if it names kinds. -/
def OfKind (hook : SpaceHookDefinition) (kinds : List String) : Prop :=
  filtered hook.kinds = true → ∃ kind ∈ kinds, (hook.kinds.getD []).contains kind = true

variable {glob} {hook : SpaceHookDefinition}

theorem matchesAny_iff {patterns : Option (List String)} {values : List String}
    (hvalues : values ≠ []) : matchesAny glob patterns values = true ↔
      ∃ value ∈ values, matchesAny glob patterns [value] = true := by
  obtain ⟨value, hvalue⟩ := exists_mem_of_ne_nil _ hvalues
  unfold matchesAny
  cases hfilter : filtered patterns with
  | false => exact ⟨fun _ => ⟨value, hvalue, rfl⟩, fun _ => rfl⟩
  | true => simp only [Bool.not_true, Bool.false_or, any_eq_true, mem_singleton,
      exists_eq_left]

theorem kind_filter_iff (kinds : List String) :
    (filtered hook.kinds && (kinds.isEmpty ||
      !kinds.any fun kind => (hook.kinds.getD []).contains kind)) = false ↔ OfKind hook kinds := by
  unfold OfKind
  cases filtered hook.kinds with
  | false => simp only [Bool.false_and, Bool.false_eq_true, false_imp_iff]
  | true =>
    rw [Bool.true_and, Bool.or_eq_false_iff, Bool.not_eq_false', any_eq_true]
    refine ⟨fun h _ => h.2, fun h => ⟨?_, h rfl⟩⟩
    obtain ⟨kind, hkind, -⟩ := h rfl
    rw [isEmpty_eq_false_iff]
    exact ne_nil_of_mem hkind

theorem matchFsChanged_iff (payload : Fields) : (matchFsChanged glob hook payload).matched = true ↔
    (∃ path ∈ (collectFsPaths payload).paths, Passes glob hook path) ∧
      OfKind hook (collectFsPaths payload).kinds := by
  unfold matchFsChanged
  dsimp only
  have hpass : (∃ path ∈ (collectFsPaths payload).paths, Passes glob hook path) ↔
      ((collectFsPaths payload).paths.filter (isActive glob hook)) ≠ [] ∧
        matchesAny glob hook.paths ((collectFsPaths payload).paths.filter (isActive glob hook)) := by
    constructor
    · rintro ⟨path, hpath, hactive, hmatches⟩
      have hmem := mem_filter.mpr ⟨hpath, hactive⟩
      exact ⟨ne_nil_of_mem hmem, (matchesAny_iff (ne_nil_of_mem hmem)).mpr
        ⟨path, hmem, hmatches⟩⟩
    · rintro ⟨hne, hmatches⟩
      obtain ⟨path, hmem, hpath⟩ := (matchesAny_iff hne).mp hmatches
      obtain ⟨hin, hactive⟩ := mem_filter.mp hmem
      exact ⟨path, hin, hactive, hpath⟩
  rw [hpass, ← kind_filter_iff, ← Bool.not_eq_true]
  have hsome : (collectFsPaths payload).paths.isEmpty = true →
      (collectFsPaths payload).paths.filter (isActive glob hook) = [] := by
    intro hempty
    rw [List.isEmpty_iff.mp hempty]
    rfl
  split
  · next hresync =>
    rw [hsome (Bool.and_eq_true_iff.mp hresync).2]
    exact ⟨nofun, fun h => absurd rfl h.1.1⟩
  split
  · next hempty =>
    rw [hsome hempty]
    exact ⟨nofun, fun h => absurd rfl h.1.1⟩
  split
  · next hignored =>
    rw [List.isEmpty_iff.mp hignored]
    exact ⟨nofun, fun h => absurd rfl h.1.1⟩
  split
  · next hpaths =>
    refine ⟨nofun, fun h => ?_⟩
    rw [h.1.2] at hpaths
    cases hpaths
  split
  · next hkinds => exact ⟨nofun, fun h => absurd hkinds h.2⟩
  · next hactive hpaths hkinds =>
    refine ⟨fun _ => ⟨⟨?_, ?_⟩, hkinds⟩, fun _ => rfl⟩
    · exact fun hnil => hactive (List.isEmpty_iff.mpr hnil)
    · simpa using hpaths

/-! ## Batches -/

/-- The event with other changes. -/
def withChanges (payload : Fields) (changes : List Json) : Fields :=
  payload.set "changes" (.arr changes)

theorem matchFsChanged_withChanges (payload : Fields) (changes : List Json) :
    (matchFsChanged glob hook (withChanges payload changes)).matched = true ↔
      (∃ change ∈ changes, ∃ path ∈ pathsOf change, Passes glob hook path) ∧
        (filtered hook.kinds = true → ∃ change ∈ changes, ∃ kind ∈ kindsOf change,
          (hook.kinds.getD []).contains kind = true) := by
  have hchanges : (withChanges payload changes).get? "changes" = some (.arr changes) := by
    unfold withChanges
    rw [Fields.get?_set, if_pos rfl]
  rw [matchFsChanged_iff]
  unfold OfKind collectFsPaths
  rw [hchanges]
  simp only [mem_eraseDups, mem_flatMap]
  constructor
  · rintro ⟨⟨path, ⟨change, hchange, hpath⟩, hpasses⟩, hkinds⟩
    refine ⟨⟨change, hchange, path, hpath, hpasses⟩, fun hfilter => ?_⟩
    obtain ⟨kind, ⟨other, hother, hkind⟩, hnamed⟩ := hkinds hfilter
    exact ⟨other, hother, kind, hkind, hnamed⟩
  · rintro ⟨⟨change, hchange, path, hpath, hpasses⟩, hkinds⟩
    refine ⟨⟨path, ⟨change, hchange, hpath⟩, hpasses⟩, fun hfilter => ?_⟩
    obtain ⟨other, hother, kind, hkind, hnamed⟩ := hkinds hfilter
    exact ⟨kind, ⟨other, hother, hkind⟩, hnamed⟩

theorem hook_matches_batch (glob : String → String → Bool) (hook : SpaceHookDefinition)
    (payload : Fields) (changes : List Json) :
    let on (hook : SpaceHookDefinition) (changes : List Json) : Prop :=
      (matchFsChanged glob hook (withChanges payload changes)).matched = true
    (on hook changes ↔ (∃ change ∈ changes, on { hook with kinds := none } [change]) ∧
      (filtered hook.kinds = true → ∃ change ∈ changes, ∃ kind ∈ kindsOf change,
        (hook.kinds.getD []).contains kind = true)) ∧
    ((∃ change ∈ changes, on hook [change]) → on hook changes) ∧
    (filtered hook.kinds = false → (on hook changes ↔ ∃ change ∈ changes, on hook [change])) := by
  simp only [matchFsChanged_withChanges, List.mem_singleton, exists_eq_left]
  refine ⟨?_, ?_, fun hnone => ?_⟩
  · refine and_congr_left fun _ => exists_congr fun change => and_congr_right fun _ => ?_
    exact ⟨fun h => ⟨h, nofun⟩, fun h => h.1⟩
  · rintro ⟨change, hchange, hpasses, hkinds⟩
    exact ⟨⟨change, hchange, hpasses⟩, fun hfilter => ⟨change, hchange, hkinds hfilter⟩⟩
  · rw [hnone]
    simp only [Bool.false_eq_true, false_imp_iff, and_true]

theorem kinds_travel_apart :
    let hook : SpaceHookDefinition :=
      { paths := some ["note"], ignore := none, kinds := some ["create"] }
    let changed := Json.obj [("kind", .str "modify"), ("path", .str "note")]
    let created := Json.obj [("kind", .str "create"), ("path", .str "code")]
    let on (changes : List Json) : Bool :=
      (matchFsChanged (fun pattern path => pattern == path) hook (withChanges [] changes)).matched
    on [changed, created] = true ∧ on [changed] = false ∧ on [created] = false := by
  decide +kernel

end

end Cohub.Hooks
