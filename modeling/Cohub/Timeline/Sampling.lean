import Cohub.Lib.Bisect
import Cohub.Timeline.Validity

/-! # Sampling a track

    `packages/sdk/src/board/model/animation.ts`: what a track is worth at a
    time.

    Times and progress are rational numbers.  What an easing but `linear`
    does to the progress, and how the caller resolves a color, are parameters
    (`SampleRules`).  No stored track has a property that its table of
    properties inherits, and none of those is compiled here. -/

namespace Cohub.Timeline

open Number Cohub.Board List Option

/-! ## Values -/

abbrev BoardEaseFunction := Rat → Rat

/-- A resolved color; one given as a number is opaque. -/
structure ResolvedColor where
  color : Int
  alpha : Rat

/-- The functions of the easings, and `BoardColorResolver`. -/
structure SampleRules where
  ease         : String → BoardEaseFunction
  resolveColor : Json → Option ResolvedColor

def boardEase (rules : SampleRules) : Option String → BoardEaseFunction
  | none => fun x => x
  | some ease =>
      if ease = "" ∨ Text.trim ease = "linear" then fun x => x else rules.ease (Text.trim ease)

structure BoardVec2 where
  x : Rat
  y : Rat
  deriving DecidableEq

/-- A point as a value. -/
def BoardVec2.toJson (v : BoardVec2) : Json := .obj [("x", .num v.x), ("y", .num v.y)]

def toVec (value : Json) : BoardVec2 :=
  match value with
  | .num n => { x := n, y := n }
  | _ =>
      match (value.get? "x").bind Json.asNum?, (value.get? "y").bind Json.asNum? with
      | some x, some y => { x := x, y := y }
      | _, _ => { x := 0, y := 0 }

def lerp (a b t : Rat) : Rat := a + (b - a) * t

theorem lerp_self (a t : Rat) : lerp a a t = a := by
  rw [lerp, sub_self, zero_mul, add_zero]

def catmullRom (p0 p1 p2 p3 t : Rat) : Rat :=
  let t2 := t * t
  let t3 := t2 * t
  1 / 2 * (2 * p1 + (-p0 + p2) * t + (2 * p0 - 5 * p1 + 4 * p2 - p3) * t2 +
    (-p0 + 3 * p1 - 3 * p2 + p3) * t3)

/-! ### Colors -/

/-- `n.toString(16).padStart(width, "0")`. -/
def hexDigits (width n : Nat) : String :=
  let digits := Nat.toDigits 16 n
  String.ofList (List.replicate (width - digits.length) '0' ++ digits)

/-- `hex`, for whole numbers. -/
def hex (color : Int) : String := "#" ++ hexDigits 6 (max 0 (min 0xffffff color)).toNat

/-- `(color >> shift) & 0xff`. -/
def byteAt (color : Int) (shift : Nat) : Int := (color >>> shift) % 256

/-- `channel` of `mixColor`. -/
def channel (from_ to_ : ResolvedColor) (alpha t : Rat) (shift : Nat) : Int :=
  if 0 < alpha then
    (Number.round (lerp (byteAt from_.color shift * from_.alpha)
      (byteAt to_.color shift * to_.alpha) t / alpha)).floor
  else 0

def mixColor (rules : SampleRules) (a b : Json) (t : Rat) : Json :=
  match rules.resolveColor a, rules.resolveColor b with
  | some from_, some to_ =>
      let alpha := lerp from_.alpha to_.alpha t
      let part := fun shift => BitVec.ofInt 32 (channel from_ to_ alpha t shift)
      let rgb := hex (part 16 <<< 16 ||| part 8 <<< 8 ||| part 0).toInt
      if 1 ≤ alpha then .str rgb
      else .str (rgb ++ hexDigits 2 (Number.round (maximum 0 alpha * 255)).floor.toNat)
  | _, _ => if t < 1 then a else b

/-! ## Compiled tracks -/

structure CompiledTrack where
  id : String
  animationId : String
  target : String
  property : String
  path : List String
  kind : BoardValueKind
  multiplicative : Bool
  composite : TrackComposite
  spline : Bool
  step : Bool
  orient : Bool
  times : List Rat
  values : List Json
  eases : List BoardEaseFunction
  start : Rat

section Compile

variable (text : TextRules)

def parameterKind (keyframes : List BoardKeyframe) : BoardValueKind :=
  if keyframes.all fun keyframe => keyframe.value.asNum?.isSome then .number
  else if keyframes.all fun keyframe =>
      ((boardColorSchema text).parse (some keyframe.value)).isOk then .color
  else .discrete

def isMultiplicative (targetType property : String) (kind : BoardValueKind) : Bool :=
  if targetType = boardCameraTarget then property = "zoom"
  else property = "opacity" || kind = .scale

def trackKind (spec : BoardPropertySpec) (track : BoardTrack) (targetType : String) :
    BoardValueKind :=
  if targetType = "script" ∨ "script.params.".toList.isPrefixOf track.property.toList then
    parameterKind text track.keyframes
  else spec.kind

/-- The compiled track of a property that a target has. -/
def compiledTrack (rules : SampleRules) (animationId id : String) (track : BoardTrack)
    (targetType : String) (spec : BoardPropertySpec) : CompiledTrack :=
  let kind := trackKind text spec track targetType
  { id := id
    animationId := animationId
    target := track.target
    property := track.property
    path := (Text.splitAt (· == '.') track.property).map String.ofList
    kind := kind
    multiplicative := isMultiplicative targetType track.property spec.kind
    composite := track.composite
    spline := track.interpolation = .spline ∧ kind = .vec2
    step := track.interpolation = .step ∨ kind = .discrete
    orient := track.orient = some true ∧ kind = .vec2 ∧ track.property = "position"
    times := track.keyframes.map BoardKeyframe.at_
    values := track.keyframes.map BoardKeyframe.value
    eases := track.keyframes.map fun keyframe => boardEase rules keyframe.ease
    start := track.keyframes.head?.elim 0 BoardKeyframe.at_ }

def compileBoardTrack (rules : SampleRules) (animationId id : String) (track : BoardTrack)
    (targetType : String) : Option CompiledTrack :=
  match resolveBoardProperty text targetType track.property with
  | .ok spec => some (compiledTrack text rules animationId id track targetType spec)
  | _ => none

end Compile

theorem asNum?_eq_some {v : Json} {n : Rat} (h : v.asNum? = some n) : v = .num n := by
  cases v with
  | num m => rw [Option.some.inj h]
  | _ => cases h

variable {text : TextRules} {keyframes : List BoardKeyframe} {time : Rat} {i j : Nat}
    {k : BoardKeyframe}

theorem parameterKind_eq_number_iff :
    parameterKind text keyframes = .number ↔ ∀ k ∈ keyframes, k.value.asNum?.isSome := by
  refine ⟨fun h => ?_, fun h => by rw [parameterKind, if_pos (all_eq_true.mpr h)]⟩
  unfold parameterKind at h
  split at h
  · exact all_eq_true.mp ‹_›
  · split at h <;> cases h

/-! ## Sampling -/

/-- `keyframeIndex`; none for the time before the first keyframe. -/
def keyframeIndex (times : List Rat) (time : Rat) : Option Nat :=
  match times.head?, times.getLast? with
  | some first, some last =>
      if time < first then none
      else if last ≤ time then some (times.length - 1)
      else some (Bisect.lastIndex (fun i => times[i]?.any (· ≤ time)) times.length 0
        (times.length - 1))
  | _, _ => some 0

/-- The value of `blend` between two keyframes, `before` and `after` being the
    values around them. -/
def blendValues (rules : SampleRules) (track : CompiledTrack) (before : Option Json)
    (from_ to_ : Json) (after : Option Json) (progress : Rat) : Json :=
  if track.step then if 1 ≤ progress then to_ else from_
  else
    -- `values[index - 1] ?? from` and `values[index + 2] ?? to`
    let p0 := toVec ((before.filter (· ≠ .null)).getD from_)
    let p3 := toVec ((after.filter (· ≠ .null)).getD to_)
    let a := toVec from_
    let b := toVec to_
    let point : Json :=
      if track.spline then
        BoardVec2.toJson { x := catmullRom p0.x a.x b.x p3.x progress
                           y := catmullRom p0.y a.y b.y p3.y progress }
      else BoardVec2.toJson { x := lerp a.x b.x progress, y := lerp a.y b.y progress }
    match track.kind with
    | .number =>
        match from_, to_ with
        | .num from_, .num to_ => .num (lerp from_ to_ progress)
        | _, _ => from_
    | .vec2 => point
    | .scale =>
        match from_, to_ with
        | .num from_, .num to_ => .num (lerp from_ to_ progress)
        | _, _ => point
    | .color => mixColor rules from_ to_ progress
    | .discrete => if 1 ≤ progress then to_ else from_

/-- `values[index - 1]`. -/
def valueBefore (values : List Json) (index : Nat) : Option Json :=
  if index = 0 then none else values[index - 1]?

def blend (rules : SampleRules) (track : CompiledTrack) (index : Nat) (time : Rat) : Option Json :=
  match track.values[index]?, track.values[index + 1]?, track.times[index]?,
      track.times[index + 1]? with
  | some from_, some to_, some t0, some t1 =>
      if t1 ≤ t0 then some from_
      else
        let ease := track.eases[index + 1]?.getD fun x => x
        some (blendValues rules track (valueBefore track.values index) from_ to_
          track.values[index + 2]? (ease ((time - t0) / (t1 - t0))))
  | from_, _, _, _ => from_

def sampleBoardTrack (rules : SampleRules) (track : CompiledTrack) (time : Rat) : Option Json :=
  match keyframeIndex track.times time with
  | none => track.values.head?
  | some index => blend rules track index time

/-- What a track of a target of the given type is worth at a time; none where
    the target has no such property. -/
def sampleOf (text : TextRules) (rules : SampleRules) (targetType : String) (track : BoardTrack)
    (time : Rat) : Option Json :=
  (compileBoardTrack text rules "" "" track targetType).bind fun compiled =>
    sampleBoardTrack rules compiled time

def sampleTrack (text : TextRules) (rules : SampleRules) (document : BoardDocument)
    (track : BoardTrack) (time : Rat) : Json :=
  match (targetType document track.target).bind fun type =>
      compileBoardTrack text rules "" "" track type with
  | some compiled => (sampleBoardTrack rules compiled time).getD .null
  | none =>
      (((track.keyframes.reverse.find? fun keyframe => keyframe.at_ ≤ time).map
        BoardKeyframe.value).filter (· ≠ .null) <|>
        track.keyframes.head?.map BoardKeyframe.value).getD .null

/-! ## The keyframes around a time -/

/-- The keyframe at the index is not after the time, and every later one is. -/
structure Around (keyframes : List BoardKeyframe) (time : Rat) (index : Nat) : Prop where
  at_le : ∃ k, keyframes[index]? = some k ∧ k.at_ ≤ time
  lt_at : ∀ (j : Nat) (k : BoardKeyframe), index < j → keyframes[j]? = some k → time < k.at_

theorem Around.unique (hi : Around keyframes time i) (hj : Around keyframes time j) : i = j := by
  obtain ⟨a, ha, hat⟩ := hi.at_le
  obtain ⟨b, hb, hbt⟩ := hj.at_le
  rcases lt_trichotomy i j with hlt | heq | hgt
  · exact absurd (hi.lt_at j b hlt hb) (not_lt.mpr hbt)
  · exact heq
  · exact absurd (hj.lt_at i a hgt ha) (not_lt.mpr hat)

theorem InOrder.le_of_lt (h : InOrder keyframes) {a b : BoardKeyframe} (hij : i ≤ j)
    (ha : keyframes[i]? = some a) (hb : keyframes[j]? = some b) : a.at_ ≤ b.at_ := by
  rcases Nat.eq_or_lt_of_le hij with rfl | hlt
  · rw [Option.some.inj (ha.symm.trans hb)]
  · obtain ⟨hi, rfl⟩ := List.getElem?_eq_some_iff.mp ha
    obtain ⟨hj, rfl⟩ := List.getElem?_eq_some_iff.mp hb
    exact pairwise_iff_getElem.mp h.sorted i j hi hj hlt

theorem keyframeIndex_around (h : InOrder keyframes) {first : BoardKeyframe}
    (hfirst : keyframes.head? = some first) (hle : first.at_ ≤ time) :
    ∃ index, keyframeIndex (keyframes.map BoardKeyframe.at_) time = some index ∧
      Around keyframes time index := by
  have hne : keyframes ≠ [] := by rintro rfl; simp at hfirst
  obtain ⟨last, hlast⟩ := exists_last hne
  have hlen : 0 < keyframes.length := length_pos_iff.mpr hne
  have hlastAt : keyframes[keyframes.length - 1]? = some last := by
    rw [← hlast, getLast?_eq_getElem?]
  unfold keyframeIndex
  rw [head?_map, getLast?_map, hfirst, hlast]
  simp only [map_some, if_neg (not_lt.mpr hle), length_map]
  split
  · rename_i hat
    refine ⟨keyframes.length - 1, rfl, ⟨last, hlastAt, hat⟩, ?_⟩
    intro j k hj hk
    obtain ⟨hj', -⟩ := List.getElem?_eq_some_iff.mp hk
    omega
  · -- the loop looks at the times that are not after `time`
    let p := fun i : Nat => (keyframes.map BoardKeyframe.at_)[i]?.any (· ≤ time)
    have hp : ∀ i k, keyframes[i]? = some k → (p i = true ↔ k.at_ ≤ time) := by
      intro i k hk
      simp [p, getElem?_map, hk]
    have hmono : ∀ i j, i ≤ j → p j = true → p i = true := by
      intro i j hij hj
      obtain ⟨b, hb⟩ : ∃ b, keyframes[j]? = some b := by
        cases hb : keyframes[j]? with
        | none => simp [p, getElem?_map, hb] at hj
        | some b => exact ⟨b, rfl⟩
      obtain ⟨hjlt, -⟩ := List.getElem?_eq_some_iff.mp hb
      have ha := getElem?_eq_getElem (lt_of_le_of_lt hij hjlt)
      exact (hp i _ ha).mpr (le_trans (h.le_of_lt hij ha hb) ((hp j b hb).mp hj))
    have hzero : p 0 = true := by
      refine (hp 0 first ?_).mpr hle
      rw [← hfirst, head?_eq_getElem?]
    obtain ⟨hr, hrle, hafter⟩ := Bisect.lastIndex_spec hmono keyframes.length 0
      (keyframes.length - 1) (by omega) (by omega) hzero
    refine ⟨_, rfl, ?_, ?_⟩
    · have hk := getElem?_eq_getElem
        (lt_of_le_of_lt hrle (by omega : keyframes.length - 1 < keyframes.length))
      exact ⟨_, hk, (hp _ _ hk).mp hr⟩
    · intro j k hj hk
      obtain ⟨hjlt, -⟩ := List.getElem?_eq_some_iff.mp hk
      have hnot := hafter j hj (by omega)
      refine not_le.mp fun hkt => ?_
      rw [(hp j k hk).mpr hkt] at hnot
      exact Bool.noConfusion hnot

/-! ### Where a time cuts -/

/-- The index of the first keyframe that is not before a time. -/
def cutIndex (keyframes : List BoardKeyframe) (time : Rat) : Nat :=
  keyframes.findIdx fun keyframe => time ≤ keyframe.at_

theorem before_cutIndex
    (hi : i < cutIndex keyframes time) (hk : keyframes[i]? = some k) : k.at_ < time := by
  obtain ⟨_, rfl⟩ := List.getElem?_eq_some_iff.mp hk
  have := not_of_lt_findIdx hi
  simpa using this

theorem cutIndex_le (hk : keyframes[cutIndex keyframes time]? = some k) : time ≤ k.at_ := by
  have := findIdx_of_getElem?_eq_some hk
  simpa using this

theorem InOrder.le_from_cutIndex (h : InOrder keyframes) (hi : cutIndex keyframes time ≤ i)
    (hk : keyframes[i]? = some k) : time ≤ k.at_ := by
  obtain ⟨hlt, -⟩ := List.getElem?_eq_some_iff.mp hk
  have hcut := getElem?_eq_getElem (lt_of_le_of_lt hi hlt)
  exact le_trans (cutIndex_le hcut) (h.le_of_lt hi hcut hk)

/-! ### What a track is worth -/

section Worth

variable {text : TextRules} {rules : SampleRules} {targetType : String} (track : BoardTrack)
  {spec : BoardPropertySpec}

theorem sampleOf_before (hspec : resolveBoardProperty text targetType track.property = .ok spec)
    {first : BoardKeyframe} (hfirst : track.keyframes.head? = some first) (hlt : time < first.at_) :
    sampleOf text rules targetType track time = some first.value := by
  obtain ⟨last, hlast⟩ := exists_last
    (by rintro h; simp [h] at hfirst : track.keyframes ≠ [])
  have hindex : keyframeIndex (track.keyframes.map BoardKeyframe.at_) time = none := by
    simp only [keyframeIndex, head?_map, getLast?_map, hfirst, hlast, map_some,
      if_pos hlt]
  simp only [sampleOf, compileBoardTrack, hspec, bind_some, sampleBoardTrack,
    compiledTrack, hindex, head?_map, hfirst, map_some]

theorem sampleOf_around (hspec : resolveBoardProperty text targetType track.property = .ok spec)
    (h : InOrder track.keyframes) {index : Nat} (haround : Around track.keyframes time index) :
    sampleOf text rules targetType track time =
      blend rules (compiledTrack text rules "" "" track targetType spec) index time := by
  obtain ⟨k, hk, hkt⟩ := haround.at_le
  obtain ⟨first, hfirst⟩ := exists_head
    (by rintro hnil; simp [hnil] at hk : track.keyframes ≠ [])
  obtain ⟨hlt, rfl⟩ := List.getElem?_eq_some_iff.mp hk
  obtain ⟨i, hi, hiaround⟩ := keyframeIndex_around h hfirst
    (le_trans (h.head_le hfirst _ (getElem_mem hlt)) hkt)
  rw [hiaround.unique haround] at hi
  simp only [sampleOf, compileBoardTrack, hspec, bind_some, sampleBoardTrack]
  rw [show (compiledTrack text rules "" "" track targetType spec).times =
    track.keyframes.map BoardKeyframe.at_ from rfl, hi]

theorem sampleOf_unresolved
    (hspec : ∀ spec, resolveBoardProperty text targetType track.property ≠ .ok spec) (time : Rat) :
    sampleOf text rules targetType track time = none := by
  unfold sampleOf compileBoardTrack
  split
  · rename_i spec h
    exact absurd h (hspec spec)
  · rfl

end Worth

/-- Two lists have the same keyframes around two indices. -/
structure SameWindow (a b : List BoardKeyframe) (i j : Nat) : Prop where
  here   : a[i]? = b[j]?
  next   : a[i + 1]? = b[j + 1]?
  after  : a[i + 2]? = b[j + 2]?
  first  : i = 0 ↔ j = 0
  before : i ≠ 0 → a[i - 1]? = b[j - 1]?

variable {spec : BoardPropertySpec}

theorem blend_window {rules : SampleRules} {targetType : String} {a b : BoardTrack}
    (hkind : trackKind text spec a targetType = trackKind text spec b targetType)
    (hinterpolation : a.interpolation = b.interpolation)
    (h : SameWindow a.keyframes b.keyframes i j) (time : Rat) :
    blend rules (compiledTrack text rules "" "" a targetType spec) i time =
      blend rules (compiledTrack text rules "" "" b targetType spec) j time := by
  have hbefore : valueBefore (a.keyframes.map BoardKeyframe.value) i =
      valueBefore (b.keyframes.map BoardKeyframe.value) j := by
    unfold valueBefore
    by_cases hi : i = 0
    · rw [if_pos hi, if_pos (h.first.mp hi)]
    · rw [if_neg hi, if_neg (fun hj => hi (h.first.mpr hj)), getElem?_map, getElem?_map,
        h.before hi]
  simp only [blend, compiledTrack, hbefore, getElem?_map, h.here, h.next, h.after,
    blendValues, hkind, hinterpolation]

/-! ## Visible tracks -/

variable {type : String}

theorem boardItemSchema_envelope {schema : Schema} (h : boardItemSchema text type = some schema) :
    ∃ script rest, withoutChecks (unwrap schema) = .object (itemEnvelope text script ++ rest) := by
  unfold boardItemSchema at h
  split at h
  · have hmem := OrderedMap.mem_of_lookupEntry h
    simp only [boardItemSchemas, mem_cons, not_mem_nil, or_false, Prod.mk.injEq] at hmem
    rcases hmem with h | h | h | h | h | h | h | h | h | h | h | h | h <;>
      rw [h.2] <;> exact ⟨_, _, rfl⟩
  · split at h
    · rw [← Option.some.inj h]
      exact ⟨_, _, rfl⟩
    · cases h

theorem readProperty_visible {table : List (String × BoardPropertySpec)} {message : String}
    (htable : visibleProperty ∉ table.map Prod.fst) :
    readProperty table visibleProperty message ≠ .ok spec := by
  intro h
  have hnone := (OrderedMap.lookupEntry_eq_none_iff visibleProperty table).mpr htable
  rw [readProperty, hnone] at h
  have hinherited : isInherited visibleProperty = false := by decide
  simp [hinherited] at h

theorem visible_kind (h : resolveBoardProperty text type visibleProperty = .ok spec)
    (track : BoardTrack) (htrack : track.property = visibleProperty) :
    trackKind text spec track type = .discrete := by
  have hparameter : "script.params.".toList.isPrefixOf visibleProperty.toList = false := by decide
  have hpath : (Text.splitAt (· == '.') visibleProperty).map String.ofList = ["visible"] := by decide
  unfold resolveBoardProperty at h
  split at h
  · exact absurd h (readProperty_visible (by decide))
  · split at h
    · exact absurd h (readProperty_visible (by decide))
    · split at h
      · rw [show isParameterOf "params." visibleProperty = false by decide] at h
        simp at h
      · rename_i hscript
        rw [show isParameterOf "script.params." visibleProperty = false by decide, hpath] at h
        rw [trackKind, htrack, hparameter, if_neg (by simpa using hscript)]
        simp only [Bool.false_eq_true, if_false] at h
        rw [if_neg (by decide)] at h
        cases hschema : boardItemSchema text type with
        | none => simp [hschema] at h
        | some schema =>
          obtain ⟨script, rest, hshape⟩ := boardItemSchema_envelope hschema
          have hleaf : schemaAtPath schema ["visible"] = .found (.optional .boolean) := by
            rw [schemaAtPath, hshape]
            rfl
          simp [hschema, hleaf] at h
          rw [← h]
          rfl

end Cohub.Timeline
