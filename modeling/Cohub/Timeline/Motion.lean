import Mathlib.Algebra.Order.Field.Basic
import Mathlib.Tactic.FieldSimp
import Mathlib.Tactic.Ring
import Cohub.Timeline.Sampling

/-! # Plain motion

    What a track without easings is worth between its keyframes: it steps, or
    its numbers, points or scales move in a straight line.  Such a track can be
    cut anywhere and each half goes on as before. -/

namespace Cohub.Timeline

open Number Cohub.Board List

/-! ## Between two keyframes -/

/-- How a track gets from one value to the next. -/
inductive Motion where
  | steps | number | point | scale
  deriving DecidableEq

/-- The motion of a track of the given kind; colors and splines have none. -/
def motionOf (interpolation : TrackInterpolation) (kind : BoardValueKind) : Option Motion :=
  if interpolation = .step then some .steps
  else match kind with
    | .discrete => some .steps
    | .number => some .number
    | .vec2 => if interpolation = .spline then none else some .point
    | .scale => some .scale
    | .color => none

/-- The point on the way from one value to another. -/
def pointBetween (a b : Json) (progress : Rat) : Json :=
  BoardVec2.toJson { x := lerp (toVec a).x (toVec b).x progress
                     y := lerp (toVec a).y (toVec b).y progress }

/-- The value on the way from one value to another. -/
def Motion.between (motion : Motion) (a b : Json) (progress : Rat) : Json :=
  match motion with
  | .steps => a
  | .number =>
      match a, b with
      | .num x, .num y => .num (lerp x y progress)
      | _, _ => a
  | .point => pointBetween a b progress
  | .scale =>
      match a, b with
      | .num x, .num y => .num (lerp x y progress)
      | _, _ => pointBetween a b progress

theorem blendValues_motion {rules : SampleRules} {c : CompiledTrack}
    {interpolation : TrackInterpolation} {motion : Motion}
    (hmotion : motionOf interpolation c.kind = some motion)
    (hstep : c.step = decide (interpolation = .step ∨ c.kind = .discrete))
    (hspline : c.spline = decide (interpolation = .spline ∧ c.kind = .vec2)) (before : Option Json)
    (a b : Json) (after : Option Json) {progress : Rat} (hprogress : progress < 1) :
    blendValues rules c before a b after progress = motion.between a b progress := by
  have hnot : ¬ 1 ≤ progress := not_le.mpr hprogress
  unfold motionOf at hmotion
  by_cases hinterpolation : interpolation = .step
  · rw [if_pos hinterpolation] at hmotion
    obtain rfl := Option.some.inj hmotion
    simp [blendValues, hstep, hinterpolation, hnot, Motion.between]
  · rw [if_neg hinterpolation] at hmotion
    cases hkind : c.kind with
    | discrete =>
      obtain rfl : Motion.steps = motion := by simpa [hkind] using hmotion
      simp [blendValues, hstep, hkind, hnot, Motion.between]
    | number =>
      obtain rfl : Motion.number = motion := by simpa [hkind] using hmotion
      cases a <;> cases b <;>
        simp [blendValues, hstep, hinterpolation, hkind, Motion.between]
    | vec2 =>
      have hplain : interpolation ≠ .spline := by
        intro h
        simp [hkind, h] at hmotion
      obtain rfl : Motion.point = motion := by simpa [hkind, hplain] using hmotion
      simp [blendValues, hstep, hspline, hinterpolation, hplain, hkind, Motion.between,
        pointBetween]
    | scale =>
      obtain rfl : Motion.scale = motion := by simpa [hkind] using hmotion
      cases a <;> cases b <;>
        simp [blendValues, hstep, hspline, hinterpolation, hkind, Motion.between, pointBetween]
    | color => simp [hkind] at hmotion

theorem lerp_zero (a b : Rat) : lerp a b 0 = a := by
  rw [lerp]; ring

theorem toVec_toJson (v : BoardVec2) : toVec v.toJson = v := rfl

theorem lerp_first (x y p q : Rat) (hq : q ≠ 0) : lerp x (lerp x y q) (p / q) = lerp x y p := by
  unfold lerp
  field_simp
  ring

theorem lerp_second (x y p q : Rat) (hq : 1 - q ≠ 0) :
    lerp (lerp x y q) y ((p - q) / (1 - q)) = lerp x y p := by
  unfold lerp
  field_simp
  ring

theorem between_first (motion : Motion) (a b : Json) (p q : Rat) (hq : q ≠ 0) :
    motion.between a (motion.between a b q) (p / q) = motion.between a b p := by
  have hpoint : pointBetween a (pointBetween a b q) (p / q) = pointBetween a b p := by
    simp only [pointBetween, toVec_toJson, lerp_first _ _ _ _ hq]
  cases motion with
  | steps => rfl
  | point => exact hpoint
  | number =>
    cases a with
    | num x =>
      cases b with
      | num y => exact congrArg Json.num (lerp_first x y p q hq)
      | _ => exact congrArg Json.num (lerp_self x _)
    | _ => rfl
  | scale =>
    cases a with
    | num x =>
      cases b with
      | num y => exact congrArg Json.num (lerp_first x y p q hq)
      | _ => exact hpoint
    | _ => exact hpoint

theorem between_second (motion : Motion) (a b : Json) (p q : Rat) (hq : 1 - q ≠ 0) :
    motion.between (motion.between a b q) b ((p - q) / (1 - q)) = motion.between a b p := by
  have hpoint : pointBetween (pointBetween a b q) b ((p - q) / (1 - q)) = pointBetween a b p := by
    simp only [pointBetween, toVec_toJson, lerp_second _ _ _ _ hq]
  cases motion with
  | steps => rfl
  | point => exact hpoint
  | number =>
    cases a with
    | num x =>
      cases b with
      | num y => exact congrArg Json.num (lerp_second x y p q hq)
      | _ => rfl
    | _ => rfl
  | scale =>
    cases a with
    | num x =>
      cases b with
      | num y => exact congrArg Json.num (lerp_second x y p q hq)
      | _ => exact hpoint
    | _ => exact hpoint

/-! ## What keyframes are worth -/

/-- What keyframes are worth at a time under a plain motion. -/
def valueAt (motion : Motion) : List BoardKeyframe → Rat → Option Json
  | [], _ => none
  | [a], _ => some a.value
  | a :: b :: rest, u =>
      if u < b.at_ then
        if u < a.at_ then some a.value
        else some (motion.between a.value b.value ((u - a.at_) / (b.at_ - a.at_)))
      else valueAt motion (b :: rest) u

variable {motion : Motion} {rest : List BoardKeyframe} {a b : BoardKeyframe} {u : Rat}
  {front : List BoardKeyframe} {cut : BoardKeyframe}

theorem valueAt_append (hfront : ∀ k ∈ front.drop 1, k.at_ ≤ u) (ha : a.at_ ≤ u) :
    valueAt motion (front ++ a :: rest) u = valueAt motion (a :: rest) u := by
  induction front with
  | nil => rfl
  | cons x front ih =>
    cases front with
    | nil =>
      show valueAt motion (x :: a :: rest) u = _
      rw [valueAt, if_neg (not_lt.mpr ha)]
    | cons y front =>
      have hy : y.at_ ≤ u := hfront y mem_cons_self
      show valueAt motion (x :: y :: (front ++ a :: rest)) u = _
      rw [valueAt, if_neg (not_lt.mpr hy)]
      exact ih fun k hk => hfront k (mem_cons_of_mem _ hk)

theorem valueAt_before
    (h : InOrder (a :: rest)) (hu : u < a.at_) : valueAt motion (a :: rest) u = some a.value := by
  cases rest with
  | nil => rfl
  | cons b rest =>
    have hab : a.at_ ≤ b.at_ := (pairwise_cons.mp h.sorted).1 b mem_cons_self
    rw [valueAt, if_pos (lt_of_lt_of_le hu hab), if_pos hu]

theorem valueAt_take (h : InOrder (front ++ b :: rest)) (hu : u < b.at_) :
    valueAt motion (front ++ b :: rest) u = valueAt motion (front ++ [b]) u := by
  induction front with
  | nil => exact valueAt_before h hu
  | cons x front ih =>
    have hrest : InOrder (front ++ b :: rest) := h.sublist (sublist_cons_self _ _)
    cases front with
    | nil =>
      show valueAt motion (x :: b :: rest) u = valueAt motion (x :: b :: []) u
      rw [valueAt, valueAt, if_pos hu, if_pos hu]
    | cons y front =>
      show valueAt motion (x :: y :: (front ++ b :: rest)) u =
        valueAt motion (x :: y :: (front ++ [b])) u
      rw [valueAt, valueAt]
      split
      · rfl
      · exact ih hrest

theorem valueAt_shift (keyframes : List BoardKeyframe) (shift u : Rat) :
    valueAt motion (shiftKeyframes keyframes shift) (u + shift) = valueAt motion keyframes u := by
  induction keyframes with
  | nil => rfl
  | cons a rest ih =>
    cases rest with
    | nil => rfl
    | cons b rest =>
      show valueAt motion ({ a with at_ := a.at_ + shift } :: { b with at_ := b.at_ + shift } ::
        shiftKeyframes rest shift) (u + shift) = _
      rw [valueAt, valueAt]
      have hprogress : (u + shift - (a.at_ + shift)) / (b.at_ + shift - (a.at_ + shift)) =
          (u - a.at_) / (b.at_ - a.at_) := by
        rw [add_sub_add_right_eq_sub, add_sub_add_right_eq_sub]
      simp only [add_lt_add_iff_right, hprogress]
      split
      · rfl
      · exact ih

section

variable (hacut : a.at_ < cut.at_) (hcutb : cut.at_ < b.at_)
  (hvalue : cut.value = motion.between a.value b.value ((cut.at_ - a.at_) / (b.at_ - a.at_)))
include hacut hcutb hvalue

theorem valueAt_cut_first
    (hu : u < cut.at_) : valueAt motion [a, cut] u = valueAt motion [a, b] u := by
  have hpos : 0 < b.at_ - a.at_ := by linarith
  rw [valueAt, if_pos hu, valueAt, if_pos (hu.trans hcutb), hvalue]
  split
  · rfl
  · have hfirst := between_first motion a.value b.value ((u - a.at_) / (b.at_ - a.at_))
      ((cut.at_ - a.at_) / (b.at_ - a.at_)) (div_ne_zero (by linarith) (by linarith))
    rw [div_div_div_cancel_right₀ hpos.ne'] at hfirst
    rw [hfirst]

theorem valueAt_cut_second {b' : BoardKeyframe}
    (hat : b'.at_ = b.at_) (hval : b'.value = b.value) (hu : cut.at_ ≤ u) :
    valueAt motion (cut :: b' :: rest) u = valueAt motion (a :: b :: rest) u := by
  have hpos : 0 < b.at_ - a.at_ := by linarith
  have hrest : 0 < b.at_ - cut.at_ := by linarith
  rw [valueAt, valueAt, hat, hval]
  split
  · rw [if_neg (not_lt.mpr hu), if_neg (not_lt.mpr (hacut.le.trans hu)), hvalue]
    have hq : 1 - (cut.at_ - a.at_) / (b.at_ - a.at_) = (b.at_ - cut.at_) / (b.at_ - a.at_) := by
      field_simp
      ring
    have hp : (u - a.at_) / (b.at_ - a.at_) - (cut.at_ - a.at_) / (b.at_ - a.at_) =
        (u - cut.at_) / (b.at_ - a.at_) := by
      rw [← sub_div, sub_sub_sub_cancel_right]
    have hsecond := between_second motion a.value b.value ((u - a.at_) / (b.at_ - a.at_))
      ((cut.at_ - a.at_) / (b.at_ - a.at_)) (by rw [hq]; exact (div_pos hrest hpos).ne')
    rw [hq, hp, div_div_div_cancel_right₀ hpos.ne'] at hsecond
    rw [hsecond]
  · cases rest with
    | nil => rw [valueAt, valueAt, hval]
    | cons c rest => rw [valueAt, valueAt, hat, hval]

/-! ## Plain tracks -/

/-- No easing, or one that is linear. -/
def LinearEase : Option String → Prop
  | none => True
  | some ease => ease = "" ∨ Text.trim ease = "linear"

end

theorem boardEase_linear {ease : Option String} (h : LinearEase ease) (rules : SampleRules)
    (progress : Rat) : boardEase rules ease progress = progress := by
  cases ease with
  | none => rfl
  | some ease =>
    have hlinear : ease = "" ∨ Text.trim ease = "linear" := h
    rw [boardEase, if_pos hlinear]

/-- A track with linear easings whose values step or move in a straight line. -/
structure PlainTrack (text : TextRules) (type : String) (track : BoardTrack) (motion : Motion) :
    Prop where
  valid  : ValidKeyframes track.keyframes
  linear : ∀ k ∈ track.keyframes, LinearEase k.ease
  moves  : ∃ spec, resolveBoardProperty text type track.property = .ok spec ∧
    motionOf track.interpolation (trackKind text spec track type) = some motion

theorem take_append_drop_getElem {keyframes : List BoardKeyframe} {i : Nat}
    (ha : keyframes[i]? = some a) :
    keyframes = keyframes.take i ++ a :: keyframes.drop (i + 1) := by
  obtain ⟨hlt, rfl⟩ := List.getElem?_eq_some_iff.mp ha
  rw [← drop_eq_getElem_cons hlt, take_append_drop]

theorem PlainTrack.sampleOf_eq {text : TextRules} {type : String} {track : BoardTrack}
    (h : PlainTrack text type track motion) (rules : SampleRules) (u : Rat) :
    sampleOf text rules type track u = valueAt motion track.keyframes u := by
  obtain ⟨spec, hspec, hmotion⟩ := h.moves
  have horder := h.valid.toInOrder
  obtain ⟨first, hfirst⟩ := exists_head h.valid.nonempty
  rcases lt_or_ge u first.at_ with hlt | hle
  · rw [sampleOf_before track hspec hfirst hlt]
    obtain ⟨rest, hrest⟩ : ∃ rest, track.keyframes = first :: rest := by
      cases hk : track.keyframes with
      | nil => simp [hk] at hfirst
      | cons x rest => exact ⟨rest, by rw [Option.some.inj ((hk ▸ hfirst : (x :: rest).head? = _))]⟩
    rw [hrest] at horder ⊢
    exact (valueAt_before horder hlt).symm
  · obtain ⟨i, -, haround⟩ := keyframeIndex_around horder hfirst hle
    obtain ⟨a, ha, hau⟩ := haround.at_le
    rw [sampleOf_around track hspec horder haround]
    have hfront : ∀ k ∈ (track.keyframes.take i).drop 1, k.at_ ≤ u := by
      intro k hk
      obtain ⟨j, hj⟩ := mem_iff_getElem?.mp (mem_of_mem_drop hk)
      rw [getElem?_take] at hj
      split at hj
      · exact le_trans (horder.le_of_lt (by omega) hj ha) hau
      · cases hj
    have hvalue : valueAt motion track.keyframes u =
        valueAt motion (a :: track.keyframes.drop (i + 1)) u := by
      conv_lhs => rw [take_append_drop_getElem ha]
      exact valueAt_append hfront hau
    rw [hvalue]
    cases hnext : track.keyframes.drop (i + 1) with
    | nil =>
      have hnone : track.keyframes[i + 1]? = none := by
        rw [← head?_drop, hnext]
        rfl
      simp [blend, compiledTrack, getElem?_map, ha, hnone, valueAt]
    | cons b rest =>
      have hb : track.keyframes[i + 1]? = some b := by
        rw [← head?_drop, hnext]
        rfl
      have hub : u < b.at_ := haround.lt_at (i + 1) b (Nat.lt_succ_self i) hb
      have hprogress : (u - a.at_) / (b.at_ - a.at_) < 1 :=
        (div_lt_one (by linarith)).mpr (by linarith)
      rw [valueAt, if_pos hub, if_neg (not_lt.mpr hau)]
      simp only [blend, compiledTrack, getElem?_map, ha, hb, Option.map_some,
        if_neg (not_le.mpr (lt_of_le_of_lt hau hub)), Option.getD_some,
        boardEase_linear (h.linear b (mem_of_getElem? hb))]
      exact congrArg some (blendValues_motion hmotion rfl rfl _ _ _ _ hprogress)

end Cohub.Timeline
