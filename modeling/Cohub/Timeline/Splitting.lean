import Mathlib.Algebra.Order.Field.Basic
import Mathlib.Tactic.Ring
import Cohub.Timeline.Sampling

/-! # When a split keeps the motion of a target

    `boardSplitTarget` of `packages/sdk/src/board/model/timeline.ts`.  Each
    part keeps the keyframes around the cut, so every easing, step and spline
    moves as before.

    Two things move otherwise.  The kind of a script parameter is read off all
    the keyframes of its track, and a part can have another kind than the
    whole.  And a visible track is written anew as the one block from its
    first to its last shown time. -/

namespace Cohub.Timeline

open Number Cohub.Board Option OrderedMap

/-! ## The keyframes of a part -/

/-- A part has at a time what the whole has around it. -/
inductive SamePlace (whole part : List BoardKeyframe) (time : Rat) : Prop where
  | before (first : BoardKeyframe) (hwhole : whole.head? = some first)
      (hpart : part.head? = some first) (hlt : time < first.at_)
  | around (i j : Nat) (hwhole : Around whole time i) (hpart : Around part time j)
      (hwindow : SameWindow part whole j i)

variable {keyframes : List BoardKeyframe} {time u : Rat}

theorem before_or_around (h : ValidKeyframes keyframes)
    (time : Rat) : (∃ first, keyframes.head? = some first ∧ time < first.at_) ∨
      ∃ i, Around keyframes time i := by
  obtain ⟨first, hfirst⟩ := exists_head h.nonempty
  rcases lt_or_ge time first.at_ with hlt | hle
  · exact .inl ⟨first, hfirst, hlt⟩
  · obtain ⟨i, -, hi⟩ := keyframeIndex_around h.toInOrder hfirst hle
    exact .inr ⟨i, hi⟩

theorem take_samePlace (h : ValidKeyframes keyframes) (hu : u < time) :
    SamePlace keyframes (keyframes.take (cutIndex keyframes time + 2)) u := by
  rcases before_or_around h u with ⟨first, hfirst, hlt⟩ | ⟨i, hi⟩
  · refine .before first hfirst ?_ hlt
    rw [List.head?_take, if_neg (by omega), hfirst]
  · obtain ⟨k, hk, hku⟩ := hi.at_le
    -- the keyframe around the time is before the cut
    have hicut : i < cutIndex keyframes time := by
      refine not_le.mp fun hle => ?_
      exact absurd (h.toInOrder.le_from_cutIndex hle hk) (not_le.mpr (lt_of_le_of_lt hku hu))
    have hget : ∀ j, j < cutIndex keyframes time + 2 →
        (keyframes.take (cutIndex keyframes time + 2))[j]? = keyframes[j]? :=
      fun j hj => List.getElem?_take_of_lt hj
    refine .around i i hi ⟨⟨k, by rw [hget i (by omega), hk], hku⟩, ?_⟩ ?_
    · intro j b hij hb
      rw [List.getElem?_take] at hb
      split at hb
      · exact hi.lt_at j b hij hb
      · exact absurd hb (by simp)
    · exact ⟨hget _ (by omega), hget _ (by omega), hget _ (by omega), Iff.rfl,
        fun _ => hget _ (by omega)⟩

theorem drop_samePlace (h : ValidKeyframes keyframes) (hu : time ≤ u) :
    SamePlace keyframes (keyframes.drop (cutIndex keyframes time - 2)) u := by
  rcases before_or_around h u with ⟨first, hfirst, hlt⟩ | ⟨i, hi⟩
  · -- the first keyframe is after the cut
    have hzero : cutIndex keyframes time = 0 := by
      by_contra hpos
      have := before_cutIndex (Nat.pos_of_ne_zero hpos) (List.head?_eq_getElem?.symm.trans hfirst)
      exact absurd (lt_of_lt_of_le this hu) (not_lt.mpr hlt.le)
    refine .before first hfirst ?_ hlt
    rw [hzero, List.drop_zero, hfirst]
  · obtain ⟨k, hk, hku⟩ := hi.at_le
    have hicut : cutIndex keyframes time ≤ i + 1 := by
      by_contra hlt
      obtain ⟨b, hb⟩ : ∃ b, keyframes[i + 1]? = some b :=
        ⟨_, List.getElem?_eq_getElem (lt_of_lt_of_le (not_le.mp hlt) List.findIdx_le_length)⟩
      have := before_cutIndex (not_le.mp hlt) hb
      exact absurd (hi.lt_at (i + 1) b (Nat.lt_succ_self i) hb)
        (not_lt.mpr (le_trans this.le hu))
    have hget : ∀ j, (keyframes.drop (cutIndex keyframes time - 2))[j]? =
        keyframes[cutIndex keyframes time - 2 + j]? := fun j => List.getElem?_drop
    refine .around i (i - (cutIndex keyframes time - 2)) hi ⟨⟨k, ?_, hku⟩, ?_⟩ ?_
    · rw [hget, ← hk]
      congr 1
      omega
    · intro j b hij hb
      rw [hget] at hb
      exact hi.lt_at _ b (by omega) hb
    · refine ⟨?_, ?_, ?_, by omega, ?_⟩
      · rw [hget]; congr 1; omega
      · rw [hget]; congr 1; omega
      · rw [hget]; congr 1; omega
      · intro hj
        rw [hget]; congr 1; omega

/-! ## Parts of one kind -/

section Parts

variable {text : TextRules} {targetType : String} {track : BoardTrack} {part : List BoardKeyframe}

/-- The kind by which a track of a target of the given type is sampled. -/
def sampledKind (text : TextRules) (targetType : String) (track : BoardTrack) :
    Option BoardValueKind :=
  match resolveBoardProperty text targetType track.property with
  | .ok spec => some (trackKind text spec track targetType)
  | _ => none

variable {rules : SampleRules} {u : Rat} {i : Nat} {a b : BoardKeyframe} {spec : BoardPropertySpec}

theorem sampleOf_samePlace (h : InOrder track.keyframes)
    (hpart : InOrder part)
    (hkind : sampledKind text targetType { track with keyframes := part } =
      sampledKind text targetType track)
    (hplace : SamePlace track.keyframes part u) :
    sampleOf text rules targetType { track with keyframes := part } u =
      sampleOf text rules targetType track u := by
  by_cases hspec : ∃ spec, resolveBoardProperty text targetType track.property = .ok spec
  · obtain ⟨spec, hspec⟩ := hspec
    rw [sampledKind, sampledKind, hspec] at hkind
    cases hplace with
    | before first hwhole hp hlt =>
      rw [sampleOf_before track hspec hwhole hlt,
        sampleOf_before { track with keyframes := part } hspec hp hlt]
    | around i j hwhole hp hwindow =>
      rw [sampleOf_around track hspec h hwhole,
        sampleOf_around { track with keyframes := part } hspec hpart hp]
      exact blend_window (Option.some.inj hkind) rfl hwindow u
  · have hnone : ∀ spec, resolveBoardProperty text targetType track.property ≠ .ok spec :=
      fun spec hs => hspec ⟨spec, hs⟩
    rw [sampleOf_unresolved track hnone,
      sampleOf_unresolved { track with keyframes := part } hnone]

/-! ### Between two keyframes -/

theorem blend_pair (rules : SampleRules) (targetType : String) (spec : BoardPropertySpec)
    (track : BoardTrack) (ha : track.keyframes[i]? = some a)
    (hb : track.keyframes[i + 1]? = some b) (hlt : a.at_ < b.at_) (u : Rat) :
    ∃ before after, blend rules (compiledTrack text rules "" "" track targetType spec) i u =
      some (blendValues rules (compiledTrack text rules "" "" track targetType spec) before a.value
        b.value after (boardEase rules b.ease ((u - a.at_) / (b.at_ - a.at_)))) := by
  refine ⟨valueBefore (track.keyframes.map BoardKeyframe.value) i,
    (track.keyframes.map BoardKeyframe.value)[i + 2]?, ?_⟩
  simp only [blend, compiledTrack, List.getElem?_map, ha, hb, map_some,
    if_neg (not_le.mpr hlt), getD_some]

theorem blend_single (rules : SampleRules) (targetType : String) (spec : BoardPropertySpec)
    (track : BoardTrack) (ha : track.keyframes[i]? = some a)
    (hb : ∀ b, track.keyframes[i + 1]? = some b → b.at_ ≤ a.at_) (u : Rat) :
    blend rules (compiledTrack text rules "" "" track targetType spec) i u = some a.value := by
  cases hnext : track.keyframes[i + 1]? with
  | none => simp [blend, compiledTrack, List.getElem?_map, ha, hnext]
  | some b =>
    simp only [blend, compiledTrack, List.getElem?_map, ha, hnext, map_some,
      if_pos (hb b hnext)]

variable {c : CompiledTrack}

theorem blendValues_step (h : c.step = true)
    (before : Option Json) (a b : Json) (after : Option Json) (progress : Rat) :
    blendValues rules c before a b after progress = if 1 ≤ progress then b else a := by
  unfold blendValues
  rw [if_pos h]

theorem blend_window_step (a b : BoardTrack)
    (ha : a.interpolation = .step) (hb : b.interpolation = .step) {j : Nat}
    (h : SameWindow a.keyframes b.keyframes i j) (u : Rat) :
    blend rules (compiledTrack text rules "" "" a targetType spec) i u =
      blend rules (compiledTrack text rules "" "" b targetType spec) j u := by
  have hstep : ∀ track : BoardTrack, track.interpolation = .step →
      (compiledTrack text rules "" "" track targetType spec).step = true :=
    fun track htrack => by simp [compiledTrack, htrack]
  simp only [blend, blendValues_step (hstep a ha), blendValues_step (hstep b hb)]
  simp only [compiledTrack, List.getElem?_map, h.here, h.next]

/-! ## Parts of another kind -/

theorem color_not_num (text : TextRules) (n : Rat) :
    ((boardColorSchema text).parse (some (.num n))).isOk = false := rfl

theorem parameterKind_part {keyframes : List BoardKeyframe} (hne : part ≠ [])
    (hsub : ∀ k ∈ part, k ∈ keyframes)
    (h : parameterKind text part ≠ parameterKind text keyframes) :
    parameterKind text keyframes = .discrete ∧
      (parameterKind text part = .number ∨ parameterKind text part = .color) := by
  have hpart : parameterKind text part = .number ∨ parameterKind text part = .color ∨
      parameterKind text part = .discrete := by
    unfold parameterKind
    split
    · exact .inl rfl
    · split
      · exact .inr (.inl rfl)
      · exact .inr (.inr rfl)
  by_cases hnum : ∀ k ∈ keyframes, k.value.asNum?.isSome
  · -- numbers throughout, in the part too
    rw [parameterKind_eq_number_iff.mpr hnum,
      parameterKind_eq_number_iff.mpr fun k hk => hnum k (hsub k hk)] at h
    exact absurd rfl h
  · by_cases hcolor : ∀ k ∈ keyframes, ((boardColorSchema text).parse (some k.value)).isOk
    · -- colors throughout; no keyframe of the part is a number
      have hwhole : parameterKind text keyframes = .color := by
        rw [parameterKind, if_neg (by simpa using hnum), if_pos (List.all_eq_true.mpr hcolor)]
      have hpartColor : parameterKind text part = .color := by
        have hnot : ¬ ∀ k ∈ part, k.value.asNum?.isSome := by
          intro hall
          obtain ⟨k, hk⟩ := List.exists_mem_of_ne_nil part hne
          obtain ⟨n, hn⟩ := isSome_iff_exists.mp (hall k hk)
          have hok := hcolor k (hsub k hk)
          cases hv : k.value with
          | num m => rw [hv, color_not_num] at hok; exact Bool.noConfusion hok
          | _ => rw [hv] at hn; simp [Json.asNum?] at hn
        rw [parameterKind, if_neg (by simpa using hnot),
          if_pos (List.all_eq_true.mpr fun k hk => hcolor k (hsub k hk))]
      exact absurd (hpartColor.trans hwhole.symm) h
    · have hwhole : parameterKind text keyframes = .discrete := by
        rw [parameterKind, if_neg (by simpa using hnum), if_neg (by simpa using hcolor)]
      rcases hpart with hp | hp | hp
      · exact ⟨hwhole, .inl hp⟩
      · exact ⟨hwhole, .inr hp⟩
      · exact absurd (hp.trans hwhole.symm) h

theorem sampledKind_part (hne : part ≠ []) (hsub : ∀ k ∈ part, k ∈ track.keyframes)
    (h : sampledKind text targetType { track with keyframes := part } ≠
      sampledKind text targetType track) :
    ∃ spec, resolveBoardProperty text targetType track.property = .ok spec ∧
      (∀ keyframes, trackKind text spec { track with keyframes := keyframes } targetType =
        parameterKind text keyframes) ∧
      parameterKind text track.keyframes = .discrete ∧
      (parameterKind text part = .number ∨ parameterKind text part = .color) := by
  cases hspec : resolveBoardProperty text targetType track.property with
  | ok spec =>
    rw [sampledKind, sampledKind, hspec] at h
    have hkind : trackKind text spec { track with keyframes := part } targetType ≠
        trackKind text spec track targetType := fun heq => h (congrArg some heq)
    have hparameter : targetType = "script" ∨
        "script.params.".toList.isPrefixOf track.property.toList := by
      by_contra hnot
      exact hkind (by rw [trackKind, trackKind, if_neg hnot, if_neg hnot])
    have hall : ∀ keyframes, trackKind text spec { track with keyframes := keyframes } targetType =
        parameterKind text keyframes := fun keyframes => by rw [trackKind, if_pos hparameter]
    exact ⟨spec, rfl, hall,
      parameterKind_part hne hsub fun heq => hkind ((hall part).trans (heq.trans (hall _).symm))⟩
  | unknown message => simp [sampledKind, hspec] at h
  | typeError => simp [sampledKind, hspec] at h

/-- Easings that are all linear, and every color opaque `color`. -/
def plainRules (color : Int) : SampleRules :=
  { ease := fun _ progress => progress
    resolveColor := fun _ => some { color := color, alpha := 1 } }

theorem boardEase_plain (color : Int) (ease : Option String) (progress : Rat) :
    boardEase (plainRules color) ease progress = progress := by
  cases ease with
  | none => rfl
  | some ease => simp only [boardEase]; split <;> rfl

theorem mixColor_plain (color : Int) (a b : Json) (t : Rat) :
    mixColor (plainRules color) a b t =
      .str (hex (BitVec.ofInt 32 (byteAt color 16) <<< 16 |||
        BitVec.ofInt 32 (byteAt color 8) <<< 8 ||| BitVec.ofInt 32 (byteAt color 0)).toInt) := by
  have hchannel : ∀ shift, channel ⟨color, 1⟩ ⟨color, 1⟩ 1 t shift = byteAt color shift := by
    intro shift
    rw [channel, if_pos (by decide), mul_one, lerp_self, div_one, round_intCast]
    exact Rat.floor_intCast _
  simp only [mixColor, plainRules, lerp_self, hchannel, le_refl, if_true]

theorem mixColor_black (a b : Json) (t : Rat) : mixColor (plainRules 0) a b t = .str "#000000" := by
  rw [mixColor_plain]
  decide

theorem mixColor_white (a b : Json) (t : Rat) :
    mixColor (plainRules 0xffffff) a b t = .str "#ffffff" := by
  rw [mixColor_plain]
  decide

theorem blendValues_self (h : c.step = true ∨ c.kind = .number) (before : Option Json) (v : Json)
    (after : Option Json) (progress : Rat) : blendValues rules c before v v after progress = v := by
  by_cases hstep : c.step = true
  · rw [blendValues_step hstep, ite_self]
  · have hkind := h.resolve_left hstep
    cases v with
    | num x => simp [blendValues, hstep, hkind, lerp_self]
    | _ => simp [blendValues, hstep, hkind]

variable (track) in
theorem sampleOf_discrete (hspec : resolveBoardProperty text targetType track.property = .ok spec)
    (hkind : trackKind text spec track targetType = .discrete) (h : InOrder track.keyframes)
    (haround : Around track.keyframes u i)
    (ha : track.keyframes[i]? = some a)
    (hease : ∀ b, track.keyframes[i + 1]? = some b → ∀ progress < 1,
      boardEase rules b.ease progress < 1) :
    sampleOf text rules targetType track u = some a.value := by
  rw [sampleOf_around track hspec h haround]
  by_cases hnext : ∀ b, track.keyframes[i + 1]? = some b → b.at_ ≤ a.at_
  · exact blend_single _ _ _ _ ha hnext u
  · simp only [not_forall, not_le] at hnext
    obtain ⟨b, hb, hlt⟩ := hnext
    obtain ⟨before, after, heq⟩ := blend_pair rules targetType spec track ha hb hlt u
    have hstep : (compiledTrack text rules "" "" track targetType spec).step = true := by
      simp [compiledTrack, hkind]
    have hub : u < b.at_ := haround.lt_at (i + 1) b (Nat.lt_succ_self i) hb
    have hprogress : (u - a.at_) / (b.at_ - a.at_) < 1 :=
      (div_lt_one (by linarith)).mpr (by linarith)
    rw [heq, blendValues_step hstep, if_neg (not_le.mpr (hease b hb _ hprogress))]

variable (track) in
theorem sampleOf_plain_number
    (hspec : resolveBoardProperty text targetType track.property = .ok spec)
    (hkind : trackKind text spec track targetType = .number) (hstep : track.interpolation ≠ .step)
    (h : InOrder track.keyframes) {x y : Rat} (ha : track.keyframes[i]? = some a)
    (hb : track.keyframes[i + 1]? = some b) (hau : a.at_ < u) (hub : u < b.at_)
    (hx : a.value = .num x) (hy : b.value = .num y) (color : Int)
    (hsame : sampleOf text (plainRules color) targetType track u = some a.value) :
    a.value = b.value := by
  have haround : Around track.keyframes u i := ⟨⟨a, ha, hau.le⟩, fun j k hj hk =>
    lt_of_lt_of_le hub (h.le_of_lt hj hb hk)⟩
  rw [sampleOf_around track hspec h haround] at hsame
  obtain ⟨before, after, heq⟩ :=
    blend_pair (plainRules color) targetType spec track ha hb (hau.trans hub) u
  rw [heq] at hsame
  have hlerp : lerp x y ((u - a.at_) / (b.at_ - a.at_)) = x := by
    have := Option.some.inj hsame
    simpa [blendValues, compiledTrack, hkind, hstep, hx, hy, boardEase_plain] using this
  have hprogress : 0 < (u - a.at_) / (b.at_ - a.at_) :=
    div_pos (by linarith) (by linarith)
  have hxy : y - x = 0 := by
    have : (y - x) * ((u - a.at_) / (b.at_ - a.at_)) = 0 := by
      unfold lerp at hlerp
      linarith
    exact (mul_eq_zero.mp this).resolve_right hprogress.ne'
  rw [hx, hy, show y = x by linarith]

variable (track) in
theorem sampleOf_plain_color
    (hspec : resolveBoardProperty text targetType track.property = .ok spec)
    (hkind : trackKind text spec track targetType = .color) (hstep : track.interpolation ≠ .step)
    (h : InOrder track.keyframes) (ha : track.keyframes[i]? = some a)
    (hb : track.keyframes[i + 1]? = some b) (hau : a.at_ ≤ u) (hub : u < b.at_) :
    sampleOf text (plainRules 0) targetType track u = some (.str "#000000") ∧
      sampleOf text (plainRules 0xffffff) targetType track u = some (.str "#ffffff") := by
  have haround : Around track.keyframes u i := ⟨⟨a, ha, hau⟩, fun j k hj hk =>
    lt_of_lt_of_le hub (h.le_of_lt hj hb hk)⟩
  have hvalue : ∀ color, ∃ t, sampleOf text (plainRules color) targetType track u =
      some (mixColor (plainRules color) a.value b.value t) := by
    intro color
    obtain ⟨before, after, heq⟩ :=
      blend_pair (plainRules color) targetType spec track ha hb (lt_of_le_of_lt hau hub) u
    rw [sampleOf_around track hspec h haround, heq]
    exact ⟨(u - a.at_) / (b.at_ - a.at_),
      by simp [blendValues, compiledTrack, hkind, hstep, boardEase_plain]⟩
  obtain ⟨t, hblack⟩ := hvalue 0
  obtain ⟨t', hwhite⟩ := hvalue 0xffffff
  exact ⟨hblack.trans (by rw [mixColor_black]), hwhite.trans (by rw [mixColor_white])⟩

/-- The part is of the whole's kind, or the track steps, or its values are
    numbers that do not change between two keyframes `inside` the part's time. -/
def SteadyPart (text : TextRules) (targetType : String) (track : BoardTrack)
    (part : List BoardKeyframe) (inside : BoardKeyframe → BoardKeyframe → Prop) : Prop :=
  sampledKind text targetType { track with keyframes := part } =
      sampledKind text targetType track ∨
    track.interpolation = .step ∨
    ∀ (i : Nat) (a b : BoardKeyframe), part[i]? = some a → part[i + 1]? = some b →
      a.at_ < b.at_ → inside a b →
      sampledKind text targetType { track with keyframes := part } = some .number ∧
        a.value = b.value

theorem steadyPart_iff (h : InOrder track.keyframes) (hpart : ValidKeyframes part)
    (hsub : ∀ k ∈ part, k ∈ track.keyframes) {own : Rat → Prop}
    {inside : BoardKeyframe → BoardKeyframe → Prop}
    (hplace : ∀ u, own u → SamePlace track.keyframes part u)
    (hinside : ∀ a b u, own u → a.at_ ≤ u → u < b.at_ → inside a b)
    (hbetween : ∀ a b, a.at_ < b.at_ → inside a b → ∃ u, own u ∧ a.at_ < u ∧ u < b.at_) :
    (∀ (rules : SampleRules) (u : Rat), own u →
      sampleOf text rules targetType { track with keyframes := part } u =
        sampleOf text rules targetType track u) ↔
      SteadyPart text targetType track part inside := by
  by_cases hkind : sampledKind text targetType { track with keyframes := part } =
      sampledKind text targetType track
  · exact iff_of_true (fun rules u hu => sampleOf_samePlace h hpart.toInOrder hkind (hplace u hu))
      (.inl hkind)
  obtain ⟨spec, hspec, hparameter, hwhole, hpartKind⟩ :=
    sampledKind_part hpart.nonempty hsub hkind
  have hwholeKind : trackKind text spec track targetType = .discrete :=
    (hparameter track.keyframes).trans hwhole
  constructor
  · intro hsame
    by_cases hinterpolation : track.interpolation = .step
    · exact .inr (.inl hinterpolation)
    refine Or.inr (.inr fun i a b ha hb hlt hin => ?_)
    obtain ⟨u, hu, hau, hub⟩ := hbetween a b hlt hin
    have haround : Around part u i := ⟨⟨a, ha, hau.le⟩, fun j k hj hk =>
      lt_of_lt_of_le hub (hpart.toInOrder.le_of_lt hj hb hk)⟩
    -- the whole keeps the value of the first keyframe
    have hvalue : ∀ color, sampleOf text (plainRules color) targetType
        { track with keyframes := part } u = some a.value := by
      intro color
      rw [hsame _ u hu]
      cases hplace u hu with
      | before first _ hfirst hfirstlt =>
        have := hpart.toInOrder.head_le hfirst a (List.mem_of_getElem? ha)
        exact absurd (lt_of_lt_of_le hfirstlt this) (not_lt.mpr hau.le)
      | around i' j hwholeAround hpartAround hwindow =>
        rw [hpartAround.unique haround] at hwindow
        exact sampleOf_discrete track hspec hwholeKind h hwholeAround (hwindow.here ▸ ha)
          fun b _ progress hlt => (boardEase_plain color b.ease progress).symm ▸ hlt
    rcases hpartKind with hnumber | hcolor
    · refine ⟨?_, ?_⟩
      · simp [sampledKind, hspec, hparameter part, hnumber]
      · have hnum := parameterKind_eq_number_iff.mp hnumber
        obtain ⟨x, hx⟩ := isSome_iff_exists.mp (hnum a (List.mem_of_getElem? ha))
        obtain ⟨y, hy⟩ := isSome_iff_exists.mp (hnum b (List.mem_of_getElem? hb))
        exact sampleOf_plain_number { track with keyframes := part } hspec
          ((hparameter part).trans hnumber) hinterpolation hpart.toInOrder ha hb hau hub
          (asNum?_eq_some hx) (asNum?_eq_some hy) 0 (hvalue 0)
    · obtain ⟨hblack, hwhite⟩ := sampleOf_plain_color { track with keyframes := part } hspec
        ((hparameter part).trans hcolor) hinterpolation hpart.toInOrder ha hb hau.le hub
      have := (hblack.symm.trans (hvalue 0)).trans ((hvalue 0xffffff).symm.trans hwhite)
      exact absurd (Option.some.inj this) (by decide)
  · rintro (h | hinterpolation | hsteady) rules u hu
    · exact absurd h hkind
    · -- both step between the same values
      cases hplace u hu with
      | before first hfirst hpartFirst hlt =>
        rw [sampleOf_before track hspec hfirst hlt,
          sampleOf_before { track with keyframes := part } hspec hpartFirst hlt]
      | around i j hwholeAround hpartAround hwindow =>
        rw [sampleOf_around track hspec h hwholeAround,
          sampleOf_around { track with keyframes := part } hspec hpart.toInOrder hpartAround]
        exact blend_window_step { track with keyframes := part } track hinterpolation hinterpolation
          hwindow u
    · cases hplace u hu with
      | before first hfirst hpartFirst hlt =>
        rw [sampleOf_before track hspec hfirst hlt,
          sampleOf_before { track with keyframes := part } hspec hpartFirst hlt]
      | around i j hwholeAround hpartAround hwindow =>
        rw [sampleOf_around track hspec h hwholeAround,
          sampleOf_around { track with keyframes := part } hspec hpart.toInOrder hpartAround]
        obtain ⟨a, ha, hau⟩ := hpartAround.at_le
        have hawhole : track.keyframes[i]? = some a := hwindow.here ▸ ha
        by_cases hnext : ∀ b, part[j + 1]? = some b → b.at_ ≤ a.at_
        · rw [blend_single rules targetType spec { track with keyframes := part } ha hnext,
            blend_single rules targetType spec track hawhole
              fun b hb => hnext b (hwindow.next.trans hb)]
        · simp only [not_forall, not_le] at hnext
          obtain ⟨b, hb, hlt⟩ := hnext
          have hub : u < b.at_ := hpartAround.lt_at (j + 1) b (Nat.lt_succ_self j) hb
          obtain ⟨hnumber, hab⟩ := hsteady j a b ha hb hlt (hinside a b u hu hau hub)
          obtain ⟨before, after, hwholeBlend⟩ := blend_pair rules targetType spec track hawhole
            (hwindow.next ▸ hb) hlt u
          obtain ⟨before', after', hpartBlend⟩ := blend_pair rules targetType spec
            { track with keyframes := part } ha hb hlt u
          rw [hwholeBlend, hpartBlend, ← hab]
          -- from a value to itself, discrete or a number
          have hstep : (compiledTrack text rules "" "" track targetType spec).step = true := by
            simp [compiledTrack, hwholeKind]
          have hpartNumber : (compiledTrack text rules "" "" { track with keyframes := part }
              targetType spec).kind = .number := by
            simpa [sampledKind, hspec, compiledTrack] using hnumber
          rw [blendValues_self (.inl hstep), blendValues_self (.inr hpartNumber)]

theorem firstPart_iff (h : ValidKeyframes track.keyframes) (time : Rat) :
    (∀ (rules : SampleRules) (u : Rat), u < time →
      sampleOf text rules targetType
          { track with keyframes := track.keyframes.take (cutIndex track.keyframes time + 2) } u =
        sampleOf text rules targetType track u) ↔
      SteadyPart text targetType track
        (track.keyframes.take (cutIndex track.keyframes time + 2)) fun a _ => a.at_ < time := by
  have hlen := List.length_pos_iff.mpr h.nonempty
  refine steadyPart_iff h.toInOrder
    { toInOrder := h.toInOrder.sublist (List.take_sublist _ _), nonempty := ?_ }
    (fun k hk => List.mem_of_mem_take hk) (fun u hu => take_samePlace h hu)
    (fun a b u hu hau _ => lt_of_le_of_lt hau hu) ?_
  · apply List.length_pos_iff.mp
    rw [List.length_take]
    omega
  · intro a b hab ha
    rcases le_total b.at_ time with hle | hle
    · exact ⟨(a.at_ + b.at_) / 2, by linarith, by linarith, by linarith⟩
    · exact ⟨(a.at_ + time) / 2, by linarith, by linarith, by linarith⟩

theorem secondPart_iff (h : ValidKeyframes track.keyframes) (time : Rat) :
    (∀ (rules : SampleRules) (u : Rat), time ≤ u →
      sampleOf text rules targetType
          { track with keyframes := track.keyframes.drop (cutIndex track.keyframes time - 2) } u =
        sampleOf text rules targetType track u) ↔
      SteadyPart text targetType track
        (track.keyframes.drop (cutIndex track.keyframes time - 2)) fun _ b => time < b.at_ := by
  have hlen := List.length_pos_iff.mpr h.nonempty
  have hcut : cutIndex track.keyframes time ≤ track.keyframes.length := List.findIdx_le_length
  refine steadyPart_iff h.toInOrder
    { toInOrder := h.toInOrder.sublist (List.drop_sublist _ _), nonempty := ?_ }
    (fun k hk => List.mem_of_mem_drop hk) (fun u hu => drop_samePlace h hu)
    (fun a b u hu _ hub => lt_of_le_of_lt hu hub) ?_
  · apply List.length_pos_iff.mp
    rw [List.length_drop]
    omega
  · intro a b hab hb
    rcases le_total time a.at_ with hle | hle
    · exact ⟨(a.at_ + b.at_) / 2, by linarith, by linarith, by linarith⟩
    · exact ⟨(time + b.at_) / 2, by linarith, by linarith, by linarith⟩

end Parts

/-! ## Visible tracks -/

/-- Whether a block from `start` to `end_` is shown at a time. -/
def shownAt (start end_ u : Rat) : Bool :=
  start < end_ ∧ u < end_ ∧ (start ≤ u ∨ start ≤ 0)

variable {start end_ : Rat}

theorem mem_visibleKeyframes {k : BoardKeyframe}
    (hk : k ∈ visibleKeyframes start end_) : ∃ at_ shown, k = visibleAt at_ shown := by
  unfold visibleKeyframes at hk
  split at hk
  · exact ⟨0, false, List.mem_singleton.mp hk⟩
  · rcases List.mem_append.mp hk with hk | hk
    · split at hk
      · exact ⟨0, false, List.mem_singleton.mp hk⟩
      · cases hk
    · rcases List.mem_cons.mp hk with rfl | hk
      · exact ⟨start, true, rfl⟩
      · exact ⟨end_, false, List.mem_singleton.mp hk⟩

theorem sampleOf_visibleKeyframes {text : TextRules} {rules : SampleRules} {type : String}
    {spec : BoardPropertySpec} (track : BoardTrack) (htrack : track.property = visibleProperty)
    (hspec : resolveBoardProperty text type visibleProperty = .ok spec)
    (hvalid : end_ ≤ start ∨ 0 ≤ start) (u : Rat) :
    sampleOf text rules type { track with keyframes := visibleKeyframes start end_ } u =
      some (.bool (shownAt start end_ u)) := by
  let block : BoardTrack := { track with keyframes := visibleKeyframes start end_ }
  have hblock : resolveBoardProperty text type block.property = .ok spec := htrack ▸ hspec
  have hkind : trackKind text spec block type = .discrete := visible_kind hspec block htrack
  have horder : InOrder block.keyframes := (visibleKeyframes_valid hvalid).toInOrder
  have hbefore : ∀ first, block.keyframes.head? = some first → u < first.at_ →
      sampleOf text rules type block u = some first.value :=
    fun first hfirst hlt => sampleOf_before block hblock hfirst hlt
  -- no keyframe of a block has an easing
  have hvalue : ∀ (i : Nat) (a : BoardKeyframe), block.keyframes[i]? = some a → a.at_ ≤ u →
      (∀ b, block.keyframes[i + 1]? = some b → u < b.at_) →
      sampleOf text rules type block u = some a.value := by
    intro i a ha hau hnext
    have haround : Around block.keyframes u i := by
      refine ⟨⟨a, ha, hau⟩, fun j k hj hk => ?_⟩
      obtain ⟨hlt, -⟩ := List.getElem?_eq_some_iff.mp hk
      have hb := List.getElem?_eq_getElem (lt_of_le_of_lt hj hlt)
      exact lt_of_lt_of_le (hnext _ hb) (horder.le_of_lt hj hb hk)
    refine sampleOf_discrete block hblock hkind horder haround ha fun b hb progress hlt => ?_
    obtain ⟨at_, shown, rfl⟩ := mem_visibleKeyframes (List.mem_of_getElem? hb)
    exact hlt
  show sampleOf text rules type block u = some (.bool (shownAt start end_ u))
  rcases le_or_gt end_ start with hle | hlt
  · -- nothing is shown
    have hkeyframes : block.keyframes = [visibleAt 0 false] := if_pos hle
    have hshown : shownAt start end_ u = false := by simp [shownAt, hle]
    rw [hshown]
    rcases lt_or_ge u 0 with hu | hu
    · exact hbefore (visibleAt 0 false) (by rw [hkeyframes]; rfl) hu
    · exact hvalue 0 (visibleAt 0 false) (by rw [hkeyframes]; rfl) hu (by simp [hkeyframes])
  · by_cases hpos : 0 < start
    · have hkeyframes : block.keyframes =
          [visibleAt 0 false, visibleAt start true, visibleAt end_ false] := by
        show visibleKeyframes start end_ = _
        rw [visibleKeyframes, if_neg (not_le.mpr hlt), if_pos hpos]
        rfl
      rcases lt_or_ge u 0 with hu | hu
      · have hshown : shownAt start end_ u = false := by
          simp only [shownAt, decide_eq_false_iff_not]
          rintro ⟨-, -, h | h⟩ <;> linarith
        rw [hshown]
        exact hbefore (visibleAt 0 false) (by rw [hkeyframes]; rfl) hu
      · rcases lt_or_ge u start with hus | hus
        · have hshown : shownAt start end_ u = false := by
            simp only [shownAt, decide_eq_false_iff_not]
            rintro ⟨-, -, h | h⟩ <;> linarith
          rw [hshown]
          refine hvalue 0 (visibleAt 0 false) (by rw [hkeyframes]; rfl) hu fun b hb => ?_
          rw [hkeyframes] at hb
          rw [← Option.some.inj hb]
          exact hus
        · rcases lt_or_ge u end_ with hue | hue
          · have hshown : shownAt start end_ u = true := by simp [shownAt, hlt, hue, hus]
            rw [hshown]
            refine hvalue 1 (visibleAt start true) (by rw [hkeyframes]; rfl) hus fun b hb => ?_
            rw [hkeyframes] at hb
            rw [← Option.some.inj hb]
            exact hue
          · have hshown : shownAt start end_ u = false := by simp [shownAt, hue]
            rw [hshown]
            exact hvalue 2 (visibleAt end_ false) (by rw [hkeyframes]; rfl) hue
              (by simp [hkeyframes])
    · have hkeyframes : block.keyframes = [visibleAt start true, visibleAt end_ false] := by
        show visibleKeyframes start end_ = _
        rw [visibleKeyframes, if_neg (not_le.mpr hlt), if_neg hpos]
        rfl
      have hzero := not_lt.mp hpos
      rcases lt_or_ge u end_ with hue | hue
      · have hshown : shownAt start end_ u = true := by simp [shownAt, hlt, hue, hzero]
        rw [hshown]
        rcases lt_or_ge u start with hus | hus
        · exact hbefore (visibleAt start true) (by rw [hkeyframes]; rfl) hus
        · refine hvalue 0 (visibleAt start true) (by rw [hkeyframes]; rfl) hus fun b hb => ?_
          rw [hkeyframes] at hb
          rw [← Option.some.inj hb]
          exact hue
      · have hshown : shownAt start end_ u = false := by simp [shownAt, hue]
        rw [hshown]
        exact hvalue 1 (visibleAt end_ false) (by rw [hkeyframes]; rfl) hue (by simp [hkeyframes])

theorem shownAt_first (htime : 0 < time) (hu : u < time) :
    shownAt start (minimum end_ time) u = shownAt start end_ u := by
  have hiff : (start < minimum end_ time ∧ u < minimum end_ time ∧ (start ≤ u ∨ start ≤ 0)) ↔
      (start < end_ ∧ u < end_ ∧ (start ≤ u ∨ start ≤ 0)) := by
    unfold minimum
    split
    · constructor
      · rintro ⟨h1, h2, h3⟩
        exact ⟨by linarith, by linarith, h3⟩
      · rintro ⟨h1, h2, h3⟩
        exact ⟨by rcases h3 with h3 | h3 <;> linarith, hu, h3⟩
    · exact Iff.rfl
  simp only [shownAt, hiff]

theorem shownAt_second (hu : time ≤ u) :
    shownAt (maximum start time) end_ u = shownAt start end_ u := by
  have hiff : (maximum start time < end_ ∧ u < end_ ∧
      (maximum start time ≤ u ∨ maximum start time ≤ 0)) ↔
      (start < end_ ∧ u < end_ ∧ (start ≤ u ∨ start ≤ 0)) := by
    unfold maximum
    split
    · constructor
      · rintro ⟨h1, h2, -⟩
        exact ⟨by linarith, h2, .inl (by linarith)⟩
      · rintro ⟨h1, h2, -⟩
        exact ⟨by linarith, h2, .inl hu⟩
    · exact Iff.rfl
  simp only [shownAt, hiff]

/-! ## The loop -/

section Loop

variable (curves : TrackCurves) (document : BoardDocument)

/-- The ids of new tracks are new. -/
def FreshIds (curves : TrackCurves) : Prop :=
  ∀ tracks : Tracks, tracks.has (curves.entityId tracks) = false

variable {curves}

theorem newBoardTrackId_fresh (hids : FreshIds curves) (tracks : Tracks) (target property : String) :
    tracks.has (newBoardTrackId curves tracks target property) = false := by
  unfold newBoardTrackId
  dsimp only
  split
  · exact (‹_ ∧ _›).2
  · exact hids tracks

def copyOf (copies : OrderedMap String String) (target : String) : Option String :=
  (copies.get? target).filter (· != "")

/-- The tracks that hold the parts of a track that was split. -/
def HoldsParts (tracks : Tracks) (id : String) (track : BoardTrack) (copy : String)
    (parts : List BoardKeyframe × List BoardKeyframe) : Prop :=
  tracks.get? id = some { track with keyframes := parts.1 } ∧
    ∃ copyId, copyId ≠ id ∧
      tracks.get? copyId = some { track with target := copy, keyframes := parts.2 }

theorem splitRound_parts (hids : FreshIds curves) (animation : TimelineAnimation)
    (copies : OrderedMap String String) (time : Rat) (tracks : Tracks) (e : String × BoardTrack)
    {copy : String} (hcopy : copyOf copies e.2.target = some copy) :
    let after := splitRound curves document animation copies time tracks e
    let parts := splitTrack document animation e.2 time
    after.get? e.1 = some { e.2 with keyframes := parts.1 } ∧
      ∃ copyId, tracks.has copyId = false ∧
        after.get? copyId = some { e.2 with target := copy, keyframes := parts.2 } := by
  intro after parts
  let first := tracks.set e.1 { e.2 with keyframes := parts.1 }
  have hafter : after = first.set (newBoardTrackId curves first copy e.2.property)
      { e.2 with target := copy, keyframes := parts.2 } := by
    show splitRound curves document animation copies time tracks e = _
    unfold splitRound
    rw [show (copies.get? e.2.target).filter (· != "") = some copy from hcopy]
  have hfresh := newBoardTrackId_fresh hids first copy e.2.property
  generalize newBoardTrackId curves first copy e.2.property = copyId at hafter hfresh
  have hne : copyId ≠ e.1 := by
    rintro rfl
    rw [has, get?_set, if_pos rfl] at hfresh
    cases hfresh
  rw [has, get?_set, if_neg hne] at hfresh
  refine ⟨?_, copyId, hfresh, ?_⟩
  · rw [hafter, get?_set, if_neg hne.symm, get?_set, if_pos rfl]
  · rw [hafter, get?_set, if_pos rfl]

variable {id : String} {track : BoardTrack}

theorem splitRound_keeps (hids : FreshIds curves) (animation : TimelineAnimation)
    (copies : OrderedMap String String) (time : Rat) (tracks : Tracks) (e : String × BoardTrack)
    (hid : id ≠ e.1) (htrack : tracks.get? id = some track) :
    (splitRound curves document animation copies time tracks e).get? id = some track := by
  unfold splitRound
  split
  · exact htrack
  · rename_i copy _
    dsimp only
    generalize splitTrack document animation e.2 time = parts
    let first := tracks.set e.1 { e.2 with keyframes := parts.1 }
    have hkept : first.get? id = some track := by rw [get?_set, if_neg hid, htrack]
    have hfresh := newBoardTrackId_fresh hids first copy e.2.property
    rw [get?_set, if_neg, hkept]
    rintro rfl
    rw [has, hkept] at hfresh
    cases hfresh

theorem splitRounds_spec (hids : FreshIds curves) (animation : TimelineAnimation)
    (copies : OrderedMap String String) (time : Rat) (entries : List (String × BoardTrack))
    (tracks : Tracks) (hnodup : (entries.map Prod.fst).Nodup)
    (hin : ∀ e ∈ entries, tracks.has e.1 = true) :
    let after := entries.foldl (splitRound curves document animation copies time) tracks
    (∀ e ∈ entries, ∀ copy, copyOf copies e.2.target = some copy →
      HoldsParts after e.1 e.2 copy (splitTrack document animation e.2 time)) ∧
      ∀ id track, id ∉ entries.map Prod.fst → tracks.get? id = some track →
        after.get? id = some track := by
  induction entries generalizing tracks with
  | nil => exact ⟨fun e he => absurd he List.not_mem_nil, fun id track _ htrack => htrack⟩
  | cons e rest ih =>
    obtain ⟨hnot, hrest⟩ := List.nodup_cons.mp hnodup
    have hkept : ∀ id track, id ≠ e.1 → tracks.get? id = some track →
        (splitRound curves document animation copies time tracks e).get? id = some track :=
      fun id track hne => splitRound_keeps document hids animation copies time tracks e hne
    have hin' : ∀ e' ∈ rest,
        (splitRound curves document animation copies time tracks e).has e'.1 = true := by
      intro e' he'
      have hne : e'.1 ≠ e.1 := fun heq => hnot (heq ▸ List.mem_map_of_mem he')
      obtain ⟨track, htrack⟩ := isSome_iff_exists.mp (hin e' (List.mem_cons_of_mem _ he'))
      rw [has, hkept _ _ hne htrack]
      rfl
    obtain ⟨hparts, hothers⟩ := ih _ hrest hin'
    refine ⟨?_, ?_⟩
    · intro e' he' copy hcopy
      rcases List.mem_cons.mp he' with rfl | he'
      · -- the later rounds keep what this one wrote
        obtain ⟨hfirst, copyId, hnew, hsecond⟩ := splitRound_parts document hids animation copies
          time tracks e' hcopy
        refine ⟨hothers _ _ hnot hfirst, copyId, ?_, hothers _ _ ?_ hsecond⟩
        · rintro rfl
          rw [hin e' List.mem_cons_self] at hnew
          cases hnew
        · intro hmem
          obtain ⟨e'', he'', rfl⟩ := List.mem_map.mp hmem
          rw [hin e'' (List.mem_cons_of_mem _ he'')] at hnew
          cases hnew
      · exact hparts e' he' copy hcopy
    · intro id track hid htrack
      obtain ⟨hne, hid⟩ := not_or.mp (fun h => hid (List.mem_cons.mpr h))
      exact hothers id track hid (hkept id track hne htrack)

theorem setTrack_keeps (hids : FreshIds curves) {tracks : Tracks} {target property : String}
    {keyframes : List BoardKeyframe} {interpolation : TrackInterpolation}
    (htrack : tracks.get? id = some track)
    (hother : ¬ (track.target = target ∧ track.property = property ∧
      track.composite = .replace)) :
    (setTrack curves tracks target property keyframes interpolation).get? id = some track := by
  unfold setTrack
  split
  · rename_i existing hexisting
    have hmem := (mem_entries_iff _ _ _).mp (List.mem_of_find?_eq_some hexisting)
    have hsome := List.find?_some hexisting
    simp only [Bool.and_eq_true, decide_eq_true_eq] at hsome
    rw [get?_set, if_neg, htrack]
    rintro rfl
    rw [Option.some.inj (htrack.symm.trans hmem)] at hother
    exact hother ⟨hsome.1.1, hsome.1.2, hsome.2⟩
  · rw [get?_set, if_neg, htrack]
    rintro rfl
    have hfresh := newBoardTrackId_fresh hids tracks target property
    rw [has, htrack] at hfresh
    cases hfresh

end Loop

/-! ## Splits -/

section Split

variable (text : TextRules) {curves : TrackCurves} (document : BoardDocument)

/-- The copies of a split: one of its own for the target and each target below
    it, under ids that nothing has. -/
structure FreshCopies (animation : TimelineAnimation) (target : String)
    (copies : OrderedMap String String) : Prop where
  has_target : ∃ copy, copyOf copies target = some copy
  injective  : ∀ a b copy, copies.get? a = some copy → copies.get? b = some copy → a = b
  not_copied : ∀ a copy, copies.get? a = some copy → copies.get? copy = none
  no_track   : ∀ a copy, copies.get? a = some copy →
    ∀ e ∈ animation.tracks.entries, e.2.target ≠ copy

/-- The span that a split writes a visible track anew for. -/
def ownSpan (animation : TimelineAnimation) (track : BoardTrack) : Option BoardSpan :=
  if track.property = visibleProperty then boardTargetSpan document animation track.target else none

/-- The parts of a track are worth what it is, the first before the time and the
    second from it on, under every easing and for every way to resolve colors. -/
def KeepsMotion (time : Rat) (track : BoardTrack) (copy : String)
    (parts : List BoardKeyframe × List BoardKeyframe) : Prop :=
  ∀ type, targetType document track.target = some type → ∀ (rules : SampleRules) (u : Rat),
    (u < time → sampleOf text rules type { track with keyframes := parts.1 } u =
      sampleOf text rules type track u) ∧
    (time ≤ u → sampleOf text rules type { track with target := copy, keyframes := parts.2 } u =
      sampleOf text rules type track u)

/-- A visible track of a target with a span shows that span and nothing else;
    any other track is steady on both sides of the time. -/
def MovesAsParts (animation : TimelineAnimation) (time : Rat) (track : BoardTrack) : Prop :=
  ∀ type, targetType document track.target = some type →
    match ownSpan document animation track with
    | some span => ∀ (rules : SampleRules) (u : Rat), sampleOf text rules type
        { track with keyframes := visibleKeyframes span.start span.end_ } u =
          sampleOf text rules type track u
    | none =>
        SteadyPart text type track
            (track.keyframes.take (cutIndex track.keyframes time + 2)) (fun a _ => a.at_ < time) ∧
          SteadyPart text type track
            (track.keyframes.drop (cutIndex track.keyframes time - 2)) (fun _ b => time < b.at_)

theorem sampleOf_target (rules : SampleRules) (type : String) (track : BoardTrack) (copy : String)
    (keyframes : List BoardKeyframe) (u : Rat) :
    sampleOf text rules type { track with target := copy, keyframes := keyframes } u =
      sampleOf text rules type { track with keyframes := keyframes } u := by
  unfold sampleOf compileBoardTrack
  dsimp only
  split <;> rfl

theorem splitTrack_eq (animation : TimelineAnimation) (track : BoardTrack) (time : Rat) :
    splitTrack document animation track time =
      match ownSpan document animation track with
      | some span => (visibleKeyframes span.start (minimum span.end_ time),
          visibleKeyframes (maximum span.start time) span.end_)
      | none => (track.keyframes.take (cutIndex track.keyframes time + 2),
          track.keyframes.drop (cutIndex track.keyframes time - 2)) := by
  have hcut : (track.keyframes.findIdx? fun keyframe => time ≤ keyframe.at_).getD
      track.keyframes.length = cutIndex track.keyframes time :=
    List.findIdx_eq_getD_findIdx?.symm
  unfold splitTrack ownSpan
  dsimp only
  generalize (if track.property = visibleProperty then
    boardTargetSpan document animation track.target else none) = own
  cases own with
  | some span => rfl
  | none =>
    dsimp only
    rw [hcut]

variable {animation : TimelineAnimation}

theorem keepsMotion_iff (hvalid : ValidAnimation animation) {e : String × BoardTrack}
    (he : e ∈ animation.tracks.entries) {time : Rat} (htime : 0 < time) (copy : String) :
    KeepsMotion text document time e.2 copy (splitTrack document animation e.2 time) ↔
      MovesAsParts text document animation time e.2 := by
  unfold KeepsMotion MovesAsParts
  refine forall_congr' fun type => forall_congr' fun _ => ?_
  rw [splitTrack_eq]
  simp only [sampleOf_target]
  cases hown : ownSpan document animation e.2 with
  | some span =>
    dsimp only
    have hproperty : e.2.property = visibleProperty := by
      by_contra hne
      rw [ownSpan, if_neg hne] at hown
      cases hown
    rw [ownSpan, if_pos hproperty] at hown
    obtain ⟨hstart, -⟩ := boardTargetSpan_nonneg document hvalid hown
    by_cases hspec : ∃ spec, resolveBoardProperty text type visibleProperty = .ok spec
    · obtain ⟨spec, hspec⟩ := hspec
      -- the two parts of the block show together what the block shows
      have hblock : ∀ (rules : SampleRules) (start end_ u : Rat), 0 ≤ start →
          sampleOf text rules type { e.2 with keyframes := visibleKeyframes start end_ } u =
            some (.bool (shownAt start end_ u)) := fun rules start end_ u h =>
        sampleOf_visibleKeyframes e.2 hproperty hspec (.inr h) u
      have hlater : 0 ≤ maximum span.start time := le_trans hstart (le_maximum_left _ _)
      refine forall_congr' fun rules => forall_congr' fun u => ?_
      rw [hblock rules _ _ u hstart, hblock rules _ _ u hstart, hblock rules _ _ u hlater]
      constructor
      · rintro ⟨h1, h2⟩
        rcases lt_or_ge u time with hu | hu
        · rw [← h1 hu, shownAt_first htime hu]
        · rw [← h2 hu, shownAt_second hu]
      · intro h
        exact ⟨fun hu => by rw [shownAt_first htime hu, h],
          fun hu => by rw [shownAt_second hu, h]⟩
    · -- a target without the property has no samples at all
      have hnone : ∀ (rules : SampleRules) (keyframes : List BoardKeyframe) (u : Rat),
          sampleOf text rules type { e.2 with keyframes := keyframes } u = none :=
        fun rules keyframes u => sampleOf_unresolved { e.2 with keyframes := keyframes }
          (fun spec hs => hspec ⟨spec, hproperty ▸ hs⟩) u
      simp only [hnone, implies_true, and_self]
  | none =>
    dsimp only
    rw [← firstPart_iff (hvalid.tracks_valid e he) time,
      ← secondPart_iff (hvalid.tracks_valid e he) time]
    constructor
    · intro h
      exact ⟨fun rules u hu => (h rules u).1 hu, fun rules u hu => (h rules u).2 hu⟩
    · rintro ⟨h1, h2⟩ rules u
      exact ⟨h1 rules u, h2 rules u⟩

variable {target : String} {copies : OrderedMap String String} {copy : String}

theorem copyOf_spec (h : copyOf copies target = some copy) : copies.get? target = some copy :=
  (filter_eq_some_iff.mp h).1

theorem HoldsParts.setTrack (hids : FreshIds curves) {tracks : Tracks} {id : String}
    {track : BoardTrack} {parts : List BoardKeyframe × List BoardKeyframe}
    (h : HoldsParts tracks id track copy parts) {property : String}
    {keyframes : List BoardKeyframe} {interpolation : TrackInterpolation}
    (hfirst : ¬ (track.target = target ∧ track.property = property ∧ track.composite = .replace))
    (hsecond : ¬ (copy = target ∧ track.property = property ∧ track.composite = .replace)) :
    HoldsParts (setTrack curves tracks target property keyframes interpolation) id track copy
      parts := by
  obtain ⟨hone, copyId, hne, htwo⟩ := h
  exact ⟨setTrack_keeps hids hone hfirst, copyId, hne, setTrack_keeps hids htwo hsecond⟩

theorem boardSplitTarget_parts (hids : FreshIds curves) {after : TimelineAnimation} {at_ : Rat}
    (hcopies : FreshCopies animation target copies)
    (hafter : boardSplitTarget curves document animation target copies at_ = some after) :
    ∀ e ∈ animation.tracks.entries, ∀ copy, copyOf copies e.2.target = some copy →
      HoldsParts after.tracks e.1 e.2 copy
        (splitTrack document animation e.2 (Number.round at_)) := by
  intro e he copy hcopy
  have hcut := (splitRounds_spec document hids animation copies (Number.round at_)
    animation.tracks.entries animation.tracks animation.tracks.nodup (fun e' he' => by
      rw [has, (mem_entries_iff _ _ _).mp he']; rfl)).1 e he copy hcopy
  unfold boardSplitTarget at hafter
  dsimp only at hafter
  split at hafter
  · cases hafter
  split at hafter
  · cases hafter
  obtain rfl := Option.some.inj hafter
  dsimp only
  split
  · -- the target and its copy get visible tracks of their own
    rename_i hshown
    have hnone : ∀ e' ∈ animation.tracks.entries, ¬ (e'.2.target = target ∧
        e'.2.property = visibleProperty ∧ e'.2.composite = .replace) := by
      have hfind := isNone_iff_eq_none.mp hshown.2
      intro e' he' hmatch
      have := List.find?_eq_none.mp hfind e' he'
      simp [hmatch.1, hmatch.2.1, hmatch.2.2] at this
    obtain ⟨targetCopy, htarget⟩ := hcopies.has_target
    rw [copyOf_spec htarget, getD_some]
    refine (hcut.setTrack hids (hnone e he) ?_).setTrack hids ?_ ?_
    · rintro ⟨rfl, -⟩
      have := hcopies.not_copied _ _ (copyOf_spec hcopy)
      rw [copyOf_spec htarget] at this
      cases this
    · rintro ⟨heq, -⟩
      exact hcopies.no_track _ _ (copyOf_spec htarget) e he heq
    · rintro ⟨rfl, hvisible⟩
      exact hnone e he
        ⟨hcopies.injective _ _ _ (copyOf_spec hcopy) (copyOf_spec htarget), hvisible⟩
  · exact hcut

/-- A split leaves the first part of every track to its target and gives the
    second to the copy.  They are worth what the track was, before and from the
    cut on, exactly when every track that is split moves as its parts. -/
theorem boardSplitTarget_keeps_motion_iff (hids : FreshIds curves)
    {animation after : TimelineAnimation} (hvalid : ValidAnimation animation) {target : String}
    {copies : OrderedMap String String} {at_ : Rat} (hcopies : FreshCopies animation target copies)
    (hafter : boardSplitTarget curves document animation target copies at_ = some after) :
    (∀ e ∈ animation.tracks.entries, ∀ copy, copyOf copies e.2.target = some copy →
        HoldsParts after.tracks e.1 e.2 copy
            (splitTrack document animation e.2 (Number.round at_)) ∧
          KeepsMotion text document (Number.round at_) e.2 copy
            (splitTrack document animation e.2 (Number.round at_))) ↔
      ∀ e ∈ animation.tracks.entries, (copyOf copies e.2.target).isSome →
        MovesAsParts text document animation (Number.round at_) e.2 := by
  have hparts := boardSplitTarget_parts document hids hcopies hafter
  have htime : 0 < Number.round at_ := by
    unfold boardSplitTarget at hafter
    dsimp only at hafter
    split at hafter
    · cases hafter
    rename_i span hspan
    split at hafter
    · cases hafter
    rename_i hinside
    obtain ⟨hstart, -⟩ := boardTargetSpan_nonneg document hvalid hspan
    have hmin : (0 : Rat) < boardSpanMinMs := by decide
    have := not_lt.mp (not_or.mp hinside).1
    linarith
  constructor
  · intro h e he hcopy
    obtain ⟨copy, hcopy⟩ := Option.isSome_iff_exists.mp hcopy
    exact (keepsMotion_iff text document hvalid he htime copy).mp (h e he copy hcopy).2
  · intro h e he copy hcopy
    exact ⟨hparts e he copy hcopy,
      (keepsMotion_iff text document hvalid he htime copy).mpr (h e he (hcopy ▸ rfl))⟩

end Split

/-- An id that is longer than all others together. -/
def longId (tracks : Tracks) : String :=
  let length := (tracks.keys.map String.length).foldl (fun sum n => sum + n) 1
  String.ofList (List.replicate length 'x')

/-- Steps, and ids that are new. -/
def longCurves : TrackCurves := { stepCurves with entityId := longId }

theorem longCurves_fresh : FreshIds longCurves := by
  intro tracks
  have hgrow : ∀ (l : List Nat) (start : Nat), start ≤ l.foldl (fun sum n => sum + n) start ∧
      ∀ n ∈ l, n + start ≤ l.foldl (fun sum n => sum + n) start := by
    intro l
    induction l with
    | nil => exact fun start => ⟨le_refl _, fun n hn => absurd hn List.not_mem_nil⟩
    | cons m rest ih =>
      intro start
      obtain ⟨hstart, hall⟩ := ih (start + m)
      refine ⟨by rw [List.foldl_cons]; omega, fun n hn => ?_⟩
      rw [List.foldl_cons]
      rcases List.mem_cons.mp hn with rfl | hn
      · omega
      · have := hall n hn
        omega
  cases hhas : tracks.has (longCurves.entityId tracks) with
  | false => rfl
  | true =>
    have hmem := (mem_keys_iff _ _).mpr hhas
    have := (hgrow (tracks.keys.map String.length) 1).2 _ (List.mem_map_of_mem hmem)
    simp [longCurves, longId] at this

/-- A document with one text whose script has a parameter. -/
def scriptedDocument : BoardDocument :=
  { board := .obj []
    items := OrderedMap.ofList [("i", .obj [("type", .str "text")])]
    animations := OrderedMap.empty }

/-- A keyframe without an easing. -/
def keyed (at_ : Rat) (value : Json) : BoardKeyframe :=
  { at_ := at_, value := value, ease := none }

/-- The track of the script's parameter. -/
def parameterTrack (keyframes : List BoardKeyframe) : BoardTrack :=
  { target := "i", property := "script.params.size", keyframes := keyframes, composite := .replace
    interpolation := .auto, orient := none }

/-- An animation that shows the text for 300 ms and moves its parameter. -/
def scriptedClip (keyframes : List BoardKeyframe) : TimelineAnimation :=
  { duration := 1000
    markers := []
    tracks := OrderedMap.ofList [
      ("i-visible", { target := "i", property := "visible", keyframes := visibleKeyframes 0 300
                      composite := .replace, interpolation := .step, orient := none }),
      ("size", parameterTrack keyframes)] }

def textCopy : OrderedMap String String := OrderedMap.ofList [("i", "j")]

theorem textCopy_fresh (keyframes : List BoardKeyframe) :
    FreshCopies (scriptedClip keyframes) "i" textCopy := by
  have hcopy : ∀ a copy, textCopy.get? a = some copy → a = "i" ∧ copy = "j" := by
    intro a copy h
    have hmem := (mem_entries_iff textCopy a copy).mpr h
    exact Prod.mk.inj (List.mem_singleton.mp hmem)
  refine { has_target := ⟨"j", by decide +kernel⟩, injective := ?_, not_copied := ?_, no_track := ?_ }
  · intro a b copy ha hb
    rw [(hcopy a copy ha).1, (hcopy b copy hb).1]
  · intro a copy h
    rw [(hcopy a copy h).2]
    decide +kernel
  · intro a copy h e he
    rw [(hcopy a copy h).2]
    rcases List.mem_cons.mp he with rfl | he
    · show "i" ≠ "j"
      decide
    · rw [List.mem_singleton.mp he]
      show "i" ≠ "j"
      decide

theorem scriptedClip_valid (h : ValidKeyframes keyframes) :
    ValidAnimation (scriptedClip keyframes) where
  duration_pos := show (0 : Rat) < 1000 by decide
  markers_nonneg := by simp [scriptedClip]
  tracks_valid := by
    intro e he
    rcases List.mem_cons.mp he with rfl | he
    · show ValidKeyframes (visibleKeyframes 0 300)
      exact visibleKeyframes_valid (.inr (le_refl 0))
    · rw [List.mem_singleton.mp he]
      exact h

deriving instance DecidableEq for BoardKeyframe

/-- A parameter of five numbers moves on as before. -/
theorem split_number_parameter_keeps_motion :
    let keyframes := [keyed 0 (.num 1), keyed 60 (.num 2), keyed 120 (.num 3), keyed 180 (.num 4),
      keyed 240 (.num 5)]
    (boardSplitTarget longCurves scriptedDocument (scriptedClip keyframes) "i" textCopy 150).isSome ∧
      KeepsMotion allTextRules scriptedDocument 150 (parameterTrack keyframes) "j"
        (splitTrack scriptedDocument (scriptedClip keyframes) (parameterTrack keyframes) 150) := by
  intro keyframes
  have hsplits : (boardSplitTarget longCurves scriptedDocument (scriptedClip keyframes) "i"
      textCopy 150).isSome := by decide +kernel
  refine ⟨hsplits, ?_⟩
  obtain ⟨after, hafter⟩ := Option.isSome_iff_exists.mp hsplits
  have hvalid : ValidKeyframes keyframes :=
    { sorted := by decide +kernel, nonneg := by decide +kernel, nonempty := by decide }
  have htime : Number.round 150 = 150 := by decide +kernel
  have hmotion := (boardSplitTarget_keeps_motion_iff allTextRules scriptedDocument longCurves_fresh
    (scriptedClip_valid hvalid) (textCopy_fresh keyframes) hafter).mpr ?_ ("size", _)
    ((OrderedMap.mem_entries_iff _ _ _).mpr rfl) "j" (by decide +kernel)
  · rw [htime] at hmotion
    exact hmotion.2
  · intro e he _ type htype
    have htarget : targetType scriptedDocument "i" = some "text" := by decide +kernel
    rcases List.mem_cons.mp he with rfl | he
    · have hspan : ownSpan scriptedDocument (scriptedClip keyframes)
          { target := "i", property := "visible", keyframes := visibleKeyframes 0 300
            composite := .replace, interpolation := .step, orient := none } = some ⟨0, 300⟩ := by
        decide +kernel
      rw [hspan]
      exact fun rules u => rfl
    · obtain rfl := List.mem_singleton.mp he
      have hspan : ownSpan scriptedDocument (scriptedClip keyframes) (parameterTrack keyframes) =
          none := by decide +kernel
      obtain rfl := Option.some.inj (htype.symm.trans htarget)
      rw [hspan]
      exact ⟨Or.inl (by decide +kernel), Or.inl (by decide +kernel)⟩

/-- Three numbers and a word step from one to the next, but the first three are
    numbers that blend. -/
theorem split_mixed_parameter_moves :
    let whole := parameterTrack [keyed 0 (.num 1), keyed 100 (.num 2), keyed 200 (.num 3),
      keyed 300 (.str "auto")]
    let first := parameterTrack [keyed 0 (.num 1), keyed 100 (.num 2), keyed 200 (.num 3)]
    (∃ after, boardSplitTarget longCurves scriptedDocument (scriptedClip whole.keyframes) "i"
        textCopy 50 = some after ∧ after.tracks.get? "size" = some first) ∧
      targetType scriptedDocument "i" = some "text" ∧
      sampleOf allTextRules (plainRules 0) "text" whole 25 = some (.num 1) ∧
      sampleOf allTextRules (plainRules 0) "text" first 25 = some (.num (5 / 4)) := by
  intro whole first
  have hsplits : (boardSplitTarget longCurves scriptedDocument (scriptedClip whole.keyframes) "i"
      textCopy 50).isSome := by decide +kernel
  obtain ⟨after, hafter⟩ := Option.isSome_iff_exists.mp hsplits
  have hparts := boardSplitTarget_parts scriptedDocument longCurves_fresh
    (textCopy_fresh whole.keyframes) hafter ("size", whole)
    ((OrderedMap.mem_entries_iff _ _ _).mpr rfl) "j" (by decide +kernel)
  have htake : (splitTrack scriptedDocument (scriptedClip whole.keyframes) whole
      (Number.round 50)).1 = first.keyframes := by decide +kernel
  refine ⟨⟨after, hafter, hparts.1.trans ?_⟩, ?_, ?_, ?_⟩
  · rw [htake]
    rfl
  · decide +kernel
  · decide +kernel
  · decide +kernel

end Cohub.Timeline
