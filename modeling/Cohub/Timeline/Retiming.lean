import Cohub.Timeline.Motion

/-! # Time put in and taken out

    `boardInsertTime` and `boardRemoveTime` of
    `packages/sdk/src/board/model/timeline.ts`: what the tracks of an animation
    are worth before and after the time that was put in or taken out. -/

namespace Cohub.Timeline

open Number Cohub.Board List Option

/-! ## Cuts -/

/-- `splitEase`; how a curve is cut in two is a parameter. -/
def splitEase (cutCurve : String → Rat → Option String × Option String) (ease : Option String)
    (progress : Rat) : Option String × Option String :=
  match ease with
  | none => (none, none)
  | some name =>
      if name = "" ∨ Text.trim name = "linear" then (some name, some name)
      else cutCurve name progress

def timelineCurves (text : TextRules) (rules : SampleRules)
    (cutCurve : String → Rat → Option String × Option String) (entityId : Tracks → String) :
    TrackCurves :=
  { sampleTrack := sampleTrack text rules
    splitEase := splitEase cutCurve
    entityId := entityId }

variable {ease : Option String}

theorem splitEase_linear {cutCurve : String → Rat → Option String × Option String}
    (h : LinearEase ease) (progress : Rat) : splitEase cutCurve ease progress = (ease, ease) := by
  cases ease with
  | none => rfl
  | some name =>
    have hlinear : name = "" ∨ Text.trim name = "linear" := h
    rw [splitEase, if_pos hlinear]

theorem withEase_linear (keyframe : BoardKeyframe) (h : LinearEase ease) :
    LinearEase (withEase keyframe ease).ease := by
  show LinearEase (ease.filter fun e => e != "" && e != "linear")
  cases ease with
  | none => exact trivial
  | some name =>
    rw [filter_some]
    split
    · exact h
    · exact trivial

/-- How a cut at a time leaves ordered keyframes: those before the time and
    those from it on, or with a keyframe put on the way between two. -/
inductive CutParts (keyframes : List BoardKeyframe) (time : Rat) (value : Json) :
    List BoardKeyframe × List BoardKeyframe → Prop where
  | apart (front rest : List BoardKeyframe) (heq : keyframes = front ++ rest)
      (hfront : ∀ k ∈ front, k.at_ < time) (hrest : ∀ k ∈ rest, time ≤ k.at_)
      (hmeet : front = [] ∨ ∀ k, rest.head? = some k → k.at_ = time) :
      CutParts keyframes time value (front ++ rest.filter fun k => k.at_ ≤ time, rest)
  | between (front rest : List BoardKeyframe) (a b b' cut cut' : BoardKeyframe)
      (heq : keyframes = front ++ a :: b :: rest) (ha : a.at_ < time) (hb : time < b.at_)
      (hcut : cut.at_ = time ∧ cut.value = value) (hcut' : cut'.at_ = time ∧ cut'.value = value)
      (hb' : b'.at_ = b.at_ ∧ b'.value = b.value)
      (hlinear : LinearEase b.ease →
        LinearEase cut.ease ∧ LinearEase cut'.ease ∧ LinearEase b'.ease) :
      CutParts keyframes time value (front ++ [a, cut], cut' :: b' :: rest)

section Cuts

variable {text : TextRules} {rules : SampleRules}
  {cutCurve : String → Rat → Option String × Option String} {entityId : Tracks → String}
  {document : BoardDocument}

theorem cutTrack_parts {track : BoardTrack} (h : InOrder track.keyframes) (time : Rat) :
    CutParts track.keyframes time (sampleTrack text rules document track time)
      (cutTrack (timelineCurves text rules cutCurve entityId) document track time) := by
  let front := track.keyframes.take (cutIndex track.keyframes time)
  let rest := track.keyframes.drop (cutIndex track.keyframes time)
  have heq : track.keyframes = front ++ rest := (take_append_drop _ _).symm
  have hfront : ∀ k ∈ front, k.at_ < time := by
    intro k hk
    obtain ⟨i, hi⟩ := mem_iff_getElem?.mp hk
    rw [getElem?_take] at hi
    split at hi
    · exact before_cutIndex ‹_› hi
    · cases hi
  have hrest : ∀ k ∈ rest, time ≤ k.at_ := by
    intro k hk
    obtain ⟨i, hi⟩ := mem_iff_getElem?.mp hk
    rw [getElem?_drop] at hi
    exact h.le_from_cutIndex (Nat.le_add_right _ i) hi
  have hbefore : (track.keyframes.filter fun k => k.at_ ≤ time) =
      front ++ rest.filter fun k => k.at_ ≤ time := by
    rw [heq, filter_append, filter_eq_self.mpr fun k hk => by simpa using (hfront k hk).le]
  have hafter : (track.keyframes.filter fun k => time ≤ k.at_) = rest := by
    have hnone : (front.filter fun k => time ≤ k.at_) = [] :=
      filter_eq_nil_iff.mpr fun k hk => by simpa using hfront k hk
    rw [heq, filter_append, hnone, nil_append]
    exact filter_eq_self.mpr fun k hk => by simpa using hrest k hk
  unfold cutTrack
  dsimp only
  rw [hbefore, hafter]
  split
  · rename_i hnone
    have hempty : rest = [] := by
      refine eq_nil_iff_forall_not_mem.mpr fun k hk => ?_
      have := findIdx?_eq_none_iff.mp hnone k (heq ▸ mem_append_right _ hk)
      exact absurd (hrest k hk) (by simpa using this)
    exact .apart front rest heq hfront hrest (.inr (by simp [hempty]))
  · rename_i index hindex
    obtain ⟨hlt, hcut⟩ := findIdx?_eq_some_iff_findIdx_eq.mp hindex
    have hindexEq : cutIndex track.keyframes time = index := hcut
    have hb := getElem?_eq_getElem hlt
    have hhead : rest.head? = track.keyframes[index]? := by
      rw [head?_drop, hindexEq]
    split
    · rename_i a b ha hb'
      obtain rfl := Option.some.inj (hb.symm.trans hb')
      have hpos : index ≠ 0 := by
        rintro rfl
        simp at ha
      rw [if_neg hpos] at ha
      split
      · rename_i hat
        refine .apart front rest heq hfront hrest (.inr fun k hk => ?_)
        rw [← Option.some.inj ((hhead.symm.trans hk).symm.trans hb).symm]
        exact hat
      · rename_i hat
        have hblt : time < track.keyframes[index].at_ :=
          lt_of_le_of_ne (hrest _ (mem_of_mem_head? (hhead.trans hb))) (Ne.symm hat)
        have halt : a.at_ < time := before_cutIndex (by omega) ha
        -- the keyframes before the cut end with `a`, the others start with `b`
        have hfrontEq : front = track.keyframes.take (index - 1) ++ [a] := by
          obtain ⟨ha', rfl⟩ := List.getElem?_eq_some_iff.mp ha
          show track.keyframes.take (cutIndex track.keyframes time) = _
          rw [hindexEq, take_append_getElem]
          congr 1
          omega
        have hrestEq : rest = track.keyframes[index] :: track.keyframes.drop (index + 1) := by
          show track.keyframes.drop (cutIndex track.keyframes time) = _
          rw [hindexEq, drop_eq_getElem_cons hlt]
        have hnoneAt : (rest.filter fun k => k.at_ ≤ time) = [] := by
          refine filter_eq_nil_iff.mpr fun k hk => ?_
          have := (h.sublist (drop_sublist (cutIndex track.keyframes time) _)).head_le
            (hhead.trans hb) k hk
          simpa using lt_of_lt_of_le hblt this
        rw [hnoneAt, hrestEq, append_nil, hfrontEq, append_assoc, drop_one,
          tail_cons]
        refine .between _ _ a _ _ _ _ ?_ halt hblt ⟨rfl, rfl⟩ ⟨rfl, rfl⟩ ⟨rfl, rfl⟩ ?_
        · exact (heq.trans (by rw [hfrontEq, hrestEq])).trans (append_assoc _ _ _)
        · intro hlinear
          split
          · exact ⟨withEase_linear _ hlinear, trivial, withEase_linear _ hlinear⟩
          · have heases : (timelineCurves text rules cutCurve entityId).splitEase
                track.keyframes[index].ease
                ((time - a.at_) / (track.keyframes[index].at_ - a.at_)) =
                (track.keyframes[index].ease, track.keyframes[index].ease) :=
              splitEase_linear hlinear _
            rw [heases]
            exact ⟨withEase_linear _ hlinear, trivial, withEase_linear _ hlinear⟩
    · rename_i hnot
      refine .apart front rest heq hfront hrest (.inl ?_)
      by_cases hzero : index = 0
      · show track.keyframes.take (cutIndex track.keyframes time) = []
        rw [hindexEq, hzero, take_zero]
      · obtain ⟨a, ha⟩ : ∃ a, track.keyframes[index - 1]? = some a :=
          ⟨_, getElem?_eq_getElem (lt_of_le_of_lt (Nat.sub_le index 1) hlt)⟩
        exact (hnot a _ (by rw [if_neg hzero, ha]) hb).elim

end Cuts

/-! ### What the parts are worth -/

section Parts

variable {motion : Motion} {keyframes : List BoardKeyframe} {time : Rat} {value : Json}
  {parts : List BoardKeyframe × List BoardKeyframe} {u : Rat}

/-- The value of a cut is what the keyframes are worth at its time. -/
def CutValue (motion : Motion) (keyframes : List BoardKeyframe) (time : Rat) (value : Json) : Prop :=
  valueAt motion keyframes time = some value

theorem cutValue_between {front rest : List BoardKeyframe} {a b : BoardKeyframe}
    (h : InOrder (front ++ a :: b :: rest)) (ha : a.at_ ≤ time) (hb : time < b.at_)
    (hvalue : CutValue motion (front ++ a :: b :: rest) time value) :
    value = motion.between a.value b.value ((time - a.at_) / (b.at_ - a.at_)) := by
  have hfront : ∀ k ∈ front.drop 1, k.at_ ≤ time := fun k hk =>
    le_trans ((pairwise_append.mp h.sorted).2.2 k (mem_of_mem_drop hk) a
      mem_cons_self) ha
  rw [CutValue, valueAt_append hfront ha, valueAt, if_pos hb, if_neg (not_lt.mpr ha)] at hvalue
  exact (Option.some.inj hvalue).symm

variable {first : BoardKeyframe}

section

variable (h : InOrder keyframes) (hparts : CutParts keyframes time value parts)
  (hvalue : CutValue motion keyframes time value)
include h hparts hvalue

theorem valueAt_firstPart {later : List BoardKeyframe} (hsorted : InOrder (parts.1 ++ later))
    (hlater : parts.2 = [] → later = []) (hfirst : keyframes.head? = some first)
    (hle : first.at_ ≤ time) (hu : u < time) :
    valueAt motion (parts.1 ++ later) u = valueAt motion keyframes u := by
  cases hparts with
  | apart front rest heq hfront hrest hmeet =>
    cases hrestEq : rest with
    | nil =>
      rw [hlater hrestEq, heq, hrestEq]
      simp
    | cons k rest' =>
      have hk : k.at_ = time := by
        rcases hmeet with rfl | hmeet
        · rw [heq, hrestEq] at hfirst
          obtain rfl := Option.some.inj hfirst
          exact le_antisymm hle (hrest k (by rw [hrestEq]; exact mem_cons_self))
        · exact hmeet k (by rw [hrestEq]; rfl)
      have huk : u < k.at_ := hk ▸ hu
      rw [hrestEq, filter_cons_of_pos (by simpa using hk.le), append_assoc,
        cons_append] at hsorted
      rw [heq, hrestEq] at h
      rw [filter_cons_of_pos (by simpa using hk.le), append_assoc, cons_append,
        heq, hrestEq, valueAt_take hsorted huk, valueAt_take h huk]
  | between front rest a b b' cut cut' heq ha hb hcut hcut' hb' hlinear =>
    have hlast : (front ++ [a, cut]) ++ later = (front ++ [a]) ++ cut :: later := by simp
    have hwhole : keyframes = (front ++ [a]) ++ b :: rest := by rw [heq]; simp
    have hbetween := cutValue_between (heq ▸ h) ha.le hb (heq ▸ hvalue)
    rw [hlast] at hsorted ⊢
    rw [hwhole] at h ⊢
    rw [valueAt_take hsorted (hcut.1 ▸ hu), valueAt_take h (hu.trans hb), append_assoc,
      append_assoc]
    -- up to `a` the cut does not matter, and from `a` on it is on the way to `b`
    have hcutSorted : InOrder (front ++ a :: [cut]) := by
      refine hsorted.sublist ?_
      simp
    have hbSorted : InOrder (front ++ a :: [b]) := by
      refine h.sublist ?_
      simp
    show valueAt motion (front ++ a :: [cut]) u = valueAt motion (front ++ a :: [b]) u
    rcases lt_or_ge u a.at_ with hua | hua
    · rw [valueAt_take hcutSorted hua, valueAt_take hbSorted hua]
    · have hfront : ∀ k ∈ front.drop 1, k.at_ ≤ u := fun k hk =>
        ((pairwise_append.mp hbSorted.sorted).2.2 k (mem_of_mem_drop hk) a
          mem_cons_self).trans hua
      rw [valueAt_append hfront hua, valueAt_append hfront hua]
      refine valueAt_cut_first (hcut.1 ▸ ha) (hcut.1 ▸ hb) ?_ (hcut.1 ▸ hu)
      rw [hcut.2, hcut.1]
      exact hbetween

theorem valueAt_secondPart (hne : parts.2 ≠ []) (hu : time ≤ u) :
    valueAt motion parts.2 u = valueAt motion keyframes u := by
  cases hparts with
  | apart front rest heq hfront hrest hmeet =>
    rcases hmeet with rfl | hmeet
    · rw [heq]
      rfl
    · cases hrestEq : rest with
      | nil => exact absurd hrestEq hne
      | cons k rest' =>
        have hk : k.at_ = time := hmeet k (by rw [hrestEq]; rfl)
        rw [heq, hrestEq]
        refine (valueAt_append (fun x hx => ?_) (hk.le.trans hu)).symm
        exact ((hfront x (mem_of_mem_drop hx)).le).trans hu
  | between front rest a b b' cut cut' heq ha hb hcut hcut' hb' hlinear =>
    rw [heq] at h hvalue ⊢
    have hfront : ∀ k ∈ front.drop 1, k.at_ ≤ u := fun k hk =>
      ((pairwise_append.mp h.sorted).2.2 k (mem_of_mem_drop hk) a
        mem_cons_self).trans (ha.le.trans hu)
    rw [valueAt_append hfront (ha.le.trans hu)]
    refine valueAt_cut_second (hcut'.1 ▸ ha) (hcut'.1 ▸ hb) ?_ hb'.1 hb'.2 (hcut'.1 ▸ hu)
    rw [hcut'.2, hcut'.1]
    exact cutValue_between h ha.le hb hvalue

end

theorem valueAt_last {keyframes : List BoardKeyframe} {last : BoardKeyframe}
    (hlast : keyframes.getLast? = some last) (hall : ∀ k ∈ keyframes, k.at_ ≤ u) :
    valueAt motion keyframes u = some last.value := by
  obtain ⟨front, rfl⟩ := getLast?_eq_some_iff.mp hlast
  rw [valueAt_append (fun k hk => hall k (mem_append_left _ (mem_of_mem_drop hk)))
    (hall last (by simp))]
  rfl

section

variable (hparts : CutParts keyframes time value parts)
include hparts

theorem CutParts.head_at {k : BoardKeyframe} (hfirst : keyframes.head? = some first)
    (hlt : first.at_ < time) (hk : parts.2.head? = some k) : k.at_ = time := by
  cases hparts with
  | apart front rest heq hfront hrest hmeet =>
    rcases hmeet with rfl | hmeet
    · rw [heq] at hfirst
      exact absurd (hrest first (mem_of_mem_head? hfirst)) (not_le.mpr hlt)
    · exact hmeet k hk
  | between front rest a b b' cut cut' heq ha hb hcut hcut' hb' hlinear =>
    rw [← Option.some.inj hk]
    exact hcut'.1

theorem CutParts.first_le (h : InOrder keyframes) : ∀ k ∈ parts.1, k.at_ ≤ time := by
  intro k hk
  cases hparts with
  | apart front rest heq hfront hrest hmeet =>
    rcases mem_append.mp hk with hk | hk
    · exact (hfront k hk).le
    · simpa using (mem_filter.mp hk).2
  | between front rest a b b' cut cut' heq ha hb hcut hcut' hb' hlinear =>
    rcases mem_append.mp hk with hk | hk
    · rw [heq] at h
      exact ((pairwise_append.mp h.sorted).2.2 k hk a mem_cons_self).trans ha.le
    · rcases mem_cons.mp hk with rfl | hk
      · exact ha.le
      · rw [mem_singleton.mp hk]
        exact hcut.1.le

theorem CutParts.second_eq_nil_iff :
    parts.2 = [] ↔ ∀ k ∈ keyframes, k.at_ < time := by
  cases hparts with
  | apart front rest heq hfront hrest hmeet =>
    constructor
    · rintro (rfl : rest = []) k hk
      rw [heq, append_nil] at hk
      exact hfront k hk
    · intro hall
      refine eq_nil_iff_forall_not_mem.mpr fun k hk => ?_
      exact absurd (hall k (heq ▸ mem_append_right _ hk)) (not_lt.mpr (hrest k hk))
  | between front rest a b b' cut cut' heq ha hb hcut hcut' hb' hlinear =>
    refine iff_of_false (by simp) fun hall => ?_
    exact absurd (hall b (by simp [heq])) (not_lt.mpr hb.le)

theorem CutParts.first_eq (hall : ∀ k ∈ keyframes, k.at_ ≤ time) : parts.1 = keyframes := by
  cases hparts with
  | apart front rest heq hfront hrest hmeet =>
    rw [heq] at hall ⊢
    show front ++ _ = front ++ rest
    rw [filter_eq_self.mpr fun k hk => by
      simpa using hall k (mem_append_right _ hk)]
  | between front rest a b b' cut cut' heq ha hb hcut hcut' hb' hlinear =>
    exact absurd (hall b (by simp [heq])) (not_le.mpr hb)

theorem CutParts.all_le (h : ∀ k ∈ parts.2, k.at_ ≤ time) : ∀ k ∈ keyframes, k.at_ ≤ time := by
  cases hparts with
  | apart front rest heq hfront hrest hmeet =>
    intro k hk
    rcases mem_append.mp (heq ▸ hk) with hk | hk
    · exact (hfront k hk).le
    · exact h k hk
  | between front rest a b b' cut cut' heq ha hb hcut hcut' hb' hlinear =>
    have := h b' (by simp)
    rw [hb'.1] at this
    exact absurd this (not_le.mpr hb)

theorem CutParts.second_eq (hall : ∀ k ∈ keyframes, time ≤ k.at_) : parts.2 = keyframes := by
  cases hparts with
  | apart front rest heq hfront hrest hmeet =>
    cases front with
    | nil => exact heq.symm
    | cons x front =>
      exact absurd (hall x (by simp [heq])) (not_le.mpr (hfront x mem_cons_self))
  | between front rest a b b' cut cut' heq ha hb hcut hcut' hb' hlinear =>
    exact absurd (hall a (by simp [heq])) (not_le.mpr ha)

theorem CutParts.first_eq_nil (hall : ∀ k ∈ keyframes, time < k.at_) : parts.1 = [] := by
  cases hparts with
  | apart front rest heq hfront hrest hmeet =>
    cases front with
    | nil =>
      refine filter_eq_nil_iff.mpr fun k hk => ?_
      simpa using hall k (heq ▸ hk)
    | cons x front =>
      exact absurd (hall x (by simp [heq])) (not_lt.mpr (hfront x mem_cons_self).le)
  | between front rest a b b' cut cut' heq ha hb hcut hcut' hb' hlinear =>
    exact absurd (hall a (by simp [heq])) (not_lt.mpr ha.le)

theorem CutParts.mem_tail_iff (h : InOrder keyframes) (hfirst : keyframes.head? = some first)
    (hlt : first.at_ < time) {at_ : Rat} (hat : time < at_) :
    (∃ k ∈ parts.2.tail, k.at_ = at_) ↔ ∃ k ∈ keyframes, k.at_ = at_ := by
  cases hparts with
  | apart front rest heq hfront hrest hmeet =>
    constructor
    · rintro ⟨k, hk, hkat⟩
      exact ⟨k, heq ▸ mem_append_right _ (mem_of_mem_tail hk), hkat⟩
    · rintro ⟨k, hk, hkat⟩
      rcases mem_append.mp (heq ▸ hk) with hk | hk
      · exact absurd (hfront k hk) (by rw [hkat]; exact not_lt.mpr hat.le)
      · cases hrestEq : rest with
        | nil => simp [hrestEq] at hk
        | cons x rest' =>
          rw [hrestEq] at hk
          rcases mem_cons.mp hk with rfl | hk
          · rcases hmeet with rfl | hmeet
            · rw [heq] at hfirst
              exact absurd (hrest first (mem_of_mem_head? hfirst)) (not_le.mpr hlt)
            · have := hmeet k (by rw [hrestEq]; rfl)
              linarith
          · exact ⟨k, hk, hkat⟩
  | between front rest a b b' cut cut' heq ha hb hcut hcut' hb' hlinear =>
    constructor
    · rintro ⟨k, hk, hkat⟩
      rcases mem_cons.mp hk with rfl | hk
      · exact ⟨b, by simp [heq], hb'.1 ▸ hkat⟩
      · exact ⟨k, by simp [heq, hk], hkat⟩
    · rintro ⟨k, hk, hkat⟩
      have hfront : ∀ x ∈ front, x.at_ < time := fun x hx =>
        lt_of_le_of_lt ((pairwise_append.mp (heq ▸ h).sorted).2.2 x hx a mem_cons_self) ha
      rw [heq] at hk
      rcases mem_append.mp hk with hk | hk
      · exact absurd (hfront k hk) (by rw [hkat]; exact not_lt.mpr hat.le)
      · rcases mem_cons.mp hk with rfl | hk
        · exact absurd ha (by rw [hkat]; exact not_lt.mpr hat.le)
        · rcases mem_cons.mp hk with rfl | hk
          · exact ⟨b', mem_cons_self, hb'.1.trans hkat⟩
          · exact ⟨k, mem_cons_of_mem _ hk, hkat⟩

end

end Parts

/-! ## Time put in -/

section Plain

variable {text : TextRules} {rules : SampleRules}
  {cutCurve : String → Rat → Option String × Option String} {entityId : Tracks → String}
  {document : BoardDocument} {type : String} {track : BoardTrack} {motion : Motion}

theorem valueAt_ne_none {keyframes : List BoardKeyframe} (h : keyframes ≠ []) (u : Rat) :
    ∃ value, valueAt motion keyframes u = some value := by
  induction keyframes with
  | nil => exact absurd rfl h
  | cons a rest ih =>
    cases rest with
    | nil => exact ⟨a.value, rfl⟩
    | cons b rest =>
      rw [valueAt]
      split
      · split
        · exact ⟨_, rfl⟩
        · exact ⟨_, rfl⟩
      · exact ih (by simp)

theorem PlainTrack.cutValue (h : PlainTrack text type track motion)
    (htype : targetType document track.target = some type) (time : Rat) :
    CutValue motion track.keyframes time (sampleTrack text rules document track time) := by
  obtain ⟨value, hvalue⟩ : ∃ value, valueAt motion track.keyframes time = some value :=
    valueAt_ne_none h.valid.nonempty time
  obtain ⟨spec, hspec, -⟩ := h.moves
  have hsample := h.sampleOf_eq rules time
  rw [hvalue] at hsample
  have htrack : sampleTrack text rules document track time = value := by
    simp only [sampleOf, compileBoardTrack, hspec, bind_some] at hsample
    simp only [sampleTrack, htype, bind_some, compileBoardTrack, hspec, hsample,
      getD_some]
  rw [CutValue, htrack, hvalue]

theorem PlainTrack.visible_steps (h : PlainTrack text type track motion)
    (hvisible : track.property = visibleProperty) : motion = .steps := by
  obtain ⟨spec, hspec, hmotion⟩ := h.moves
  rw [visible_kind (hvisible ▸ hspec) track hvisible] at hmotion
  unfold motionOf at hmotion
  split at hmotion <;> exact (Option.some.inj hmotion).symm

theorem withoutAnchor_cases (track : BoardTrack) :
    withoutAnchor track = track.keyframes ∨
      ∃ first second rest, track.keyframes = first :: second :: rest ∧
        withoutAnchor track = second :: rest ∧ track.property = visibleProperty ∧
        first.at_ = 0 ∧ first.value = .bool false := by
  unfold withoutAnchor
  split
  · rename_i first second rest hkeyframes
    split
    · rename_i hanchor
      exact .inr ⟨first, second, rest, hkeyframes, rfl, hanchor⟩
    · exact .inl rfl
  · exact .inl rfl

variable (rules cutCurve entityId) in
theorem valueAt_insertedKeyframes (h : PlainTrack text type track motion)
    (htype : targetType document track.target = some type) {time gap : Rat} (hgap : 0 < gap)
    (u : Rat) :
    let keyframes := insertedKeyframes (timelineCurves text rules cutCurve entityId) document time
      gap track
    (u < time → valueAt motion keyframes u = valueAt motion track.keyframes u) ∧
      (time + gap ≤ u →
        valueAt motion keyframes u = valueAt motion track.keyframes (u - gap)) := by
  intro keyframes
  have horder := h.valid.toInOrder
  have hsorted : InOrder keyframes := insertedKeyframes_inOrder _ document horder time hgap.le
  have hshift : ∀ l, valueAt motion (shiftKeyframes l gap) u = valueAt motion l (u - gap) := by
    intro l
    rw [← valueAt_shift l gap (u - gap), sub_add_cancel]
  have hcut : CutParts track.keyframes time (sampleTrack text rules document track time)
      (cutTrack (timelineCurves text rules cutCurve entityId) document track time) :=
    cutTrack_parts horder time
  have hvalue : CutValue motion track.keyframes time (sampleTrack text rules document track time) :=
    h.cutValue htype time
  generalize hparts : cutTrack (timelineCurves text rules cutCurve entityId) document track time =
    parts at hcut
  by_cases hhead : time ≤ (withoutAnchor track).head?.elim 0 BoardKeyframe.at_
  · -- everything but the anchor moves
    have hkeyframes : keyframes = track.keyframes.take
        (track.keyframes.length - (withoutAnchor track).length) ++
        shiftKeyframes (withoutAnchor track) gap := by
      show insertedKeyframes _ document time gap track = _
      unfold insertedKeyframes
      rw [if_pos hhead]
    rcases withoutAnchor_cases track with hbody | ⟨first, second, rest, hall, hbody, hvisible, -, -⟩
    · rw [hkeyframes, hbody, Nat.sub_self, take_zero, nil_append]
      refine ⟨fun hu => ?_, fun _ => hshift _⟩
      cases hall : track.keyframes with
      | nil => rfl
      | cons first rest =>
        rw [hkeyframes, hbody, hall, Nat.sub_self, take_zero, nil_append] at hsorted
        rw [hbody, hall] at hhead
        rw [hall] at horder
        have hufirst : u < first.at_ := lt_of_lt_of_le hu hhead
        have humoved : u < first.at_ + gap := by linarith
        rw [valueAt_before horder hufirst]
        exact valueAt_before hsorted humoved
    · obtain rfl := h.visible_steps hvisible
      have hkeyframes' : keyframes = first :: shiftKeyframes (second :: rest) gap := by
        rw [hkeyframes, hbody, hall]
        simp
      rw [hbody] at hhead
      have hsecond : time ≤ second.at_ := hhead
      -- before the second keyframe the first one holds
      have hhold : ∀ (b : BoardKeyframe) (l : List BoardKeyframe) (v : Rat), v < b.at_ →
          valueAt .steps (first :: b :: l) v = some first.value := by
        intro b l v hv
        rw [valueAt, if_pos hv]
        split <;> rfl
      rw [hkeyframes', hall]
      refine ⟨fun hu => ?_, fun hu => ?_⟩
      · rw [hhold second rest u (lt_of_lt_of_le hu hsecond)]
        exact hhold _ _ u (show u < second.at_ + gap by linarith)
      · rcases lt_or_ge u (second.at_ + gap) with hlt | hle
        · rw [hhold second rest (u - gap) (by linarith)]
          exact hhold _ _ u hlt
        · have hafter : ∀ (b : BoardKeyframe) (l : List BoardKeyframe) (v : Rat), b.at_ ≤ v →
              valueAt .steps (first :: b :: l) v = valueAt .steps (b :: l) v := by
            intro b l v hv
            rw [valueAt, if_neg (not_lt.mpr hv)]
          rw [hafter second rest (u - gap) (by linarith), ← hshift]
          exact hafter _ _ u hle
  · -- the first keyframe is before the cut
    obtain ⟨first, hfirst⟩ := exists_head h.valid.nonempty
    have hlt : first.at_ < time := by
      refine lt_of_le_of_lt ?_ (not_le.mp hhead)
      rcases withoutAnchor_cases track with hbody | ⟨_, second, rest, hall, hbody, -, -, -⟩
      · rw [hbody, hfirst]
        exact le_refl _
      · rw [hbody]
        exact horder.head_le hfirst second (by simp [hall])
    by_cases hany : parts.2.any fun k => time < k.at_
    · have hkeyframes : keyframes = parts.1 ++ shiftKeyframes parts.2 gap := by
        show insertedKeyframes _ document time gap track = _
        unfold insertedKeyframes
        rw [if_neg hhead, hparts, if_pos hany]
      have hne : parts.2 ≠ [] := by
        rintro hnil
        simp [hnil] at hany
      rw [hkeyframes] at hsorted ⊢
      refine ⟨fun hu => valueAt_firstPart horder hcut hvalue hsorted (fun hnil => absurd hnil hne)
        hfirst hlt.le hu, fun hu => ?_⟩
      have hsecond := valueAt_secondPart horder hcut hvalue hne (u := u - gap) (by linarith)
      obtain ⟨k, hk⟩ := exists_head hne
      have hkat := hcut.head_at hfirst hlt hk
      rw [← hsecond, ← hshift]
      cases hlist : parts.2 with
      | nil => exact absurd hlist hne
      | cons x rest =>
        rw [hlist] at hk
        obtain rfl := Option.some.inj hk
        refine valueAt_append (fun y hy => ?_) (show x.at_ + gap ≤ u by linarith)
        have := hcut.first_le horder y (mem_of_mem_drop hy)
        linarith
    · have hkeyframes : keyframes = parts.1 := by
        show insertedKeyframes _ document time gap track = _
        unfold insertedKeyframes
        rw [if_neg hhead, hparts, if_neg hany]
      have hall : ∀ k ∈ track.keyframes, k.at_ ≤ time := hcut.all_le (by simpa using hany)
      rw [hkeyframes, hcut.first_eq hall]
      obtain ⟨last, hlast⟩ := exists_last h.valid.nonempty
      refine ⟨fun _ => rfl, fun hu => ?_⟩
      rw [valueAt_last hlast fun k hk => (hall k hk).trans (by linarith),
        valueAt_last hlast fun k hk => (hall k hk).trans (by linarith)]

/-! ## Time taken out -/

/-- The seam of a join does not show at a time: the keyframes that meet have one
    value, or the next keyframe is reached, or no later value is on the way
    and the millisecond of the jump is over. -/
def SeamPassed (motion : Motion) (before after : List BoardKeyframe) (start u : Rat) : Prop :=
  before.getLast?.map BoardKeyframe.value = after.head?.map BoardKeyframe.value ∨
    (∃ second, after.tail.head? = some second ∧ second.at_ ≤ u) ∨
    ((motion = .steps ∨ after.tail = []) ∧ start + 1 ≤ u)

theorem valueAt_join {before after : List BoardKeyframe} {start u : Rat} {first : BoardKeyframe}
    {rest : List BoardKeyframe} (hbefore : ∀ k ∈ before, k.at_ ≤ start)
    (hafter : after = first :: rest) (hfirst : first.at_ = start) (hu : start ≤ u)
    (hpassed : SeamPassed motion before after start u) :
    valueAt motion (join before after) u = valueAt motion after u := by
  have happend : ∀ (front l : List BoardKeyframe) (k : BoardKeyframe),
      (∀ x ∈ front, x.at_ ≤ u) → k.at_ ≤ u →
      valueAt motion (front ++ k :: l) u = valueAt motion (k :: l) u := fun front l k hfront hk =>
    valueAt_append (fun x hx => hfront x (mem_of_mem_drop hx)) hk
  have hbeforeU : ∀ k ∈ before, k.at_ ≤ u := fun k hk => (hbefore k hk).trans hu
  subst hafter
  cases hlast : before.getLast? with
  | none =>
    rw [getLast?_eq_none_iff.mp hlast]
    rfl
  | some last =>
    obtain ⟨init, rfl⟩ := getLast?_eq_some_iff.mp hlast
    have hinit : ∀ x ∈ init, x.at_ ≤ u := fun x hx => hbeforeU x (mem_append_left _ hx)
    have hlastU : last.at_ ≤ u := hbeforeU last (by simp)
    unfold join
    rw [hlast]
    dsimp only
    split
    · exact happend _ _ _ hbeforeU (hfirst.trans_le hu)
    · rename_i hmeet
      have hlastAt : last.at_ = start := (not_not.mp hmeet).symm.trans hfirst
      split
      · -- the first keyframe of the second half is left out
        rename_i hdrop
        rw [append_assoc, singleton_append]
        cases rest with
        | nil =>
          have hvalue : first.value = last.value := hdrop.resolve_right (by simp)
          rw [happend _ _ _ hinit hlastU, valueAt, valueAt, hvalue]
        | cons second rest =>
          rcases lt_or_ge u second.at_ with hlt | hle
          · have hvalue : first.value = last.value := by
              rcases hpassed with hsame | ⟨k, hk, hku⟩ | ⟨-, hmillisecond⟩
              · rw [hlast] at hsame
                exact (Option.some.inj hsame).symm
              · obtain rfl := Option.some.inj hk
                exact absurd hku (not_le.mpr hlt)
              · refine hdrop.resolve_right fun hnear => ?_
                have : second.at_ ≤ first.at_ + 1 := by simpa using hnear
                linarith
            rw [happend _ _ _ hinit hlastU, valueAt, valueAt, hvalue, hlastAt, hfirst]
          · have hinitLast : ∀ x ∈ init ++ [last], x.at_ ≤ u := hbeforeU
            have hsplit : init ++ last :: second :: rest = (init ++ [last]) ++ second :: rest := by
              simp
            rw [hsplit, happend _ _ _ hinitLast hle]
            exact (happend [first] rest second
              (fun x hx => by rw [mem_singleton.mp hx, hfirst]; exact hu) hle).symm
      · -- it comes a millisecond later
        rename_i hkept
        obtain ⟨hvalue, hfar⟩ := not_or.mp hkept
        have hdiffer : ¬ (init ++ [last]).getLast?.map BoardKeyframe.value =
            some first.value := by
          rw [hlast]
          exact fun hsame => hvalue (Option.some.inj hsame).symm
        cases rest with
        | nil =>
          rcases hpassed with hsame | ⟨k, hk, -⟩ | ⟨-, hmillisecond⟩
          · exact absurd hsame hdiffer
          · cases hk
          · exact happend _ _ _ hbeforeU (show first.at_ + 1 ≤ u by linarith)
        | cons second rest =>
          have hfar' : first.at_ + 1 < second.at_ := by simpa using hfar
          rcases lt_or_ge u second.at_ with hlt | hle
          · rcases hpassed with hsame | ⟨k, hk, hku⟩ | ⟨hmotion, hmillisecond⟩
            · exact absurd hsame hdiffer
            · obtain rfl := Option.some.inj hk
              exact absurd hku (not_le.mpr hlt)
            · obtain rfl := hmotion.resolve_right (by simp)
              have hmoved : first.at_ + 1 ≤ u := by linarith
              rw [happend _ _ _ hbeforeU (show _ ≤ u from hmoved), valueAt, valueAt, if_pos hlt,
                if_pos hlt, if_neg (not_lt.mpr hmoved),
                if_neg (not_lt.mpr (hfirst.trans_le hu))]
              rfl
          · have hall : ∀ x ∈ (init ++ [last]) ++ [{ first with at_ := first.at_ + 1 }],
                x.at_ ≤ u := by
              intro x hx
              rcases mem_append.mp hx with hx | hx
              · exact hbeforeU x hx
              · rw [mem_singleton.mp hx]
                show first.at_ + 1 ≤ u
                linarith
            have hsplit : (init ++ [last]) ++ { first with at_ := first.at_ + 1 } :: second :: rest =
                ((init ++ [last]) ++ [{ first with at_ := first.at_ + 1 }]) ++ second :: rest := by
              simp
            rw [hsplit, happend _ _ _ hall hle]
            exact (happend [first] rest second
              (fun x hx => by rw [mem_singleton.mp hx, hfirst]; exact hu) hle).symm

theorem join_append (before after : List BoardKeyframe) :
    ∃ later, join before after = before ++ later ∧ (after = [] → later = []) := by
  unfold join
  split
  · split
    · exact ⟨_, rfl, id⟩
    · split
      · exact ⟨_, rfl, fun h => by cases h⟩
      · exact ⟨_, rfl, fun h => by cases h⟩
  · exact ⟨_, rfl, id⟩

theorem join_nil_left (after : List BoardKeyframe) : join [] after = after := rfl

theorem join_nil_right (before : List BoardKeyframe) : join before [] = before := by
  unfold join
  split
  · rename_i h
    cases h
  · exact append_nil before

section Removed

variable (h : PlainTrack text type track motion)
  (htype : targetType document track.target = some type) {start end_ : Rat} (hstart : 0 ≤ start)
  (hlt : start < end_) {value : Json}

theorem removedKeyframes_later (curves : TrackCurves)
    {first second : List BoardKeyframe × List BoardKeyframe} {value' : Json}
    (hfirst : CutParts track.keyframes start value first)
    (hsecond : CutParts track.keyframes end_ value' second)
    (hcutFirst : cutTrack curves document track start = first)
    (hcutSecond : cutTrack curves document track end_ = second) (hlt : start < end_)
    (hall : ∀ k ∈ track.keyframes, end_ ≤ k.at_) :
    removedKeyframes curves document start end_ track =
      shiftKeyframes track.keyframes (-(end_ - start)) := by
  unfold removedKeyframes
  rw [hcutFirst, hcutSecond, hsecond.second_eq hall,
    hfirst.first_eq_nil fun k hk => lt_of_lt_of_le hlt (hall k hk)]
  simp only [join_nil_left, nil_append, ite_self]

variable {u : Rat}

variable (rules cutCurve entityId) in
include h htype hstart hlt in
theorem valueAt_removedKeyframes_before
    (hwhere : (∃ k ∈ track.keyframes, k.at_ ≤ start) ∨ ∀ k ∈ track.keyframes, end_ ≤ k.at_)
    (hu : u < start) :
    valueAt motion (removedKeyframes (timelineCurves text rules cutCurve entityId) document start
      end_ track) u = valueAt motion track.keyframes u := by
  have horder := h.valid.toInOrder
  have hsorted : InOrder (removedKeyframes (timelineCurves text rules cutCurve entityId) document
      start end_ track) := removedKeyframes_inOrder _ document horder hstart
  have hfirst : CutParts track.keyframes start (sampleTrack text rules document track start)
      (cutTrack (timelineCurves text rules cutCurve entityId) document track start) :=
    cutTrack_parts horder start
  have hsecond : CutParts track.keyframes end_ (sampleTrack text rules document track end_)
      (cutTrack (timelineCurves text rules cutCurve entityId) document track end_) :=
    cutTrack_parts horder end_
  rcases hwhere with ⟨k, hk, hkstart⟩ | hall
  · obtain ⟨head, hhead⟩ := exists_head h.valid.nonempty
    obtain ⟨later, hlater, hnil⟩ : ∃ later, removedKeyframes
        (timelineCurves text rules cutCurve entityId) document start end_ track =
        (cutTrack (timelineCurves text rules cutCurve entityId) document track start).1 ++ later ∧
        (shiftKeyframes (cutTrack (timelineCurves text rules cutCurve entityId) document track
          end_).2 (-(end_ - start)) = [] → later = []) := by
      unfold removedKeyframes
      dsimp only
      split
      · exact ⟨_, rfl, id⟩
      · exact join_append _ _
    rw [hlater] at hsorted ⊢
    refine valueAt_firstPart horder hfirst (h.cutValue htype start) hsorted (fun hempty => ?_)
      hhead ((horder.head_le hhead k hk).trans hkstart) hu
    apply hnil
    rw [hsecond.second_eq_nil_iff.mpr fun k' hk' =>
      (hfirst.second_eq_nil_iff.mp hempty k' hk').trans hlt]
    rfl
  · rw [removedKeyframes_later _ hfirst hsecond rfl rfl hlt hall] at hsorted ⊢
    cases hlist : track.keyframes with
    | nil => rfl
    | cons x rest =>
      have hx : end_ ≤ x.at_ := hall x (by simp [hlist])
      rw [hlist] at hsorted horder
      have hux : u < x.at_ + -(end_ - start) := by linarith
      rw [valueAt_before horder (by linarith)]
      exact valueAt_before hsorted hux

/-- The seam of what a removal joins does not show at a time: the keyframes that
    meet have one value, or a keyframe after the removed time is reached, or
    nothing moves on from the seam and the millisecond of the jump is over. -/
def Settled (curves : TrackCurves) (document : BoardDocument) (motion : Motion)
    (track : BoardTrack) (start end_ u : Rat) : Prop :=
  (cutTrack curves document track start).1.getLast?.map BoardKeyframe.value =
      (cutTrack curves document track end_).2.head?.map BoardKeyframe.value ∨
    (∃ k ∈ track.keyframes, end_ < k.at_ ∧ k.at_ - (end_ - start) ≤ u) ∨
    ((motion = .steps ∨ ∀ k ∈ track.keyframes, k.at_ ≤ end_) ∧ start + 1 ≤ u)

theorem head?_shiftKeyframes (keyframes : List BoardKeyframe) (shift : Rat) :
    (shiftKeyframes keyframes shift).head? =
      keyframes.head?.map fun k => { k with at_ := k.at_ + shift } := head?_map

theorem tail_shiftKeyframes (keyframes : List BoardKeyframe) (shift : Rat) :
    (shiftKeyframes keyframes shift).tail = shiftKeyframes keyframes.tail shift := by
  cases keyframes <;> rfl

include h in
theorem Settled.seamPassed {curves : TrackCurves}
    (hsettled : Settled curves document motion track start end_ u)
    (hsecond : CutParts track.keyframes end_ value (cutTrack curves document track end_))
    (hafter : InOrder (shiftKeyframes (cutTrack curves document track end_).2 (-(end_ - start))))
    {head : BoardKeyframe} (hhead : track.keyframes.head? = some head) (hlt : head.at_ < end_) :
    SeamPassed motion (cutTrack curves document track start).1
      (shiftKeyframes (cutTrack curves document track end_).2 (-(end_ - start))) start u := by
  have htail : ∀ k ∈ (cutTrack curves document track end_).2.tail, k.at_ - (end_ - start) ≤ u →
      ∃ second, (shiftKeyframes (cutTrack curves document track end_).2
        (-(end_ - start))).tail.head? = some second ∧ second.at_ ≤ u := by
    intro k hk hku
    have hmem : { k with at_ := k.at_ + -(end_ - start) } ∈
        (shiftKeyframes (cutTrack curves document track end_).2 (-(end_ - start))).tail := by
      rw [tail_shiftKeyframes]
      exact mem_shiftKeyframes.mpr ⟨k, hk, rfl⟩
    obtain ⟨second, hsecond⟩ := exists_head (ne_nil_of_mem hmem)
    refine ⟨second, hsecond, ?_⟩
    have hle := (hafter.sublist (tail_sublist _)).head_le hsecond _ hmem
    have : k.at_ + -(end_ - start) ≤ u := by linarith
    exact le_trans hle this
  rcases hsettled with hsame | ⟨k, hk, hkend, hku⟩ | ⟨hmotion, hmillisecond⟩
  · left
    rw [hsame, head?_shiftKeyframes, Option.map_map]
    rfl
  · obtain ⟨k', hk', hat⟩ :=
      (hsecond.mem_tail_iff h.valid.toInOrder hhead hlt hkend).mpr ⟨k, hk, rfl⟩
    exact .inr (.inl (htail k' hk' (hat ▸ hku)))
  · rcases hmotion with hsteps | hall
    · exact .inr (.inr ⟨.inl hsteps, hmillisecond⟩)
    · by_cases hempty : (cutTrack curves document track end_).2.tail = []
      · refine Or.inr (.inr ⟨.inr ?_, hmillisecond⟩)
        rw [tail_shiftKeyframes, hempty]
        rfl
      · -- every later keyframe is at the end of the removed time too
        obtain ⟨k, hk⟩ := exists_mem_of_ne_nil _ hempty
        refine Or.inr (.inl (htail k hk ?_))
        have hkend : k.at_ ≤ end_ := by
          by_contra hgt
          obtain ⟨k', hk', hat⟩ := (hsecond.mem_tail_iff h.valid.toInOrder hhead hlt
            (not_le.mp hgt)).mp ⟨k, hk, rfl⟩
          exact hgt (hat ▸ hall k' hk')
        linarith

variable (rules cutCurve entityId) in
include h htype hstart hlt in
theorem valueAt_removedKeyframes_after (hu : start ≤ u)
    (hwhere : (∀ k ∈ track.keyframes, k.at_ ≤ start) ∨
      ((∃ k ∈ track.keyframes, end_ ≤ k.at_) ∧
        (track.property = visibleProperty ∨ (∀ k ∈ track.keyframes, start < k.at_) ∨
          Settled (timelineCurves text rules cutCurve entityId) document motion track start end_
            u))) :
    valueAt motion (removedKeyframes (timelineCurves text rules cutCurve entityId) document start
      end_ track) u = valueAt motion track.keyframes (u + (end_ - start)) := by
  have horder := h.valid.toInOrder
  have hafterOrder : InOrder (shiftKeyframes (cutTrack (timelineCurves text rules cutCurve entityId)
      document track end_).2 (-(end_ - start))) :=
    (removedKeyframes_seam _ document horder hstart).2.1
  have hfirst : CutParts track.keyframes start (sampleTrack text rules document track start)
      (cutTrack (timelineCurves text rules cutCurve entityId) document track start) :=
    cutTrack_parts horder start
  have hsecond : CutParts track.keyframes end_ (sampleTrack text rules document track end_)
      (cutTrack (timelineCurves text rules cutCurve entityId) document track end_) :=
    cutTrack_parts horder end_
  have hshift : ∀ l, valueAt motion (shiftKeyframes l (-(end_ - start))) u =
      valueAt motion l (u + (end_ - start)) := by
    intro l
    rw [← valueAt_shift l (-(end_ - start)) (u + (end_ - start)), add_neg_cancel_right]
  rcases hwhere with hall | ⟨⟨k, hk, hkend⟩, hseam⟩
  · -- nothing is left of the second part
    have hnil : (cutTrack (timelineCurves text rules cutCurve entityId) document track end_).2 =
        [] := hsecond.second_eq_nil_iff.mpr fun k hk => lt_of_le_of_lt (hall k hk) hlt
    have hkept : removedKeyframes (timelineCurves text rules cutCurve entityId) document start end_
        track = track.keyframes := by
      unfold removedKeyframes
      rw [hnil, hfirst.first_eq hall]
      simp only [shiftKeyframes, map_nil, join_nil_right, append_nil, ite_self]
    obtain ⟨last, hlast⟩ := exists_last h.valid.nonempty
    rw [hkept, valueAt_last hlast fun k hk => (hall k hk).trans hu,
      valueAt_last hlast fun k hk => (hall k hk).trans (by linarith)]
  · obtain ⟨head, hhead⟩ := exists_head h.valid.nonempty
    rcases le_or_gt end_ head.at_ with hle | hheadlt
    · rw [removedKeyframes_later _ hfirst hsecond rfl rfl hlt fun k hk =>
        hle.trans (horder.head_le hhead k hk), hshift]
    · have hne : (cutTrack (timelineCurves text rules cutCurve entityId) document track end_).2 ≠
          [] := fun hnil =>
        absurd (hsecond.second_eq_nil_iff.mp hnil k hk) (not_lt.mpr hkend)
      have hvalue := valueAt_secondPart horder hsecond (h.cutValue htype end_) hne
        (show end_ ≤ u + (end_ - start) by linarith)
      rw [← hvalue, ← hshift]
      -- the second part starts where the time was
      obtain ⟨first, rest, hlist, hfirstAt⟩ : ∃ first rest, shiftKeyframes
          (cutTrack (timelineCurves text rules cutCurve entityId) document track end_).2
          (-(end_ - start)) = first :: rest ∧ first.at_ = start := by
        cases hlist : (cutTrack (timelineCurves text rules cutCurve entityId) document track
            end_).2 with
        | nil => exact absurd hlist hne
        | cons x rest =>
          have hx : x.at_ = end_ := hsecond.head_at hhead hheadlt (by rw [hlist]; rfl)
          refine ⟨_, _, rfl, ?_⟩
          show x.at_ + -(end_ - start) = start
          linarith
      have hbefore := hfirst.first_le horder
      unfold removedKeyframes
      dsimp only
      split
      · rw [hlist]
        refine valueAt_append (fun x hx => ?_) (hfirstAt.trans_le hu)
        exact (hbefore x (mem_of_mem_drop hx)).trans hu
      · rename_i hvisible
        rcases hseam with hseam | hseam | hsettled
        · exact absurd hseam hvisible
        · rw [hfirst.first_eq_nil hseam, join_nil_left]
        · exact valueAt_join hbefore hlist hfirstAt hu
            (hsettled.seamPassed h hsecond hafterOrder hhead hheadlt)

end Removed

end Plain

/-! ## Visible tracks -/

/-- The value of the last keyframe that is not after a time. -/
def lastValue (keyframes : List BoardKeyframe) (u : Rat) : Option Json :=
  (keyframes.filter fun k => k.at_ ≤ u).getLast?.map BoardKeyframe.value

theorem lastValue_append (front rest : List BoardKeyframe) (u : Rat) :
    lastValue (front ++ rest) u = (lastValue rest u <|> lastValue front u) := by
  unfold lastValue
  rw [filter_append, getLast?_append]
  cases (rest.filter fun k => k.at_ ≤ u).getLast? <;> rfl

theorem lastValue_single (k : BoardKeyframe) (u : Rat) :
    lastValue [k] u = if k.at_ ≤ u then some k.value else none := by
  unfold lastValue
  by_cases hk : k.at_ ≤ u
  · rw [filter_cons_of_pos (by simpa using hk), if_pos hk]
    rfl
  · rw [filter_cons_of_neg (by simpa using hk), if_neg hk]
    rfl

variable {keyframes : List BoardKeyframe} {u : Rat} {first : BoardKeyframe}

theorem valueAt_steps (h : InOrder keyframes) (hfirst : keyframes.head? = some first)
    (hle : first.at_ ≤ u) : valueAt .steps keyframes u = lastValue keyframes u := by
  induction keyframes generalizing first with
  | nil => cases hfirst
  | cons a rest ih =>
    obtain rfl := Option.some.inj hfirst
    have hcons : lastValue (a :: rest) u = (lastValue rest u <|> some a.value) := by
      show lastValue ([a] ++ rest) u = _
      rw [lastValue_append, lastValue_single, if_pos hle]
    rw [hcons]
    cases rest with
    | nil => rfl
    | cons b rest =>
      have hrest : InOrder (b :: rest) := h.sublist (sublist_cons_self _ _)
      rw [valueAt]
      split
      · rename_i hub
        have hnone : lastValue (b :: rest) u = none := by
          unfold lastValue
          rw [filter_eq_nil_iff.mpr fun k hk => by
            simpa using lt_of_lt_of_le hub (hrest.head_le rfl k hk)]
          rfl
        rw [if_neg (not_lt.mpr hle), hnone]
        rfl
      · rename_i hub
        rw [ih hrest rfl (not_lt.mp hub)]
        cases hvalue : lastValue (b :: rest) u with
        | some value => rfl
        | none =>
          rw [← ih hrest rfl (not_lt.mp hub)] at hvalue
          obtain ⟨value, hsome⟩ : ∃ value, valueAt .steps (b :: rest) u = some value :=
            valueAt_ne_none (by simp) u
          rw [hsome] at hvalue
          cases hvalue

theorem sameValue_eq {a b : Json} (h : sameValue a b = true) : a = b := by
  cases a <;> simp_all [sameValue]

theorem lastValue_normalizeStep {result : List BoardKeyframe} {keyframe : BoardKeyframe}
    (hle : ∀ k ∈ result, k.at_ ≤ keyframe.at_) (u : Rat) :
    lastValue (normalizeStep result keyframe) u = lastValue (result ++ [keyframe]) u := by
  -- what is left of the earlier keyframes has their last value, up to the keyframe
  obtain ⟨rest, hrest, hsub, hstep⟩ : ∃ rest : List BoardKeyframe,
      (u < keyframe.at_ → lastValue rest u = lastValue result u) ∧ (∀ k ∈ rest, k ∈ result) ∧
      normalizeStep result keyframe =
        if rest.getLast?.any fun previous => sameValue previous.value keyframe.value then rest
        else rest ++ [keyframe] := by
    unfold normalizeStep
    by_cases hlast : result.getLast?.any fun previous => previous.at_ = keyframe.at_
    · obtain ⟨last, hlastEq, hat⟩ := (Option.any_eq_true _ _).mp hlast
      obtain ⟨init, rfl⟩ := getLast?_eq_some_iff.mp hlastEq
      refine ⟨init, fun hu => ?_, fun k hk => mem_append_left _ hk, ?_⟩
      · have hafter : ¬ last.at_ ≤ u := by
          have : last.at_ = keyframe.at_ := by simpa using hat
          exact not_le.mpr (this ▸ hu)
        rw [lastValue_append, lastValue_single, if_neg hafter]
        rfl
      · rw [if_pos hlast, dropLast_concat]
    · exact ⟨result, fun _ => rfl, fun k hk => hk, by rw [if_neg hlast]⟩
  rw [hstep, lastValue_append, lastValue_single]
  rcases le_or_gt keyframe.at_ u with hku | hku
  · rw [if_pos hku]
    split
    · rename_i hsame
      obtain ⟨last, hlast, hvalue⟩ := (Option.any_eq_true _ _).mp hsame
      obtain ⟨init, rfl⟩ := getLast?_eq_some_iff.mp hlast
      have hlastU : last.at_ ≤ u := (hle last (hsub last (by simp))).trans hku
      rw [lastValue_append, lastValue_single, if_pos hlastU, sameValue_eq hvalue]
      rfl
    · rw [lastValue_append, lastValue_single, if_pos hku]
      rfl
  · rw [if_neg (not_le.mpr hku)]
    split
    · rw [hrest hku]
      rfl
    · rw [lastValue_append, lastValue_single, if_neg (not_le.mpr hku), hrest hku]

theorem lastValue_foldl_normalizeStep (keyframes result : List BoardKeyframe)
    (h : InOrder (result ++ keyframes)) (u : Rat) :
    lastValue (keyframes.foldl normalizeStep result) u = lastValue (result ++ keyframes) u := by
  induction keyframes generalizing result with
  | nil => rw [append_nil, foldl_nil]
  | cons keyframe rest ih =>
    have hsub : (normalizeStep result keyframe ++ rest).Sublist (result ++ keyframe :: rest) := by
      have := (normalizeStep_sublist result keyframe).append_right rest
      rwa [append_assoc] at this
    rw [foldl_cons, ih _ (h.sublist hsub), lastValue_append, lastValue_normalizeStep,
      ← lastValue_append, append_assoc]
    · rfl
    · exact fun k hk => (pairwise_append.mp h.sorted).2.2 k hk keyframe mem_cons_self

theorem sortKeyframes_eq (h : InOrder keyframes) : sortKeyframes keyframes = keyframes :=
  List.Pairwise.insertionSort_eq h.sorted

theorem valueAt_normalizeVisible (h : InOrder keyframes) (hfirst : keyframes.head? = some first)
    (hu : 0 ≤ u) (hshown : first.at_ ≤ u ∨ first.value = .bool false) :
    valueAt .steps (normalizeVisible keyframes) u = valueAt .steps keyframes u := by
  have hne : keyframes ≠ [] := by rintro rfl; cases hfirst
  have hlast := lastValue_foldl_normalizeStep keyframes [] (by simpa using h) u
  have hsub := foldl_normalizeStep_sublist keyframes []
  have hresultNe := foldl_normalizeStep_ne_nil hne []
  rw [nil_append] at hlast hsub
  unfold normalizeVisible
  rw [sortKeyframes_eq h]
  generalize keyframes.foldl normalizeStep [] = result at hlast hsub hresultNe
  have horder : InOrder result := h.sublist hsub
  obtain ⟨head, hhead⟩ := exists_head hresultNe
  have hheadMem : head ∈ keyframes := hsub.subset (mem_of_mem_head? hhead)
  dsimp only
  rw [hhead]
  dsimp only
  rcases le_or_gt first.at_ u with hle | hlt
  · -- the last value is there, and nothing before it matters
    obtain ⟨value, hvalue⟩ : ∃ value, lastValue keyframes u = some value := by
      rw [← valueAt_steps h hfirst hle]
      exact valueAt_ne_none hne u
    rw [valueAt_steps h hfirst hle, hvalue]
    rw [hvalue] at hlast
    split
    · have hsorted : InOrder (visibleAt 0 false :: result) :=
        inOrder_cons (le_refl _) horder fun y hy => horder.nonneg y hy
      rw [valueAt_steps hsorted rfl hu]
      show lastValue ([visibleAt 0 false] ++ result) u = some value
      rw [lastValue_append, hlast]
      rfl
    · have hheadLe : head.at_ ≤ u := by
        by_contra hgt
        have hnone : lastValue result u = none := by
          unfold lastValue
          rw [filter_eq_nil_iff.mpr fun k hk => by
            simpa using lt_of_lt_of_le (not_le.mp hgt) (horder.head_le hhead k hk)]
          rfl
        rw [hlast] at hnone
        cases hnone
      rw [valueAt_steps horder hhead hheadLe, hlast]
  · -- before the first keyframe it hides
    have hhidden := hshown.resolve_left (not_le.mpr hlt)
    have hheadLt : u < head.at_ := lt_of_lt_of_le hlt (h.head_le hfirst head hheadMem)
    have hwhole : valueAt .steps keyframes u = some (.bool false) := by
      cases hlist : keyframes with
      | nil => exact absurd hlist hne
      | cons x rest =>
        rw [hlist] at hfirst h
        obtain rfl := Option.some.inj hfirst
        rw [valueAt_before h hlt, hhidden]
    rw [hwhole]
    cases hlist : result with
    | nil => exact absurd hlist hresultNe
    | cons x rest =>
      rw [hlist] at hhead horder
      obtain rfl := Option.some.inj hhead
      split
      · rw [valueAt, if_pos hheadLt]
        split <;> rfl
      · rename_i hkept
        rw [valueAt_before horder hheadLt]
        by_contra hvalue
        exact hkept ⟨fun heq => hvalue (congrArg some heq), lt_of_le_of_lt hu hheadLt⟩

end Cohub.Timeline
