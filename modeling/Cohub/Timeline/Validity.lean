import Cohub.Timeline.Edits

/-! # Which timeline edits keep an animation valid

    The stored schema (`BoardTrackSchema`, `BoardAnimationHeaderSchema` in
    `packages/protocol/src/board-model.ts`) wants the keyframes of a track
    non-empty, ordered by time and at or after zero, and a positive duration.

    Every edit keeps that but one: trimming the start of a clip pulls the new
    start `BOARD_SPAN_MIN_MS` before the clip's end, and nothing keeps it at
    or after zero.  A clip that ends before that gets a keyframe at a
    negative time. -/

namespace Cohub.Timeline

open Number Cohub.Board List Option OrderedMap

/-! ## Ordered keyframes -/

/-- Keyframes that are ordered by time and at or after zero. -/
structure InOrder (keyframes : List BoardKeyframe) : Prop where
  sorted : keyframes.Pairwise fun a b => a.at_ ≤ b.at_
  nonneg : ∀ keyframe ∈ keyframes, 0 ≤ keyframe.at_

structure ValidKeyframes (keyframes : List BoardKeyframe) : Prop extends InOrder keyframes where
  nonempty : keyframes ≠ []

/-- The animations that the stored schema accepts. -/
structure ValidAnimation (animation : TimelineAnimation) : Prop where
  duration_pos   : 0 < animation.duration
  markers_nonneg : ∀ marker ∈ animation.markers, 0 ≤ marker.at_
  tracks_valid   : ∀ e ∈ animation.tracks.entries, ValidKeyframes e.2.keyframes

variable {b keyframes : List BoardKeyframe} {shift time start end_ : Rat} {track : BoardTrack}
  {a before after : List BoardKeyframe}

theorem InOrder.sublist (hb : InOrder b) (h : a.Sublist b) : InOrder a :=
  ⟨hb.sorted.sublist h, fun k hk => hb.nonneg k (h.subset hk)⟩

theorem inOrder_append (ha : InOrder a) (hb : InOrder b)
    (h : ∀ x ∈ a, ∀ y ∈ b, x.at_ ≤ y.at_) : InOrder (a ++ b) := by
  refine ⟨pairwise_append.mpr ⟨ha.sorted, hb.sorted, h⟩, ?_⟩
  intro k hk
  rcases mem_append.mp hk with hk | hk
  · exact ha.nonneg k hk
  · exact hb.nonneg k hk

theorem inOrder_cons {a : BoardKeyframe} (ha : 0 ≤ a.at_) (hb : InOrder b)
    (h : ∀ y ∈ b, a.at_ ≤ y.at_) : InOrder (a :: b) := by
  refine ⟨pairwise_cons.mpr ⟨h, hb.sorted⟩, ?_⟩
  intro k hk
  rcases mem_cons.mp hk with rfl | hk
  · exact ha
  · exact hb.nonneg k hk

theorem inOrder_nil : InOrder [] := ⟨List.Pairwise.nil, by simp⟩

theorem exists_head (h : keyframes ≠ []) : ∃ first, keyframes.head? = some first :=
  ⟨keyframes.head h, head?_eq_some_head h⟩

theorem exists_last (h : keyframes ≠ []) : ∃ last, keyframes.getLast? = some last :=
  ⟨keyframes.getLast h, getLast?_eq_some_getLast h⟩

theorem InOrder.head_le (h : InOrder keyframes) {first : BoardKeyframe}
    (hfirst : keyframes.head? = some first) : ∀ k ∈ keyframes, first.at_ ≤ k.at_ := by
  intro k hk
  match keyframes, hfirst with
  | first :: rest, rfl =>
    rcases mem_cons.mp hk with rfl | hk
    · exact le_refl _
    · exact (pairwise_cons.mp h.sorted).1 k hk

/-! ### Shifts -/

theorem mem_shiftKeyframes {k : BoardKeyframe} :
    k ∈ shiftKeyframes keyframes shift ↔
      ∃ k' ∈ keyframes, k = { k' with at_ := k'.at_ + shift } := by
  simp [shiftKeyframes, eq_comm]

theorem shiftKeyframes_ne_nil (h : keyframes ≠ []) : shiftKeyframes keyframes shift ≠ [] := by
  simpa [shiftKeyframes] using h

theorem shiftKeyframes_sorted (shift : Rat) (h : keyframes.Pairwise fun a b => a.at_ ≤ b.at_) :
    (shiftKeyframes keyframes shift).Pairwise fun a b => a.at_ ≤ b.at_ := by
  rw [shiftKeyframes, pairwise_map]
  apply h.imp
  intro a b hab
  show a.at_ + shift ≤ b.at_ + shift
  linarith

theorem shiftKeyframes_inOrder (h : InOrder keyframes) (hshift : ∀ k ∈ keyframes, -shift ≤ k.at_) :
    InOrder (shiftKeyframes keyframes shift) := by
  refine ⟨shiftKeyframes_sorted shift h.sorted, ?_⟩
  intro k hk
  obtain ⟨k', hk', rfl⟩ := mem_shiftKeyframes.mp hk
  have := hshift k' hk'
  show 0 ≤ k'.at_ + shift
  linarith

/-! ### Anchors -/

theorem withoutAnchor_suffix (track : BoardTrack) :
    (withoutAnchor track).IsSuffix track.keyframes := by
  unfold withoutAnchor
  split
  · next first second rest h =>
    split
    · exact h ▸ suffix_cons _ _
    · exact suffix_refl _
  · exact suffix_refl _

theorem withoutAnchor_ne_nil (h : track.keyframes ≠ []) : withoutAnchor track ≠ [] := by
  unfold withoutAnchor
  split
  · split <;> simp_all
  · exact h

/-! ## Cuts -/

/-- What a cut of ordered keyframes gives. -/
structure CutAt (keyframes : List BoardKeyframe) (time : Rat)
    (cut : List BoardKeyframe × List BoardKeyframe) : Prop where
  before_inOrder : InOrder cut.1
  after_inOrder : InOrder cut.2
  before_le : ∀ k ∈ cut.1, k.at_ ≤ time
  le_after : ∀ k ∈ cut.2, time ≤ k.at_
  before_mem : ∀ k ∈ keyframes, k.at_ ≤ time → k ∈ cut.1
  after_ne_nil : (∃ k ∈ keyframes, time ≤ k.at_) → cut.2 ≠ []

theorem cutAt_filter (h : InOrder keyframes) (time : Rat) :
    CutAt keyframes time
      (keyframes.filter (fun k => k.at_ ≤ time), keyframes.filter (fun k => time ≤ k.at_)) where
  before_inOrder := h.sublist filter_sublist
  after_inOrder := h.sublist filter_sublist
  before_le k hk := by simpa using (mem_filter.mp hk).2
  le_after k hk := by simpa using (mem_filter.mp hk).2
  before_mem k hk hle := mem_filter.mpr ⟨hk, by simpa using hle⟩
  after_ne_nil := by
    rintro ⟨k, hk, hle⟩
    exact ne_nil_of_mem (mem_filter.mpr ⟨hk, by simpa using hle⟩)

theorem cutAt_between
    {left right b b' : BoardKeyframe} (h : CutAt keyframes time (before, b :: after))
    (htime : 0 ≤ time) (hleft : left.at_ = time) (hright : right.at_ = time) (hb : b'.at_ = b.at_) :
    CutAt keyframes time (before ++ [left], right :: b' :: after) where
  before_inOrder := by
    apply inOrder_append h.before_inOrder (inOrder_cons (hleft ▸ htime) inOrder_nil (by simp))
    intro x hx y hy
    rw [mem_singleton.mp hy, hleft]
    exact h.before_le x hx
  after_inOrder := by
    have hafter : InOrder (b' :: after) := by
      have hpair := pairwise_cons.mp h.after_inOrder.sorted
      apply inOrder_cons
      · rw [hb]
        exact h.after_inOrder.nonneg b mem_cons_self
      · exact ⟨hpair.2, fun k hk => h.after_inOrder.nonneg k (mem_cons_of_mem _ hk)⟩
      · rw [hb]
        exact hpair.1
    apply inOrder_cons (hright ▸ htime) hafter
    intro y hy
    rw [hright]
    rcases mem_cons.mp hy with rfl | hy
    · exact hb ▸ h.le_after b mem_cons_self
    · exact h.le_after y (mem_cons_of_mem _ hy)
  before_le k hk := by
    rcases mem_append.mp hk with hk | hk
    · exact h.before_le k hk
    · rw [mem_singleton.mp hk, hleft]
  le_after k hk := by
    rcases mem_cons.mp hk with rfl | hk
    · exact hright.ge
    · rcases mem_cons.mp hk with rfl | hk
      · exact hb ▸ h.le_after b mem_cons_self
      · exact h.le_after k (mem_cons_of_mem _ hk)
  before_mem k hk hle := mem_append_left _ (h.before_mem k hk hle)
  after_ne_nil _ := by simp

theorem filter_from_findIdx (h : InOrder keyframes)
    {index : Nat} (hindex : keyframes.findIdx? (fun k => time ≤ k.at_) = some index)
    {b : BoardKeyframe} (hb : keyframes[index]? = some b) :
    keyframes.filter (fun k => time ≤ k.at_) =
      b :: (keyframes.filter fun k => time ≤ k.at_).drop 1 := by
  induction keyframes generalizing index with
  | nil => simp at hindex
  | cons first rest ih =>
    have hrest : InOrder rest := h.sublist (sublist_cons_self _ _)
    rw [findIdx?_cons] at hindex
    by_cases hfirst : time ≤ first.at_
    · rw [if_pos (by simpa using hfirst)] at hindex
      obtain rfl : index = 0 := by simpa using hindex.symm
      obtain rfl : first = b := by simpa using hb
      simp [hfirst]
    · rw [if_neg (by simpa using hfirst)] at hindex
      obtain ⟨index', hindex', rfl⟩ := map_eq_some_iff.mp hindex
      rw [filter_cons_of_neg (by simpa using hfirst)]
      exact ih hrest hindex' (by simpa using hb)

variable (keyframe : BoardKeyframe)

theorem withEase_at (ease : Option String) :
    (withEase keyframe ease).at_ = keyframe.at_ := rfl

theorem cutTrack_cutAt (curves : TrackCurves) (document : BoardDocument) (track : BoardTrack)
    (time : Rat) (h : InOrder track.keyframes) :
    CutAt track.keyframes time (cutTrack curves document track time) := by
  have hfilter := cutAt_filter h time
  unfold cutTrack
  simp only
  split
  · exact hfilter
  · next index hindex =>
    split
    · next a b ha hb =>
      split
      · exact hfilter
      · -- the keyframe before the cut is at or after zero, and so is the cut
        have ha' : index ≠ 0 ∧ track.keyframes[index - 1]? = some a := by
          by_cases hzero : index = 0
          · simp [hzero] at ha
          · exact ⟨hzero, by simpa [hzero] using ha⟩
        have hlt : a.at_ < time := by
          obtain ⟨hlen, -, hmin⟩ := findIdx?_eq_some_iff_getElem.mp hindex
          obtain ⟨hlen', rfl⟩ := List.getElem?_eq_some_iff.mp ha'.2
          have := hmin (index - 1) (by omega)
          simpa using this
        have htime : 0 ≤ time :=
          le_trans (h.nonneg a (mem_of_getElem? ha'.2)) hlt.le
        have hcut := filter_from_findIdx h hindex hb
        rw [hcut] at hfilter
        rw [hcut]
        exact cutAt_between hfilter htime (withEase_at _ _) rfl (withEase_at _ _)
    · exact hfilter

/-! ## Visible keyframes -/

theorem visibleKeyframes_valid (h : end_ ≤ start ∨ 0 ≤ start) :
    ValidKeyframes (visibleKeyframes start end_) := by
  have hzero : ∀ shown, InOrder [visibleAt 0 shown] := fun shown =>
    inOrder_cons (le_refl _) inOrder_nil (by simp)
  unfold visibleKeyframes
  split
  · exact { toInOrder := hzero false, nonempty := by simp }
  · next hlt =>
    have hstart : 0 ≤ start := h.resolve_left hlt
    have hshown : InOrder [visibleAt start true, visibleAt end_ false] := by
      apply inOrder_cons hstart
      · exact inOrder_cons (show 0 ≤ end_ by linarith) inOrder_nil (by simp)
      · intro y hy
        rw [mem_singleton.mp hy]
        show start ≤ end_
        linarith
    refine { toInOrder := ?_, nonempty := by simp }
    split
    · apply inOrder_append (hzero false) hshown
      intro x hx y hy
      rw [mem_singleton.mp hx]
      exact hshown.nonneg y hy
    · simpa using hshown

theorem visibleKeyframes_not_valid (hneg : start < 0) (hend : start < end_) :
    ¬ ValidKeyframes (visibleKeyframes start end_) := by
  intro h
  have hmem : visibleAt start true ∈ visibleKeyframes start end_ := by
    unfold visibleKeyframes
    rw [if_neg (by linarith)]
    simp
  exact absurd (h.nonneg _ hmem) (not_le.mpr hneg)

/-! ### `normalizeVisible` -/

variable (result : List BoardKeyframe)

theorem normalizeStep_cases (keyframe : BoardKeyframe) :
    ∃ rest, rest.Sublist result ∧
      (normalizeStep result keyframe = rest ∧ rest ≠ [] ∨
        normalizeStep result keyframe = rest ++ [keyframe]) := by
  have hlast : ∀ rest : List BoardKeyframe, rest.Sublist result →
      ∃ rest', rest'.Sublist result ∧
        ((if rest.getLast?.any fun previous => sameValue previous.value keyframe.value then rest
            else rest ++ [keyframe]) = rest' ∧ rest' ≠ [] ∨
          (if rest.getLast?.any fun previous => sameValue previous.value keyframe.value then rest
            else rest ++ [keyframe]) = rest' ++ [keyframe]) := by
    intro rest hrest
    refine ⟨rest, hrest, ?_⟩
    split
    · next hsame =>
      left
      refine ⟨rfl, ?_⟩
      rintro rfl
      simp at hsame
    · exact .inr rfl
  unfold normalizeStep
  by_cases htime : result.getLast?.any fun previous => previous.at_ = keyframe.at_
  · rw [if_pos htime]
    exact hlast _ (dropLast_sublist _)
  · rw [if_neg htime]
    exact hlast _ (List.Sublist.refl _)

theorem normalizeStep_sublist (keyframe : BoardKeyframe) :
    (normalizeStep result keyframe).Sublist (result ++ [keyframe]) := by
  obtain ⟨rest, hrest, ⟨heq, -⟩ | heq⟩ := normalizeStep_cases result keyframe
  · rw [heq]
    exact hrest.trans (sublist_append_left _ _)
  · rw [heq]
    exact hrest.append_right _

theorem normalizeStep_ne_nil (keyframe : BoardKeyframe) : normalizeStep result keyframe ≠ [] := by
  obtain ⟨rest, -, ⟨heq, hne⟩ | heq⟩ := normalizeStep_cases result keyframe
  · rw [heq]
    exact hne
  · rw [heq]
    simp

theorem foldl_normalizeStep_sublist (keyframes result : List BoardKeyframe) :
    (keyframes.foldl normalizeStep result).Sublist (result ++ keyframes) := by
  induction keyframes generalizing result with
  | nil => simp
  | cons keyframe rest ih =>
    have hstep := (normalizeStep_sublist result keyframe).append_right rest
    rw [append_assoc] at hstep
    exact (ih _).trans hstep

theorem foldl_normalizeStep_ne_nil (h : keyframes ≠ [])
    (result : List BoardKeyframe) : keyframes.foldl normalizeStep result ≠ [] := by
  induction keyframes generalizing result with
  | nil => exact absurd rfl h
  | cons keyframe rest ih =>
    by_cases hrest : rest = []
    · subst hrest
      exact normalizeStep_ne_nil _ _
    · exact ih hrest _

theorem sortKeyframes_inOrder
    (h : ∀ k ∈ keyframes, 0 ≤ k.at_) : InOrder (sortKeyframes keyframes) := by
  have htotal : Std.Total fun a b : BoardKeyframe => a.at_ ≤ b.at_ :=
    ⟨fun a b => le_total a.at_ b.at_⟩
  have htrans : IsTrans BoardKeyframe fun a b => a.at_ ≤ b.at_ :=
    ⟨fun a b c hab hbc => le_trans hab hbc⟩
  refine ⟨pairwise_insertionSort _ _, ?_⟩
  intro k hk
  exact h k ((perm_insertionSort _ _).subset hk)

theorem normalizeVisible_inOrder
    (h : ∀ k ∈ keyframes, 0 ≤ k.at_) : InOrder (normalizeVisible keyframes) := by
  have hresult : InOrder ((sortKeyframes keyframes).foldl normalizeStep []) := by
    apply (sortKeyframes_inOrder h).sublist
    simpa using foldl_normalizeStep_sublist (sortKeyframes keyframes) []
  unfold normalizeVisible
  simp only
  split
  · split
    · exact inOrder_cons (le_refl _) hresult fun y hy => hresult.nonneg y hy
    · exact hresult
  · exact hresult

theorem normalizeVisible_ne_nil (h : keyframes ≠ []) : normalizeVisible keyframes ≠ [] := by
  have hsorted : sortKeyframes keyframes ≠ [] := by
    intro hnil
    have := (perm_insertionSort (fun a b : BoardKeyframe => a.at_ ≤ b.at_) keyframes).length_eq
    rw [sortKeyframes] at hnil
    rw [hnil] at this
    exact h (length_eq_zero_iff.mp this.symm)
  have hresult := foldl_normalizeStep_ne_nil hsorted []
  unfold normalizeVisible
  simp only
  split
  · split
    · simp
    · exact hresult
  · exact hresult

/-! ## Keyframes of an edited track -/

variable (curves : TrackCurves) (document : BoardDocument)

theorem shiftBody_valid (h : ValidKeyframes track.keyframes) (shift : Rat) :
    (∀ k ∈ shiftBody curves document track shift, -shift ≤ k.at_) ∧
      (shiftBody curves document track shift).Pairwise (fun a b => a.at_ ≤ b.at_) ∧
      shiftBody curves document track shift ≠ [] := by
  have hbody : InOrder (withoutAnchor track) :=
    h.toInOrder.sublist (withoutAnchor_suffix track).sublist
  have hne := withoutAnchor_ne_nil h.nonempty
  unfold shiftBody
  simp only
  split
  · have hcut := cutTrack_cutAt curves document
      { track with keyframes := withoutAnchor track } (-shift) hbody
    split
    · -- nothing is left at or after the cut
      obtain ⟨last, hlast⟩ := exists_last hne
      rw [hlast]
      simp
    · next hafter =>
      exact ⟨hcut.le_after, hcut.after_inOrder.sorted, by simpa using hafter⟩
  · next hhead =>
    refine ⟨?_, hbody.sorted, hne⟩
    obtain ⟨first, hfirst⟩ := exists_head hne
    intro k hk
    rw [hfirst] at hhead
    exact le_trans (not_lt.mp hhead) (hbody.head_le hfirst k hk)

theorem shiftTrack_valid (h : ValidKeyframes track.keyframes) (shift : Rat) :
    ValidKeyframes (shiftTrack curves document track shift).keyframes := by
  obtain ⟨hbefore, hsorted, hne⟩ := shiftBody_valid curves document h shift
  have hnonneg : ∀ k ∈ shiftKeyframes (shiftBody curves document track shift) shift, 0 ≤ k.at_ := by
    intro k hk
    obtain ⟨k', hk', rfl⟩ := mem_shiftKeyframes.mp hk
    have := hbefore k' hk'
    show 0 ≤ k'.at_ + shift
    linarith
  unfold shiftTrack
  simp only
  split
  · exact { toInOrder := normalizeVisible_inOrder hnonneg
            nonempty := normalizeVisible_ne_nil (shiftKeyframes_ne_nil hne) }
  · exact { sorted := shiftKeyframes_sorted shift hsorted
            nonneg := hnonneg
            nonempty := shiftKeyframes_ne_nil hne }

/-! ### Time taken out and put in -/

theorem join_inOrder (hbefore : InOrder before) (hafter : InOrder after)
    (h : ∀ x ∈ before, ∀ y ∈ after, x.at_ ≤ y.at_) : InOrder (join before after) := by
  have happend := inOrder_append hbefore hafter h
  unfold join
  split
  · next last first rest hlast =>
    split
    · exact happend
    · split
      · exact happend.sublist ((List.Sublist.refl _).append (sublist_cons_self _ _))
      · next hseam =>
        have hpair := pairwise_cons.mp hafter.sorted
        have hrest : InOrder rest := hafter.sublist (sublist_cons_self _ _)
        have hfirst := hafter.nonneg first mem_cons_self
        -- every later keyframe is after the one that is moved
        have hlater : ∀ y ∈ rest, first.at_ + 1 ≤ y.at_ := by
          intro y hy
          obtain ⟨second, hsecond⟩ := exists_head (ne_nil_of_mem hy)
          have hlt : first.at_ + 1 < second.at_ := by
            simpa [hsecond] using (not_or.mp hseam).2
          exact le_trans hlt.le (hrest.head_le hsecond y hy)
        apply inOrder_append hbefore
        · exact inOrder_cons (show 0 ≤ first.at_ + 1 by linarith) hrest hlater
        · intro x hx y hy
          have hxf := h x hx first mem_cons_self
          rcases mem_cons.mp hy with rfl | hy
          · show x.at_ ≤ first.at_ + 1
            linarith
          · have := hlater y hy
            linarith
  · exact happend

theorem removedKeyframes_seam (h : InOrder track.keyframes) (hstart : 0 ≤ start) :
    InOrder (cutTrack curves document track start).1 ∧
      InOrder (shiftKeyframes (cutTrack curves document track end_).2 (-(end_ - start))) ∧
      ∀ x ∈ (cutTrack curves document track start).1,
        ∀ y ∈ shiftKeyframes (cutTrack curves document track end_).2 (-(end_ - start)),
          x.at_ ≤ y.at_ := by
  have hfirst := cutTrack_cutAt curves document track start h
  have hsecond := cutTrack_cutAt curves document track end_ h
  refine ⟨hfirst.before_inOrder, ?_, ?_⟩
  · apply shiftKeyframes_inOrder hsecond.after_inOrder
    intro k hk
    have := hsecond.le_after k hk
    linarith
  · intro x hx y hy
    obtain ⟨y', hy', rfl⟩ := mem_shiftKeyframes.mp hy
    have hle := hfirst.before_le x hx
    have hge := hsecond.le_after y' hy'
    show x.at_ ≤ y'.at_ + -(end_ - start)
    linarith

theorem removedKeyframes_inOrder (h : InOrder track.keyframes) (hstart : 0 ≤ start) :
    InOrder (removedKeyframes curves document start end_ track) := by
  obtain ⟨hbefore, hafter, hseam⟩ := removedKeyframes_seam curves document h hstart
  unfold removedKeyframes
  simp only
  split
  · exact inOrder_append hbefore hafter hseam
  · exact join_inOrder hbefore hafter hseam

theorem insertedKeyframes_inOrder (h : InOrder track.keyframes) (time : Rat) {gap : Rat}
    (hgap : 0 ≤ gap) : InOrder (insertedKeyframes curves document time gap track) := by
  -- a second half that moves later stays after the first
  have hmoved : ∀ before after : List BoardKeyframe, InOrder before → InOrder after →
      (∀ x ∈ before, ∀ y ∈ after, x.at_ ≤ y.at_) →
      InOrder (before ++ shiftKeyframes after gap) := by
    intro before after hbefore hafter hle
    apply inOrder_append hbefore
    · apply shiftKeyframes_inOrder hafter
      intro k hk
      have := hafter.nonneg k hk
      linarith
    · intro x hx y hy
      obtain ⟨y', hy', rfl⟩ := mem_shiftKeyframes.mp hy
      have := hle x hx y' hy'
      show x.at_ ≤ y'.at_ + gap
      linarith
  unfold insertedKeyframes
  simp only
  split
  · -- the anchor stays, and the rest moves
    obtain ⟨anchor, hanchor⟩ := withoutAnchor_suffix track
    have htake : track.keyframes.take (track.keyframes.length - (withoutAnchor track).length) =
        anchor := by
      rw [← hanchor]
      simp
    rw [htake]
    rw [← hanchor] at h
    obtain ⟨hfirst, hsecond, hle⟩ := pairwise_append.mp h.sorted
    apply hmoved
    · exact h.sublist (sublist_append_left _ _)
    · exact h.sublist (sublist_append_right _ _)
    · exact hle
  · have hcut := cutTrack_cutAt curves document track time h
    split
    · apply hmoved _ _ hcut.before_inOrder hcut.after_inOrder
      intro x hx y hy
      exact le_trans (hcut.before_le x hx) (hcut.le_after y hy)
    · exact hcut.before_inOrder

theorem retimeTrack_valid {keyframes : BoardTrack → List BoardKeyframe} {next : BoardTrack}
    (h : InOrder (keyframes track)) (hnext : retimeTrack keyframes track = some next) :
    ValidKeyframes next.keyframes := by
  unfold retimeTrack at hnext
  simp only at hnext
  split at hnext
  · obtain rfl := Option.some.inj hnext
    by_cases hempty : (normalizeVisible (keyframes track)).isEmpty
    · rw [if_pos hempty]
      exact { toInOrder := inOrder_cons (le_refl _) inOrder_nil (by simp), nonempty := by simp }
    · rw [if_neg hempty]
      exact { toInOrder := normalizeVisible_inOrder h.nonneg, nonempty := by simpa using hempty }
  · split at hnext
    · exact absurd hnext (by simp)
    · next hne =>
      obtain rfl := Option.some.inj hnext
      exact { toInOrder := h, nonempty := by simpa using hne }

/-! ## Spans -/

variable {tracks : Tracks} {target : String} {animation : TimelineAnimation} {span : BoardSpan}
  {property : String}

theorem findBoardKeyTrack_spec
    {e : String × BoardTrack} (h : findBoardKeyTrack tracks target property = some e) :
    e ∈ tracks.entries ∧ e.2.property = property := by
  have hmem := mem_of_find?_eq_some h
  have hsome := find?_some h
  simp only [Bool.and_eq_true, decide_eq_true_eq] at hsome
  exact ⟨hmem, hsome.1.2⟩

theorem boardPlayProperty_ne_visible {document : BoardDocument}
    (h : boardPlayProperty document target = some property) : property ≠ visibleProperty := by
  unfold boardPlayProperty at h
  split at h
  · rw [← Option.some.inj h]
    decide
  · rw [← Option.some.inj h]
    decide
  · rw [← Option.some.inj h]
    decide
  · exact absurd h (by simp)

theorem playTrack_spec {document : BoardDocument}
    {e : String × BoardTrack} (h : playTrack document tracks target = some e) :
    e ∈ tracks.entries ∧ e.2.property ≠ visibleProperty := by
  obtain ⟨property, hproperty, hfind⟩ := bind_eq_some_iff.mp h
  obtain ⟨hmem, hprop⟩ := findBoardKeyTrack_spec hfind
  exact ⟨hmem, hprop ▸ boardPlayProperty_ne_visible hproperty⟩

theorem visibleSteps_nonneg (h : ∀ k ∈ keyframes, 0 ≤ k.at_) :
    (∀ start, (visibleSteps keyframes).1 = some start → 0 ≤ start) ∧
      (∀ end_, (visibleSteps keyframes).2.2 = some end_ → 0 ≤ end_) := by
  unfold visibleSteps
  apply foldlRecOn keyframes _ (motive := fun acc : Option Rat × Rat × Option Rat =>
    (∀ start, acc.1 = some start → 0 ≤ start) ∧ (∀ end_, acc.2.2 = some end_ → 0 ≤ end_))
  · simp
  · intro acc hacc k hk
    have hk0 := h k hk
    split
    · refine ⟨?_, by simp⟩
      intro start hstart
      cases hfirst : acc.1 with
      | none =>
        simp only [hfirst, HOrElse.hOrElse, OrElse.orElse] at hstart
        obtain rfl : k.at_ = start := by simpa using hstart
        exact hk0
      | some first =>
        simp only [hfirst, HOrElse.hOrElse, OrElse.orElse] at hstart
        obtain rfl : first = start := by simpa using hstart
        exact hacc.1 first hfirst
    · split
      · refine ⟨hacc.1, ?_⟩
        intro end_ hend
        obtain rfl : k.at_ = end_ := by simpa using hend
        exact hk0
      · exact hacc

theorem boardTargetSpan_nonneg (h : ValidAnimation animation)
    (hspan : boardTargetSpan document animation target = some span) :
    0 ≤ span.start ∧ 0 ≤ span.end_ := by
  unfold boardTargetSpan boardClipSpan at hspan
  cases hvisible : findBoardKeyTrack animation.tracks target visibleProperty with
  | some visible =>
    have hvalid := h.tracks_valid visible (findBoardKeyTrack_spec hvisible).1
    obtain ⟨hstart, hend⟩ := visibleSteps_nonneg hvalid.nonneg
    simp only [hvisible, map_some, visibleSpan] at hspan
    obtain ⟨start, hfirst, rfl⟩ := map_eq_some_iff.mp hspan
    refine ⟨hstart start hfirst, ?_⟩
    cases hlast : (visibleSteps visible.2.keyframes).2.2 with
    | none =>
      have hduration := h.duration_pos
      have := le_maximum_left animation.duration (visibleSteps visible.2.keyframes).2.1
      simp only [getD_none]
      linarith
    | some end_ => exact hend end_ hlast
  | none =>
    simp only [hvisible, map_none] at hspan
    split at hspan
    · next first last hfirst hlast =>
      obtain ⟨track, htrack, hfirst⟩ := bind_eq_some_iff.mp hfirst
      obtain ⟨play, hplay, rfl⟩ := map_eq_some_iff.mp htrack
      have hvalid := h.tracks_valid play (playTrack_spec hplay).1
      have hlast' : play.2.keyframes.getLast? = some last := by simpa [hplay] using hlast
      split at hspan
      · obtain rfl := Option.some.inj hspan
        exact ⟨hvalid.nonneg first (mem_of_mem_head? hfirst),
          hvalid.nonneg last (mem_of_getLast? hlast')⟩
      · exact absurd hspan (by simp)
    · exact absurd hspan (by simp)

/-! ## Edits of an animation -/

theorem ValidAnimation.withTracks (h : ValidAnimation animation)
    (htracks : ∀ e ∈ tracks.entries, ValidKeyframes e.2.keyframes) :
    ValidAnimation { animation with tracks := tracks } :=
  ⟨h.duration_pos, h.markers_nonneg, htracks⟩

@[simp] theorem withDuration_tracks (animation : TimelineAnimation) (end_ : Rat) :
    (withDuration animation end_).tracks = animation.tracks := by
  unfold withDuration
  split <;> rfl

theorem ValidAnimation.withDuration (h : ValidAnimation animation)
    (end_ : Rat) : ValidAnimation (withDuration animation end_) := by
  unfold Timeline.withDuration
  split
  · next hlt =>
    refine ⟨?_, h.markers_nonneg, h.tracks_valid⟩
    have hpos := h.duration_pos
    have := le_ceil end_
    show 0 < ceil end_
    linarith
  · exact h

theorem setTrack_valid (h : ∀ e ∈ tracks.entries, ValidKeyframes e.2.keyframes)
    (target property : String) (hk : ValidKeyframes keyframes)
    (interpolation : TrackInterpolation) :
    ∀ e ∈ (setTrack curves tracks target property keyframes interpolation).entries,
      ValidKeyframes e.2.keyframes := by
  unfold setTrack
  split
  · exact forall_mem_set h hk
  · exact forall_mem_set h hk

section

variable (h : ValidAnimation animation)
include h

theorem boardShiftTargets_valid (targets : List String) (delta : Rat) :
    ValidAnimation (boardShiftTargets curves document animation targets delta) := by
  unfold boardShiftTargets
  simp only
  split
  · exact h
  · split
    · exact h
    · apply ValidAnimation.withDuration
      apply h.withTracks
      apply forall_mem_setAll _ h.tracks_valid
      intro e he
      obtain ⟨e', he', rfl⟩ := List.mem_map.mp he
      exact shiftTrack_valid curves document
        (h.tracks_valid e' (mem_of_mem_filter he')) _

theorem boardPlaceTarget_valid (target : String) (placement : BoardTimelinePlacement) :
    ValidAnimation (boardPlaceTarget curves document animation target placement) := by
  unfold boardPlaceTarget
  simp only
  split
  · exact boardShiftTargets_valid curves document h _ _
  · -- the new keyframes start at or after zero and end after they start
    have hat := le_maximum_left 0 (Number.round placement.at_)
    generalize maximum 0 (Number.round placement.at_) = at_ at hat
    generalize (placement.rate.filter (0 < ·)).getD 1 = rate
    generalize maximum 0 (placement.from_.getD 0) = from_
    generalize hduration : maximum boardSpanMinMs _ = duration
    have hpos : 0 ≤ duration := by
      rw [← hduration]
      exact le_trans (by decide) (le_maximum_left boardSpanMinMs _)
    have hplay : ∀ a b, ValidKeyframes
        [{ at_ := at_, value := a, ease := none }, { at_ := at_ + duration, value := b, ease := none }] := by
      intro a b
      refine { toInOrder := ?_, nonempty := by simp }
      apply inOrder_cons hat
      · exact inOrder_cons (add_nonneg hat hpos) inOrder_nil (by simp)
      · intro y hy
        rw [mem_singleton.mp hy]
        show at_ ≤ at_ + duration
        linarith
    apply ValidAnimation.withDuration
    apply h.withTracks
    have hshown : ∀ e ∈ (if (documentItem document target).isSome then
        setTrack curves animation.tracks target visibleProperty
          (visibleKeyframes at_ (at_ + duration)) .step
        else animation.tracks).entries, ValidKeyframes e.2.keyframes := by
      split
      · exact setTrack_valid curves h.tracks_valid _ _ (visibleKeyframes_valid (.inr hat)) _
      · exact h.tracks_valid
    split
    · exact setTrack_valid curves hshown _ _ (hplay _ _) _
    · exact hshown

theorem boardRemoveTarget_valid
    (target : String) : ValidAnimation (boardRemoveTarget animation target) :=
  h.withTracks fun e he => h.tracks_valid e (mem_of_mem_filter he)

/-! ### Splits -/

theorem splitTrack_valid (htrack : ValidKeyframes track.keyframes) (time : Rat) :
    ValidKeyframes (splitTrack document animation track time).1 ∧
      ValidKeyframes (splitTrack document animation track time).2 := by
  unfold splitTrack
  simp only
  split
  · next span hspan =>
    have hown : boardTargetSpan document animation track.target = some span := by
      split at hspan
      · exact hspan
      · exact absurd hspan (by simp)
    obtain ⟨hstart, -⟩ := boardTargetSpan_nonneg document h hown
    exact ⟨visibleKeyframes_valid (.inr hstart),
      visibleKeyframes_valid (.inr (le_trans hstart (le_maximum_left _ _)))⟩
  · -- the first part has a keyframe, and the second the last one
    have hlen := length_pos_iff.mpr htrack.nonempty
    generalize hnext : (track.keyframes.findIdx? fun k => time ≤ k.at_).getD
      track.keyframes.length = next
    have hle : next ≤ track.keyframes.length := by
      rw [← hnext]
      cases hindex : track.keyframes.findIdx? fun k => time ≤ k.at_ with
      | none => simp
      | some index =>
        obtain ⟨hlt, -⟩ := findIdx?_eq_some_iff_getElem.mp hindex
        simpa using hlt.le
    constructor
    · refine { toInOrder := htrack.toInOrder.sublist (take_sublist _ _), nonempty := ?_ }
      apply length_pos_iff.mp
      rw [length_take]
      omega
    · refine { toInOrder := htrack.toInOrder.sublist (drop_sublist _ _), nonempty := ?_ }
      apply length_pos_iff.mp
      rw [length_drop]
      omega

theorem boardSplitTarget_valid {next : TimelineAnimation} {copies : OrderedMap String String}
    {at_ : Rat} (hnext : boardSplitTarget curves document animation target copies at_ = some next) :
    ValidAnimation next := by
  unfold boardSplitTarget at hnext
  simp only at hnext
  split at hnext
  · exact absurd hnext (by simp)
  · next span hspan =>
    obtain ⟨hstart, -⟩ := boardTargetSpan_nonneg document h hspan
    split at hnext
    · exact absurd hnext (by simp)
    · next hinside =>
      obtain rfl := Option.some.inj hnext
      have htime : 0 ≤ Number.round at_ := by
        have hmin : (0 : Rat) ≤ boardSpanMinMs := by decide
        have := not_lt.mp (not_or.mp hinside).1
        linarith
      apply h.withTracks
      -- each round writes two parts of a track of the animation
      have hcut : ∀ e ∈ (animation.tracks.entries.foldl
          (splitRound curves document animation copies (Number.round at_))
          animation.tracks).entries, ValidKeyframes e.2.keyframes := by
        apply foldlRecOn animation.tracks.entries _ (motive := fun tracks : Tracks =>
          ∀ e ∈ tracks.entries, ValidKeyframes e.2.keyframes) h.tracks_valid
        intro tracks htracks e he
        obtain ⟨hfirst, hsecond⟩ :=
          splitTrack_valid document h (h.tracks_valid e he) (Number.round at_)
        unfold splitRound
        split
        · exact htracks
        · exact forall_mem_set (forall_mem_set htracks hfirst) hsecond
      split
      · apply setTrack_valid
        · exact setTrack_valid curves hcut _ _ (visibleKeyframes_valid (.inr hstart)) _
        · exact visibleKeyframes_valid (.inr htime)
      · exact hcut

/-! ### Time -/

end

theorem retime_valid {keyframes : BoardTrack → List BoardKeyframe} {markers : List BoardMarker}
    (hkeyframes : ∀ e ∈ animation.tracks.entries, InOrder (keyframes e.2))
    (hmarkers : ∀ marker ∈ markers, 0 ≤ marker.at_) (duration : Rat) :
    ValidAnimation (retime animation keyframes markers duration) where
  duration_pos := lt_of_lt_of_le one_pos (le_maximum_left 1 _)
  markers_nonneg := hmarkers
  tracks_valid := by
    apply forall_mem_setAll
    · simp [OrderedMap.empty]
    · intro e he
      obtain ⟨e', he', hmap⟩ := mem_filterMap.mp he
      obtain ⟨track, htrack, rfl⟩ := map_eq_some_iff.mp hmap
      exact retimeTrack_valid (hkeyframes e' he') htrack

theorem boardRemoveTime_valid (h : ValidAnimation animation)
    (from_ to_ : Rat) : ValidAnimation (boardRemoveTime curves document animation from_ to_) := by
  unfold boardRemoveTime
  simp only
  have hstart := le_maximum_left 0 (Number.round (minimum from_ to_))
  split
  · exact h
  · apply retime_valid
    · intro e he
      exact removedKeyframes_inOrder curves document (h.tracks_valid e he).toInOrder hstart
    · intro marker hmarker
      obtain ⟨marker', hmarker', rfl⟩ := List.mem_map.mp hmarker
      have hnonneg := h.markers_nonneg marker' (mem_of_mem_filter hmarker')
      split
      · show 0 ≤ marker'.at_ - (_ - _)
        linarith
      · exact hnonneg

theorem boardInsertTime_valid (h : ValidAnimation animation)
    (at_ length : Rat) : ValidAnimation (boardInsertTime curves document animation at_ length) := by
  unfold boardInsertTime
  simp only
  split
  · exact h
  · next hgap =>
    have hgap' : 0 ≤ Number.round length := (not_le.mp hgap).le
    apply retime_valid
    · intro e he
      exact insertedKeyframes_inOrder curves document (h.tracks_valid e he).toInOrder _ hgap'
    · intro marker hmarker
      obtain ⟨marker', hmarker', rfl⟩ := List.mem_map.mp hmarker
      have hnonneg := h.markers_nonneg marker' hmarker'
      split
      · exact add_nonneg hnonneg hgap'
      · exact hnonneg

/-! ## Trims -/

theorem boardTrimLimits_nonneg (animation : TimelineAnimation) (target : String) :
    0 ≤ (boardTrimLimits document animation target).1 := by
  unfold boardTrimLimits
  split
  · exact le_refl _
  · split
    · exact le_maximum_left 0 _
    · exact le_refl _

theorem trimTime_start_neg_iff (animation : TimelineAnimation) (target : String) (span : BoardSpan)
    (at_ : Rat) :
    trimTime document animation target span .start at_ < 0 ↔
      span.end_ < boardSpanMinMs - 1 / 2 := by
  have hlimit := boardTrimLimits_nonneg document animation target
  have hmax := le_maximum_right at_ (boardTrimLimits document animation target).1
  unfold trimTime
  simp only
  rw [round_neg_iff]
  constructor
  · intro hneg
    by_contra hend
    have hge : (-(1 / 2) : Rat) ≤ minimum (maximum at_ (boardTrimLimits document animation target).1)
        (span.end_ - boardSpanMinMs) := by
      apply le_minimum
      · linarith
      · linarith
    linarith
  · intro hend
    have := minimum_le_right (maximum at_ (boardTrimLimits document animation target).1)
      (span.end_ - boardSpanMinMs)
    linarith

theorem trimTime_end_nonneg (animation : TimelineAnimation) (target : String)
    (hstart : 0 ≤ span.start) (at_ : Rat) :
    0 ≤ trimTime document animation target span .end_ at_ := by
  have hmin : (0 : Rat) ≤ boardSpanMinMs := by decide
  unfold trimTime
  simp only
  apply round_nonneg
  exact le_trans (add_nonneg hstart hmin) (le_maximum_right _ _)

theorem trimPlay_valid (h : ValidKeyframes track.keyframes) (edge : SpanEdge) (htime : 0 ≤ time) :
    ValidKeyframes (trimPlay curves document track edge time) := by
  have hcut := cutTrack_cutAt curves document track time h.toInOrder
  unfold trimPlay
  split
  · next first last hfirst hlast =>
    have hfirst' := mem_of_mem_head? hfirst
    have hlast' := mem_of_getLast? hlast
    split
    · next hinside =>
      match edge with
      | .start =>
        exact { toInOrder := hcut.after_inOrder
                nonempty := hcut.after_ne_nil ⟨last, hlast', hinside.2.le⟩ }
      | .end_ =>
        exact { toInOrder := hcut.before_inOrder
                nonempty := ne_nil_of_mem (hcut.before_mem first hfirst' hinside.1.le) }
    · simp only
      match edge with
      | .start =>
        refine { toInOrder := ?_, nonempty := by simp }
        apply inOrder_cons htime (h.toInOrder.sublist filter_sublist)
        intro y hy
        have hy' : time < y.at_ := by simpa using (mem_filter.mp hy).2
        exact hy'.le
      | .end_ =>
        refine { toInOrder := ?_, nonempty := by simp }
        apply inOrder_append (h.toInOrder.sublist filter_sublist)
        · exact inOrder_cons htime inOrder_nil (by simp)
        · intro x hx y hy
          have hx' : x.at_ < time := by simpa using (mem_filter.mp hx).2
          rw [mem_singleton.mp hy]
          exact hx'.le
  · exact h

theorem trimPlay_start_not_valid (h : ValidKeyframes track.keyframes) (htime : time < 0) :
    ¬ ValidKeyframes (trimPlay curves document track .start time) := by
  obtain ⟨first, hfirst⟩ := exists_head h.nonempty
  obtain ⟨last, hlast⟩ := exists_last h.nonempty
  have hnonneg := h.nonneg first (mem_of_mem_head? hfirst)
  intro hvalid
  unfold trimPlay at hvalid
  simp only [hfirst, hlast] at hvalid
  rw [if_neg (fun hinside => absurd hinside.1 (by linarith))] at hvalid
  exact absurd (hvalid.nonneg _ mem_cons_self) (not_le.mpr htime)

theorem trimTracks_valid (h : ValidAnimation animation) (target : String) (edge : SpanEdge)
    (htime : 0 ≤ time) {next : BoardSpan} (hnext : 0 ≤ next.start) :
    ∀ e ∈ (trimTracks curves document animation target edge time next).entries,
      ValidKeyframes e.2.keyframes := by
  unfold trimTracks
  simp only
  generalize hshown : (if (findBoardKeyTrack animation.tracks target visibleProperty).isSome then
    setTrack curves animation.tracks target visibleProperty
      (visibleKeyframes next.start next.end_) .step
    else animation.tracks) = shown
  have hvalid : ∀ e ∈ shown.entries, ValidKeyframes e.2.keyframes := by
    rw [← hshown]
    split
    · exact setTrack_valid curves h.tracks_valid _ _ (visibleKeyframes_valid (.inr hnext)) _
    · exact h.tracks_valid
  split
  · next play hplay =>
    apply forall_mem_set hvalid
    exact trimPlay_valid curves document (hvalid play (playTrack_spec hplay).1) edge htime
  · exact hvalid

theorem trimTracks_not_valid (h : ValidAnimation animation)
    (hspan : boardTargetSpan document animation target = some span) (htime : time < 0) :
    ∃ e ∈ (trimTracks curves document animation target .start time ⟨time, span.end_⟩).entries,
      ¬ ValidKeyframes e.2.keyframes := by
  obtain ⟨-, hend⟩ := boardTargetSpan_nonneg document h hspan
  have hbad := visibleKeyframes_not_valid htime (lt_of_lt_of_le htime hend)
  unfold trimTracks
  simp only
  cases hvisible : findBoardKeyTrack animation.tracks target visibleProperty with
  | some visible =>
    -- the visible track, which the track that plays the target is not
    have hprop := (findBoardKeyTrack_spec hvisible).2
    simp only [isSome_some, if_true]
    generalize hshown : setTrack curves animation.tracks target visibleProperty
      (visibleKeyframes time span.end_) .step = shown
    have hmem : (visible.1, { visible.2 with keyframes := visibleKeyframes time span.end_ }) ∈
        shown.entries := by
      rw [← hshown]
      unfold setTrack
      simp only [hvisible]
      exact (mem_entries_set _ _ _ _).mpr (.inl rfl)
    cases hplay : playTrack document shown target with
    | none => exact ⟨_, hmem, hbad⟩
    | some play =>
      obtain ⟨hplayMem, hplayProp⟩ := playTrack_spec hplay
      refine ⟨_, (mem_entries_set _ _ _ _).mpr (.inr ⟨?_, hmem⟩), hbad⟩
      intro hsame
      have hfirst := (mem_entries_iff shown play.1 play.2).mp hplayMem
      have hsecond := (mem_entries_iff shown visible.1 _).mp hmem
      rw [show visible.1 = play.1 from hsame, hfirst] at hsecond
      rw [Option.some.inj hsecond] at hplayProp
      exact hplayProp hprop
  | none =>
    -- the clip is only played
    simp only [isSome_none, Bool.false_eq_true, if_false]
    cases hplay : playTrack document animation.tracks target with
    | none => simp [boardTargetSpan, boardClipSpan, hvisible, hplay] at hspan
    | some play =>
      refine ⟨_, (mem_entries_set _ _ _ _).mpr (.inl rfl), ?_⟩
      exact trimPlay_start_not_valid curves document
        (h.tracks_valid play (playTrack_spec hplay).1) htime

theorem boardTrimTarget_end_valid (h : ValidAnimation animation) (target : String) (at_ : Rat) :
    ValidAnimation (boardTrimTarget curves document animation target .end_ at_) := by
  cases hspan : boardTargetSpan document animation target with
  | none => simpa [boardTrimTarget, hspan] using h
  | some span =>
    obtain ⟨hstart, -⟩ := boardTargetSpan_nonneg document h hspan
    by_cases hmoves : trimTime document animation target span .end_ at_ = span.edge .end_
    · simpa [boardTrimTarget, hspan, hmoves] using h
    · simp only [boardTrimTarget, hspan, if_neg hmoves]
      apply ValidAnimation.withDuration
      apply h.withTracks
      exact trimTracks_valid curves document h target .end_
        (trimTime_end_nonneg document animation target hstart at_) hstart

theorem boardTrimTarget_start_valid_iff
    (h : ValidAnimation animation) (target : String) (at_ : Rat) :
    ValidAnimation (boardTrimTarget curves document animation target .start at_) ↔
      ∀ span, boardTargetSpan document animation target = some span →
        boardSpanMinMs - 1 / 2 ≤ span.end_ := by
  cases hspan : boardTargetSpan document animation target with
  | none => simpa [boardTrimTarget, hspan] using h
  | some span =>
    obtain ⟨hstart, -⟩ := boardTargetSpan_nonneg document h hspan
    have hneg := trimTime_start_neg_iff document animation target span at_
    have hiff : (∀ s, some span = some s → boardSpanMinMs - 1 / 2 ≤ s.end_) ↔
        0 ≤ trimTime document animation target span .start at_ := by
      rw [← not_lt, hneg, not_lt]
      simp
    rw [hiff]
    by_cases hmoves : trimTime document animation target span .start at_ = span.edge .start
    · have hsame : boardTrimTarget curves document animation target .start at_ = animation := by
        simp [boardTrimTarget, hspan, hmoves]
      rw [hsame, hmoves]
      exact iff_of_true h hstart
    · simp only [boardTrimTarget, hspan, if_neg hmoves]
      constructor
      · intro hvalid
        by_contra hlt
        obtain ⟨e, he, hbad⟩ := trimTracks_not_valid curves document h hspan (not_le.mp hlt)
        apply hbad (hvalid.tracks_valid e _)
        rw [withDuration_tracks]
        exact he
      · intro hle
        apply ValidAnimation.withDuration
        apply h.withTracks
        exact trimTracks_valid curves document h target .start hle hle

/-! ## Every edit -/

/-- An edit that trims the start of a clip whose end is before the least length
    of a clip. -/
def TrimsShortClip (animation : TimelineAnimation) (edit : TimelineEdit) : Prop :=
  ∃ target at_ span, edit = .trim target .start at_ ∧
    boardTargetSpan document animation target = some span ∧ span.end_ < boardSpanMinMs - 1 / 2

/-- An edit of a valid animation gives a valid one exactly where it does not trim
    the start of such a clip. -/
theorem applyEdit_valid_iff {animation : TimelineAnimation} (h : ValidAnimation animation)
    (edit : TimelineEdit) :
    ValidAnimation (applyEdit curves document animation edit) ↔
      ¬ TrimsShortClip document animation edit := by
  -- only a trim can be such an edit
  have hother : (∀ target at_, edit ≠ .trim target .start at_) →
      ¬ TrimsShortClip document animation edit := by
    rintro hne ⟨target, at_, span, hedit, -⟩
    exact hne target at_ hedit
  match edit with
  | .place target placement =>
    exact iff_of_true (boardPlaceTarget_valid curves document h target placement)
      (hother (by simp))
  | .shift targets delta =>
    exact iff_of_true (boardShiftTargets_valid curves document h targets delta) (hother (by simp))
  | .trim target .end_ at_ =>
    exact iff_of_true (boardTrimTarget_end_valid curves document h target at_) (hother (by simp))
  | .trim target .start at_ =>
    have htrim := boardTrimTarget_start_valid_iff curves document h target at_
    show ValidAnimation (boardTrimTarget curves document animation target .start at_) ↔ _
    rw [htrim]
    constructor
    · rintro hle ⟨target', at', span, hedit, hspan, hlt⟩
      cases hedit
      exact absurd hlt (not_lt.mpr (hle span hspan))
    · intro hnot span hspan
      by_contra hlt
      exact hnot ⟨target, at_, span, rfl, hspan, not_le.mp hlt⟩
  | .split target copies at_ =>
    apply iff_of_true ?_ (hother (by simp))
    show ValidAnimation ((boardSplitTarget curves document animation target copies at_).getD
      animation)
    cases hnext : boardSplitTarget curves document animation target copies at_ with
    | none => exact h
    | some next => exact boardSplitTarget_valid curves document h hnext
  | .removeTarget target =>
    exact iff_of_true (boardRemoveTarget_valid h target) (hother (by simp))
  | .insertTime at_ length =>
    exact iff_of_true (boardInsertTime_valid curves document h at_ length) (hother (by simp))
  | .removeTime from_ to_ =>
    exact iff_of_true (boardRemoveTime_valid curves document h from_ to_) (hother (by simp))

def shapeDocument : BoardDocument :=
  { board := .obj []
    items := OrderedMap.ofList [("a", .obj [("type", .str "shape")])]
    animations := OrderedMap.empty }

/-- An animation that shows the shape for 20 ms. -/
def shortClip : TimelineAnimation :=
  { duration := 1000
    markers := []
    tracks := OrderedMap.ofList [("a-visible",
      { target := "a", property := "visible", keyframes := visibleKeyframes 0 20
        composite := .replace, interpolation := .step, orient := none })] }

theorem shortClip_valid : ValidAnimation shortClip where
  duration_pos := by decide
  markers_nonneg := by simp [shortClip]
  tracks_valid := by
    intro e he
    rw [mem_singleton.mp he]
    show ValidKeyframes (visibleKeyframes 0 20)
    exact visibleKeyframes_valid (.inr (le_refl 0))

/-- Tracks that step from keyframe to keyframe. -/
def stepCurves : TrackCurves :=
  { sampleTrack := fun _ track time =>
      ((track.keyframes.filter fun k => k.at_ ≤ time).getLast?.elim .null BoardKeyframe.value)
    splitEase := fun ease _ => (ease, ease)
    entityId := fun tracks => "track-" ++ toString tracks.size }

/-- Time can be put into the clip. -/
theorem insert_into_short_clip_valid :
    ValidAnimation (applyEdit stepCurves shapeDocument shortClip (.insertTime 5 100)) := by
  apply (applyEdit_valid_iff stepCurves shapeDocument shortClip_valid _).mpr
  rintro ⟨target, at_, span, hedit, -⟩
  cases hedit

/-- Trimming its start puts a keyframe at −20 ms. -/
theorem trim_short_clip_not_valid : ValidAnimation shortClip ∧ ∀ curves,
    ¬ ValidAnimation (applyEdit curves shapeDocument shortClip (.trim "a" .start 0)) := by
  have hspan : boardTargetSpan shapeDocument shortClip "a" = some ⟨0, 20⟩ := by decide +kernel
  refine ⟨shortClip_valid, ?_⟩
  intro curves hvalid
  have hle := (boardTrimTarget_start_valid_iff curves shapeDocument shortClip_valid "a" 0).mp hvalid
    ⟨0, 20⟩ hspan
  exact absurd hle (by decide +kernel)

end Cohub.Timeline
