import Mathlib.Order.Bounds.Basic
import Cohub.Lib.Mealy
import Cohub.Lib.Utf8

/-! # The access units of a video stream

    `accessUnitSplitter` and `audIndex` of `apps/sandbox/display/h264.go`.  The
    encoder writes a byte stream in which each access unit begins with a
    delimiter, after a start code of three or four bytes.  The splitter is
    handed the stream in pieces, keeps what has no end yet, and gives up what
    it has when that would be longer than a frame may be. -/

namespace Cohub.Sandbox

open List

open Utf8 (Byte)

def nalAUD : Byte := 9

/-- `maxFrameBytes`, of `wire.go`. -/
def maxFrameBytes : Nat := 16777216

/-- A three-byte start code with a delimiter behind it. -/
def codeAt (data : List Byte) (i : Nat) : Bool :=
  data[i]? == some 0 && data[i + 1]? == some 0 && data[i + 2]? == some 1 &&
    (data[i + 3]?).any fun b => b &&& 0x1f == nalAUD

/-- Where the delimiter begins: a zero before the start code belongs to it. -/
def codeStart (data : List Byte) (i : Nat) : Nat :=
  if 0 < i ∧ data[i - 1]? = some 0 then i - 1 else i

/-- `audIndex`: the first delimiter whose start code is at `start` or later. -/
def audIndex (data : List Byte) (start : Nat) : Option Nat :=
  ((List.range' start (data.length - 3 - start)).find? (codeAt data)).map (codeStart data)

variable {data : List Byte} {i j p start first : Nat}

theorem lt_length_of_codeAt (h : codeAt data i = true) : i + 3 < data.length := by
  simp only [codeAt, Bool.and_eq_true, Option.any_eq_true] at h
  obtain ⟨-, b, hb, -⟩ := h
  exact (List.getElem?_eq_some_iff.mp hb).1

theorem audIndex_eq_some : audIndex data start = some p ↔
    ∃ i, start ≤ i ∧ codeAt data i = true ∧ (∀ j, start ≤ j → j < i → codeAt data j = false) ∧
      codeStart data i = p := by
  unfold audIndex
  rw [Option.map_eq_some_iff]
  constructor
  · rintro ⟨i, hfind, rfl⟩
    obtain ⟨hcode, hrange, hfirst⟩ := find?_range'_eq_some.mp hfind
    exact ⟨i, (mem_range'_1.mp hrange).1, hcode, fun j hj hji => by simpa using hfirst j hj hji,
      rfl⟩
  · rintro ⟨i, hstart, hcode, hfirst, rfl⟩
    have hlength := lt_length_of_codeAt hcode
    refine ⟨i, find?_range'_eq_some.mpr ⟨hcode, mem_range'_1.mpr ⟨hstart, ?_⟩, ?_⟩, rfl⟩
    · omega
    · intro j hj hji
      rw [hfirst j hj hji]
      rfl

theorem audIndex_eq_none : audIndex data start = none ↔
    ∀ j, start ≤ j → codeAt data j = false := by
  unfold audIndex
  rw [Option.map_eq_none_iff, find?_range'_eq_none]
  constructor
  · intro h j hj
    rw [← Bool.not_eq_true]
    intro hcode
    have hlength := lt_length_of_codeAt hcode
    have hnot := h j hj (by omega)
    rw [hcode] at hnot
    cases hnot
  · intro h j hj _
    rw [h j hj]
    rfl

variable (data i) in
theorem codeStart_le : codeStart data i ≤ i ∧ i ≤ codeStart data i + 1 := by
  unfold codeStart
  split <;> omega

variable {next : Nat} {later : List Byte} {pieces : List (List Byte)}

theorem length_drop_lt (h : audIndex data (start + 4) = some next) :
    (data.drop next).length < data.length := by
  obtain ⟨i, hi, hcode, -, rfl⟩ := audIndex_eq_some.mp h
  have hlength := lt_length_of_codeAt hcode
  have hstart := (codeStart_le data i).2
  rw [length_drop]
  omega

/-- The loop of `push` on the pending bytes: the units that are complete, and
    what stays pending. -/
def accessUnits (pending : List Byte) : List (List Byte) × List Byte :=
  match audIndex pending 0 with
  | none => ([], pending)
  | some first =>
    match _h : audIndex pending (first + 4) with
    | none => ([], pending.drop first)
    | some next =>
      let later := accessUnits (pending.drop next)
      ((pending.drop first).take (next - first) :: later.1, later.2)
  termination_by pending.length
  decreasing_by exact length_drop_lt _h

structure AccessUnitSplitter where
  pending : List Byte

def AccessUnitSplitter.push (s : AccessUnitSplitter) (data : List Byte) :
    AccessUnitSplitter × List (List Byte) :=
  let pending := if maxFrameBytes < s.pending.length + data.length then [] else s.pending
  let cut := accessUnits (pending ++ data)
  ({ pending := cut.2 }, cut.1)

/-- A splitter that is handed pieces of the stream and hands on units. -/
def splitter : Mealy AccessUnitSplitter (List Byte) (List Byte) where
  step := AccessUnitSplitter.push

/-- The piece does not make the pending bytes too many. -/
def FitsFrame (s : AccessUnitSplitter) (data : List Byte) : Prop :=
  s.pending.length + data.length ≤ maxFrameBytes

/-! ## Codes in parts of the stream -/

theorem codeAt_append (h : codeAt data i = true) : codeAt (data ++ later) i = true := by
  have hlength := lt_length_of_codeAt h
  unfold codeAt at h ⊢
  rw [getElem?_append_left, getElem?_append_left, getElem?_append_left,
    getElem?_append_left]
  · exact h
  all_goals omega

theorem codeAt_of_append (h : codeAt (data ++ later) i = true)
    (hlength : i + 3 < data.length) : codeAt data i = true := by
  unfold codeAt at h ⊢
  rw [getElem?_append_left, getElem?_append_left, getElem?_append_left,
    getElem?_append_left] at h
  · exact h
  all_goals omega

theorem codeStart_append (h : i < data.length) :
    codeStart (data ++ later) i = codeStart data i := by
  unfold codeStart
  rw [getElem?_append_left (by omega)]

variable (k : Nat)

theorem codeAt_drop : codeAt (data.drop k) i = codeAt data (k + i) := by
  unfold codeAt
  simp only [getElem?_drop, Nat.add_assoc]

theorem codeStart_drop (h : 0 < i) : k + codeStart (data.drop k) i = codeStart data (k + i) := by
  unfold codeStart
  rw [getElem?_drop, show k + i - 1 = k + (i - 1) by omega]
  by_cases hzero : data[k + (i - 1)]? = some 0
  · rw [if_pos ⟨h, hzero⟩, if_pos ⟨by omega, hzero⟩]
  · rw [if_neg fun hboth => hzero hboth.2, if_neg fun hboth => hzero hboth.2]

theorem codeAt_apart (hi : codeAt data i = true) (hj : codeAt data j = true) (hlt : i < j) :
    i + 4 ≤ codeStart data j := by
  simp only [codeAt, Bool.and_eq_true, beq_iff_eq, Option.any_eq_true] at hi hj
  obtain ⟨⟨⟨-, hi₁⟩, hi₂⟩, b, hi₃, hb⟩ := hi
  obtain ⟨⟨⟨hj₀, hj₁⟩, hj₂⟩, -⟩ := hj
  have hnot : data[i + 3]? ≠ some 0 := by
    rw [hi₃]
    rintro hzero
    cases hzero
    exact absurd hb (by decide)
  rcases (by omega : j = i + 1 ∨ j = i + 2 ∨ j = i + 3 ∨ j = i + 4 ∨ i + 5 ≤ j) with
    rfl | rfl | rfl | rfl | hle
  · rw [hi₂] at hj₁
    cases hj₁
  · rw [hi₂] at hj₀
    cases hj₀
  · exact absurd hj₀ hnot
  · unfold codeStart
    rw [if_neg fun hzero => hnot hzero.2]
  · have := (codeStart_le data j).2
    omega

theorem audIndex_append (h : audIndex data start = some p) :
    audIndex (data ++ later) start = some p := by
  obtain ⟨i, hi, hcode, hfirst, rfl⟩ := audIndex_eq_some.mp h
  have hlength := lt_length_of_codeAt hcode
  refine audIndex_eq_some.mpr ⟨i, hi, codeAt_append hcode, ?_, codeStart_append (by omega)⟩
  intro j hj hji
  rw [← Bool.not_eq_true]
  intro hearly
  have hnot := hfirst j hj hji
  rw [codeAt_of_append hearly (by omega)] at hnot
  cases hnot

theorem audIndex_drop (h : 0 < start) :
    audIndex data (k + start) = (audIndex (data.drop k) start).map (k + ·) := by
  cases hdrop : audIndex (data.drop k) start with
  | none =>
    rw [audIndex_eq_none] at hdrop
    refine audIndex_eq_none.mpr fun j hj => ?_
    have hnot := hdrop (j - k) (by omega)
    rwa [codeAt_drop, show k + (j - k) = j by omega] at hnot
  | some p =>
    obtain ⟨i, hi, hcode, hfirst, rfl⟩ := audIndex_eq_some.mp hdrop
    rw [codeAt_drop] at hcode
    refine audIndex_eq_some.mpr ⟨k + i, by omega, hcode, ?_, (codeStart_drop k (by omega)).symm⟩
    intro j hj hji
    have hnot := hfirst (j - k) (by omega) (by omega)
    rwa [codeAt_drop, show k + (j - k) = j by omega] at hnot

theorem audIndex_at_first (h : audIndex data start = some first) :
    audIndex (data.drop first) 0 = some 0 := by
  obtain ⟨i, -, hcode, -, rfl⟩ := audIndex_eq_some.mp h
  obtain ⟨hle, hge⟩ := codeStart_le data i
  refine audIndex_eq_some.mpr ⟨i - codeStart data i, Nat.zero_le _, ?_, ?_, ?_⟩
  · rw [codeAt_drop, Nat.add_sub_cancel' hle]
    exact hcode
  · intro j _ hji
    rw [codeAt_drop, ← Bool.not_eq_true]
    intro hearly
    have := codeAt_apart hearly hcode (by omega)
    omega
  · rcases Nat.eq_or_lt_of_le hle with heq | hlt
    · rw [heq, Nat.sub_self]
      exact Nat.eq_zero_of_le_zero (codeStart_le _ _).1
    · have hzero : 0 < i ∧ data[i - 1]? = some 0 := by
        by_contra hnot
        rw [codeStart, if_neg hnot] at hlt
        exact lt_irrefl _ hlt
      have hone : i - codeStart data i = 1 := by omega
      have hbefore : (data.drop (codeStart data i))[1 - 1]? = some 0 := by
        rw [getElem?_drop, show codeStart data i + (1 - 1) = i - 1 by omega]
        exact hzero.2
      rw [hone]
      unfold codeStart at hbefore ⊢
      rw [if_pos ⟨Nat.one_pos, hbefore⟩]

theorem later_code (h : audIndex data 0 = some first) (hcode : codeAt data j = true) :
    codeStart data j = first ∨ first + 4 ≤ j := by
  obtain ⟨i, -, hi, hfirst, rfl⟩ := audIndex_eq_some.mp h
  obtain ⟨hle, -⟩ := codeStart_le data i
  rcases lt_trichotomy j i with hlt | rfl | hgt
  · rw [hfirst j (Nat.zero_le _) hlt] at hcode
    cases hcode
  · exact .inl rfl
  · have := codeAt_apart hi hcode hgt
    exact .inr (by have := (codeStart_le data j).1; omega)

/-! ## The loop -/

theorem accessUnits_none (h : audIndex data 0 = none) : accessUnits data = ([], data) := by
  rw [accessUnits]
  split
  · rfl
  · next hsome =>
    rw [h] at hsome
    cases hsome

theorem accessUnits_last (h : audIndex data 0 = some first)
    (hlast : audIndex data (first + 4) = none) : accessUnits data = ([], data.drop first) := by
  rw [accessUnits]
  split
  · next hnone =>
    rw [h] at hnone
    cases hnone
  · next first' hsome =>
    obtain rfl := Option.some.inj (hsome.symm.trans h)
    split
    · rfl
    · next hnext =>
      rw [hlast] at hnext
      cases hnext

theorem accessUnits_cons (h : audIndex data 0 = some first)
    (hnext : audIndex data (first + 4) = some next) :
    accessUnits data = ((data.drop first).take (next - first) :: (accessUnits (data.drop next)).1,
      (accessUnits (data.drop next)).2) := by
  rw [accessUnits]
  split
  · next hnone =>
    rw [h] at hnone
    cases hnone
  · next first' hsome =>
    obtain rfl := Option.some.inj (hsome.symm.trans h)
    split
    · next hnone =>
      rw [hnext] at hnone
      cases hnone
    · next next' hnext' =>
      obtain rfl := Option.some.inj (hnext'.symm.trans hnext)
      rfl

theorem first_lt_next (h : audIndex data (first + 4) = some next) :
    first < next ∧ next < data.length := by
  obtain ⟨i, hi, hcode, -, rfl⟩ := audIndex_eq_some.mp h
  have hlength := lt_length_of_codeAt hcode
  have hstart := codeStart_le data i
  omega

theorem accessUnits_drop_first (h : audIndex data 0 = some first) :
    accessUnits (data.drop first) = accessUnits data := by
  have hzero := audIndex_at_first h
  have hshift : audIndex data (first + 4) = _ := audIndex_drop first (by decide)
  cases hnext : audIndex (data.drop first) 4 with
  | none =>
    rw [hnext] at hshift
    rw [accessUnits_last h hshift, accessUnits_last hzero hnext, drop_zero]
  | some next =>
    rw [hnext] at hshift
    rw [accessUnits_cons h hshift, accessUnits_cons hzero hnext]
    simp only [drop_drop, Nat.add_zero, Nat.sub_zero, Nat.add_sub_cancel_left]

theorem accessUnits_append (data later : List Byte) :
    accessUnits (data ++ later) =
      ((accessUnits data).1 ++ (accessUnits ((accessUnits data).2 ++ later)).1,
        (accessUnits ((accessUnits data).2 ++ later)).2) := by
  induction hn : data.length using Nat.strong_induction_on generalizing data with
  | _ n ih =>
    cases hfirst : audIndex data 0 with
    | none =>
      rw [accessUnits_none hfirst]
      rfl
    | some first =>
      have hfirst' : audIndex (data ++ later) 0 = _ := audIndex_append hfirst
      have hle : first ≤ data.length := by
        obtain ⟨i, -, hcode, -, rfl⟩ := audIndex_eq_some.mp hfirst
        exact (codeStart_le data i).1.trans (by have := lt_length_of_codeAt hcode; omega)
      cases hnext : audIndex data (first + 4) with
      | none =>
        rw [accessUnits_last hfirst hnext, ← drop_append_of_le_length hle,
          accessUnits_drop_first hfirst']
        rfl
      | some next =>
        obtain ⟨hlt, hlength⟩ := first_lt_next hnext
        rw [accessUnits_cons hfirst hnext,
          accessUnits_cons hfirst' (audIndex_append hnext),
          drop_append_of_le_length hlength.le, drop_append_of_le_length hle,
          take_append_of_le_length (by rw [length_drop]; omega),
          ih _ (hn ▸ length_drop_lt hnext) (data.drop next) rfl]
        rfl

/-! ## What the units are -/

/-- A delimiter begins at `p`, with its start code. -/
def DelimiterAt (data : List Byte) (p : Nat) : Prop :=
  ∃ i, codeAt data i = true ∧ codeStart data i = p

theorem delimiterAt_of_audIndex (h : audIndex data start = some p) : DelimiterAt data p := by
  obtain ⟨i, -, hcode, -, hp⟩ := audIndex_eq_some.mp h
  exact ⟨i, hcode, hp⟩

theorem delimiterAt_drop {k : Nat} (h : DelimiterAt (data.drop k) p) :
    p = 0 ∨ DelimiterAt data (k + p) := by
  obtain ⟨i, hcode, rfl⟩ := h
  rcases Nat.eq_zero_or_pos i with rfl | hpos
  · exact .inl (Nat.eq_zero_of_le_zero (codeStart_le _ _).1)
  · exact .inr ⟨k + i, codeAt_drop k ▸ hcode, (codeStart_drop k hpos).symm⟩

theorem isLeast_iff : IsLeast {p | DelimiterAt data p} first ↔ audIndex data 0 = some first := by
  have hleast : ∀ p, audIndex data 0 = some p → IsLeast {p | DelimiterAt data p} p := by
    intro p h
    refine ⟨delimiterAt_of_audIndex h, ?_⟩
    rintro _ ⟨j, hcode, rfl⟩
    rcases later_code h hcode with heq | hle
    · exact heq.ge
    · have := (codeStart_le data j).2
      omega
  refine ⟨fun h => ?_, hleast first⟩
  cases hfirst : audIndex data 0 with
  | none =>
    obtain ⟨i, hcode, -⟩ := h.1
    rw [audIndex_eq_none.mp hfirst i (Nat.zero_le _)] at hcode
    cases hcode
  | some p => rw [(hleast p hfirst).unique h]

theorem delimiterAt_take (h : audIndex data 0 = some first)
    (hnext : audIndex data (first + 4) = some next) :
    DelimiterAt ((data.drop first).take (next - first)) 0 := by
  obtain ⟨i, -, hcode, -, hzero⟩ := audIndex_eq_some.mp (audIndex_at_first h)
  obtain ⟨j, hj, hcode', -, rfl⟩ := audIndex_eq_some.mp hnext
  obtain ⟨-, hone⟩ := codeStart_le (data.drop first) i
  have hapart := codeAt_apart (codeAt_drop first ▸ hcode) hcode' (by omega)
  have hlength := lt_length_of_codeAt hcode'
  have hle := (codeStart_le data j).1
  have hroom : i + 3 < ((data.drop first).take (codeStart data j - first)).length := by
    rw [length_take, length_drop]
    omega
  rw [← take_append_drop (codeStart data j - first) (data.drop first)] at hcode hzero
  exact ⟨i, codeAt_of_append hcode hroom, (codeStart_append (by omega)).symm.trans hzero⟩

theorem accessUnits_spec (data : List Byte) (first : Nat) (h : audIndex data 0 = some first) :
    (∀ unit ∈ (accessUnits data).1, DelimiterAt unit 0) ∧
      data.drop first = (accessUnits data).1.flatten ++ (accessUnits data).2 ∧
      IsGreatest {p | DelimiterAt data p} (first + (accessUnits data).1.flatten.length) := by
  induction hn : data.length using Nat.strong_induction_on generalizing data first with
  | _ n ih =>
    cases hnext : audIndex data (first + 4) with
    | none =>
      rw [accessUnits_last h hnext]
      refine ⟨nofun, rfl, delimiterAt_of_audIndex h, ?_⟩
      rintro _ ⟨j, hcode, rfl⟩
      rcases later_code h hcode with heq | hle
      · exact heq.le
      · rw [audIndex_eq_none.mp hnext j hle] at hcode
        cases hcode
    | some next =>
      obtain ⟨hlt, hlength⟩ := first_lt_next hnext
      obtain ⟨hunits, hrest, hlast, hgreatest⟩ :=
        ih _ (hn ▸ length_drop_lt hnext) (data.drop next) 0 (audIndex_at_first hnext) rfl
      rw [accessUnits_cons h hnext]
      rw [Nat.zero_add] at hlast hgreatest
      have hsize : first + (((data.drop first).take (next - first)) ::
          (accessUnits (data.drop next)).1).flatten.length =
          next + (accessUnits (data.drop next)).1.flatten.length := by
        rw [flatten_cons, length_append, length_take, length_drop]
        omega
      rw [hsize]
      refine ⟨forall_mem_cons.mpr ⟨delimiterAt_take h hnext, hunits⟩, ?_, ?_, ?_⟩
      · rw [flatten_cons, append_assoc, ← hrest, drop_zero,
          ← Nat.add_sub_cancel' hlt.le, ← drop_drop, Nat.add_sub_cancel_left,
          take_append_drop]
      · rcases delimiterAt_drop hlast with hzero | hdelimiter
        · rw [hzero]
          exact delimiterAt_of_audIndex hnext
        · exact hdelimiter
      · rintro _ ⟨j, hcode, rfl⟩
        obtain ⟨i, -, hi, hfirst, hinext⟩ := audIndex_eq_some.mp hnext
        have hle := codeStart_le data i
        rcases later_code h hcode with heq | hfar
        · omega
        · rcases lt_trichotomy j i with hbefore | rfl | hbehind
          · rw [hfirst j hfar hbefore] at hcode
            cases hcode
          · omega
          · have hdrop : next + codeStart (data.drop next) (j - next) = codeStart data _ :=
              codeStart_drop next (by omega)
            rw [show next + (j - next) = j by omega] at hdrop
            have := hgreatest ⟨j - next, (codeAt_drop next).trans
              (by rw [show next + (j - next) = j by omega]; exact hcode), rfl⟩
            omega

/-! ## Runs -/

theorem run_splitter {s : AccessUnitSplitter}
    (hs : accessUnits s.pending = ([], s.pending)) (h : splitter.Meets FitsFrame s pieces) :
    splitter.run s pieces = ({ pending := (accessUnits (s.pending ++ pieces.flatten)).2 },
      (accessUnits (s.pending ++ pieces.flatten)).1) := by
  induction pieces generalizing s with
  | nil =>
    rw [flatten_nil, append_nil, hs]
    rfl
  | cons piece rest ih =>
    have hstep : splitter.step s piece = ({ pending := (accessUnits (s.pending ++ piece)).2 },
        (accessUnits (s.pending ++ piece)).1) := by
      show s.push piece = _
      unfold AccessUnitSplitter.push
      rw [if_neg (Nat.not_lt.mpr h.1)]
    have hsettled := accessUnits_append (s.pending ++ piece) []
    simp only [append_nil, Prod.ext_iff] at hsettled
    have hrest := h.2
    rw [hstep] at hrest
    rw [Mealy.run_cons, hstep, ih _ hrest, flatten_cons, ← append_assoc,
      accessUnits_append (s.pending ++ piece)]
    exact Prod.ext (self_eq_append_right.mp hsettled.1) hsettled.2.symm

theorem access_units_exact (h : splitter.Meets FitsFrame { pending := [] } pieces) :
    let units := (splitter.run { pending := [] } pieces).2
    units = (accessUnits pieces.flatten).1 ∧ (∀ unit ∈ units, DelimiterAt unit 0) ∧
      ((∀ p, ¬ DelimiterAt pieces.flatten p) → units = []) ∧
      ∀ first last, IsLeast {p | DelimiterAt pieces.flatten p} first →
        IsGreatest {p | DelimiterAt pieces.flatten p} last →
        units.flatten = (pieces.flatten.drop first).take (last - first) := by
  have hunits : (splitter.run { pending := [] } pieces).2 = (accessUnits pieces.flatten).1 := by
    rw [run_splitter (accessUnits_none rfl) h]
    rfl
  intro units
  rw [show units = _ from hunits]
  refine ⟨rfl, ?_, ?_, ?_⟩
  · cases hfirst : audIndex pieces.flatten 0 with
    | none =>
      rw [accessUnits_none hfirst]
      exact nofun
    | some first => exact (accessUnits_spec _ _ hfirst).1
  · intro hnone
    have hfirst : audIndex pieces.flatten 0 = none := by
      by_contra hsome
      obtain ⟨p, hp⟩ := Option.ne_none_iff_exists'.mp hsome
      exact hnone p (delimiterAt_of_audIndex hp)
    rw [accessUnits_none hfirst]
  · intro first last hfirst hlast
    obtain ⟨-, hrest, hgreatest⟩ := accessUnits_spec _ _ (isLeast_iff.mp hfirst)
    rw [hlast.unique hgreatest, Nat.add_sub_cancel_left, hrest, List.take_left]

/-- A stream whose first start code is cut. -/
def cutStream : List (List Byte) := [[0, 0], [0, 1, 9, 7, 0, 0, 1, 9]]

theorem access_units_exact_cut :
    let units := (splitter.run { pending := [] } cutStream).2
    units = (accessUnits cutStream.flatten).1 ∧ (∀ unit ∈ units, DelimiterAt unit 0) ∧
      ((∀ p, ¬ DelimiterAt cutStream.flatten p) → units = []) ∧
      ∀ first last, IsLeast {p | DelimiterAt cutStream.flatten p} first →
        IsGreatest {p | DelimiterAt cutStream.flatten p} last →
        units.flatten = (cutStream.flatten.drop first).take (last - first) := by
  refine access_units_exact ⟨(by decide : 0 + 2 ≤ maxFrameBytes), ?_, trivial⟩
  show (accessUnits [0, 0]).2.length + 8 ≤ maxFrameBytes
  rw [accessUnits_none rfl]
  decide

theorem accessUnits_bounded (data : List Byte) :
    (∀ unit ∈ (accessUnits data).1, DelimiterAt unit 0 ∧ unit.length ≤ data.length) ∧
      (accessUnits data).2.length ≤ data.length := by
  cases h : audIndex data 0 with
  | none =>
    rw [accessUnits_none h]
    exact ⟨fun unit hunit => absurd hunit not_mem_nil, le_rfl⟩
  | some first =>
    obtain ⟨hunits, hparts, -⟩ := accessUnits_spec data first h
    have hlength := congrArg List.length hparts
    rw [length_drop, length_append] at hlength
    refine ⟨fun unit hunit => ⟨hunits unit hunit, ?_⟩, by omega⟩
    have hpart := (sublist_flatten_of_mem hunit).length_le
    omega

/-- Whatever is pushed, also where the pending bytes are given up: units begin
    with a delimiter, and nothing grows beyond a frame or a single push. -/
theorem splitter_bounded (pieces : List (List Byte)) :
    let r := splitter.run { pending := [] } pieces
    (∀ unit ∈ r.2, DelimiterAt unit 0) ∧ ∀ limit, maxFrameBytes ≤ limit →
      (∀ piece ∈ pieces, piece.length ≤ limit) →
      r.1.pending.length ≤ limit ∧ ∀ unit ∈ r.2, unit.length ≤ limit := by
  intro r
  have hunits : ∀ unit ∈ r.2, DelimiterAt unit 0 :=
    Mealy.run_outputs (I := fun _ => True) (fun s piece _ _ => ⟨trivial, fun unit hunit =>
      ((accessUnits_bounded _).1 unit hunit).1⟩) trivial (splitter.meets_true _ pieces)
  refine ⟨hunits, fun limit hframe hpieces => ?_⟩
  have hstep (s : AccessUnitSplitter) (piece : List Byte) (hs : s.pending.length ≤ limit)
      (hpiece : piece.length ≤ limit) : (s.push piece).1.pending.length ≤ limit ∧
        ∀ unit ∈ (s.push piece).2, unit.length ≤ limit := by
    have hdata : ((if maxFrameBytes < s.pending.length + piece.length then [] else s.pending) ++
        piece).length ≤ limit := by
      rw [length_append]
      split
      · exact (Nat.zero_add _).le.trans hpiece
      · omega
    obtain ⟨hout, hrest⟩ := accessUnits_bounded
      ((if maxFrameBytes < s.pending.length + piece.length then [] else s.pending) ++ piece)
    exact ⟨hrest.trans hdata, fun unit hunit => (hout unit hunit).2.trans hdata⟩
  have hmeets := (splitter.meets_true { pending := [] } pieces).and_inputs hpieces
  exact ⟨Mealy.run_invariant (I := fun s => s.pending.length ≤ limit)
      (fun s piece hs hpiece => (hstep s piece hs hpiece.1).1) (Nat.zero_le _) hmeets,
    Mealy.run_outputs (I := fun s => s.pending.length ≤ limit)
      (fun s piece hs hpiece => hstep s piece hs hpiece.1) (Nat.zero_le _) hmeets⟩

end Cohub.Sandbox
