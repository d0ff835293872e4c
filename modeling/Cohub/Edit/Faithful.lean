import Cohub.Edit.Panics
import Cohub.Edit.Regions

/-! # Edits touch only their place

    Where `applyFSEdits` succeeds, the result is the content with one region for
    each edit replaced, in any order of the edits.  A region is the right one,
    and the only one, just where the search from left to right does not jump
    over an overlapping place and no blanks at the end of an edit's text are lost
    (`Unambiguous`): `applyFSEdits_faithful`. -/

namespace Cohub.Edit

open Checked Substring List

/-! ## What an edit should do -/

/-- The replacement of an edit: its text is found once, and there it is replaced. -/
def ReplacesAt (content : Bytes) (edit : FsEditItem) (r : Replacement UInt8) : Prop :=
  ∃ search m, findEditMatches content (withoutBom edit.oldText) = .ok search ∧ search.found = [m] ∧
    r.start = m.start ∧ r.stop = m.stop ∧ replacementText content edit.newText m = .ok r.newText

/-- The place of a match is the text, and no other place is, in the way the match
    was found. -/
structure OnlyPlace (content oldText : Bytes) (m : EditMatch) : Prop where
  same  : region content m.start m.stop = oldText ∨
    SameText (content.drop m.stop) (region content m.start m.stop) oldText
  exact : m.fuzzy = false → ∀ p, OccursAt oldText content p → p = m.start
  fuzzy : m.fuzzy = true →
    ∀ p, OccursAt (normal oldText) (normal content) p → origin content p = m.start

/-- The result is the content, its byte order mark kept, with regions that lie
    apart replaced, one for each edit; each region is the only place of its edit;
    and the order of the edits does not matter. -/
structure FaithfulEdit (content : Bytes) (edits : List FsEditItem) (result : Bytes) : Prop where
  regions : ∃ replacements, List.Forall₂ (ReplacesAt (withoutBom content)) edits replacements ∧
    ∃ sorted, sorted.Perm replacements ∧ Apart (withoutBom content) 0 sorted ∧
      result = (if byteOrderMark <+: content then byteOrderMark else []) ++
        splice (withoutBom content) 0 sorted
  only : ∀ edit ∈ edits, ∀ search m,
    findEditMatches (withoutBom content) (withoutBom edit.oldText) = .ok search →
      search.found = [m] → OnlyPlace (withoutBom content) (withoutBom edit.oldText) m
  anyOrder : ∀ edits', edits'.Perm edits → applyFSEdits content edits' = .ok (.ok result)

/-- Where the pattern is a shifted copy of itself, the text behind a place does
    not go on with the rest of the copy. -/
def NoShiftedCopy (pattern text : Bytes) (p : Nat) : Prop :=
  ∀ d, 0 < d → d < pattern.length → pattern.drop d = pattern.take (pattern.length - d) →
    ¬ pattern.drop (pattern.length - d) <+: text.drop (p + pattern.length)

/-- The first place of a text has no shifted copy; where it is a place of the
    normal form, blanks at the end of the text stand at a line end. -/
def Unambiguous (content oldText : Bytes) : Prop :=
  if scan oldText content ≠ [] then
    ∀ p, find? oldText content = some p → NoShiftedCopy oldText content p
  else
    ∀ p, find? (normal oldText) (normal content) = some p →
      NoShiftedCopy (normal oldText) (normal content) p ∧
        (¬ KeptLast oldText →
          AtLineEnd (content.drop (origin content (p + (normal oldText).length))))

/-! ## The only place -/

variable {p : Nat} {m : EditMatch} {content : Bytes} {edits : List FsEditItem}
    {replacements : List EditReplacement} {r : EditReplacement} {edit : FsEditItem}
  {pattern text result : Bytes}

theorem noShiftedCopy_iff (hne : pattern ≠ []) (h : scan pattern text = [p]) :
    NoShiftedCopy pattern text p ↔ ∀ q, OccursAt pattern text q → q = p := by
  obtain ⟨hoccurs, hnear⟩ := scan_eq_singleton hne h
  constructor
  · intro hcopy q hq
    obtain ⟨hle, hlt⟩ := hnear q hq
    obtain ⟨d, rfl⟩ := Nat.exists_eq_add_of_le hle
    by_contra hother
    obtain ⟨hperiod, hafter⟩ := (occursAt_add hoccurs (by omega)).mp hq
    exact hcopy d (by omega) (by omega) hperiod hafter
  · intro honly d hpos hlt hperiod hafter
    have hq := (occursAt_add hoccurs (le_of_lt hlt)).mpr ⟨hperiod, hafter⟩
    have heq := honly _ hq
    omega

theorem find?_of_scan (hne : pattern ≠ [])
    (h : scan pattern text = [p]) : find? pattern text = some p := by
  unfold scan at h
  rw [scanFrom_find? hne] at h
  cases hfind : find? pattern text with
  | none =>
    rw [hfind] at h
    cases h
  | some i =>
    rw [hfind, Option.elim_some] at h
    injection h with hi
    rw [← hi, Nat.zero_add]

theorem scan_of_firstOf {places : List Nat} {f : Nat → EditMatch}
    (h : (firstOf places).positions.map f = [m]) : ∃ p, places = [p] ∧ m = f p := by
  have hlength := congrArg List.length h
  rw [length_map] at hlength
  obtain ⟨p, hp⟩ := length_eq_one_iff.mp (length_firstOf.mp hlength)
  subst hp
  cases h
  exact ⟨p, rfl, rfl⟩

theorem onlyPlace_iff {oldText : Bytes} (hne : oldText ≠ [])
    (h : (matchesOf content oldText).found = [m]) :
    OnlyPlace content oldText m ↔ Unambiguous content oldText := by
  unfold matchesOf at h
  unfold Unambiguous
  by_cases hexact : scan oldText content = []
  · rw [if_neg (not_not_intro hexact)] at h ⊢
    split at h
    · cases h
    · next hnormal =>
      obtain ⟨p, hscan, rfl⟩ := scan_of_firstOf h
      obtain ⟨hoccurs, -⟩ := scan_eq_singleton hnormal hscan
      have hfind := find?_of_scan hnormal hscan
      have hcopy := noShiftedCopy_iff hnormal hscan
      have hnone := (scan_eq_nil hne).mp hexact
      constructor
      · intro honly q hq
        rw [hfind] at hq
        cases hq
        constructor
        · rw [hcopy]
          intro q hq
          have heq := honly.fuzzy rfl q hq
          change origin content q = origin content p at heq
          have hbound := occursAt_length hoccurs hnormal
          have hbound' := occursAt_length hq hnormal
          by_contra hother
          rcases Nat.lt_or_gt_of_ne hother with hlt | hlt
          · have hstrict := origin_strictMono content hlt (by omega)
            omega
          · have hstrict := origin_strictMono content hlt (by omega)
            omega
        · rcases honly.same with hsame | hsame
          · -- the text does not stand in the content as it is
            exfalso
            apply hnone (origin content p)
            unfold OccursAt
            rw [← hsame]
            show (content.take _).drop _ <+: _
            rw [drop_take]
            exact List.take_prefix _ _
          · exact (sameText_region_iff hoccurs).mp hsame
      · intro hunambiguous
        obtain ⟨hnoCopy, hend⟩ := hunambiguous p hfind
        refine ⟨.inr (sameText_region hoccurs hend), (fun hfalse => by cases hfalse), ?_⟩
        intro _ q hq
        show origin content q = origin content p
        rw [hcopy.mp hnoCopy q hq]
  · rw [if_pos hexact] at h ⊢
    obtain ⟨p, hscan, rfl⟩ := scan_of_firstOf h
    obtain ⟨hoccurs, -⟩ := scan_eq_singleton hne hscan
    have hfind := find?_of_scan hne hscan
    have hcopy := noShiftedCopy_iff hne hscan
    constructor
    · intro honly q hq
      rw [hfind] at hq
      cases hq
      exact hcopy.mpr (honly.exact rfl)
    · intro hunambiguous
      refine ⟨.inl ?_, fun _ => hcopy.mp (hunambiguous p hfind),
        (fun hfuzzy => by cases hfuzzy)⟩
      show (content.take (p + oldText.length)).drop p = oldText
      rw [drop_take, Nat.add_sub_cancel_left]
      exact occursAt_iff_take.mp hoccurs

/-! ## The order of the edits -/

theorem applyFSEdits_inv (h : applyFSEdits content edits = .ok (.ok result)) :
    edits ≠ [] ∧ ∃ replacements,
      collectReplacements (withoutBom content) 0 edits = .ok (.ok replacements) ∧
        firstOverlap (sortByStart replacements) = none := by
  unfold applyFSEdits at h
  split at h
  · cases h
  · next hne =>
    refine ⟨fun hnil => hne (by rw [hnil]; rfl), ?_⟩
    simp only at h
    cases hcollected : collectReplacements (withoutBom content) 0 edits with
    | error fault =>
      rw [hcollected] at h
      cases h
    | ok collected =>
      cases collected with
      | error e =>
        rw [hcollected] at h
        cases h
      | ok replacements =>
        rw [hcollected, bind_ok] at h
        simp only at h
        cases hoverlap : firstOverlap (sortByStart replacements) with
        | some pair =>
          rw [hoverlap] at h
          cases h
        | none => exact ⟨replacements, rfl, hoverlap⟩

theorem mem_sortByStart :
    r ∈ sortByStart replacements ↔ r ∈ replacements :=
  (perm_insertionSort _ replacements).mem_iff

theorem applyFSEdits_eq (hne : edits ≠ [])
    (h : collectReplacements (withoutBom content) 0 edits = .ok (.ok replacements))
    (hoverlap : firstOverlap (sortByStart replacements) = none) :
    Apart (withoutBom content) 0 ((sortByStart replacements).map EditReplacement.toReplacement) ∧
      applyFSEdits content edits = .ok (.ok ((if byteOrderMark <+: content then byteOrderMark else [])
        ++ splice (withoutBom content) 0
          ((sortByStart replacements).map EditReplacement.toReplacement))) := by
  have hle : ∀ r ∈ sortByStart replacements,
      r.start ≤ r.stop ∧ r.stop ≤ (withoutBom content).length := by
    intro r hr
    obtain ⟨edit, -, m, hcollected⟩ :=
      exists_collected (collectReplacements_inv h) r (mem_sortByStart.mp hr)
    exact hcollected.le
  have hapart := apart_of_firstOverlap hle hoverlap (p := 0) (fun _ _ => Nat.zero_le _)
    (Nat.zero_le _)
  refine ⟨hapart, ?_⟩
  unfold applyFSEdits
  rw [if_neg (fun hlength => hne (length_eq_zero_iff.mp hlength))]
  simp only
  rw [h, bind_ok]
  simp only
  rw [hoverlap]
  simp only
  rw [replaceBackward_eq hapart, foldr_replaceOne hapart, bind_ok]
  rfl

theorem Collected.unique {m' : EditMatch} {r' : EditReplacement} (h : Collected content edit m r)
    (h' : Collected content edit m' r') : r.toReplacement = r'.toReplacement := by
  have hm : m = m' := by
    have honce := h.once
    rw [h'.once] at honce
    exact (head_eq_of_cons_eq honce).symm
  subst hm
  have htext : r.newText = r'.newText := by
    have htext := h.text
    rw [h'.text] at htext
    injection htext with htext
    exact htext.symm
  rw [h.place, h'.place, htext]
  rfl

theorem toReplacement_unique {rs rs' : List EditReplacement}
    (h : List.Forall₂ (fun edit r => ∃ m, Collected content edit m r) edits rs)
    (h' : List.Forall₂ (fun edit r => ∃ m, Collected content edit m r) edits rs') :
    rs.map EditReplacement.toReplacement = rs'.map EditReplacement.toReplacement := by
  induction h generalizing rs' with
  | nil =>
    cases h'
    rfl
  | cons hfirst _ ih =>
    cases h' with
    | cons hfirst' hrest' =>
      obtain ⟨m, hm⟩ := hfirst
      obtain ⟨m', hm'⟩ := hfirst'
      rw [map_cons, map_cons, hm.unique hm', ih hrest']

theorem exists_replacement
    (h : List.Forall₂ (fun edit r => ∃ m, Collected content edit m r) edits replacements) :
    ∀ edit ∈ edits, ∃ r ∈ replacements, ∃ m, Collected content edit m r := by
  induction h with
  | nil => exact fun _ hedit => absurd hedit not_mem_nil
  | cons hfirst _ ih =>
    intro edit hedit
    rcases mem_cons.mp hedit with rfl | hedit
    · exact ⟨_, mem_cons_self, hfirst⟩
    · obtain ⟨r, hr, hcollected⟩ := ih edit hedit
      exact ⟨r, mem_cons_of_mem _ hr, hcollected⟩

theorem collectReplacements_of_collected
    (h : ∀ edit ∈ edits, ∃ m r, Collected content edit m r) (index : Nat) :
    ∃ replacements, collectReplacements content index edits = .ok (.ok replacements) := by
  induction edits generalizing index with
  | nil => exact ⟨[], rfl⟩
  | cons edit rest ih =>
    obtain ⟨m, r, hcollected⟩ := h edit mem_cons_self
    obtain ⟨later, hlater⟩ := ih (fun e he => h e (mem_cons_of_mem _ he)) (index + 1)
    rw [collectReplacements_once hcollected.nonempty hcollected.differ
      (findEditMatches_eq hcollected.nonempty hcollected.within) hcollected.once hcollected.text,
      hlater]
    exact ⟨_, rfl⟩

theorem Collected.start_lt (h : Collected content edit m r) : r.start < r.stop := by
  have honce := h.once
  have hpos := length_pos_iff.mpr h.nonempty
  rw [h.place]
  show m.start < m.stop
  unfold matchesOf at honce
  split at honce
  · obtain ⟨p, -, rfl⟩ := scan_of_firstOf honce
    exact Nat.lt_add_of_pos_right hpos
  · split at honce
    · cases honce
    · next hnormal =>
      obtain ⟨p, hscan, rfl⟩ := scan_of_firstOf honce
      have hlength := length_pos_iff.mpr hnormal
      have hoccurs := (scan_eq_singleton hnormal hscan).1
      exact origin_strictMono content (Nat.lt_add_of_pos_right hlength)
        (occursAt_length hoccurs hnormal)

theorem sortByStart_pairwise (replacements : List EditReplacement) :
    ((sortByStart replacements).map EditReplacement.toReplacement).Pairwise
      fun r r' => r.start ≤ r'.start := by
  rw [pairwise_map]
  have hsorted := pairwise_insertionSort
    (fun a b : EditReplacement => a.start ≤ b.start) replacements
  exact hsorted

theorem apart_pairwise {rs : List (Replacement UInt8)} (h : Apart content p rs)
    (hlt : ∀ r ∈ rs, r.start < r.stop) : rs.Pairwise fun r r' => r.start < r'.start := by
  have hbound : ∀ {p : Nat} {rs : List (Replacement UInt8)}, Apart content p rs →
      ∀ r ∈ rs, p ≤ r.start := by
    intro p rs
    induction rs generalizing p with
    | nil => exact fun _ _ hr => absurd hr not_mem_nil
    | cons first rest ih =>
      intro h r hr
      rcases mem_cons.mp hr with rfl | hr
      · exact h.1
      · have hlater := ih h.2.2 r hr
        have hstart := h.1
        have hstop := h.2.1
        omega
  induction rs generalizing p with
  | nil => exact List.Pairwise.nil
  | cons first rest ih =>
    rw [pairwise_cons]
    refine ⟨?_, ih h.2.2 fun r hr => hlt r (mem_cons_of_mem _ hr)⟩
    intro r hr
    have hstart := hlt first mem_cons_self
    have hlater := hbound h.2.2 r hr
    omega

theorem firstOverlap_of_apart
    (h : Apart content p (replacements.map EditReplacement.toReplacement)) :
    firstOverlap replacements = none := by
  induction replacements generalizing p with
  | nil => rfl
  | cons previous rest ih =>
    have hrest := h.2.2
    cases rest with
    | nil => rfl
    | cons current later =>
      have hapart : previous.stop ≤ current.start := hrest.1
      rw [firstOverlap, if_neg (Nat.not_lt.mpr hapart)]
      exact ih hrest

theorem applyFSEdits_perm {edits' : List FsEditItem}
    (h : applyFSEdits content edits = .ok (.ok result)) (hperm : edits'.Perm edits) :
    applyFSEdits content edits' = .ok (.ok result) := by
  obtain ⟨hne, rs, hcollect, hoverlap⟩ := applyFSEdits_inv h
  obtain ⟨hapart, heq⟩ := applyFSEdits_eq hne hcollect hoverlap
  rw [h] at heq
  have hne' : edits' ≠ [] := by
    rintro rfl
    exact hne hperm.nil_eq.symm
  have hall := collectReplacements_inv hcollect
  -- every edit is collected, wherever it stands
  obtain ⟨rs'', hall'', hperm''⟩ := perm_comp_forall₂ hperm hall
  have hevery : ∀ edit ∈ edits', ∃ m r, Collected (withoutBom content) edit m r := by
    intro edit hedit
    obtain ⟨r, -, m, hcollected⟩ := exists_replacement hall'' edit hedit
    exact ⟨m, r, hcollected⟩
  obtain ⟨rs', hcollect'⟩ := collectReplacements_of_collected hevery 0
  have hsame := toReplacement_unique (collectReplacements_inv hcollect') hall''
  -- sorted by their different starts, they are the same
  have hsorted : ((sortByStart rs').map EditReplacement.toReplacement) =
      (sortByStart rs).map EditReplacement.toReplacement := by
    have hstrict := apart_pairwise hapart (by
      intro r hr
      obtain ⟨r', hr', rfl⟩ := mem_map.mp hr
      obtain ⟨edit, -, m, hcollected⟩ := exists_collected hall r' (mem_sortByStart.mp hr')
      exact hcollected.start_lt)
    have hfirst := (perm_insertionSort (fun a b : EditReplacement => a.start ≤ b.start) rs').map
      EditReplacement.toReplacement
    have hlast := (perm_insertionSort (fun a b : EditReplacement => a.start ≤ b.start) rs).map
      EditReplacement.toReplacement
    rw [hsame] at hfirst
    have hsortedPerm := (hfirst.trans (hperm''.map _)).trans hlast.symm
    apply List.Perm.eq_of_pairwise _ (sortByStart_pairwise rs') (sortByStart_pairwise rs) hsortedPerm
    intro r r' hr hr' hle hge
    by_contra hother
    have hdiffer : ((sortByStart rs).map EditReplacement.toReplacement).Pairwise
        fun r r' => r.start ≠ r'.start := hstrict.imp fun hlt => ne_of_lt hlt
    have hsymm : Std.Symm fun r r' : Replacement UInt8 => r.start ≠ r'.start :=
      ⟨fun _ _ hne => hne.symm⟩
    exact hdiffer.forall (hsortedPerm.mem_iff.mp hr) hr' hother (Nat.le_antisymm hle hge)
  have hoverlap' : firstOverlap (sortByStart rs') = none := by
    apply firstOverlap_of_apart (p := 0)
    rw [hsorted]
    exact hapart
  obtain ⟨-, heq'⟩ := applyFSEdits_eq hne' hcollect' hoverlap'
  rw [heq', heq, hsorted]

/-! ## All contents and edits -/

theorem Collected.replacesAt (h : Collected content edit m r) :
    ReplacesAt content edit r.toReplacement := by
  refine ⟨_, m, findEditMatches_eq h.nonempty h.within, h.once, ?_, ?_, h.text⟩
  · rw [h.place]
    rfl
  · rw [h.place]
    rfl

/-- Where `applyFSEdits` succeeds, it does what the edits say just if none of them
    is ambiguous. -/
theorem applyFSEdits_faithful {content : Bytes} {edits : List FsEditItem} {result : Bytes}
    (h : applyFSEdits content edits = .ok (.ok result)) :
    FaithfulEdit content edits result ↔
      ∀ edit ∈ edits, Unambiguous (withoutBom content) (withoutBom edit.oldText) := by
  obtain ⟨hne, rs, hcollect, hoverlap⟩ := applyFSEdits_inv h
  obtain ⟨hapart, heq⟩ := applyFSEdits_eq hne hcollect hoverlap
  rw [h] at heq
  injection heq with heq
  injection heq with heq
  have hall := collectReplacements_inv hcollect
  constructor
  · intro hfaithful edit hedit
    obtain ⟨r, -, m, hcollected⟩ := exists_replacement hall edit hedit
    rw [← onlyPlace_iff hcollected.nonempty hcollected.once]
    exact hfaithful.only edit hedit _ m (findEditMatches_eq hcollected.nonempty hcollected.within)
      hcollected.once
  · intro hunambiguous
    refine ⟨?_, ?_, fun edits' hperm => applyFSEdits_perm h hperm⟩
    · refine ⟨rs.map EditReplacement.toReplacement, ?_, _, ?_, hapart, heq⟩
      · rw [List.forall₂_map_right_iff]
        apply hall.imp
        rintro edit r ⟨m, hcollected⟩
        exact hcollected.replacesAt
      · exact (List.perm_insertionSort _ rs).map _
    · intro edit hedit search m hsearch hm
      obtain ⟨r, -, m', hcollected⟩ := exists_replacement hall edit hedit
      rw [findEditMatches_eq hcollected.nonempty hcollected.within] at hsearch
      injection hsearch with hsearch
      rw [← hsearch] at hm
      exact (onlyPlace_iff hcollected.nonempty hm).mpr (hunambiguous edit hedit)

/-- A line whose end is written in another way and has a blank before it. -/
theorem applyFSEdits_faithful_line :
    FaithfulEdit [0x61, 0x20, 0x0D, 0x0A] [{ oldText := [0x61, 0x0A], newText := [0x62, 0x0A] }]
      [0x62, 0x0D, 0x0A] := by
  have hresult : applyFSEdits [0x61, 0x20, 0x0D, 0x0A]
      [{ oldText := [0x61, 0x0A], newText := [0x62, 0x0A] }] = .ok (.ok [0x62, 0x0D, 0x0A]) := by
    decide +kernel
  rw [applyFSEdits_faithful hresult]
  intro edit hedit
  rw [List.mem_singleton.mp hedit]
  show Unambiguous [0x61, 0x20, 0x0D, 0x0A] [0x61, 0x0A]
  have hnormal : normal [0x61, 0x0A] = [0x61, 0x0A] := by decide +kernel
  unfold Unambiguous
  rw [if_neg (by decide +kernel), hnormal]
  intro p _
  refine ⟨?_, ?_⟩
  · intro d hpos hlt hperiod
    have hone : d = 1 := by
      change d < 2 at hlt
      omega
    rw [hone] at hperiod
    exact absurd hperiod (by decide)
  · intro hblank
    exact absurd (fun b hb => by cases hb; decide) hblank

/-- A text that overlaps itself is replaced at the first of two places, and a text
    with blanks at its end where there are none to replace. -/
theorem applyFSEdits_ambiguous :
    (applyFSEdits [0x61, 0x61, 0x61] [{ oldText := [0x61, 0x61], newText := [0x62] }] =
        .ok (.ok [0x62, 0x61]) ∧
      ¬ FaithfulEdit [0x61, 0x61, 0x61] [{ oldText := [0x61, 0x61], newText := [0x62] }]
        [0x62, 0x61]) ∧
    (applyFSEdits [0x61, 0x20, 0x62] [{ oldText := [0x61, 0x20, 0x20], newText := [0x63] }] =
        .ok (.ok [0x63, 0x20, 0x62]) ∧
      ¬ FaithfulEdit [0x61, 0x20, 0x62] [{ oldText := [0x61, 0x20, 0x20], newText := [0x63] }]
        [0x63, 0x20, 0x62]) := by
  refine ⟨⟨by decide +kernel, ?_⟩, by decide +kernel, ?_⟩
  · intro hfaithful
    have hfind : findEditMatches [0x61, 0x61, 0x61] [0x61, 0x61] =
        .ok { found := [{ start := 0, stop := 2, fuzzy := false }], truncated := false } := by
      decide +kernel
    have honly := hfaithful.only _ List.mem_cons_self _ _ hfind rfl
    have hplace := honly.exact rfl 1 (by decide +kernel)
    cases hplace
  · intro hfaithful
    have hfind : findEditMatches [0x61, 0x20, 0x62] [0x61, 0x20, 0x20] =
        .ok { found := [{ start := 0, stop := 1, fuzzy := true }], truncated := false } := by
      decide +kernel
    have honly := hfaithful.only _ List.mem_cons_self _ _ hfind rfl
    rcases honly.same with hsame | hsame
    · exact absurd hsame (by decide +kernel)
    · -- behind the region stands a byte that is kept
      have hregion : KeptLast (region [0x61, 0x20, 0x62] 0 1) := by
        intro b hb
        cases hb
        decide
      have htext : ¬ KeptLast [0x61, 0x20, 0x20] := by
        intro hkept
        exact absurd (hkept 0x20 rfl) (by decide)
      have hend := hsame.atLineEnd hregion htext
      rcases hend.head_dropWhile 0x62 rfl with hb | hb
      · exact absurd hb (by decide)
      · exact absurd hb (by decide)

end Cohub.Edit
