import Cohub.Edit.Normal

/-! # The region of a match

    A match of the normal form is a region of the content that is the text
    searched for, up to line endings and blanks before line ends.  `SameText`
    says so without the normal form, and `sameText_fuzzyMatch` proves it of the
    region that the map back gives, except where the text ends in blanks that
    stand at no line end of the content. -/

namespace Cohub.Edit

open Substring List

/-! ## The same text -/

/-- Only blanks, and then a line break or the end. -/
def AtLineEnd (text : Bytes) : Prop :=
  ∃ blanks rest, text = blanks ++ rest ∧ (∀ b ∈ blanks, isBlank b = true) ∧
    ∀ b, rest.head? = some b → b = LF ∨ b = CR

/-- A region with `after` behind it is a text, up to the style of line breaks and
    to blanks before a line break or the end of the content. -/
inductive SameText (after : Bytes) : Bytes → Bytes → Prop where
  | done : SameText after [] []
  | byte (b : UInt8) {region text : Bytes} (hLF : b ≠ LF) (hCR : b ≠ CR)
      (rest : SameText after region text) : SameText after (b :: region) (b :: text)
  | lineBreak {ending ending' region text : Bytes} (hending : IsEnding ending)
      (hending' : IsEnding ending') (hall : ending = [CR] → (region ++ after).head? ≠ some LF)
      (hall' : ending' = [CR] → text.head? ≠ some LF) (rest : SameText after region text) :
      SameText after (ending ++ region) (ending' ++ text)
  | blankInRegion (b : UInt8) {region text : Bytes} (hblank : isBlank b = true)
      (hend : AtLineEnd (region ++ after)) (rest : SameText after region text) :
      SameText after (b :: region) text
  | blankInText (b : UInt8) {region text : Bytes} (hblank : isBlank b = true)
      (hend : AtLineEnd (region ++ after)) (rest : SameText after region text) :
      SameText after region (b :: text)

variable {text : Bytes}

theorem AtLineEnd.blanks {blanks : Bytes} (h : AtLineEnd text)
    (hblanks : ∀ b ∈ blanks, isBlank b = true) : AtLineEnd (blanks ++ text) := by
  obtain ⟨more, rest, rfl, hmore, hrest⟩ := h
  refine ⟨blanks ++ more, rest, (append_assoc _ _ _).symm, ?_, hrest⟩
  intro b hb
  rcases mem_append.mp hb with hb | hb
  · exact hblanks b hb
  · exact hmore b hb

theorem AtLineEnd.head_dropWhile (h : AtLineEnd text) :
    ∀ b, (text.dropWhile isBlank).head? = some b → b = LF ∨ b = CR := by
  obtain ⟨blanks, rest, rfl, hblanks, hrest⟩ := h
  intro b hb
  rw [dropWhile_append_of_pos hblanks] at hb
  cases rest with
  | nil => cases hb
  | cons first later =>
    have hfirst := hrest first rfl
    have hkept : isBlank first = false := by
      rcases hfirst with rfl | rfl <;> decide
    rw [dropWhile_cons_of_neg (by rw [hkept]; exact Bool.false_ne_true)] at hb
    exact hrest b hb

variable {ending : Bytes}

theorem IsEnding.atLineEnd (h : IsEnding ending) (text : Bytes) : AtLineEnd (ending ++ text) := by
  refine ⟨[], ending ++ text, rfl, fun _ hb => absurd hb not_mem_nil, ?_⟩
  rcases h with rfl | rfl | rfl
  · intro b hb
    cases hb
    exact .inl rfl
  · intro b hb
    cases hb
    exact .inr rfl
  · intro b hb
    cases hb
    exact .inr rfl

variable {after : Bytes}

theorem SameText.blanksInText {blanks region : Bytes} (h : SameText after region text)
    (hblanks : ∀ b ∈ blanks, isBlank b = true) (hend : AtLineEnd (region ++ after)) :
    SameText after region (blanks ++ text) := by
  induction blanks with
  | nil => exact h
  | cons b rest ih =>
    exact SameText.blankInText b (hblanks b mem_cons_self) hend
      (ih fun b' hb' => hblanks b' (mem_cons_of_mem _ hb'))

theorem SameText.blanksInRegion {blanks region : Bytes} (h : SameText after region text)
    (hblanks : ∀ b ∈ blanks, isBlank b = true) (hend : AtLineEnd (region ++ after)) :
    SameText after (blanks ++ region) text := by
  induction blanks with
  | nil => exact h
  | cons b rest ih =>
    have hrest : ∀ b' ∈ rest, isBlank b' = true := fun b' hb' => hblanks b' (mem_cons_of_mem _ hb')
    apply SameText.blankInRegion b (hblanks b mem_cons_self) _ (ih hrest)
    rw [append_assoc]
    exact hend.blanks hrest

theorem SameText.region_blank {region : Bytes} (h : SameText after region text)
    (hnil : text = []) : ∀ b ∈ region, isBlank b = true := by
  induction h with
  | done => exact fun _ hb => absurd hb not_mem_nil
  | byte b hLF hCR rest ih => cases hnil
  | lineBreak hending hending' hall hall' rest ih =>
    have hpos := hending'.length_pos
    rw [append_eq_nil_iff] at hnil
    rw [hnil.1] at hpos
    exact absurd hpos (lt_irrefl 0)
  | blankInRegion b hblank hend rest ih =>
    intro b' hb'
    rcases mem_cons.mp hb' with rfl | hb'
    · exact hblank
    · exact ih hnil b' hb'
  | blankInText b hblank hend rest ih => cases hnil

/-- The last byte of a region or a text is not a blank. -/
def KeptLast (text : Bytes) : Prop := ∀ b, text.getLast? = some b → isBlank b = false

theorem KeptLast.nil_of_blank (h : KeptLast text)
    (hblank : ∀ b ∈ text, isBlank b = true) : text = [] := by
  by_contra hne
  have hlast := getLast?_eq_some_getLast hne
  have hnot := h _ hlast
  rw [hblank _ (getLast_mem hne)] at hnot
  cases hnot

theorem keptLast_nil : KeptLast [] := by
  intro b hb
  cases hb

theorem KeptLast.tail (front : Bytes) {text : Bytes} (h : KeptLast (front ++ text)) :
    KeptLast text := by
  by_cases hne : text = []
  · rw [hne]
    exact keptLast_nil
  · intro b hb
    apply h b
    rwa [getLast?_append_of_ne_nil _ hne]

theorem SameText.atLineEnd {region : Bytes} (h : SameText after region text)
    (hregion : KeptLast region) (htext : ¬ KeptLast text) : AtLineEnd after := by
  induction h with
  | done => exact absurd keptLast_nil htext
  | @byte b region text hLF hCR rest ih =>
    have hlater : KeptLast region := KeptLast.tail [b] hregion
    by_cases hnil : text = []
    · have hregionNil := hlater.nil_of_blank (rest.region_blank hnil)
      rw [hregionNil] at hregion
      rw [hnil] at htext
      exact absurd hregion htext
    · apply ih hlater
      intro hkept
      apply htext
      intro b' hb'
      apply hkept b'
      rwa [← singleton_append, getLast?_append_of_ne_nil _ hnil] at hb'
  | @lineBreak ending ending' region text hending hending' hall hall' rest ih =>
    by_cases hnil : text = []
    · exfalso
      apply htext
      rw [hnil, append_nil]
      rcases hending' with rfl | rfl | rfl <;>
      · intro b hb
        cases hb
        decide
    · apply ih (KeptLast.tail ending hregion)
      intro hkept
      apply htext
      intro b' hb'
      apply hkept b'
      rwa [getLast?_append_of_ne_nil _ hnil] at hb'
  | @blankInRegion b region text hblank hend rest ih =>
    exact ih (KeptLast.tail [b] hregion) htext
  | @blankInText b region text hblank hend rest ih =>
    by_cases hnil : text = []
    · have hregionNil := hregion.nil_of_blank (rest.region_blank hnil)
      rw [hregionNil] at hend
      exact hend
    · apply ih hregion
      intro hkept
      apply htext
      intro b' hb'
      apply hkept b'
      rwa [← singleton_append, getLast?_append_of_ne_nil _ hnil] at hb'

/-! ## Atoms and the text behind them -/

/-- No carriage return is an atom's end where a line feed follows. -/
def Separated (after : Bytes) : List Atom → Prop
  | [] => True
  | a :: rest =>
      (a.source.getLast? = some CR → (sourceOf rest ++ after).head? ≠ some LF) ∧ Separated after rest

variable {xs ys : List Atom}

theorem separated_append :
    Separated after (xs ++ ys) ↔ Separated (sourceOf ys ++ after) xs ∧ Separated after ys := by
  induction xs with
  | nil => exact ⟨fun h => ⟨trivial, h⟩, And.right⟩
  | cons a rest ih =>
    simp only [cons_append, Separated, ih, sourceOf_append, append_assoc, and_assoc]

theorem separated_consByte (b : UInt8) {t : Atoms} (hvalid : t.Valid)
    (h : Separated t.blanks t.atoms) : Separated (consByte b t).blanks (consByte b t).atoms := by
  have hLF : ([LF] : Bytes).getLast? ≠ some CR := by decide
  unfold consByte
  split
  · exact ⟨fun hlast => absurd hlast hLF, h⟩
  · next hbLF =>
    split
    · split
      · next first rest hatoms =>
        rw [hatoms] at h
        have hfirst := hvalid.atoms first (by rw [hatoms]; exact mem_cons_self)
        split
        · next hhead =>
          rw [hfirst.head_LF hhead]
          exact ⟨fun hlast => absurd hlast (by decide), h.2⟩
        · next hhead =>
          refine ⟨?_, by rw [hatoms]; exact h⟩
          intro _
          show (sourceOf t.atoms ++ t.blanks).head? ≠ some LF
          rw [hatoms, sourceOf_cons, append_assoc,
            head?_append_of_ne_nil _ hfirst.source_ne_nil]
          exact hhead
      · next hatoms =>
        refine ⟨?_, trivial⟩
        intro _ hhead
        have hblank := hvalid.blanks LF (mem_of_mem_head? hhead)
        exact absurd hblank (by decide)
    · next hbCR =>
      split
      · split
        · next hatoms =>
          show Separated (b :: t.blanks) t.atoms
          rw [hatoms]
          trivial
        · next first rest hatoms =>
          rw [hatoms] at h
          have hfirst := hvalid.atoms first (by rw [hatoms]; exact mem_cons_self)
          split
          · refine ⟨?_, h.2⟩
            intro hlast
            apply h.1
            rwa [← singleton_append, getLast?_append_of_ne_nil _ hfirst.source_ne_nil]
              at hlast
          · rw [← hatoms] at h
            refine ⟨?_, h⟩
            intro hlast
            injection hlast with hlast
            exact absurd hlast hbCR
      · refine ⟨?_, h⟩
        intro hlast
        injection hlast with hlast
        exact absurd hlast hbCR

theorem separated_atomsOf (text : Bytes) : Separated (atomsOf text).blanks (atomsOf text).atoms := by
  induction text with
  | nil => trivial
  | cons b text ih => exact separated_consByte b (atomsOf_valid text) ih

theorem IsEnding.getLast? (h : IsEnding ending) (blanks : Bytes) :
    ending = [CR] → (blanks ++ ending).getLast? = some CR := by
  rintro rfl
  exact getLast?_concat

theorem sameText_atoms {blanks : Bytes} (hxs : ∀ a ∈ xs, a.Valid)
    (hys : ∀ a ∈ ys, a.Valid) (hbytes : xs.map Atom.byte = ys.map Atom.byte)
    (hsep : Separated after xs) (hsep' : Separated blanks ys)
    (hblanks : ∀ b ∈ blanks, isBlank b = true) (hend : blanks ≠ [] → AtLineEnd after) :
    SameText after (sourceOf xs) (sourceOf ys ++ blanks) := by
  induction xs generalizing ys with
  | nil =>
    have hnil : ys = [] := map_eq_nil_iff.mp hbytes.symm
    rw [hnil]
    by_cases hnone : blanks = []
    · rw [hnone]
      exact SameText.done
    · have htail := SameText.done.blanksInText hblanks (hend hnone)
      rwa [append_nil] at htail
  | cons a xs ih =>
    cases ys with
    | nil => cases hbytes
    | cons a' ys =>
      injection hbytes with hbyte hbytes
      have hrest := ih (fun x hx => hxs x (mem_cons_of_mem _ hx))
        (fun y hy => hys y (mem_cons_of_mem _ hy)) hbytes hsep.2 hsep'.2
      have ha := hxs a mem_cons_self
      have ha' := hys a' mem_cons_self
      cases ha with
      | kept b hLF hCR =>
        cases ha' with
        | kept b' hLF' hCR' =>
          cases hbyte
          exact SameText.byte b hLF hCR hrest
        | lineBreak bs e hbs he => exact absurd hbyte hLF
      | lineBreak bs e hbs he =>
        cases ha' with
        | kept b' hLF' hCR' => exact absurd hbyte.symm hLF'
        | lineBreak bs' e' hbs' he' =>
          have hbreak : SameText after (e ++ sourceOf xs) (e' ++ (sourceOf ys ++ blanks)) :=
            SameText.lineBreak he he' (fun hcr => hsep.1 (he.getLast? bs hcr))
              (fun hcr => hsep'.1 (he'.getLast? bs' hcr)) hrest
          have hline : AtLineEnd ((e ++ sourceOf xs) ++ after) := by
            rw [append_assoc]
            exact he.atLineEnd _
          have hall := (hbreak.blanksInText hbs' hline).blanksInRegion hbs hline
          simpa only [sourceOf_cons, append_assoc] using hall

theorem Atom.Valid.keptLast {a : Atom} (h : a.Valid) (hbyte : isBlank a.byte = false) :
    KeptLast a.source := by
  cases h with
  | kept b hLF hCR =>
    intro b' hb'
    injection hb' with hb'
    rw [← hb']
    exact hbyte
  | lineBreak bs e hbs he =>
    intro b hb
    rw [getLast?_append_of_ne_nil _ (length_pos_iff.mp he.length_pos)] at hb
    rcases he with rfl | rfl | rfl <;>
    · cases hb
      decide

theorem keptLast_sourceOf {atoms : List Atom} (hvalid : ∀ a ∈ atoms, a.Valid)
    (hlast : ∀ a, atoms.getLast? = some a → isBlank a.byte = false) : KeptLast (sourceOf atoms) := by
  by_cases hne : atoms = []
  · rw [hne]
    exact keptLast_nil
  · have hsplit := dropLast_append_getLast hne
    have hlastAtom := hvalid _ (getLast_mem hne)
    have hkept := hlastAtom.keptLast (hlast _ (getLast?_eq_some_getLast hne))
    rw [← hsplit, sourceOf_append, sourceOf_cons, sourceOf_nil, append_nil]
    intro b hb
    rw [getLast?_append_of_ne_nil _ hlastAtom.source_ne_nil] at hb
    exact hkept b hb

theorem keptLast_iff (text : Bytes) : KeptLast text ↔ (atomsOf text).blanks = [] := by
  have hvalid := atomsOf_valid text
  have hsource := sourceOf_atomsOf text
  constructor
  · intro hkept
    rw [← hsource] at hkept
    exact (KeptLast.tail _ hkept).nil_of_blank hvalid.blanks
  · intro hnil
    rw [hnil, append_nil] at hsource
    rw [← hsource]
    exact keptLast_sourceOf hvalid.atoms hvalid.last

/-! ## The region of a place -/

/-- What stands in the content between two positions. -/
def region (content : Bytes) (start stop : Nat) : Bytes := (content.take stop).drop start

theorem drop_origin (text : Bytes) (p : Nat) :
    text.drop (origin text p) = sourceOf ((atomsOf text).atoms.drop p) ++ (atomsOf text).blanks := by
  have hsource := sourceOf_atomsOf text
  rw [← take_append_drop p (atomsOf text).atoms, sourceOf_append, append_assoc] at hsource
  have hdrop := congrArg (List.drop (origin text p)) hsource
  rw [← hdrop]
  exact drop_left

theorem region_origin (text : Bytes) (p length : Nat) :
    region text (origin text p) (origin text (p + length)) =
      sourceOf (((atomsOf text).atoms.drop p).take length) := by
  have hmono := origin_mono text (Nat.le_add_right p length)
  have htake : (atomsOf text).atoms.take (p + length) =
      (atomsOf text).atoms.take p ++ ((atomsOf text).atoms.drop p).take length := take_add
  have hlength : origin text (p + length) =
      origin text p + (sourceOf (((atomsOf text).atoms.drop p).take length)).length := by
    unfold origin
    rw [htake, sourceOf_append, length_append]
  have hsplit : sourceOf ((atomsOf text).atoms.drop p) =
      sourceOf (((atomsOf text).atoms.drop p).take length) ++
        sourceOf (((atomsOf text).atoms.drop p).drop length) := by
    rw [← sourceOf_append, take_append_drop]
  unfold region
  rw [drop_take, drop_origin, hlength, Nat.add_sub_cancel_left, hsplit, append_assoc,
    take_left]

variable {content : Bytes} {p : Nat}

theorem occursAt_normal (h : OccursAt (normal text) (normal content) p) :
    (((atomsOf content).atoms.drop p).take (normal text).length).map Atom.byte =
      (atomsOf text).atoms.map Atom.byte := by
  rw [occursAt_iff_take] at h
  rw [map_take, map_drop]
  exact h

theorem sameText_region (h : OccursAt (normal text) (normal content) p)
    (hend : ¬ KeptLast text → AtLineEnd (content.drop (origin content (p + (normal text).length)))) :
    SameText (content.drop (origin content (p + (normal text).length)))
      (region content (origin content p) (origin content (p + (normal text).length))) text := by
  have hcontent := atomsOf_valid content
  have htext := atomsOf_valid text
  rw [region_origin]
  have hbytes := occursAt_normal h
  have hsep := separated_atomsOf content
  rw [← take_append_drop p (atomsOf content).atoms, separated_append] at hsep
  have hmiddle := hsep.2
  rw [← take_append_drop (normal text).length ((atomsOf content).atoms.drop p),
    separated_append, drop_drop, ← drop_origin] at hmiddle
  have hsame := sameText_atoms
    (fun a ha => hcontent.atoms a (mem_of_mem_drop (mem_of_mem_take ha)))
    htext.atoms hbytes hmiddle.1 (separated_atomsOf text) htext.blanks
    (fun hne => hend fun hkept => hne ((keptLast_iff text).mp hkept))
  rwa [sourceOf_atomsOf] at hsame

theorem getLast?_normal {b : UInt8} (h : (normal text).getLast? = some b) : isBlank b = false := by
  unfold normal at h
  rw [getLast?_map] at h
  obtain ⟨a, ha, rfl⟩ := Option.map_eq_some_iff.mp h
  exact (atomsOf_valid text).last a ha

theorem keptLast_region (h : OccursAt (normal text) (normal content) p) :
    KeptLast (region content (origin content p) (origin content (p + (normal text).length))) := by
  have hcontent := atomsOf_valid content
  rw [region_origin]
  apply keptLast_sourceOf
  · exact fun a ha => hcontent.atoms a (mem_of_mem_drop (mem_of_mem_take ha))
  · intro a ha
    have hbytes := congrArg getLast? (occursAt_normal h)
    rw [getLast?_map, ha] at hbytes
    exact getLast?_normal hbytes.symm

theorem sameText_region_iff (h : OccursAt (normal text) (normal content) p) :
    SameText (content.drop (origin content (p + (normal text).length)))
      (region content (origin content p) (origin content (p + (normal text).length))) text ↔
      (¬ KeptLast text → AtLineEnd (content.drop (origin content (p + (normal text).length)))) :=
  ⟨fun hsame htext => hsame.atLineEnd (keptLast_region h) htext, sameText_region h⟩

theorem origin_strictMono (text : Bytes) {q : Nat} (h : p < q) (hq : q ≤ (normal text).length) :
    origin text p < origin text q := by
  have hlength : (normal text).length = (atomsOf text).atoms.length := length_map _
  have hp : p < (atomsOf text).atoms.length := by omega
  have hstep : origin text p < origin text (p + 1) := by
    have hatom := (atomsOf_valid text).atoms _ (getElem_mem hp)
    unfold origin
    rw [take_add_one, getElem?_eq_getElem hp, sourceOf_append, length_append]
    have hpos := length_pos_iff.mpr hatom.source_ne_nil
    simp only [Option.toList_some, sourceOf_cons, sourceOf_nil, append_nil]
    omega
  exact lt_of_lt_of_le hstep (origin_mono text h)

end Cohub.Edit
