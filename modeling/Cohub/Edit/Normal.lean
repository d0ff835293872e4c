import Mathlib.Data.List.DropRight
import Cohub.Edit.Apply

/-! # The normal form of a text

    A text is a sequence of atoms: a byte that is kept, or a line break with
    the blanks before it, which stands for `'\n'`; after the last atom there may
    be blanks.  The normal form is what the atoms stand for.  This file defines
    the atoms by recursion on the text (`atomsOf`) and proves that
    `normalizeEditText` computes the normal form, and where the code's map back
    from the normal form to the text does. -/

namespace Cohub.Edit

open Checked Substring List

/-! ## Atoms -/

/-- Some bytes of the text and the byte they stand for. -/
structure Atom where
  source : Bytes
  byte   : UInt8
  deriving DecidableEq

/-- The atoms of a text and the blanks after them. -/
structure Atoms where
  atoms  : List Atom
  blanks : Bytes
  deriving DecidableEq

/-- Put a byte in front. -/
def consByte (b : UInt8) (t : Atoms) : Atoms :=
  if b = LF then { t with atoms := { source := [LF], byte := LF } :: t.atoms }
  else if b = CR then
    match t.atoms with
    | first :: rest =>
        if first.source.head? = some LF then
          { t with atoms := { source := CR :: first.source, byte := LF } :: rest }
        else { t with atoms := { source := [CR], byte := LF } :: t.atoms }
    | [] => { t with atoms := [{ source := [CR], byte := LF }] }
  else if isBlank b then
    match t.atoms with
    | [] => { t with blanks := b :: t.blanks }
    | first :: rest =>
        if first.byte = LF then
          { t with atoms := { source := b :: first.source, byte := LF } :: rest }
        else { t with atoms := { source := [b], byte := b } :: t.atoms }
  else { t with atoms := { source := [b], byte := b } :: t.atoms }

def atomsOf (text : Bytes) : Atoms := text.foldr consByte { atoms := [], blanks := [] }

def sourceOf (atoms : List Atom) : Bytes := atoms.flatMap Atom.source

def normal (text : Bytes) : Bytes := (atomsOf text).atoms.map Atom.byte

/-- Where a position of the normal form is in the text. -/
def origin (text : Bytes) (target : Nat) : Nat := (sourceOf ((atomsOf text).atoms.take target)).length

@[simp] theorem sourceOf_nil : sourceOf [] = [] := rfl

@[simp] theorem sourceOf_cons (a : Atom) (rest : List Atom) :
    sourceOf (a :: rest) = a.source ++ sourceOf rest := rfl

theorem sourceOf_append (xs ys : List Atom) : sourceOf (xs ++ ys) = sourceOf xs ++ sourceOf ys := by
  unfold sourceOf
  rw [flatMap_append]

theorem atomsOf_cons (b : UInt8) (text : Bytes) : atomsOf (b :: text) = consByte b (atomsOf text) := rfl

/-- A line break as it may stand in a text. -/
def IsEnding (ending : Bytes) : Prop := ending = [LF] ∨ ending = [CR] ∨ ending = [CR, LF]

variable {ending remainder rest blanks text body : Bytes} {b : UInt8} {a : Atom}
    {lineStart target : Nat}

theorem IsEnding.length_pos (h : IsEnding ending) : 0 < ending.length := by
  rcases h with rfl | rfl | rfl <;> exact Nat.succ_pos _

/-- An atom is a byte that is kept, or blanks with a line break. -/
inductive Atom.Valid : Atom → Prop where
  | kept (b : UInt8) (hLF : b ≠ LF) (hCR : b ≠ CR) : Valid { source := [b], byte := b }
  | lineBreak (blanks ending : Bytes) (hblanks : ∀ b ∈ blanks, isBlank b = true)
      (hending : IsEnding ending) : Valid { source := blanks ++ ending, byte := LF }

theorem isBlank_ne (h : isBlank b = true) : b ≠ LF ∧ b ≠ CR := by
  constructor <;>
  · rintro rfl
    exact absurd h (by decide)

theorem CR_ne_LF : CR ≠ LF := by decide

theorem Atom.Valid.head_LF (h : a.Valid) (hhead : a.source.head? = some LF) :
    a = { source := [LF], byte := LF } := by
  cases h with
  | kept b hLF hCR =>
    injection hhead with hb
    exact absurd hb hLF
  | lineBreak blanks ending hblanks hending =>
    cases blanks with
    | nil =>
      rcases hending with rfl | rfl | rfl
      · rfl
      · injection hhead with hb
        exact absurd hb CR_ne_LF
      · injection hhead with hb
        exact absurd hb CR_ne_LF
    | cons b rest =>
      injection hhead with hb
      exact absurd hb (isBlank_ne (hblanks b mem_cons_self)).1

theorem Atom.Valid.byte_LF (h : a.Valid) (hbyte : a.byte = LF) :
    ∃ blanks ending, (∀ b ∈ blanks, isBlank b = true) ∧ IsEnding ending ∧
      a = { source := blanks ++ ending, byte := LF } := by
  cases h with
  | kept b hLF hCR => exact absurd hbyte hLF
  | lineBreak blanks ending hblanks hending => exact ⟨blanks, ending, hblanks, hending, rfl⟩

theorem Atom.Valid.source_ne_nil (h : a.Valid) : a.source ≠ [] := by
  cases h with
  | kept b hLF hCR => exact cons_ne_nil _ _
  | lineBreak blanks ending hblanks hending =>
    rcases hending with rfl | rfl | rfl <;> simp

/-- What `atomsOf` gives: valid atoms, the last of them not a blank, and blanks
    after them. -/
structure Atoms.Valid (t : Atoms) : Prop where
  atoms  : ∀ a ∈ t.atoms, a.Valid
  last   : ∀ a, t.atoms.getLast? = some a → isBlank a.byte = false
  blanks : ∀ b ∈ t.blanks, isBlank b = true

theorem Atoms.Valid.cons {t : Atoms} (h : t.Valid) {a : Atom} {rest : List Atom} (ha : a.Valid)
    (hrest : rest <:+ t.atoms) (hlast : rest = [] → isBlank a.byte = false) :
    Atoms.Valid { t with atoms := a :: rest } where
  atoms := by
    intro a' ha'
    rcases mem_cons.mp ha' with rfl | ha'
    · exact ha
    · exact h.atoms a' (hrest.subset ha')
  last := by
    intro a' ha'
    cases rest with
    | nil =>
      injection ha' with ha'
      rw [← ha']
      exact hlast rfl
    | cons first later =>
      rw [getLast?_cons_cons] at ha'
      apply h.last a'
      obtain ⟨front, hfront⟩ := hrest
      rw [← hfront, getLast?_append_of_ne_nil _ (cons_ne_nil _ _)]
      exact ha'
  blanks := h.blanks

theorem valid_ending (h : IsEnding ending) : Atom.Valid { source := ending, byte := LF } :=
  Atom.Valid.lineBreak [] ending (fun _ hb => absurd hb not_mem_nil) h

theorem consByte_valid (b : UInt8) {t : Atoms} (h : t.Valid) : (consByte b t).Valid := by
  have hLF : isBlank LF = false := by decide
  unfold consByte
  split
  · exact h.cons (valid_ending (.inl rfl)) suffix_rfl fun _ => hLF
  · next hbLF =>
    split
    · split
      · next first rest hatoms =>
        split
        · next hhead =>
          have hfirst := (h.atoms first (by rw [hatoms]; exact mem_cons_self)).head_LF hhead
          rw [hfirst]
          apply h.cons (valid_ending (.inr (.inr rfl))) _ fun _ => hLF
          rw [hatoms]
          exact suffix_cons _ _
        · exact h.cons (valid_ending (.inr (.inl rfl))) suffix_rfl fun _ => hLF
      · next hatoms =>
        exact h.cons (valid_ending (.inr (.inl rfl))) (nil_suffix) fun _ => hLF
    · next hbCR =>
      split
      · next hblank =>
        split
        · next hatoms =>
          refine ⟨h.atoms, h.last, ?_⟩
          intro b' hb'
          rcases mem_cons.mp hb' with rfl | hb'
          · exact hblank
          · exact h.blanks b' hb'
        · next first rest hatoms =>
          split
          · next hfirst =>
            -- a blank before a line break belongs to it
            obtain ⟨blanks, ending, hblanks, hending, heq⟩ :=
              (h.atoms first (by rw [hatoms]; exact mem_cons_self)).byte_LF hfirst
            have hvalid : Atom.Valid { source := (b :: blanks) ++ ending, byte := LF } := by
              apply Atom.Valid.lineBreak _ _ _ hending
              intro b' hb'
              rcases mem_cons.mp hb' with rfl | hb'
              · exact hblank
              · exact hblanks b' hb'
            rw [heq]
            apply h.cons hvalid _ fun _ => hLF
            rw [hatoms]
            exact suffix_cons _ _
          · apply h.cons (Atom.Valid.kept b hbLF hbCR) suffix_rfl
            intro hnil
            rw [hatoms] at hnil
            cases hnil
      · next hblank =>
        apply h.cons (Atom.Valid.kept b hbLF hbCR) suffix_rfl
        intro _
        exact Bool.eq_false_iff.mpr hblank

theorem atomsOf_valid (text : Bytes) : (atomsOf text).Valid := by
  induction text with
  | nil =>
    refine ⟨fun _ h => absurd h not_mem_nil, ?_, fun _ h => absurd h not_mem_nil⟩
    intro a ha
    cases ha
  | cons b text ih => exact consByte_valid b ih

theorem sourceOf_consByte (b : UInt8) (t : Atoms) :
    sourceOf (consByte b t).atoms ++ (consByte b t).blanks = b :: (sourceOf t.atoms ++ t.blanks) := by
  unfold consByte
  split
  · next hb => rw [hb]; rfl
  · split
    · next hb =>
      split
      · next first rest hatoms =>
        split
        · rw [hatoms, hb]; rfl
        · rw [hb]; rfl
      · next hatoms => rw [hatoms, hb]; rfl
    · split
      · split
        · next hatoms => rw [hatoms]; rfl
        · next first rest hatoms =>
          split
          · rw [hatoms]; rfl
          · rfl
      · rfl

theorem sourceOf_atomsOf (text : Bytes) :
    sourceOf (atomsOf text).atoms ++ (atomsOf text).blanks = text := by
  induction text with
  | nil => rfl
  | cons b text ih => rw [atomsOf_cons, sourceOf_consByte, ih]

/-! ## Lines -/

/-- The atom of a byte that is kept. -/
def keptAtom (b : UInt8) : Atom := { source := [b], byte := b }

theorem sourceOf_kept (body : Bytes) : sourceOf (body.map keptAtom) = body := by
  induction body with
  | nil => rfl
  | cons b rest ih =>
    rw [map_cons, sourceOf_cons, ih]
    rfl

/-- A line break and a text that does not continue it. -/
structure EndingAt (remainder ending rest : Bytes) : Prop where
  split    : remainder = ending ++ rest
  isEnding : IsEnding ending
  maximal  : ending = [CR] → rest.head? ≠ some LF

theorem exists_endingAt (hb : b = LF ∨ b = CR) (text : Bytes) :
    ∃ ending rest, EndingAt (b :: text) ending rest := by
  rcases hb with rfl | rfl
  · exact ⟨[LF], text, rfl, .inl rfl, fun h => absurd (head_eq_of_cons_eq h) CR_ne_LF.symm⟩
  · by_cases hnext : text.head? = some LF
    · obtain ⟨rest, rfl⟩ := head?_eq_some_iff.mp hnext
      refine ⟨[CR, LF], rest, rfl, .inr (.inr rfl), ?_⟩
      intro h
      cases h
    · exact ⟨[CR], text, rfl, .inr (.inl rfl), fun _ => hnext⟩

theorem atomsOf_ending (h : EndingAt remainder ending rest) :
    atomsOf remainder = { atomsOf rest with
      atoms := { source := ending, byte := LF } :: (atomsOf rest).atoms } := by
  have hCR : ∀ t : Atoms, (∀ first later, t.atoms = first :: later → first.source.head? ≠ some LF) →
      consByte CR t = { t with atoms := { source := [CR], byte := LF } :: t.atoms } := by
    intro t ht
    unfold consByte
    rw [if_neg CR_ne_LF, if_pos rfl]
    cases hatoms : t.atoms with
    | nil => rfl
    | cons first later =>
      simp only
      rw [if_neg (ht first later hatoms)]
  rcases h.isEnding with hending | hending | hending
  · rw [h.split, hending]
    rfl
  · rw [h.split, hending]
    show consByte CR (atomsOf rest) = _
    apply hCR
    -- the first atom begins as the text does
    intro first later hatoms hhead
    have hsource := sourceOf_atomsOf rest
    rw [hatoms, sourceOf_cons, append_assoc] at hsource
    apply h.maximal hending
    rw [← hsource, head?_append, hhead]
    rfl
  · rw [h.split, hending]
    rfl

theorem atomsOf_blanks (hblanks : ∀ b ∈ blanks, isBlank b = true) {rest : List Atom}
    (h : (atomsOf text).atoms = { source := ending, byte := LF } :: rest) :
    atomsOf (blanks ++ text) = { atomsOf text with
      atoms := { source := blanks ++ ending, byte := LF } :: rest } := by
  induction blanks with
  | nil =>
    rw [nil_append, nil_append, ← h]
  | cons b blanks ih =>
    have hb := hblanks b mem_cons_self
    rw [cons_append, atomsOf_cons, ih fun b' hb' => hblanks b' (mem_cons_of_mem _ hb')]
    unfold consByte
    rw [if_neg (isBlank_ne hb).1, if_neg (isBlank_ne hb).2, if_pos hb]
    rfl

theorem atomsOf_last_blanks (hblanks : ∀ b ∈ blanks, isBlank b = true) :
    atomsOf blanks = { atoms := [], blanks := blanks } := by
  induction blanks with
  | nil => rfl
  | cons b blanks ih =>
    have hb := hblanks b mem_cons_self
    rw [atomsOf_cons, ih fun b' hb' => hblanks b' (mem_cons_of_mem _ hb')]
    unfold consByte
    rw [if_neg (isBlank_ne hb).1, if_neg (isBlank_ne hb).2, if_pos hb]

theorem atomsOf_body (hbody : ∀ b ∈ body, b ≠ LF ∧ b ≠ CR)
    (hlast : ∀ b, body.getLast? = some b → isBlank b = false) (text : Bytes) :
    atomsOf (body ++ text) = { atomsOf text with
      atoms := body.map keptAtom ++ (atomsOf text).atoms } := by
  induction body with
  | nil => rfl
  | cons b body ih =>
    have hb := hbody b mem_cons_self
    have hrest : ∀ b', body.getLast? = some b' → isBlank b' = false := by
      intro b' hb'
      apply hlast b'
      rw [getLast?_cons, hb']
      rfl
    rw [cons_append, atomsOf_cons,
      ih (fun b' hb' => hbody b' (mem_cons_of_mem _ hb')) hrest]
    unfold consByte
    rw [if_neg hb.1, if_neg hb.2]
    split
    · next hblank =>
      -- a blank that is not the last byte has a kept byte after it
      cases body with
      | nil =>
        have hnot := hlast b rfl
        rw [hnot] at hblank
        cases hblank
      | cons next body =>
        have hnext := hbody next (mem_cons_of_mem _ mem_cons_self)
        simp only [map_cons, cons_append]
        rw [if_neg (show (keptAtom next).byte ≠ LF from hnext.1)]
        rfl
    · rfl

/-- A byte that does not end a line. -/
def isInLine (b : UInt8) : Bool := b != LF && b != CR

theorem isInLine_iff : isInLine b = true ↔ b ≠ LF ∧ b ≠ CR := by
  unfold isInLine
  rw [Bool.and_eq_true, bne_iff_ne, bne_iff_ne]

/-- A line of the text: what is kept, the blanks at its end, and what follows,
    which is nothing or begins with a line break. -/
structure LineAt (text : Bytes) (lineStart : Nat) (body blanks remainder : Bytes) : Prop where
  start    : lineStart ≤ text.length
  split    : text.drop lineStart = body ++ (blanks ++ remainder)
  inLine   : ∀ b ∈ body, b ≠ LF ∧ b ≠ CR
  lastKept : ∀ b, body.getLast? = some b → isBlank b = false
  isBlanks : ∀ b ∈ blanks, isBlank b = true
  atBreak  : ∀ b, remainder.head? = some b → b = LF ∨ b = CR

theorem exists_lineAt (h : lineStart ≤ text.length) :
    ∃ body blanks remainder, LineAt text lineStart body blanks remainder := by
  set line := (text.drop lineStart).takeWhile isInLine with hline
  refine ⟨line.rdropWhile isBlank, line.rtakeWhile isBlank, (text.drop lineStart).dropWhile isInLine,
    h, ?_, ?_, ?_, ?_, ?_⟩
  · rw [← append_assoc, rdropWhile_append_rtakeWhile, hline,
      takeWhile_append_dropWhile]
  · intro b hb
    have hmem : b ∈ line := (List.rdropWhile_prefix isBlank line).subset hb
    rw [hline] at hmem
    exact isInLine_iff.mp (mem_takeWhile_imp hmem)
  · intro b hb
    have hne : line.rdropWhile isBlank ≠ [] := by
      intro hnil
      rw [hnil] at hb
      cases hb
    have hnot := rdropWhile_last_not isBlank line hne
    rw [getLast?_eq_some_getLast hne] at hb
    injection hb with hb
    rw [hb] at hnot
    exact Bool.eq_false_iff.mpr hnot
  · intro b hb
    exact mem_rtakeWhile_imp hb
  · intro b hb
    have hnot := head?_dropWhile_not isInLine (text.drop lineStart)
    rw [hb] at hnot
    by_contra hneither
    rw [not_or] at hneither
    have hin : isInLine b = true := isInLine_iff.mpr hneither
    simp only at hnot
    rw [hin] at hnot
    cases hnot

theorem LineAt.length (h : LineAt text lineStart body blanks remainder) :
    text.length = lineStart + body.length + blanks.length + remainder.length := by
  have hlength := congrArg List.length h.split
  have hstart := h.start
  simp only [length_drop, length_append] at hlength
  omega

theorem LineAt.drop (h : LineAt text lineStart body blanks remainder) (k : Nat) :
    text.drop (lineStart + k) = (body ++ (blanks ++ remainder)).drop k := by
  rw [← drop_drop, h.split]

theorem LineAt.atomsOf
    (h : LineAt text lineStart body blanks remainder) (hending : EndingAt remainder ending rest) :
    Edit.atomsOf (text.drop lineStart) = { Edit.atomsOf rest with
      atoms := body.map keptAtom ++
        ({ source := blanks ++ ending, byte := LF } :: (Edit.atomsOf rest).atoms) } := by
  have hremainder := atomsOf_ending hending
  have hfirst : (Edit.atomsOf remainder).atoms =
      { source := ending, byte := LF } :: (Edit.atomsOf rest).atoms := by rw [hremainder]
  have hblanks := atomsOf_blanks h.isBlanks hfirst
  rw [h.split, atomsOf_body h.inLine h.lastKept, hblanks, hremainder]

theorem LineAt.atomsOf_last (h : LineAt text lineStart body blanks []) :
    Edit.atomsOf (text.drop lineStart) = { atoms := body.map keptAtom, blanks := blanks } := by
  rw [h.split, append_nil, atomsOf_body h.inLine h.lastKept, atomsOf_last_blanks h.isBlanks]
  simp only [append_nil]

/-! ## The scanners -/

section

variable (h : LineAt text lineStart body blanks remainder)
include h

theorem lineEndFrom_eq :
    lineEndFrom text lineStart = .ok (lineStart + body.length + blanks.length) := by
  have hlength := h.length
  unfold lineEndFrom
  apply loop_eq (fun i => lineStart ≤ i ∧ i ≤ lineStart + body.length + blanks.length)
    (fun i => text.length - i) (fun _ => .ok (lineStart + body.length + blanks.length))
  · intro i hi
    obtain ⟨k, rfl⟩ := Nat.exists_eq_add_of_le hi.1
    have hdrop := h.drop k
    split
    · next hlt =>
      rw [← append_assoc] at hdrop
      by_cases hend : k = body.length + blanks.length
      · -- at the line break
        rw [hend, ← length_append, drop_left] at hdrop
        cases hremainder : remainder with
        | nil =>
          rw [hremainder] at hlength
          simp only [length_nil] at hlength
          omega
        | cons b rest =>
          have hbreak := h.atBreak b (by rw [hremainder]; rfl)
          rw [hremainder, length_append, ← hend] at hdrop
          rw [index_of_drop hdrop, bind_ok, if_neg (by
            rcases hbreak with rfl | rfl
            · exact fun hne => hne.1 rfl
            · exact fun hne => hne.2 rfl)]
          apply Round.result
          rw [hend, Nat.add_assoc]
      · have hk : k < (body ++ blanks).length := by
          rw [length_append]
          omega
        rw [drop_append_of_le_length (le_of_lt hk), drop_eq_getElem_cons hk,
          cons_append] at hdrop
        have hin : (body ++ blanks)[k] ≠ LF ∧ (body ++ blanks)[k] ≠ CR := by
          rcases mem_append.mp (getElem_mem hk) with hb | hb
          · exact h.inLine _ hb
          · exact isBlank_ne (h.isBlanks _ hb)
        rw [index_of_drop hdrop, bind_ok, if_pos hin]
        rw [length_append] at hk
        exact Round.next _ (by omega) (by omega) rfl
    · next hge =>
      apply Round.result
      congr 1
      omega
  · omega
  · omega

theorem contentEndFrom_eq :
    contentEndFrom text lineStart (lineStart + body.length + blanks.length) =
      .ok (lineStart + body.length) := by
  have hlength := h.length
  unfold contentEndFrom
  apply loop_eq (fun i => lineStart + body.length ≤ i ∧ i ≤ lineStart + body.length + blanks.length)
    (fun i => i) (fun _ => .ok (lineStart + body.length))
  · intro i hi
    obtain ⟨k, rfl⟩ := Nat.exists_eq_add_of_le hi.1
    split
    · next hlt =>
      have hdrop := h.drop (body.length + k - 1)
      have hplace : lineStart + (body.length + k - 1) = lineStart + body.length + k - 1 := by omega
      rw [hplace] at hdrop
      by_cases hend : k = 0
      · -- at the last byte that is kept
        subst hend
        obtain ⟨front, last, hbody⟩ : ∃ front last, body = front ++ [last] := by
          refine ⟨body.dropLast, body.getLast (ne_nil_of_length_pos (by omega)), ?_⟩
          exact (dropLast_append_getLast _).symm
        have hlast := h.lastKept last (by rw [hbody, getLast?_concat])
        have hfront : body.length + 0 - 1 = front.length := by
          rw [hbody, length_append]
          rfl
        have hread : text.drop (lineStart + body.length + 0 - 1) = last :: (blanks ++ remainder) := by
          rw [hdrop, hfront, hbody, append_assoc, drop_left]
          rfl
        rw [index_of_drop hread, bind_ok, hlast]
        exact Round.result _ rfl
      · have hk : k - 1 < blanks.length := by omega
        have hplace : body.length + k - 1 = body.length + (k - 1) := by omega
        rw [hplace, ← drop_drop, drop_left,
          drop_append_of_le_length (le_of_lt hk), drop_eq_getElem_cons hk,
          cons_append] at hdrop
        rw [index_of_drop hdrop, bind_ok, if_pos (h.isBlanks _ (getElem_mem hk))]
        exact Round.next _ (by omega) (by omega) rfl
    · next hge =>
      apply Round.result
      congr 1
      omega
  · omega
  · omega

theorem newlineEndOf_eq (hending : EndingAt remainder ending rest) :
    newlineEndOf text (lineStart + body.length + blanks.length) =
      .ok (lineStart + body.length + blanks.length + ending.length) := by
  have hlength := h.length
  have hbreak : text.drop (lineStart + body.length + blanks.length) = ending ++ rest := by
    rw [Nat.add_assoc, h.drop, ← append_assoc, ← length_append, drop_left,
      hending.split]
  have hnext : text.drop (lineStart + body.length + blanks.length + 1) = (ending ++ rest).drop 1 := by
    rw [← drop_drop, hbreak]
  have hsize := congrArg List.length hending.split
  rw [length_append] at hsize
  unfold newlineEndOf
  rcases hending.isEnding with rfl | rfl | rfl
  · rw [index_of_drop hbreak, bind_ok, if_neg (fun hb => CR_ne_LF hb.1.symm)]
    rfl
  · rw [index_of_drop hbreak, bind_ok]
    split
    · next hmore =>
      cases hrest : rest with
      | nil =>
        rw [hrest] at hsize
        simp only [length_cons, length_nil] at hsize
        omega
      | cons b later =>
        have hb := hending.maximal rfl
        rw [hrest] at hb hnext
        rw [index_of_drop hnext, bind_ok, if_neg (fun heq => hb (by rw [heq]; rfl))]
        rfl
    · rfl
  · simp only [length_cons, length_nil] at hsize
    rw [index_of_drop hbreak, bind_ok, if_pos ⟨rfl, by omega⟩, index_of_drop hnext, bind_ok,
      if_pos rfl]
    rfl

theorem uncheckedNewlineEndOf_eq (hending : EndingAt remainder ending rest) :
    uncheckedNewlineEndOf text (lineStart + body.length + blanks.length) =
      if remainder = [CR] then .error .outOfRange
      else .ok (lineStart + body.length + blanks.length + ending.length) := by
  have hchecked := newlineEndOf_eq h hending
  have hlength := h.length
  have hread : text.drop (lineStart + body.length + blanks.length) = remainder := by
    rw [Nat.add_assoc, h.drop, ← append_assoc, ← length_append, drop_left]
  split
  · next hlone =>
    rw [hlone] at hread hlength
    simp only [length_cons, length_nil] at hlength
    unfold uncheckedNewlineEndOf
    rw [index_of_drop hread, bind_ok, if_pos rfl, index_of_le (by omega)]
    rfl
  · next hlone =>
    rw [← hchecked]
    unfold uncheckedNewlineEndOf newlineEndOf
    cases hremainder : remainder with
    | nil =>
      rw [hremainder] at hlength hread
      rw [index_of_le (by simp only [length_nil] at hlength; omega)]
      rfl
    | cons b later =>
      rw [hremainder] at hread hlone hlength
      rw [index_of_drop hread, bind_ok, bind_ok]
      by_cases hb : b = CR
      · have hmore : lineStart + body.length + blanks.length + 1 < text.length := by
          cases later with
          | nil =>
            rw [hb] at hlone
            exact absurd rfl hlone
          | cons next later =>
            simp only [length_cons] at hlength
            omega
        rw [if_pos hb, if_pos ⟨hb, hmore⟩]
      · rw [if_neg hb, if_neg fun hboth => hb hboth.1]

end

theorem map_byte_kept (body : Bytes) : (body.map keptAtom).map Atom.byte = body := by
  rw [map_map]
  exact map_id body

theorem LineAt.normal
    (h : LineAt text lineStart body blanks remainder) (hending : EndingAt remainder ending rest) :
    Edit.normal (text.drop lineStart) = body ++ [LF] ++ Edit.normal rest := by
  unfold Edit.normal
  rw [h.atomsOf hending, map_append, map_byte_kept, map_cons, append_assoc]
  rfl

theorem LineAt.normal_last
    (h : LineAt text lineStart body blanks []) : Edit.normal (text.drop lineStart) = body := by
  unfold Edit.normal
  rw [h.atomsOf_last, map_byte_kept]

theorem LineAt.slice (h : LineAt text lineStart body blanks remainder) :
    Checked.slice text lineStart (lineStart + body.length) = .ok body :=
  slice_of_drop h.start h.split

theorem LineAt.next
    (h : LineAt text lineStart body blanks remainder) (hending : EndingAt remainder ending rest) :
    text.drop (lineStart + body.length + blanks.length + ending.length) = rest ∧
      lineStart < lineStart + body.length + blanks.length + ending.length ∧
      lineStart + body.length + blanks.length + ending.length ≤ text.length := by
  have hlength := h.length
  have hsize := congrArg List.length hending.split
  rw [length_append] at hsize
  have hpos := hending.isEnding.length_pos
  refine ⟨?_, by omega, by omega⟩
  rw [← drop_drop, Nat.add_assoc, h.drop, ← append_assoc, ← length_append,
    drop_left, hending.split, drop_left]

theorem normalizeLine_round (text : Bytes) (s : Nat × Bytes) (hs : s.1 ≤ text.length) :
    Round (fun s : Nat × Bytes => s.1 ≤ text.length) (fun s => text.length - s.1)
      (fun s => .ok (s.2 ++ normal (text.drop s.1))) s (normalizeLine text s) := by
  unfold normalizeLine
  split
  · next hlt =>
    obtain ⟨body, blanks, remainder, hline⟩ := exists_lineAt hs
    have hlength := hline.length
    rw [lineEndFrom_eq hline, bind_ok, contentEndFrom_eq hline, bind_ok, hline.slice, bind_ok]
    cases hremainder : remainder with
    | nil =>
      rw [hremainder] at hline hlength
      rw [if_pos (by rw [hlength]; rfl)]
      apply Round.result
      rw [hline.normal_last]
    | cons b later =>
      obtain ⟨ending, rest, hending⟩ := exists_endingAt
        (hline.atBreak b (by rw [hremainder]; rfl)) later
      rw [hremainder] at hline hlength
      obtain ⟨hrest, hforward, hbound⟩ := hline.next hending
      rw [if_neg (by rw [hlength, length_cons]; omega), newlineEndOf_eq hline hending, bind_ok]
      refine Round.next _ hbound ?_ ?_
      · show text.length - _ < text.length - s.1
        omega
      · show Except.ok (s.2 ++ body ++ [LF] ++ normal (text.drop _)) = _
        rw [hrest, hline.normal hending]
        simp only [append_assoc]
  · next hge =>
    apply Round.result
    rw [drop_eq_nil_of_le (by omega)]
    show Except.ok (s.2 ++ []) = _
    rw [append_nil]

theorem normalizeEditText_eq (text : Bytes) : normalizeEditText text = .ok (normal text) := by
  have hloop : normalizeEditText text = .ok ([] ++ normal (text.drop 0)) := by
    apply loop_eq (fun s : Nat × Bytes => s.1 ≤ text.length) (fun s => text.length - s.1)
      (fun s => .ok (s.2 ++ normal (text.drop s.1))) (normalizeLine_round text) (s := (0, []))
    · exact Nat.zero_le _
    · show text.length - 0 < _
      omega
  exact hloop

/-! ## The map back -/

theorem origin_kept {atoms : List Atom}
    (h : atomsOf text = { atoms := body.map keptAtom ++ atoms, blanks := blanks })
    (htarget : target ≤ body.length) : origin text target = target := by
  unfold origin
  rw [h, take_append_of_le_length (by rwa [length_map]), ← map_take, sourceOf_kept,
    length_take, min_eq_left htarget]

theorem LineAt.origin (h : LineAt text lineStart body blanks remainder)
    (hending : EndingAt remainder ending rest) (target : Nat) :
    Edit.origin (text.drop lineStart) (body.length + 1 + target) =
      body.length + blanks.length + ending.length + Edit.origin rest target := by
  unfold Edit.origin
  have hfront : (body.map keptAtom).length = body.length := length_map _
  rw [h.atomsOf hending, Nat.add_assoc, ← hfront, take_length_add_append, hfront,
    Nat.add_comm 1 target, take_succ_cons, sourceOf_append, sourceOf_kept, sourceOf_cons]
  simp only [length_append]
  omega

theorem normal_ne_nil (h : text.getLast? = some CR) : normal text ≠ [] := by
  intro hnil
  have hatoms : (atomsOf text).atoms = [] := map_eq_nil_iff.mp hnil
  have hsource := sourceOf_atomsOf text
  rw [hatoms, sourceOf_nil, nil_append] at hsource
  have hblank := (atomsOf_valid text).blanks CR (by rw [hsource]; exact mem_of_getLast? h)
  exact absurd hblank (by decide)

/-- The end of the normal form of a text that ends in a carriage return: the
    code reads past the text there. -/
def PastEnd (text : Bytes) (target : Nat) : Prop :=
  text.getLast? = some CR ∧ target = (normal text).length

instance (text : Bytes) (target : Nat) : Decidable (PastEnd text target) :=
  inferInstanceAs (Decidable (_ ∧ _))

/-- The loop of `originalOffsetForNormalizedBoundary` from the start of a line
    on, with `target` positions to go. -/
def boundaryFrom (text : Bytes) (lineStart target : Nat) : Checked (Nat × Bool) :=
  if PastEnd (text.drop lineStart) target then .error .outOfRange
  else .ok (lineStart + origin (text.drop lineStart) target, true)

theorem getLast?_line (hbody : ∀ b ∈ body, b ≠ LF ∧ b ≠ CR)
    (hblanks : ∀ b ∈ blanks, isBlank b = true) : (body ++ blanks).getLast? ≠ some CR := by
  intro h
  rcases mem_append.mp (mem_of_getLast? h) with hmem | hmem
  · exact (hbody CR hmem).2 rfl
  · exact (isBlank_ne (hblanks CR hmem)).2 rfl

theorem boundaryFrom_kept
    (h : LineAt text lineStart body blanks remainder) (htarget : target ≤ body.length) :
    boundaryFrom text lineStart target = .ok (lineStart + target, true) := by
  cases hremainder : remainder with
  | nil =>
    rw [hremainder] at h
    have hpast : ¬ PastEnd (text.drop lineStart) target := by
      intro hpast
      rw [PastEnd, h.split, append_nil] at hpast
      exact getLast?_line h.inLine h.isBlanks hpast.1
    have hatoms : Edit.atomsOf (text.drop lineStart) =
        { atoms := body.map keptAtom ++ [], blanks := blanks } := by
      rw [h.atomsOf_last, append_nil]
    unfold boundaryFrom
    rw [if_neg hpast, origin_kept hatoms htarget]
  | cons b later =>
    obtain ⟨ending, rest, hending⟩ := exists_endingAt (h.atBreak b (by rw [hremainder]; rfl)) later
    rw [hremainder] at h
    have hpast : ¬ PastEnd (text.drop lineStart) target := by
      intro hpast
      have hlength := hpast.2
      rw [h.normal hending, length_append, length_append] at hlength
      simp only [length_cons, length_nil] at hlength
      omega
    unfold boundaryFrom
    rw [if_neg hpast, origin_kept (h.atomsOf hending) htarget]

theorem boundaryFrom_lone (h : LineAt text lineStart body blanks [CR]) :
    boundaryFrom text lineStart (body.length + 1) = .error .outOfRange := by
  have hending : EndingAt [CR] [CR] [] := ⟨rfl, .inr (.inl rfl), fun _ => by simp⟩
  unfold boundaryFrom
  rw [if_pos]
  constructor
  · rw [h.split, ← append_assoc, getLast?_concat]
  · rw [h.normal hending, length_append, length_append]
    rfl

theorem boundaryFrom_next (h : LineAt text lineStart body blanks remainder)
    (hending : EndingAt remainder ending rest) (hlone : remainder ≠ [CR]) (target : Nat) :
    boundaryFrom text lineStart (body.length + 1 + target) =
      boundaryFrom text (lineStart + body.length + blanks.length + ending.length) target := by
  have hlast : (text.drop lineStart).getLast? = some CR ↔ rest.getLast? = some CR := by
    rw [h.split, ← append_assoc, hending.split, ← append_assoc]
    cases hrest : rest with
    | nil =>
      rw [hending.split, hrest, append_nil] at hlone
      rw [append_nil]
      rcases hending.isEnding with rfl | rfl | rfl
      · rw [getLast?_concat]
        decide
      · exact absurd rfl hlone
      · have hsplit : body ++ blanks ++ [CR, LF] = (body ++ blanks ++ [CR]) ++ [LF] := by simp
        rw [hsplit, getLast?_concat]
        decide
    | cons b later => rw [getLast?_append_of_ne_nil _ (cons_ne_nil _ _)]
  have hpast : PastEnd (text.drop lineStart) (body.length + 1 + target) ↔ PastEnd rest target := by
    unfold PastEnd
    rw [hlast, h.normal hending, length_append, length_append]
    have hone : ([LF] : Bytes).length = 1 := rfl
    constructor
    · rintro ⟨hcr, hlength⟩
      exact ⟨hcr, by omega⟩
    · rintro ⟨hcr, hlength⟩
      exact ⟨hcr, by omega⟩
  unfold boundaryFrom
  rw [(h.next hending).1]
  by_cases hrest : PastEnd rest target
  · rw [if_pos hrest, if_pos (hpast.mpr hrest)]
  · rw [if_neg hrest, if_neg fun h' => hrest (hpast.mp h'), h.origin hending]
    congr 2
    omega

theorem boundaryFrom_zero (text : Bytes) (lineStart : Nat) :
    boundaryFrom text lineStart 0 = .ok (lineStart, true) := by
  unfold boundaryFrom
  rw [if_neg]
  · rfl
  · intro hpast
    exact normal_ne_nil hpast.1 (length_eq_zero_iff.mp hpast.2.symm)

theorem boundaryInLine_round {s : Nat × Nat}
    (hs : s.1 ≤ text.length ∧ s.2 ≤ target ∧ target - s.2 ≤ (normal (text.drop s.1)).length) :
    Round (fun s : Nat × Nat => s.1 ≤ text.length ∧ s.2 ≤ target ∧
        target - s.2 ≤ (normal (text.drop s.1)).length)
      (fun s => text.length - s.1) (fun s => boundaryFrom text s.1 (target - s.2)) s
      (boundaryInLine text target s) := by
  obtain ⟨hstart, hoffset, htarget⟩ := hs
  unfold boundaryInLine
  split
  · next hlt =>
    obtain ⟨body, blanks, remainder, hline⟩ := exists_lineAt hstart
    have hlength := hline.length
    have hcontent : s.1 + body.length - s.1 = body.length := by omega
    rw [lineEndFrom_eq hline, bind_ok, contentEndFrom_eq hline, bind_ok]
    simp only [hcontent]
    split
    · next hkept =>
      apply Round.result
      rw [boundaryFrom_kept hline (by omega)]
      congr 2
      omega
    · next hkept =>
      cases hremainder : remainder with
      | nil =>
        rw [hremainder] at hline
        rw [hline.normal_last] at htarget
        omega
      | cons b later =>
        obtain ⟨ending, rest, hending⟩ := exists_endingAt
          (hline.atBreak b (by rw [hremainder]; rfl)) later
        rw [hremainder] at hline hlength
        obtain ⟨hrest, hforward, hbound⟩ := hline.next hending
        have htotal := hline.normal hending
        rw [htotal, length_append, length_append] at htarget
        have hone : ([LF] : Bytes).length = 1 := rfl
        rw [if_neg (by rw [hlength, length_cons]; omega), uncheckedNewlineEndOf_eq hline hending]
        by_cases hlone : b :: later = [CR]
        · -- nothing follows the carriage return
          rw [if_pos hlone]
          apply Round.fault
          rw [hlone] at hline
          have hnil : rest = [] := by
            have hsize := congrArg List.length hending.split
            have hpos := hending.isEnding.length_pos
            rw [hlone, length_append, length_singleton] at hsize
            exact eq_nil_of_length_eq_zero (by omega)
          rw [hnil] at htarget
          have hend : target - s.2 = body.length + 1 := by
            change _ ≤ _ + 0 at htarget
            omega
          rw [hend]
          exact boundaryFrom_lone hline
        · rw [if_neg hlone, bind_ok]
          have hsplit : target - s.2 = body.length + 1 + (target - (s.2 + body.length + 1)) := by omega
          have hnext := boundaryFrom_next hline hending hlone (target - (s.2 + body.length + 1))
          rw [← hsplit] at hnext
          split
          · next hhere =>
            apply Round.result
            rw [hnext]
            have hzero : target - (s.2 + body.length + 1) = 0 := by omega
            rw [hzero, boundaryFrom_zero]
          · next hpast =>
            refine Round.next _ ⟨hbound, by omega, ?_⟩ ?_ hnext.symm
            · rw [hrest]
              omega
            · show text.length - _ < text.length - s.1
              omega
  · next hge =>
    have hdrop : text.drop s.1 = [] := drop_eq_nil_of_le (by omega)
    rw [hdrop] at htarget
    have hzero : target - s.2 = 0 := Nat.le_zero.mp htarget
    apply Round.result
    unfold boundaryFrom
    rw [hdrop, hzero, if_neg (fun h => by cases h.1)]
    have hfound : (decide (target = s.2)) = true := decide_eq_true (by omega)
    rw [hfound]
    show Except.ok (s.1 + 0, true) = _
    congr 2
    omega

theorem originalOffset_eq (h : target ≤ (normal text).length) :
    originalOffsetForNormalizedBoundary text target =
      if PastEnd text target then .error .outOfRange else .ok (origin text target, true) := by
  have hfrom : originalOffsetForNormalizedBoundary text target = boundaryFrom text 0 target := by
    unfold originalOffsetForNormalizedBoundary
    split
    · next hempty =>
      rw [eq_nil_of_length_eq_zero hempty] at h ⊢
      have hzero : target = 0 := Nat.le_zero.mp h
      rw [hzero, boundaryFrom_zero]
      rfl
    · apply loop_eq _ _ (fun s : Nat × Nat => boundaryFrom text s.1 (target - s.2))
        (fun s hs => boundaryInLine_round hs) (s := (0, 0))
      · exact ⟨Nat.zero_le _, Nat.zero_le _, h⟩
      · show text.length - 0 < _
        omega
  rw [hfrom]
  unfold boundaryFrom
  rw [drop_zero, Nat.zero_add]

theorem origin_mono (text : Bytes) {s t : Nat} (h : s ≤ t) : origin text s ≤ origin text t := by
  unfold origin
  obtain ⟨later, hlater⟩ := take_prefix_take_left (l := (atomsOf text).atoms) h
  rw [← hlater, sourceOf_append, length_append]
  exact Nat.le_add_right _ _

theorem origin_le (text : Bytes) (target : Nat) : origin text target ≤ text.length := by
  have hsource := congrArg List.length (sourceOf_atomsOf text)
  have hsplit := congrArg (fun atoms => (sourceOf atoms).length)
    (take_append_drop target (atomsOf text).atoms)
  simp only [sourceOf_append, length_append] at hsource hsplit
  unfold origin
  omega

end Cohub.Edit
