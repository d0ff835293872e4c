import Cohub.Edit.Normal

/-! # When editing a file panics

    What the functions of `edit.go` compute, in terms of occurrences and the
    normal form, and where they read out of range: `findEditMatches` does where
    the content ends in a carriage return and a match of the normal form ends
    with it (`ReadsPastEnd`), the others never.  So `applyFSEdits` has a result
    unless one of the edits it comes to is such a match (`applyFSEdits_total`). -/

namespace Cohub.Edit

open Checked Substring List

/-! ## Occurrences -/

/-- The search result for the places that a whole search finds. -/
def firstOf (places : List Nat) : EditOccurrenceSearch :=
  { positions := places.take maxEditMatches, truncated := maxEditMatches ≤ places.length }

variable {places : List Nat} {text pattern content oldText : Bytes}

theorem firstOf_of_lt (h : places.length < maxEditMatches) :
    firstOf places = { positions := places, truncated := false } := by
  unfold firstOf
  rw [take_of_length_le (le_of_lt h), decide_eq_false (Nat.not_le.mpr h)]

theorem firstOf_nil : (firstOf []).positions.length = 0 := rfl

theorem firstOf_of_eq (h : places.length = maxEditMatches) (later : List Nat) :
    firstOf (places ++ later) = { positions := places, truncated := true } := by
  unfold firstOf
  rw [← h, take_left, decide_eq_true (by rw [length_append]; omega)]

theorem nextOccurrence_round (hne : pattern ≠ []) {s : Nat × List Nat}
    (hs : s.1 ≤ text.length ∧ s.2.length < maxEditMatches) :
    Round (fun s : Nat × List Nat => s.1 ≤ text.length ∧ s.2.length < maxEditMatches)
      (fun s => text.length - s.1)
      (fun s => .ok (firstOf (s.2 ++ scanFrom pattern 0 s.1 (text.drop s.1)))) s
      (nextOccurrence text pattern s) := by
  have hpos := length_pos_iff.mpr hne
  have hscan := scanFrom_find? hne s.1 (text.drop s.1)
  unfold nextOccurrence
  split
  · next hroom =>
    rw [slice_of_le (by omega) le_rfl, take_length, bind_ok]
    cases hfind : find? pattern (text.drop s.1) with
    | none =>
      simp only
      apply Round.result
      rw [hscan, hfind, Option.elim_none, append_nil, firstOf_of_lt hs.2]
    | some relative =>
      have hoccurs := (find?_some hfind).1
      rw [occursAt_drop] at hoccurs
      have hbound := occursAt_length hoccurs hne
      rw [hfind, Option.elim_some, drop_drop, ← Nat.add_assoc] at hscan
      have hlength : (s.2 ++ [s.1 + relative]).length = s.2.length + 1 := length_append
      simp only
      split
      · next hfull =>
        apply Round.result
        rw [hscan, append_cons, firstOf_of_eq (by omega)]
      · next hmore =>
        refine Round.next _ ⟨hbound, Nat.lt_of_not_le hmore⟩ ?_ ?_
        · show text.length - _ < text.length - s.1
          omega
        · rw [hscan]
          simp only [append_assoc, singleton_append]
  · next hroom =>
    apply Round.result
    rw [(scanFrom_eq_nil hne).mpr, append_nil, firstOf_of_lt hs.2]
    intro q hoccurs
    rw [occursAt_drop] at hoccurs
    have hbound := occursAt_length hoccurs hne
    omega

theorem findEditOccurrences_eq (hne : pattern ≠ []) :
    findEditOccurrences text pattern = .ok (firstOf (scan pattern text)) := by
  unfold findEditOccurrences
  rw [if_neg hne]
  have hloop : loop (nextOccurrence text pattern) (text.length + 1) (0, []) =
      .ok (firstOf ([] ++ scanFrom pattern 0 0 (text.drop 0))) := by
    apply loop_eq (fun s : Nat × List Nat => s.1 ≤ text.length ∧ s.2.length < maxEditMatches)
      (fun s => text.length - s.1)
      (fun s => .ok (firstOf (s.2 ++ scanFrom pattern 0 s.1 (text.drop s.1))))
      (fun s hs => nextOccurrence_round hne hs) (s := (0, []))
    · exact ⟨Nat.zero_le _, by decide⟩
    · show text.length - 0 < _
      omega
  exact hloop

/-! ## Matches -/

/-- The match of a place of the normal form. -/
def fuzzyMatch (content : Bytes) (length start : Nat) : EditMatch :=
  { start := origin content start, stop := origin content (start + length), fuzzy := true }

/-- The match of a place of the text. -/
def exactMatch (length start : Nat) : EditMatch :=
  { start := start, stop := start + length, fuzzy := false }

/-- What `findEditMatches` finds. -/
def matchesOf (content oldText : Bytes) : EditMatchSearch :=
  if scan oldText content ≠ [] then
    { found := (firstOf (scan oldText content)).positions.map (exactMatch oldText.length)
      truncated := (firstOf (scan oldText content)).truncated }
  else if normal oldText = [] then { found := [], truncated := false }
  else
    { found := (firstOf (scan (normal oldText) (normal content))).positions.map
        (fuzzyMatch content (normal oldText).length)
      truncated := (firstOf (scan (normal oldText) (normal content))).truncated }

/-- The text is not in the content as it is, but its normal form is found at the
    end of the content's, and the content ends in a carriage return. -/
def ReadsPastEnd (content oldText : Bytes) : Prop :=
  scan oldText content = [] ∧ normal oldText ≠ [] ∧ content.getLast? = some CR ∧
    ∃ start ∈ (scan (normal oldText) (normal content)).take maxEditMatches,
      start + (normal oldText).length = (normal content).length

variable {length : Nat}

theorem fuzzyMatches_fault (hplaces : ∀ start ∈ places, start + length ≤ (normal content).length)
    (hpast : ∃ start ∈ places, PastEnd content (start + length)) (hlength : 0 < length) :
    fuzzyMatches content length places = .error .outOfRange := by
  induction places with
  | nil =>
    obtain ⟨start, hstart, -⟩ := hpast
    exact absurd hstart not_mem_nil
  | cons first rest ih =>
    have hfirst := hplaces first mem_cons_self
    -- a match starts before the end
    have hbefore : ¬ PastEnd content first := by
      intro h
      have hend := h.2
      omega
    unfold fuzzyMatches
    rw [originalOffset_eq (by omega), if_neg hbefore, bind_ok, originalOffset_eq hfirst]
    split
    · rfl
    · next hnot =>
      have hrest : ∃ start ∈ rest, PastEnd content (start + length) := by
        obtain ⟨start, hstart, hpast⟩ := hpast
        rcases mem_cons.mp hstart with rfl | hstart
        · exact absurd hpast hnot
        · exact ⟨start, hstart, hpast⟩
      rw [bind_ok, ih (fun start hstart => hplaces start (mem_cons_of_mem _ hstart)) hrest]
      rfl

theorem fuzzyMatches_eq (hplaces : ∀ start ∈ places, start + length ≤ (normal content).length)
    (hwithin : ∀ start ∈ places, ¬ PastEnd content (start + length)) (hlength : 0 < length) :
    fuzzyMatches content length places = .ok (places.map (fuzzyMatch content length)) := by
  induction places with
  | nil => rfl
  | cons first rest ih =>
    have hfirst := hplaces first mem_cons_self
    have hbefore : ¬ PastEnd content first := by
      intro h
      have hend := h.2
      omega
    unfold fuzzyMatches
    rw [originalOffset_eq (by omega), if_neg hbefore, bind_ok, originalOffset_eq hfirst,
      if_neg (hwithin first mem_cons_self), bind_ok,
      ih (fun start hstart => hplaces start (mem_cons_of_mem _ hstart))
        (fun start hstart => hwithin start (mem_cons_of_mem _ hstart)), bind_ok]
    rfl

theorem found_le (hne : pattern ≠ []) :
    ∀ start ∈ (firstOf (scan pattern text)).positions, start + pattern.length ≤ text.length := by
  intro start hstart
  exact occursAt_length (occursAt_of_mem_scan (mem_of_mem_take hstart)) hne

theorem firstOf_positions_eq_nil : (firstOf places).positions = [] ↔ places = [] := by
  unfold firstOf
  rw [take_eq_nil_iff]
  constructor
  · rintro (h | h)
    · exact absurd h (by decide)
    · exact h
  · exact .inr

theorem findEditMatches_fuzzy (hne : oldText ≠ [])
    (hexact : scan oldText content = []) (hnormal : normal oldText ≠ []) :
    findEditMatches content oldText =
      (fuzzyMatches content (normal oldText).length
        (firstOf (scan (normal oldText) (normal content))).positions).bind fun found =>
          .ok { found := found
                truncated := (firstOf (scan (normal oldText) (normal content))).truncated } := by
  unfold findEditMatches
  rw [findEditOccurrences_eq hne, bind_ok, hexact, firstOf_nil, if_neg (lt_irrefl 0), normalizeEditText_eq,
    bind_ok, normalizeEditText_eq, bind_ok, if_neg hnormal, findEditOccurrences_eq hnormal, bind_ok]
  rfl

theorem findEditMatches_fault (hne : oldText ≠ [])
    (h : ReadsPastEnd content oldText) : findEditMatches content oldText = .error .outOfRange := by
  obtain ⟨hexact, hnormal, hcr, start, hstart, hend⟩ := h
  rw [findEditMatches_fuzzy hne hexact hnormal, fuzzyMatches_fault (found_le hnormal)
    ⟨start, hstart, hcr, hend⟩ (length_pos_iff.mpr hnormal)]
  rfl

theorem findEditMatches_eq (hne : oldText ≠ []) (h : ¬ ReadsPastEnd content oldText) :
    findEditMatches content oldText = .ok (matchesOf content oldText) := by
  unfold matchesOf
  by_cases hexact : scan oldText content = []
  · rw [if_neg (not_not_intro hexact)]
    by_cases hnormal : normal oldText = []
    · unfold findEditMatches
      rw [findEditOccurrences_eq hne, bind_ok, hexact, firstOf_nil, if_neg (lt_irrefl 0),
        normalizeEditText_eq, bind_ok, normalizeEditText_eq, bind_ok, if_pos hnormal, if_pos hnormal]
    · have hwithin : ∀ start ∈ (firstOf (scan (normal oldText) (normal content))).positions,
          ¬ PastEnd content (start + (normal oldText).length) :=
        fun start hstart hpast => h ⟨hexact, hnormal, hpast.1, start, hstart, hpast.2⟩
      rw [findEditMatches_fuzzy hne hexact hnormal, fuzzyMatches_eq (found_le hnormal) hwithin
        (length_pos_iff.mpr hnormal), if_neg hnormal]
      rfl
  · have hfound : 0 < (firstOf (scan oldText content)).positions.length :=
      length_pos_iff.mpr fun hnil => hexact (firstOf_positions_eq_nil.mp hnil)
    unfold findEditMatches
    rw [if_pos hexact, findEditOccurrences_eq hne, bind_ok, if_pos hfound]
    rfl

/-! ## Edits -/

theorem index_of_lt {i : Nat} (h : i < text.length) : ∃ b, index text i = .ok b :=
  ⟨text[i], index_of_getElem? (getElem?_eq_getElem h)⟩

theorem editLineNumber_ok (content : Bytes) (offset : Nat) :
    ∃ line, editLineNumber content offset = .ok line := by
  unfold editLineNumber
  simp only
  set limit := min offset content.length with hlimit
  have hle : limit ≤ content.length := Nat.min_le_right _ _
  apply loop_ok (fun _ => True) (fun s => limit - s.1)
  · intro s _
    split
    · next hlt =>
      obtain ⟨b, hb⟩ := index_of_lt (show s.1 < content.length by omega)
      have hstep : limit - (s.1 + 1) < limit - s.1 := by omega
      rw [hb, bind_ok]
      split
      · split
        · next hmore =>
          obtain ⟨next, hnext⟩ := index_of_lt (show s.1 + 1 < content.length by omega)
          rw [hnext, bind_ok]
          apply Progress.next _ trivial
          show limit - (if next = LF then s.1 + 2 else s.1 + 1) < limit - s.1
          split <;> omega
        · exact Progress.next _ trivial hstep
      · split <;> exact Progress.next _ trivial hstep
    · exact Progress.result _
  · trivial
  · show limit - 0 < _
    omega

theorem editLineEnding_ok (content : Bytes) : ∃ ending, editLineEnding content = .ok ending := by
  unfold editLineEnding
  apply loop_ok (fun _ => True) (fun i => content.length - i)
  · intro i _
    split
    · next hlt =>
      obtain ⟨b, hb⟩ := index_of_lt hlt
      rw [hb, bind_ok]
      split
      · split
        · next hmore =>
          obtain ⟨next, hnext⟩ := index_of_lt hmore
          rw [hnext, bind_ok]
          exact Progress.result _
        · exact Progress.result _
      · split
        · exact Progress.result _
        · apply Progress.next _ trivial
          show content.length - (i + 1) < content.length - i
          omega
    · exact Progress.result _
  · trivial
  · show content.length - 0 < _
    omega

theorem restoreEditLineEndings_ok (text content : Bytes) :
    ∃ restored, restoreEditLineEndings text content = .ok restored := by
  obtain ⟨ending, hending⟩ := editLineEnding_ok content
  unfold restoreEditLineEndings
  simp only
  rw [hending, bind_ok]
  split
  · exact ⟨_, rfl⟩
  · exact ⟨_, rfl⟩

theorem matchLines_ok (content : Bytes) (found : List EditMatch) :
    ∃ lines, matchLines content found = .ok lines := by
  induction found with
  | nil => exact ⟨[], rfl⟩
  | cons m rest ih =>
    obtain ⟨line, hline⟩ := editLineNumber_ok content m.start
    obtain ⟨later, hlater⟩ := ih
    unfold matchLines
    rw [hline, bind_ok, hlater]
    exact ⟨_, rfl⟩

/-- The text of an edit is found at one place. -/
def FoundOnce (content oldText : Bytes) : Prop :=
  (scan oldText content).length = 1 ∨
    scan oldText content = [] ∧ normal oldText ≠ [] ∧
      (scan (normal oldText) (normal content)).length = 1

theorem length_firstOf : (firstOf places).positions.length = 1 ↔ places.length = 1 := by
  unfold firstOf maxEditMatches
  rw [length_take]
  omega

theorem foundOnce_iff :
    FoundOnce content oldText ↔ ∃ m, (matchesOf content oldText).found = [m] := by
  rw [← length_eq_one_iff]
  unfold FoundOnce matchesOf
  by_cases hexact : scan oldText content = []
  · rw [if_neg (not_not_intro hexact), hexact]
    by_cases hnormal : normal oldText = []
    · simp [hnormal]
    · rw [if_neg hnormal, length_map, length_firstOf]
      simp [hnormal]
  · rw [if_pos hexact, length_map, length_firstOf]
    simp [hexact]

theorem replacementText_ok (content newText : Bytes) (m : EditMatch) :
    ∃ text, replacementText content newText m = .ok text := by
  unfold replacementText
  split
  · exact restoreEditLineEndings_ok newText content
  · exact ⟨newText, rfl⟩

/-- The edits come to one whose search reads past the end: all before it are
    found once. -/
def ReachesPastEnd (content : Bytes) : List FsEditItem → Prop
  | [] => False
  | edit :: rest =>
      withoutBom edit.oldText ≠ [] ∧ withoutBom edit.oldText ≠ edit.newText ∧
        (ReadsPastEnd content (withoutBom edit.oldText) ∨
          FoundOnce content (withoutBom edit.oldText) ∧ ReachesPastEnd content rest)

def replacementOf (index : Nat) (m : EditMatch) (newText : Bytes) : EditReplacement :=
  { index := index, start := m.start, stop := m.stop, newText := newText }

section

variable {content : Bytes} {index : Nat} {edit : FsEditItem} {rest : List FsEditItem}

theorem collectReplacements_fault (hne : withoutBom edit.oldText ≠ [])
    (hdiffer : withoutBom edit.oldText ≠ edit.newText) {fault : Fault}
    (h : findEditMatches content (withoutBom edit.oldText) = .error fault) :
    collectReplacements content index (edit :: rest) = .error fault := by
  rw [collectReplacements]
  rw [if_neg hne, if_neg hdiffer, h, bind_error]

variable {search : EditMatchSearch}

theorem collectReplacements_once (hne : withoutBom edit.oldText ≠ [])
    (hdiffer : withoutBom edit.oldText ≠ edit.newText)
    (h : findEditMatches content (withoutBom edit.oldText) = .ok search) {m : EditMatch}
    (hm : search.found = [m]) {newText : Bytes}
    (htext : replacementText content edit.newText m = .ok newText) :
    collectReplacements content index (edit :: rest) =
      (collectReplacements content (index + 1) rest).map fun later =>
        later.map fun replacements => replacementOf index m newText :: replacements := by
  rw [collectReplacements]
  rw [if_neg hne, if_neg hdiffer, h, bind_ok, hm]
  simp only
  rw [htext, bind_ok]
  cases collectReplacements content (index + 1) rest <;> rfl

theorem collectReplacements_refused (index : Nat) (rest : List FsEditItem) (hne : withoutBom edit.oldText ≠ [])
    (hdiffer : withoutBom edit.oldText ≠ edit.newText)
    (h : findEditMatches content (withoutBom edit.oldText) = .ok search)
    (hm : ∀ m, search.found ≠ [m]) :
    ∃ e, collectReplacements content index (edit :: rest) = .ok (.error e) := by
  obtain ⟨lines, hlines⟩ := matchLines_ok content search.found
  rw [collectReplacements]
  rw [if_neg hne, if_neg hdiffer, h, bind_ok]
  split
  · next m hfound => exact absurd hfound (hm m)
  · rw [hlines, bind_ok]
    exact ⟨_, rfl⟩

end

variable {edits : List FsEditItem} {replacements : List EditReplacement}

theorem collectReplacements_past (index : Nat) (h : ReachesPastEnd content edits) :
    collectReplacements content index edits = .error .outOfRange := by
  induction edits generalizing index with
  | nil => exact absurd h id
  | cons edit rest ih =>
    obtain ⟨hne, hdiffer, hreads⟩ := h
    by_cases hhere : ReadsPastEnd content (withoutBom edit.oldText)
    · exact collectReplacements_fault hne hdiffer (findEditMatches_fault hne hhere)
    · obtain ⟨honce, hlater⟩ := hreads.resolve_left hhere
      obtain ⟨m, hm⟩ := foundOnce_iff.mp honce
      obtain ⟨newText, htext⟩ := replacementText_ok content edit.newText m
      rw [collectReplacements_once hne hdiffer (findEditMatches_eq hne hhere) hm htext, ih _ hlater]
      rfl

theorem collectReplacements_ok (index : Nat) (h : ¬ ReachesPastEnd content edits) :
    ∃ collected, collectReplacements content index edits = .ok collected := by
  induction edits generalizing index with
  | nil => exact ⟨_, rfl⟩
  | cons edit rest ih =>
    by_cases hne : withoutBom edit.oldText = []
    · rw [collectReplacements]
      rw [if_pos hne]
      exact ⟨_, rfl⟩
    · by_cases hdiffer : withoutBom edit.oldText = edit.newText
      · rw [collectReplacements]
        rw [if_neg hne, if_pos hdiffer]
        exact ⟨_, rfl⟩
      · have hhere : ¬ ReadsPastEnd content (withoutBom edit.oldText) :=
          fun hreads => h ⟨hne, hdiffer, .inl hreads⟩
        have hfind := findEditMatches_eq hne hhere
        by_cases honce : FoundOnce content (withoutBom edit.oldText)
        · obtain ⟨m, hm⟩ := foundOnce_iff.mp honce
          obtain ⟨newText, htext⟩ := replacementText_ok content edit.newText m
          obtain ⟨later, hlater⟩ := ih (index + 1)
            fun hrest => h ⟨hne, hdiffer, .inr ⟨honce, hrest⟩⟩
          rw [collectReplacements_once hne hdiffer hfind hm htext, hlater]
          exact ⟨_, rfl⟩
        · obtain ⟨e, he⟩ := collectReplacements_refused index rest hne hdiffer
            hfind fun m hm => honce (foundOnce_iff.mpr ⟨m, hm⟩)
          exact ⟨_, he⟩

theorem match_le (hne : oldText ≠ []) :
    ∀ m ∈ (matchesOf content oldText).found, m.start ≤ m.stop ∧ m.stop ≤ content.length := by
  intro m hm
  unfold matchesOf at hm
  split at hm
  · obtain ⟨start, hstart, rfl⟩ := mem_map.mp hm
    exact ⟨Nat.le_add_right _ _, found_le hne start hstart⟩
  · split at hm
    · exact absurd hm not_mem_nil
    · obtain ⟨start, hstart, rfl⟩ := mem_map.mp hm
      exact ⟨origin_mono content (Nat.le_add_right _ _), origin_le content _⟩

/-- An edit and its replacement: the text is found once, in bounds. -/
structure Collected (content : Bytes) (edit : FsEditItem) (m : EditMatch) (r : EditReplacement) :
    Prop where
  nonempty : withoutBom edit.oldText ≠ []
  differ : withoutBom edit.oldText ≠ edit.newText
  within : ¬ ReadsPastEnd content (withoutBom edit.oldText)
  once : (matchesOf content (withoutBom edit.oldText)).found = [m]
  text : replacementText content edit.newText m = .ok r.newText
  place : r = replacementOf r.index m r.newText

theorem collectReplacements_inv {index : Nat}
    (h : collectReplacements content index edits = .ok (.ok replacements)) :
    List.Forall₂ (fun edit r => ∃ m, Collected content edit m r) edits replacements := by
  induction edits generalizing index replacements with
  | nil =>
    cases h
    exact List.Forall₂.nil
  | cons edit rest ih =>
    by_cases hne : withoutBom edit.oldText = []
    · rw [collectReplacements, if_pos hne] at h
      cases h
    · by_cases hdiffer : withoutBom edit.oldText = edit.newText
      · rw [collectReplacements, if_neg hne, if_pos hdiffer] at h
        cases h
      · by_cases hhere : ReadsPastEnd content (withoutBom edit.oldText)
        · rw [collectReplacements_fault hne hdiffer (findEditMatches_fault hne hhere)] at h
          cases h
        · have hfind := findEditMatches_eq hne hhere
          by_cases honce : FoundOnce content (withoutBom edit.oldText)
          · obtain ⟨m, hm⟩ := foundOnce_iff.mp honce
            obtain ⟨newText, htext⟩ := replacementText_ok content edit.newText m
            rw [collectReplacements_once hne hdiffer hfind hm htext] at h
            -- the later edits were collected too
            cases hlater : collectReplacements content (index + 1) rest with
            | error fault =>
              rw [hlater] at h
              cases h
            | ok later =>
              cases later with
              | error e =>
                rw [hlater] at h
                cases h
              | ok later =>
                rw [hlater] at h
                cases h
                exact List.Forall₂.cons ⟨m, hne, hdiffer, hhere, hm, htext, rfl⟩ (ih hlater)
          · obtain ⟨e, he⟩ := collectReplacements_refused index rest hne hdiffer hfind
              fun m hm => honce (foundOnce_iff.mpr ⟨m, hm⟩)
            rw [he] at h
            cases h

theorem Collected.le {edit : FsEditItem} {m : EditMatch} {r : EditReplacement}
    (h : Collected content edit m r) : r.start ≤ r.stop ∧ r.stop ≤ content.length := by
  have hmem : m ∈ (matchesOf content (withoutBom edit.oldText)).found := by
    rw [h.once]
    exact mem_cons_self
  rw [h.place]
  exact match_le h.nonempty m hmem

theorem exists_collected
    (h : List.Forall₂ (fun edit r => ∃ m, Collected content edit m r) edits replacements) :
    ∀ r ∈ replacements, ∃ edit ∈ edits, ∃ m, Collected content edit m r := by
  induction h with
  | nil => exact fun _ hr => absurd hr not_mem_nil
  | cons hfirst _ ih =>
    intro r hr
    rcases mem_cons.mp hr with rfl | hr
    · exact ⟨_, mem_cons_self, hfirst⟩
    · obtain ⟨edit, hedit, hcollected⟩ := ih r hr
      exact ⟨edit, mem_cons_of_mem _ hedit, hcollected⟩

/-- A replacement without its index. -/
def EditReplacement.toReplacement (r : EditReplacement) : Replacement UInt8 :=
  { start := r.start, stop := r.stop, newText := r.newText }

variable {p : Nat}

theorem apart_of_firstOverlap (hle : ∀ r ∈ replacements, r.start ≤ r.stop ∧ r.stop ≤ content.length)
    (h : firstOverlap replacements = none)
    (hp : ∀ r, replacements.head? = some r → p ≤ r.start) (hlength : p ≤ content.length) :
    Apart content p (replacements.map EditReplacement.toReplacement) := by
  induction replacements generalizing p with
  | nil => exact hlength
  | cons previous rest ih =>
    obtain ⟨hstart, hstop⟩ := hle previous mem_cons_self
    refine ⟨hp previous rfl, hstart, ?_⟩
    have hrest : ∀ r ∈ rest, r.start ≤ r.stop ∧ r.stop ≤ content.length :=
      fun r hr => hle r (mem_cons_of_mem _ hr)
    cases rest with
    | nil => exact hstop
    | cons current later =>
      rw [firstOverlap] at h
      split at h
      · cases h
      · next hapart =>
        apply ih hrest h _ hstop
        intro r hr
        cases hr
        exact Nat.le_of_not_lt hapart

theorem replaceBackward_eq (h : Apart content p (replacements.map EditReplacement.toReplacement)) :
    replaceBackward content replacements =
      .ok ((replacements.map EditReplacement.toReplacement).foldr replaceOne content) := by
  induction replacements generalizing p with
  | nil => rfl
  | cons r rest ih =>
    obtain ⟨hp, hstart, hrest⟩ := h
    have hlength := length_foldr_replaceOne hrest
    have hstop : r.stop ≤ ((rest.map EditReplacement.toReplacement).foldr replaceOne content).length :=
      hlength
    have hstart : r.start ≤ r.stop := hstart
    unfold replaceBackward
    rw [ih hrest, bind_ok, slice_of_le (Nat.zero_le _) (by omega), bind_ok,
      slice_of_le hstop le_rfl, bind_ok, take_length]
    rfl

theorem applyFSEdits_collected (hne : edits ≠ [])
    {collected : Except EditError (List EditReplacement)}
    (h : collectReplacements (withoutBom content) 0 edits = .ok collected) :
    ∃ result, applyFSEdits content edits = .ok result := by
  unfold applyFSEdits
  rw [if_neg (fun hlength => hne (length_eq_zero_iff.mp hlength))]
  simp only
  rw [h, bind_ok]
  cases collected with
  | error e => exact ⟨_, rfl⟩
  | ok replacements =>
    simp only
    cases hoverlap : firstOverlap (sortByStart replacements) with
    | some pair => exact ⟨_, rfl⟩
    | none =>
      simp only
      have hle : ∀ r ∈ sortByStart replacements,
          r.start ≤ r.stop ∧ r.stop ≤ (withoutBom content).length := by
        intro r hr
        have hmem : r ∈ replacements := (perm_insertionSort _ replacements).mem_iff.mp hr
        obtain ⟨edit, -, m, hcollected⟩ := exists_collected (collectReplacements_inv h) r hmem
        exact hcollected.le
      have hapart := apart_of_firstOverlap hle hoverlap (p := 0) (fun _ _ => Nat.zero_le _)
        (Nat.zero_le _)
      rw [replaceBackward_eq hapart]
      exact ⟨_, rfl⟩

/-- `applyFSEdits` has a result, a new content or an error, unless it comes to a
    search that reads past the end of the content. -/
theorem applyFSEdits_total (content : Bytes) (edits : List FsEditItem) :
    (∃ result, applyFSEdits content edits = .ok result) ↔
      ¬ ReachesPastEnd (withoutBom content) edits := by
  by_cases hne : edits = []
  · rw [hne]
    exact ⟨fun _ => id, fun _ => ⟨_, rfl⟩⟩
  · constructor
    · rintro ⟨result, hresult⟩ hpast
      unfold applyFSEdits at hresult
      rw [if_neg (fun hlength => hne (List.length_eq_zero_iff.mp hlength))] at hresult
      simp only at hresult
      rw [collectReplacements_past 0 hpast] at hresult
      cases hresult
    · intro hwithin
      obtain ⟨collected, hcollected⟩ := collectReplacements_ok 0 hwithin
      exact applyFSEdits_collected hne hcollected

/-- An edit of the last line, of a file whose lines end in carriage returns and
    with a blank at its end. -/
theorem applyFSEdits_carriage_return :
    applyFSEdits [0x61, 0x20, 0x0D] [{ oldText := [0x61, 0x0A], newText := [0x62] }] =
      .error .outOfRange := by
  decide +kernel

end Cohub.Edit
