import Cohub.Lib.CodeUnits
import Cohub.Lib.Substring
import Cohub.Native.TranscriptLines

/-! # Searching new bytes for turn boundaries

    A transcript that has grown is only read again if its new bytes hold one of
    the tokens that begin or end a turn.  `crossesBoundary` searches them piece by
    piece; each piece starts a little before the bytes still to be searched, so
    that a token on the edge of two pieces is found. -/

namespace Cohub.Native

open Substring Text List

/-! ## The search -/

def bytesOf (token : String) : Bytes := token.toList.flatMap String.utf8EncodeChar

/-- `token.length`: UTF-16 code units. -/
def unitLength (token : String) : Nat := (codeUnits token).length

def overlapOf (tokens : List String) : Nat := (tokens.map unitLength).foldl max 0

/-- The most bytes the buffer has. -/
def CHUNK_BYTES : Nat := 1024 * 1024

/-- One read: of the bytes asked for, those the file has, and no more than this
    read returns. -/
def readAt (file : Bytes) (most asked start : Nat) : Bytes :=
  (file.drop start).take (min asked most)

/-- Where `indexOf` finds the token, one place after the other. -/
def indicesOf (token : String) (bytes : Bytes) : List Nat :=
  (List.range (bytes.length + 1)).filter fun index => decide (OccursAt (bytesOf token) bytes index)

/-- A token that ends after the bytes already searched. -/
def seen (tokens : List String) (bytes : Bytes) (fresh : Nat) : Bool :=
  tokens.any fun token =>
    (indicesOf token bytes).any fun index => decide (fresh < index + unitLength token)

section

variable (tokens : List String) (file : Bytes)

-- `short n` is the most bytes that the `n`th read returns
variable (short : Nat → Nat)

/-- The loop over the pieces; `chunk` is the length of the buffer. -/
def searchFrom (chunk size : Nat) : Nat → Nat → Nat → Bool
  | 0, _, _ => false
  | fuel + 1, n, position =>
      if position < size then
        let start := position - overlapOf tokens
        let bytes := readAt file (short n) (min chunk (size - start)) start
        let fresh := position - start
        if bytes.length ≤ fresh then false
        else if seen tokens bytes fresh then true
        else searchFrom chunk size fuel (n + 1) (start + bytes.length)
      else false

/-- The search of the bytes from `scanned` to `size`.  Each round gets further, so that
    there are at most as many rounds as new bytes. -/
def crossesBoundary (scanned size : Nat) : Bool :=
  searchFrom tokens file short (min (size - scanned + overlapOf tokens) CHUNK_BYTES) size
    (size - scanned) 0 scanned

end

/-! ## Tokens of plain characters -/

/-- Every character is one byte, and one code unit. -/
def Ascii (token : String) : Prop := ∀ c ∈ token.toList, c.toNat < 128

variable {token : String}

theorem length_bytesOf (h : Ascii token) : (bytesOf token).length = unitLength token := by
  unfold bytesOf unitLength codeUnits
  rw [length_flatMap, length_flatMap]
  congr 1
  apply map_congr_left
  intro c hc
  have hsmall := h c hc
  have hbytes : c.utf8Size = 1 := by
    unfold Char.utf8Size
    rw [if_pos]
    exact Nat.le_of_lt_succ hsmall
  rw [String.length_utf8EncodeChar, hbytes, charUnits, if_pos (by omega)]
  rfl

theorem foldl_max_le (l : List Nat) (start : Nat) :
    start ≤ l.foldl max start ∧ ∀ n ∈ l, n ≤ l.foldl max start := by
  induction l generalizing start with
  | nil => exact ⟨le_rfl, fun n h => absurd h not_mem_nil⟩
  | cons first rest ih =>
    obtain ⟨hstart, hrest⟩ := ih (max start first)
    rw [foldl_cons]
    refine ⟨(le_max_left _ _).trans hstart, fun n hn => ?_⟩
    rcases mem_cons.mp hn with rfl | hn
    · exact (le_max_right _ _).trans hstart
    · exact hrest n hn

variable {tokens : List String} {file : Bytes} {n i : Nat} {files : Nat → Bytes} {sizes : Nat → Nat}

theorem unitLength_le_overlapOf (h : token ∈ tokens) : unitLength token ≤ overlapOf tokens :=
  (foldl_max_le _ 0).2 _ (mem_map_of_mem h)

/-! ## What a search finds -/

/-- An occurrence of a token ends in the file, after `low` and not after `high`. -/
def EndsIn (tokens : List String) (file : Bytes) (low high : Nat) : Prop :=
  ∃ token ∈ tokens, ∃ p, OccursAt (bytesOf token) file p ∧
    p + (bytesOf token).length ≤ file.length ∧
    low < p + (bytesOf token).length ∧ p + (bytesOf token).length ≤ high

variable {low high : Nat} {pattern : Bytes} {short : Nat → Nat}

theorem EndsIn.lt (h : EndsIn tokens file low high) : low < high ∧ low < file.length := by
  obtain ⟨token, -, p, -, hfile, hlow, hhigh⟩ := h
  omega

theorem endsIn_split {middle : Nat} (hlow : low ≤ middle) (hhigh : middle ≤ high) :
    EndsIn tokens file low high ↔
      EndsIn tokens file low middle ∨ EndsIn tokens file middle high := by
  constructor
  · rintro ⟨token, htoken, p, hoccurs, hfile, hl, hh⟩
    by_cases hmiddle : p + (bytesOf token).length ≤ middle
    · exact .inl ⟨token, htoken, p, hoccurs, hfile, hl, hmiddle⟩
    · exact .inr ⟨token, htoken, p, hoccurs, hfile, by omega, hh⟩
  · rintro (⟨token, htoken, p, hoccurs, hfile, hl, hh⟩ | ⟨token, htoken, p, hoccurs, hfile, hl, hh⟩)
    · exact ⟨token, htoken, p, hoccurs, hfile, hl, by omega⟩
    · exact ⟨token, htoken, p, hoccurs, hfile, by omega, hh⟩

theorem occursAt_piece {start : Nat} (hi : i ≤ n) (hn : n ≤ file.length - start) :
    OccursAt pattern ((file.drop start).take n) i ↔
      OccursAt pattern file (start + i) ∧ i + pattern.length ≤ n := by
  unfold OccursAt
  rw [drop_take, drop_drop, prefix_take_iff]
  constructor
  · rintro ⟨hoccurs, hlength⟩
    exact ⟨hoccurs, by omega⟩
  · rintro ⟨hoccurs, hlength⟩
    exact ⟨hoccurs, by omega⟩

theorem seen_iff (hascii : ∀ token ∈ tokens, Ascii token)
    {position : Nat} (hn : n ≤ file.length - (position - overlapOf tokens)) :
    seen tokens ((file.drop (position - overlapOf tokens)).take n)
        (position - (position - overlapOf tokens)) = true ↔
      EndsIn tokens file position (position - overlapOf tokens + n) := by
  have hlength : ((file.drop (position - overlapOf tokens)).take n).length = n := by
    rw [length_take, length_drop]
    omega
  simp only [seen, indicesOf, any_eq_true, mem_filter, mem_range,
    decide_eq_true_eq, hlength]
  constructor
  · rintro ⟨token, htoken, i, ⟨hi, hoccurs⟩, hfresh⟩
    obtain ⟨hfile, hend⟩ := (occursAt_piece (by omega) hn).mp hoccurs
    have hunits := length_bytesOf (hascii token htoken)
    refine ⟨token, htoken, _, hfile, ?_, ?_, ?_⟩ <;> omega
  · rintro ⟨token, htoken, p, hoccurs, hfile, hlow, hhigh⟩
    have hunits := length_bytesOf (hascii token htoken)
    have hoverlap := unitLength_le_overlapOf htoken
    -- the token is no longer than the overlap, so it starts in the piece
    obtain ⟨i, rfl⟩ : ∃ i, p = position - overlapOf tokens + i :=
      ⟨p - (position - overlapOf tokens), by omega⟩
    refine ⟨token, htoken, i, ⟨by omega, (occursAt_piece (by omega) hn).mpr ⟨hoccurs, ?_⟩⟩, ?_⟩ <;>
      omega

theorem searchFrom_iff (hascii : ∀ token ∈ tokens, Ascii token) (file : Bytes)
    (hshort : ∀ n, overlapOf tokens < short n) {chunk : Nat} (hchunk : overlapOf tokens < chunk)
    (size fuel n position : Nat) (hfuel : size - position ≤ fuel) :
    searchFrom tokens file short chunk size fuel n position = true ↔
      EndsIn tokens file position size := by
  induction fuel generalizing n position with
  | zero =>
    have hnone : ¬ EndsIn tokens file position size := fun h => by
      have hlt := h.lt
      omega
    exact iff_of_false (by simp [searchFrom]) hnone
  | succ fuel ih =>
    unfold searchFrom
    split
    · next hposition =>
      have hread := hshort n
      have hlength : (readAt file (short n) (min chunk (size - (position - overlapOf tokens)))
          (position - overlapOf tokens)).length =
            min (min (min chunk (size - (position - overlapOf tokens))) (short n))
              (file.length - (position - overlapOf tokens)) := by
        rw [readAt, length_take, length_drop]
      dsimp only
      split
      · next hend =>
        -- nothing is read beyond what was searched: the file ends there
        have hnone : ¬ EndsIn tokens file position size := fun h => by
          have hlt := h.lt
          omega
        exact iff_of_false (by simp) hnone
      · next hnew =>
        obtain ⟨got, hgot⟩ : ∃ got, got = (readAt file (short n)
          (min chunk (size - (position - overlapOf tokens)))
            (position - overlapOf tokens)).length := ⟨_, rfl⟩
        have hbytes : readAt file (short n) (min chunk (size - (position - overlapOf tokens)))
            (position - overlapOf tokens) = (file.drop (position - overlapOf tokens)).take got := by
          rw [hgot, hlength, readAt, take_eq_take_iff, length_drop]
          omega
        rw [← hgot]
        rw [← hgot] at hlength hnew
        rw [hbytes]
        have hseen : seen tokens ((file.drop (position - overlapOf tokens)).take got)
            (position - (position - overlapOf tokens)) = true ↔
              EndsIn tokens file position (position - overlapOf tokens + got) :=
          seen_iff hascii (by omega)
        have hnext := ih (n + 1) (position - overlapOf tokens + got) (by omega)
        have hsplit : EndsIn tokens file position size ↔
            EndsIn tokens file position (position - overlapOf tokens + got) ∨
              EndsIn tokens file (position - overlapOf tokens + got) size :=
          endsIn_split (by omega) (by omega)
        rw [hsplit]
        split
        · next hfound => exact iff_of_true rfl (.inl (hseen.mp hfound))
        · next hfound =>
          rw [hnext]
          exact ⟨.inr, fun h => h.resolve_left fun hin => hfound (hseen.mpr hin)⟩
    · next hposition =>
      have hnone : ¬ EndsIn tokens file position size := fun h => by
        have hlt := h.lt
        omega
      exact iff_of_false (by simp) hnone

theorem crossesBoundary_iff (hascii : ∀ token ∈ tokens, Ascii token)
    (hoverlap : overlapOf tokens < CHUNK_BYTES) (file : Bytes)
    (hshort : ∀ n, overlapOf tokens < short n) (scanned size : Nat) :
    crossesBoundary tokens file short scanned size = true ↔ EndsIn tokens file scanned size := by
  by_cases hnew : scanned < size
  · exact searchFrom_iff hascii file hshort (by omega) size _ 0 scanned le_rfl
  · have hzero : size - scanned = 0 := by omega
    have hnone : ¬ EndsIn tokens file scanned size := fun h => hnew (by
      obtain ⟨token, -, p, -, -, hlow, hhigh⟩ := h
      omega)
    refine iff_of_false ?_ hnone
    rw [crossesBoundary, hzero, searchFrom]
    exact Bool.false_ne_true

/-! ## A file that grows -/

/-- A file that grows, and how much of it was there at each search. -/
structure Growing (files : Nat → Bytes) (sizes : Nat → Nat) : Prop where
  grows : ∀ i, files i <+: files (i + 1)
  ordered : ∀ i, sizes i ≤ sizes (i + 1)
  there : ∀ i, sizes (i + 1) ≤ (files i).length

theorem Growing.le (h : Growing files sizes) {j : Nat}
    (hij : i ≤ j) : sizes i ≤ sizes j ∧ files i <+: files j := by
  induction hij with
  | refl => exact ⟨le_rfl, prefix_rfl⟩
  | step _ ih => exact ⟨ih.1.trans (h.ordered _), ih.2.trans (h.grows _)⟩

theorem Growing.existsUnique (h : Growing files sizes) {e : Nat} (hlow : sizes 0 < e) (n : Nat)
    (hhigh : e ≤ sizes n) : ∃! i, sizes i < e ∧ e ≤ sizes (i + 1) := by
  have hexists : ∃ i, sizes i < e ∧ e ≤ sizes (i + 1) := by
    induction n with
    | zero => omega
    | succ n ih =>
      by_cases hle : e ≤ sizes n
      · exact ih hle
      · exact ⟨n, by omega, hhigh⟩
  obtain ⟨i, hi⟩ := hexists
  refine ⟨i, hi, fun j hj => ?_⟩
  rcases lt_trichotomy j i with hlt | heq | hlt
  · have hle : sizes (j + 1) ≤ sizes i := (h.le hlt).1
    omega
  · exact heq
  · have hle : sizes (i + 1) ≤ sizes j := (h.le hlt).1
    omega

theorem Growing.occursAt (h : Growing files sizes)
    {p : Nat} (hoccurs : OccursAt pattern (files n) p)
    (hend : p + pattern.length ≤ sizes (i + 1)) (hn : p + pattern.length ≤ (files n).length) :
    OccursAt pattern (files i) p ∧ p + pattern.length ≤ (files i).length := by
  have hthere := h.there i
  refine ⟨?_, by omega⟩
  rw [occursAt_iff_take] at hoccurs ⊢
  rw [← hoccurs]
  have hsame : ∀ {short long : Bytes}, short <+: long → p + pattern.length ≤ short.length →
      (short.drop p).take pattern.length = (long.drop p).take pattern.length := by
    rintro short long ⟨rest, rfl⟩ hle
    rw [drop_append_of_le_length (by omega), take_append_of_le_length]
    rw [length_drop]
    omega
  rcases le_total i n with hle | hle
  · rw [hoccurs]
    exact (hsame (h.le hle).2 (by omega)).trans hoccurs
  · rw [hoccurs]
    exact (hsame (h.le hle).2 hn).symm.trans hoccurs

/-- Reading in chunks gives what the bytes say up to the last newline.  Where every read
    gets beyond what was searched before, a search answers whether a token ends in its
    range, and of the searches of a growing file exactly one has a token's end in its
    range, and sees it. -/
theorem incremental_reading_is_exact {V D : Type} (parse : Bytes → Option V) (digest : Bytes → D)
    {tokens : List String} (hascii : ∀ token ∈ tokens, Ascii token)
    (hoverlap : overlapOf tokens < CHUNK_BYTES) :
    (∀ (stream : List Bytes) (read : TranscriptLines V D),
      readTranscriptLines parse digest stream = .ok read ↔
        Transcript parse digest stream.flatten read) ∧
    (∀ bytes : Bytes,
      Lines.ended newline (Lines.cut newline bytes).1 ++ (Lines.cut newline bytes).2 = bytes ∧
        Lines.Clean newline (Lines.cut newline bytes).1 ∧
        newline ∉ (Lines.cut newline bytes).2) ∧
    (∀ (file : Bytes) (short : Nat → Nat), (∀ n, overlapOf tokens < short n) →
      ∀ scanned size : Nat, crossesBoundary tokens file short scanned size = true ↔
        EndsIn tokens file scanned size) ∧
    (∀ (files : Nat → Bytes) (sizes : Nat → Nat), Growing files sizes →
      ∀ n, ∀ token ∈ tokens, ∀ p, OccursAt (bytesOf token) (files n) p →
        p + (bytesOf token).length ≤ (files n).length →
        sizes 0 < p + (bytesOf token).length → p + (bytesOf token).length ≤ sizes n →
        ∃! i, (sizes i < p + (bytesOf token).length ∧
            p + (bytesOf token).length ≤ sizes (i + 1)) ∧
          ∀ short : Nat → Nat, (∀ n, overlapOf tokens < short n) →
            crossesBoundary tokens (files i) short (sizes i) (sizes (i + 1)) = true) := by
  refine ⟨readTranscriptLines_iff, fun bytes => ⟨ended_cut_append bytes, Lines.clean_cut bytes⟩,
    fun file short hshort => crossesBoundary_iff hascii hoverlap file hshort, ?_⟩
  intro files sizes hgrowing n token htoken p hoccurs hfile hlow hhigh
  obtain ⟨i, hi, hunique⟩ := hgrowing.existsUnique hlow n hhigh
  refine ⟨i, ⟨hi, fun short hshort => ?_⟩, fun j hj => hunique j hj.1⟩
  obtain ⟨hthere, hend⟩ := hgrowing.occursAt hoccurs hi.2 hfile
  exact (crossesBoundary_iff hascii hoverlap (files i) hshort _ _).mpr
    ⟨token, htoken, p, hthere, hend, hi.1, hi.2⟩

theorem incremental_reading_is_exact_quoted :
    (∀ token ∈ ["ab"], Ascii token) ∧ overlapOf ["ab"] < CHUNK_BYTES ∧
    ∀ scanned size : Nat,
      crossesBoundary ["ab"] [1, 2, 3, 97, 98] (fun _ => 3) scanned size = true ↔
        EndsIn ["ab"] [1, 2, 3, 97, 98] scanned size :=
  have hascii : ∀ token ∈ ["ab"], Ascii token := by simp [Ascii]
  have hoverlap : overlapOf ["ab"] < CHUNK_BYTES := by decide
  ⟨hascii, hoverlap,
    (incremental_reading_is_exact (fun bytes => some bytes) (fun bytes => bytes.length)
      hascii hoverlap).2.2.1 _ _ fun _ => by decide⟩

/-- A read that returns no more than was searched before ends the search, though a token
    ends further on. -/
theorem short_read_ends_search :
    ¬ ∀ (tokens : List String) (file : Bytes) (short : Nat → Nat) (scanned size : Nat),
      (∀ token ∈ tokens, Ascii token) → (∀ n, 0 < short n) →
      (crossesBoundary tokens file short scanned size = true ↔
        EndsIn tokens file scanned size) := by
  intro h
  have hends : EndsIn ["ab"] [1, 2, 3, 97, 98] 2 5 :=
    ⟨"ab", List.mem_singleton_self _, 3, by decide, by decide, by decide, by decide⟩
  have hfound := (h ["ab"] [1, 2, 3, 97, 98] (fun _ => 2) 2 5 (by simp [Ascii])
    fun _ => by decide).mpr hends
  exact absurd hfound (by decide)

end Cohub.Native
