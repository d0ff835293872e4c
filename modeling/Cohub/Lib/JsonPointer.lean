import Mathlib.Data.Nat.Basic
import Cohub.Lib.Json
import Cohub.Lib.Text

/-! # JSON pointers

    A pointer names a place inside a JSON object by the keys on the way to
    it.  As text the keys are joined with slashes, after an escape that keeps
    a slash inside a key apart from the slashes between keys.  `decode_encode`
    is the round trip of the text, and `modify` the write at a place, with the
    rule for a series of writes below one member. -/

namespace JsonPointer

open Fields List

/-! ## Segments -/

/-- Replace every occurrence of a character. -/
def replaceChar (c : Char) (by' : List Char) (l : List Char) : List Char :=
  l.flatMap fun x => if x = c then by' else [x]

/-- Replace every `~d` by the character `c`, from the left. -/
def replaceEscape (d c : Char) : List Char → List Char
  | [] => []
  | [x] => [x]
  | x :: y :: rest =>
      if x = '~' ∧ y = d then c :: replaceEscape d c rest
      else x :: replaceEscape d c (y :: rest)

/-- A key as a segment: `~` is written `~0` and `/` is written `~1`. -/
def encodeSegment (s : String) : String :=
  String.ofList (replaceChar '/' ['~', '1'] (replaceChar '~' ['~', '0'] s.toList))

def decodeSegment (l : List Char) : String :=
  String.ofList (replaceEscape '0' '~' (replaceEscape '1' '/' l))

/-- The segments of an encoded pointer. -/
def decode (encoded : String) : List String :=
  if encoded = "" then [] else (encoded.toList.splitOn '/').map decodeSegment

theorem replaceChar_cons_self (c : Char) (r l : List Char) :
    replaceChar c r (c :: l) = r ++ replaceChar c r l := by
  simp [replaceChar]

variable {c x : Char}

theorem replaceChar_cons_ne (r l : List Char) (h : x ≠ c) :
    replaceChar c r (x :: l) = x :: replaceChar c r l := by
  simp [replaceChar, h]

variable (l : List Char)

theorem replaceEscape_cons_ne {d : Char} (h : x ≠ '~') :
    replaceEscape d c (x :: l) = x :: replaceEscape d c l := by
  cases l with
  | nil => rfl
  | cons y rest => rw [replaceEscape, if_neg (fun hxy => h hxy.1)]

theorem replaceEscape_slash :
    replaceEscape '1' '/' (replaceChar '/' ['~', '1'] (replaceChar '~' ['~', '0'] l)) =
      replaceChar '~' ['~', '0'] l := by
  induction l with
  | nil => rfl
  | cons x l ih =>
    by_cases htilde : x = '~'
    · -- `~0` has no slash and starts no `~1`
      subst htilde
      rw [replaceChar_cons_self, cons_append, cons_append, nil_append,
        replaceChar_cons_ne _ _ (by decide), replaceChar_cons_ne _ _ (by decide), replaceEscape,
        if_neg (by decide), replaceEscape_cons_ne _ (by decide), ih]
    · rw [replaceChar_cons_ne _ _ htilde]
      by_cases hslash : x = '/'
      · subst hslash
        rw [replaceChar_cons_self, cons_append, cons_append, nil_append,
          replaceEscape, if_pos ⟨rfl, rfl⟩, ih]
      · rw [replaceChar_cons_ne _ _ hslash, replaceEscape_cons_ne _ htilde, ih]

theorem replaceEscape_tilde :
    replaceEscape '0' '~' (replaceChar '~' ['~', '0'] l) = l := by
  induction l with
  | nil => rfl
  | cons x l ih =>
    by_cases htilde : x = '~'
    · subst htilde
      rw [replaceChar_cons_self, cons_append, cons_append, nil_append,
        replaceEscape, if_pos ⟨rfl, rfl⟩, ih]
    · rw [replaceChar_cons_ne _ _ htilde, replaceEscape_cons_ne _ htilde, ih]

variable (s : String)

theorem decodeSegment_encodeSegment :
    decodeSegment (encodeSegment s).toList = s := by
  unfold decodeSegment encodeSegment
  rw [String.toList_ofList, replaceEscape_slash, replaceEscape_tilde, String.ofList_toList]

theorem slash_notMem_encodeSegment : '/' ∉ (encodeSegment s).toList := by
  unfold encodeSegment replaceChar
  rw [String.toList_ofList, mem_flatMap]
  rintro ⟨x, -, hx⟩
  split at hx
  · revert hx; decide
  · next hne => exact hne (mem_singleton.mp hx).symm

/-! ## Pointers -/

/-- The segments after a base path, each behind a slash. -/
def encodeTail : List String → List Char
  | [] => []
  | s :: rest => '/' :: (encodeSegment s).toList ++ encodeTail rest

/-- The keys joined with slashes. -/
def encode (segments : List String) : String := String.ofList (encodeTail segments).tail

theorem splitOn_encode (rest : List String) :
    ((encodeSegment s).toList ++ encodeTail rest).splitOn '/' =
      (s :: rest).map fun t => (encodeSegment t).toList := by
  induction rest generalizing s with
  | nil =>
    rw [encodeTail, append_nil]
    exact splitOn_eq_singleton (slash_notMem_encodeSegment s)
  | cons t rest ih =>
    rw [encodeTail, cons_append, splitOn_append_cons_self,
      splitOn_eq_singleton (slash_notMem_encodeSegment s), ih]
    rfl

theorem decode_encode {segments : List String} (h : encode segments ≠ "") :
    decode (encode segments) = segments := by
  unfold decode
  rw [if_neg h]
  cases segments with
  | nil => exact absurd rfl h
  | cons s rest =>
    have hlist : (encode (s :: rest)).toList = (encodeSegment s).toList ++ encodeTail rest := by
      unfold encode
      rw [String.toList_ofList]
      rfl
    rw [hlist, splitOn_encode, map_map]
    have hid : ((fun l => decodeSegment l) ∘ fun t : String => (encodeSegment t).toList) = id := by
      funext t
      exact decodeSegment_encodeSegment t
    show (s :: rest).map ((fun l => decodeSegment l) ∘ fun t => (encodeSegment t).toList) = _
    rw [hid, map_id]

/-! ## Writes at a place -/

/-- Change the member at a place.  Every member on the way must be an object;
    the change itself may refuse what it finds. -/
def modify (change : Option Json → Option Json) : Fields → List String → Option Fields
  | _, [] => none
  | root, [key] => (change (root.get? key)).map fun v => root.set key v
  | root, key :: next :: rest =>
      match root.get? key with
      | some (.obj child) =>
          (modify change child (next :: rest)).map fun child => root.set key (.obj child)
      | _ => none

theorem modify_singleton (change : Option Json → Option Json) (root : Fields) (key : String) :
    modify change root [key] = (change (root.get? key)).map fun v => root.set key v := rfl

variable {change : Option Json → Option Json} {root : Fields} {key : String}
  {path : List String} {root' : Fields}

theorem modify_cons {child : Fields} (hchild : root.get? key = some (.obj child))
    (hpath : path ≠ []) :
    modify change root (key :: path) =
      (modify change child path).map fun child => root.set key (.obj child) := by
  cases path with
  | nil => exact absurd rfl hpath
  | cons next rest =>
    rw [modify, hchild]

theorem modify_frame (h : modify change root (key :: path) = some root') :
    (∀ k, k ≠ key → root'.get? k = root.get? k) ∧ (root.Sorted → root'.Sorted) := by
  cases path with
  | nil =>
    obtain ⟨v, -, rfl⟩ := Option.map_eq_some_iff.mp h
    exact ⟨fun k hk => get?_set_ne root v hk, fun hroot => sorted_set hroot key v⟩
  | cons next rest =>
    rw [modify] at h
    split at h
    · obtain ⟨child, -, rfl⟩ := Option.map_eq_some_iff.mp h
      exact ⟨fun k hk => get?_set_ne root _ hk, fun hroot => sorted_set hroot key _⟩
    · cases h

theorem modify_below {next : String} {rest : List String}
    (h : modify change root (key :: next :: rest) = some root') :
    ∃ child child', root.get? key = some (.obj child) ∧
      modify change child (next :: rest) = some child' ∧ root'.get? key = some (.obj child') := by
  rw [modify] at h
  split at h
  · next child hchild =>
    obtain ⟨child', hchild', rfl⟩ := Option.map_eq_some_iff.mp h
    exact ⟨child, child', hchild, hchild', get?_set_self root key _⟩
  · cases h

end JsonPointer
