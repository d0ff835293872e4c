/-! # Strings as a scripting language sees them

    White space, lengths in UTF-16 code units, and the few character classes
    that patterns on identifiers use.  A pattern is a test on the list of
    characters, so that it computes. -/

namespace Text

/-- White space and line terminators: what `trim` removes and `\s` matches. -/
def isWhiteSpace (c : Char) : Bool :=
  c.toNat ∈ [9, 10, 11, 12, 13, 32, 0xA0, 0x1680, 0x202F, 0x205F, 0x3000, 0xFEFF, 0x2028, 0x2029]
    || (0x2000 ≤ c.toNat && c.toNat ≤ 0x200A)

/-- The length of a string in UTF-16 code units. -/
def utf16Length (s : String) : Nat :=
  s.toList.foldl (fun n c => if c.toNat < 0x10000 then n + 1 else n + 2) 0

/-- `[a-z]`. -/
def isLower (c : Char) : Bool := 'a' ≤ c && c ≤ 'z'

/-- `[A-Z]`. -/
def isUpper (c : Char) : Bool := 'A' ≤ c && c ≤ 'Z'

/-- `\d`. -/
def isDigit (c : Char) : Bool := '0' ≤ c && c ≤ '9'

/-- `[a-z0-9]`. -/
def isSlugChar (c : Char) : Bool := isLower c || isDigit c

/-- The string without the white space at both ends. -/
def trim (s : String) : String :=
  String.ofList ((s.toList.dropWhile isWhiteSpace).reverse.dropWhile isWhiteSpace).reverse

/-- The parts of a string between the characters that satisfy `p`. -/
def splitAt (p : Char → Bool) (s : String) : List (List Char) := s.toList.splitOnP p

end Text
