/-!
# Blank characters and keywords

The Unicode characters of property White_Space, and the trimming of a text by them.

Keywords are compared without regard to case.  All keywords are ASCII words, so only the
characters whose lower case is an ASCII letter matter to the comparison: the capital
letters `A` to `Z`, and the Kelvin sign, whose lower case is `k`.
-/

/-! ## Blank characters -/

namespace RelSql.Text

/-- The characters of property White_Space. -/
def isBlank (c : Char) : Bool :=
  let n := c.toNat
  (9 ≤ n && n ≤ 13) || n == 0x20 || n == 0x85 || n == 0xA0 || n == 0x1680
    || (0x2000 ≤ n && n ≤ 0x200A) || n == 0x2028 || n == 0x2029 || n == 0x202F
    || n == 0x205F || n == 0x3000

/-- The characters of a text from its first one that is not blank. -/
def trimLeft (cs : List Char) : List Char :=
  cs.dropWhile isBlank

/-- The characters of a text up to its last one that is not blank. -/
def trimRight (cs : List Char) : List Char :=
  (cs.reverse.dropWhile isBlank).reverse

/-- A text without the blank characters at either end. -/
def trim (cs : List Char) : List Char :=
  trimRight (trimLeft cs)

end RelSql.Text

/-! ## Keywords -/

namespace RelSql.Text

/-- The lower case of a character, where it is an ASCII letter. -/
def lowerChar (c : Char) : Char :=
  if 'A' ≤ c ∧ c ≤ 'Z' then Char.ofNat (c.toNat + 32)
  else if c = '\u212A' then 'k'
  else c

/-- The upper case of an ASCII letter. -/
def upperChar (c : Char) : Char :=
  if 'a' ≤ c ∧ c ≤ 'z' then Char.ofNat (c.toNat - 32) else c

/-- The characters of a text, in the case keywords are written in. -/
def lower (cs : List Char) : List Char :=
  cs.map lowerChar

/-- An ASCII text in capital letters. -/
def upper (s : String) : String :=
  String.ofList (s.toList.map upperChar)

end RelSql.Text
