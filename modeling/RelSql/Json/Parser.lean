import RelSql.Json.Basic

/-!
# Reading JSON

A number with a point or an exponent is read as the significand of 64 bits scaled by a
power of ten; so is an integer that 64 bits do not hold.  Digits that the significand has
no room for are dropped.
-/

namespace RelSql.Json

open Number

/-- The input after white space. -/
def skipSpace (cs : List Char) : List Char :=
  cs.dropWhile fun c => c == ' ' || c == '\n' || c == '\t' || c == '\r'

/-- The value of a hexadecimal digit. -/
def hexValue? (c : Char) : Option Nat :=
  if '0' ≤ c ∧ c ≤ '9' then some (c.toNat - 48)
  else if 'a' ≤ c ∧ c ≤ 'f' then some (c.toNat - 87)
  else if 'A' ≤ c ∧ c ≤ 'F' then some (c.toNat - 55)
  else none

/-- The value of four hexadecimal digits. -/
def hexValue4? (a b c d : Char) : Option Nat := do
  return (((← hexValue? a) * 16 + (← hexValue? b)) * 16 + (← hexValue? c)) * 16
    + (← hexValue? d)

/-- The character of a pair of surrogates. -/
def surrogatePair? (high low : Nat) : Option Char :=
  if 0xD800 ≤ high ∧ high < 0xDC00 ∧ 0xDC00 ≤ low ∧ low < 0xE000 then
    some (Char.ofNat (0x10000 + (high - 0xD800) * 0x400 + (low - 0xDC00)))
  else none

/-- The character that a backslash and a letter stand for. -/
def escaped? : Char → Option Char
  | '"' => some '"'
  | '\\' => some '\\'
  | '/' => some '/'
  | 'b' => some '\x08'
  | 'f' => some '\x0c'
  | 'n' => some '\n'
  | 'r' => some '\r'
  | 't' => some '\t'
  | _ => none

/-- Reads a string up to its closing quote; `seen` holds the characters read, last first. -/
def readString? (seen : List Char) : List Char → Option (String × List Char)
  | '"' :: rest => some (String.ofList seen.reverse, rest)
  | '\\' :: 'u' :: a :: b :: c :: d :: '\\' :: 'u' :: e :: f :: g :: h :: rest =>
    match hexValue4? a b c d with
    | none => none
    | some n =>
      match (hexValue4? e f g h).bind (surrogatePair? n) with
      | some pair => readString? (pair :: seen) rest
      | none =>
        if n.isValidChar then
          readString? (Char.ofNat n :: seen) ('\\' :: 'u' :: e :: f :: g :: h :: rest)
        else none
  | '\\' :: 'u' :: a :: b :: c :: d :: rest =>
    match hexValue4? a b c d with
    | none => none
    | some n => if n.isValidChar then readString? (Char.ofNat n :: seen) rest else none
  | '\\' :: c :: rest =>
    match escaped? c with
    | some e => readString? (e :: seen) rest
    | none => none
  | c :: rest => if c.toNat < 0x20 then none else readString? (c :: seen) rest
  | [] => none

/-- Appends digits to a significand as long as 64 bits hold it, and counts the digits that
were appended. -/
def appendDigits (significand taken : Nat) : List Char → Nat × Nat
  | [] => (significand, taken)
  | c :: cs =>
    let next := 10 * significand + digitValue c
    if next < twoPow 64 then appendDigits next (taken + 1) cs else (significand, taken)

/-- Reads an exponent after its mark. -/
def readExponent? (cs : List Char) : Option (Int × List Char) :=
  let (negative, cs) := match cs with
    | '+' :: r => (false, r)
    | '-' :: r => (true, r)
    | r => (false, r)
  let ds := cs.takeWhile Char.isDigit
  if ds = [] then none
  else
    let e := min (ofDigits ds) 1000000
    some (if negative then -(e : Int) else e, cs.drop ds.length)

/-- Reads a fraction and an exponent after the whole digits of a number, which gave the
significand scaled by `shift` powers of ten. -/
def readScale? (significand : Nat) (shift : Int) (cs : List Char) :
    Option (Option (Nat × Int) × List Char) := do
  let (significand, shift, fraction, cs) ← match cs with
    | '.' :: r =>
      let ds := r.takeWhile Char.isDigit
      if ds = [] then none
      else
        let (s, n) := appendDigits significand 0 ds
        some (s, shift - n, true, r.drop ds.length)
    | r => some (significand, shift, false, r)
  match cs with
  | c :: r =>
    if c = 'e' ∨ c = 'E' then do
      let (e, rest) ← readExponent? r
      return (some (significand, shift + e), rest)
    else return (if fraction then some (significand, shift) else none, cs)
  | [] => return (if fraction then some (significand, shift) else none, cs)

/-- Reads a number after its sign. -/
def readNumber? (negative : Bool) (cs : List Char) : Option (JsonNumber × List Char) := do
  let ds := cs.takeWhile Char.isDigit
  if ds = [] ∨ (ds.head? = some '0' ∧ ds.length > 1) then none
  else
    let (significand, taken) := appendDigits 0 0 ds
    let shift : Nat := ds.length - taken
    let (scale, rest) ← readScale? significand shift (cs.drop ds.length)
    match scale with
    | some (m, e) => return (.double (← Double.scaled? negative m e), rest)
    | none =>
      if shift > 0 then return (.double (← Double.scaled? negative significand shift), rest)
      else if !negative then return (.natural significand, rest)
      else if significand = 0 ∨ significand > twoPow 63 then
        return (.double (Double.ofRatio true significand 1), rest)
      else return (.negative significand, rest)

mutual

/-- Reads a document; every level of nesting takes one of `fuel`. -/
def readValue? : Nat → List Char → Option (Json × List Char)
  | 0, _ => none
  | fuel + 1, cs =>
    match skipSpace cs with
    | 'n' :: 'u' :: 'l' :: 'l' :: rest => some (.null, rest)
    | 't' :: 'r' :: 'u' :: 'e' :: rest => some (.bool true, rest)
    | 'f' :: 'a' :: 'l' :: 's' :: 'e' :: rest => some (.bool false, rest)
    | '"' :: rest => (readString? [] rest).map fun (s, r) => (.string s, r)
    | '[' :: rest =>
      match skipSpace rest with
      | ']' :: r => some (.array [], r)
      | r => (readItems? fuel r).map fun (items, r) => (.array items, r)
    | '\x7b' :: rest =>
      match skipSpace rest with
      | '\x7d' :: r => some (.object [], r)
      | r => (readMembers? fuel r).map fun (members, r) => (ofMembers members, r)
    | '-' :: rest => (readNumber? true rest).map fun (n, r) => (.number n, r)
    | rest => (readNumber? false rest).map fun (n, r) => (.number n, r)

/-- Reads the items of an array up to its closing bracket. -/
def readItems? : Nat → List Char → Option (List Json × List Char)
  | 0, _ => none
  | fuel + 1, cs => do
    let (item, rest) ← readValue? fuel cs
    match skipSpace rest with
    | ',' :: r =>
      let (items, r) ← readItems? fuel r
      return (item :: items, r)
    | ']' :: r => return ([item], r)
    | _ => none

/-- Reads the members of an object up to its closing brace. -/
def readMembers? : Nat → List Char → Option (List (String × Json) × List Char)
  | 0, _ => none
  | fuel + 1, cs => do
    match skipSpace cs with
    | '"' :: rest =>
      let (key, rest) ← readString? [] rest
      match skipSpace rest with
      | ':' :: rest =>
        let (value, rest) ← readValue? fuel rest
        match skipSpace rest with
        | ',' :: r =>
          let (members, r) ← readMembers? fuel r
          return ((key, value) :: members, r)
        | '\x7d' :: r => return ([(key, value)], r)
        | _ => none
      | _ => none
    | _ => none

end

/-- The document a text denotes. -/
def parse? (s : String) : Option Json :=
  let cs := s.toList
  match readValue? (cs.length + 1) cs with
  | some (j, rest) => if skipSpace rest = [] then some j else none
  | none => none

end RelSql.Json
