import RelSql.Number.Digits

/-!
# Double precision numbers

A number of the binary format of 64 bits is given by its sign, its biased exponent and its
fraction.  Operations are exact on fractions of natural numbers and then rounded to the
nearest number of the format, a tie going to the even one.
-/

namespace RelSql.Number

/-- The number of fractions, which have 52 bits. -/
def fractionLimit : Nat := 4503599627370496

/-- A number in double precision. -/
structure Double where
  negative : Bool
  exponent : Fin 2048
  fraction : Fin fractionLimit
  deriving DecidableEq, Repr

namespace Double

/-- The number whose exponent and fraction are the digits of `w` in base `fractionLimit`. -/
def ofFields (negative : Bool) (w : Nat) : Double where
  negative := negative
  exponent := ⟨w / fractionLimit % 2048, Nat.mod_lt _ (by decide)⟩
  fraction := ⟨w % fractionLimit, Nat.mod_lt _ (by decide)⟩

/-- The zero of a sign. -/
def zero (negative : Bool) : Double := ofFields negative 0

/-- The infinity of a sign. -/
def infinity (negative : Bool) : Double := ofFields negative (2047 * fractionLimit)

/-- The number that is no number. -/
def nan : Double := ofFields false (2047 * fractionLimit + fractionLimit / 2)

/-- Whether the number is no number. -/
def isNaN (x : Double) : Bool :=
  x.exponent.val == 2047 && x.fraction.val != 0

/-- Whether the number is an infinity. -/
def isInfinite (x : Double) : Bool :=
  x.exponent.val == 2047 && x.fraction.val == 0

/-- Whether the number is a zero. -/
def isZero (x : Double) : Bool :=
  x.exponent.val == 0 && x.fraction.val == 0

/-- The integer `m` such that a finite number is `m * 2 ^ x.power`, up to its sign. -/
def mantissa (x : Double) : Nat :=
  if x.exponent.val = 0 then x.fraction.val else fractionLimit + x.fraction.val

/-- The power of two that the mantissa counts. -/
def power (x : Double) : Int :=
  (max x.exponent.val 1 : Nat) - 1075

/-- Equality of numbers: zeros of both signs are equal, and `nan` equals nothing. -/
def equals (x y : Double) : Bool :=
  !x.isNaN && !y.isNaN && ((x.isZero && y.isZero) || x = y)

/-- A power of two as a fraction. -/
def powerOfTwo (e : Int) : Nat × Nat :=
  if 0 ≤ e then (twoPow e.toNat, 1) else (1, twoPow (-e).toNat)

/-- A power of ten as a fraction. -/
def powerOfTen (e : Int) : Nat × Nat :=
  if 0 ≤ e then (tenPow e.toNat, 1) else (1, tenPow (-e).toNat)

/-- The magnitude of a finite number as a fraction. -/
def ratio (x : Double) : Nat × Nat :=
  let p := powerOfTwo x.power
  (x.mantissa * p.1, p.2)

/-- The quotient of two numbers rounded to the nearest integer, a tie going to the even
one. -/
def roundDiv (num den : Nat) : Nat :=
  let q := num / den
  let r := num % den
  if 2 * r > den ∨ (2 * r = den ∧ q % 2 = 1) then q + 1 else q

/-- The integer part of the logarithm in base two of a positive fraction. -/
def logTwo (num den : Nat) : Int :=
  let e : Int := (num.log2 : Int) - den.log2
  let p := powerOfTwo e
  if num * p.2 ≥ den * p.1 then e else e - 1

/-- The number nearest to the fraction `num / den`. -/
def ofRatio (negative : Bool) (num den : Nat) : Double :=
  if num = 0 then zero negative
  else
    let e := max (logTwo num den - 52) (-1074)
    let p := powerOfTwo e
    let q := roundDiv (num * p.2) (den * p.1)
    let w := (e + 1074).toNat * fractionLimit + q
    if w ≥ 2047 * fractionLimit then infinity negative else ofFields negative w

/-- The number nearest to `m * 10 ^ e`. -/
def ofScientific (negative : Bool) (m : Nat) (e : Int) : Double :=
  let size := (digits m).length + e
  if m = 0 ∨ size < -400 then zero negative
  else if size > 400 then infinity negative
  else
    let p := powerOfTen e
    ofRatio negative (m * p.1) p.2

/-- The product of two finite magnitudes. -/
def times (x y : Double) : Double :=
  let p := x.ratio
  let q := y.ratio
  ofRatio x.negative (p.1 * q.1) (p.2 * q.2)

/-- The quotient of two finite magnitudes. -/
def dividedBy (x y : Double) : Double :=
  let p := x.ratio
  let q := y.ratio
  ofRatio x.negative (p.1 * q.2) (p.2 * q.1)

/-- The number `10 ^ k`. -/
def tenTo (k : Nat) : Double := ofRatio false (tenPow k) 1

/-- Divides by `10 ^ 308` as long as `10 ^ k` is out of range, and by `10 ^ k` at last. -/
def shrink : Nat → Double → Nat → Double
  | 0, x, _ => x
  | fuel + 1, x, k =>
    if k ≤ 308 then x.dividedBy (tenTo k)
    else if x.isZero then x
    else shrink fuel (x.dividedBy (tenTo 308)) (k - 308)

/-- The number `m` scaled by `10 ^ e` in steps that each round, or nothing when it is out
of range. -/
def scaled? (negative : Bool) (m : Nat) (e : Int) : Option Double :=
  let x := ofRatio negative m 1
  if e < 0 then some (shrink 8 x (-e).toNat)
  else if e ≤ 308 then
    let y := x.times (tenTo e.toNat)
    if y.isInfinite then none else some y
  else if m = 0 then some x
  else none

end Double

end RelSql.Number
