import RelSql.Number.Double

/-!
# Shortest decimals

A double precision number is written with the fewest digits that read back as the same
number.  Its rounding interval holds the reals that are nearest to it; on the coarsest
decimal grid with a point of the interval next to the number, the nearer of the two
neighbours is written.
-/

namespace RelSql.Number

/-- How the digits of a number are laid out. -/
structure Layout where
  /-- The least position of the point, counted from the first digit, in plain notation. -/
  plainFrom : Int
  /-- The greatest position of the point in plain notation. -/
  plainUpTo : Int
  /-- Whether a whole number ends in `.0`. -/
  point : Bool
  /-- Whether the greater of two equally near decimals is written. -/
  tieUp : Bool
  /-- Whether an exponent that is not negative has a sign. -/
  plusSign : Bool
  deriving DecidableEq, Repr

namespace Double

/-- The bounds of the rounding interval, the number in the middle, and the power of two
that all three count. -/
def interval (x : Double) : Nat × Nat × Nat × Int :=
  let m := x.mantissa
  let low := if m = fractionLimit ∧ 1 < x.exponent.val then 4 * m - 1 else 4 * m - 2
  (low, 4 * m, 4 * m + 2, x.power - 2)

/-- The nearer neighbour of the number `v / den` on the grid of the multiples of
`ten / den` that lies between `low / den` and `high / den`. -/
def neighbour? (tieUp closed : Bool) (low v high ten : Nat) : Option Nat :=
  let f := v / ten
  let below := low < f * ten || (closed && low == f * ten)
  let above := (f + 1) * ten < high || (closed && (f + 1) * ten == high)
  let r := v % ten
  let up := 2 * r > ten || (2 * r == ten && (tieUp || f % 2 == 1))
  if below && above then some (if up then f + 1 else f)
  else if below then some f
  else if above then some (f + 1)
  else none

/-- Searches the grids `10 ^ k`, `10 ^ (k - 1)`, and so on. -/
def searchGrid (tieUp : Bool) (x : Double) : Nat → Int → Nat × Int
  | 0, k => (0, k)
  | fuel + 1, k =>
    let (low, v, high, e) := x.interval
    let p := powerOfTwo e
    let t := powerOfTen k
    let scale := p.1 * t.2
    match neighbour? tieUp (x.mantissa % 2 == 0) (low * scale) (v * scale) (high * scale)
        (t.1 * p.2) with
    | some d => (d, k)
    | none => searchGrid tieUp x fuel (k - 1)

/-- The decimal `d * 10 ^ k` with the fewest digits that reads back as a positive finite
number. -/
def shortest (tieUp : Bool) (x : Double) : Nat × Int :=
  let top := Int.fdiv ((x.mantissa.log2 + x.power + 2) * 30103) 100000 + 1
  searchGrid tieUp x 24 top

/-- Digits in plain notation, the point standing after `p` of them. -/
def plain (point : Bool) (ds : List Char) (p : Int) : List Char :=
  let whole := ds.length
  if p ≤ 0 then '0' :: '.' :: List.replicate (-p).toNat '0' ++ ds
  else if p.toNat < whole then ds.take p.toNat ++ '.' :: ds.drop p.toNat
  else ds ++ List.replicate (p.toNat - whole) '0' ++ if point then ['.', '0'] else []

/-- A signed integer in base ten. -/
def signedDigits (e : Int) : List Char :=
  if e < 0 then '-' :: digits e.natAbs else digits e.natAbs

/-- An exponent in base ten, with a plus sign or without when it is not negative. -/
def exponentDigits (plusSign : Bool) (e : Int) : List Char :=
  if plusSign ∧ 0 ≤ e then '+' :: signedDigits e else signedDigits e

/-- Digits in scientific notation, the first of them counting `10 ^ e`. -/
def scientific (plusSign : Bool) (ds : List Char) (e : Int) : List Char :=
  let tail := ds.drop 1
  ds.take 1 ++ (if tail = [] then [] else '.' :: tail) ++ 'e' :: exponentDigits plusSign e

/-- The text of the magnitude of a finite number. -/
def magnitudeText (layout : Layout) (x : Double) : List Char :=
  if x.isZero then '0' :: if layout.point then ['.', '0'] else []
  else
    let (d, k) := shortest layout.tieUp x
    let ds := digits d
    let p := ds.length + k
    if layout.plainFrom ≤ p ∧ p ≤ layout.plainUpTo then plain layout.point ds p
    else scientific layout.plusSign ds (p - 1)

/-- The text of a number. -/
def text (layout : Layout) (x : Double) : String :=
  if x.isNaN then "NaN"
  else
    let sign := if x.negative then ['-'] else []
    let body := if x.isInfinite then "inf".toList else magnitudeText layout x
    String.ofList (sign ++ body)

end Double

end RelSql.Number
