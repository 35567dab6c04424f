/-!
# Operators

The kinds of joins, the units of time, and the operators, functions and aggregates of
value expressions.
-/

namespace RelSql

/-- The kinds of joins. -/
inductive JoinKind where
  | inner
  | left
  | right
  | outer
  | semi
  | anti
  | cross
  deriving DecidableEq, Repr

namespace JoinKind

/-- All kinds of joins. -/
def all : List JoinKind := [.inner, .left, .right, .outer, .semi, .anti, .cross]

/-- The name of a kind. -/
def name : JoinKind → String
  | .inner => "Inner"
  | .left => "Left"
  | .right => "Right"
  | .outer => "Outer"
  | .semi => "Semi"
  | .anti => "Anti"
  | .cross => "Cross"

/-- Whether the left operand, or else the right one, may be filtered after the join instead
of before it. -/
def preservesFilters (kind : JoinKind) (left : Bool) : Bool :=
  match kind with
  | .inner | .cross => true
  | .left | .semi | .anti => left
  | .right => !left
  | .outer => false

/-- Whether the join has the fields of its left operand only. -/
def leftOnly : JoinKind → Bool
  | .semi | .anti => true
  | _ => false

end JoinKind

/-- The units of time. -/
inductive TimeUnit where
  | year
  | month
  | week
  | day
  | hour
  | minute
  | second
  | millisecond
  deriving DecidableEq, Repr

namespace TimeUnit

/-- All units. -/
def all : List TimeUnit :=
  [.year, .month, .week, .day, .hour, .minute, .second, .millisecond]

/-- The name of a unit. -/
def name : TimeUnit → String
  | .year => "year"
  | .month => "month"
  | .week => "week"
  | .day => "day"
  | .hour => "hour"
  | .minute => "minute"
  | .second => "second"
  | .millisecond => "millisecond"

end TimeUnit

/-- The operators with one operand. -/
inductive UnaryOp where
  | not
  | negate
  | isNull
  | notNull
  deriving DecidableEq, Repr

namespace UnaryOp

/-- All operators with one operand. -/
def all : List UnaryOp := [.not, .negate, .isNull, .notNull]

/-- The name of an operator. -/
def name : UnaryOp → String
  | .not => "Not"
  | .negate => "Negate"
  | .isNull => "IsNull"
  | .notNull => "NotNull"

end UnaryOp

/-- The operators with two operands. -/
inductive BinaryOp where
  | add
  | sub
  | mul
  | div
  | mod
  | pow
  | eq
  | notEq
  | lt
  | ltEq
  | gt
  | gtEq
  | and
  | or
  deriving DecidableEq, Repr

namespace BinaryOp

/-- All operators with two operands. -/
def all : List BinaryOp :=
  [.add, .sub, .mul, .div, .mod, .pow, .eq, .notEq, .lt, .ltEq, .gt, .gtEq, .and, .or]

/-- The name of an operator. -/
def name : BinaryOp → String
  | .add => "Add"
  | .sub => "Sub"
  | .mul => "Mul"
  | .div => "Div"
  | .mod => "Mod"
  | .pow => "Pow"
  | .eq => "Eq"
  | .notEq => "NotEq"
  | .lt => "Lt"
  | .ltEq => "LtEq"
  | .gt => "Gt"
  | .gtEq => "GtEq"
  | .and => "And"
  | .or => "Or"

/-- Whether the operator compares its operands. -/
def isComparison : BinaryOp → Bool
  | .eq | .notEq | .lt | .ltEq | .gt | .gtEq => true
  | _ => false

/-- Whether the operator connects predicates. -/
def isLogical : BinaryOp → Bool
  | .and | .or => true
  | _ => false

end BinaryOp

/-- The functions. -/
inductive Function where
  | ln
  | log10
  | exp
  | sqrt
  | abs
  | ceil
  | floor
  | lower
  | upper
  | length
  | coalesce
  | now
  deriving DecidableEq, Repr

namespace Function

/-- The name of a function. -/
def name : Function → String
  | .ln => "Ln"
  | .log10 => "Log10"
  | .exp => "Exp"
  | .sqrt => "Sqrt"
  | .abs => "Abs"
  | .ceil => "Ceil"
  | .floor => "Floor"
  | .lower => "Lower"
  | .upper => "Upper"
  | .length => "Length"
  | .coalesce => "Coalesce"
  | .now => "Now"

/-- The name of a function in SQL. -/
def sqlName : Function → String
  | .ln => "ln"
  | .log10 => "log10"
  | .exp => "exp"
  | .sqrt => "sqrt"
  | .abs => "abs"
  | .ceil => "ceil"
  | .floor => "floor"
  | .lower => "lower"
  | .upper => "upper"
  | .length => "length"
  | .coalesce => "coalesce"
  | .now => "now"

end Function

/-- The aggregates of the rows of a group. -/
inductive Aggregate where
  | sum
  | mean
  | min
  | max
  | count
  | countDistinct
  deriving DecidableEq, Repr

namespace Aggregate

/-- All aggregates. -/
def all : List Aggregate := [.sum, .mean, .min, .max, .count, .countDistinct]

/-- The name of an aggregate. -/
def name : Aggregate → String
  | .sum => "Sum"
  | .mean => "Mean"
  | .min => "Min"
  | .max => "Max"
  | .count => "Count"
  | .countDistinct => "CountDistinct"

end Aggregate

end RelSql
