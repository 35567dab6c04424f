import RelSql.Text.Layout

/-!
# Layout options and select lists

The items of a select list follow each other on a line, up to the greatest width.  An item
of several lines stands on lines of its own, indented.
-/

/-! ## Layout options -/

namespace RelSql.Render

/-- How SQL is laid out. -/
structure Options where
  /-- The number of spaces that nested lines are indented by. -/
  indent : Nat
  /-- The width past which a select list goes on in the next line. -/
  maxLineLength : Nat
  deriving DecidableEq, Repr

/-- Nested lines are indented by two spaces, and select lists are wrapped past 70
columns. -/
def Options.default : Options := ⟨2, 70⟩

end RelSql.Render

/-! ## Select lists -/

namespace RelSql.Render

open Text

/-- The state of the line that is written: its width, and the number of its items. -/
structure Line where
  width : Nat
  items : Nat
  deriving DecidableEq, Repr

/-- The comma after the items before, if there are any. -/
def comma (first : Bool) : String :=
  if first then "" else ","

/-- The text of an item with what separates it from the items before, and the line it ends
on. -/
def placeItem (options : Options) (first : Bool) (line : Line) (item : String) :
    String × Line :=
  if isMultiline item then
    let indented := indent options.indent item
    (comma first ++ "\n" ++ indented, ⟨lastLineWidth indented, 1⟩)
  else if line.items > 0 ∧ line.width > 0 ∧ width item + line.width > options.maxLineLength then
    (if first then "\n" ++ item else ",\n       " ++ item, ⟨width item + 7, 1⟩)
  else (comma first ++ " " ++ item, ⟨line.width + width item + 2, line.items + 1⟩)

/-- An item of a select list as it is written, and what stands in front of it. -/
structure Entry where
  gap : String
  body : String
  deriving DecidableEq, Repr

/-- What it means to place an item behind a line: where it stands, and the line that it ends in. -/
inductive Places (options : Options) (first : Bool) (line : Line) (item : String) :
    Entry → Line → Prop where
  | block (h : isMultiline item = true) :
    Places options first line item ⟨comma first ++ "\n", indent options.indent item⟩
      ⟨lastLineWidth (indent options.indent item), 1⟩
  | wrapped (h : isMultiline item = false) (hitems : 0 < line.items) :
    Places options first line item ⟨if first then "\n" else ",\n       ", item⟩ ⟨width item + 7, 1⟩
  | joined (h : isMultiline item = false)
      (hfits : 0 < line.items → 0 < line.width → width item + line.width ≤ options.maxLineLength) :
    Places options first line item ⟨comma first ++ " ", item⟩
      ⟨line.width + width item + 2, line.items + 1⟩

/-- An item is placed as an entry. -/
theorem exists_places (options : Options) (first : Bool) (line : Line) (item : String) :
  ∃ e line', placeItem options first line item = (e.gap ++ e.body, line')
    ∧ Places options first line item e line'
  := by
  rw [placeItem]
  split
  case isTrue h => exact ⟨_, _, rfl, .block h⟩
  case isFalse h =>
    have h := Bool.eq_false_iff.mpr h
    split
    case isTrue hwide =>
      refine ⟨_, _, ?_, .wrapped h hwide.1⟩
      cases first <;> rfl
    case isFalse hwide =>
      refine ⟨_, _, rfl, .joined h ?_⟩
      intro hitems hwidth
      exact Nat.le_of_not_lt fun hlt => hwide ⟨hitems, hwidth, hlt⟩

/-- The text of the items from one on. -/
def placeItems (options : Options) (first : Bool) (line : Line) : List String → String
  | [] => ""
  | item :: rest =>
    let (text, line) := placeItem options first line item
    text ++ placeItems options false line rest

theorem placeItems_cons (options : Options) (first : Bool) (line : Line) (item : String)
    (rest : List String) :
  placeItems options first line (item :: rest) = (placeItem options first line item).1
    ++ placeItems options false (placeItem options first line item).2 rest
  := rfl

/-- The text of the items of a select list. -/
def selectItems (options : Options) (items : List String) : String :=
  placeItems options true ⟨0, 0⟩ items

end RelSql.Render
