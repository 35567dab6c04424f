/-!
# Lines, columns and styles

Texts are laid out in lines.  A text is indented by putting spaces in front of each of
its lines, the empty ones included; widths are counted in bytes of the encoded text.

Text for a terminal is coloured by escape sequences.  A styled text that already resets
the terminal's style gets its own style back after each such reset.
-/

namespace RelSql.Text

/-- The text of `n` spaces. -/
def spaces (n : Nat) : String :=
  String.ofList (List.replicate n ' ')

/-- The lines of a text, which is cut at each newline. -/
def lines : List Char → List (List Char)
  | [] => [[]]
  | c :: cs =>
    if c = '\n' then [] :: lines cs
    else match lines cs with
      | [] => [[c]]
      | l :: ls => (c :: l) :: ls

/-- Puts `pad` in front of each line that starts inside the text. -/
def padBreaks (pad : List Char) (cs : List Char) : List Char :=
  cs.flatMap fun c => if c = '\n' then c :: pad else [c]

/-- Puts `n` spaces in front of each line of the text. -/
def indent (n : Nat) (s : String) : String :=
  let pad := List.replicate n ' '
  String.ofList (pad ++ padBreaks pad s.toList)

/-- Whether the text extends over several lines. -/
def isMultiline (s : String) : Bool :=
  s.toList.contains '\n'

/-- The width of a text, in bytes. -/
def width (s : String) : Nat :=
  s.utf8ByteSize

/-- The width of the last line of a text. -/
def lastLineWidth (s : String) : Nat :=
  width (String.ofList ((lines s.toList).getLast?.getD []))

/-- The texts of a list, with `sep` between any two of them. -/
def joinWith (sep : String) : List String → String
  | [] => ""
  | [s] => s
  | s :: rest => s ++ sep ++ joinWith sep rest

/-! ### Styles -/

/-- The styles of the parts of a displayed expression. -/
inductive Style where
  | operator
  | literal
  | name
  | table
  deriving DecidableEq, Repr

/-- The sequence that starts a style: blue, yellow, green and bold red. -/
def Style.opening : Style → List Char
  | .operator => "\x1b[34m".toList
  | .literal => "\x1b[33m".toList
  | .name => "\x1b[32m".toList
  | .table => "\x1b[1;31m".toList

/-- The sequence that resets the style. -/
def resetStyle : List Char := "\x1b[0m".toList

/-- Puts `again` after each reset in a text. -/
def reopen (again : List Char) : List Char → List Char
  | '\x1b' :: '[' :: '0' :: 'm' :: rest => resetStyle ++ again ++ reopen again rest
  | c :: rest => c :: reopen again rest
  | [] => []

/-- A text in a style; without colour the text alone. -/
def styled (color : Bool) (style : Style) (s : String) : String :=
  if color then
    String.ofList (style.opening ++ reopen style.opening s.toList ++ resetStyle)
  else s

end RelSql.Text
