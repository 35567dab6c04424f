import RelSql.Render.Word

/-!
# Reading string literals

A string literal starts at a single quote; a backslash takes the next character with it, and the
next other quote ends it.  A string is written with a backslash in front of each of its quotes, and
as it is otherwise: it ends where it should just when none of its own backslashes takes a quote or
what follows the string, and it is read back just when each of them stands for itself.
-/

namespace RelSql.Sql

open Render

/-- What the character after a backslash stands for: a quote for itself, any other one for one
character, for none, or for the backslash and itself. -/
structure Escapes where
  meaning : Char → List Char
  quote : meaning '\'' = ['\'']
  short : ∀ c, meaning c = ['\\', c] ∨ (meaning c).length ≤ 1

/-- Every backslash takes a character that satisfies `P`, from the left on. -/
def EachEscape (P : Char → Prop) : List Char → Prop
  | [] => True
  | ['\\'] => False
  | '\\' :: c :: cs => P c ∧ EachEscape P cs
  | _ :: cs => EachEscape P cs

namespace Escapes

variable (e : Escapes)

/-- The value of a literal whose first quote has been read, and what follows it. -/
def readContent : List Char → Option (List Char × List Char)
  | [] => none
  | '\'' :: rest => some ([], rest)
  | ['\\'] => none
  | '\\' :: c :: cs => (readContent cs).map fun r => (e.meaning c ++ r.1, r.2)
  | c :: cs => (readContent cs).map fun r => (c :: r.1, r.2)

/-- The value of the literal that a text starts with, and what follows it. -/
def readLiteral : List Char → Option (List Char × List Char)
  | '\'' :: cs => e.readContent cs
  | _ => none

/-- What a string stands for between two quotes, if it does not take the second one or end before
it. -/
def unescape : List Char → Option (List Char)
  | [] => some []
  | ['\\'] => none
  | '\\' :: c :: cs => if c = '\'' then none else (unescape cs).map fun v => e.meaning c ++ v
  | c :: cs => (unescape cs).map fun v => c :: v

variable {e}

attribute [local simp] readContent unescape

/-- A literal takes at least one character of a text. -/
theorem length_of_readContent {cs value rest : List Char}
    (h : e.readContent cs = some (value, rest)) :
  rest.length < cs.length
  := by
  fun_induction readContent e cs generalizing value with
  | case1 => cases h
  | case2 =>
      cases h
      exact Nat.lt_succ_self _
  | case3 => cases h
  | case4 c cs ih =>
      obtain ⟨r, hr, heq⟩ := Option.map_eq_some_iff.mp h
      cases heq
      exact Nat.lt_succ_of_lt (Nat.lt_succ_of_lt (ih hr))
  | case5 c cs _ _ _ ih =>
      obtain ⟨r, hr, heq⟩ := Option.map_eq_some_iff.mp h
      cases heq
      exact Nat.lt_succ_of_lt (ih hr)

/-- Characters other than quotes and backslashes stand for themselves. -/
theorem readContent_plain {c : Char} {cs : List Char} (hquote : c ≠ '\'') (hescape : c ≠ '\\') :
  e.readContent (c :: cs) = (e.readContent cs).map fun r => (c :: r.1, r.2)
  := by
  rw [readContent]
  · exact fun h => hquote h
  · exact fun h _ => hescape h
  · exact fun _ _ h _ => hescape h

theorem escapeString_cons {c : Char} {cs : List Char} (h : c ≠ '\'') :
  escapeString (c :: cs) = c :: escapeString cs
  := by
  rw [escapeString, List.flatMap_cons, if_neg h]
  rfl

theorem escapeString_quote (cs : List Char) :
  escapeString ('\'' :: cs) = '\\' :: '\'' :: escapeString cs
  := rfl

/-- What follows a literal stays as it is when characters are added to the value. -/
theorem map_value_eq_some {x : Option (List Char × List Char)} {f : List Char → List Char}
    {value rest : List Char} :
  (x.map fun r => (f r.1, r.2)) = some (value, rest) ↔ ∃ v, x = some (v, rest) ∧ f v = value
  := by
  rw [Option.map_eq_some_iff]
  constructor
  · rintro ⟨⟨v, _⟩, hx, heq⟩
    cases heq
    exact ⟨v, hx, rfl⟩
  · rintro ⟨v, hx, rfl⟩
    exact ⟨(v, rest), hx, rfl⟩

/-- The reader ends at the quote behind a string just when the string stands for its value. -/
theorem readContent_escapeString {s value rest : List Char} :
  e.readContent (escapeString s ++ '\'' :: rest) = some (value, rest)
    ↔ e.unescape s = some value
  := by
  fun_induction unescape e s generalizing value with
  | case1 => simp [escapeString]
  | case2 =>
      -- the backslash takes the last quote, and the reader goes on into what follows
      refine iff_of_false (fun h => ?_) (fun h => nomatch h)
      obtain ⟨v, hv, _⟩ := map_value_eq_some.mp h
      exact Nat.lt_irrefl _ (length_of_readContent hv)
  | case3 cs =>
      -- the backslash takes the one in front of the quote, which ends the literal
      refine iff_of_false (fun h => ?_) (fun h => nomatch h)
      rw [escapeString_cons (by decide), escapeString_quote, List.cons_append, List.cons_append,
        List.cons_append, readContent] at h
      obtain ⟨v, hv, _⟩ := map_value_eq_some.mp h
      have hlength := congrArg List.length (Prod.mk.inj (Option.some.inj hv)).2
      rw [List.length_append, List.length_cons] at hlength
      omega
  | case4 c cs hquote ih =>
      rw [escapeString_cons (by decide), escapeString_cons hquote, List.cons_append,
        List.cons_append, readContent, map_value_eq_some, Option.map_eq_some_iff]
      simp only [ih]
  | case5 c cs hlast hescape ih =>
      have hbackslash : c ≠ '\\' := by
        cases cs with
        | nil => exact fun hc => hlast hc rfl
        | cons d ds => exact fun hc => hescape d ds hc rfl
      rw [Option.map_eq_some_iff]
      simp only [← ih]
      by_cases hquote : c = '\''
      · rw [hquote, escapeString_quote, List.cons_append, List.cons_append, readContent,
          map_value_eq_some, e.quote]
        rfl
      · rw [escapeString_cons hquote, List.cons_append, readContent_plain hquote hbackslash,
          map_value_eq_some]

/-- A string stands for no more characters than it has. -/
theorem length_of_unescape {s value : List Char} (h : e.unescape s = some value) :
  value.length ≤ s.length
  := by
  fun_induction unescape e s generalizing value with
  | case1 =>
      cases h
      exact Nat.le_refl _
  | case2 | case3 => cases h
  | case4 c cs _ ih =>
      obtain ⟨v, hv, rfl⟩ := Option.map_eq_some_iff.mp h
      have hmeaning : (e.meaning c).length ≤ 2 := by
        obtain h | h := e.short c
        · rw [h]
          exact Nat.le_refl _
        · exact Nat.le_succ_of_le h
      have hv := ih hv
      rw [List.length_append, List.length_cons, List.length_cons]
      omega
  | case5 c cs _ _ ih =>
      obtain ⟨v, hv, rfl⟩ := Option.map_eq_some_iff.mp h
      exact Nat.succ_le_succ (ih hv)

/-- A string stands for some value when none of its backslashes takes a quote or the end. -/
theorem unescape_isSome {s : List Char} :
  (e.unescape s).isSome ↔ EachEscape (fun c => c ≠ '\'') s
  := by
  fun_induction unescape e s with
  | case1 => exact iff_of_true rfl trivial
  | case2 => exact iff_of_false (fun h => nomatch h) id
  | case3 cs => exact iff_of_false (fun h => nomatch h) fun h => h.1 rfl
  | case4 c cs hquote ih =>
      rw [EachEscape, ← ih, Option.isSome_map, and_iff_right hquote]
  | case5 c cs hlast hescape ih =>
      rw [EachEscape, ← ih, Option.isSome_map]
      · exact hlast
      · exact hescape

/-- A string stands for itself when all of its backslashes do. -/
theorem unescape_eq_self {s : List Char} :
  e.unescape s = some s ↔ EachEscape (fun c => e.meaning c = ['\\', c]) s
  := by
  fun_induction unescape e s with
  | case1 => exact iff_of_true rfl trivial
  | case2 => exact iff_of_false (fun h => nomatch h) id
  | case3 cs =>
      refine iff_of_false (fun h => nomatch h) fun h => ?_
      rw [EachEscape, e.quote] at h
      exact nomatch h.1
  | case4 c cs hquote ih =>
      rw [EachEscape, ← ih, Option.map_eq_some_iff]
      constructor
      · rintro ⟨v, hv, heq⟩
        obtain h | h := e.short c
        · rw [h] at heq
          cases heq
          exact ⟨h, hv⟩
        · have hlength := congrArg List.length heq
          have hle := length_of_unescape hv
          rw [List.length_append, List.length_cons, List.length_cons] at hlength
          omega
      · rintro ⟨h, hv⟩
        exact ⟨cs, hv, by rw [h]; rfl⟩
  | case5 c cs hlast hescape ih =>
      rw [EachEscape, ← ih]
      · simp
      · exact hlast
      · exact hescape

/-- The literal of a string ends at its own last quote, whatever follows it, just when no backslash
of the string takes a quote or stands at its end; and it has the string as its value just when each
backslash of the string stands for itself. -/
theorem readLiteral_stringLiteral (e : Escapes) (s : String) (rest : List Char) :
  ((∃ value, e.readLiteral ((stringLiteral s).toList ++ rest) = some (value, rest))
      ↔ EachEscape (fun c => c ≠ '\'') s.toList)
    ∧ (e.readLiteral ((stringLiteral s).toList ++ rest) = some (s.toList, rest)
      ↔ EachEscape (fun c => e.meaning c = ['\\', c]) s.toList)
  := by
  have hread : ∀ value, e.readLiteral ((stringLiteral s).toList ++ rest) = some (value, rest)
      ↔ e.unescape s.toList = some value := by
    intro value
    rw [stringLiteral, String.toList_ofList, List.append_assoc, List.singleton_append,
      List.cons_append, readLiteral]
    exact readContent_escapeString
  simp only [hread, ← Option.isSome_iff_exists]
  exact ⟨unescape_isSome, unescape_eq_self⟩

/-- A backslash is taken off the character that follows it. -/
def plain : Escapes :=
  ⟨fun c => [c], rfl, fun _ => .inr (Nat.le_refl 1)⟩

example :
  plain.readLiteral ((stringLiteral "it's").toList ++ " AND".toList)
    = some ("it's".toList, " AND".toList)
  := by
  decide

example :
  plain.readLiteral ((stringLiteral "a\\").toList ++ " AND 'b'".toList)
    = some ("a' AND ".toList, "b'".toList)
  := by
  decide

end Escapes

end RelSql.Sql
