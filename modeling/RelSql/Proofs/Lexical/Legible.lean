import RelSql.Proofs.Lexical.Values
import RelSql.Proofs.Statement.Aliases

/-!
# Legible values

The words of a phrase are read as such when the quotes of all names and strings in it close
where they should: numbers, dates and times are words by themselves, and so are the labels of
tables.
-/

namespace RelSql

open Text Sql Number

namespace Render.View

variable {v : View} {below : NodeId → Option Phrase} {id : NodeId} {p : Phrase}

/-- Quotes close where they should, in the names and strings that the text of a value holds. -/
structure Legible (v : View) (id : NodeId) : Prop where
  names : ∀ c t name, v.Holds id c → v.graph.node c = .column t name → Named name
  strings : ∀ c s, v.Holds id c → v.graph.node c = .literal (.string s) → Enclosed s

theorem worded_signed {cs : List Char} (h : IsSigned cs) :
  (Phrase.signed cs).WordedAt
  := by
  obtain ⟨ds, hds, rfl | rfl⟩ := h
  · rcases Phrase.signed_cases cs with ⟨es, rfl, _⟩ | ⟨_, hsigned⟩
    · obtain ⟨c, hc, hdigit⟩ := hds.digit
      cases hc
      cases hdigit
    · rw [hsigned]
      exact ⟨hds.word, .inl hds.read?_eq_none⟩
  · exact hds

theorem worded_atom {cs : List Char} (h : IsAtom cs) (hminus : cs.head? ≠ some '-') :
  (Phrase.signed cs).WordedAt
  := by
  rcases Phrase.signed_cases cs with ⟨es, rfl, _⟩ | ⟨_, hsigned⟩
  · exact absurd rfl hminus
  · rw [hsigned]
    exact h

theorem worded_plainLiteral {s : String} (h : ∀ c ∈ s.toList, c ≠ '\'' ∧ c ≠ '\\') :
  (Phrase.signed (plainLiteral s).toList).WordedAt
  := by
  refine worded_atom (isAtom_plainLiteral h) ?_
  rw [plainLiteral, String.toList_append, String.toList_append]
  rintro ⟨⟩

theorem mem_padded {width n : Nat} {c : Char} (h : c ∈ padded width n) :
  c ≠ '\'' ∧ c ≠ '\\'
  := by
  have hdigit := padded_isDigit h
  constructor <;> rintro rfl <;> cases hdigit

/-- The characters of a date are digits and signs. -/
theorem mem_dateChars {d : Date} {c : Char} (h : c ∈ d.chars) :
  c ≠ '\'' ∧ c ≠ '\\'
  := by
  have hyear : ∀ c ∈ Date.yearText d.year, c ≠ '\'' ∧ c ≠ '\\' := by
    intro c hc
    rw [Date.yearText] at hc
    split at hc
    · rcases List.mem_cons.mp hc with rfl | hc
      · decide
      · exact mem_padded hc
    · split at hc
      · rcases List.mem_cons.mp hc with rfl | hc
        · decide
        · have hdigit := digits_isDigit hc
          constructor <;> rintro rfl <;> cases hdigit
      · exact mem_padded hc
  simp only [Date.chars, List.mem_append, List.mem_cons, or_assoc] at h
  rcases h with h | rfl | h | rfl | h
  · exact hyear c h
  · decide
  · exact mem_padded h
  · decide
  · exact mem_padded h

theorem mem_timestampText {t : Timestamp} {c : Char} (h : c ∈ t.text.toList) :
  c ≠ '\'' ∧ c ≠ '\\'
  := by
  simp only [Timestamp.text, Timestamp.clock, String.toList_ofList, List.mem_append,
    List.mem_cons, or_assoc] at h
  rcases h with h | rfl | h | rfl | h | rfl | h
  · exact mem_dateChars h
  · decide
  · exact mem_padded h
  · decide
  · exact mem_padded h
  · decide
  · exact mem_padded h

theorem worded_literal {value : Value} (h : ∀ s, value = .string s → Enclosed s) :
  (literalPhrase value).WordedAt
  := by
  cases value with
  | null => exact ⟨⟨.plain, rfl⟩, .inr rfl⟩
  | boolean b => cases b <;> exact ⟨⟨.plain, rfl⟩, .inl rfl⟩
  | integer i => exact worded_signed (isSigned_integerText i)
  | decimal d => exact worded_signed (isSigned_decimal d)
  | date d =>
      refine worded_plainLiteral fun c hc => ?_
      have htext : c ∈ d.text.toList := hc
      rw [Date.text, String.toList_ofList] at htext
      exact mem_dateChars htext
  | timestamp t => exact worded_plainLiteral fun c hc => mem_timestampText hc
  | string s =>
      have hfirst : (stringLiteral s).toList.head? = some '\'' := by
        rw [stringLiteral, String.toList_ofList]
        rfl
      refine worded_atom (isAtom_stringLiteral (h s rfl)) ?_
      rw [show literal (.string s) = stringLiteral s from rfl, hfirst]
      rintro ⟨⟩
  | float x =>
      simp only [literalPhrase]
      split
      case isTrue => rfl
      case isFalse hnan =>
          split
          case isTrue => cases x.negative <;> rfl
          case isFalse hfinite =>
              rw [Bool.not_eq_true] at hnan hfinite
              exact worded_signed (isSigned_double hnan hfinite)

theorem worded_column {t : NodeId} {name text : String} (hscope : v.clauses.scope.Proper)
    (hname : Named name) (h : v.column t name = .ok text) :
  IsAtom text.toList
  := by
  rw [View.column] at h
  split at h
  case isTrue =>
      cases h
      exact isAtom_quoted hname
  case isFalse =>
      split at h
      case h_1 => cases h
      case h_2 label hlabel =>
          cases h
          split
          case isTrue =>
              obtain ⟨n, _, htext⟩ := hscope.numbered _ (AliasScope.mem_of_aliasIn? _ hlabel)
              exact isAtom_column ⟨n, htext⟩ hname
          case isFalse => exact isAtom_quoted hname

theorem worded_of_plainForms (hscope : v.clauses.scope.Proper)
    (hstrings : ∀ s, v.graph.node id = .literal (.string s) → Enclosed s)
    (hnames : ∀ t name, v.graph.node id = .column t name → Named name)
    (hnamed : ∀ arg name, v.graph.node id ≠ .named arg name) (h : PlainForms v below id p) :
  p.WordedAt
  := by
  cases h
  case named hn _ => exact absurd hn (hnamed _ _)
  case literal hn => exact worded_literal fun s hs => hstrings s (hs ▸ hn)
  case column t name text hn htext => exact worded_column hscope (hnames t name hn) htext
  all_goals trivial

/-- The words of the phrase of a value are read as such. -/
theorem phrase_worded (hscope : v.clauses.scope.Proper) (h : v.Legible id) (hp : v.phrase id = some p) :
  p.All Phrase.WordedAt
  := by
  refine phrase_all (fun i => worded_signed (isSigned_integerText i)) ?_ hp
  intro below c q hholds hnamed hq
  cases hq with
  | plain hnested hq =>
      exact worded_of_plainForms hscope (fun s => h.strings c s hholds)
        (fun t name => h.names c t name hholds) (hnamed hnested) hq
  | scalar _ _ _ | existence _ _ _ | memberOf _ _ _ _ _ => trivial

/-- The phrase of a legible value is read as its tokens, if no minus sign in it stands in front
of another one. -/
theorem phrase_readable (hscope : v.clauses.scope.Proper) (h : v.Legible id)
    (hp : v.phrase id = some p) (hsigned : p.All Phrase.SignedAt) :
  p.Readable
  := ((phrase_worded hscope h hp).and hsigned).imp fun _ hq => ⟨hq.1, hq.2⟩

end Render.View

end RelSql
