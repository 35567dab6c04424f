import RelSql.Proofs.Lexical.Trees

/-!
# Operands

An operand stands in parentheses when it is infix.  `NOT` and the tests of a value are not taken
for infix, though words follow or precede their operands, so one of them that is an operand itself
may be read together with other words than its own.  A phrase is firm where this cannot happen.
-/

namespace RelSql.Sql

open Text

theorem head?_padBreaks (x cs : List Char) :
  (padBreaks x cs).head? = cs.head?
  := by
  cases cs with
  | nil => rfl
  | cons c cs =>
      rw [padBreaks_cons]
      split <;> rfl

/-- Whether a word is a number without a sign. -/
def isNumeric (cs : List Char) : Bool :=
  cs.head?.any Char.isDigit

/-- Where a phrase stands: by itself, or as a bound of a test. -/
inductive Place where
  | whole
  | low
  | high
  deriving DecidableEq, Repr

/-- Whether an operator behind a value is read as one of the phrase in this place.  `AND` ends the
lower bound of a test, and what binds looser than the test ends its upper bound. -/
def Place.takes : Place → BinaryOp → Bool
  | whole, _ => true
  | low, op => op ≠ .and
  | high, op => op ≠ .and && op ≠ .or

namespace Phrase

/-- Whether a phrase that stands in this place is read up to its end. -/
def fits (place : Place) : Phrase → Bool
  | .binary op _ _ => place.takes op
  | _ => true

/-- Whether a phrase is a negation or a test for lying between two bounds: what follows it is read
before it is. -/
def isLoose : Phrase → Bool
  | .not _ | .between _ _ _ => true
  | _ => false

/-- Whether a phrase ends with an upper bound, so that an operator behind it is read as one of the
bound. -/
def isOpen : Phrase → Bool
  | .not p => p.isOpen
  | .between _ _ _ => true
  | _ => false

/-- Whether an operand starts with a number without a sign, so that a sign in front of it is read as
that of the number. -/
def startsWithNumber : Phrase → Bool
  | .atom cs => isNumeric cs
  | .null p _ | .membership p _ _ | .between p _ _ => p.startsWithNumber
  | _ => false

/-- Whether a phrase is a number without a sign. -/
def isNumber : Phrase → Bool
  | .atom cs => isNumeric cs
  | _ => false

/-- What a phrase needs so that its operands are read as such. -/
def FirmAt : Phrase → Prop
  /- `NOT a IS NULL` is the negation of a test, and the words behind an upper bound are part of it -/
  | .null p _ | .membership p _ _ => p.isLoose = false
  | .between p low high => p.isLoose = false ∧ low.fits .low ∧ high.fits .high
  /- `-1 IS NULL` is a test of a negative number -/
  | .negate p => p.startsWithNumber → p.isNumber
  | .binary op l _ => l.isOpen → op = .and ∨ op = .or
  | _ => True

/-! ### Words and cases -/

/-- What all phrases of values without nested queries and aggregates have in common: their words are
no keywords, negative constants are numbers, and only the first part of a case is a base. -/
def FormedAt : Phrase → Prop
  | .atom cs => Token.ofWord cs = .word cs ∨ cs = "NULL".toList
  | .negative cs => Token.ofWord cs = .word cs ∧ isNumeric cs
  | .special name => Token.ofWord name = .word name
  | .binary op _ _ => op ≠ .pow
  | .choice arms => .base ∉ (arms.map Prod.fst).tail
  | p => p.isElementary

/-! ### Layout -/

variable {f : Phrase → Phrase} (hf : Lays f)

include hf

theorem isLoose_rebuild (p : Phrase) :
  (p.rebuild f).isLoose = p.isLoose
  := by
  cases hf <;> cases p <;> simp only [rebuild, padWord, layChoice] <;> rfl

theorem fits_rebuild (place : Place) (p : Phrase) :
  (p.rebuild f).fits place = p.fits place
  := by
  cases hf <;> cases p <;> simp only [rebuild, padWord, layChoice] <;> rfl

theorem isNumber_rebuild (p : Phrase) :
  (p.rebuild f).isNumber = p.isNumber
  := by
  cases p with
  | atom cs => cases hf <;> simp only [rebuild, padWord, layChoice, isNumber, isNumeric, head?_padBreaks]
  | _ => cases hf <;> simp only [rebuild, padWord, layChoice, isNumber]

theorem isOpen_rebuild (p : Phrase) :
  (p.rebuild f).isOpen = p.isOpen
  := by
  induction p using induction with
  | h p ih =>
      cases p with
      | not q =>
          have hq := ih q List.mem_cons_self
          cases hf <;> simp only [rebuild, padWord, layChoice, isOpen, hq]
      | _ => cases hf <;> simp only [rebuild, padWord, layChoice, isOpen]

theorem startsWithNumber_rebuild (p : Phrase) :
  (p.rebuild f).startsWithNumber = p.startsWithNumber
  := by
  induction p using induction with
  | h p ih =>
      cases p with
      | atom cs =>
          cases hf <;> simp only [rebuild, padWord, layChoice, startsWithNumber, isNumeric,
            head?_padBreaks]
      | null q _ | membership q _ _ | between q _ _ =>
          have hq := ih q List.mem_cons_self
          cases hf <;> simp only [rebuild, padWord, layChoice, startsWithNumber, hq]
      | _ => cases hf <;> simp only [rebuild, padWord, layChoice, startsWithNumber]

theorem firmAt_rebuild {p : Phrase} (h : p.FirmAt) :
  (p.rebuild f).FirmAt
  := by
  have hrest : p.FirmAt ↔ (p.mapParts (rebuild f)).FirmAt := by
    cases p <;> simp only [FirmAt, mapParts, isLoose_rebuild hf, fits_rebuild hf, isOpen_rebuild hf,
      isNumber_rebuild hf, startsWithNumber_rebuild hf]
  rw [rebuild_eq]
  rw [hrest] at h
  generalize p.mapParts (rebuild f) = q at h
  cases hf <;> cases q <;> exact h

omit hf in
/-- The layout of a word does not make it a keyword. -/
theorem ofWord_padBreaks {cs : List Char} (h : Token.ofWord cs = .word cs) (x : List Char) :
  Token.ofWord (padBreaks x cs) = .word (padBreaks x cs)
  := by
  rw [Token.ofWord_pad, h, Token.pad]

theorem formedAt_rebuild {p : Phrase} (h : p.FormedAt) :
  (p.rebuild f).FormedAt
  := by
  have hrest : p.FormedAt ↔ (p.mapParts (rebuild f)).FormedAt := by
    cases p with
    | choice arms =>
        simp only [FormedAt, mapParts, List.map_map]
        rfl
    | _ => simp only [FormedAt, mapParts, isElementary]
  rw [rebuild_eq]
  rw [hrest] at h
  generalize p.mapParts (rebuild f) = q at h
  cases hf with
  | pad x =>
      cases q with
      | atom cs =>
          rcases h with h | rfl
          · exact .inl (ofWord_padBreaks h x)
          · exact .inr (padBreaks_of_not_mem (by decide))
      | negative cs =>
          refine ⟨ofWord_padBreaks h.1 x, ?_⟩
          rw [isNumeric, head?_padBreaks]
          exact h.2
      | special name => exact ofWord_padBreaks h x
      | _ => exact h
  | choice =>
      cases q with
      | choice arms =>
          simp only [layChoice, FormedAt, fst_layArms]
          exact h
      | _ => exact h

end Phrase

end RelSql.Sql
