import Mathlib.Data.List.TakeWhile
import Mathlib.Data.String.Basic
import RelSql.Proofs.Number.Digits
import RelSql.Json.Printer
import RelSql.Json.Parser

/-!
# Reading JSON back

A document is read back from what it is written as: a number up to what ends it, a string up to its
closing quote, and an array or an object up to its closing mark, whatever the white space around
the parts.
-/

namespace RelSql.Json

open Number Text

/-! ### Numbers -/

/-- The characters of numbers. -/
abbrev OfNumber (c : Char) : Prop :=
  c.isDigit ∨ c ∈ ['.', 'e', 'E', '+', '-']

/-- A text goes on after characters of numbers. -/
def Consumes (cs tail : List Char) : Prop :=
  ∃ taken, cs = taken ++ tail ∧ ∀ c ∈ taken, OfNumber c

/-- No number goes on with the text. -/
def EndsNumber (rest : List Char) : Prop :=
  ∀ c ∈ rest.head?, c.isDigit = false ∧ c ≠ '.' ∧ c ≠ 'e' ∧ c ≠ 'E'

variable {j : Json} {cs rest tail : List Char}

theorem Consumes.refl (cs : List Char) :
  Consumes cs cs
  := ⟨[], rfl, fun _ h => absurd h List.not_mem_nil⟩

theorem Consumes.cons {c : Char} (hc : OfNumber c) (h : Consumes cs tail) :
  Consumes (c :: cs) tail
  := by
  obtain ⟨taken, rfl, htaken⟩ := h
  exact ⟨c :: taken, rfl, List.forall_mem_cons.mpr ⟨hc, htaken⟩⟩

theorem Consumes.digits (h : Consumes (cs.drop (cs.takeWhile Char.isDigit).length) tail) :
  Consumes cs tail
  := by
  obtain ⟨taken, hdrop, htaken⟩ := h
  have hsplit := List.prefix_iff_eq_append.mp (List.takeWhile_prefix (l := cs) Char.isDigit)
  refine ⟨cs.takeWhile Char.isDigit ++ taken, ?_, ?_⟩
  · rw [List.append_assoc, ← hdrop, hsplit]
  · exact List.forall_mem_append.mpr ⟨fun c hc => .inl (List.mem_takeWhile_imp hc), htaken⟩

theorem EndsNumber.noDigit (h : EndsNumber rest) :
  NoDigit rest
  := fun c hc => (h c hc).1

/-- Digits at the start of a text are taken off it, whatever follows. -/
theorem drop_digits_append (cs rest : List Char) :
  (cs ++ rest).drop (cs.takeWhile Char.isDigit).length
    = cs.drop (cs.takeWhile Char.isDigit).length ++ rest
  := List.drop_append_of_le_length (List.takeWhile_prefix _).length_le

/-- Reads the digits of an exponent after its sign. -/
def readPower? (negative : Bool) (cs : List Char) : Option (Int × List Char) :=
  let ds := cs.takeWhile Char.isDigit
  if ds = [] then none
  else
    let e := min (ofDigits ds) 1000000
    some (if negative then -(e : Int) else e, cs.drop ds.length)

theorem readExponent?_eq (cs : List Char) :
  readExponent? cs = match cs with
    | '+' :: r => readPower? false r
    | '-' :: r => readPower? true r
    | r => readPower? false r
  := by
  change (fun sign : Bool × List Char => readPower? sign.1 sign.2) (match cs with
    | '+' :: r => (false, r)
    | '-' :: r => (true, r)
    | r => (false, r)) = _
  split <;> rfl

/-- Reads an exponent after the digits of a number, if there is one. -/
def readMark? (significand : Nat) (shift : Int) (fraction : Bool) (cs : List Char) :
    Option (Option (Nat × Int) × List Char) :=
  match cs with
  | c :: r =>
    if c = 'e' ∨ c = 'E' then
      (readExponent? r).map fun (e, rest) => (some (significand, shift + e), rest)
    else some (if fraction then some (significand, shift) else none, cs)
  | [] => some (if fraction then some (significand, shift) else none, cs)

/-- What the reader does behind the digits of a number. -/
theorem readMark?_eq (significand : Nat) (shift : Int) (fraction : Bool) (cs : List Char) :
  (match cs with
    | c :: r =>
      if c = 'e' ∨ c = 'E' then do
        let (e, rest) ← readExponent? r
        return (some (significand, shift + e), rest)
      else return (if fraction then some (significand, shift) else none, cs)
    | [] => return (if fraction then some (significand, shift) else none, cs))
    = readMark? significand shift fraction cs
  := by
  cases cs with
  | nil => rfl
  | cons c r =>
      simp only [readMark?]
      split
      · cases readExponent? r <;> rfl
      · rfl

theorem readScale?_point (significand : Nat) (shift : Int) (cs : List Char) :
  readScale? significand shift ('.' :: cs)
    = let ds := cs.takeWhile Char.isDigit
      if ds = [] then none
      else
        let (s, n) := appendDigits significand 0 ds
        readMark? s (shift - n) true (cs.drop ds.length)
  := by
  simp only [readScale?, Option.bind_eq_bind]
  split
  · rfl
  · exact readMark?_eq _ _ _ _

theorem readScale?_plain (significand : Nat) (shift : Int) (h : ∀ r, cs ≠ '.' :: r) :
  readScale? significand shift cs = readMark? significand shift false cs
  := by
  rw [readScale?.eq_def]
  split
  · exact absurd rfl (h _)
  · exact readMark?_eq _ _ _ _

theorem readPower?_local {negative : Bool} {e : Int} (h : readPower? negative cs = some (e, tail)) :
  Consumes cs tail
    ∧ ∀ rest, NoDigit rest → readPower? negative (cs ++ rest) = some (e, tail ++ rest)
  := by
  simp only [readPower?] at h ⊢
  split at h
  · cases h
  · cases h
    refine ⟨.digits (.refl _), fun rest hrest => ?_⟩
    rw [takeWhile_isDigit_append hrest, drop_digits_append, if_neg ‹_›]

/-- An exponent is read from what it starts with, whatever follows its digits. -/
theorem readExponent?_local {e : Int} (h : readExponent? cs = some (e, tail)) :
  Consumes cs tail ∧ ∀ rest, NoDigit rest → readExponent? (cs ++ rest) = some (e, tail ++ rest)
  := by
  simp only [readExponent?_eq] at h ⊢
  split at h
  · obtain ⟨htaken, hrest⟩ := readPower?_local h
    exact ⟨.cons (by decide) htaken, hrest⟩
  · obtain ⟨htaken, hrest⟩ := readPower?_local h
    exact ⟨.cons (by decide) htaken, hrest⟩
  · rename_i hplus hminus
    obtain ⟨htaken, hrest⟩ := readPower?_local h
    refine ⟨htaken, fun rest hnone => ?_⟩
    cases cs with
    | nil => cases h
    | cons c cs =>
        rw [List.cons_append]
        split
        · rename_i heq
          exact absurd (congrArg (· :: cs) (List.cons.inj heq).1) (hplus cs)
        · rename_i heq
          exact absurd (congrArg (· :: cs) (List.cons.inj heq).1) (hminus cs)
        · exact hrest rest hnone

theorem readMark?_local {significand : Nat} {shift : Int} {fraction : Bool}
    {scale : Option (Nat × Int)}
    (h : readMark? significand shift fraction cs = some (scale, tail)) :
  Consumes cs tail ∧ ∀ rest, EndsNumber rest →
    readMark? significand shift fraction (cs ++ rest) = some (scale, tail ++ rest)
  := by
  cases cs with
  | nil =>
      cases h
      refine ⟨.refl _, fun rest hrest => ?_⟩
      cases rest with
      | nil => rfl
      | cons c rest =>
          have hmark : ¬(c = 'e' ∨ c = 'E') := not_or.mpr (hrest c rfl).2.2
          rw [List.nil_append, readMark?, if_neg hmark]
  | cons c cs =>
      rw [readMark?] at h
      split at h
      · rename_i hmark
        obtain ⟨⟨e, rest⟩, he, h⟩ := Option.map_eq_some_iff.mp h
        cases h
        obtain ⟨htaken, hexponent⟩ := readExponent?_local he
        refine ⟨.cons (by rcases hmark with rfl | rfl <;> decide) htaken, fun rest hrest => ?_⟩
        rw [List.cons_append, readMark?, if_pos hmark, hexponent rest hrest.noDigit,
          Option.map_some]
      · cases h
        refine ⟨.refl _, fun rest _ => ?_⟩
        rw [List.cons_append, readMark?, if_neg ‹_›]

/-- A fraction and an exponent are read from what they start with, whatever follows them. -/
theorem readScale?_local {significand : Nat} {shift : Int} {scale : Option (Nat × Int)}
    (h : readScale? significand shift cs = some (scale, tail)) :
  Consumes cs tail ∧ ∀ rest, EndsNumber rest →
    readScale? significand shift (cs ++ rest) = some (scale, tail ++ rest)
  := by
  by_cases hpoint : ∃ r, cs = '.' :: r
  · obtain ⟨r, rfl⟩ := hpoint
    rw [readScale?_point] at h
    dsimp only at h
    split at h
    · cases h
    · obtain ⟨htaken, hmark⟩ := readMark?_local h
      refine ⟨.cons (by decide) (.digits htaken), fun rest hrest => ?_⟩
      rw [List.cons_append, readScale?_point]
      dsimp only
      rw [takeWhile_isDigit_append hrest.noDigit, drop_digits_append, if_neg ‹_›]
      exact hmark rest hrest
  · rw [readScale?_plain _ _ (not_exists.mp hpoint)] at h
    obtain ⟨htaken, hmark⟩ := readMark?_local h
    refine ⟨htaken, fun rest hrest => ?_⟩
    rw [readScale?_plain, hmark rest hrest]
    intro r heq
    cases cs with
    | nil => exact absurd rfl (hrest '.' (by rw [← List.nil_append rest, heq]; rfl)).2.1
    | cons c cs => exact hpoint ⟨cs, congrArg (· :: cs) (List.cons.inj heq).1⟩

/-- The number of a significand that counts powers of ten, with its fraction and its exponent. -/
def toNumber? (negative : Bool) (significand shift : Nat) (scale : Option (Nat × Int)) :
    Option JsonNumber :=
  match scale with
  | some (m, e) => (Double.scaled? negative m e).map .double
  | none =>
    if shift > 0 then (Double.scaled? negative significand shift).map .double
    else if !negative then some (.natural significand)
    else if significand = 0 ∨ significand > twoPow 63 then
      some (.double (Double.ofRatio true significand 1))
    else some (.negative significand)

theorem readNumber?_eq (negative : Bool) (cs : List Char) :
  readNumber? negative cs
    = let ds := cs.takeWhile Char.isDigit
      if ds = [] ∨ (ds.head? = some '0' ∧ ds.length > 1) then none
      else
        let (significand, taken) := appendDigits 0 0 ds
        let shift := ds.length - taken
        (readScale? significand shift (cs.drop ds.length)).bind fun (scale, rest) =>
          (toNumber? negative significand shift scale).map fun n => (n, rest)
  := by
  simp only [readNumber?]
  split
  · rfl
  · congr 1
    funext ⟨scale, rest⟩
    simp only [toNumber?]
    cases scale with
    | some scale =>
        dsimp only
        cases Double.scaled? negative scale.1 scale.2 <;> rfl
    | none =>
        dsimp only
        split
        · cases Double.scaled? negative _ _ <;> rfl
        · split
          · rfl
          · split <;> rfl

/-- A number is read from what it starts with, whatever follows it. -/
theorem readNumber?_local {negative : Bool} {n : JsonNumber}
    (h : readNumber? negative cs = some (n, tail)) :
  Consumes cs tail ∧ ∀ rest, EndsNumber rest →
    readNumber? negative (cs ++ rest) = some (n, tail ++ rest)
  := by
  simp only [readNumber?_eq] at h ⊢
  split at h
  · cases h
  · rename_i hdigits
    obtain ⟨⟨scale, after⟩, hscale, h⟩ := Option.bind_eq_some_iff.mp h
    obtain ⟨m, hm, heq⟩ := Option.map_eq_some_iff.mp h
    cases heq
    obtain ⟨htaken, hlocal⟩ := readScale?_local hscale
    refine ⟨.digits htaken, fun rest hrest => ?_⟩
    rw [takeWhile_isDigit_append hrest.noDigit, drop_digits_append, if_neg hdigits,
      hlocal rest hrest, Option.bind_some, hm]
    rfl

/-- All digits of a number that 64 bits hold are appended. -/
theorem appendDigits_eq {ds : List Char} (seen : List Char)
    (h : ofDigits (seen ++ ds) < twoPow 64) :
  appendDigits (ofDigits seen) seen.length ds = (ofDigits (seen ++ ds), (seen ++ ds).length)
  := by
  induction ds generalizing seen with
  | nil => rw [List.append_nil, appendDigits]
  | cons c ds ih =>
      have hnext : 10 * ofDigits seen + digitValue c = ofDigits (seen ++ [c]) := by
        rw [ofDigits, ofDigits, List.foldl_append]
        rfl
      have hsplit : seen ++ c :: ds = seen ++ [c] ++ ds := by
        rw [List.append_assoc, List.singleton_append]
      have hle : ofDigits (seen ++ [c]) ≤ ofDigits (seen ++ [c] ++ ds) := by
        rw [ofDigits_append _ ds]
        exact Nat.le_add_right_of_le (Nat.le_mul_of_pos_right _ (Nat.pow_pos (by decide)))
      rw [hsplit] at h ⊢
      rw [appendDigits, hnext, if_pos (Nat.lt_of_le_of_lt hle h), ← ih (seen ++ [c]) h,
        List.length_append, List.length_singleton]

/-- An integer that 64 bits hold is read back. -/
theorem readNumber?_digits {n : Nat} (h : n < twoPow 64) (negative : Bool) :
  readNumber? negative (digits n)
    = if !negative then some (.natural n, [])
      else if n = 0 ∨ n > twoPow 63 then some (.double (Double.ofRatio true n 1), [])
      else some (.negative n, [])
  := by
  have hdigits : (digits n).takeWhile Char.isDigit = digits n :=
    List.takeWhile_eq_self_iff.mpr fun _ => digits_isDigit
  have hzero : ¬(digits n = [] ∨ ((digits n).head? = some '0' ∧ (digits n).length > 1)) := by
    rintro (hnil | ⟨hhead, hlength⟩)
    · exact digits_ne_nil n hnil
    · by_cases hn : n = 0
      · rw [hn] at hlength
        exact absurd hlength (by decide)
      · exact head?_digits hn hhead
  have happend : appendDigits 0 0 (digits n) = (n, (digits n).length) := by
    have hlimit : ofDigits ([] ++ digits n) < twoPow 64 := by
      rwa [List.nil_append, ofDigits_digits]
    have happend := appendDigits_eq [] hlimit
    rwa [List.nil_append, ofDigits_digits] at happend
  rw [readNumber?, hdigits, if_neg hzero, happend]
  simp only [List.drop_length, Nat.sub_self]
  rfl

/-! ### Strings -/

/-- Two hexadecimal digits are read back. -/
theorem hexValue4?_control {n : Nat} (h : n < 0x20) :
  hexValue4? '0' '0' (hexDigit (n / 16)) (hexDigit (n % 16)) = some n
  := by
  revert n
  decide

/-- Four hexadecimal digits that are no surrogate stand for their character, whatever follows. -/
theorem readString?_hex {a b c d : Char} {n : Nat} (hvalue : hexValue4? a b c d = some n)
    (hvalid : n < 0xD800) (seen rest : List Char) :
  readString? seen ('\\' :: 'u' :: a :: b :: c :: d :: rest)
    = readString? (Char.ofNat n :: seen) rest
  := by
  have hchar : n.isValidChar := .inl hvalid
  have hpair : ∀ low, surrogatePair? n low = none := fun low =>
    if_neg fun h => Nat.not_le_of_lt hvalid h.1
  rw [readString?.eq_def]
  split
  case h_1 heq => cases (List.cons.inj heq).1
  case h_2 heq =>
      cases heq
      simp only [hvalue, hpair, Option.bind_fun_none, if_pos hchar]
  case h_3 heq =>
      cases heq
      simp only [hvalue, if_pos hchar]
  case h_4 hshort heq =>
      cases heq
      exact (hshort a b c d rest rfl rfl).elim
  case h_5 hother heq =>
      cases heq
      exact (hother 'u' _ rfl rfl).elim
  case h_6 heq => cases heq

/-- A character of a string is read back. -/
theorem readString?_escapeChar (seen : List Char) (c : Char) (rest : List Char) :
  readString? seen (escapeChar c ++ rest) = readString? (c :: seen) rest
  := by
  rw [escapeChar]
  iterate 7
    split
    · subst c
      rfl
  split
  · rename_i hcontrol
    refine (readString?_hex (hexValue4?_control hcontrol) (Nat.lt_trans hcontrol (by decide)) seen
      rest).trans ?_
    rw [Char.ofNat_toNat]
  · rename_i hquote hescape _ _ _ _ _ hcontrol
    rw [List.singleton_append, readString?, if_neg hcontrol]
    · exact fun h => hquote h
    · exact fun _ _ _ _ _ _ _ _ _ h => absurd h hescape
    · exact fun _ _ _ _ _ h => absurd h hescape
    · exact fun _ _ h => absurd h hescape

/-- A string is read back up to its closing quote. -/
theorem readString?_quoted (seen cs rest : List Char) :
  readString? seen (cs.flatMap escapeChar ++ '"' :: rest)
    = some (String.ofList (seen.reverse ++ cs), rest)
  := by
  induction cs generalizing seen with
  | nil => rw [List.flatMap_nil, List.nil_append, readString?, List.append_nil]
  | cons c cs ih =>
      rw [List.flatMap_cons, List.append_assoc, readString?_escapeChar, ih, List.reverse_cons,
        List.append_assoc, List.singleton_append]

/-! ### Documents -/

/-- A number in its range: an integer of 64 bits, or a finite number in double precision that its
text is read back as. -/
def SoundNumber : JsonNumber → Prop
  | .natural n => n < twoPow 64
  | .negative n => 0 < n ∧ n ≤ twoPow 63
  | .double x => x.isNaN = false ∧ x.isInfinite = false
    ∧ readNumber? x.negative (x.magnitudeText JsonNumber.layout) = some (.double x, [])

/-- A document whose numbers are in their ranges, and whose members are in the order of their
keys. -/
inductive Sound : Json → Prop where
  | null : Sound .null
  | bool (b : Bool) : Sound (.bool b)
  | number {n : JsonNumber} (h : SoundNumber n) : Sound (.number n)
  | string (s : String) : Sound (.string s)
  | array {items : List Json} (h : ∀ j ∈ items, Sound j) : Sound (.array items)
  | object {members : List (String × Json)} (hkeys : (members.map Prod.fst).Pairwise (· < ·))
      (h : ∀ m ∈ members, Sound m.2) : Sound (.object members)

/-- A text that a number is read from starts with a digit. -/
theorem digit_of_readNumber? {negative : Bool} {n : JsonNumber}
    (h : readNumber? negative cs = some (n, tail)) :
  ∃ c ds, cs = c :: ds ∧ c.isDigit
  := by
  cases cs with
  | nil => cases h
  | cons c ds =>
      refine ⟨c, ds, rfl, ?_⟩
      by_contra hc
      rw [readNumber?, List.takeWhile_cons_of_neg hc] at h
      cases h

/-- A number is read back behind its sign. -/
theorem exists_number {n : JsonNumber} (h : SoundNumber n) :
  ∃ (negative : Bool) (c : Char) (cs : List Char), n.text.toList
      = (if negative then ['-'] else []) ++ c :: cs
    ∧ c.isDigit ∧ readNumber? negative (c :: cs) = some (n, [])
  := by
  cases n with
  | natural n =>
      obtain ⟨c, cs, hdigits, hc, _⟩ := digits_cons n
      refine ⟨false, c, cs, ?_, hc, ?_⟩
      · rw [JsonNumber.text, String.toList_ofList, hdigits]
        rfl
      · rw [← hdigits, readNumber?_digits h]
        rfl
  | negative n =>
      obtain ⟨c, cs, hdigits, hc, _⟩ := digits_cons n
      refine ⟨true, c, cs, ?_, hc, ?_⟩
      · rw [JsonNumber.text, String.toList_ofList, hdigits]
        rfl
      · have hbig : n < twoPow 64 := Nat.lt_of_le_of_lt h.2 (by decide)
        rw [← hdigits, readNumber?_digits hbig, if_neg (by decide), if_neg]
        rw [not_or]
        exact ⟨Nat.ne_of_gt h.1, Nat.not_lt_of_le h.2⟩
  | double x =>
      obtain ⟨hnan, hinfinite, hread⟩ := h
      obtain ⟨c, cs, hdigits, hc⟩ := digit_of_readNumber? hread
      refine ⟨x.negative, c, cs, ?_, hc, hdigits ▸ hread⟩
      rw [JsonNumber.text, Double.text, hnan, hinfinite, ← hdigits]
      exact String.toList_ofList

/-! ### White space -/

/-- White space. -/
abbrev IsSpace (c : Char) : Prop :=
  ((c = ' ' ∨ c = '\n') ∨ c = '\t') ∨ c = '\r'

theorem skipSpace_cons {c : Char} (h : ¬IsSpace c) :
  skipSpace (c :: cs) = c :: cs
  := by
  rw [skipSpace, List.dropWhile_cons_of_neg]
  simpa using h

theorem skipSpace_append {pad : List Char} (h : ∀ c ∈ pad, IsSpace c) :
  skipSpace (pad ++ cs) = skipSpace cs
  := by
  induction pad with
  | nil => rfl
  | cons c pad ih =>
      rw [List.cons_append, skipSpace, List.dropWhile_cons_of_pos]
      · exact ih fun d hd => h d (List.mem_cons_of_mem c hd)
      · simpa using h c List.mem_cons_self

/-- The break and the spaces in front of a line. -/
def padding (depth : Nat) : List Char :=
  '\n' :: List.replicate (2 * depth) ' '

theorem padding_isSpace {depth : Nat} {c : Char} (h : c ∈ padding depth) :
  IsSpace c
  := by
  rcases List.mem_cons.mp h with rfl | h
  · decide
  · rw [(List.mem_replicate.mp h).2]
    decide

theorem length_padding (depth : Nat) :
  (padding depth).length = 2 * depth + 1
  := by
  rw [padding, List.length_cons, List.length_replicate]

theorem padding_endsNumber (depth : Nat) :
  EndsNumber (padding depth ++ rest)
  := by
  intro c hc
  obtain rfl : '\n' = c := Option.some.inj hc
  decide

/-- Parts on lines of their own. -/
def joined (depth : Nat) (parts : List String) : List Char :=
  (joinWith ("," ++ ("\n" ++ spaces (2 * depth))) parts).toList

theorem joined_singleton (depth : Nat) (part : String) :
  joined depth [part] = part.toList
  := rfl

theorem joined_cons (depth : Nat) (first second : String) (parts : List String) :
  joined depth (first :: second :: parts)
    = first.toList ++ ',' :: (padding depth ++ joined depth (second :: parts))
  := by
  rw [joined, joinWith]
  · simp only [String.toList_append, spaces, String.toList_ofList, joined, padding,
      List.append_assoc]
    rfl
  · exact List.cons_ne_nil _ _

/-- The parts of an array or of an object stand between its marks. -/
theorem toList_block (opening closing : String) (depth : Nat) {parts : List String}
    (h : parts ≠ []) :
  (block opening closing depth parts).toList
    = opening.toList ++ (padding (depth + 1) ++ (joined (depth + 1) parts
      ++ (padding depth ++ closing.toList)))
  := by
  rw [block, if_neg h]
  simp only [String.toList_append, spaces, String.toList_ofList, joined, padding, List.append_assoc]
  rfl

/-- An array or an object starts with its opening mark. -/
theorem exists_block (opening closing : String) (depth : Nat) (parts : List String) :
  ∃ cs, (block opening closing depth parts).toList = opening.toList ++ cs
  := by
  by_cases h : parts = []
  · rw [block, if_pos h, String.toList_append]
    exact ⟨_, rfl⟩
  · rw [toList_block _ _ _ h]
    exact ⟨_, rfl⟩

theorem prettyItems_eq (depth : Nat) (items : List Json) :
  prettyItems depth items = items.map (prettyAt depth)
  := by
  induction items with
  | nil => rfl
  | cons item items ih => rw [prettyItems, ih, List.map_cons]

theorem prettyMembers_eq (depth : Nat) (members : List (String × Json)) :
  prettyMembers depth members
    = members.map fun m => quote m.1 ++ ": " ++ m.2.prettyAt depth
  := by
  induction members with
  | nil => rfl
  | cons m members ih => rw [prettyMembers, ih, List.map_cons]

/-! ### Documents -/

/-- The text starts a document: with neither white space nor a closing mark. -/
def StartsDocument (cs : List Char) : Prop :=
  ∃ c rest, cs = c :: rest ∧ ¬IsSpace c ∧ c ≠ ']' ∧ c ≠ '\x7d'

theorem StartsDocument.append (h : StartsDocument cs) :
  StartsDocument (cs ++ rest)
  := by
  obtain ⟨c, ds, rfl, hc⟩ := h
  exact ⟨c, ds ++ rest, rfl, hc⟩

theorem StartsDocument.skipSpace (h : StartsDocument cs) :
  skipSpace cs = cs
  := by
  obtain ⟨c, ds, rfl, hc⟩ := h
  exact skipSpace_cons hc.1

theorem startsDocument_prettyAt (hj : Sound j) (depth : Nat) :
  StartsDocument (j.prettyAt depth).toList
  := by
  cases hj with
  | null =>
      rw [prettyAt]
      exact ⟨'n', "ull".toList, by decide, by decide⟩
  | bool b =>
      cases b with
      | false =>
          rw [prettyAt]
          exact ⟨'f', "alse".toList, by decide, by decide⟩
      | true =>
          rw [prettyAt]
          exact ⟨'t', "rue".toList, by decide, by decide⟩
  | number h =>
      obtain ⟨negative, c, cs, htext, hc, _⟩ := exists_number h
      rw [prettyAt, htext]
      cases negative with
      | true => exact ⟨'-', _, rfl, by decide⟩
      | false =>
          exact ⟨c, cs, rfl, digit_induction (P := fun c => ¬IsSpace c ∧ c ≠ ']' ∧ c ≠ '\x7d')
            (by decide) hc⟩
  | string s =>
      rw [prettyAt, quote, String.toList_ofList]
      exact ⟨'"', _, rfl, by decide⟩
  | array h =>
      rw [prettyAt]
      obtain ⟨cs, hcs⟩ := exists_block "[" "]" depth (prettyItems (depth + 1) _)
      exact ⟨'[', cs, hcs, by decide⟩
  | object hkeys h =>
      rw [prettyAt]
      obtain ⟨cs, hcs⟩ := exists_block "\x7b" "\x7d" depth (prettyMembers (depth + 1) _)
      exact ⟨'\x7b', cs, hcs, by decide⟩

/-- The document is read back from what it is written as, whatever follows that does not go on
with a number. -/
def ReadsBack (j : Json) : Prop :=
  ∀ depth fuel cs rest, skipSpace cs = (j.prettyAt depth).toList ++ rest →
    ((j.prettyAt depth).toList ++ rest).length < fuel → EndsNumber rest →
      readValue? fuel cs = some (j, rest)

theorem EndsNumber.of_mark {c : Char} (h : c.isDigit = false ∧ c ≠ '.' ∧ c ≠ 'e' ∧ c ≠ 'E') :
  EndsNumber (c :: rest)
  := by
  intro d hd
  obtain rfl : c = d := Option.some.inj hd
  exact h

/-- White space in front of a closing mark is skipped. -/
theorem skipSpace_closing {c : Char} (h : ¬IsSpace c) (depth : Nat) :
  skipSpace (padding depth ++ c :: rest) = c :: rest
  := by
  rw [skipSpace_append fun _ => padding_isSpace, skipSpace_cons h]

theorem skipSpace_padding (h : StartsDocument cs) (depth : Nat) :
  skipSpace (padding depth ++ cs) = cs
  := by
  rw [skipSpace_append fun _ => padding_isSpace, h.skipSpace]

theorem startsDocument_joined {items : List Json} (hitems : ∀ j ∈ items, Sound j)
    (hne : items ≠ []) (depth : Nat) :
  StartsDocument (joined depth (prettyItems depth items))
  := by
  obtain ⟨item, items, rfl⟩ := List.exists_cons_of_ne_nil hne
  have hitem := startsDocument_prettyAt (hitems item List.mem_cons_self) depth
  rw [prettyItems_eq]
  cases items with
  | nil => exact hitem
  | cons next more =>
      rw [List.map_cons, List.map_cons, joined_cons]
      exact hitem.append

/-- The items of an array are read back up to its closing mark. -/
theorem readItems?_joined {items : List Json} (hitems : ∀ j ∈ items, Sound j)
    (hread : ∀ j ∈ items, ReadsBack j) (hne : items ≠ []) (depth fuel : Nat) (cs rest : List Char)
    (hskip : skipSpace cs = joined (depth + 1) (prettyItems (depth + 1) items)
      ++ (padding depth ++ ']' :: rest))
    (hfuel : (skipSpace cs).length + 1 < fuel) :
  readItems? fuel cs = some (items, rest)
  := by
  induction items generalizing fuel cs with
  | nil => exact absurd rfl hne
  | cons item items ih =>
      obtain ⟨fuel, rfl⟩ : ∃ n, fuel = n + 1 := ⟨fuel - 1, by omega⟩
      have hvalue := hread item List.mem_cons_self (depth + 1) fuel cs
      cases items with
      | nil =>
          rw [prettyItems, prettyItems, joined_singleton] at hskip
          rw [readItems?, hvalue _ hskip (by rw [← hskip]; omega) (padding_endsNumber depth)]
          simp only [Option.bind_eq_bind, Option.bind_some,
            skipSpace_closing (c := ']') (by decide)]
          rfl
      | cons next more =>
          have hitems' := (List.forall_mem_cons.mp hitems).2
          set text := joined (depth + 1) (prettyItems (depth + 1) (next :: more)) with htext
          have hskip' : skipSpace cs = (item.prettyAt (depth + 1)).toList
              ++ ',' :: (padding (depth + 1) ++ (text ++ (padding depth ++ ']' :: rest))) := by
            rw [hskip, htext, prettyItems_eq, prettyItems_eq, List.map_cons, List.map_cons,
              joined_cons, List.append_assoc, List.cons_append, List.append_assoc]
          have hstart : StartsDocument (text ++ (padding depth ++ ']' :: rest)) :=
            (startsDocument_joined hitems' (List.cons_ne_nil _ _) _).append
          have hnext := skipSpace_padding hstart (depth + 1)
          have hmore := ih hitems' (List.forall_mem_cons.mp hread).2 (List.cons_ne_nil _ _) fuel _
            hnext (by
              rw [hskip', List.length_append, List.length_cons, List.length_append] at hfuel
              rw [hnext]
              omega)
          rw [readItems?, hvalue _ hskip' (by rw [← hskip']; omega) (.of_mark (by decide))]
          simp only [Option.bind_eq_bind, Option.bind_some, skipSpace_cons (c := ',') (by decide),
            hmore]
          rfl

/-- A member is its key in quotes, a colon and its value. -/
theorem toList_member (depth : Nat) (key : String) (value : Json) :
  (quote key ++ ": " ++ value.prettyAt depth).toList
    = '"' :: (key.toList.flatMap escapeChar
      ++ '"' :: ':' :: ' ' :: (value.prettyAt depth).toList)
  := by
  simp only [String.toList_append, quote, String.toList_ofList, List.cons_append,
    List.append_assoc]
  rfl

theorem startsDocument_joinedMembers {members : List (String × Json)} (hne : members ≠ [])
    (depth : Nat) :
  StartsDocument (joined depth (prettyMembers depth members))
  := by
  obtain ⟨⟨key, value⟩, members, rfl⟩ := List.exists_cons_of_ne_nil hne
  have hmember : StartsDocument (quote key ++ ": " ++ value.prettyAt depth).toList := by
    rw [toList_member]
    exact ⟨'"', _, rfl, by decide⟩
  rw [prettyMembers_eq]
  cases members with
  | nil => exact hmember
  | cons next more =>
      rw [List.map_cons, List.map_cons, joined_cons]
      exact hmember.append

/-- A member is read back, and then what follows it. -/
theorem readMembers?_member {key : String} {value : Json} {depth fuel : Nat}
    (hvalue : Sound value) (hread : ReadsBack value)
    (hskip : skipSpace cs = '"' :: (key.toList.flatMap escapeChar
      ++ '"' :: ':' :: ' ' :: ((value.prettyAt depth).toList ++ tail)))
    (hfuel : (skipSpace cs).length < fuel) (htail : EndsNumber tail) :
  (∀ r, skipSpace tail = ',' :: r → readMembers? (fuel + 1) cs
      = (readMembers? fuel r).bind fun (members, r) => some ((key, value) :: members, r))
    ∧ ∀ r, skipSpace tail = '\x7d' :: r → readMembers? (fuel + 1) cs = some ([(key, value)], r)
  := by
  have hspace : skipSpace (' ' :: ((value.prettyAt depth).toList ++ tail))
      = (value.prettyAt depth).toList ++ tail := by
    have hblank : ∀ c ∈ [' '], IsSpace c := List.forall_mem_singleton.mpr (by decide)
    exact (skipSpace_append hblank).trans (startsDocument_prettyAt hvalue depth).append.skipSpace
  have hlength : ((value.prettyAt depth).toList ++ tail).length < fuel := by
    rw [hskip] at hfuel
    simp only [List.length_cons, List.length_append] at hfuel ⊢
    omega
  rw [readMembers?, hskip]
  simp only [readString?_quoted, Option.bind_eq_bind, Option.bind_some, List.reverse_nil,
    List.nil_append, String.ofList_toList, skipSpace_cons (c := ':') (by decide),
    hread depth fuel _ tail hspace hlength htail]
  constructor
  · intro r hr
    rw [hr]
    rfl
  · intro r hr
    rw [hr]
    rfl

/-- The members of an object are read back up to its closing mark. -/
theorem readMembers?_joined {members : List (String × Json)} (hmembers : ∀ m ∈ members, Sound m.2)
    (hread : ∀ m ∈ members, ReadsBack m.2) (hne : members ≠ []) (depth fuel : Nat)
    (cs rest : List Char)
    (hskip : skipSpace cs = joined (depth + 1) (prettyMembers (depth + 1) members)
      ++ (padding depth ++ '\x7d' :: rest))
    (hfuel : (skipSpace cs).length + 1 < fuel) :
  readMembers? fuel cs = some (members, rest)
  := by
  induction members generalizing fuel cs with
  | nil => exact absurd rfl hne
  | cons m members ih =>
      obtain ⟨key, value⟩ := m
      obtain ⟨fuel, rfl⟩ : ∃ n, fuel = n + 1 := ⟨fuel - 1, by omega⟩
      have hvalue := hmembers _ List.mem_cons_self
      have hback := hread _ List.mem_cons_self
      cases members with
      | nil =>
          rw [prettyMembers, prettyMembers, joined_singleton, toList_member] at hskip
          simp only [List.cons_append, List.append_assoc] at hskip
          exact (readMembers?_member hvalue hback hskip (by omega)
            (padding_endsNumber depth)).2 rest (skipSpace_closing (by decide) depth)
      | cons next more =>
          have hmembers' := (List.forall_mem_cons.mp hmembers).2
          set text := joined (depth + 1) (prettyMembers (depth + 1) (next :: more)) with htext
          have hskip' : skipSpace cs = '"' :: (key.toList.flatMap escapeChar
              ++ '"' :: ':' :: ' ' :: ((value.prettyAt (depth + 1)).toList ++ ','
                :: (padding (depth + 1) ++ (text ++ (padding depth ++ '\x7d' :: rest))))) := by
            rw [hskip, htext, prettyMembers_eq, prettyMembers_eq, List.map_cons, List.map_cons,
              joined_cons, toList_member]
            simp only [List.cons_append, List.append_assoc]
          have hstart : StartsDocument (text ++ (padding depth ++ '\x7d' :: rest)) :=
            (startsDocument_joinedMembers (List.cons_ne_nil _ _) _).append
          have hnext := skipSpace_padding hstart (depth + 1)
          have hmore := ih hmembers' (List.forall_mem_cons.mp hread).2 (List.cons_ne_nil _ _) fuel
            _ hnext (by
              rw [hskip'] at hfuel
              simp only [List.length_cons, List.length_append] at hfuel
              rw [hnext, List.length_append]
              simp only [List.length_cons, List.length_append]
              omega)
          rw [(readMembers?_member hvalue hback hskip' (by omega) (.of_mark (by decide))).1 _
            (skipSpace_cons (by decide)), hmore, Option.bind_some]

/-! ### Objects -/

/-- A member whose key is behind all others is put at the end. -/
theorem insertMember_last {key : String} {value : Json} {members : List (String × Json)}
    (h : ∀ m ∈ members, m.1 < key) :
  insertMember key value members = members ++ [(key, value)]
  := by
  induction members with
  | nil => rfl
  | cons m members ih =>
      obtain ⟨hm, hmembers⟩ := List.forall_mem_cons.mp h
      rw [insertMember, if_neg (lt_asymm hm), if_neg (ne_of_gt hm), ih hmembers, List.cons_append]

/-- Members in the order of their keys make an object as they are. -/
theorem ofMembers_sorted {members : List (String × Json)}
    (h : (members.map Prod.fst).Pairwise (· < ·)) :
  ofMembers members = .object members
  := by
  have hfold : ∀ seen : List (String × Json), (∀ s ∈ seen, ∀ m ∈ members, s.1 < m.1) →
      members.foldl (fun sorted m => insertMember m.1 m.2 sorted) seen = seen ++ members := by
    induction members with
    | nil => exact fun seen _ => (List.append_nil seen).symm
    | cons m members ih =>
        intro seen hseen
        obtain ⟨hm, hmembers⟩ := List.pairwise_cons.mp h
        rw [List.foldl_cons, insertMember_last fun s hs => hseen s hs m List.mem_cons_self,
          ih hmembers, List.append_assoc]
        · rfl
        · intro s hs m' hm'
          rcases List.mem_append.mp hs with hs | hs
          · exact hseen s hs m' (List.mem_cons_of_mem m hm')
          · rw [List.mem_singleton.mp hs]
            exact hm m'.1 (List.mem_map_of_mem hm')
  rw [ofMembers, hfold [] (fun _ hs => absurd hs List.not_mem_nil), List.nil_append]

/-! ### The whole document -/

attribute [local simp] readValue?

/-- A text that starts with a digit is read as a number. -/
theorem readValue?_digit {c : Char} {fuel : Nat} (hc : c.isDigit)
    (hskip : skipSpace cs = c :: rest) :
  readValue? (fuel + 1) cs = (readNumber? false (c :: rest)).map fun (n, r) => (.number n, r)
  := by
  have hmark : ∀ {d : Char} {ds : List Char}, c :: rest = d :: ds → d.isDigit = false → False := by
    intro d ds heq hd
    rw [← (List.cons.inj heq).1, hc] at hd
    cases hd
  rw [readValue?, hskip]
  split
  case h_8 => rfl
  all_goals
    rename_i heq
    exact (hmark heq (by decide)).elim

/-- An array that is not empty is read item by item. -/
theorem readValue?_array {text : List Char} {fuel : Nat} (hskip : skipSpace cs = '[' :: rest)
    (htext : skipSpace rest = text) (hstart : StartsDocument text) :
  readValue? (fuel + 1) cs = (readItems? fuel text).map fun (items, r) => (.array items, r)
  := by
  obtain ⟨c, ds, rfl, _, hclose, _⟩ := hstart
  rw [readValue?, hskip]
  simp only [htext]
  split
  case h_1 heq => exact absurd (List.cons.inj heq).1 hclose
  case h_2 => rfl

/-- An object that is not empty is read member by member. -/
theorem readValue?_object {text : List Char} {fuel : Nat} (hskip : skipSpace cs = '\x7b' :: rest)
    (htext : skipSpace rest = text) (hstart : StartsDocument text) :
  readValue? (fuel + 1) cs
    = (readMembers? fuel text).map fun (members, r) => (ofMembers members, r)
  := by
  obtain ⟨c, ds, rfl, _, _, hclose⟩ := hstart
  rw [readValue?, hskip]
  simp only [htext]
  split
  case h_1 heq => exact absurd (List.cons.inj heq).1 hclose
  case h_2 => rfl

theorem readsBack_array {items : List Json} (hitems : ∀ j ∈ items, Sound j)
    (hread : ∀ j ∈ items, ReadsBack j) :
  ReadsBack (.array items)
  := by
  intro depth fuel cs rest hskip hfuel _
  obtain ⟨fuel, rfl⟩ : ∃ n, fuel = n + 1 := ⟨fuel - 1, by omega⟩
  rw [← hskip] at hfuel
  rw [prettyAt] at hskip
  by_cases hne : items = []
  · subst hne
    rw [prettyItems, block, if_pos rfl] at hskip
    rw [readValue?, hskip]
    rfl
  · have hparts : prettyItems (depth + 1) items ≠ [] := by
      rw [prettyItems_eq]
      exact mt List.map_eq_nil_iff.mp hne
    have hskip : skipSpace cs = '[' :: (padding (depth + 1)
        ++ (joined (depth + 1) (prettyItems (depth + 1) items)
          ++ (padding depth ++ ']' :: rest))) := by
      rw [hskip, toList_block _ _ _ hparts]
      simp only [List.append_assoc]
      rfl
    have hstart : StartsDocument (joined (depth + 1) (prettyItems (depth + 1) items)
        ++ (padding depth ++ ']' :: rest)) :=
      (startsDocument_joined hitems hne (depth + 1)).append
    rw [readValue?_array hskip (skipSpace_padding hstart _) hstart,
      readItems?_joined hitems hread hne depth fuel _ rest hstart.skipSpace]
    · rfl
    · rw [hskip, List.length_cons, List.length_append, length_padding] at hfuel
      rw [hstart.skipSpace]
      omega

theorem readsBack_object {members : List (String × Json)}
    (hkeys : (members.map Prod.fst).Pairwise (· < ·)) (hmembers : ∀ m ∈ members, Sound m.2)
    (hread : ∀ m ∈ members, ReadsBack m.2) :
  ReadsBack (.object members)
  := by
  intro depth fuel cs rest hskip hfuel _
  obtain ⟨fuel, rfl⟩ : ∃ n, fuel = n + 1 := ⟨fuel - 1, by omega⟩
  rw [← hskip] at hfuel
  rw [prettyAt] at hskip
  by_cases hne : members = []
  · subst hne
    rw [prettyMembers, block, if_pos rfl] at hskip
    rw [readValue?, hskip]
    rfl
  · have hparts : prettyMembers (depth + 1) members ≠ [] := by
      rw [prettyMembers_eq]
      exact mt List.map_eq_nil_iff.mp hne
    have hskip : skipSpace cs = '\x7b' :: (padding (depth + 1)
        ++ (joined (depth + 1) (prettyMembers (depth + 1) members)
          ++ (padding depth ++ '\x7d' :: rest))) := by
      rw [hskip, toList_block _ _ _ hparts]
      simp only [List.append_assoc]
      rfl
    have hstart : StartsDocument (joined (depth + 1) (prettyMembers (depth + 1) members)
        ++ (padding depth ++ '\x7d' :: rest)) :=
      (startsDocument_joinedMembers hne (depth + 1)).append
    rw [readValue?_object hskip (skipSpace_padding hstart _) hstart,
      readMembers?_joined hmembers hread hne depth fuel _ rest hstart.skipSpace]
    · exact congrArg (fun j => some (j, rest)) (ofMembers_sorted hkeys)
    · rw [hskip, List.length_cons, List.length_append, length_padding] at hfuel
      rw [hstart.skipSpace]
      omega

/-- Documents are read back. -/
theorem Sound.readsBack (hj : Sound j) :
  ReadsBack j
  := by
  induction hj with
  | null =>
      intro depth fuel cs rest hskip hfuel _
      obtain ⟨fuel, rfl⟩ : ∃ n, fuel = n + 1 := ⟨fuel - 1, by omega⟩
      rw [prettyAt] at hskip
      simp [hskip]
  | bool b =>
      intro depth fuel cs rest hskip hfuel _
      obtain ⟨fuel, rfl⟩ : ∃ n, fuel = n + 1 := ⟨fuel - 1, by omega⟩
      cases b <;> rw [prettyAt] at hskip <;> simp [hskip]
  | number h =>
      intro depth fuel cs rest hskip hfuel hrest
      obtain ⟨fuel, rfl⟩ : ∃ n, fuel = n + 1 := ⟨fuel - 1, by omega⟩
      obtain ⟨negative, c, ds, htext, hc, hread⟩ := exists_number h
      have hread := (readNumber?_local hread).2 rest hrest
      rw [prettyAt, htext, List.append_assoc] at hskip
      cases negative with
      | false => exact (readValue?_digit hc hskip).trans (congrArg _ hread)
      | true =>
          rw [readValue?, hskip]
          exact congrArg (Option.map _) hread
  | string s =>
      intro depth fuel cs rest hskip hfuel _
      obtain ⟨fuel, rfl⟩ : ∃ n, fuel = n + 1 := ⟨fuel - 1, by omega⟩
      have hread := readString?_quoted [] s.toList rest
      rw [List.reverse_nil, List.nil_append, String.ofList_toList] at hread
      rw [prettyAt, quote, String.toList_ofList, List.append_assoc, List.cons_append] at hskip
      rw [readValue?, hskip]
      exact congrArg (Option.map _) hread
  | array hitems ih => exact readsBack_array hitems ih
  | object hkeys hmembers ih => exact readsBack_object hkeys hmembers ih

/-- A document is read back from what it is written as. -/
theorem parse?_pretty (hj : Sound j) :
  parse? j.pretty = some j
  := by
  have hskip : skipSpace j.pretty.toList = (j.prettyAt 0).toList ++ [] := by
    rw [List.append_nil, pretty, (startsDocument_prettyAt hj 0).skipSpace]
  have hread := hj.readsBack 0 (j.pretty.toList.length + 1) j.pretty.toList [] hskip
    (by rw [List.append_nil, pretty]; exact Nat.lt_succ_self _) fun c hc => absurd hc (by simp)
  rw [parse?, hread]
  rfl

end RelSql.Json
