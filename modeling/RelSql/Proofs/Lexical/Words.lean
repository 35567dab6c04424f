import RelSql.Proofs.Lexical.Token
import RelSql.Proofs.Number.Digits
import RelSql.Render.Word
import RelSql.AliasScope

/-!
# Words

Quoted names, strings and numbers are each read as one word.  A text between quotes is, as
soon as it closes: the last mark is the first one that neither follows a backslash nor stands
twice.
-/

namespace RelSql.Sql

open Text Number

/-- Whether a text ends with the mark that closes it, after an opening one: a mark within the
text stands twice, or follows a backslash. -/
def closes (q : Quote) : List Char → Bool
  | [] => false
  | [c] => c = q.char
  | c :: d :: rest =>
    if c = q.char then d = q.char && closes q rest
    else if c = '\\' then closes q rest
    else closes q (d :: rest)

/-- A text that is read as one word. -/
def IsWord (cs : List Char) : Prop :=
  ∃ shape, Scan.initial.run cs = ⟨.word shape cs, [], []⟩

/-- A text that is read as one word, and as no keyword other than `NULL`. -/
structure IsAtom (cs : List Char) : Prop where
  word : IsWord cs
  keyword : Keyword.read? cs = none ∨ cs = "NULL".toList

/-- A number without a sign. -/
structure IsNumeral (cs : List Char) : Prop where
  word : IsWord cs
  digit : ∃ c, cs.head? = some c ∧ c.isDigit

theorem IsWord.spells {text : String} (h : IsWord text.toList) :
  Spells text [.ofWord text.toList]
  := by
  obtain ⟨shape, hrun⟩ := h
  rw [Spells, hrun]
  rfl

/-! ### Characters -/

theorem Role.of_digit {c : Char} (hc : c.isDigit) :
  Role.of c = .other
  := digit_induction (P := fun c => Role.of c = .other) (by decide) hc

theorem Role.of_quote (q : Quote) :
  Role.of q.char = .mark q
  := by
  cases q <;> rfl

namespace Scan

variable {tokens : List Token} {outer : List (List Token)}

/-- A plain word goes on with characters that stand for themselves. -/
theorem run_plain {cs : List Char} (h : ∀ c ∈ cs, Role.of c = .other) :
    ∀ word, run ⟨.word .plain word, tokens, outer⟩ cs = ⟨.word .plain (word ++ cs), tokens, outer⟩ := by
  induction cs with
  | nil => exact fun word => by rw [List.append_nil, run_nil]
  | cons c cs ih =>
      intro word
      have hstep : step ⟨.word .plain word, tokens, outer⟩ c
          = ⟨.word .plain (word ++ [c]), tokens, outer⟩ := by
        rw [step_word, h c List.mem_cons_self]
        rfl
      rw [run_cons, hstep, ih (fun d hd => h d (List.mem_cons_of_mem c hd)), List.append_assoc,
        List.singleton_append]

/-- A number goes on with digits and points. -/
theorem run_places {cs : List Char} (h : ∀ c ∈ cs, c.isDigit ∨ c = '.') :
    ∀ word, run ⟨.word .number word, tokens, outer⟩ cs = ⟨.word .number (word ++ cs), tokens, outer⟩ := by
  induction cs with
  | nil => exact fun word => by rw [List.append_nil, run_nil]
  | cons c cs ih =>
      intro word
      have hstep : step ⟨.word .number word, tokens, outer⟩ c
          = ⟨.word .number (word ++ [c]), tokens, outer⟩ := by
        rcases h c List.mem_cons_self with hc | rfl
        · rw [step_word, Role.of_digit hc, goOnAs, Shape.next, if_neg]
          rintro (rfl | rfl) <;> exact absurd hc (by decide)
        · rfl
      rw [run_cons, hstep, ih (fun d hd => h d (List.mem_cons_of_mem c hd)), List.append_assoc,
        List.singleton_append]

/-- What stands in quotes belongs to the word, up to the mark that closes it. -/
theorem run_quoted {q : Quote} (cs : List Char) (h : closes q cs) :
    ∀ word, run ⟨.quoted q word, tokens, outer⟩ cs = ⟨.word .plain (word ++ cs), tokens, outer⟩ := by
  fun_induction closes q cs with
  | case1 => cases h
  | case2 c =>
      intro word
      rw [run_cons, run_nil, step_quoted, if_pos (of_decide_eq_true h)]
  | case3 d rest ih =>
      intro word
      rw [Bool.and_eq_true, decide_eq_true_eq] at h
      obtain ⟨rfl, hrest⟩ := h
      rw [run_cons, step_quoted, if_pos rfl, run_cons, step_word, Role.of_quote, goOnAs,
        ih hrest]
      simp only [List.append_assoc, List.cons_append, List.nil_append]
  | case4 d rest hmark ih =>
      intro word
      rw [run_cons, step_quoted, if_neg hmark, if_pos rfl, run_cons, step_escaped, ih h]
      simp only [List.append_assoc, List.cons_append, List.nil_append]
  | case5 c d rest hmark hescape ih =>
      intro word
      rw [run_cons, step_quoted, if_neg hmark, if_neg hescape, ih h, List.append_assoc,
        List.singleton_append]

end Scan

/-! ### Quoted texts -/

/-- A text that closes after its first mark is one word. -/
theorem isWord_of_closes {q : Quote} {cs : List Char} (h : closes q cs) :
  IsWord (q.char :: cs)
  := by
  refine ⟨.plain, ?_⟩
  rw [Scan.run_cons, Scan.initial, Scan.step_between, Role.of_quote, Scan.startAs,
    Scan.run_quoted cs h]
  rfl

/-- A text without marks and backslashes closes with the next mark. -/
theorem closes_of_plain {q : Quote} {cs : List Char} (h : ∀ c ∈ cs, c ≠ q.char ∧ c ≠ '\\') :
  closes q (cs ++ [q.char])
  := by
  induction cs with
  | nil => exact decide_eq_true rfl
  | cons c cs ih =>
      obtain ⟨hmark, hescape⟩ := h c List.mem_cons_self
      have hrest := ih fun d hd => h d (List.mem_cons_of_mem c hd)
      cases cs with
      | nil =>
          simp only [List.cons_append, List.nil_append, closes, if_neg hmark, if_neg hescape,
            decide_true]
      | cons d rest =>
          rw [List.cons_append, List.cons_append, closes, if_neg hmark, if_neg hescape]
          exact hrest

/-- A name whose quotes close at its end. -/
def Named (name : String) : Prop :=
  closes .back (Render.escapeName '\x00' name.toList ++ [Quote.back.char])

instance (name : String) : Decidable (Named name) :=
  inferInstanceAs (Decidable (closes _ _ = true))

/-- A string whose quotes close at its end. -/
def Enclosed (s : String) : Prop :=
  closes .single (Render.escapeString s.toList ++ [Quote.single.char])

instance (s : String) : Decidable (Enclosed s) :=
  inferInstanceAs (Decidable (closes _ _ = true))

/-- A word with a mark in it is an atom. -/
theorem IsWord.atom {cs : List Char} (h : IsWord cs) {q : Quote} (hq : q.char ∈ cs) :
  IsAtom cs
  := ⟨h, .inl (Keyword.read?_eq_none hq (by cases q <;> rfl))⟩

theorem isAtom_of_closes {q : Quote} {cs : List Char} (h : closes q cs) :
  IsAtom (q.char :: cs)
  := (isWord_of_closes h).atom List.mem_cons_self

theorem isAtom_quoted {name : String} (h : Named name) :
  IsAtom (Render.quoted name).toList
  := by
  rw [Render.quoted, String.toList_ofList]
  exact isAtom_of_closes h

theorem isAtom_stringLiteral {s : String} (h : Enclosed s) :
  IsAtom (Render.stringLiteral s).toList
  := by
  rw [Render.stringLiteral, String.toList_ofList]
  exact isAtom_of_closes h

/-- A name after the label of its table. -/
theorem isAtom_column {label name : String} (hlabel : ∃ n, label = AliasScope.aliasText n)
    (h : Named name) :
  IsAtom (label ++ "." ++ Render.quoted name).toList
  := by
  obtain ⟨n, rfl⟩ := hlabel
  have hchars : ∀ c ∈ digits n ++ ['.'], Role.of c = .other := by
    intro c hc
    rcases List.mem_append.mp hc with hc | hc
    · exact Role.of_digit (Nat.isDigit_of_mem_toDigits (by decide) (by decide) hc)
    · rw [List.mem_singleton.mp hc]
      rfl
  have htext : (AliasScope.aliasText n ++ "." ++ Render.quoted name).toList
      = 't' :: ((digits n ++ ['.'])
        ++ Quote.back.char :: (Render.escapeName '\x00' name.toList ++ [Quote.back.char])) := by
    simp only [String.toList_append, AliasScope.aliasText, Render.quoted, String.toList_ofList,
      List.cons_append, List.append_assoc]
    rfl
  refine IsWord.atom (q := .back) ⟨.plain, ?_⟩ (by simp [htext])
  rw [htext, Scan.run_cons, show Scan.initial.step 't' = ⟨.word .plain ['t'], [], []⟩ from rfl,
    Scan.run_append, Scan.run_plain hchars, Scan.run_cons, Scan.step_word, Role.of_quote,
    Scan.goOnAs, Scan.run_quoted _ h]
  simp only [List.append_assoc, List.cons_append, List.nil_append]

/-! ### Numbers -/

/-- A number with or without a sign. -/
def IsSigned (cs : List Char) : Prop :=
  ∃ ds, IsNumeral ds ∧ (cs = ds ∨ cs = '-' :: ds)

/-- A number is no keyword. -/
theorem IsNumeral.read?_eq_none {cs : List Char} (h : IsNumeral cs) :
  Keyword.read? cs = none
  := by
  obtain ⟨c, hfirst, hc⟩ := h.digit
  obtain ⟨ds, rfl⟩ := List.head?_eq_some_iff.mp hfirst
  exact Keyword.read?_eq_none List.mem_cons_self
    (digit_induction (P := fun c => (lowerChar c).isLower = false) (by decide) hc)

theorem Scan.step_digit {c : Char} (hc : c.isDigit) :
  initial.step c = ⟨.word .number [c], [], []⟩
  := by
  rw [initial, step_between, Role.of_digit hc, startAs, Shape.first, if_pos hc]

theorem isNumeral_of_places {c : Char} {cs : List Char} (hc : c.isDigit)
    (h : ∀ d ∈ cs, d.isDigit ∨ d = '.') :
  IsNumeral (c :: cs)
  := by
  refine ⟨⟨.number, ?_⟩, c, rfl, hc⟩
  rw [Scan.run_cons, Scan.step_digit hc, Scan.run_places h, List.singleton_append]

theorem isNumeral_digits (n : Nat) :
  IsNumeral (digits n)
  := by
  obtain ⟨c, cs, hdigits, hc, hcs⟩ := digits_cons n
  rw [hdigits]
  exact isNumeral_of_places hc fun d hd => .inl (hcs d hd)

/-- An exponent goes on with a number that a sign may precede. -/
theorem Scan.run_exponent (word : List Char) (e : Int) :
  run ⟨.word .exponent word, [], []⟩ (Double.signedDigits e)
    = ⟨.word .number (word ++ Double.signedDigits e), [], []⟩
  := by
  obtain ⟨c, cs, hdigits, hc, hcs⟩ := digits_cons e.natAbs
  have hplaces : ∀ d ∈ c :: cs, d.isDigit ∨ d = '.' := by
    intro d hd
    rcases List.mem_cons.mp hd with rfl | hd
    · exact .inl hc
    · exact .inl (hcs d hd)
  rw [Double.signedDigits]
  split
  · rw [run_cons, step_word, show Role.of '-' = .minus from rfl, goOnAs, if_pos rfl, hdigits,
      run_places hplaces, List.append_assoc, List.singleton_append]
  · rw [hdigits, run_cons, step_word, Role.of_digit hc, goOnAs, Shape.next,
      run_places fun d hd => .inl (hcs d hd), List.append_assoc, List.singleton_append]

theorem isNumeral_scientific {c : Char} (hc : c.isDigit) {cs : List Char}
    (h : ∀ d ∈ cs, d.isDigit ∨ d = '.') (e : Int) :
  IsNumeral (c :: cs ++ 'e' :: Double.signedDigits e)
  := by
  refine ⟨⟨.number, ?_⟩, c, rfl, hc⟩
  have hmark : Scan.step ⟨.word .number ([c] ++ cs), [], []⟩ 'e'
      = ⟨.word .exponent ([c] ++ cs ++ ['e']), [], []⟩ := rfl
  rw [Scan.run_append, Scan.run_cons _ c, Scan.step_digit hc, Scan.run_places h, Scan.run_cons,
    hmark, Scan.run_exponent]
  simp only [List.append_assoc, List.cons_append, List.nil_append]

theorem isSigned_integerText (i : Int) :
  IsSigned (Value.integerText i).toList
  := by
  refine ⟨digits i.natAbs, isNumeral_digits _, ?_⟩
  rw [Value.integerText, String.toList_ofList, Double.signedDigits]
  split
  · exact .inr rfl
  · exact .inl rfl

/-- A decimal number is written with the digits of its mantissa, and a point in front of its
places. -/
theorem exists_places (d : Decimal) :
  ∃ whole places, d.text.toList
      = (if d.negative then ['-'] else []) ++ (whole ++ if d.scale = 0 then [] else '.' :: places)
    ∧ whole ≠ [] ∧ (∀ c ∈ whole ++ places, c.isDigit) ∧ places.length = d.scale
    ∧ ofDigits (whole ++ places) = d.mantissa
  := by
  have hlength := length_padded (d.scale + 1) d.mantissa
  have hdigits : ∀ c ∈ padded (d.scale + 1) d.mantissa, c.isDigit := fun c hc => padded_isDigit hc
  have hvalue := ofDigits_padded (d.scale + 1) d.mantissa
  generalize hds : padded (d.scale + 1) d.mantissa = ds at hlength hdigits hvalue
  refine ⟨ds.take (ds.length - d.scale), ds.drop (ds.length - d.scale), ?_, ?_, ?_, ?_, ?_⟩
  · simp only [Decimal.text, String.toList_ofList, hds, List.append_assoc]
  · apply List.ne_nil_of_length_pos
    rw [List.length_take]
    omega
  · rw [List.take_append_drop]
    exact hdigits
  · rw [List.length_drop]
    omega
  · rw [List.take_append_drop]
    exact hvalue

theorem isSigned_decimal (d : Decimal) :
  IsSigned d.text.toList
  := by
  obtain ⟨whole, places, htext, hwhole, hdigits, _⟩ := exists_places d
  obtain ⟨c, cs, rfl⟩ := List.exists_cons_of_ne_nil hwhole
  have hplaces : ∀ e ∈ cs ++ (if d.scale = 0 then [] else '.' :: places), e.isDigit ∨ e = '.' := by
    intro e he
    rcases List.mem_append.mp he with he | he
    · exact .inl (hdigits e (List.mem_cons_of_mem c (List.mem_append_left _ he)))
    · split at he
      · cases he
      · rcases List.mem_cons.mp he with rfl | he
        · exact .inr rfl
        · exact .inl (hdigits e (List.mem_append_right _ he))
  refine ⟨_, isNumeral_of_places (hdigits c List.mem_cons_self) hplaces, ?_⟩
  rw [htext]
  split
  · exact .inr rfl
  · exact .inl rfl

/-- Digits with a point among or beside them start with a digit. -/
theorem isNumeral_plain {c : Char} {cs : List Char} (hc : c.isDigit) (hcs : ∀ d ∈ cs, d.isDigit)
    (point : Bool) (p : Int) :
  IsNumeral (Double.plain point (c :: cs) p)
  := by
  rw [Double.plain]
  split
  · rw [List.cons_append, List.cons_append]
    apply isNumeral_of_places rfl
    intro d hd
    simp only [List.mem_cons, List.mem_append, List.mem_replicate] at hd
    rcases hd with rfl | ⟨_, rfl⟩ | rfl | hd
    · exact .inr rfl
    · exact .inl rfl
    · exact .inl hc
    · exact .inl (hcs d hd)
  · rename_i hpositive
    obtain ⟨n, hn⟩ : ∃ n, p.toNat = n + 1 := ⟨p.toNat - 1, by omega⟩
    split
    · rw [hn, List.take_succ_cons, List.drop_succ_cons]
      apply isNumeral_of_places hc
      intro d hd
      rcases List.mem_append.mp hd with hd | hd
      · exact .inl (hcs d (List.mem_of_mem_take hd))
      · rcases List.mem_cons.mp hd with rfl | hd
        · exact .inr rfl
        · exact .inl (hcs d (List.mem_of_mem_drop hd))
    · rw [List.cons_append, List.cons_append]
      apply isNumeral_of_places hc
      intro d hd
      simp only [List.mem_append, List.mem_replicate] at hd
      rcases hd with (hd | ⟨_, rfl⟩) | hd
      · exact .inl (hcs d hd)
      · exact .inl rfl
      · cases point with
        | false => cases hd
        | true =>
            rcases List.mem_cons.mp hd with rfl | hd
            · exact .inr rfl
            · exact .inl (List.mem_singleton.mp hd ▸ rfl)

/-- The magnitude of a finite number starts with a digit. -/
theorem isNumeral_magnitudeText (x : Double) :
  IsNumeral (Double.magnitudeText Value.doubleLayout x)
  := by
  rw [Double.magnitudeText]
  split
  · exact isNumeral_of_places rfl
      (List.forall_mem_cons.mpr ⟨.inr rfl, List.forall_mem_singleton.mpr (.inl rfl)⟩)
  · obtain ⟨d, k⟩ := Double.shortest Value.doubleLayout.tieUp x
    obtain ⟨c, cs, hdigits, hc, hcs⟩ := digits_cons d
    dsimp only
    rw [hdigits]
    split
    · exact isNumeral_plain hc hcs _ _
    · refine isNumeral_scientific hc ?_ _
      intro d hd
      split at hd
      · cases hd
      · rcases List.mem_cons.mp hd with rfl | hd
        · exact .inr rfl
        · exact .inl (hcs d hd)

theorem isSigned_double {x : Double} (hnan : x.isNaN = false) (hfinite : x.isInfinite = false) :
  IsSigned (x.text Value.doubleLayout).toList
  := by
  refine ⟨_, isNumeral_magnitudeText x, ?_⟩
  rw [Double.text, hnan, hfinite]
  simp only [Bool.false_eq_true, if_false, String.toList_ofList]
  cases x.negative with
  | false => exact .inl rfl
  | true => exact .inr rfl

/-! ### Dates and times -/

/-- The characters of dates and times are neither marks nor backslashes. -/
theorem isAtom_plainLiteral {s : String} (h : ∀ c ∈ s.toList, c ≠ '\'' ∧ c ≠ '\\') :
  IsAtom (Render.plainLiteral s).toList
  := by
  have htext : (Render.plainLiteral s).toList
      = Quote.single.char :: (s.toList ++ [Quote.single.char]) := by
    rw [Render.plainLiteral, String.toList_append, String.toList_append]
    rfl
  rw [htext]
  exact isAtom_of_closes (closes_of_plain h)

end RelSql.Sql
