import Mathlib.Data.List.Basic
import RelSql.Proofs.Lexical.Words
import RelSql.Proofs.Lexical.Literals
import RelSql.Proofs.Number.Shortest

/-!
# Distinct constants

Constants that differ are written differently.  A number is given by its sign, its digits and the
place of its point, a string by what is written between its quotes, and a date by its year, month
and day.  Times are written to the second, so that two of them within one second are written
alike.  Of the libraries that write dates, times and fixed point numbers no more is used than that
they write all their digits, with a sign where it is needed.
-/

namespace RelSql

open Number

/-! ### Signs -/

/-- A text starts with a digit. -/
def StartsWithDigit (cs : List Char) : Prop :=
  ∃ c rest, cs = c :: rest ∧ c.isDigit

/-- What precedes the first digit of a text is not part of what follows it. -/
theorem sign_injective {sign sign' cs cs' : List Char} (hsign : ∀ c ∈ sign, c.isDigit = false)
    (hsign' : ∀ c ∈ sign', c.isDigit = false) (hcs : StartsWithDigit cs)
    (hcs' : StartsWithDigit cs') (h : sign ++ cs = sign' ++ cs') :
  sign = sign' ∧ cs = cs'
  := by
  obtain ⟨c, rest, rfl, hc⟩ := hcs
  obtain ⟨c', rest', rfl, hc'⟩ := hcs'
  induction sign generalizing sign' with
  | nil =>
      cases sign' with
      | nil => exact ⟨rfl, h⟩
      | cons d sign' =>
          obtain ⟨rfl, _⟩ := List.cons.inj h
          exact absurd hc (by rw [hsign' c List.mem_cons_self]; decide)
  | cons d sign ih =>
      cases sign' with
      | nil =>
          obtain ⟨rfl, _⟩ := List.cons.inj h
          exact absurd hc' (by rw [hsign d List.mem_cons_self]; decide)
      | cons d' sign' =>
          obtain ⟨rfl, htail⟩ := List.cons.inj h
          obtain ⟨rfl, hrest⟩ := ih (fun c hc => hsign c (List.mem_cons_of_mem d hc))
            (fun c hc => hsign' c (List.mem_cons_of_mem d hc)) htail
          exact ⟨rfl, hrest⟩

/-- What precedes the first mark of a text is not part of what follows it. -/
theorem mark_injective {mark : Char} {cs cs' rest rest' : List Char} (hcs : mark ∉ cs)
    (hcs' : mark ∉ cs') (h : cs ++ mark :: rest = cs' ++ mark :: rest') :
  cs = cs' ∧ rest = rest'
  := by
  induction cs generalizing cs' with
  | nil =>
      cases cs' with
      | nil => exact ⟨rfl, (List.cons.inj h).2⟩
      | cons d cs' => exact absurd (List.cons.inj h).1 (List.ne_of_not_mem_cons hcs')
  | cons c cs ih =>
      cases cs' with
      | nil => exact absurd (List.cons.inj h).1.symm (List.ne_of_not_mem_cons hcs)
      | cons d cs' =>
          obtain ⟨rfl, htail⟩ := List.cons.inj h
          obtain ⟨rfl, hrest⟩ := ih (List.not_mem_of_not_mem_cons hcs)
            (List.not_mem_of_not_mem_cons hcs') htail
          exact ⟨rfl, hrest⟩

theorem digits_startsWithDigit (n : Nat) :
  StartsWithDigit (digits n)
  := by
  obtain ⟨c, cs, hdigits, hc, _⟩ := digits_cons n
  exact ⟨c, cs, hdigits, hc⟩

theorem minus_not_digit {b : Bool} {c : Char} (h : c ∈ if b then ['-'] else []) :
  c.isDigit = false
  := by
  cases b with
  | false => cases h
  | true => exact List.mem_singleton.mp h ▸ rfl

theorem minus_injective {b b' : Bool} (h : (if b then ['-'] else []) = if b' then ['-'] else []) :
  b = b'
  := by
  cases b <;> cases b' <;> first | rfl | cases h

/-! ### Numbers -/

/-- Integers are written differently. -/
theorem integerText_injective {i j : Int} (h : Value.integerText i = Value.integerText j) :
  i = j
  := by
  have hsigned : ∀ i : Int, Double.signedDigits i
      = (if decide (i < 0) then ['-'] else []) ++ digits i.natAbs := by
    intro i
    rw [Double.signedDigits]
    by_cases hi : i < 0 <;> simp [hi]
  have htext := String.ofList_injective h
  rw [hsigned, hsigned] at htext
  obtain ⟨hsign, hdigits⟩ := sign_injective (fun _ => minus_not_digit) (fun _ => minus_not_digit)
    (digits_startsWithDigit _) (digits_startsWithDigit _) htext
  have hneg := decide_eq_decide.mp (minus_injective hsign)
  have habs := digits_injective hdigits
  omega

theorem not_mem_of_isDigit {c : Char} {cs : List Char} (hcs : ∀ d ∈ cs, d.isDigit)
    (hc : c.isDigit = false) :
  c ∉ cs
  := fun h => absurd (hcs c h) (by rw [hc]; decide)

/-- The digits of a number, zeros in front being allowed. -/
structure DigitsOf (n : Nat) (ds : List Char) : Prop where
  nonempty : ds ≠ []
  digits : ∀ c ∈ ds, c.isDigit
  value : ofDigits ds = n

theorem digitsOf_digits (n : Nat) :
  DigitsOf n (digits n)
  := ⟨digits_ne_nil n, fun _ => digits_isDigit, ofDigits_digits n⟩

theorem digitsOf_padded {width : Nat} (hwidth : 0 < width) (n : Nat) :
  DigitsOf n (padded width n)
  := by
  refine ⟨?_, fun _ => padded_isDigit, ofDigits_padded width n⟩
  have hlength := length_padded width n
  exact List.ne_nil_of_length_pos (by omega)

namespace DigitsOf

variable {n n' : Nat} {ds ds' : List Char}

theorem startsWithDigit (h : DigitsOf n ds) (rest : List Char) :
  StartsWithDigit (ds ++ rest)
  := by
  obtain ⟨c, cs, rfl⟩ := List.exists_cons_of_ne_nil h.nonempty
  exact ⟨c, cs ++ rest, rfl, h.digits c List.mem_cons_self⟩

theorem not_mem (h : DigitsOf n ds) {c : Char} (hc : c.isDigit = false) :
  c ∉ ds
  := not_mem_of_isDigit h.digits hc

/-- Numbers in front of a mark are the same if their texts are. -/
theorem mark_injective (h : DigitsOf n ds) (h' : DigitsOf n' ds') {mark : Char}
    (hmark : mark.isDigit = false) {rest rest' : List Char}
    (heq : ds ++ mark :: rest = ds' ++ mark :: rest') :
  n = n' ∧ rest = rest'
  := by
  obtain ⟨rfl, hrest⟩ := RelSql.mark_injective (h.not_mem hmark) (h'.not_mem hmark) heq
  exact ⟨h.value.symm.trans h'.value, hrest⟩

end DigitsOf

/-- The sign of a year: years before the year zero have one, and those of more than four digits. -/
def yearSign (year : Int) : List Char :=
  if year < 0 then ['-'] else if year > 9999 then ['+'] else []

/-- A decimal number is written with the digits of its mantissa, a sign in front of them, and a
point in front of its places. -/
def WritesPlaces (d : Decimal) (text : String) : Prop :=
  ∃ whole places, text.toList
      = (if d.negative then ['-'] else []) ++ (whole ++ if d.scale = 0 then [] else '.' :: places)
    ∧ whole ≠ [] ∧ (∀ c ∈ whole ++ places, c.isDigit) ∧ places.length = d.scale
    ∧ ofDigits (whole ++ places) = d.mantissa

/-- What libraries of calendars and numbers are known for: a year has its sign and its digits, and
the other parts of a date or a time have their digits; a decimal number has all its places, and is
equal to itself. -/
structure Value.Library.Documented (L : Value.Library) : Prop where
  year : ∀ y, ∃ ds, L.year y = yearSign y ++ ds ∧ DigitsOf y.natAbs ds
  month : ∀ n, DigitsOf n (L.month n)
  day : ∀ n, DigitsOf n (L.day n)
  hour : ∀ n, DigitsOf n (L.hour n)
  minute : ∀ n, DigitsOf n (L.minute n)
  second : ∀ n, DigitsOf n (L.second n)
  decimal : ∀ d, WritesPlaces d (L.decimal d)
  same : ∀ d, L.sameDecimal d d = true

theorem Value.Library.documented_standard :
  Library.standard.Documented
  where
  year y := by
    show ∃ ds, Date.yearText y = yearSign y ++ ds ∧ _
    rw [Date.yearText, yearSign]
    split
    · exact ⟨_, rfl, digitsOf_padded (by decide) _⟩
    · split
      · exact ⟨_, rfl, digitsOf_digits _⟩
      · exact ⟨_, rfl, digitsOf_padded (by decide) _⟩
  month := digitsOf_padded (by decide)
  day := digitsOf_padded (by decide)
  hour := digitsOf_padded (by decide)
  minute := digitsOf_padded (by decide)
  second := digitsOf_padded (by decide)
  decimal := Sql.exists_places
  same d := by simp [standard, Decimal.equals]

/-- Decimal numbers that are written alike have the same places too. -/
theorem WritesPlaces.injective {d d' : Decimal} {text : String} (hd : WritesPlaces d text)
    (hd' : WritesPlaces d' text) :
  d = d'
  := by
  obtain ⟨whole, places, htext, hwhole, hdigits, hscale, hvalue⟩ := hd
  obtain ⟨whole', places', htext', hwhole', hdigits', hscale', hvalue'⟩ := hd'
  rw [List.forall_mem_append] at hdigits hdigits'
  have hstart : ∀ {ds rest : List Char}, ds ≠ [] → (∀ c ∈ ds, c.isDigit) →
      StartsWithDigit (ds ++ rest) := by
    intro ds rest hne hall
    obtain ⟨c, cs, rfl⟩ := List.exists_cons_of_ne_nil hne
    exact ⟨c, cs ++ rest, rfl, hall c List.mem_cons_self⟩
  rw [htext'] at htext
  obtain ⟨hsign, hrest⟩ := sign_injective (fun _ => minus_not_digit) (fun _ => minus_not_digit)
    (hstart hwhole' hdigits'.1) (hstart hwhole hdigits.1) htext
  have hpoint : '.' ∉ whole := not_mem_of_isDigit hdigits.1 rfl
  have hpoint' : '.' ∉ whole' := not_mem_of_isDigit hdigits'.1 rfl
  have hparts : whole = whole' ∧ places = places' := by
    by_cases hzero : d.scale = 0
    · by_cases hzero' : d'.scale = 0
      · rw [if_pos hzero, if_pos hzero', List.append_nil, List.append_nil] at hrest
        rw [hzero] at hscale
        rw [hzero'] at hscale'
        rw [List.eq_nil_of_length_eq_zero hscale, List.eq_nil_of_length_eq_zero hscale']
        exact ⟨hrest.symm, rfl⟩
      · rw [if_pos hzero, if_neg hzero', List.append_nil] at hrest
        exact absurd (hrest ▸ List.mem_append_right _ List.mem_cons_self) hpoint
    · by_cases hzero' : d'.scale = 0
      · rw [if_neg hzero, if_pos hzero', List.append_nil] at hrest
        exact absurd (hrest ▸ List.mem_append_right _ List.mem_cons_self) hpoint'
      · rw [if_neg hzero, if_neg hzero'] at hrest
        obtain ⟨hfirst, hlast⟩ := mark_injective hpoint' hpoint hrest
        exact ⟨hfirst.symm, hlast.symm⟩
  obtain ⟨negative, mantissa, scale⟩ := d
  obtain ⟨negative', mantissa', scale'⟩ := d'
  obtain ⟨rfl, rfl⟩ := hparts
  rw [Decimal.mk.injEq]
  exact ⟨(minus_injective hsign).symm, hvalue.symm.trans hvalue', hscale.symm.trans hscale'⟩

/-- A finite number in double precision is written with digits, a sign in front of them. -/
theorem doubleLiteral_finite {x : Double} (hx : x.Finite) :
  (Render.doubleLiteral x).toList
    = (if x.negative then ['-'] else []) ++ x.magnitudeText Value.doubleLayout
  := by
  have hexponent : (x.exponent.val == 2047) = false := beq_false_of_ne hx
  have hnan : x.isNaN = false := by rw [Double.isNaN, hexponent, Bool.false_and]
  have hinfinite : x.isInfinite = false := by rw [Double.isInfinite, hexponent, Bool.false_and]
  rw [Render.doubleLiteral, Double.text, hnan, hinfinite]
  exact String.toList_ofList

/-- A number in double precision that is not finite is written as a cast of its name. -/
theorem doubleLiteral_special {x : Double} (hx : ¬x.Finite) :
  (x.isNaN ∧ Render.doubleLiteral x = "CAST('nan' AS double)")
    ∨ (x.fraction.val = 0 ∧ Render.doubleLiteral x
      = if x.negative then "CAST('-inf' AS double)" else "CAST('inf' AS double)")
  := by
  have hexponent : x.exponent.val = 2047 := not_not.mp hx
  by_cases hfraction : x.fraction.val = 0
  · have hnan : x.isNaN = false := by simp [Double.isNaN, hfraction]
    have hinfinite : x.isInfinite = true := by simp [Double.isInfinite, hexponent, hfraction]
    right
    rw [Render.doubleLiteral, hnan, hinfinite]
    exact ⟨hfraction, rfl⟩
  · have hnan : x.isNaN = true := by simp [Double.isNaN, hexponent, hfraction]
    left
    rw [Render.doubleLiteral, if_pos hnan]
    exact ⟨hnan, rfl⟩

theorem magnitudeText_startsWithDigit (x : Double) :
  StartsWithDigit (x.magnitudeText Value.doubleLayout)
  := by
  obtain ⟨c, hfirst, hc⟩ := (Sql.isNumeral_magnitudeText x).digit
  obtain ⟨rest, hrest⟩ := List.head?_eq_some_iff.mp hfirst
  exact ⟨c, rest, hrest, hc⟩

/-- Numbers that are finite are written differently from those that are not. -/
theorem doubleLiteral_ne {x y : Double} (hx : x.Finite) (hy : ¬y.Finite) :
  Render.doubleLiteral x ≠ Render.doubleLiteral y
  := by
  intro h
  have hcast : (Render.doubleLiteral y).toList.head? = some 'C' := by
    rcases doubleLiteral_special hy with ⟨_, htext⟩ | ⟨_, htext⟩
    · rw [htext]
      rfl
    · rw [htext]
      cases y.negative <;> rfl
  obtain ⟨c, rest, hdigits, hc⟩ := magnitudeText_startsWithDigit x
  rw [← h, doubleLiteral_finite hx, hdigits] at hcast
  cases hsign : x.negative with
  | true =>
      rw [hsign] at hcast
      exact absurd (Option.some.inj hcast) (by decide)
  | false =>
      rw [hsign] at hcast
      obtain rfl : c = 'C' := Option.some.inj hcast
      exact absurd hc (by decide)

/-- Numbers in double precision are written differently, all that are no numbers apart. -/
theorem doubleLiteral_injective {x y : Double} (hnan : ¬(x.isNaN ∧ y.isNaN))
    (h : Render.doubleLiteral x = Render.doubleLiteral y) :
  x = y
  := by
  have hext : x.negative = y.negative → x.exponent = y.exponent → x.fraction = y.fraction →
      x = y := by
    intro hnegative hexponent hfraction
    obtain ⟨_, _, _⟩ := x
    obtain ⟨_, _, _⟩ := y
    rw [Double.mk.injEq]
    exact ⟨hnegative, hexponent, hfraction⟩
  by_cases hx : x.Finite
  · by_cases hy : y.Finite
    · have htext := congrArg String.toList h
      rw [doubleLiteral_finite hx, doubleLiteral_finite hy] at htext
      obtain ⟨hsign, hdigits⟩ := sign_injective (fun _ => minus_not_digit)
        (fun _ => minus_not_digit) (magnitudeText_startsWithDigit x)
        (magnitudeText_startsWithDigit y) htext
      obtain ⟨hexponent, hfraction⟩ := Double.magnitudeText_injective hx hy hdigits
      exact hext (minus_injective hsign) hexponent hfraction
    · exact absurd h (doubleLiteral_ne hx hy)
  · by_cases hy : y.Finite
    · exact absurd h.symm (doubleLiteral_ne hy hx)
    · have hexponent : x.exponent = y.exponent :=
        Fin.ext ((not_not.mp hx).trans (not_not.mp hy).symm)
      rcases doubleLiteral_special hx with ⟨hxnan, hxtext⟩ | ⟨hxzero, hxtext⟩ <;>
        rcases doubleLiteral_special hy with ⟨hynan, hytext⟩ | ⟨hyzero, hytext⟩ <;>
        rw [hxtext, hytext] at h
      · exact absurd ⟨hxnan, hynan⟩ hnan
      · cases hsign : y.negative <;> rw [hsign] at h <;> exact absurd h (by decide)
      · cases hsign : x.negative <;> rw [hsign] at h <;> exact absurd h (by decide)
      · apply hext ?_ hexponent (Fin.ext (hxzero.trans hyzero.symm))
        cases hsign : x.negative <;> cases hsign' : y.negative <;> rw [hsign, hsign'] at h <;>
          first | rfl | exact absurd h (by decide)

/-! ### Strings -/

/-- No quote stands at the start of what is written between quotes. -/
theorem escapeString_ne_quote (ds cs : List Char) :
  Render.escapeString ds ≠ '\'' :: cs
  := by
  intro h
  cases ds with
  | nil => cases h
  | cons d ds =>
      by_cases hd : d = '\''
      · rw [hd, Sql.Escapes.escapeString_quote] at h
        exact absurd (List.cons.inj h).1 (by decide)
      · rw [Sql.Escapes.escapeString_cons hd] at h
        exact hd (List.cons.inj h).1

/-- A string is given by what stands between its quotes. -/
theorem escapeString_injective {cs ds : List Char}
    (h : Render.escapeString cs = Render.escapeString ds) :
  cs = ds
  := by
  have hnil : ∀ c cs, Render.escapeString (c :: cs) ≠ [] := by
    intro c cs
    by_cases hc : c = '\''
    · rw [hc, Sql.Escapes.escapeString_quote]
      exact List.cons_ne_nil _ _
    · rw [Sql.Escapes.escapeString_cons hc]
      exact List.cons_ne_nil _ _
  -- A backslash in front of a quote is not a character of the string: no quote follows such one.
  have hother : ∀ {d cs ds}, d ≠ '\'' →
      Render.escapeString ('\'' :: cs) ≠ Render.escapeString (d :: ds) := by
    intro d cs ds hd h
    rw [Sql.Escapes.escapeString_quote, Sql.Escapes.escapeString_cons hd] at h
    exact escapeString_ne_quote ds _ (List.cons.inj h).2.symm
  induction cs generalizing ds with
  | nil =>
      cases ds with
      | nil => rfl
      | cons d ds => exact absurd h.symm (hnil d ds)
  | cons c cs ih =>
      cases ds with
      | nil => exact absurd h (hnil c cs)
      | cons d ds =>
          by_cases hc : c = '\''
          · by_cases hd : d = '\''
            · rw [hc, hd, Sql.Escapes.escapeString_quote, Sql.Escapes.escapeString_quote] at h
              rw [hc, hd, ih (List.cons.inj (List.cons.inj h).2).2]
            · exact absurd (hc ▸ h) (hother hd)
          · by_cases hd : d = '\''
            · exact absurd (hd ▸ h).symm (hother hc)
            · rw [Sql.Escapes.escapeString_cons hc, Sql.Escapes.escapeString_cons hd] at h
              obtain ⟨rfl, htail⟩ := List.cons.inj h
              rw [ih htail]

theorem stringLiteral_injective {s t : String}
    (h : Render.stringLiteral s = Render.stringLiteral t) :
  s = t
  := by
  have htext := (List.cons.inj (String.ofList_injective h)).2
  exact String.toList_injective (escapeString_injective (List.append_cancel_right htext))

/-! ### Dates and times -/

theorem yearSign_not_digit {year : Int} {c : Char} (h : c ∈ yearSign year) :
  c.isDigit = false
  := by
  rw [yearSign] at h
  split at h
  · exact List.mem_singleton.mp h ▸ rfl
  · split at h
    · exact List.mem_singleton.mp h ▸ rfl
    · cases h

theorem yearSign_negative {y y' : Int} (h : yearSign y = yearSign y') :
  y < 0 ↔ y' < 0
  := by
  rw [yearSign, yearSign] at h
  split at h <;> split at h <;> (try split at h) <;> (try split at h) <;>
    first | omega | exact absurd h (by decide)

section Library

variable {L : Value.Library}

/-- Dates are written differently. -/
theorem dateChars_injective (hL : L.Documented) {d d' : Date}
    (h : Render.dateChars L d = Render.dateChars L d') :
  d = d'
  := by
  obtain ⟨ds, htext, hyear⟩ := hL.year d.year
  obtain ⟨ds', htext', hyear'⟩ := hL.year d'.year
  simp only [Render.dateChars, htext, htext', List.append_assoc] at h
  obtain ⟨hsign, hrest⟩ := sign_injective (fun _ => yearSign_not_digit)
    (fun _ => yearSign_not_digit) (hyear.startsWithDigit _) (hyear'.startsWithDigit _) h
  obtain ⟨habs, hfields⟩ := hyear.mark_injective hyear' rfl hrest
  obtain ⟨hmonth, hday⟩ := (hL.month d.month).mark_injective (hL.month d'.month) rfl hfields
  have hnegative := yearSign_negative hsign
  have hday : d.day = d'.day := by
    rw [← (hL.day d.day).value, hday, (hL.day d'.day).value]
  have hyear : d.year = d'.year := by omega
  obtain ⟨year, month, day⟩ := d
  obtain ⟨year', month', day'⟩ := d'
  rw [Date.mk.injEq]
  exact ⟨hyear, hmonth, hday⟩

/-- No space stands in a date. -/
theorem space_not_mem_dateChars (hL : L.Documented) (d : Date) :
  ' ' ∉ Render.dateChars L d
  := by
  obtain ⟨ds, htext, hyear⟩ := hL.year d.year
  have hspace := hyear.not_mem (c := ' ') rfl
  have hsign : ' ' ∉ yearSign d.year := by
    rw [yearSign]
    split
    · decide
    · split <;> decide
  have hmonth := (hL.month d.month).not_mem (c := ' ') rfl
  have hday := (hL.day d.day).not_mem (c := ' ') rfl
  simp [Render.dateChars, htext, hspace, hsign, hmonth, hday]

/-- A time without the fraction of its second. -/
def Timestamp.toSecond (t : Timestamp) : Timestamp :=
  { t with nano := 0 }

/-- Times are written alike just when they lie within one second. -/
theorem timestampChars_eq_iff (hL : L.Documented) {t t' : Timestamp} :
  Render.dateChars L t.date ++ ' ' :: Render.clockChars L t
      = Render.dateChars L t'.date ++ ' ' :: Render.clockChars L t'
    ↔ t.toSecond = t'.toSecond
  := by
  constructor
  · intro h
    obtain ⟨hdate, hclock⟩ := mark_injective (space_not_mem_dateChars hL t.date)
      (space_not_mem_dateChars hL t'.date) h
    rw [Render.clockChars, Render.clockChars, List.append_assoc, List.append_assoc] at hclock
    obtain ⟨hhour, hrest⟩ := (hL.hour t.hour).mark_injective (hL.hour t'.hour) rfl hclock
    obtain ⟨hminute, hsecond⟩ := (hL.minute t.minute).mark_injective (hL.minute t'.minute) rfl hrest
    have hsecond : t.second = t'.second := by
      rw [← (hL.second t.second).value, hsecond, (hL.second t'.second).value]
    rw [Timestamp.toSecond, Timestamp.toSecond, dateChars_injective hL hdate, hhour, hminute,
      hsecond]
  · intro h
    have htext : ∀ t : Timestamp, Render.dateChars L t.date ++ ' ' :: Render.clockChars L t
        = Render.dateChars L t.toSecond.date ++ ' ' :: Render.clockChars L t.toSecond := fun _ => rfl
    rw [htext t, h, ← htext]

end Library

theorem plainLiteral_injective {s t : String} (h : Render.plainLiteral s = Render.plainLiteral t) :
  s = t
  := by
  have htext := congrArg String.toList h
  rw [Render.plainLiteral, Render.plainLiteral, String.toList_append, String.toList_append,
    String.toList_append, String.toList_append] at htext
  exact String.toList_injective (List.append_cancel_left (List.append_cancel_right htext))

/-! ### Constants -/

namespace Value

/-- The values are of one kind. -/
def OfOneKind : Value → Value → Prop
  | .null, .null => True
  | .boolean _, .boolean _ => True
  | .integer _, .integer _ => True
  | .float _, .float _ => True
  | .decimal _, .decimal _ => True
  | .string _, .string _ => True
  | .timestamp _, .timestamp _ => True
  | .date _, .date _ => True
  | _, _ => False

/-- The value is no number in double precision. -/
def IsNaN (v : Value) : Prop :=
  ∃ x : Double, v = .float x ∧ x.isNaN

/-- Each value equals itself, unless it is no number. -/
theorem equalsIn_self {L : Library} (hL : L.Documented) {v : Value} (h : ¬v.IsNaN) :
  v.equalsIn L v = true
  := by
  cases v with
  | float x =>
      have hnan : x.isNaN = false := by
        by_contra hx
        exact h ⟨x, rfl, Bool.eq_true_of_not_eq_false hx⟩
      simp [equalsIn, Double.equals, hnan]
  | decimal d => exact hL.same d
  | _ => simp [equalsIn]

end Value

namespace Render

variable {L : Value.Library}

/-- Values of one kind that are written alike are the same one, apart from the values that are no
numbers and from times. -/
theorem eq_of_literal (hL : L.Documented) {v w : Value} (hkind : v.OfOneKind w)
    (hnan : ¬(v.IsNaN ∧ w.IsNaN)) (htime : ∀ t, v ≠ .timestamp t)
    (h : literalIn L v = literalIn L w) :
  v = w
  := by
  cases v <;> cases w <;> try exact hkind.elim
  case null => rfl
  case boolean b b' =>
      have htext : ∀ b, literalIn L (.boolean b) = if b then "TRUE" else "FALSE" := by
        intro b
        cases b <;> rfl
      rw [htext, htext] at h
      cases b <;> cases b' <;> first | rfl | exact absurd h (by decide)
  case integer i j => exact congrArg Value.integer (integerText_injective h)
  case float x y =>
      have hdouble : ¬(x.isNaN ∧ y.isNaN) := fun hboth =>
        hnan ⟨⟨x, rfl, hboth.1⟩, ⟨y, rfl, hboth.2⟩⟩
      exact congrArg Value.float (doubleLiteral_injective hdouble h)
  case decimal d d' =>
      have hd : WritesPlaces d (L.decimal d') := Eq.mp (congrArg _ h) (hL.decimal d)
      exact congrArg Value.decimal (hd.injective (hL.decimal d'))
  case string s t => exact congrArg Value.string (stringLiteral_injective h)
  case timestamp t _ => exact absurd rfl (htime t)
  case date d d' =>
      have hchars := String.ofList_injective (plainLiteral_injective h)
      exact congrArg Value.date (dateChars_injective hL hchars)

/-- Values of one kind that differ are written differently, apart from the values that are no
numbers and from times within one second, whatever documented libraries write dates and numbers. -/
theorem literal_eq_iff (hL : L.Documented) {v w : Value} (hkind : v.OfOneKind w)
    (hdiffer : v.equalsIn L w = false) (hnan : ¬(v.IsNaN ∧ w.IsNaN)) :
  literalIn L v = literalIn L w
    ↔ ∃ s t, v = .timestamp s ∧ w = .timestamp t ∧ s.toSecond = t.toSecond
  := by
  constructor
  · intro h
    by_cases htime : ∃ s, v = .timestamp s
    · obtain ⟨s, rfl⟩ := htime
      cases w <;> try exact hkind.elim
      case timestamp t =>
          have hchars := String.ofList_injective (plainLiteral_injective h)
          exact ⟨s, t, rfl, rfl, (timestampChars_eq_iff hL).mp hchars⟩
    · obtain rfl := eq_of_literal hL hkind hnan (not_exists.mp htime) h
      rw [Value.equalsIn_self hL fun hv => hnan ⟨hv, hv⟩] at hdiffer
      cases hdiffer
  · rintro ⟨s, t, rfl, rfl, h⟩
    have hchars := (timestampChars_eq_iff hL).mpr h
    exact congrArg (fun cs => plainLiteral (String.ofList cs)) hchars

/-- The last day that four digits hold the year of and the next day are written differently. -/
theorem literal_eq_iff_tenThousand :
  Value.equals (.date ⟨9999, 12, 31⟩) (.date ⟨10000, 1, 1⟩) = false
    ∧ literal (.date ⟨9999, 12, 31⟩) ≠ literal (.date ⟨10000, 1, 1⟩)
  := by
  have hkind : Value.OfOneKind (.date ⟨9999, 12, 31⟩) (.date ⟨10000, 1, 1⟩) := trivial
  have hdiffer : Value.equals (.date ⟨9999, 12, 31⟩) (.date ⟨10000, 1, 1⟩) = false := by decide
  have hnan : ¬((Value.date ⟨9999, 12, 31⟩).IsNaN ∧ (Value.date ⟨10000, 1, 1⟩).IsNaN) := by
    rintro ⟨⟨_, h, _⟩, _⟩
    cases h
  refine ⟨hdiffer, fun h => ?_⟩
  have hL := Value.Library.documented_standard
  obtain ⟨_, _, htime, _⟩ := (literal_eq_iff hL hkind hdiffer hnan).mp h
  cases htime

/-- Midnight and half a second past it differ and are written alike. -/
theorem literal_halfSecond :
  Value.equals (.timestamp ⟨⟨2010, 1, 1⟩, 0, 0, 0, 0⟩)
      (.timestamp ⟨⟨2010, 1, 1⟩, 0, 0, 0, 500000000⟩) = false
    ∧ literal (.timestamp ⟨⟨2010, 1, 1⟩, 0, 0, 0, 0⟩)
      = literal (.timestamp ⟨⟨2010, 1, 1⟩, 0, 0, 0, 500000000⟩)
  := ⟨by decide, rfl⟩

end Render

end RelSql
