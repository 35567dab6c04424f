import Mathlib.Data.Bool.AllAny
import Mathlib.Data.List.DropRight
import RelSql.DataType
import RelSql.Proofs.Number.Digits

/-!
# Spellings of types

A text denotes a type just when it is one of the names of the type in small letters, or the word
`decimal` with two numbers below 256 between parentheses, where white space may stand around the
text and around each of the numbers.  So a type is read back from each of its names, and neither
the case of ASCII letters nor the white space around a text matters.
-/

namespace RelSql

/-! ## Trimming -/

namespace Text

variable {cs before after : List Char}

theorem trimRight_eq (cs : List Char) :
  trimRight cs = cs.rdropWhile isBlank
  := rfl

/-- A text is what is left of it between blank characters. -/
theorem exists_trim (cs : List Char) :
  ∃ before after, (∀ c ∈ before, isBlank c) ∧ (∀ c ∈ after, isBlank c)
    ∧ cs = before ++ trim cs ++ after
  := by
  refine ⟨cs.takeWhile isBlank, (trimLeft cs).rtakeWhile isBlank,
    fun _ h => (List.mem_takeWhile_imp h), fun _ h => List.mem_rtakeWhile_imp h, ?_⟩
  rw [List.append_assoc, trim, trimRight_eq, List.rdropWhile_append_rtakeWhile, trimLeft,
    List.takeWhile_append_dropWhile]

/-- Blank characters around a text are taken off. -/
theorem trim_between (hbefore : ∀ c ∈ before, isBlank c) (hafter : ∀ c ∈ after, isBlank c) :
  trim (before ++ cs ++ after) = trim cs
  := by
  rw [List.append_assoc, trim, trimLeft, List.dropWhile_append_of_pos hbefore,
    List.dropWhile_append]
  split
  case isTrue hempty =>
      have hleft : trimLeft cs = [] := List.isEmpty_iff.mp hempty
      rw [List.dropWhile_eq_nil_iff.mpr hafter, trim, hleft]
  case isFalse =>
      have hreverse : ∀ c ∈ after.reverse, isBlank c := fun c h => hafter c (List.mem_reverse.mp h)
      rw [trimRight, List.reverse_append, List.dropWhile_append_of_pos hreverse]
      rfl

/-- A text without blank characters stays as it is. -/
theorem trim_eq_self (h : ∀ c ∈ cs, isBlank c = false) :
  trim cs = cs
  := by
  have hkeep : ∀ l : List Char, (∀ c ∈ l, isBlank c = false) → l.dropWhile isBlank = l := by
    intro l hl
    cases l with
    | nil => rfl
    | cons c l => rw [List.dropWhile_cons, hl c List.mem_cons_self, if_neg Bool.false_ne_true]
  have hreverse : ∀ c ∈ cs.reverse, isBlank c = false := fun c hc => h c (List.mem_reverse.mp hc)
  rw [trim, trimLeft, hkeep cs h, trimRight, hkeep _ hreverse, List.reverse_reverse]

/-- Trimming commutes with what keeps blank characters. -/
theorem trim_map {f : Char → Char} (h : ∀ c, isBlank (f c) = isBlank c) (cs : List Char) :
  trim (cs.map f) = (trim cs).map f
  := by
  have hblank : isBlank ∘ f = isBlank := funext h
  rw [trim, trimLeft, trimRight, List.dropWhile_map, hblank, ← List.map_reverse,
    List.dropWhile_map, hblank, ← List.map_reverse]
  rfl

/-! ### Letters -/

/-- What holds of the capital letters holds of each. -/
theorem capital_induction {P : Char → Prop} [DecidablePred P]
    (h : "ABCDEFGHIJKLMNOPQRSTUVWXYZ".toList.all fun c => P c) {c : Char}
    (hc : 'A' ≤ c ∧ c ≤ 'Z') :
  P c
  := by
  have hrange : 65 ≤ c.toNat ∧ c.toNat ≤ 90 := by
    simpa [Char.le_def, UInt32.le_iff_toNat_le] using hc
  have hchar : c = Char.ofNat c.toNat := (Char.ofNat_toNat c).symm
  obtain ⟨hlow, hhigh⟩ := hrange
  apply of_decide_eq_true (List.all_eq_true.mp h c ?_)
  rw [hchar]
  generalize c.toNat = n at hlow hhigh
  interval_cases n <;> decide

/-- The small letter of a letter is that of its small letter. -/
theorem lowerChar_toLower (c : Char) :
  lowerChar c.toLower = lowerChar c
  := by
  by_cases h : 'A' ≤ c ∧ c ≤ 'Z'
  · exact capital_induction (P := fun c => lowerChar c.toLower = lowerChar c) (by decide) h
  · exact congrArg lowerChar (dif_neg h)

theorem isBlank_lowerChar (c : Char) :
  isBlank (lowerChar c) = isBlank c
  := by
  by_cases h : 'A' ≤ c ∧ c ≤ 'Z'
  · exact capital_induction (P := fun c => isBlank (lowerChar c) = isBlank c) (by decide) h
  · rw [lowerChar, if_neg h]
    split
    case isTrue hc =>
        rw [hc]
        decide
    case isFalse => rfl

/-- Texts that differ in the case of ASCII letters have the same small letters. -/
theorem lower_congr {cs ds : List Char} (h : cs.map Char.toLower = ds.map Char.toLower) :
  lower cs = lower ds
  := by
  have hlower : ∀ l : List Char, lower l = (l.map Char.toLower).map lowerChar := by
    intro l
    rw [List.map_map]
    exact List.map_congr_left fun c _ => (lowerChar_toLower c).symm
  rw [hlower, hlower, h]

theorem trim_lower (cs : List Char) :
  trim (lower cs) = lower (trim cs)
  := trim_map isBlank_lowerChar cs

end Text

/-! ## Types -/

namespace DataType

open Text Number

variable {cs : List Char} {n : UInt8} {t : DataType}

/-- A text is a number below 256 in digits, with a plus sign in front or none, and with white space
around it. -/
inductive WritesByte (n : UInt8) : List Char → Prop
  | mk {before sign ds after : List Char} (hbefore : ∀ c ∈ before, isBlank c)
      (hafter : ∀ c ∈ after, isBlank c) (hsign : sign = [] ∨ sign = ['+']) (hds : ds ≠ [])
      (hdigits : ∀ d ∈ ds, d.isDigit) (hvalue : ofDigits ds = n.toNat) :
      WritesByte n (before ++ (sign ++ ds) ++ after)

/-- A text in small letters is one of the names of a type, or a decimal type with its precision and
its scale. -/
inductive Spelled : List Char → DataType → Prop
  | name {word : String} {t : DataType} (h : (word, t) ∈ spellings) : Spelled word.toList t
  | decimal {p s : List Char} {precision scale : UInt8} (hp : WritesByte precision p)
      (hs : WritesByte scale s) :
      Spelled ("decimal(".toList ++ p ++ ',' :: s ++ [')']) (.decimal precision scale)

/-! ### Numbers -/

theorem isBlank_of_isDigit {c : Char} (h : c.isDigit) :
  isBlank c = false
  := digit_induction (P := fun c => isBlank c = false) (by decide) h

theorem readByte?_eq_some :
  readByte? cs = some n ↔ WritesByte n cs
  := by
  rw [readByte?]
  constructor
  · intro h
    obtain ⟨before, after, hbefore, hafter, hsplit⟩ := exists_trim cs
    cases hread : readSigned? (trim cs) with
    | none => rw [hread] at h; cases h
    | some m =>
        obtain ⟨hm, hn⟩ := Option.ite_none_right_eq_some.mp (hread ▸ h)
        obtain ⟨sign, ds, hsign, htrim, ⟨hds, hdigits⟩, hvalue⟩ := readSigned?_eq_some.mp hread
        rw [hsplit, htrim]
        refine .mk hbefore hafter hsign hds hdigits ?_
        rw [hvalue, ← Option.some.inj hn, UInt8.toNat_ofNat', Nat.mod_eq_of_lt hm]
  · rintro @⟨before, sign, ds, after, hbefore, hafter, hsign, hds, hdigits, hvalue⟩
    have hcore : ∀ c ∈ sign ++ ds, isBlank c = false := by
      intro c hc
      rcases List.mem_append.mp hc with hc | hc
      · rcases hsign with rfl | rfl
        · cases hc
        · rw [List.mem_singleton.mp hc]
          decide
      · exact isBlank_of_isDigit (hdigits c hc)
    have hread : readSigned? (sign ++ ds) = some n.toNat :=
      readSigned?_eq_some.mpr ⟨sign, ds, hsign, rfl, ⟨hds, hdigits⟩, hvalue⟩
    rw [trim_between hbefore hafter, trim_eq_self hcore, hread]
    simp only [n.toNat_lt, if_true, UInt8.ofNat_toNat]

/-- A number holds no comma. -/
theorem WritesByte.comma_not_mem (h : WritesByte n cs) :
  ',' ∉ cs
  := by
  obtain @⟨before, sign, ds, after, hbefore, hafter, hsign, _, hdigits, _⟩ := h
  intro hmem
  simp only [List.mem_append] at hmem
  rcases hmem with (hmem | hmem | hmem) | hmem
  · exact absurd (hbefore _ hmem) (by decide)
  · rcases hsign with rfl | rfl
    · cases hmem
    · exact absurd (List.mem_singleton.mp hmem) (by decide)
  · exact absurd (hdigits _ hmem) (by decide)
  · exact absurd (hafter _ hmem) (by decide)

theorem readDecimal?_eq_some :
  readDecimal? cs = some t ↔ ∃ p s precision scale, WritesByte precision p ∧ WritesByte scale s
    ∧ cs = "decimal(".toList ++ p ++ ',' :: s ++ [')'] ∧ t = .decimal precision scale
  := by
  constructor
  · intro h
    rw [readDecimal?.eq_def] at h
    split at h
    case h_1 rest =>
        obtain ⟨hlast, h⟩ := Option.ite_none_right_eq_some.mp h
        obtain ⟨arguments, rfl⟩ := List.getLast?_eq_some_iff.mp hlast
        rw [List.dropLast_concat] at h
        dsimp only at h
        split at h
        case h_1 c scale hdrop =>
            obtain ⟨precision, hprecision, h⟩ := Option.bind_eq_some_iff.mp h
            obtain ⟨scale', hscale, h⟩ := Option.bind_eq_some_iff.mp h
            cases h
            have hcomma : c = ',' := by
              have hhead := List.head?_dropWhile_not (fun c => decide (c ≠ ',')) arguments
              rw [hdrop] at hhead
              simpa using hhead
            have hsplit := List.takeWhile_append_dropWhile (p := (· ≠ ',')) (l := arguments)
            rw [hdrop, hcomma] at hsplit
            refine ⟨_, _, _, _, readByte?_eq_some.mp hprecision, readByte?_eq_some.mp hscale, ?_,
              rfl⟩
            conv_lhs => rw [← hsplit]
            simp
        case h_2 => cases h
    case h_2 => cases h
  · rintro ⟨p, s, precision, scale, hp, hs, rfl, rfl⟩
    have hcomma : ∀ c ∈ p, decide (c ≠ ',') = true := by
      intro c hc
      rw [decide_eq_true_eq]
      rintro rfl
      exact hp.comma_not_mem hc
    have htake : (p ++ ',' :: s).takeWhile (· ≠ ',') = p := by
      rw [List.takeWhile_append_of_pos hcomma]
      simp
    have hdrop : (p ++ ',' :: s).dropWhile (· ≠ ',') = ',' :: s := by
      rw [List.dropWhile_append_of_pos hcomma]
      simp
    have hcs : "decimal(".toList ++ p ++ ',' :: s ++ [')']
        = 'd' :: 'e' :: 'c' :: 'i' :: 'm' :: 'a' :: 'l' :: '(' :: (p ++ ',' :: s ++ [')']) := by
      simp
    rw [hcs, readDecimal?, if_pos List.getLast?_concat, List.dropLast_concat]
    simp only [hdrop, htake, readByte?_eq_some.mpr hp, readByte?_eq_some.mpr hs]
    rfl

/-! ### Names -/

theorem lookup_spellings {word : String} :
  spellings.lookup word = some t ↔ (word, t) ∈ spellings
  := by
  constructor
  · intro h
    obtain ⟨l, l', hsplit, _⟩ := List.lookup_eq_some_iff.mp h
    rw [hsplit]
    exact List.mem_append_right l List.mem_cons_self
  · have hall : ∀ p ∈ spellings, spellings.lookup p.1 = some p.2 := by decide
    exact fun h => hall _ h

/-- No name of a type goes on with a parenthesis behind the word `decimal`. -/
theorem lookup_decimal {cs : List Char} :
  spellings.lookup (String.ofList ("decimal(".toList ++ cs)) = none
  := by
  have hall : ∀ p ∈ spellings, p.1.toList.take 8 ≠ "decimal(".toList := by decide
  rw [Option.eq_none_iff_forall_ne_some]
  intro t h
  have hword := hall _ (lookup_spellings.mp h)
  rw [String.toList_ofList] at hword
  exact hword rfl

/-- A text is read as a type just when it spells the type in small letters, without the white space
around it. -/
theorem read?_eq_some {s : String} :
  read? s = some t ↔ Spelled (lower (trim s.toList)) t
  := by
  rw [read?]
  generalize lower (trim s.toList) = cs
  constructor
  · intro h
    cases hlookup : spellings.lookup (String.ofList cs) with
    | some t' =>
        rw [hlookup] at h
        cases h
        have hspelled := Spelled.name (lookup_spellings.mp hlookup)
        rwa [String.toList_ofList] at hspelled
    | none =>
        rw [hlookup] at h
        obtain ⟨p, s, precision, scale, hp, hs, rfl, rfl⟩ := readDecimal?_eq_some.mp h
        exact .decimal hp hs
  · intro h
    cases h with
    | name h => rw [String.ofList_toList, lookup_spellings.mpr h]
    | decimal hp hs =>
        rw [List.append_assoc, List.append_assoc, lookup_decimal, ← List.append_assoc,
          ← List.append_assoc]
        exact readDecimal?_eq_some.mpr ⟨_, _, _, _, hp, hs, rfl, rfl⟩

theorem parse_eq_ok {s : String} :
  parse s = .ok t ↔ read? s = some t
  := by
  rw [parse]
  cases read? s <;> simp

theorem toOption_parse (s : String) :
  (parse s).toOption = read? s
  := by
  rw [parse]
  cases read? s <;> rfl

/-- What a text denotes depends on its small letters without the white space around them. -/
theorem read?_congr {s s' : String} (h : lower (trim s.toList) = lower (trim s'.toList)) :
  read? s = read? s'
  := by
  rw [read?, read?, h]

/-! ### Printed names -/

/-- A number is written as it is read. -/
theorem writesByte_digits (n : UInt8) :
  WritesByte n (digits n.toNat)
  := by
  have h : WritesByte n ([] ++ ([] ++ digits n.toNat) ++ []) :=
    .mk (fun _ h => absurd h List.not_mem_nil) (fun _ h => absurd h List.not_mem_nil) (.inl rfl)
      (digits_ne_nil _) (fun _ => digits_isDigit) (ofDigits_digits _)
  rwa [List.nil_append, List.nil_append, List.append_nil] at h

theorem toList_decimalName (precision scale : UInt8) :
  (decimalName precision scale).toList
    = "decimal(".toList ++ digits precision.toNat ++ ',' :: digits scale.toNat ++ [')']
  := String.toList_ofList

/-- The characters of the name of a decimal type are small letters, digits and marks. -/
theorem mem_decimalName {precision scale : UInt8} {c : Char}
    (h : c ∈ (decimalName precision scale).toList) :
  c.isDigit ∨ c ∈ "decimal(,)".toList
  := by
  rw [toList_decimalName] at h
  simp only [List.mem_append, List.mem_cons, List.not_mem_nil, or_false] at h
  rcases h with ((h | h) | rfl | h) | rfl
  · have hall : ∀ c ∈ "decimal(".toList, c ∈ "decimal(,)".toList :=
      List.all_iff_forall_prop.mp (by decide)
    exact .inr (hall c h)
  · exact .inl (digits_isDigit h)
  · exact .inr (by decide)
  · exact .inl (digits_isDigit h)
  · exact .inr (by decide)

/-- What holds of digits and of the other characters of decimal types holds of each of them. -/
theorem decimalName_induction {P : Char → Prop} [DecidablePred P]
    (hdigits : "0123456789".toList.all fun c => P c)
    (hothers : "decimal(,)".toList.all fun c => P c)
    {precision scale : UInt8} {c : Char} (h : c ∈ (decimalName precision scale).toList) :
  P c
  := by
  rcases mem_decimalName h with h | h
  · exact digit_induction hdigits h
  · exact of_decide_eq_true (List.all_eq_true.mp hothers c h)

/-- A decimal type is read back, whether its name is in small or in capital letters. -/
theorem read?_decimalName (precision scale : UInt8) :
  read? (decimalName precision scale) = some (.decimal precision scale)
    ∧ read? (upper (decimalName precision scale)) = some (.decimal precision scale)
  := by
  have hspelled : Spelled (decimalName precision scale).toList (.decimal precision scale) := by
    rw [toList_decimalName]
    exact .decimal (writesByte_digits precision) (writesByte_digits scale)
  have hblank : ∀ c ∈ (decimalName precision scale).toList, isBlank c = false := fun c hc =>
    decimalName_induction (P := fun c => isBlank c = false) (by decide) (by decide) hc
  have hsmall : ∀ c ∈ (decimalName precision scale).toList, lowerChar c = c := fun c hc =>
    decimalName_induction (P := fun c => lowerChar c = c) (by decide) (by decide) hc
  have hcapital : ∀ c ∈ (decimalName precision scale).toList, lowerChar (upperChar c) = c :=
    fun c hc =>
      decimalName_induction (P := fun c => lowerChar (upperChar c) = c) (by decide) (by decide) hc
  generalize decimalName precision scale = s at hspelled hblank hsmall hcapital
  constructor
  · rw [read?_eq_some, trim_eq_self hblank, lower, List.map_congr_left hsmall, List.map_id']
    exact hspelled
  · have hlower : lower (upper s).toList = s.toList := by
      rw [lower, upper, String.toList_ofList, List.map_map]
      exact (List.map_congr_left hcapital).trans (List.map_id' _)
    rw [read?_eq_some, ← trim_lower, hlower, trim_eq_self hblank]
    exact hspelled

/-- A type is read back from each of its names. -/
theorem read?_names (t : DataType) :
  read? t.name = some t ∧ read? t.sqlName = some t ∧ read? t.columnName = some t
  := by
  cases t with
  | decimal precision scale =>
      exact ⟨(read?_decimalName precision scale).1, read?_decimalName precision scale⟩
  | _ => decide

/-- A text denotes a type just when it spells the type in small letters, without the white space
around it, and is refused otherwise.  Each name of a type denotes the type, and neither the case
of ASCII letters nor the white space around a text matters. -/
theorem parse_spellings :
  (∀ s t, parse s = .ok t ↔ Spelled (lower (trim s.toList)) t)
    ∧ (∀ s, (∀ t, ¬ Spelled (lower (trim s.toList)) t) ↔ parse s = .error (.invalidType s))
    ∧ (∀ t : DataType, parse t.name = .ok t ∧ parse t.sqlName = .ok t ∧ parse t.columnName = .ok t)
    ∧ ∀ before after before' after' cs cs' : List Char, (∀ c ∈ before ++ after, isBlank c) →
      (∀ c ∈ before' ++ after', isBlank c) → cs.map Char.toLower = cs'.map Char.toLower →
      (parse (String.ofList (before ++ cs ++ after))).toOption
        = (parse (String.ofList (before' ++ cs' ++ after'))).toOption
  := by
  refine ⟨fun s t => ?_, fun s => ?_, fun t => ?_, ?_⟩
  · rw [parse_eq_ok, read?_eq_some]
  · simp only [← read?_eq_some, ← Option.eq_none_iff_forall_ne_some, parse]
    cases read? s <;> simp
  · simp only [parse_eq_ok]
    exact read?_names t
  · intro before after before' after' cs cs' hblank hblank' hcase
    obtain ⟨hbefore, hafter⟩ := List.forall_mem_append.mp hblank
    obtain ⟨hbefore', hafter'⟩ := List.forall_mem_append.mp hblank'
    rw [toOption_parse, toOption_parse]
    apply read?_congr
    rw [String.toList_ofList, String.toList_ofList, trim_between hbefore hafter,
      trim_between hbefore' hafter', ← trim_lower, ← trim_lower, lower_congr hcase]

theorem parse_spellings_padded :
  (∀ c ∈ [' ', '\n'] ++ ['\u00a0'], isBlank c)
    ∧ ['I', 'N', 't'].map Char.toLower = ['i', 'n', 't'].map Char.toLower
    ∧ (parse (String.ofList ([' ', '\n'] ++ ['I', 'N', 't'] ++ ['\u00a0']))).toOption
      = (parse (String.ofList ([] ++ ['i', 'n', 't'] ++ []))).toOption
  := by
  have hblank : ∀ c ∈ [' ', '\n'] ++ ['\u00a0'], isBlank c :=
    List.all_eq_true.mp (by decide)
  have hcase : ['I', 'N', 't'].map Char.toLower = ['i', 'n', 't'].map Char.toLower := by decide
  exact ⟨hblank, hcase, parse_spellings.2.2.2 [' ', '\n'] ['\u00a0'] [] [] ['I', 'N', 't']
    ['i', 'n', 't'] hblank (by simp) hcase⟩

end DataType

end RelSql
