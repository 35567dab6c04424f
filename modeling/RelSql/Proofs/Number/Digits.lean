import Mathlib.Tactic.IntervalCases
import RelSql.Number.Digits

/-!
# Digits

A number is the value of its digits, with or without zeros in front of them, so that it is read
back from what it is written as.  What follows digits is left as it is by whoever reads them, as
long as it starts with no digit.
-/

namespace RelSql.Number

variable {n : Nat} {c : Char} {cs ds rest : List Char}

/-! ### Characters -/

/-- What holds of ten digits holds of each. -/
theorem digit_induction {P : Char → Prop} [DecidablePred P]
    (h : "0123456789".toList.all fun c => P c) {c : Char} (hc : c.isDigit) :
  P c
  := by
  have hrange : 48 ≤ c.toNat ∧ c.toNat ≤ 57 := by
    simpa [Char.isDigit, UInt32.le_iff_toNat_le] using hc
  have hchar : c = Char.ofNat c.toNat := (Char.ofNat_toNat c).symm
  obtain ⟨hlow, hhigh⟩ := hrange
  apply of_decide_eq_true (List.all_eq_true.mp h c ?_)
  rw [hchar]
  generalize c.toNat = n at hlow hhigh
  interval_cases n <;> decide

theorem digits_isDigit (h : c ∈ digits n) :
  c.isDigit
  := Nat.isDigit_of_mem_toDigits (by decide) (by decide) h

/-- A number starts with a digit. -/
theorem digits_cons (n : Nat) :
  ∃ c cs, digits n = c :: cs ∧ c.isDigit ∧ ∀ d ∈ cs, d.isDigit
  := by
  cases h : digits n with
  | nil => exact absurd h Nat.toDigits_ne_nil
  | cons c cs =>
      have hdigits : ∀ d ∈ c :: cs, d.isDigit := fun d hd => digits_isDigit (h ▸ hd)
      exact ⟨c, cs, rfl, hdigits c List.mem_cons_self,
        fun d hd => hdigits d (List.mem_cons_of_mem c hd)⟩

theorem digits_ne_nil (n : Nat) :
  digits n ≠ []
  := Nat.toDigits_ne_nil

theorem padded_isDigit {width : Nat} (h : c ∈ padded width n) :
  c.isDigit
  := by
  rcases List.mem_append.mp h with h | h
  · rw [(List.mem_replicate.mp h).2]
    rfl
  · exact digits_isDigit h

theorem length_padded (width n : Nat) :
  width ≤ (padded width n).length
  := by
  rw [padded, List.length_append, List.length_replicate]
  omega

/-! ### Values -/

theorem ofDigits_eq (cs : List Char) :
  ofDigits cs = Nat.ofDigitChars 10 cs 0
  := Nat.ofDigitChars_eq_foldl.symm

/-- A number is the value of its digits. -/
theorem ofDigits_digits (n : Nat) :
  ofDigits (digits n) = n
  := by
  rw [ofDigits_eq]
  exact Nat.ofDigitChars_ten_toDigits

/-- Digits count in the power of ten of those behind them. -/
theorem ofDigits_append (cs ds : List Char) :
  ofDigits (cs ++ ds) = ofDigits cs * 10 ^ ds.length + ofDigits ds
  := by
  rw [ofDigits_eq, ofDigits_eq, ofDigits_eq, Nat.ofDigitChars_append,
    Nat.ofDigitChars_eq_ofDigitChars_zero, Nat.mul_comm]

theorem ofDigits_replicate (k : Nat) :
  ofDigits (List.replicate k '0') = 0
  := by
  rw [ofDigits_eq, Nat.ofDigitChars_replicate_zero, Nat.mul_zero]

/-- Zeros in front of digits do not count. -/
theorem ofDigits_zeros (k : Nat) (ds : List Char) :
  ofDigits (List.replicate k '0' ++ ds) = ofDigits ds
  := by
  rw [ofDigits_append, ofDigits_replicate, Nat.zero_mul, Nat.zero_add]

/-- Zeros behind digits are powers of ten. -/
theorem ofDigits_append_zeros (ds : List Char) (k : Nat) :
  ofDigits (ds ++ List.replicate k '0') = ofDigits ds * 10 ^ k
  := by
  rw [ofDigits_append, ofDigits_replicate, List.length_replicate, Nat.add_zero]

theorem ofDigits_padded (width n : Nat) :
  ofDigits (padded width n) = n
  := by
  rw [padded, ofDigits_zeros, ofDigits_digits]

/-- Numbers with the same digits are the same. -/
theorem digits_injective {m : Nat} (h : digits m = digits n) :
  m = n
  := by
  rw [← ofDigits_digits m, h, ofDigits_digits]

/-- Zero alone starts with a zero. -/
theorem head?_digits (h : n ≠ 0) :
  (digits n).head? ≠ some '0'
  := by
  induction n using Nat.strongRecOn with
  | ind n ih =>
      by_cases hn : n < 10
      · rw [digits, Nat.toDigits_of_lt_base hn, List.head?_cons]
        exact fun hzero => h (Nat.digitChar_eq_zero.mp (Option.some.inj hzero))
      · have hten : 10 ≤ n := Nat.le_of_not_lt hn
        have hsplit : digits n = digits (n / 10) ++ [(n % 10).digitChar] :=
          Nat.toDigits_of_base_le (by decide) hten
        have hhead := ih (n / 10) (by omega) (by omega)
        obtain ⟨c, cs, hcons, _⟩ := digits_cons (n / 10)
        rw [hcons] at hsplit hhead
        rw [hsplit]
        exact hhead

/-! ### Reading -/

theorem readNat?_eq_some :
  readNat? cs = some n ↔ (cs ≠ [] ∧ ∀ c ∈ cs, c.isDigit) ∧ ofDigits cs = n
  := by
  simp only [readNat?, List.all_eq_true, Option.ite_none_right_eq_some, Option.some.injEq]

theorem readNat?_digits (n : Nat) :
  readNat? (digits n) = some n
  := readNat?_eq_some.mpr ⟨⟨digits_ne_nil n, fun _ => digits_isDigit⟩, ofDigits_digits n⟩

/-- No digit is a sign. -/
theorem ne_sign_of_isDigit (hc : c.isDigit) :
  c ≠ '+' ∧ c ≠ '-'
  := digit_induction (P := fun c => c ≠ '+' ∧ c ≠ '-') (by decide) hc

/-- A number is read with a plus sign or without. -/
theorem readSigned?_eq_some :
  readSigned? cs = some n ↔ ∃ sign ds, (sign = [] ∨ sign = ['+']) ∧ cs = sign ++ ds
    ∧ (ds ≠ [] ∧ ∀ d ∈ ds, d.isDigit) ∧ ofDigits ds = n
  := by
  constructor
  · intro h
    rw [readSigned?.eq_def] at h
    split at h
    case h_1 ds => exact ⟨['+'], ds, .inr rfl, rfl, readNat?_eq_some.mp h⟩
    case h_2 => exact ⟨[], cs, .inl rfl, rfl, readNat?_eq_some.mp h⟩
  · rintro ⟨sign, ds, rfl | rfl, rfl, h⟩
    · rw [readSigned?]
      · exact readNat?_eq_some.mpr h
      · rintro es rfl
        exact (ne_sign_of_isDigit (h.1.2 '+' List.mem_cons_self)).1 rfl
    · exact readNat?_eq_some.mpr h

/-- What follows digits does not start with one. -/
def NoDigit (rest : List Char) : Prop :=
  ∀ c ∈ rest.head?, c.isDigit = false

/-- The digits at the start of a text are those in front of what starts with none. -/
theorem takeWhile_isDigit_append (hrest : NoDigit rest) :
  (cs ++ rest).takeWhile Char.isDigit = cs.takeWhile Char.isDigit
  := by
  induction cs with
  | nil =>
      cases rest with
      | nil => rfl
      | cons c rest =>
          rw [List.nil_append, List.takeWhile_cons, hrest c rfl]
          rfl
  | cons c cs ih =>
      rw [List.cons_append, List.takeWhile_cons, List.takeWhile_cons, ih]

theorem dropWhile_isDigit_append (hrest : NoDigit rest) :
  (cs ++ rest).dropWhile Char.isDigit = cs.dropWhile Char.isDigit ++ rest
  := by
  induction cs with
  | nil =>
      cases rest with
      | nil => rfl
      | cons c rest =>
          rw [List.nil_append, List.dropWhile_cons, hrest c rfl]
          rfl
  | cons c cs ih =>
      rw [List.cons_append, List.dropWhile_cons, List.dropWhile_cons, ih]
      split
      · rfl
      · rfl

end RelSql.Number
