import Mathlib.Algebra.Order.Field.Power
import Mathlib.Data.List.TakeWhile
import Mathlib.Data.Rat.Cast.Order
import Mathlib.Tactic.FieldSimp
import Mathlib.Tactic.Linarith
import Mathlib.Tactic.Positivity
import Mathlib.Tactic.Ring
import RelSql.Proofs.Number.Digits
import RelSql.Number.Reading
import RelSql.Number.Shortest

/-!
# Shortest decimals

Finite magnitudes in double precision stand in ascending order of their exponent and fraction, and
the rounding interval of each starts where that of the one below it ends.  The decimal that a
number is written as lies in the rounding interval of the number, so that it is written for no
other one.
-/

namespace RelSql.Number.Double

/-! ### Rounding intervals -/

/-- The place of a magnitude among all of them, in ascending order. -/
def index (x : Double) : Nat :=
  x.exponent * fractionLimit + x.fraction

/-- The number is finite. -/
def Finite (x : Double) : Prop :=
  x.exponent.val ≠ 2047

/-- The lower end of the rounding interval. -/
def lower (x : Double) : ℚ :=
  x.interval.1 * 2 ^ (x.power - 2)

/-- The upper end of the rounding interval. -/
def upper (x : Double) : ℚ :=
  (4 * x.mantissa + 2 : Nat) * 2 ^ (x.power - 2)

/-- The magnitude is the nearest one to a number of its rounding interval, whose ends belong to it
when the mantissa is even. -/
structure Rounds (x : Double) (q : ℚ) : Prop where
  above : x.lower < q ∨ x.mantissa % 2 = 0 ∧ x.lower = q
  below : q < x.upper ∨ x.mantissa % 2 = 0 ∧ q = x.upper

variable {x y : Double} {q : ℚ}

theorem Rounds.lower_le (h : x.Rounds q) :
  x.lower ≤ q
  := h.above.elim le_of_lt fun hend => hend.2.le

theorem Rounds.le_upper (h : x.Rounds q) :
  q ≤ x.upper
  := h.below.elim le_of_lt fun hend => hend.2.le

/-- A magnitude is given by its place. -/
theorem index_injective (h : x.index = y.index) :
  x.exponent = y.exponent ∧ x.fraction = y.fraction
  := by
  have hx := x.fraction.isLt
  have hy := y.fraction.isLt
  simp only [index, fractionLimit] at h hx hy
  constructor
  · apply Fin.ext
    omega
  · apply Fin.ext
    omega

/-- Each place up to that of a number is the place of one. -/
theorem exists_index {n : Nat} (h : n ≤ y.index) :
  ∃ z : Double, z.index = n
  := by
  have hexponent := y.exponent.isLt
  have hfraction := y.fraction.isLt
  refine ⟨ofFields false n, ?_⟩
  simp only [index, ofFields, fractionLimit] at h hfraction ⊢
  omega

/-- A mantissa is even just when the place of the number is. -/
theorem mantissa_parity (x : Double) :
  x.mantissa % 2 = x.index % 2
  := by
  simp only [mantissa, index, fractionLimit]
  split <;> omega

/-- The rounding interval of a number starts where that of the number below it ends. -/
theorem lower_of_succ (h : y.index = x.index + 1) :
  y.lower = x.upper
  := by
  have hx := x.fraction.isLt
  have hy := y.fraction.isLt
  simp only [index, fractionLimit] at h hx hy
  have hstep : (y.exponent.val = x.exponent.val ∧ y.fraction.val = x.fraction.val + 1)
      ∨ (y.exponent.val = x.exponent.val + 1 ∧ y.fraction.val = 0
        ∧ x.fraction.val + 1 = 4503599627370496) := by omega
  rcases hstep with ⟨hexponent, hfraction⟩ | ⟨hexponent, hfraction, hlast⟩
  · have hpower : y.power = x.power := by rw [power, power, hexponent]
    have hlow : y.interval.1 = 4 * x.mantissa + 2 := by
      simp only [interval, mantissa, fractionLimit, hexponent, hfraction]
      split <;> split <;> omega
    rw [lower, upper, hpower, hlow]
  · by_cases hzero : x.exponent.val = 0
    · have hpower : y.power = x.power := by
        rw [power, power, hexponent, hzero]
        rfl
      have hlow : y.interval.1 = 4 * x.mantissa + 2 := by
        simp only [interval, mantissa, fractionLimit, hexponent, hfraction, hzero, if_true]
        rw [if_neg (by omega), if_neg (by omega)]
        omega
      rw [lower, upper, hpower, hlow]
    · have hpower : y.power = x.power + 1 := by
        simp only [power, hexponent]
        omega
      have hlow : 4 * x.mantissa + 2 = 2 * y.interval.1 := by
        simp only [interval, mantissa, fractionLimit, hexponent, hfraction, if_neg hzero]
        rw [if_neg (Nat.succ_ne_zero _), if_pos (by omega)]
        omega
      rw [lower, upper, hpower, hlow, show x.power + 1 - 2 = x.power - 2 + 1 by ring,
        zpow_add_one₀ (by norm_num)]
      push_cast
      ring

/-- A rounding interval has some width. -/
theorem width_pos (x : Double) :
  x.interval.1 + 2 ≤ 4 * x.mantissa + 2
  := by
  simp only [interval]
  split <;> omega

theorem lower_lt_upper (x : Double) :
  x.lower < x.upper
  := by
  have hwidth : x.interval.1 < 4 * x.mantissa + 2 := by
    have := width_pos x
    omega
  rw [lower, upper]
  exact mul_lt_mul_of_pos_right (by exact_mod_cast hwidth) (by positivity)

/-- Rounding intervals follow each other in the order of their numbers. -/
theorem upper_le_lower (h : x.index < y.index) :
  x.upper ≤ y.lower
  := by
  obtain ⟨n, hn⟩ : ∃ n, y.index = x.index + n + 1 := ⟨y.index - x.index - 1, by omega⟩
  induction n generalizing y with
  | zero => exact (lower_of_succ hn).ge
  | succ n ih =>
      obtain ⟨z, hz⟩ := exists_index (y := y) (n := x.index + n + 1) (by omega)
      calc x.upper ≤ z.lower := ih (by omega) hz
        _ ≤ z.upper := (lower_lt_upper z).le
        _ = y.lower := (lower_of_succ (by omega)).symm

/-- A number lies in the rounding interval of one magnitude only. -/
theorem Rounds.unique (hx : x.Rounds q) (hy : y.Rounds q) :
  x.index = y.index
  := by
  wlog hle : x.index ≤ y.index generalizing x y with hsymm
  · exact (hsymm hy hx (Nat.le_of_not_le hle)).symm
  · by_contra hne
    have hlt : x.index < y.index := Nat.lt_of_le_of_ne hle hne
    have horder := upper_le_lower hlt
    have hupper : q = x.upper := le_antisymm hx.le_upper (horder.trans hy.lower_le)
    have hlower : y.lower = q := le_antisymm hy.lower_le (hx.le_upper.trans horder)
    have hxeven : x.mantissa % 2 = 0 := hx.below.elim (fun h => absurd hupper h.ne) And.left
    have hyeven : y.mantissa % 2 = 0 := hy.above.elim (fun h => absurd hlower h.ne) And.left
    -- Two even numbers have another one between them, whose interval keeps theirs apart.
    rw [mantissa_parity] at hxeven hyeven
    obtain ⟨z, hz⟩ := exists_index (y := y) (n := x.index + 1) hlt
    have hapart : x.upper < y.lower :=
      calc x.upper = z.lower := (lower_of_succ hz).symm
        _ < z.upper := lower_lt_upper z
        _ ≤ y.lower := upper_le_lower (by omega)
    rw [hlower, hupper] at hapart
    exact lt_irrefl _ hapart

/-! ### Grids -/

/-- A power of two is the fraction that stands for it. -/
theorem powerOfTwo_eq (e : Int) :
  0 < (powerOfTwo e).2 ∧ ((powerOfTwo e).1 : ℚ) = 2 ^ e * (powerOfTwo e).2
  := by
  rw [powerOfTwo]
  split
  · rename_i he
    refine ⟨Nat.one_pos, ?_⟩
    simp only [twoPow, Nat.pow_eq, Nat.cast_pow, Nat.cast_ofNat, Nat.cast_one, mul_one]
    rw [← zpow_natCast, Int.toNat_of_nonneg he]
  · rename_i he
    refine ⟨Nat.two_pow_pos _, ?_⟩
    simp only [twoPow, Nat.pow_eq, Nat.cast_pow, Nat.cast_ofNat, Nat.cast_one]
    rw [← zpow_natCast, Int.toNat_of_nonneg (by omega), ← zpow_add₀ (by norm_num),
      add_neg_cancel, zpow_zero]

/-- A power of ten is the fraction that stands for it. -/
theorem powerOfTen_eq (e : Int) :
  0 < (powerOfTen e).1 ∧ 0 < (powerOfTen e).2
    ∧ ((powerOfTen e).1 : ℚ) = 10 ^ e * (powerOfTen e).2
  := by
  rw [powerOfTen]
  split
  · rename_i he
    refine ⟨Nat.pow_pos (by decide), Nat.one_pos, ?_⟩
    simp only [tenPow, Nat.pow_eq, Nat.cast_pow, Nat.cast_ofNat, Nat.cast_one, mul_one]
    rw [← zpow_natCast, Int.toNat_of_nonneg he]
  · rename_i he
    refine ⟨Nat.one_pos, Nat.pow_pos (by decide), ?_⟩
    simp only [tenPow, Nat.pow_eq, Nat.cast_pow, Nat.cast_ofNat, Nat.cast_one]
    rw [← zpow_natCast, Int.toNat_of_nonneg (by omega), ← zpow_add₀ (by norm_num),
      add_neg_cancel, zpow_zero]

section Grid

variable {tieUp closed : Bool} {low v high ten d : Nat}

/-- A neighbour on a grid lies between the bounds. -/
theorem neighbour?_within (hten : 0 < ten) (hlow : low < v) (hhigh : v < high)
    (h : neighbour? tieUp closed low v high ten = some d) :
  (low < d * ten ∨ closed = true ∧ low = d * ten)
    ∧ (d * ten < high ∨ closed = true ∧ d * ten = high)
  := by
  have hfloor : v / ten * ten ≤ v := Nat.div_mul_le_self v ten
  have hceil : v < (v / ten + 1) * ten := Nat.lt_mul_of_div_lt (Nat.lt_succ_self _) hten
  simp only [neighbour?] at h
  generalize v / ten = f at h hfloor hceil
  have hbelow : f * ten < high := Nat.lt_of_le_of_lt hfloor hhigh
  have habove : low < (f + 1) * ten := Nat.lt_trans hlow hceil
  split at h
  · rename_i hboth
    simp only [Bool.and_eq_true, Bool.or_eq_true, decide_eq_true_eq, beq_iff_eq] at hboth
    split at h <;> cases h
    · exact ⟨.inl habove, hboth.2⟩
    · exact ⟨hboth.1, .inl hbelow⟩
  · split at h
    · rename_i hone
      simp only [Bool.and_eq_true, Bool.or_eq_true, decide_eq_true_eq, beq_iff_eq] at hone
      cases h
      exact ⟨hone, .inl hbelow⟩
    · split at h
      · rename_i hone
        simp only [Bool.and_eq_true, Bool.or_eq_true, decide_eq_true_eq, beq_iff_eq] at hone
        cases h
        exact ⟨.inl habove, hone⟩
      · cases h

/-- A grid that is finer than the bounds are apart has a neighbour between them. -/
theorem neighbour?_ne_none (hwidth : low + ten < high) :
  neighbour? tieUp closed low v high ten ≠ none
  := by
  intro h
  simp only [neighbour?] at h
  generalize v / ten = f at h
  split at h
  · cases h
  · split at h
    · cases h
    · split at h
      · cases h
      · rename_i hbelow habove
        simp only [Bool.or_eq_true, decide_eq_true_eq, not_or, Nat.not_lt] at hbelow habove
        rw [Nat.add_mul, Nat.one_mul] at habove
        omega

end Grid

/-! ### Shortest decimals -/

/-- The point of the grid of the multiples of `10 ^ k` that a search looks for. -/
def onGrid? (tieUp : Bool) (x : Double) (k : Int) : Option Nat :=
  let p := powerOfTwo (x.power - 2)
  let t := powerOfTen k
  let scale := p.1 * t.2
  neighbour? tieUp (x.mantissa % 2 == 0) (x.interval.1 * scale) (4 * x.mantissa * scale)
    ((4 * x.mantissa + 2) * scale) (t.1 * p.2)

theorem searchGrid_succ (tieUp : Bool) (x : Double) (fuel : Nat) (k : Int) :
  searchGrid tieUp x (fuel + 1) k
    = match x.onGrid? tieUp k with
      | some d => (d, k)
      | none => searchGrid tieUp x fuel (k - 1)
  := rfl

/-- Bounds and multiples of a grid are integers in units of one fraction. -/
theorem exists_unit (x : Double) (k : Int) :
  ∃ unit : ℚ, 0 < unit
    ∧ (∀ n : Nat, ((n * ((powerOfTwo (x.power - 2)).1 * (powerOfTen k).2) : Nat) : ℚ)
      = n * 2 ^ (x.power - 2) * unit)
    ∧ ∀ n : Nat, ((n * ((powerOfTen k).1 * (powerOfTwo (x.power - 2)).2) : Nat) : ℚ)
      = n * 10 ^ k * unit
  := by
  obtain ⟨htwo, heq⟩ := powerOfTwo_eq (x.power - 2)
  obtain ⟨_, hten, heq'⟩ := powerOfTen_eq k
  refine ⟨(powerOfTwo (x.power - 2)).2 * (powerOfTen k).2, by positivity, fun n => ?_,
    fun n => ?_⟩
  · push_cast
    rw [heq]
    ring
  · push_cast
    rw [heq']
    ring

variable {tieUp : Bool} {k : Int} {d : Nat}

theorem onGrid?_rounds (hx : 0 < x.mantissa) (h : x.onGrid? tieUp k = some d) :
  x.Rounds (d * 10 ^ k)
  := by
  obtain ⟨unit, hunit, hbound, hgrid⟩ := exists_unit x k
  have hscale : 0 < (powerOfTwo (x.power - 2)).1 * (powerOfTen k).2 := by
    have hone := hbound 1
    have hpos : (0 : ℚ) < 1 * 2 ^ (x.power - 2) * unit := by positivity
    rw [Nat.one_mul, Nat.cast_one] at hone
    exact_mod_cast hone ▸ hpos
  have hten : 0 < (powerOfTen k).1 * (powerOfTwo (x.power - 2)).2 :=
    Nat.mul_pos (powerOfTen_eq k).1 (powerOfTwo_eq _).1
  have hlow : x.interval.1 < 4 * x.mantissa := by
    simp only [interval]
    split <;> omega
  obtain ⟨habove, hbelow⟩ := neighbour?_within hten (Nat.mul_lt_mul_of_pos_right hlow hscale)
    (Nat.mul_lt_mul_of_pos_right (by omega) hscale) h
  rw [beq_iff_eq] at habove hbelow
  simp only [← Nat.cast_lt (α := ℚ), ← Nat.cast_inj (R := ℚ), hbound, hgrid,
    mul_lt_mul_iff_left₀ hunit, mul_left_inj' hunit.ne'] at habove hbelow
  exact ⟨habove.imp id (.imp Nat.cast_inj.mp id), hbelow.imp id (.imp Nat.cast_inj.mp id)⟩

theorem width_le_of_onGrid? (h : x.onGrid? tieUp k = none) :
  x.upper - x.lower ≤ 10 ^ k
  := by
  obtain ⟨unit, hunit, hbound, hgrid⟩ := exists_unit x k
  by_contra hwidth
  apply neighbour?_ne_none ?_ h
  rw [← Nat.cast_lt (α := ℚ), Nat.cast_add, hbound, hbound]
  have hone := hgrid 1
  rw [Nat.one_mul] at hone
  rw [hone, Nat.cast_one, one_mul, ← add_mul, mul_lt_mul_iff_left₀ hunit]
  rw [lower, upper] at hwidth
  linarith

/-- A search that reaches a grid finer than the rounding interval ends within the interval. -/
theorem searchGrid_rounds (hx : 0 < x.mantissa) (fuel : Nat) (k : Int)
    (hfine : (10 : ℚ) ^ (k - fuel) < x.upper - x.lower) :
  x.Rounds ((searchGrid tieUp x (fuel + 1) k).1 * 10 ^ (searchGrid tieUp x (fuel + 1) k).2)
  := by
  induction fuel generalizing k with
  | zero =>
      rw [searchGrid_succ]
      cases h : x.onGrid? tieUp k with
      | some d => exact onGrid?_rounds hx h
      | none =>
          rw [Nat.cast_zero, sub_zero] at hfine
          exact absurd (width_le_of_onGrid? h) (not_le_of_gt hfine)
  | succ fuel ih =>
      rw [searchGrid_succ]
      cases h : x.onGrid? tieUp k with
      | some d => exact onGrid?_rounds hx h
      | none =>
          apply ih
          rwa [sub_sub, add_comm 1, ← Nat.cast_succ]

/-- A power of ten is at most the power of two whose exponent is `100000 / 30103` times as great,
with some room for rounding. -/
theorem tenPow_le_twoPow {a L : Int} (hlow : -1100 ≤ L) (hhigh : L ≤ 1100)
    (h : 100000 * a ≤ 30103 * L) :
  (10 : ℚ) ^ a ≤ 2 ^ (L + 17)
  := by
  obtain ⟨n, rfl | rfl⟩ := a.eq_nat_or_neg
  · apply le_of_pow_le_pow_left₀ (n := 3) (by decide) (by positivity)
    calc ((10 : ℚ) ^ (n : ℤ)) ^ 3 = (10 ^ 3) ^ n := by rw [zpow_natCast, pow_right_comm]
      _ ≤ (2 ^ 10) ^ n := pow_le_pow_left₀ (by norm_num) (by norm_num) n
      _ = 2 ^ ((10 * n : Nat) : ℤ) := by rw [zpow_natCast, pow_mul]
      _ ≤ 2 ^ ((L + 17) * 3) := zpow_le_zpow_right₀ (by norm_num) (by push_cast; omega)
      _ = (2 ^ (L + 17)) ^ 3 := by rw [zpow_mul]; rfl
  · apply le_of_pow_le_pow_left₀ (n := 7) (by decide) (by positivity)
    calc ((10 : ℚ) ^ (-n : ℤ)) ^ 7 = ((10 ^ 7) ^ n)⁻¹ := by
          rw [zpow_neg, zpow_natCast, inv_pow, pow_right_comm]
      _ ≤ ((2 ^ 23) ^ n)⁻¹ :=
          inv_anti₀ (by positivity) (pow_le_pow_left₀ (by norm_num) (by norm_num) n)
      _ = 2 ^ (-(23 * n : Nat) : ℤ) := by rw [zpow_neg, zpow_natCast, pow_mul]
      _ ≤ 2 ^ ((L + 17) * 7) := zpow_le_zpow_right₀ (by norm_num) (by push_cast; omega)
      _ = (2 ^ (L + 17)) ^ 7 := by rw [zpow_mul]; rfl

/-- The decimal that a number is written as lies in its rounding interval. -/
theorem shortest_rounds (tieUp : Bool) (hfinite : x.Finite) (hx : 0 < x.mantissa) :
  x.Rounds ((shortest tieUp x).1 * 10 ^ (shortest tieUp x).2)
  := by
  rw [shortest]
  apply searchGrid_rounds hx 23
  set L : Int := x.mantissa.log2 + x.power + 2 with hL
  have hlog : x.mantissa.log2 ≤ 52 := by
    have hlimit : x.mantissa < 2 ^ 53 := by
      have := x.fraction.isLt
      simp only [mantissa, fractionLimit] at this ⊢
      split <;> omega
    exact Nat.lt_succ_iff.mp ((Nat.log2_lt hx.ne').mpr hlimit)
  have hpower : -1074 ≤ x.power ∧ x.power ≤ 971 := by
    have hexponent : x.exponent.val < 2047 := by
      have := x.exponent.isLt
      have hne : x.exponent.val ≠ 2047 := hfinite
      omega
    rw [power]
    omega
  have hwidth : (2 : ℚ) ^ (x.power - 1) ≤ x.upper - x.lower := by
    have hends : ((x.interval.1 + 2 : Nat) : ℚ) ≤ (4 * x.mantissa + 2 : Nat) := by
      exact_mod_cast width_pos x
    calc (2 : ℚ) ^ (x.power - 1) = 2 * 2 ^ (x.power - 2) := by
          rw [show x.power - 1 = 1 + (x.power - 2) by ring, zpow_add₀ (by norm_num), zpow_one]
      _ ≤ ((4 * x.mantissa + 2 : Nat) - x.interval.1) * 2 ^ (x.power - 2) := by
          apply mul_le_mul_of_nonneg_right _ (by positivity)
          push_cast at hends ⊢
          linarith
      _ = x.upper - x.lower := by rw [upper, lower, sub_mul]
  have hfloor : 100000 * (L * 30103).fdiv 100000 ≤ 30103 * L := by
    rw [Int.fdiv_eq_ediv_of_nonneg _ (by decide)]
    omega
  calc (10 : ℚ) ^ ((L * 30103).fdiv 100000 + 1 - (23 : Nat))
      = 10 ^ (L * 30103).fdiv 100000 * (10 ^ 22)⁻¹ := by
        rw [← zpow_natCast, ← zpow_neg, ← zpow_add₀ (by norm_num)]
        congr 1
        push_cast
        ring
    _ ≤ 2 ^ (L + 17) * (10 ^ 22)⁻¹ := by
        apply mul_le_mul_of_nonneg_right _ (by positivity)
        exact tenPow_le_twoPow (by omega) (by omega) hfloor
    _ < 2 ^ (L + 17) * (2 ^ 72)⁻¹ := by
        apply mul_lt_mul_of_pos_left _ (by positivity)
        norm_num
    _ = 2 ^ (L - 55) := by
        rw [← zpow_natCast, ← zpow_neg, ← zpow_add₀ (by norm_num)]
        congr 1
        push_cast
        ring
    _ ≤ 2 ^ (x.power - 1) := zpow_le_zpow_right₀ (by norm_num) (by omega)
    _ ≤ x.upper - x.lower := hwidth

/-! ### Layouts -/

/-- The decimal that a text without a sign denotes. -/
def decimal? (cs : List Char) : Option ℚ :=
  let whole := cs.takeWhile Char.isDigit
  let (places, rest) := splitPlaces (cs.dropWhile Char.isDigit)
  (readExponent? rest).map fun e =>
    (ofDigits (whole ++ places) : ℚ) * 10 ^ (e - (places.length : ℤ))

section Layout

variable {ds whole places rest : List Char} {e p : Int}

theorem noDigit_of_readExponent? (h : readExponent? rest = some e) :
  NoDigit rest
  := by
  cases rest with
  | nil => exact fun c hc => absurd hc (by simp)
  | cons c cs =>
      rw [readExponent?] at h
      intro d hd
      obtain rfl : c = d := Option.some.inj hd
      by_cases hmark : c = 'e' ∨ c = 'E'
      · rcases hmark with rfl | rfl <;> rfl
      · rw [if_neg hmark] at h
        cases h

/-- Digits with a point between them denote their value, as often as the exponent tells. -/
theorem decimal?_places (hwhole : ∀ c ∈ whole, c.isDigit) (hplaces : ∀ c ∈ places, c.isDigit)
    (he : readExponent? rest = some e) :
  decimal? (whole ++ '.' :: (places ++ rest))
    = some ((ofDigits (whole ++ places) : ℚ) * 10 ^ (e - places.length))
  := by
  have hpoint : NoDigit ('.' :: (places ++ rest)) := by
    intro c hc
    obtain rfl : '.' = c := Option.some.inj hc
    rfl
  have hrest : NoDigit rest := noDigit_of_readExponent? he
  simp only [decimal?, takeWhile_isDigit_append hpoint, dropWhile_isDigit_append hpoint,
    List.takeWhile_eq_self_iff.mpr hwhole, List.dropWhile_eq_nil_iff.mpr hwhole, List.nil_append,
    splitPlaces, takeWhile_isDigit_append hrest, dropWhile_isDigit_append hrest,
    List.takeWhile_eq_self_iff.mpr hplaces, List.dropWhile_eq_nil_iff.mpr hplaces, he,
    Option.map_some]

/-- Digits without a point denote their value, as often as the exponent tells. -/
theorem decimal?_whole (hwhole : ∀ c ∈ whole, c.isDigit) (he : readExponent? rest = some e) :
  decimal? (whole ++ rest) = some ((ofDigits whole : ℚ) * 10 ^ e)
  := by
  have hrest : NoDigit rest := noDigit_of_readExponent? he
  have hplaces : splitPlaces rest = ([], rest) := by
    rw [splitPlaces.eq_def]
    split
    · cases he
    · rfl
  simp only [decimal?, takeWhile_isDigit_append hrest, dropWhile_isDigit_append hrest,
    List.takeWhile_eq_self_iff.mpr hwhole, List.dropWhile_eq_nil_iff.mpr hwhole, List.nil_append,
    hplaces, he, Option.map_some, List.append_nil, List.length_nil, Nat.cast_zero, sub_zero]

/-- Digits in plain notation denote their value, with the point where it stands. -/
theorem decimal?_plain (point : Bool) (hds : ∀ c ∈ ds, c.isDigit) :
  decimal? (plain point ds p) = some ((ofDigits ds : ℚ) * 10 ^ (p - ds.length))
  := by
  have hzeros : ∀ n, ∀ c ∈ List.replicate n '0', c.isDigit := fun n c hc => by
    rw [(List.mem_replicate.mp hc).2]
    rfl
  rw [plain]
  split
  · have h := @decimal?_places ['0'] (List.replicate (-p).toNat '0' ++ ds) [] 0
      (List.forall_mem_singleton.mpr rfl)
      (fun c hc => (List.mem_append.mp hc).elim (hzeros _ c) (hds c)) rfl
    rw [List.append_nil] at h
    rw [List.cons_append, List.cons_append]
    refine h.trans ?_
    rw [List.singleton_append, ← List.cons_append, ← List.replicate_succ, ofDigits_zeros,
      List.length_append, List.length_replicate]
    congr 3
    omega
  · split
    · have h := @decimal?_places (ds.take p.toNat) (ds.drop p.toNat) [] 0
        (fun c hc => hds c (List.mem_of_mem_take hc))
        (fun c hc => hds c (List.mem_of_mem_drop hc)) rfl
      rw [List.append_nil] at h
      rw [h, List.take_append_drop, List.length_drop]
      congr 3
      omega
    · have hdigits : ∀ c ∈ ds ++ List.replicate (p.toNat - ds.length) '0', c.isDigit :=
        fun c hc => (List.mem_append.mp hc).elim (hds c) (hzeros _ c)
      have hexponent : (10 : ℚ) ^ (p - ds.length) = 10 ^ (p.toNat - ds.length) := by
        rw [← zpow_natCast]
        congr 1
        omega
      cases point with
      | false =>
          rw [if_neg Bool.false_ne_true, decimal?_whole hdigits (e := 0) rfl,
            ofDigits_append_zeros, hexponent]
          push_cast
          rw [mul_one]
      | true =>
          have h := @decimal?_places _ ['0'] [] 0 hdigits (List.forall_mem_singleton.mpr rfl) rfl
          rw [if_pos rfl]
          refine h.trans ?_
          rw [ofDigits_append, ofDigits_append_zeros, hexponent]
          simp only [List.length_singleton, show ofDigits ['0'] = 0 from rfl]
          push_cast
          rw [zpow_neg_one, add_zero, mul_assoc _ (10 : ℚ), mul_inv_cancel₀ (by norm_num), mul_one]

theorem readInteger?_exponentDigits (plusSign : Bool) (e : Int) :
  readInteger? (exponentDigits plusSign e) = some e
  := by
  obtain ⟨c, cs, hdigits, hc, _⟩ := digits_cons e.natAbs
  have hread := readNat?_digits e.natAbs
  rw [exponentDigits, signedDigits]
  by_cases he : e < 0
  · rw [if_neg (by omega), if_pos he, readInteger?, hread]
    exact congrArg some (show -(e.natAbs : Int) = e by omega)
  · rw [if_neg he]
    split
    · rw [readInteger?, readSigned?, hread, Option.map_some]
      · congr 1
        simp only [Int.ofNat_eq_natCast]
        omega
      · simp
    · have hsign := ne_sign_of_isDigit hc
      rw [hdigits] at hread ⊢
      rw [readInteger?, readSigned?, hread, Option.map_some]
      · congr 1
        simp only [Int.ofNat_eq_natCast]
        omega
      · rintro ds ⟨rfl, _⟩
        exact hsign.1 rfl
      · rintro ds ⟨rfl, _⟩
        exact hsign.2 rfl

/-- Digits in scientific notation denote their value, the first counting the power of ten. -/
theorem decimal?_scientific (plusSign : Bool) (hds : ∀ c ∈ ds, c.isDigit) (hne : ds ≠ []) :
  decimal? (scientific plusSign ds (p - 1)) = some ((ofDigits ds : ℚ) * 10 ^ (p - ds.length))
  := by
  obtain ⟨c, tail, rfl⟩ := List.exists_cons_of_ne_nil hne
  have hfirst : ∀ d ∈ [c], d.isDigit := fun d hd =>
    hds d (List.mem_singleton.mp hd ▸ List.mem_cons_self)
  have htail : ∀ d ∈ tail, d.isDigit := fun d hd => hds d (List.mem_cons_of_mem c hd)
  have he : readExponent? ('e' :: exponentDigits plusSign (p - 1)) = some (p - 1) :=
    readInteger?_exponentDigits plusSign (p - 1)
  simp only [scientific, List.drop_succ_cons, List.drop_zero, List.take_succ_cons, List.take_zero]
  split
  · rename_i hnil
    rw [List.append_nil, decimal?_whole hfirst he, hnil]
    rfl
  · refine (decimal?_places hfirst htail he).trans ?_
    rw [List.singleton_append, List.length_cons]
    congr 3
    omega

end Layout

/-- What a finite number is written as denotes a decimal of its rounding interval. -/
theorem decimal?_magnitudeText (layout : Layout) (hfinite : x.Finite) :
  ∃ q, decimal? (x.magnitudeText layout) = some q ∧ x.Rounds q
  := by
  rw [magnitudeText]
  split
  · rename_i hzero
    simp only [isZero, Bool.and_eq_true, beq_iff_eq] at hzero
    have hmantissa : x.mantissa = 0 := by rw [mantissa, if_pos hzero.1, hzero.2]
    have hlower : x.lower = 0 := by
      simp only [lower, interval, hmantissa, fractionLimit, hzero.1]
      norm_num
    refine ⟨0, ?_, .inr ⟨by rw [hmantissa], hlower⟩, .inl (hlower ▸ lower_lt_upper x)⟩
    have htext : '0' :: (if layout.point then ['.', '0'] else []) = plain layout.point ['0'] 1 := by
      cases layout.point <;> rfl
    rw [htext, decimal?_plain layout.point (List.forall_mem_singleton.mpr rfl),
      show ofDigits ['0'] = 0 from rfl, Nat.cast_zero, zero_mul]
  · rename_i hzero
    have hx : 0 < x.mantissa := by
      simp only [isZero, Bool.and_eq_true, beq_iff_eq, not_and] at hzero
      simp only [mantissa, fractionLimit]
      split
      · exact Nat.pos_of_ne_zero (hzero ‹_›)
      · omega
    refine ⟨_, ?_, shortest_rounds layout.tieUp hfinite hx⟩
    obtain ⟨d, k⟩ := shortest layout.tieUp x
    have hds : ∀ c ∈ digits d, c.isDigit := fun c => digits_isDigit
    have hposition : ((digits d).length + k : Int) - (digits d).length = k := by ring
    simp only
    split
    · rw [decimal?_plain layout.point hds, ofDigits_digits, hposition]
    · rw [decimal?_scientific layout.plusSign hds (digits_ne_nil d), ofDigits_digits, hposition]

/-- Finite numbers that are written alike have the same magnitude. -/
theorem magnitudeText_injective {layout : Layout} (hx : x.Finite) (hy : y.Finite)
    (h : x.magnitudeText layout = y.magnitudeText layout) :
  x.exponent = y.exponent ∧ x.fraction = y.fraction
  := by
  obtain ⟨q, hdecimal, hq⟩ := decimal?_magnitudeText layout hx
  obtain ⟨q', hdecimal', hq'⟩ := decimal?_magnitudeText layout hy
  rw [h, hdecimal'] at hdecimal
  cases hdecimal
  exact index_injective (hq.unique hq')

end RelSql.Number.Double
