import Mathlib.Tactic.Linarith
import Mathlib.Tactic.Ring

/-!
# Rounding a natural number to a significand

Conversion of an unsigned integer to a binary floating-point format keeps the
leading `precision` bits and rounds the rest to nearest, ties to even.  The
result is again a natural number.  The exponent range plays no part for the
magnitudes an integer type reaches.
-/

namespace RedisDB.Library

/-- The weight of the last significand bit of `value`. -/
def ulp (precision value : Nat) : Nat := 2 ^ (Nat.log2 value + 1 - precision)

def nearestEven (precision value : Nat) : Nat :=
  let unit := ulp precision value
  let quotient := value / unit
  let rest := value % unit
  if 2 * rest < unit ∨ (2 * rest = unit ∧ quotient % 2 = 0) then quotient * unit
  else (quotient + 1) * unit

namespace nearestEven

variable {precision value : Nat}

theorem ulp_pos : 0 < ulp precision value := Nat.two_pow_pos _

/-- The quotient and rest of the value by its unit. -/
theorem split_value (precision value : Nat) :
    value = value / ulp precision value * ulp precision value +
      value % ulp precision value := by
  rw [Nat.mul_comm]
  exact (Nat.div_add_mod _ _).symm

/-- Rounding goes to one of the two neighbouring multiples of the unit. -/
theorem eq_or_eq (precision value : Nat) :
    nearestEven precision value = value / ulp precision value * ulp precision value ∨
      nearestEven precision value =
        (value / ulp precision value + 1) * ulp precision value := by
  simp only [nearestEven]
  split
  · exact .inl rfl
  · exact .inr rfl

/-- Rounding does not cross a multiple of the unit from below. -/
theorem le_of_lt_mul {count : Nat} (hlt : value < count * ulp precision value) :
    nearestEven precision value ≤ count * ulp precision value := by
  have hquotient : value / ulp precision value + 1 ≤ count :=
    (Nat.div_lt_iff_lt_mul ulp_pos).mpr hlt
  have hup : (value / ulp precision value + 1) * ulp precision value ≤
      count * ulp precision value := Nat.mul_le_mul_right _ hquotient
  rcases eq_or_eq precision value with h | h
  · rw [h]
    exact (Nat.mul_le_mul_right _ (Nat.le_succ _)).trans hup
  · rwa [h]

/-- Rounding does not cross a multiple of the unit from above. -/
theorem mul_le_of_le {count : Nat} (hle : count * ulp precision value ≤ value) :
    count * ulp precision value ≤ nearestEven precision value := by
  have hquotient : count ≤ value / ulp precision value :=
    (Nat.le_div_iff_mul_le ulp_pos).mpr hle
  have hdown := Nat.mul_le_mul_right (ulp precision value) hquotient
  rcases eq_or_eq precision value with h | h
  · rwa [h]
  · rw [h]
    exact hdown.trans (Nat.mul_le_mul_right _ (Nat.le_succ _))

/-- The rounding error is at most half a unit, both ways. -/
theorem error_le (precision value : Nat) :
    2 * nearestEven precision value ≤ 2 * value + ulp precision value ∧
      2 * value ≤ 2 * nearestEven precision value + ulp precision value := by
  have hsplit := split_value precision value
  have hrest : value % ulp precision value < ulp precision value := Nat.mod_lt _ ulp_pos
  simp only [nearestEven]
  generalize value / ulp precision value = quotient at *
  generalize value % ulp precision value = rest at *
  generalize ulp precision value = unit at *
  split
  · constructor <;> omega
  · rw [Nat.add_mul, Nat.one_mul]
    constructor <;> omega

/-- Values that fit the significand are not rounded. -/
theorem of_lt (hprecision : 0 < precision) (hvalue : value < 2 ^ precision) :
    nearestEven precision value = value := by
  have hunit : ulp precision value = 1 := by
    by_cases hzero : value = 0
    · subst hzero
      simp [ulp, Nat.sub_eq_zero_of_le (Nat.succ_le_of_lt hprecision)]
    · have hlog : Nat.log2 value < precision := (Nat.log2_lt hzero).mpr hvalue
      simp [ulp, Nat.sub_eq_zero_of_le (Nat.succ_le_of_lt hlog)]
  simp [nearestEven, hunit, Nat.mod_one]

/-- Where a value is rounded at all, its unit is small against it. -/
theorem ulp_le (hvalue : 2 ^ precision ≤ value) :
    2 ^ precision * ulp precision value ≤ 2 * value := by
  have hne : value ≠ 0 := by
    have := Nat.two_pow_pos precision
    omega
  have hlog : precision ≤ Nat.log2 value := (Nat.le_log2 hne).mpr hvalue
  have hself : 2 ^ Nat.log2 value ≤ value := Nat.log2_self_le hne
  rw [ulp, ← Nat.pow_add, Nat.add_sub_cancel' (by omega), Nat.pow_succ]
  omega

/-- The relative error is at most `2 ^ -precision`, both ways. -/
theorem relative_error (precision value : Nat) (hprecision : 0 < precision) :
    2 ^ precision * nearestEven precision value ≤ 2 ^ precision * value + value ∧
      2 ^ precision * value ≤ 2 ^ precision * nearestEven precision value + value := by
  by_cases hvalue : value < 2 ^ precision
  · rw [of_lt hprecision hvalue]
    exact ⟨Nat.le_add_right _ _, Nat.le_add_right _ _⟩
  · have hunit := ulp_le (Nat.not_lt.mp hvalue)
    obtain ⟨hup, hdown⟩ := error_le precision value
    have hup' := Nat.mul_le_mul_left (2 ^ precision) hup
    have hdown' := Nat.mul_le_mul_left (2 ^ precision) hdown
    rw [Nat.mul_add] at hup' hdown'
    constructor <;> nlinarith

/-- The unit divides the power of two just above a value. -/
theorem le_two_pow_log2 :
    nearestEven precision value ≤ 2 ^ (Nat.log2 value + 1) := by
  have hle : Nat.log2 value + 1 - precision ≤ Nat.log2 value + 1 := Nat.sub_le _ _
  have hpow : 2 ^ (Nat.log2 value + 1 - (Nat.log2 value + 1 - precision)) *
      ulp precision value = 2 ^ (Nat.log2 value + 1) := by
    rw [ulp, ← Nat.pow_add, Nat.sub_add_cancel hle]
  rw [← hpow]
  apply le_of_lt_mul
  rw [hpow]
  exact Nat.lt_log2_self

theorem two_pow_log2_le (hprecision : 0 < precision) (hne : value ≠ 0) :
    2 ^ Nat.log2 value ≤ nearestEven precision value := by
  have hle : Nat.log2 value + 1 - precision ≤ Nat.log2 value := by omega
  have hpow : 2 ^ (Nat.log2 value - (Nat.log2 value + 1 - precision)) *
      ulp precision value = 2 ^ Nat.log2 value := by
    rw [ulp, ← Nat.pow_add, Nat.sub_add_cancel hle]
  rw [← hpow]
  apply mul_le_of_le
  rw [hpow]
  exact Nat.log2_self_le hne

/-- Rounding keeps the order. -/
theorem mono (hprecision : 0 < precision) {small large : Nat} (hle : small ≤ large) :
    nearestEven precision small ≤ nearestEven precision large := by
  by_cases hzero : small = 0
  · subst hzero
    rw [of_lt hprecision (Nat.two_pow_pos precision)]
    exact Nat.zero_le _
  have hne : large ≠ 0 := by omega
  rcases Nat.lt_or_ge (Nat.log2 small) (Nat.log2 large) with hlog | hlog
  · calc nearestEven precision small
        ≤ 2 ^ (Nat.log2 small + 1) := le_two_pow_log2
      _ ≤ 2 ^ Nat.log2 large := Nat.pow_le_pow_right (by decide) hlog
      _ ≤ nearestEven precision large := two_pow_log2_le hprecision hne
  · have hself : 2 ^ Nat.log2 small ≤ large := (Nat.log2_self_le hzero).trans hle
    have hsame : Nat.log2 large = Nat.log2 small :=
      Nat.le_antisymm hlog ((Nat.le_log2 hne).mpr hself)
    have hunit : ulp precision large = ulp precision small := by rw [ulp, ulp, hsame]
    have hquotient : small / ulp precision small ≤ large / ulp precision small :=
      Nat.div_le_div_right hle
    rcases Nat.lt_or_ge (small / ulp precision small) (large / ulp precision small) with
      hless | hmore
    · have hbelow : (small / ulp precision small + 1) * ulp precision small ≤
          large / ulp precision small * ulp precision small :=
        Nat.mul_le_mul_right _ hless
      have hsmall : nearestEven precision small ≤
          (small / ulp precision small + 1) * ulp precision small :=
        le_of_lt_mul (Nat.lt_mul_of_div_lt (Nat.lt_succ_self _) ulp_pos)
      have hlarge : large / ulp precision small * ulp precision small ≤
          nearestEven precision large := by
        have hown := Nat.div_mul_le_self large (ulp precision small)
        rw [← hunit] at hown ⊢
        exact mul_le_of_le hown
      exact hsmall.trans (hbelow.trans hlarge)
    · have heq := Nat.le_antisymm hquotient hmore
      have hrest : small % ulp precision small ≤ large % ulp precision small := by
        have hs := Nat.div_add_mod small (ulp precision small)
        have hl := Nat.div_add_mod large (ulp precision small)
        rw [← heq] at hl
        omega
      simp only [nearestEven, hunit, ← heq]
      generalize small / ulp precision small = quotient
      generalize ulp precision small = unit at hrest ⊢
      have hstep : quotient * unit ≤ (quotient + 1) * unit :=
        Nat.mul_le_mul_right _ (Nat.le_succ _)
      split <;> split <;> omega

end nearestEven

end RedisDB.Library
