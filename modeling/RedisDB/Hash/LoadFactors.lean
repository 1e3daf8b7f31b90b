import RedisDB.Library.Binary32

/-!
# The two load comparisons

`isNeedReHash` and `isNeedShrink` compare `size_t` counters with
`mBucketsNumber * mLoadFactor` and `mBucketsNumber * mShrinkFactor` in `float`.
A value of `LoadFactors` is a reading of the two comparisons together with what
the rehash machinery relies on.  `exact` reads the factors as `1` and `1/10`;
`binary32` computes what the class computes, with rounded conversions and the
float nearest to `0.1`.
-/

namespace RedisDB

open RedisDB.Library

/-- A reading of `size > buckets * mLoadFactor` and `size < buckets * mShrinkFactor`.
`slack` bounds what rounding can hide; it vanishes for all but huge tables. -/
structure LoadFactors where
  exceedsLoad : Nat → Nat → Bool
  belowShrink : Nat → Nat → Bool
  slack : Nat → Nat
  slack_le : ∀ buckets, slack buckets ≤ buckets / 2 ^ 20
  lt_of_exceeds : ∀ {size buckets}, exceedsLoad size buckets = true → buckets < size
  le_of_not_exceeds : ∀ {size buckets}, exceedsLoad size buckets = false →
    size ≤ buckets + slack buckets
  lt_of_below : ∀ {size buckets}, belowShrink size buckets = true → 8 * size < buckets
  le_of_not_below : ∀ {size buckets}, belowShrink size buckets = false →
    buckets ≤ 10 * size + slack buckets
  below_mono : ∀ {size less buckets}, belowShrink size buckets = true → less ≤ size →
    belowShrink less buckets = true

namespace LoadFactors

/-- The factors read as the exact numbers `1` and `1/10`. -/
def exact : LoadFactors where
  exceedsLoad size buckets := decide (buckets < size)
  belowShrink size buckets := decide (10 * size < buckets)
  slack _ := 0
  slack_le _ := Nat.zero_le _
  lt_of_exceeds h := by simpa using h
  le_of_not_exceeds h := by simpa using h
  lt_of_below h := by
    have hbelow := of_decide_eq_true h
    omega
  le_of_not_below h := by
    have hbelow := of_decide_eq_false h
    omega
  below_mono h hle := by
    have hbelow := of_decide_eq_true h
    exact decide_eq_true (by omega)

@[simp] theorem exact_slack (buckets : Nat) : exact.slack buckets = 0 := rfl

/-! ## The comparisons as `float` computes them -/

/-- Conversion of a `size_t` to `float`. -/
def toFloat (value : Nat) : Nat := nearestEven 24 value

/-- `0.1f` is `13421773 * 2 ^ -27`. -/
def shrinkMantissa : Nat := 13421773

/-- `buckets * mShrinkFactor` in units of `2 ^ -27`, the product rounded as well. -/
def shrinkLimit (buckets : Nat) : Nat := nearestEven 24 (toFloat buckets * shrinkMantissa)

theorem toFloat_of_lt {value : Nat} (hvalue : value < 2 ^ 24) : toFloat value = value :=
  nearestEven.of_lt (by decide) hvalue

theorem toFloat_error (value : Nat) :
    2 ^ 24 * toFloat value ≤ 2 ^ 24 * value + value ∧
      2 ^ 24 * value ≤ 2 ^ 24 * toFloat value + value :=
  nearestEven.relative_error 24 value (by decide)

theorem toFloat_mono {small large : Nat} (hle : small ≤ large) :
    toFloat small ≤ toFloat large :=
  nearestEven.mono (by decide) hle

theorem shrinkLimit_error (buckets : Nat) :
    2 ^ 24 * shrinkLimit buckets ≤ (2 ^ 24 + 1) * (toFloat buckets * shrinkMantissa) ∧
      2 ^ 24 * (toFloat buckets * shrinkMantissa) ≤
        2 ^ 24 * shrinkLimit buckets + toFloat buckets * shrinkMantissa := by
  have herror := nearestEven.relative_error 24 (toFloat buckets * shrinkMantissa) (by decide)
  rw [Nat.add_mul, Nat.one_mul]
  exact herror

/-- The comparisons of the class: both operands are converted to `float` first. -/
def binary32 : LoadFactors where
  exceedsLoad size buckets := decide (toFloat buckets < toFloat size)
  belowShrink size buckets := decide (toFloat size * 2 ^ 27 < shrinkLimit buckets)
  slack buckets := buckets / 2 ^ 20
  slack_le _ := Nat.le_refl _
  lt_of_exceeds {size buckets} h := by
    by_contra hle
    exact absurd (of_decide_eq_true h) (Nat.not_lt.mpr (toFloat_mono (Nat.not_lt.mp hle)))
  le_of_not_exceeds {size buckets} h := by
    have hle := Nat.not_lt.mp (of_decide_eq_false h)
    have hsize := toFloat_error size
    have hbuckets := toFloat_error buckets
    by_cases hsmall : buckets < 2 ^ 20
    · have hexact : toFloat buckets = buckets :=
        toFloat_of_lt (hsmall.trans (by decide))
      have hexact' : toFloat size = size := toFloat_of_lt (by omega)
      omega
    · omega
  lt_of_below {size buckets} h := by
    have hlt := of_decide_eq_true h
    have hsize := toFloat_error size
    have hbuckets := toFloat_error buckets
    have hlimit := shrinkLimit_error buckets
    simp only [shrinkMantissa] at hlimit
    omega
  le_of_not_below {size buckets} h := by
    have hle := Nat.not_lt.mp (of_decide_eq_false h)
    have hsize := toFloat_error size
    have hbuckets := toFloat_error buckets
    have hlimit := shrinkLimit_error buckets
    simp only [shrinkMantissa] at hlimit
    by_cases hsmall : buckets < 2 ^ 20
    · have hexact : toFloat buckets = buckets :=
        toFloat_of_lt (hsmall.trans (by decide))
      by_cases hsizeSmall : size < 2 ^ 24
      · have hexact' : toFloat size = size := toFloat_of_lt hsizeSmall
        omega
      · omega
    · omega
  below_mono {size less buckets} h hle := by
    have hlt := of_decide_eq_true h
    have hmono := Nat.mul_le_mul_right (2 ^ 27) (toFloat_mono hle)
    exact decide_eq_true (Nat.lt_of_le_of_lt hmono hlt)

end LoadFactors

end RedisDB
