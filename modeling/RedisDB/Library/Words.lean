import Mathlib.Algebra.BigOperators.Field
import Mathlib.Algebra.Order.BigOperators.Group.Finset
import Mathlib.Algebra.Order.Field.Basic
import Mathlib.Data.Fintype.BigOperators
import Mathlib.Data.Rat.Cast.Order
import Mathlib.Tactic.FieldSimp
import Mathlib.Tactic.Linarith
import Mathlib.Tactic.Ring

/-!
# Random words

The letters of a word are drawn independently, each letter of the alphabet equally
likely.  An arrangement of words is fair when its results are drawn in the same way;
inserting a new letter or erasing one at a fixed place keeps an arrangement fair.
-/

namespace RedisDB.Library

universe u

section Words

variable {Ω : Type u} [Fintype Ω]

/-- The mean of a quantity over the letters. -/
def mean (f : Ω → ℚ) : ℚ := (∑ x, f x) / Fintype.card Ω

/-- The mean of a quantity over the words of a length. -/
def expected : Nat → (List Ω → ℚ) → ℚ
  | 0, F => F []
  | n + 1, F => mean fun x => expected n fun word => F (x :: word)

/-! ## Means -/

section Mean

variable {f g : Ω → ℚ}

theorem mean_add : mean (fun x => f x + g x) = mean f + mean g := by
  unfold mean
  rw [Finset.sum_add_distrib, add_div]

theorem mean_mul_left (c : ℚ) : mean (fun x => c * f x) = c * mean f := by
  unfold mean
  rw [← Finset.mul_sum, mul_div_assoc]

theorem mean_le_mean (hle : ∀ x, f x ≤ g x) : mean f ≤ mean g := by
  unfold mean
  apply div_le_div_of_nonneg_right
  · exact Finset.sum_le_sum fun x _ => hle x
  · positivity

theorem mean_comm {Ω' : Type u} [Fintype Ω'] (f : Ω → Ω' → ℚ) :
    (mean fun x => mean fun y => f x y) = mean fun y => mean fun x => f x y := by
  simp only [mean, ← Finset.sum_div]
  rw [Finset.sum_comm, div_right_comm]

theorem mean_const [Nonempty Ω] (c : ℚ) : mean (fun _ : Ω => c) = c := by
  have hcard : (Fintype.card Ω : ℚ) ≠ 0 := Nat.cast_ne_zero.mpr Fintype.card_ne_zero
  rw [mean, Finset.sum_const, Finset.card_univ, nsmul_eq_mul, mul_div_cancel_left₀ c hcard]

end Mean

/-! ## Expected values -/

section Expected

variable {n : Nat} {F G : List Ω → ℚ}

theorem expected_add :
    expected n (fun word => F word + G word) = expected n F + expected n G := by
  induction n generalizing F G with
  | zero => rfl
  | succ n ih =>
      simp only [expected, ih]
      exact mean_add

theorem expected_mul_left (c : ℚ) :
    expected n (fun word => c * F word) = c * expected n F := by
  induction n generalizing F with
  | zero => rfl
  | succ n ih =>
      simp only [expected, ih]
      exact mean_mul_left c

theorem expected_le_expected (hle : ∀ word, word.length = n → F word ≤ G word) :
    expected n F ≤ expected n G := by
  induction n generalizing F G with
  | zero => exact hle [] rfl
  | succ n ih =>
      apply mean_le_mean
      intro x
      exact ih fun word hword => hle (x :: word) (by rw [List.length_cons, hword])

theorem expected_congr (heq : ∀ word, word.length = n → F word = G word) :
    expected n F = expected n G :=
  le_antisymm (expected_le_expected fun word hword => le_of_eq (heq word hword))
    (expected_le_expected fun word hword => le_of_eq (heq word hword).symm)

theorem expected_const [Nonempty Ω] (c : ℚ) : expected n (fun _ : List Ω => c) = c := by
  induction n with
  | zero => rfl
  | succ n ih =>
      simp only [expected, ih]
      exact mean_const c

/-- A letter may be drawn before the word or behind it. -/
theorem mean_expected (F : Ω → List Ω → ℚ) :
    (mean fun x => expected n fun word => F x word) =
      expected n fun word => mean fun x => F x word := by
  induction n generalizing F with
  | zero => rfl
  | succ n ih =>
      simp only [expected, ← ih]
      exact mean_comm fun x y => expected n fun word => F x (y :: word)

/-- A word is a shorter one with a new letter at any place. -/
theorem expected_insertIdx {r : Nat} (hr : r ≤ n) (F : List Ω → ℚ) :
    expected (n + 1) F = expected n fun word => mean fun x => F (word.insertIdx r x) := by
  induction r generalizing n F with
  | zero => exact mean_expected fun x word => F (x :: word)
  | succ r ih =>
      obtain ⟨n, rfl⟩ : ∃ n', n = n' + 1 := ⟨n - 1, by omega⟩
      have hrest : ∀ y : Ω, (mean fun x => expected n fun word => F (y :: x :: word)) =
          expected n fun word => mean fun x => F (y :: word.insertIdx r x) :=
        fun y => ih (by omega) fun word => F (y :: word)
      calc expected (n + 2) F
          = mean fun y => mean fun x => expected n fun word => F (y :: x :: word) := rfl
        _ = mean fun y => expected n fun word => mean fun x => F (y :: word.insertIdx r x) := by
            simp only [hrest]
        _ = expected (n + 1) fun word => mean fun x => F (word.insertIdx (r + 1) x) := rfl

theorem expected_concat (F : List Ω → ℚ) :
    expected (n + 1) F = expected n fun word => mean fun x => F (word ++ [x]) := by
  rw [expected_insertIdx (Nat.le_refl n)]
  apply expected_congr
  intro word hword
  subst hword
  simp only [List.insertIdx_length_self]

theorem expected_eraseIdx [Nonempty Ω] {r : Nat} (hr : r ≤ n) (F : List Ω → ℚ) :
    expected (n + 1) (fun word => F (word.eraseIdx r)) = expected n F := by
  rw [expected_insertIdx hr]
  simp only [List.eraseIdx_insertIdx_self, mean_const]

theorem expected_take [Nonempty Ω] {m : Nat} (hm : m ≤ n) (F : List Ω → ℚ) :
    expected n (fun word => F (word.take m)) = expected m F := by
  induction m generalizing n F with
  | zero => exact expected_const (F [])
  | succ m ih =>
      obtain ⟨n, rfl⟩ : ∃ n', n = n' + 1 := ⟨n - 1, by omega⟩
      have hrest : ∀ x : Ω, (expected n fun word => F (x :: word.take m)) =
          expected m fun word => F (x :: word) :=
        fun x => ih (by omega) fun word => F (x :: word)
      simp only [expected, List.take_succ_cons, hrest]

/-- The expected number of letters of a kind. -/
theorem expected_sum_map [Nonempty Ω] (f : Ω → ℚ) :
    expected n (fun word => (word.map f).sum) = n * mean f := by
  induction n with
  | zero => simp [expected]
  | succ n ih =>
      have hfirst : ∀ x : Ω, (expected n fun word => f x + (word.map f).sum) =
          f x + n * mean f := fun x => by rw [expected_add, expected_const, ih]
      simp only [expected, List.map_cons, List.sum_cons, hfirst]
      rw [mean_add, mean_const]
      push_cast
      ring

end Expected

/-! ## Fair arrangements -/

/-- What `arrange` makes of words of length `n` are words of length `m`, all equally likely. -/
structure Fair (n m : Nat) (arrange : List Ω → List Ω) : Prop where
  length : ∀ word, word.length = n → (arrange word).length = m
  expected_eq : ∀ F, expected n (fun word => F (arrange word)) = expected m F

/-- An arrangement that ignores the last letter. -/
def skipLast (arrange : List Ω → List Ω) (word : List Ω) : List Ω :=
  arrange word.dropLast

/-- An arrangement that puts the last letter at a place. -/
def insertLast (r : Nat) (arrange : List Ω → List Ω) (word : List Ω) : List Ω :=
  match word.getLast? with
  | some x => (arrange word.dropLast).insertIdx r x
  | none => []

/-- An arrangement that ignores the last letter and takes one away. -/
def eraseAt (r : Nat) (arrange : List Ω → List Ω) (word : List Ω) : List Ω :=
  (arrange word.dropLast).eraseIdx r

section Fair

variable {n m r : Nat} {arrange : List Ω → List Ω}

omit [Fintype Ω] in
@[simp] theorem skipLast_concat (word : List Ω) (x : Ω) :
    skipLast arrange (word ++ [x]) = arrange word := by
  simp [skipLast]

omit [Fintype Ω] in
@[simp] theorem insertLast_concat (word : List Ω) (x : Ω) :
    insertLast r arrange (word ++ [x]) = (arrange word).insertIdx r x := by
  simp [insertLast]

omit [Fintype Ω] in
@[simp] theorem eraseAt_concat (word : List Ω) (x : Ω) :
    eraseAt r arrange (word ++ [x]) = (arrange word).eraseIdx r := by
  simp [eraseAt]

omit [Fintype Ω] in
theorem exists_concat {word : List Ω} (hword : word.length = n + 1) :
    ∃ before last, word = before ++ [last] ∧ before.length = n := by
  have hne : word ≠ [] := List.ne_nil_of_length_eq_add_one hword
  refine ⟨word.dropLast, word.getLast hne, (List.dropLast_append_getLast hne).symm, ?_⟩
  rw [List.length_dropLast, hword, Nat.add_sub_cancel]

theorem fair_id : Fair n n (id : List Ω → List Ω) := ⟨fun _ hword => hword, fun _ => rfl⟩

theorem Fair.skipLast [Nonempty Ω] (hfair : Fair n m arrange) :
    Fair (n + 1) m (skipLast arrange) where
  length := by
    intro word hword
    obtain ⟨before, last, rfl, hbefore⟩ := exists_concat hword
    rw [skipLast_concat]
    exact hfair.length before hbefore
  expected_eq := by
    intro F
    rw [expected_concat]
    simp only [skipLast_concat, mean_const]
    exact hfair.expected_eq F

theorem Fair.insertLast (hfair : Fair n m arrange) (hr : r ≤ m) :
    Fair (n + 1) (m + 1) (insertLast r arrange) where
  length := by
    intro word hword
    obtain ⟨before, last, rfl, hbefore⟩ := exists_concat hword
    have hlength := hfair.length before hbefore
    rw [insertLast_concat, List.length_insertIdx_of_le_length (by omega), hlength]
  expected_eq := by
    intro F
    rw [expected_concat, expected_insertIdx hr]
    simp only [insertLast_concat]
    exact hfair.expected_eq fun word => mean fun x => F (word.insertIdx r x)

theorem Fair.eraseAt [Nonempty Ω] (hfair : Fair n (m + 1) arrange) (hr : r ≤ m) :
    Fair (n + 1) m (eraseAt r arrange) where
  length := by
    intro word hword
    obtain ⟨before, last, rfl, hbefore⟩ := exists_concat hword
    have hlength := hfair.length before hbefore
    rw [eraseAt_concat, List.length_eraseIdx_of_lt (by omega), hlength, Nat.add_sub_cancel]
  expected_eq := by
    intro F
    rw [expected_concat]
    simp only [eraseAt_concat, mean_const]
    rw [hfair.expected_eq fun word => F (word.eraseIdx r), expected_eraseIdx hr]

end Fair

end Words

end RedisDB.Library
