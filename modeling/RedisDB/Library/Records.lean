import RedisDB.Library.Words

/-!
# Records of a random word

A letter is a record when no later one is higher.  When from every height on only a
fixed share of the letters goes higher, a word has few records: a bounded number at each
height is to be expected, and high letters are rare.
-/

namespace RedisDB.Library

universe u

/-- The letters that no later letter is higher than. -/
def records {α : Type u} (height : α → Nat) : List α → List α
  | [] => []
  | x :: rest =>
      if ∀ y ∈ rest, height y ≤ height x then x :: records height rest
      else records height rest

section Lists

variable {α : Type u} {height : α → Nat}

theorem records_cons (x : α) (rest : List α) : records height (x :: rest) =
    if ∀ y ∈ rest, height y ≤ height x then x :: records height rest else records height rest :=
  rfl

theorem records_sublist (word : List α) : (records height word).Sublist word := by
  induction word with
  | nil => exact List.Sublist.refl []
  | cons x rest ih =>
      rw [records_cons]
      split
      · exact ih.cons_cons x
      · exact ih.cons x

/-- A letter as high as all behind it hides the lower ones before it. -/
theorem records_append {lower after : List α} {x : α} (hlower : ∀ y ∈ lower, height y < height x)
    (hafter : ∀ y ∈ after, height y ≤ height x) :
    records height (lower ++ x :: after) = x :: records height after := by
  induction lower with
  | nil => rw [List.nil_append, records, if_pos hafter]
  | cons y lower ih =>
      have hhidden : ¬ ∀ z ∈ lower ++ x :: after, height z ≤ height y := by
        intro hall
        have hfirst := hlower y List.mem_cons_self
        have hnot := hall x (List.mem_append_right _ List.mem_cons_self)
        omega
      rw [List.cons_append, records, if_neg hhidden]
      exact ih fun z hz => hlower z (List.mem_cons_of_mem y hz)

theorem records_map {β : Type u} (f : α → β) (height : β → Nat) (word : List α) :
    records height (word.map f) = (records (fun x => height (f x)) word).map f := by
  induction word with
  | nil => rfl
  | cons x rest ih =>
      simp only [List.map_cons, records, List.forall_mem_map, ih]
      split <;> rfl

theorem records_congr {height' : α → Nat} {word : List α}
    (heq : ∀ x ∈ word, height x = height' x) : records height word = records height' word := by
  induction word with
  | nil => rfl
  | cons x rest ih =>
      obtain ⟨hx, hrest⟩ := List.forall_mem_cons.mp heq
      have hsame : (∀ y ∈ rest, height y ≤ height x) ↔ ∀ y ∈ rest, height' y ≤ height' x := by
        constructor
        · intro hall y hy
          rw [← hx, ← hrest y hy]
          exact hall y hy
        · intro hall y hy
          rw [hx, hrest y hy]
          exact hall y hy
      simp only [records, hsame, ih hrest]

theorem records_succ (word : List α) :
    records (fun x => height x + 1) word = records height word := by
  induction word with
  | nil => rfl
  | cons x rest ih => simp only [records_cons, Nat.add_le_add_iff_right, ih]

variable (height) in
/-- Letters counted by their heights below a bound, and those from the bound on. -/
theorem length_by_height (word : List α) (bound : Nat) :
    word.length =
      ((List.range bound).map fun j => (word.filter fun x => height x = j).length).sum +
        (word.filter fun x => bound ≤ height x).length := by
  induction bound with
  | zero => simp
  | succ bound ih =>
      have hsplit : (word.filter fun x => bound ≤ height x).length =
          (word.filter fun x => height x = bound).length +
            (word.filter fun x => bound + 1 ≤ height x).length := by
        clear ih
        induction word with
        | nil => rfl
        | cons x rest ih =>
            simp only [List.filter_cons, decide_eq_true_eq]
            rcases Nat.lt_trichotomy (height x) bound with hlt | heq | hgt
            · rw [if_neg (by omega), if_neg (by omega), if_neg (by omega), ih]
            · rw [if_pos (by omega), if_pos heq, if_neg (by omega), List.length_cons,
                List.length_cons, ih]
              omega
            · rw [if_pos (by omega), if_neg (by omega), if_pos (by omega), List.length_cons,
                List.length_cons, ih]
              omega
      rw [List.range_succ, List.map_append, List.sum_append, List.map_singleton,
        List.sum_singleton]
      omega

end Lists

/-! ## Random words -/

section Random

variable {Ω : Type u} [Fintype Ω] {height : Ω → Nat}

/-- The share of the letters that reach a height. -/
def share (height : Ω → Nat) (j : Nat) : ℚ := mean fun x => if j ≤ height x then 1 else 0

variable (height) in
theorem share_nonneg (j : Nat) : 0 ≤ share height j := by
  have hzero : (mean fun _ : Ω => (0 : ℚ)) = 0 := by simp [mean]
  rw [← hzero]
  apply mean_le_mean
  intro x
  split <;> norm_num

variable (height) in
theorem share_succ_le (j : Nat) : share height (j + 1) ≤ share height j := by
  apply mean_le_mean
  intro x
  by_cases hx : j + 1 ≤ height x
  · rw [if_pos hx, if_pos (by omega)]
  · rw [if_neg hx]
    split <;> norm_num

/-- The share of the letters of one height. -/
theorem mean_height_eq (j : Nat) :
    (mean fun x => if height x = j then (1 : ℚ) else 0) =
      share height j - share height (j + 1) := by
  have hsplit : ∀ x : Ω, (if j ≤ height x then (1 : ℚ) else 0) =
      (if height x = j then 1 else 0) + if j + 1 ≤ height x then 1 else 0 := by
    intro x
    rcases Nat.lt_trichotomy (height x) j with hlt | heq | hgt
    · rw [if_neg (by omega), if_neg (by omega), if_neg (by omega), add_zero]
    · rw [if_pos (by omega), if_pos heq, if_neg (by omega), add_zero]
    · rw [if_pos (by omega), if_neg (by omega), if_pos (by omega), zero_add]
  have hsum : share height j =
      (mean fun x => if height x = j then (1 : ℚ) else 0) + share height (j + 1) := by
    unfold share
    simp only [hsplit]
    exact mean_add
  rw [hsum, add_sub_cancel_right]

variable [Nonempty Ω]

/-- The chance that no letter of a word exceeds a height. -/
theorem expected_all_le (n j : Nat) :
    expected n (fun word => if ∀ y ∈ word, height y ≤ j then (1 : ℚ) else 0) =
      (1 - share height (j + 1)) ^ n := by
  induction n with
  | zero => simp [expected]
  | succ n ih =>
      have hfactor : ∀ (x : Ω) (word : List Ω),
          (if ∀ y ∈ x :: word, height y ≤ j then (1 : ℚ) else 0) =
            (1 - if j + 1 ≤ height x then 1 else 0) *
              if ∀ y ∈ word, height y ≤ j then 1 else 0 := by
        intro x word
        simp only [List.forall_mem_cons]
        by_cases hx : height x ≤ j
        · have hlow : ¬ j + 1 ≤ height x := by omega
          simp [hx, hlow]
        · have hhigh : j + 1 ≤ height x := by omega
          simp [hx, hhigh]
      have hdrawn : (mean fun x : Ω => 1 - if j + 1 ≤ height x then (1 : ℚ) else 0) =
          1 - share height (j + 1) := by
        have hadd := mean_add (f := fun x : Ω => 1 - if j + 1 ≤ height x then (1 : ℚ) else 0)
          (g := fun x : Ω => if j + 1 ≤ height x then (1 : ℚ) else 0)
        simp only [sub_add_cancel, mean_const] at hadd
        unfold share
        linarith
      have hpull : ∀ x : Ω, (expected n fun word =>
          (1 - if j + 1 ≤ height x then (1 : ℚ) else 0) *
            if ∀ y ∈ word, height y ≤ j then 1 else 0) =
          (1 - share height (j + 1)) ^ n * (1 - if j + 1 ≤ height x then (1 : ℚ) else 0) := by
        intro x
        rw [expected_mul_left, ih, mul_comm]
      simp only [expected, hfactor, hpull]
      rw [mean_mul_left, hdrawn, pow_succ]

variable (height) in
theorem share_le_one (j : Nat) : share height j ≤ 1 := by
  have hone : (mean fun _ : Ω => (1 : ℚ)) = 1 := mean_const 1
  rw [← hone]
  apply mean_le_mean
  intro x
  split <;> norm_num

/-! ### Records of one height -/

omit [Fintype Ω] [Nonempty Ω] in
/-- The records of one height in a word: its first letter may be one more. -/
theorem length_records_cons (j : Nat) (x : Ω) (word : List Ω) :
    (((records height (x :: word)).filter fun y => height y = j).length : ℚ) =
      (if height x = j then 1 else 0) * (if ∀ y ∈ word, height y ≤ j then 1 else 0) +
        ((records height word).filter fun y => height y = j).length := by
  rw [records_cons]
  by_cases hx : height x = j
  · subst hx
    by_cases hall : ∀ y ∈ word, height y ≤ height x
    · simp only [if_pos hall, List.filter_cons_of_pos, decide_true, List.length_cons]
      push_cast
      ring
    · simp only [if_neg hall]
      ring
  · by_cases hall : ∀ y ∈ word, height y ≤ height x
    · simp [if_pos hall, hx]
    · simp [if_neg hall, hx]

theorem expected_records_eq (n j : Nat) :
    share height (j + 1) *
        expected n (fun word => (((records height word).filter fun y => height y = j).length : ℚ)) =
      (share height j - share height (j + 1)) * (1 - (1 - share height (j + 1)) ^ n) := by
  induction n with
  | zero => simp [expected, records]
  | succ n ih =>
      have hdraw : ∀ x : Ω, (expected n fun word =>
          (if height x = j then (1 : ℚ) else 0) * (if ∀ y ∈ word, height y ≤ j then 1 else 0) +
            ((records height word).filter fun y => height y = j).length) =
          (1 - share height (j + 1)) ^ n * (if height x = j then (1 : ℚ) else 0) +
            expected n fun word =>
              (((records height word).filter fun y => height y = j).length : ℚ) := by
        intro x
        rw [expected_add, expected_mul_left, expected_all_le, mul_comm]
      simp only [expected, length_records_cons, hdraw]
      rw [mean_add, mean_mul_left, mean_height_eq, mean_const, mul_add, ih]
      ring

variable {q : ℚ}

/-- Where at least one in `q` letters that reach a height goes higher, less than `q - 1`
records of it are to be expected. -/
theorem expected_records_le (n : Nat) {j : Nat} (hpos : 0 < share height (j + 1))
    (hshare : share height j ≤ q * share height (j + 1)) :
    expected n (fun word => (((records height word).filter fun y => height y = j).length : ℚ)) ≤
      q - 1 := by
  have hpow : 0 ≤ (1 - share height (j + 1)) ^ n :=
    pow_nonneg (sub_nonneg.mpr (share_le_one height (j + 1))) n
  have hbound : share height (j + 1) *
      expected n (fun word => (((records height word).filter fun y => height y = j).length : ℚ)) ≤
        share height (j + 1) * (q - 1) := by
    rw [expected_records_eq]
    calc (share height j - share height (j + 1)) * (1 - (1 - share height (j + 1)) ^ n)
        ≤ (share height j - share height (j + 1)) * 1 :=
          mul_le_mul_of_nonneg_left (by linarith) (sub_nonneg.mpr (share_succ_le height j))
      _ ≤ share height (j + 1) * (q - 1) := by linarith
  exact le_of_mul_le_mul_left hbound hpos

/-! ### All records -/

theorem expected_sum_range_le (n : Nat) {bound : Nat} {count : Nat → List Ω → ℚ}
    (hcount : ∀ j, j < bound → expected n (count j) ≤ q) :
    expected n (fun word => ((List.range bound).map fun j => count j word).sum) ≤ bound * q := by
  induction bound with
  | zero => simp [expected_const]
  | succ bound ih =>
      have hlast := hcount bound (Nat.lt_succ_self bound)
      have hbefore := ih fun j hj => hcount j (Nat.lt_succ_of_lt hj)
      simp only [List.range_succ, List.map_append, List.sum_append, List.map_singleton,
        List.sum_singleton]
      rw [expected_add]
      push_cast
      linarith

/-- The letters that reach a height. -/
theorem expected_reaching (n bound : Nat) :
    expected n (fun word => ((word.filter fun y => bound ≤ height y).length : ℚ)) =
      n * share height bound := by
  have hsum : ∀ word : List Ω, ((word.filter fun y => bound ≤ height y).length : ℚ) =
      (word.map fun y => if bound ≤ height y then (1 : ℚ) else 0).sum := by
    intro word
    induction word with
    | nil => rfl
    | cons y word ih =>
        by_cases hy : bound ≤ height y
        · simp [hy, ih, add_comm]
        · simp [hy, ih]
  simp only [hsum]
  exact expected_sum_map _

/-- The records below a height are few, and those from it on are among the letters
that reach it. -/
theorem expected_length_records_le (n bound : Nat)
    (hshare : ∀ j, j < bound →
      0 < share height (j + 1) ∧ share height j ≤ q * share height (j + 1)) :
    expected n (fun word => ((records height word).length : ℚ)) ≤
      bound * (q - 1) + n * share height bound := by
  have hsplit : ∀ word : List Ω, ((records height word).length : ℚ) ≤
      ((List.range bound).map fun j =>
        (((records height word).filter fun y => height y = j).length : ℚ)).sum +
        (word.filter fun y => bound ≤ height y).length := by
    intro word
    have hhigh : ((records height word).filter fun y => bound ≤ height y).length ≤
        (word.filter fun y => bound ≤ height y).length :=
      ((records_sublist word).filter _).length_le
    have hlength := length_by_height height (records height word) bound
    have hcast : (((List.range bound).map fun j =>
        ((records height word).filter fun y => height y = j).length).sum : ℚ) =
        ((List.range bound).map fun j =>
          (((records height word).filter fun y => height y = j).length : ℚ)).sum := by
      rw [Nat.cast_list_sum, List.map_map]
      rfl
    rw [← hcast]
    exact_mod_cast (by omega : (records height word).length ≤ _)
  have hlow := expected_sum_range_le (q := q - 1) n fun j hj =>
    expected_records_le n (hshare j hj).1 (hshare j hj).2
  calc expected n (fun word => ((records height word).length : ℚ))
      ≤ expected n fun word => ((List.range bound).map fun j =>
          (((records height word).filter fun y => height y = j).length : ℚ)).sum +
          (word.filter fun y => bound ≤ height y).length :=
        expected_le_expected fun word _ => hsplit word
    _ ≤ bound * (q - 1) + n * share height bound := by
        rw [expected_add, expected_reaching]
        linarith

/-! ### The highest letter -/

omit [Fintype Ω] [Nonempty Ω] in
/-- No letter is higher than a bound and all that the letters exceed it by. -/
theorem height_le_add_sum (bound : Nat) {word : List Ω} {x : Ω} (hx : x ∈ word) :
    height x ≤ bound + (word.map fun y => height y - bound).sum := by
  induction word with
  | nil => cases hx
  | cons y word ih =>
      rw [List.map_cons, List.sum_cons]
      rcases List.mem_cons.mp hx with rfl | hrest
      · omega
      · have hlater := ih hrest
        omega

/-- Where at most one in `q` letters that reach a height goes higher, little is to be
expected of what a letter exceeds a height by. -/
theorem mean_excess_le {top : Nat} (htop : ∀ x, height x ≤ top)
    (hrare : ∀ j, q * share height (j + 1) ≤ share height j) (bound : Nat) :
    (q - 1) * (mean fun x => ((height x - bound : Nat) : ℚ)) ≤ share height bound := by
  induction hleft : top - bound generalizing bound with
  | zero =>
      have hnone : ∀ x : Ω, ((height x - bound : Nat) : ℚ) = 0 := by
        intro x
        have hx := htop x
        rw [Nat.sub_eq_zero_of_le (by omega), Nat.cast_zero]
      simp only [hnone, mean_const, mul_zero]
      exact share_nonneg height bound
  | succ left ih =>
      have hstep : ∀ x : Ω, ((height x - bound : Nat) : ℚ) =
          (if bound + 1 ≤ height x then 1 else 0) + ((height x - (bound + 1) : Nat) : ℚ) := by
        intro x
        by_cases hx : bound + 1 ≤ height x
        · rw [if_pos hx, show height x - bound = 1 + (height x - (bound + 1)) by omega]
          push_cast
          ring
        · rw [if_neg hx, Nat.sub_eq_zero_of_le (by omega), Nat.sub_eq_zero_of_le (by omega)]
          norm_num
      have hhigher := ih (bound + 1) (by omega)
      calc (q - 1) * (mean fun x => ((height x - bound : Nat) : ℚ))
          = (q - 1) * share height (bound + 1) +
              (q - 1) * mean fun x => ((height x - (bound + 1) : Nat) : ℚ) := by
            simp only [hstep]
            rw [mean_add, mul_add]
            rfl
        _ ≤ q * share height (bound + 1) := by linarith
        _ ≤ share height bound := hrare bound

end Random

end RedisDB.Library
