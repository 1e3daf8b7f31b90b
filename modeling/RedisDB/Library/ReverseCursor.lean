import Mathlib.Data.Nat.Basic
import Mathlib.Tactic.Ring

/-!
# Reversed-bit cursors

A cursor over a table of `2 ^ bits` buckets counts from the high bit of the
mask down.  Ranked by their reversed bits, words of `w` bits fall into intervals
of length `stride`, one for each bucket, and a step of the cursor goes to the
start of the next interval.  A larger table only splits the intervals, so ranks
survive a change of the table.
-/

namespace RedisDB.Library

variable {w : Nat}

/-- The place of a word in the order of reversed bits. -/
def rank (v : BitVec w) : Nat := v.reverse.toNat

/-- The word of a given rank. -/
def ofRank (w place : Nat) : BitVec w := (BitVec.ofNat w place).reverse

/-- The mask of a table of `2 ^ bits` buckets. -/
def lowMask (w bits : Nat) : BitVec w := BitVec.ofNat w (2 ^ bits - 1)

/-- How many ranks share a bucket. -/
def stride (w bits : Nat) : Nat := 2 ^ (w - bits)

/-- The cursor step: fill the unmasked bits and add one to the reversed word. -/
def succCursor (mask v : BitVec w) : BitVec w := ((v ||| ~~~mask).reverse + 1).reverse

theorem rank_lt (v : BitVec w) : rank v < 2 ^ w := v.reverse.isLt

theorem rank_injective {u v : BitVec w} (hrank : rank u = rank v) : u = v := by
  have hreverse := BitVec.eq_of_toNat_eq hrank
  rw [← BitVec.reverse_reverse_eq (x := u), hreverse, BitVec.reverse_reverse_eq]

theorem rank_ofRank {place : Nat} (hplace : place < 2 ^ w) : rank (ofRank w place) = place := by
  rw [rank, ofRank, BitVec.reverse_reverse_eq, BitVec.toNat_ofNat, Nat.mod_eq_of_lt hplace]

theorem rank_reverse (v : BitVec w) : rank v.reverse = v.toNat := by
  rw [rank, BitVec.reverse_reverse_eq]

@[simp] theorem rank_zero : rank (0 : BitVec w) = 0 := by
  have hzero : (0 : BitVec w).reverse = 0 := BitVec.reverse_eq_zero_iff.mpr rfl
  rw [rank, hzero]
  exact BitVec.toNat_zero

theorem rank_eq_zero {v : BitVec w} : rank v = 0 ↔ v = 0 :=
  ⟨fun hzero => rank_injective (hzero.trans rank_zero.symm), fun hv => by rw [hv, rank_zero]⟩

theorem testBit_rank (v : BitVec w) (i : Nat) :
    (rank v).testBit i = (decide (i < w) && v.getLsbD (w - 1 - i)) := by
  rw [rank, BitVec.testBit_toNat, BitVec.getLsbD_reverse, BitVec.getMsbD_eq_getLsbD]

theorem stride_pos (w bits : Nat) : 0 < stride w bits := Nat.two_pow_pos _

theorem mul_stride {bits : Nat} (hbits : bits ≤ w) : 2 ^ bits * stride w bits = 2 ^ w := by
  rw [stride, ← Nat.pow_add, Nat.add_sub_cancel' hbits]

/-- The strides of a larger table divide those of a smaller one. -/
theorem stride_eq_mul {bits more : Nat} (hle : bits ≤ more) (hmore : more ≤ w) :
    stride w bits = 2 ^ (more - bits) * stride w more := by
  rw [stride, stride, ← Nat.pow_add]
  congr 1
  omega

/-! ## Masks -/

theorem getLsbD_lowMask {bits : Nat} (hbits : bits ≤ w) (i : Nat) :
    (lowMask w bits).getLsbD i = decide (i < bits) := by
  have hlt : 2 ^ bits - 1 < 2 ^ w := by
    have hle := Nat.pow_le_pow_right (show 0 < 2 by decide) hbits
    have hpos := Nat.two_pow_pos bits
    omega
  rw [← BitVec.testBit_toNat, lowMask, BitVec.toNat_ofNat, Nat.mod_eq_of_lt hlt,
    Nat.testBit_two_pow_sub_one]

/-- Masking goes back to the start of the interval. -/
theorem rank_and_lowMask {bits : Nat} (hbits : bits ≤ w) (v : BitVec w) :
    rank (v &&& lowMask w bits) = rank v / stride w bits * stride w bits := by
  apply Nat.eq_of_testBit_eq
  intro i
  rw [stride, Nat.testBit_mul_two_pow, Nat.testBit_div_two_pow, testBit_rank, testBit_rank,
    BitVec.getLsbD_and, getLsbD_lowMask hbits]
  by_cases hi : i < w
  · by_cases hhigh : w - bits ≤ i
    · have hback : i - (w - bits) + (w - bits) = i := Nat.sub_add_cancel hhigh
      have hmask : w - 1 - i < bits := by omega
      simp [hi, hhigh, hback, hmask]
    · have hmask : ¬ w - 1 - i < bits := by omega
      simp [hhigh, hmask]
  · have hout : ¬ i - (w - bits) + (w - bits) < w := by omega
    simp [hi, hout]

/-- Words share a bucket when their ranks share an interval. -/
theorem and_lowMask_eq_iff {bits : Nat} (hbits : bits ≤ w) (u v : BitVec w) :
    u &&& lowMask w bits = v &&& lowMask w bits ↔
      rank u / stride w bits = rank v / stride w bits := by
  constructor
  · intro hsame
    have hranks := congrArg rank hsame
    rw [rank_and_lowMask hbits, rank_and_lowMask hbits] at hranks
    exact Nat.eq_of_mul_eq_mul_right (stride_pos w bits) hranks
  · intro hsame
    apply rank_injective
    rw [rank_and_lowMask hbits, rank_and_lowMask hbits, hsame]

/-- A word at the start of an interval has no bit outside the mask. -/
theorem toNat_lt_of_dvd {bits : Nat} (hbits : bits ≤ w) {v : BitVec w}
    (haligned : stride w bits ∣ rank v) : v.toNat < 2 ^ bits := by
  have hmasked : v &&& lowMask w bits = v := by
    apply rank_injective
    rw [rank_and_lowMask hbits, Nat.div_mul_cancel haligned]
  apply Nat.lt_pow_two_of_testBit
  intro i hi
  rw [BitVec.testBit_toNat, ← hmasked, BitVec.getLsbD_and, getLsbD_lowMask hbits]
  simp [Nat.not_lt.mpr hi]

/-- Masks of different tables differ. -/
theorem lowMask_injective {bits more : Nat} (hbits : bits ≤ w) (hmore : more ≤ w)
    (hsame : lowMask w bits = lowMask w more) : bits = more := by
  have hbit : ∀ i, i < bits ↔ i < more := fun i => by
    have hboth := congrArg (fun mask => mask.getLsbD i) hsame
    simpa only [getLsbD_lowMask hbits, getLsbD_lowMask hmore, decide_eq_decide] using hboth
  have hfirst := hbit bits
  have hsecond := hbit more
  omega

/-- The number of an interval is the reversed string of the masked bits. -/
theorem rank_div_stride {bits : Nat} (hbits : bits ≤ w) (v : BitVec w) :
    rank v / stride w bits = rank (v.setWidth bits) := by
  apply Nat.eq_of_testBit_eq
  intro i
  rw [stride, Nat.testBit_div_two_pow, testBit_rank, testBit_rank, BitVec.getLsbD_setWidth]
  by_cases hi : i < bits
  · have hin : i + (w - bits) < w := by omega
    have hback : w - 1 - (i + (w - bits)) = bits - 1 - i := by omega
    have hlow : bits - 1 - i < bits := by omega
    simp [hi, hin, hback, hlow]
  · have hout : ¬ i + (w - bits) < w := by omega
    simp [hi, hout]

/-- Of two masks the smaller one decides. -/
theorem lowMask_and_lowMask {bits more : Nat} (hle : bits ≤ more) (hmore : more ≤ w) :
    lowMask w more &&& lowMask w bits = lowMask w bits := by
  apply BitVec.eq_of_getLsbD_eq
  intro i _
  rw [BitVec.getLsbD_and, getLsbD_lowMask hmore, getLsbD_lowMask (hle.trans hmore)]
  by_cases hi : i < bits
  · simp [hi, Nat.lt_of_lt_of_le hi hle]
  · simp [hi]

/-- Clearing bits never raises the rank. -/
theorem rank_and_le (v mask : BitVec w) : rank (v &&& mask) ≤ rank v := by
  have hand : rank (v &&& mask) = rank v &&& rank mask := by
    apply Nat.eq_of_testBit_eq
    intro i
    rw [Nat.testBit_and, testBit_rank, testBit_rank, testBit_rank, BitVec.getLsbD_and]
    cases decide (i < w) <;> simp
  rw [hand]
  exact Nat.and_le_left

/-- The bits between two masks vanish at the interval starts of the smaller table. -/
theorem and_xor_lowMask_eq_zero {bits more : Nat} (hle : bits ≤ more) (hmore : more ≤ w)
    {v : BitVec w} (haligned : stride w more ∣ rank v) :
    v &&& (lowMask w bits ^^^ lowMask w more) = 0 ↔ stride w bits ∣ rank v := by
  have hxor : v &&& (lowMask w bits ^^^ lowMask w more) =
      (v &&& lowMask w bits) ^^^ (v &&& lowMask w more) := by
    apply BitVec.eq_of_getLsbD_eq
    intro i hi
    simp only [BitVec.getLsbD_and, BitVec.getLsbD_xor]
    cases v.getLsbD i <;> simp
  have hsame : v &&& lowMask w more = v := by
    apply rank_injective
    rw [rank_and_lowMask hmore, Nat.div_mul_cancel haligned]
  rw [hxor, hsame]
  refine BitVec.xor_eq_zero_iff.trans ?_
  constructor
  · intro hv
    have hrank := rank_and_lowMask (hle.trans hmore) v
    rw [hv] at hrank
    exact Dvd.intro_left _ hrank.symm
  · intro hdvd
    apply rank_injective
    rw [rank_and_lowMask (hle.trans hmore), Nat.div_mul_cancel hdvd]

/-! ## The step -/

/-- Filling the unmasked bits goes to the end of the interval. -/
theorem rank_or_not_lowMask {bits : Nat} (hbits : bits ≤ w) (v : BitVec w) :
    rank (v ||| ~~~lowMask w bits) =
      rank v / stride w bits * stride w bits + (stride w bits - 1) := by
  have hsplit : rank v / stride w bits * stride w bits + (stride w bits - 1) =
      rank v / stride w bits * stride w bits ||| (stride w bits - 1) := by
    rw [stride, Nat.mul_comm]
    exact Nat.two_pow_add_eq_or_of_lt (Nat.sub_lt (Nat.two_pow_pos _) (by decide)) _
  rw [hsplit, ← rank_and_lowMask hbits]
  apply Nat.eq_of_testBit_eq
  intro i
  rw [Nat.testBit_or, testBit_rank, testBit_rank, stride, Nat.testBit_two_pow_sub_one,
    BitVec.getLsbD_or, BitVec.getLsbD_and, BitVec.getLsbD_not, getLsbD_lowMask hbits]
  by_cases hi : i < w
  · have hin : w - 1 - i < w := by omega
    by_cases hlow : i < w - bits
    · have hmask : ¬ w - 1 - i < bits := by omega
      simp [hi, hin, hlow, hmask]
    · have hmask : w - 1 - i < bits := by omega
      simp [hi, hlow, hmask]
  · have hlow : ¬ i < w - bits := by omega
    simp [hi, hlow]

/-- A step goes to the start of the next interval, and from the last one to zero. -/
theorem rank_succCursor {bits : Nat} (hbits : bits ≤ w) (v : BitVec w) :
    rank (succCursor (lowMask w bits) v) =
      (rank v / stride w bits + 1) * stride w bits % 2 ^ w := by
  have hpos := stride_pos w bits
  rw [succCursor, rank_reverse, BitVec.toNat_add,
    show ((v ||| ~~~lowMask w bits).reverse).toNat = rank (v ||| ~~~lowMask w bits) from rfl,
    rank_or_not_lowMask hbits, Nat.add_mul, Nat.one_mul]
  have hone : (rank v / stride w bits * stride w bits + (stride w bits - 1) +
      (1 : BitVec w).toNat) % 2 ^ w =
      (rank v / stride w bits * stride w bits + (stride w bits - 1) + 1) % 2 ^ w := by
    rw [show (1 : BitVec w) = BitVec.ofNat w 1 from rfl, BitVec.toNat_ofNat, Nat.add_mod_mod]
  rw [hone]
  congr 1
  omega

/-- Intervals are numbered in cursor order; zero follows the last one. -/
theorem succCursor_interval {bits : Nat} (hbits : bits ≤ w) (v : BitVec w) :
    rank (succCursor (lowMask w bits) v) / stride w bits =
      (rank v / stride w bits + 1) % 2 ^ bits := by
  rw [rank_succCursor hbits, ← mul_stride hbits, Nat.mul_mod_mul_right,
    Nat.mul_div_cancel _ (stride_pos w bits)]

/-- A step steps to the start of an interval. -/
theorem stride_dvd_rank_succCursor {bits : Nat} (hbits : bits ≤ w) (v : BitVec w) :
    stride w bits ∣ rank (succCursor (lowMask w bits) v) := by
  rw [rank_succCursor hbits v]
  exact (Nat.dvd_mod_iff (Dvd.intro_left _ (mul_stride hbits))).mpr (Dvd.intro_left _ rfl)

/-! ## Sweeps

A sweep steps under the mask of a larger table until the cursor is back at an
interval start of the smaller one: it visits the larger table's buckets that one
bucket of the smaller table splits into.
-/

/-- The cursors visited and the one after them; `none` when `fuel` steps do not
reach an interval start. -/
def sweep (small large : BitVec w) : Nat → BitVec w → Option (List (BitVec w) × BitVec w)
  | 0, _ => none
  | fuel + 1, v =>
      let next := succCursor large v
      if next &&& (small ^^^ large) ≠ 0 then
        (sweep small large fuel next).map fun rest => (v :: rest.1, rest.2)
      else some ([v], next)

/-- An interval of the smaller table is a block of intervals of the larger one. -/
theorem div_stride {bits more : Nat} (hle : bits ≤ more) (hmore : more ≤ w) (place : Nat) :
    place / stride w bits = place / stride w more / 2 ^ (more - bits) := by
  rw [stride_eq_mul hle hmore, Nat.mul_comm, Nat.div_div_eq_div_mul]

theorem rank_div_stride_lt {bits : Nat} (hbits : bits ≤ w) (v : BitVec w) :
    rank v / stride w bits < 2 ^ bits := by
  rw [Nat.div_lt_iff_lt_mul (stride_pos w bits), mul_stride hbits]
  exact rank_lt v

/-- A step inside a block of numbers. -/
theorem succ_in_block {number size : Nat} (hin : number % size + 1 < size) :
    (number + 1) % size = number % size + 1 ∧ (number + 1) / size = number / size := by
  have hmod : (number + 1) % size = number % size + 1 := by
    rw [Nat.add_mod, Nat.mod_eq_of_lt (show 1 < size by omega), Nat.mod_eq_of_lt hin]
  have hbefore := Nat.div_add_mod number size
  have hafter := Nat.div_add_mod (number + 1) size
  refine ⟨hmod, Nat.eq_of_mul_eq_mul_left (show 0 < size by omega) ?_⟩
  omega

/-- From the last interval of a block a sweep steps out of it and ends. -/
theorem succCursor_of_last {bits more : Nat} (hle : bits ≤ more) (hmore : more ≤ w)
    {v : BitVec w}
    (hlast : rank v / stride w more % 2 ^ (more - bits) + 1 = 2 ^ (more - bits)) :
    succCursor (lowMask w more) v &&& (lowMask w bits ^^^ lowMask w more) = 0 ∧
      rank (succCursor (lowMask w more) v) =
        (rank v / stride w bits + 1) * stride w bits % 2 ^ w := by
  have hdivmod := Nat.div_add_mod (rank v / stride w more) (2 ^ (more - bits))
  have hend : rank v / stride w more + 1 =
      (rank v / stride w bits + 1) * 2 ^ (more - bits) := by
    rw [div_stride hle hmore, Nat.add_mul, Nat.one_mul, Nat.mul_comm]
    omega
  have hrank : rank (succCursor (lowMask w more) v) =
      (rank v / stride w bits + 1) * stride w bits % 2 ^ w := by
    rw [rank_succCursor hmore v, hend, Nat.mul_assoc, ← stride_eq_mul hle hmore]
  refine ⟨?_, hrank⟩
  rw [and_xor_lowMask_eq_zero hle hmore (stride_dvd_rank_succCursor hmore v), hrank]
  exact (Nat.dvd_mod_iff (Dvd.intro_left _ (mul_stride (hle.trans hmore)))).mpr
    (Dvd.intro_left _ rfl)

/-- From any other interval it steps to the next one of the block and goes on. -/
theorem succCursor_inside {bits more : Nat} (hle : bits ≤ more) (hmore : more ≤ w)
    {v : BitVec w}
    (hin : rank v / stride w more % 2 ^ (more - bits) + 1 < 2 ^ (more - bits)) :
    succCursor (lowMask w more) v &&& (lowMask w bits ^^^ lowMask w more) ≠ 0 ∧
      rank (succCursor (lowMask w more) v) / stride w more = rank v / stride w more + 1 := by
  have hstride := stride_pos w more
  obtain ⟨hmod, -⟩ := succ_in_block hin
  have hinside : rank v / stride w more + 1 < 2 ^ more := by
    refine Nat.lt_of_le_of_ne (rank_div_stride_lt hmore v) fun hend => ?_
    rw [hend, Nat.mod_eq_zero_of_dvd (Nat.pow_dvd_pow 2 (Nat.sub_le _ _))] at hmod
    omega
  have hnext : rank (succCursor (lowMask w more) v) =
      (rank v / stride w more + 1) * stride w more := by
    rw [rank_succCursor hmore v]
    refine Nat.mod_eq_of_lt ?_
    rw [← mul_stride hmore]
    exact Nat.mul_lt_mul_of_pos_right hinside hstride
  refine ⟨?_, by rw [hnext, Nat.mul_div_cancel _ hstride]⟩
  rw [ne_eq, and_xor_lowMask_eq_zero hle hmore (stride_dvd_rank_succCursor hmore v), hnext,
    stride_eq_mul hle hmore]
  intro hdvd
  have hzero := Nat.mod_eq_zero_of_dvd (Nat.dvd_of_mul_dvd_mul_right hstride hdvd)
  omega

/-- From interval `i` of the larger table a sweep goes through the intervals up to the
next multiple of the ratio of the two tables. -/
theorem sweep_spec {bits more fuel : Nat} (hle : bits ≤ more) (hmore : more ≤ w) (v : BitVec w)
    (hfuel : 2 ^ (more - bits) - rank v / stride w more % 2 ^ (more - bits) ≤ fuel) :
    ∃ visited last, sweep (lowMask w bits) (lowMask w more) fuel v = some (visited, last) ∧
      visited.map (fun u => rank u / stride w more) = List.range' (rank v / stride w more)
        (2 ^ (more - bits) - rank v / stride w more % 2 ^ (more - bits)) ∧
      rank last = (rank v / stride w bits + 1) * stride w bits % 2 ^ w := by
  have hmodlt : ∀ number, number % 2 ^ (more - bits) < 2 ^ (more - bits) :=
    fun number => Nat.mod_lt number (Nat.two_pow_pos _)
  induction fuel generalizing v with
  | zero =>
      have := hmodlt (rank v / stride w more)
      omega
  | succ fuel ih =>
      rw [sweep]
      rcases Nat.eq_or_lt_of_le (hmodlt (rank v / stride w more)) with hlast | hin
      · obtain ⟨hstop, hrank⟩ := succCursor_of_last hle hmore hlast
        refine ⟨[v], succCursor (lowMask w more) v, by simp [hstop], ?_, hrank⟩
        rw [show 2 ^ (more - bits) - rank v / stride w more % 2 ^ (more - bits) = 1 by omega]
        rfl
      · obtain ⟨hgoes, hnext⟩ := succCursor_inside hle hmore hin
        obtain ⟨hmod, hdiv⟩ := succ_in_block hin
        obtain ⟨visited, last, hsweep, hvisited, hrank⟩ :=
          ih (succCursor (lowMask w more) v) (by rw [hnext, hmod]; omega)
        refine ⟨v :: visited, last, ?_, ?_, ?_⟩
        · simp only [if_pos hgoes, hsweep, Option.map_some]
        · rw [List.map_cons, hvisited, hnext, hmod,
            show 2 ^ (more - bits) - rank v / stride w more % 2 ^ (more - bits) =
              2 ^ (more - bits) - (rank v / stride w more % 2 ^ (more - bits) + 1) + 1 by omega,
            List.range'_succ]
        · rw [hrank, div_stride hle hmore, hnext, hdiv, ← div_stride hle hmore]

/-- The interval of the larger table that a number counts in the same block as `v`. -/
theorem exists_rank_div {bits more : Nat} (hle : bits ≤ more) (hmore : more ≤ w) {v : BitVec w}
    {i : Nat} (hsame : i / 2 ^ (more - bits) = rank v / stride w bits) :
    ∃ u : BitVec w, rank u = i * stride w more := by
  have hinside : i * stride w more < 2 ^ w := by
    rw [← mul_stride hmore]
    refine Nat.mul_lt_mul_of_pos_right ?_ (stride_pos w more)
    have hsplit : 2 ^ more = 2 ^ bits * 2 ^ (more - bits) := by
      rw [← Nat.pow_add, Nat.add_sub_cancel' hle]
    rw [hsplit, ← Nat.div_lt_iff_lt_mul (Nat.two_pow_pos _), hsame]
    exact rank_div_stride_lt (hle.trans hmore) v
  exact ⟨ofRank w (i * stride w more), rank_ofRank hinside⟩

/-- A sweep visits each interval of the larger table that meets the rest of the smaller
table's interval, once. -/
theorem sweep_visits {bits more fuel : Nat} (hle : bits ≤ more) (hmore : more ≤ w) (v : BitVec w)
    (hfuel : 2 ^ (more - bits) ≤ fuel) :
    ∃ visited last, sweep (lowMask w bits) (lowMask w more) fuel v = some (visited, last) ∧
      (visited.map fun u => rank u / stride w more).Nodup ∧
      (∀ i, i ∈ visited.map (fun u => rank u / stride w more) ↔
        ∃ u : BitVec w, rank v ≤ rank u ∧ rank u / stride w bits = rank v / stride w bits ∧
          rank u / stride w more = i) ∧
      rank last = (rank v / stride w bits + 1) * stride w bits % 2 ^ w := by
  obtain ⟨visited, last, hsweep, hvisited, hrank⟩ :=
    sweep_spec hle hmore v ((Nat.sub_le _ _).trans hfuel)
  refine ⟨visited, last, hsweep, ?_, fun i => ?_, hrank⟩
  · rw [hvisited]
    exact List.nodup_range'
  · have hratio := Nat.two_pow_pos (more - bits)
    have hstride := stride_pos w more
    have hdivmod := Nat.div_add_mod (rank v / stride w more) (2 ^ (more - bits))
    have hmodlt := Nat.mod_lt (rank v / stride w more) hratio
    rw [hvisited, List.mem_range'_1]
    constructor
    · rintro ⟨hlow, hhigh⟩
      rcases Nat.eq_or_lt_of_le hlow with rfl | hlow
      · exact ⟨v, Nat.le_refl _, rfl, rfl⟩
      · have hsame : i / 2 ^ (more - bits) = rank v / stride w bits := by
          rw [div_stride hle hmore, Nat.div_eq_iff hratio, Nat.mul_comm]
          omega
        obtain ⟨u, hu⟩ := exists_rank_div hle hmore hsame
        refine ⟨u, ?_, ?_, ?_⟩
        · rw [hu]
          exact (Nat.lt_mul_of_div_lt hlow hstride).le
        · rw [div_stride hle hmore, hu, Nat.mul_div_cancel _ hstride, hsame]
        · rw [hu, Nat.mul_div_cancel _ hstride]
    · rintro ⟨u, hlow, hsame, rfl⟩
      rw [div_stride hle hmore, div_stride hle hmore, Nat.div_eq_iff hratio,
        Nat.mul_comm] at hsame
      have hfirst := Nat.div_le_div_right (c := stride w more) hlow
      omega

end RedisDB.Library
