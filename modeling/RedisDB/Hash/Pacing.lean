import RedisDB.Hash.StateInvariant

/-!
# Pacing of rehashes

A rehash is spread over many calls, each of which may also insert or erase.  The
counters stay in proportion because every change pays for a move: the invariant
gives each state a credit, a move earns one, an insertion or removal spends what
the next move has earned.
-/

namespace RedisDB

open RedisDB.Library

variable {K T : Type}

/-! ## Powers of two between bounds -/

theorem IsBucketCount.eq_double {small large : Nat} (hsmall : IsBucketCount small)
    (hlarge : IsBucketCount large) (hlt : small < large) (hle : large < 4 * small) :
    large = 2 * small := by
  obtain ⟨a, -, rfl⟩ := hsmall
  obtain ⟨b, -, rfl⟩ := hlarge
  have hab : a < b := (Nat.pow_lt_pow_iff_right (by decide)).mp hlt
  have hba : b < a + 2 := by
    rw [show 4 * 2 ^ a = 2 ^ (a + 2) by rw [Nat.pow_add]; omega] at hle
    exact (Nat.pow_lt_pow_iff_right (by decide)).mp hle
  have hb : b = a + 1 := by omega
  rw [hb, Nat.pow_succ]
  omega

theorem IsBucketCount.eq_eighth {small large : Nat} (hsmall : IsBucketCount small)
    (hlarge : IsBucketCount large) (hlt : 4 * small < large) (hle : large < 16 * small) :
    large = 8 * small := by
  obtain ⟨a, -, rfl⟩ := hsmall
  obtain ⟨b, -, rfl⟩ := hlarge
  have hab : a + 2 < b := by
    rw [show 4 * 2 ^ a = 2 ^ (a + 2) by rw [Nat.pow_add]; omega] at hlt
    exact (Nat.pow_lt_pow_iff_right (by decide)).mp hlt
  have hba : b < a + 4 := by
    rw [show 16 * 2 ^ a = 2 ^ (a + 4) by rw [Nat.pow_add]; omega] at hle
    exact (Nat.pow_lt_pow_iff_right (by decide)).mp hle
  have hb : b = a + 3 := by omega
  rw [hb, Nat.pow_add]
  omega

/-- A bucket count beyond 32 is at least 64. -/
theorem IsBucketCount.cases_sixtyFour {count : Nat} (hcount : IsBucketCount count)
    (hlt : 32 < count) : count = 64 ∨ 128 ≤ count := by
  obtain ⟨k, -, rfl⟩ := hcount
  have hk : 5 < k := by
    rw [show 32 = 2 ^ 5 from rfl] at hlt
    exact (Nat.pow_lt_pow_iff_right (by decide)).mp hlt
  rcases Nat.lt_or_ge k 7 with h | h
  · have hk6 : k = 6 := by omega
    subst hk6
    exact .inl rfl
  · right
    calc 128 = 2 ^ 7 := rfl
      _ ≤ 2 ^ k := Nat.pow_le_pow_right (by decide) h

theorem IsBucketCount.even {count : Nat} (hcount : IsBucketCount count) : 4 ∣ count := by
  obtain ⟨k, hk, rfl⟩ := hcount
  exact Nat.pow_dvd_pow 2 hk

namespace Hash

/-! ## The invariant -/

/-- No rehash is in progress: the load is bounded from both sides. -/
structure Resting (factors : LoadFactors) (credit : Nat) (h : Hash T) : Prop where
  high : h.mActive.mSize + credit ≤ 2 * h.mActive.mBucketsNumber
  low : h.mActive.mBucketsNumber ≤ 32 ∨
    h.mActive.mBucketsNumber ≤
      10 * h.mActive.mSize + factors.slack h.mActive.mBucketsNumber

/-- An expansion to twice the bucket count, `calls` moves of two buckets each. -/
structure Growing (credit calls : Nat) (h : Hash T) (backup : HashTable T) : Prop where
  double : backup.mBucketsNumber = 2 * h.mActive.mBucketsNumber
  cursor : h.mRehashIndex = (2 * calls : Nat)
  active_low : h.mActive.mBucketsNumber + credit ≤ h.mActive.mSize + calls
  total_low : h.mActive.mBucketsNumber + credit ≤ h.entries.length + calls
  total_high : h.entries.length + credit ≤ 2 * h.mActive.mBucketsNumber + calls

/-- A shrink to an eighth of the bucket count, `calls` moves of eight buckets each,
begun with `start` entries.  While more than four are counted, an `erase` makes
two moves. -/
structure Shrinking (factors : LoadFactors) (credit calls start : Nat) (h : Hash T)
    (backup : HashTable T) : Prop where
  eighth : h.mActive.mBucketsNumber = 8 * backup.mBucketsNumber
  cursor : h.mRehashIndex = (8 * calls : Nat)
  start_gt : 4 < start
  start_below : factors.belowShrink start h.mActive.mBucketsNumber = true
  start_low : h.mActive.mBucketsNumber ≤
    10 * (start + 1) + factors.slack h.mActive.mBucketsNumber
  active_le : h.mActive.mSize ≤ start
  active_low : 2 * start + credit ≤ calls + 2 * h.mActive.mSize ∨
    (h.mActive.mSize ≤ 4 ∧ 2 * start + credit ≤ calls + h.mActive.mSize + 5)
  total_low : h.mActive.mBucketsNumber = 64 ∨
    2 * start + credit ≤ calls + 2 * h.entries.length
  total_high : h.entries.length + credit ≤ start + calls

/-- The pacing of a state, with its credit. -/
inductive Paced (factors : LoadFactors) (credit : Nat) (h : Hash T) : Prop where
  | resting (hbackup : h.mBackup = none) (hresting : Resting factors credit h)
  | growing {backup : HashTable T} {calls : Nat} (hbackup : h.mBackup = some backup)
      (hgrowing : Growing credit calls h backup)
  | shrinking {backup : HashTable T} {calls start : Nat} (hbackup : h.mBackup = some backup)
      (hshrinking : Shrinking factors credit calls start h backup)

theorem Paced.new (factors : LoadFactors) : Paced factors 1 (new : Hash T) :=
  .resting rfl ⟨Nat.le_of_ble_eq_true rfl, .inl (Nat.le_of_ble_eq_true rfl)⟩

theorem Paced.resting_of_none {factors : LoadFactors} {credit : Nat} {h : Hash T}
    (hpaced : Paced factors credit h) (hbackup : h.mBackup = none) :
    Resting factors credit h := by
  cases hpaced with
  | resting _ hresting => exact hresting
  | growing hsome => rw [hsome] at hbackup; cases hbackup
  | shrinking hsome => rw [hsome] at hbackup; cases hbackup

theorem Paced.busy_of_some {factors : LoadFactors} {credit : Nat} {h : Hash T}
    {backup : HashTable T} (hpaced : Paced factors credit h) (hbackup : h.mBackup = some backup) :
    (∃ calls, Growing credit calls h backup) ∨
      ∃ calls start, Shrinking factors credit calls start h backup := by
  cases hpaced with
  | resting hnone => rw [hnone] at hbackup; cases hbackup
  | growing hsome hgrowing =>
      cases hsome.symm.trans hbackup
      exact .inl ⟨_, hgrowing⟩
  | shrinking hsome hshrinking =>
      cases hsome.symm.trans hbackup
      exact .inr ⟨_, _, hshrinking⟩

/-- Spending credit is always possible. -/
theorem Paced.weaken {factors : LoadFactors} {credit less : Nat} {h : Hash T}
    (hpaced : Paced factors credit h) (hle : less ≤ credit) : Paced factors less h := by
  cases hpaced with
  | resting hbackup hresting =>
      exact .resting hbackup ⟨by have := hresting.high; omega, hresting.low⟩
  | growing hbackup hgrowing =>
      refine .growing hbackup ⟨hgrowing.double, hgrowing.cursor, ?_, ?_, ?_⟩
      · have := hgrowing.active_low; omega
      · have := hgrowing.total_low; omega
      · have := hgrowing.total_high; omega
  | shrinking hbackup hshrinking =>
      refine .shrinking hbackup ⟨hshrinking.eighth, hshrinking.cursor, hshrinking.start_gt,
        hshrinking.start_below, hshrinking.start_low, hshrinking.active_le, ?_, ?_, ?_⟩
      · have := hshrinking.active_low; omega
      · have := hshrinking.total_low; omega
      · have := hshrinking.total_high; omega

/-- What the opening sizes of a shrink say about its two bucket counts. -/
theorem Shrinking.bounds {factors : LoadFactors} {credit calls start : Nat} {h : Hash T}
    {backup : HashTable T} (hinv : RehashInvariant h)
    (hshrinking : Shrinking factors credit calls start h backup) :
    8 * start < h.mActive.mBucketsNumber ∧
      factors.slack h.mActive.mBucketsNumber ≤ h.mActive.mBucketsNumber / 2 ^ 20 ∧
      (h.mActive.mBucketsNumber = 64 ∨ 128 ≤ h.mActive.mBucketsNumber) := by
  have hbelow := factors.lt_of_below hshrinking.start_below
  have hgt := hshrinking.start_gt
  exact ⟨hbelow, factors.slack_le _, hinv.active_count.cases_sixtyFour (by omega)⟩

/-- While a rehash is in progress the old counter is not zero. -/
theorem Paced.active_pos {factors : LoadFactors} {h : Hash T} {backup : HashTable T}
    (hinv : RehashInvariant h) (hpaced : Paced factors 1 h)
    (hbackup : h.mBackup = some backup) : 1 ≤ h.mActive.mSize := by
  obtain ⟨index, hbusy, hindex⟩ := hinv.cursor hbackup
  rcases hpaced.busy_of_some hbackup with ⟨calls, hgrowing⟩ | ⟨calls, start, hshrinking⟩
  · have hcursor := hbusy.index_eq.symm.trans hgrowing.cursor
    have hlow := hgrowing.active_low
    omega
  · have hcursor := hbusy.index_eq.symm.trans hshrinking.cursor
    have hlow := hshrinking.active_low
    have heighth := hshrinking.eighth
    have hstart := hshrinking.start_low
    obtain ⟨hbelow, hslack, hcount⟩ := hshrinking.bounds hinv
    omega

/-! ## One move -/

/-- The step of an automatic call is the ratio of the two bucket counts. -/
theorem step_of_double {active backup : HashTable T} (hpos : 0 < active.mBucketsNumber)
    (hdouble : backup.mBucketsNumber = 2 * active.mBucketsNumber) :
    calculateReHashStep active backup = 2 := by
  rw [calculateReHashStep, if_neg (by omega), hdouble]
  exact Nat.mul_div_cancel _ hpos

theorem step_of_eighth {active backup : HashTable T} (hpos : 0 < backup.mBucketsNumber)
    (heighth : active.mBucketsNumber = 8 * backup.mBucketsNumber) :
    calculateReHashStep active backup = 8 := by
  rw [calculateReHashStep, if_pos (by omega), heighth]
  exact Nat.mul_div_cancel _ hpos

/-- The outcomes of one call in progress that the counters see. -/
theorem rehash_counters {params : HashParams K T} {h next : Hash T} {backup : HashTable T}
    {index step : Nat} {isAuto : Bool} (hinv : RehashInvariant h)
    (hbusy : h.Busy backup index) (hindex : index < h.mActive.mBucketsNumber)
    (hrehash : h.rehash params step isAuto = some next) :
    (h.nextIndex backup index step isAuto = h.mActive.mBucketsNumber ∧
        next.mBackup = none ∧ next.mActive.mBucketsNumber = backup.mBucketsNumber ∧
        next.mActive.mSize = h.entries.length) ∨
      (h.nextIndex backup index step isAuto < h.mActive.mBucketsNumber ∧
        ∃ table, next.mBackup = some table ∧ table.mBucketsNumber = backup.mBucketsNumber ∧
          next.mActive.mBucketsNumber = h.mActive.mBucketsNumber ∧
          next.mActive.mSize = h.mActive.mSize ∧
          next.mRehashIndex = h.nextIndex backup index step isAuto ∧
          next.entries.length = h.entries.length) := by
  have hrehashed := rehashed_of_busy hinv hbusy.backup_eq hrehash
  have hlength := hrehashed.contents.length_eq
  obtain ⟨active, received, hreleased, hreceived, hresult⟩ :=
    rehash_of_busy step isAuto hbusy hindex (hinv.home_lt params hbusy.backup_eq)
  have hle := nextIndex_le h backup index step isAuto
  rw [hresult] at hrehash
  have hnext := Option.some.inj hrehash
  split at hnext
  · rename_i hend
    left
    have hnone : next.mBackup = none := by rw [← hnext]; rfl
    refine ⟨hend, hnone, by rw [← hnext]; exact hreceived.buckets, ?_⟩
    rw [hrehashed.invariant.idle_size (hrehashed.invariant.idle_of_none hnone), ← hlength,
      entries_of_none hnone]
  · rename_i hmore
    right
    refine ⟨Nat.lt_of_le_of_ne hle hmore, received, ?_, hreceived.buckets, ?_, ?_, ?_, hlength⟩
    · rw [← hnext]; rfl
    · rw [← hnext]; exact hreleased.buckets
    · rw [← hnext]; exact hreleased.size
    · rw [← hnext]; rfl

/-- A move of an expansion earns one credit; the last one leaves a resting table. -/
theorem Growing.rehash {params : HashParams K T} {credit calls : Nat} {h next : Hash T}
    {backup : HashTable T} (hinv : RehashInvariant h) (hbackup : h.mBackup = some backup)
    (hgrowing : Growing credit calls h backup) (hcredit : 1 ≤ credit)
    (hrehash : h.rehash params 2 true = some next) :
    Paced params.factors (credit + 1) next := by
  obtain ⟨index, hbusy, hindex⟩ := hinv.cursor hbackup
  have hcursor := hbusy.eq_of_index hgrowing.cursor
  have hfour := hinv.active_count.four_le
  have hdvd := hinv.active_count.even
  have hstep : h.nextIndex backup index 2 true = 2 * (calls + 1) := by
    rw [nextIndex, if_pos rfl, step_of_double (by omega) hgrowing.double]
    omega
  have hlow := hgrowing.active_low
  have htotal := hgrowing.total_low
  have hhigh := hgrowing.total_high
  rcases rehash_counters hinv hbusy hindex hrehash with
    ⟨hend, hnone, hnumber, hsize⟩ |
      ⟨hmore, table, hsome, hnumber, hactive, hsize, hpos, hlength⟩
  · rw [hstep] at hend
    rw [hgrowing.double] at hnumber
    exact .resting hnone ⟨by omega, .inr (by omega)⟩
  · rw [hstep] at hpos
    refine .growing hsome ⟨?_, hpos, ?_, ?_, ?_⟩
    · rw [hnumber, hactive, hgrowing.double]
    · omega
    · omega
    · omega

/-- A move of a shrink earns one credit; the last one leaves a resting table. -/
theorem Shrinking.rehash {params : HashParams K T} {credit calls start : Nat}
    {h next : Hash T} {backup : HashTable T} (hinv : RehashInvariant h)
    (hbackup : h.mBackup = some backup)
    (hshrinking : Shrinking params.factors credit calls start h backup)
    (hcredit : credit ≤ 2) (hrehash : h.rehash params 2 true = some next) :
    Paced params.factors (credit + 1) next := by
  obtain ⟨index, hbusy, hindex⟩ := hinv.cursor hbackup
  have hcursor := hbusy.eq_of_index hshrinking.cursor
  have heighth := hshrinking.eighth
  have hfour := (hinv.backup_count backup hbackup).four_le
  have hstep : h.nextIndex backup index 2 true = 8 * (calls + 1) := by
    rw [nextIndex, if_pos rfl, step_of_eighth (by omega) heighth]
    omega
  have hlow := hshrinking.active_low
  have htotal := hshrinking.total_low
  have hhigh := hshrinking.total_high
  have hstart := hshrinking.start_low
  obtain ⟨hbelow, hslack, hcount⟩ := hshrinking.bounds hinv
  rcases rehash_counters hinv hbusy hindex hrehash with
    ⟨hend, hnone, hnumber, hsize⟩ |
      ⟨hmore, table, hsome, hnumber, hactive, hsize, hpos, hlength⟩
  · rw [hstep] at hend
    exact .resting hnone ⟨by omega, by omega⟩
  · rw [hstep] at hpos
    refine .shrinking hsome ⟨?_, hpos, hshrinking.start_gt, ?_, ?_, ?_, ?_, ?_, ?_⟩
    · rw [hnumber, hactive, heighth]
    · rw [hactive]; exact hshrinking.start_below
    · rw [hactive]; exact hstart
    · rw [hsize]; exact hshrinking.active_le
    · omega
    · omega
    · omega

/-- An automatic call in progress earns one credit. -/
theorem Paced.rehash {params : HashParams K T} {credit : Nat} {h next : Hash T}
    (hinv : RehashInvariant h) (hpaced : Paced params.factors credit h)
    (hbusy : h.mBackup ≠ none) (hcredit : 1 ≤ credit) (hle : credit ≤ 2)
    (hrehash : h.rehash params 2 true = some next) :
    Paced params.factors (credit + 1) next := by
  cases hpaced with
  | resting hnone => exact absurd hnone hbusy
  | growing hsome hgrowing => exact hgrowing.rehash hinv hsome hcredit hrehash
  | shrinking hsome hshrinking => exact hshrinking.rehash hinv hsome hle hrehash

/-- A forced call ends the rehash with a table within the bounds. -/
theorem Paced.complete {params : HashParams K T} {h next : Hash T}
    (hinv : RehashInvariant h) (hpaced : Paced params.factors 1 h)
    (hcomplete : h.complete params = some next) : Paced params.factors 1 next := by
  rcases complete_cases hcomplete with ⟨hbusyFlag, hrehash⟩ | ⟨-, rfl⟩
  · obtain ⟨backup, hbackup⟩ := hinv.some_of_isReHashing hbusyFlag
    obtain ⟨index, hbusy, hindex⟩ := hinv.cursor hbackup
    have hall : h.nextIndex backup index h.mActive.mBucketsNumber false =
        h.mActive.mBucketsNumber := by
      simp [nextIndex]
    rcases rehash_counters hinv hbusy hindex hrehash with
      ⟨-, hnone, hnumber, hsize⟩ | ⟨hmore, -⟩
    · rcases hpaced.busy_of_some hbackup with ⟨calls, hgrowing⟩ | ⟨calls, start, hshrinking⟩
      · have hcursor := hbusy.eq_of_index hgrowing.cursor
        have hdouble := hgrowing.double
        have htotal := hgrowing.total_low
        have hhigh := hgrowing.total_high
        exact .resting hnone ⟨by omega, .inr (by omega)⟩
      · have hcursor := hbusy.eq_of_index hshrinking.cursor
        have heighth := hshrinking.eighth
        have htotal := hshrinking.total_low
        have hhigh := hshrinking.total_high
        have hstart := hshrinking.start_low
        obtain ⟨hbelow, hslack, hcount⟩ := hshrinking.bounds hinv
        exact .resting hnone ⟨by omega, by omega⟩
    · rw [hall] at hmore
      exact absurd hmore (Nat.lt_irrefl _)
  · exact hpaced

/-! ## The start of a rehash -/

/-- An expansion doubles the bucket count. -/
theorem Resting.growth_target {params : HashParams K T} {h : Hash T} {count : Nat}
    (hinv : RehashInvariant h) (hresting : Resting params.factors 1 h)
    (hneed : h.isNeedReHash params = true)
    (hcount : getNextPower2 h.mActive.mSize = some count) :
    count = 2 * h.mActive.mBucketsNumber := by
  obtain ⟨hpower, hle, hleast⟩ := getNextPower2_eq_some hcount
  have hlt := params.factors.lt_of_exceeds hneed
  have hhigh := hresting.high
  have hfour := hinv.active_count.four_le
  exact hinv.active_count.eq_double hpower (by omega) (by omega)

/-- A shrink divides the bucket count by eight: before the removal the table was
not sparse. -/
theorem shrink_target {params : HashParams K T} {h : Hash T} {count : Nat}
    (hinv : RehashInvariant h) (hneed : h.isNeedShrink params = true)
    (hlow : h.mActive.mBucketsNumber ≤ 32 ∨ h.mActive.mBucketsNumber ≤
      10 * (h.mActive.mSize + 1) + params.factors.slack h.mActive.mBucketsNumber)
    (hcount : getNextPower2 h.mActive.mSize = some count) :
    h.mActive.mBucketsNumber = 8 * count := by
  obtain ⟨hpower, hle, hleast⟩ := getNextPower2_eq_some hcount
  obtain ⟨hmin, hbelow⟩ := isNeedShrink_iff.mp hneed
  have hlt := params.factors.lt_of_below hbelow
  have hslack := params.factors.slack_le h.mActive.mBucketsNumber
  exact hpower.eq_eighth hinv.active_count (by omega) (by omega)

/-! ## One call -/

/-- An expansion starts with one credit. -/
theorem Resting.started {params : HashParams K T} {h : Hash T} {table : HashTable T}
    (hinv : RehashInvariant h) (hidle : h.mBackup = none)
    (hresting : Resting params.factors 1 h) (hneed : h.isNeedReHash params = true)
    (hstarted : Started h table) : Growing 1 0 (h.startedState table) table := by
  have hlength := hstarted.length hinv hidle
  have hlt := params.factors.lt_of_exceeds hneed
  have hhigh := hresting.high
  have hdouble := hresting.growth_target hinv hneed hstarted.count
  refine ⟨hdouble, rfl, ?_, ?_, ?_⟩
  · change h.mActive.mBucketsNumber + 1 ≤ h.mActive.mSize + 0
    omega
  · change h.mActive.mBucketsNumber + 1 ≤ _ + 0
    omega
  · change _ + 1 ≤ 2 * h.mActive.mBucketsNumber + 0
    omega

/-- The rehash step of a keyed call leaves one credit to spend. -/
theorem Paced.advance {params : HashParams K T} {h next : Hash T} (hinv : RehashInvariant h)
    (hpaced : Paced params.factors 1 h) (hadvance : h.advance params = some next) :
    Paced params.factors 2 next := by
  rcases advance_ways hinv hadvance with
    ⟨hsome, hrehash⟩ | ⟨hbackup, hneed, hrehash⟩ | ⟨hbackup, hneed, rfl⟩
  · exact hpaced.rehash hinv hsome (Nat.le_refl 1) (by decide) hrehash
  · obtain ⟨table, hstarted, hrest⟩ := rehash_of_due hinv hbackup (.inl hneed) hrehash
    have hgrowing := (hpaced.resting_of_none hbackup).started hinv hbackup hneed hstarted
    exact hgrowing.rehash hstarted.invariant rfl (Nat.le_refl 1) hrest
  · have hfour := hinv.active_count.four_le
    have hle := params.factors.le_of_not_exceeds hneed
    have hslack := params.factors.slack_le next.mActive.mBucketsNumber
    exact .resting hbackup ⟨by omega, (hpaced.resting_of_none hbackup).low⟩

/-- An insertion into the new table spends one credit of an expansion. -/
theorem Growing.put {calls : Nat} {h next : Hash T} {backup table : HashTable T}
    (hgrowing : Growing 2 calls h backup) (hactive : next.mActive = h.mActive)
    (hindex : next.mRehashIndex = h.mRehashIndex)
    (hnumber : table.mBucketsNumber = backup.mBucketsNumber)
    (hlength : next.entries.length = h.entries.length + 1) : Growing 1 calls next table := by
  have htotal := hgrowing.total_low
  have hhigh := hgrowing.total_high
  have hlow := hgrowing.active_low
  refine ⟨?_, hindex.trans hgrowing.cursor, ?_, ?_, ?_⟩
  · rw [hnumber, hactive]
    exact hgrowing.double
  · rw [hactive]
    omega
  · rw [hactive]
    omega
  · rw [hactive]
    omega

/-- An insertion into the new table spends one credit of a shrink. -/
theorem Shrinking.put {factors : LoadFactors} {calls start : Nat} {h next : Hash T}
    {backup table : HashTable T} (hshrinking : Shrinking factors 2 calls start h backup)
    (hactive : next.mActive = h.mActive) (hindex : next.mRehashIndex = h.mRehashIndex)
    (hnumber : table.mBucketsNumber = backup.mBucketsNumber)
    (hlength : next.entries.length = h.entries.length + 1) :
    Shrinking factors 1 calls start next table := by
  obtain ⟨heighth, hcursor, hgt, hbelow, hstart, hle, hlow, htotal, hhigh⟩ := hshrinking
  rw [← hactive] at heighth hbelow hstart hle hlow htotal
  exact ⟨by rw [hnumber]; exact heighth, hindex.trans hcursor, hgt, hbelow, hstart, hle,
    by omega, by omega, by omega⟩

/-- An insertion spends one credit of a table at rest. -/
theorem Resting.put {factors : LoadFactors} {h next : Hash T}
    (hresting : Resting factors 2 h)
    (hnumber : next.mActive.mBucketsNumber = h.mActive.mBucketsNumber)
    (hsize : next.mActive.mSize = h.mActive.mSize + 1) : Resting factors 1 next := by
  obtain ⟨hhigh, hlow⟩ := hresting
  rw [← hnumber] at hhigh hlow
  exact ⟨by omega, by omega⟩

/-- An insertion spends one credit. -/
theorem Paced.put {params : HashParams K T} {h next : Hash T} {index : Nat} {value : T}
    (hinv : RehashInvariant h) (hpaced : Paced params.factors 2 h)
    (hindex : index < h.mBucketsNumber) (hput : Put h index value next) :
    Paced params.factors 1 next := by
  have hlength := (put_spec hinv hindex hput).2.1.length_eq
  rw [List.length_cons] at hlength
  rw [← hinv.target_number] at hindex
  cases hput with
  | @backup backup hbusy hbackup =>
      have hnumber := HashTable.insertNode_mBucketsNumber backup index ⟨h.newAddr, value⟩
      rcases hpaced.busy_of_some hbackup with ⟨calls, hgrowing⟩ | ⟨calls, start, hshrinking⟩
      · exact .growing rfl (hgrowing.put rfl rfl hnumber hlength)
      · exact .shrinking rfl (hshrinking.put rfl rfl hnumber hlength)
  | active hidle =>
      have hbackup := hinv.none_of_isReHashing hidle
      rw [hbackup, Option.getD_none] at hindex
      exact .resting hbackup ((hpaced.resting_of_none hbackup).put
        (HashTable.insertNode_mBucketsNumber h.mActive index ⟨h.newAddr, value⟩)
        (HashTable.insertNode_mSize ⟨h.newAddr, value⟩ hindex))

/-- The counters after a removal, in one of the tables. -/
theorem cut_counters {h cut : Hash T} {node : HashNode T} (hinv : RehashInvariant h)
    (hcut : Cut h node cut) :
    cut.mActive.mBucketsNumber = h.mActive.mBucketsNumber ∧
      cut.mRehashIndex = h.mRehashIndex ∧
      (cut.mBackup = none ↔ h.mBackup = none) ∧
      (∀ table, cut.mBackup = some table → ∃ backup, h.mBackup = some backup ∧
        table.mBucketsNumber = backup.mBucketsNumber) ∧
      h.mActive.mSize ≤ cut.mActive.mSize + 1 ∧ cut.mActive.mSize ≤ h.mActive.mSize ∧
      h.entries.length = cut.entries.length + 1 := by
  have hlength := (cut_spec hinv hcut).2.1.length_eq
  rw [List.length_cons] at hlength
  cases hcut with
  | @backup backup table hbackup hunlinked =>
      refine ⟨rfl, rfl, by simp [hbackup], fun other hother => ?_, Nat.le_succ _, Nat.le_refl _,
        hlength⟩
      cases hother
      exact ⟨backup, hbackup, hunlinked.buckets⟩
  | @active table hunlinked =>
      have hsize := hunlinked.size
      refine ⟨hunlinked.buckets, rfl, Iff.rfl, fun other hother => ⟨other, hother, rfl⟩, ?_, ?_,
        hlength⟩
      · change h.mActive.mSize ≤ table.mSize + 1
        omega
      · change table.mSize ≤ h.mActive.mSize
        omega

/-- A removal takes one credit from an expansion, which it cannot make sparse. -/
theorem Growing.cut (params : HashParams K T) {calls : Nat} {h cut : Hash T}
    {backup : HashTable T} {node : HashNode T} (hinv : RehashInvariant h)
    (hbackup : h.mBackup = some backup) (hgrowing : Growing 2 calls h backup)
    (hcut : Cut h node cut) :
    Paced params.factors 1 cut ∧ cut.isNeedShrink params = false := by
  have hcutInv := (cut_spec hinv hcut).1
  obtain ⟨hnumber, hindex, hnone, hsome, hsize, hle, hlength⟩ := cut_counters hinv hcut
  have hlow := hgrowing.active_low
  have htotal := hgrowing.total_low
  have hhigh := hgrowing.total_high
  obtain ⟨table, htable⟩ : ∃ table, cut.mBackup = some table :=
    Option.ne_none_iff_exists'.mp fun h0 => by rw [hnone.mp h0] at hbackup; cases hbackup
  obtain ⟨other, hother, hsame⟩ := hsome table htable
  cases hother.symm.trans hbackup
  refine ⟨.growing htable ⟨?_, hindex.trans hgrowing.cursor, ?_, ?_, ?_⟩, ?_⟩
  · rw [hsame, hnumber, hgrowing.double]
  · omega
  · omega
  · omega
  · by_contra hneed
    obtain ⟨-, hbelow⟩ := isNeedShrink_iff.mp (Bool.not_eq_false _ ▸ hneed)
    have hlt := params.factors.lt_of_below hbelow
    have hcursor := (hinv.busy backup hbackup).index_lt
    rw [hgrowing.cursor] at hcursor
    omega

/-- A removal takes two credits from a shrink; then a second move is due, unless at
most four entries are counted, where one credit is left. -/
theorem Shrinking.cut {params : HashParams K T} {calls start : Nat} {h cut : Hash T}
    {backup : HashTable T} {node : HashNode T} (hinv : RehashInvariant h)
    (hbackup : h.mBackup = some backup)
    (hshrinking : Shrinking params.factors 2 calls start h backup) (hcut : Cut h node cut) :
    ∃ table, cut.mBackup = some table ∧
      ((cut.isNeedShrink params = true ∧ Shrinking params.factors 0 calls start cut table) ∨
        (cut.isNeedShrink params = false ∧
          Shrinking params.factors 1 calls start cut table)) := by
  obtain ⟨hnumber, hindex, hnone, hsome, hsize, hle, hlength⟩ := cut_counters hinv hcut
  have hlow := hshrinking.active_low
  have htotal := hshrinking.total_low
  have hhigh := hshrinking.total_high
  have hstart := hshrinking.start_low
  have hactive := hshrinking.active_le
  have heighth := hshrinking.eighth
  obtain ⟨hbelow, hslack, hcount⟩ := hshrinking.bounds hinv
  obtain ⟨table, htable⟩ : ∃ table, cut.mBackup = some table :=
    Option.ne_none_iff_exists'.mp fun h0 => by rw [hnone.mp h0] at hbackup; cases hbackup
  obtain ⟨other, hother, hsame⟩ := hsome table htable
  cases hother.symm.trans hbackup
  have hcursor := (hinv.busy backup hbackup).index_lt
  rw [hshrinking.cursor] at hcursor
  rw [← hnumber] at hstart heighth hslack hcount hbelow htotal hcursor
  have hstartBelow := hshrinking.start_below
  rw [← hnumber] at hstartBelow
  refine ⟨table, htable, ?_⟩
  rcases Nat.lt_or_ge 4 cut.mActive.mSize with hmin | hmin
  · left
    refine ⟨isNeedShrink_iff.mpr ⟨hmin, params.factors.below_mono hstartBelow (by omega)⟩,
      by rw [hsame]; exact heighth, hindex.trans hshrinking.cursor, hshrinking.start_gt,
      hstartBelow, hstart, by omega, by omega, by omega, by omega⟩
  · right
    have hneed : cut.isNeedShrink params = false := by
      by_contra hneed
      have := (isNeedShrink_iff.mp (Bool.not_eq_false _ ▸ hneed)).1
      omega
    refine ⟨hneed, by rw [hsame]; exact heighth, hindex.trans hshrinking.cursor,
      hshrinking.start_gt, hstartBelow, hstart, by omega, by omega, by omega, by omega⟩

/-- A removal from a table at rest: a shrink is due, or the table is not sparse. -/
theorem Resting.cut {params : HashParams K T} {h cut : Hash T} {node : HashNode T}
    (hinv : RehashInvariant h) (hresting : Resting params.factors 2 h) (hcut : Cut h node cut) :
    (cut.mActive.mBucketsNumber ≤ 32 ∨ cut.mActive.mBucketsNumber ≤
        10 * (cut.mActive.mSize + 1) +
          params.factors.slack cut.mActive.mBucketsNumber) ∧
      (cut.isNeedShrink params = false → Resting params.factors 1 cut) := by
  obtain ⟨hnumber, -, -, -, hsize, hle, -⟩ := cut_counters hinv hcut
  have hlow := hresting.low
  have hhigh := hresting.high
  have hslack := params.factors.slack_le cut.mActive.mBucketsNumber
  rw [← hnumber] at hlow hhigh
  refine ⟨by omega, fun hneed => ⟨by omega, ?_⟩⟩
  rcases Nat.lt_or_ge 4 cut.mActive.mSize with hmin | hmin
  · right
    refine params.factors.le_of_not_below ?_
    by_contra hbelow
    rw [isNeedShrink_iff.mpr ⟨hmin, Bool.not_eq_false _ ▸ hbelow⟩] at hneed
    cases hneed
  · left
    by_contra hlarge
    have hcount := (cut_spec hinv hcut).1.active_count.cases_sixtyFour (Nat.not_le.mp hlarge)
    omega

/-- A shrink starts without credit. -/
theorem Shrinking.started {params : HashParams K T} {h : Hash T} {table : HashTable T}
    (hinv : RehashInvariant h) (hidle : h.mBackup = none)
    (hneed : h.isNeedShrink params = true)
    (hlow : h.mActive.mBucketsNumber ≤ 32 ∨ h.mActive.mBucketsNumber ≤
      10 * (h.mActive.mSize + 1) + params.factors.slack h.mActive.mBucketsNumber)
    (hstarted : Started h table) :
    Shrinking params.factors 0 0 h.mActive.mSize (h.startedState table) table := by
  have hlength := hstarted.length hinv hidle
  obtain ⟨hmin, hbelow⟩ := isNeedShrink_iff.mp hneed
  have hlt := params.factors.lt_of_below hbelow
  have heighth := shrink_target hinv hneed hlow hstarted.count
  have hstart := hlow.resolve_left (by omega)
  exact ⟨heighth, rfl, hmin, hbelow, hstart, Nat.le_refl _, .inl (by simp [startedState]),
    .inr (by omega), by omega⟩

/-- An `erase` that removed a node: the state before its second rehash step, and the
outcome. -/
theorem Paced.cut {params : HashParams K T} {h cut : Hash T} {node : HashNode T}
    (hinv : RehashInvariant h) (hpaced : Paced params.factors 2 h) (hcut : Cut h node cut) :
    (cut.isNeedShrink params = false → Paced params.factors 1 cut) ∧
      (cut.isNeedShrink params = true →
        ∀ next, cut.rehash params 2 true = some next → Paced params.factors 1 next) ∧
      (cut.mBackup = none → cut.isNeedShrink params = true →
        ∀ count, getNextPower2 cut.mActive.mSize = some count →
          cut.mActive.mBucketsNumber = 8 * count) := by
  have hcutInv := (cut_spec hinv hcut).1
  obtain ⟨-, -, hnone, -⟩ := cut_counters hinv hcut
  cases hpaced with
  | resting hbackup hresting =>
      have hidle := hnone.mpr hbackup
      obtain ⟨hlow, hrest⟩ := hresting.cut hinv hcut
      refine ⟨fun hneed => .resting hidle (hrest hneed), fun hneed next hrehash => ?_,
        fun _ hneed count hcount => shrink_target hcutInv hneed hlow hcount⟩
      obtain ⟨table, hstarted, hlast⟩ := rehash_of_due hcutInv hidle (.inr hneed) hrehash
      have hshrinking := Shrinking.started hcutInv hidle hneed hlow hstarted
      exact hshrinking.rehash hstarted.invariant rfl (by decide) hlast
  | growing hbackup hgrowing =>
      obtain ⟨hnext, hfalse⟩ := hgrowing.cut params hinv hbackup hcut
      refine ⟨fun _ => hnext, fun hneed => ?_, fun _ hneed => ?_⟩ <;>
        · rw [hfalse] at hneed
          cases hneed
  | shrinking hbackup hshrinking =>
      obtain ⟨table, htable, ⟨hneed, hspent⟩ | ⟨hneed, hspent⟩⟩ :=
        hshrinking.cut hinv hbackup hcut
      · refine ⟨fun hfalse => ?_, fun _ next hrehash => ?_, fun hidle => ?_⟩
        · rw [hneed] at hfalse
          cases hfalse
        · exact hspent.rehash hcutInv htable (by decide) hrehash
        · rw [htable] at hidle
          cases hidle
      · refine ⟨fun _ => .shrinking htable hspent, fun htrue => ?_, fun hidle => ?_⟩
        · rw [hneed] at htrue
          cases htrue
        · rw [htable] at hidle
          cases hidle

/-- However full the tables are, three nodes for each bucket an `int` can count are the most. -/
theorem Paced.length_le {factors : LoadFactors} {h : Hash T} (hinv : RehashInvariant h)
    (hpaced : Paced factors 1 h) : h.entries.length ≤ 3 * INT_MAX := by
  have hbuckets := h.mActive.mBucketsNumber_le
  cases hpaced with
  | resting hbackup hresting =>
      have hsize := hinv.idle_size (hinv.idle_of_none hbackup)
      have hhigh := hresting.high
      rw [entries_of_none hbackup]
      omega
  | growing hbackup hgrowing =>
      have hlt := (hinv.busy _ hbackup).index_lt
      have hcursor := hgrowing.cursor
      have hhigh := hgrowing.total_high
      omega
  | shrinking hbackup hshrinking =>
      have hlt := (hinv.busy _ hbackup).index_lt
      have hcursor := hshrinking.cursor
      have hhigh := hshrinking.total_high
      have hstart := factors.lt_of_below hshrinking.start_below
      omega

section Calls

variable [DecidableEq K]

/-- Every call keeps the pacing. -/
theorem Paced.step {params : HashParams K T} {h next : Hash T} {call : HashCall K T}
    {answer : HashAnswer T} (hinv : RehashInvariant h) (hpaced : Paced params.factors 1 h)
    (hstep : hashStep params h call = some (next, answer)) : Paced params.factors 1 next := by
  cases hashStep_effect hstep with
  | @insert value middle next hadvance hput =>
      have hindex := Nat.lt_of_lt_of_le (hinv.index_lt params (params.getKey value))
        (number_le_of_advance hinv hadvance)
      exact (hpaced.advance hinv hadvance).put (rehashed_of_advance hinv hadvance).invariant
        hindex hput
  | @erase key middle cut next status hadvance hcut hlast =>
      have hmiddle := (rehashed_of_advance hinv hadvance).invariant
      have hearned := hpaced.advance hinv hadvance
      rcases erase_ways hmiddle hcut hlast with
        ⟨rfl, rfl⟩ | ⟨rfl, node, -, hnode, hneed⟩ | ⟨rfl, node, -, hnode, hneed, hrehash⟩
      · exact hearned.weaken (by decide)
      · exact (hearned.cut hmiddle hnode).1 hneed
      · exact (hearned.cut hmiddle hnode).2.1 hneed next hrehash
  | lookup hcall hadvance => exact (hpaced.advance hinv hadvance).weaken (by decide)
  | iterator hcall hcomplete => exact hpaced.complete hinv hcomplete
  | scan hscan => exact hpaced

/-- The two invariants of the state machine are kept together. -/
theorem invariants_step (params : HashParams K T) :
    ∀ (state : Hash T) (call : HashCall K T) (next : Hash T) (answer : HashAnswer T),
      RehashInvariant state ∧ Paced params.factors 1 state →
        (hashMachine params).step state call = some (next, answer) →
          RehashInvariant next ∧ Paced params.factors 1 next :=
  fun _ _ _ _ hboth hstep => ⟨(step_spec hboth.1 hstep).1, hboth.2.step hboth.1 hstep⟩

theorem reachable_paced (params : HashParams K T) {h : Hash T}
    (hreach : (hashMachine params).Reachable h) : Paced params.factors 1 h :=
  (hreach.invariant ⟨RehashInvariant.new, Paced.new params.factors⟩
    (invariants_step params)).2

/-- The bucket count for which a call starts a rehash: twice the old one or an eighth. -/
theorem Paced.target {params : HashParams K T} {h at' : Hash T} {call : HashCall K T}
    {step count : Nat} {isAuto : Bool} (hinv : RehashInvariant h)
    (hpaced : Paced params.factors 1 h) (hinvokes : Invokes params h call at' step isAuto)
    (hidle : at'.mBackup = none) (hcount : getNextPower2 at'.mActive.mSize = some count) :
    isAuto = true ∧
      (count = 2 * at'.mActive.mBucketsNumber ∨ at'.mActive.mBucketsNumber = 8 * count) := by
  have hnot : h.mBackup = none → h.isReHashing ≠ true := fun h0 => by
    simp [hinv.isReHashing_eq, h0]
  cases hinvokes with
  | keyed hcall hscan hdue =>
      exact ⟨rfl, .inl ((hpaced.resting_of_none hidle).growth_target hinv
        (hdue.resolve_left (hnot hidle)) hcount)⟩
  | afterErase hadvance hcut hshrink =>
      have hmiddle := (rehashed_of_advance hinv hadvance).invariant
      rcases eraseKey_effect hmiddle hcut with ⟨hfalse, -⟩ | ⟨-, node, -, hnode⟩
      · cases hfalse
      · exact ⟨rfl,
          .inr (((hpaced.advance hinv hadvance).cut hmiddle hnode).2.2 hidle hshrink _ hcount)⟩
  | iterator hcall hbusy => exact absurd hbusy (hnot hidle)

/-- The bucket counts of a rehash a call starts. -/
theorem Paced.started {params : HashParams K T} {h at' started : Hash T}
    {call : HashCall K T} {step : Nat} {isAuto : Bool} (hinv : RehashInvariant h)
    (hpaced : Paced params.factors 1 h) (hinvokes : Invokes params h call at' step isAuto)
    (hidle : at'.mBackup = none) (hstart : at'.startReHashing = some started) :
    started.mBucketsNumber = 2 * at'.mActive.mBucketsNumber ∨
      at'.mActive.mBucketsNumber = 8 * started.mBucketsNumber := by
  obtain ⟨table, hcount, -, rfl⟩ := startReHashing_eq_some hstart
  exact (hpaced.target hinv hinvokes hidle hcount).2

/-- With the factors read as `1` and `1/10`: a table at rest is neither overfull nor
sparse, every rehash doubles the bucket count or divides it by eight, and the old
counter stays positive while one is in progress. -/
theorem load_bounds (params : HashParams K T) {h : Hash T}
    (hexact : params.factors = LoadFactors.exact) (hreach : (hashMachine params).Reachable h) :
    (h.mBackup = none →
      h.mActive.mSize ≤ 2 * h.mActive.mBucketsNumber - 1 ∧
        (h.mActive.mBucketsNumber ≤ 32 ∨
          h.mActive.mBucketsNumber ≤ 10 * h.mActive.mSize)) ∧
      (∀ backup, h.mBackup = some backup →
        (backup.mBucketsNumber = 2 * h.mActive.mBucketsNumber ∨
          h.mActive.mBucketsNumber = 8 * backup.mBucketsNumber) ∧
        1 ≤ h.mActive.mSize) ∧
      ∀ call at' step isAuto started, Invokes params h call at' step isAuto →
        at'.mBackup = none → at'.startReHashing = some started →
          started.mBucketsNumber = 2 * at'.mActive.mBucketsNumber ∨
            at'.mActive.mBucketsNumber = 8 * started.mBucketsNumber := by
  have hinv := reachable_rehashInvariant params hreach
  have hpaced := reachable_paced params hreach
  refine ⟨fun hidle => ?_, fun backup hbackup => ⟨?_, hpaced.active_pos hinv hbackup⟩,
    fun call at' step isAuto started hinvokes hat hstart =>
      hpaced.started hinv hinvokes hat hstart⟩
  · have hhigh := (hpaced.resting_of_none hidle).high
    have hlow := (hpaced.resting_of_none hidle).low
    rw [hexact, LoadFactors.exact_slack] at hlow
    exact ⟨by omega, by omega⟩
  · rcases hpaced.busy_of_some hbackup with ⟨calls, hgrowing⟩ | ⟨calls, start, hshrinking⟩
    · exact .inl hgrowing.double
    · exact .inr hshrinking.eighth

theorem load_bounds_expanding :
    ∃ backup, expanding.mBackup = some backup ∧
      (backup.mBucketsNumber = 2 * expanding.mActive.mBucketsNumber ∨
        expanding.mActive.mBucketsNumber = 8 * backup.mBucketsNumber) ∧
      1 ≤ expanding.mActive.mSize := by
  obtain ⟨backup, hbackup⟩ := Option.isSome_iff_exists.mp
    (by decide : expanding.mBackup.isSome = true)
  exact ⟨backup, hbackup,
    (load_bounds HashParams.identity rfl reachable_expanding).2.1 backup hbackup⟩

end Calls

end Hash

end RedisDB
