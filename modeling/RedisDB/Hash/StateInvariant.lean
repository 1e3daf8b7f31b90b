import RedisDB.Hash.Calls

/-!
# The rehash state machine and the conservation of entries

`RehashInvariant` couples the six fields of `Hash`.  It is kept by the start of a
rehash, by a move, by the insertion and by the removal, hence by every call; the
same case analysis shows that calls change the stored entries only as they say.
-/

namespace RedisDB

open RedisDB.Library

variable {K T : Type}

namespace Hash

/-- What holds of the two tables and the cursor while a rehash is in progress. -/
structure BusyInvariant (h : Hash T) (backup : HashTable T) : Prop where
  number : backup.mBucketsNumber = h.mBucketsNumber
  differs : backup.mBucketsNumber ≠ h.mActive.mBucketsNumber
  index_nonneg : 0 ≤ h.mRehashIndex
  index_lt : h.mRehashIndex < h.mActive.mBucketsNumber
  emptied : ∀ index : Nat, (index : Int) < h.mRehashIndex →
    h.mActive.getBucketHead index = []
  backup_size : backup.mSize = backup.entries.length
  active_size : h.mActive.mSize = h.mActive.entries.length + h.moved

/-- The invariant of the rehash state machine. -/
structure RehashInvariant (h : Hash T) : Prop where
  mask : h.mBucketsMask = h.mBucketsNumber - 1
  active_count : IsBucketCount h.mActive.mBucketsNumber
  backup_count : ∀ backup, h.mBackup = some backup → IsBucketCount backup.mBucketsNumber
  backup_none : h.mBackup = none ↔ h.mRehashIndex = -1
  idle_number : h.mRehashIndex = -1 → h.mActive.mBucketsNumber = h.mBucketsNumber
  idle_size : h.mRehashIndex = -1 → h.mActive.mSize = h.mActive.entries.length
  busy : ∀ backup, h.mBackup = some backup → BusyInvariant h backup

namespace RehashInvariant

variable {h : Hash T}

theorem new : RehashInvariant (new : Hash T) where
  mask := rfl
  active_count := ⟨2, by decide, rfl⟩
  backup_count _ hbackup := by cases hbackup
  backup_none := ⟨fun _ => rfl, fun _ => rfl⟩
  idle_number _ := rfl
  idle_size _ := rfl
  busy _ hbackup := by cases hbackup

theorem isReHashing_eq (hinv : RehashInvariant h) : h.isReHashing = h.mBackup.isSome := by
  cases hbackup : h.mBackup with
  | none => simp [isReHashing, hinv.backup_none.mp hbackup]
  | some backup =>
      have hne : h.mRehashIndex ≠ -1 := fun hidle => by
        rw [hinv.backup_none.mpr hidle] at hbackup
        cases hbackup
      simp [isReHashing, hne]

theorem isReHashing_of_none (hinv : RehashInvariant h) (hbackup : h.mBackup = none) :
    h.isReHashing = false := by
  rw [hinv.isReHashing_eq, hbackup]
  rfl

theorem isReHashing_of_some (hinv : RehashInvariant h) {backup : HashTable T}
    (hbackup : h.mBackup = some backup) : h.isReHashing = true := by
  rw [hinv.isReHashing_eq, hbackup]
  rfl

theorem none_of_isReHashing (hinv : RehashInvariant h) (hidle : h.isReHashing = false) :
    h.mBackup = none := by
  rwa [hinv.isReHashing_eq, Option.isSome_eq_false_iff, Option.isNone_iff_eq_none] at hidle

theorem some_of_isReHashing (hinv : RehashInvariant h) (hbusy : h.isReHashing = true) :
    ∃ backup, h.mBackup = some backup := by
  rwa [hinv.isReHashing_eq, Option.isSome_iff_exists] at hbusy

theorem idle_of_none (hinv : RehashInvariant h) (hbackup : h.mBackup = none) :
    h.mRehashIndex = -1 :=
  hinv.backup_none.mp hbackup

/-- A backup table comes with a cursor inside the old table. -/
theorem cursor (hinv : RehashInvariant h) {backup : HashTable T}
    (hbackup : h.mBackup = some backup) :
    ∃ index, h.Busy backup index ∧ index < h.mActive.mBucketsNumber := by
  have hbusy := hinv.busy backup hbackup
  have hnonneg := hbusy.index_nonneg
  have hlt := hbusy.index_lt
  exact ⟨h.mRehashIndex.toNat, ⟨hbackup, by omega⟩, by omega⟩

/-- The mask is that of the table which receives nodes. -/
theorem home_lt (hinv : RehashInvariant h) (params : HashParams K T) {backup : HashTable T}
    (hbackup : h.mBackup = some backup) (node : HashNode T) :
    params.home h.mBucketsMask node < backup.mBucketsNumber := by
  rw [hinv.mask, ← (hinv.busy backup hbackup).number]
  exact params.index_lt (hinv.backup_count backup hbackup) _

/-- The table new nodes go to has `mBucketsNumber` buckets. -/
theorem target_number (hinv : RehashInvariant h) :
    (h.mBackup.getD h.mActive).mBucketsNumber = h.mBucketsNumber := by
  cases hbackup : h.mBackup with
  | none => exact hinv.idle_number (hinv.idle_of_none hbackup)
  | some backup => exact (hinv.busy backup hbackup).number

theorem number_count (hinv : RehashInvariant h) : IsBucketCount h.mBucketsNumber := by
  rw [← hinv.target_number]
  cases hbackup : h.mBackup with
  | none => exact hinv.active_count
  | some backup => exact hinv.backup_count backup hbackup

theorem index_lt (hinv : RehashInvariant h) (params : HashParams K T) (key : K) :
    params.index h.mBucketsMask key < h.mBucketsNumber := by
  rw [hinv.mask]
  exact params.index_lt hinv.number_count key

/-- The counter of the active table counts at least its own nodes. -/
theorem active_length_le (hinv : RehashInvariant h) :
    h.mActive.entries.length ≤ h.mActive.mSize := by
  cases hbackup : h.mBackup with
  | none => exact (hinv.idle_size (hinv.idle_of_none hbackup)).ge
  | some backup =>
      rw [(hinv.busy backup hbackup).active_size]
      exact Nat.le_add_right _ _

end RehashInvariant

theorem entries_of_none {h : Hash T} (hbackup : h.mBackup = none) :
    h.entries = h.mActive.entries := by
  simp [entries, hbackup]

theorem entries_of_some {h : Hash T} {backup : HashTable T} (hbackup : h.mBackup = some backup) :
    h.entries = h.mActive.entries ++ backup.entries := by
  simp [entries, hbackup]

/-! ## The start of a rehash -/

/-- A rehash is due: the table is overfull, or a removal left it sparse. -/
def Due (params : HashParams K T) (h : Hash T) : Prop :=
  h.isNeedReHash params = true ∨ h.isNeedShrink params = true

theorem isNeedShrink_iff {params : HashParams K T} {h : Hash T} :
    h.isNeedShrink params = true ↔ 4 < h.mActive.mSize ∧
      params.factors.belowShrink h.mActive.mSize h.mActive.mBucketsNumber = true := by
  simp [isNeedShrink, MIN_BUCKETS_SIZE]

/-- A due rehash goes to another bucket count. -/
theorem target_ne_of_due {params : HashParams K T} {h : Hash T} (hdue : h.Due params)
    {count : Nat} (hcount : getNextPower2 h.mActive.mSize = some count) :
    count ≠ h.mActive.mBucketsNumber := by
  obtain ⟨-, hle, hleast⟩ := getNextPower2_eq_some hcount
  rcases hdue with hneed | hneed
  · have hlt := params.factors.lt_of_exceeds hneed
    omega
  · obtain ⟨hmin, hbelow⟩ := isNeedShrink_iff.mp hneed
    have hlt := params.factors.lt_of_below hbelow
    omega

/-- The backup table a due rehash begins with. -/
structure Started (h : Hash T) (table : HashTable T) : Prop where
  count : getNextPower2 h.mActive.mSize = some table.mBucketsNumber
  empty : table.entries = []
  chains : ∀ index, table.getBucketHead index = []
  invariant : RehashInvariant (h.startedState table)
  contents : (h.startedState table).entries = h.entries

/-- A started rehash has an empty backup table and its cursor at zero. -/
theorem started_spec {params : HashParams K T} {h next : Hash T} (hinv : RehashInvariant h)
    (hidle : h.mBackup = none) (hdue : h.Due params) (hstart : h.startReHashing = some next) :
    ∃ table, next = h.startedState table ∧ Started h table := by
  obtain ⟨backup, hcount, hnew, rfl⟩ := startReHashing_eq_some hstart
  obtain ⟨-, hsize, hempty, hchains⟩ := HashTable.new?_eq_some hnew
  have hindex := hinv.idle_of_none hidle
  have hfour := hinv.active_count.four_le
  refine ⟨backup, rfl, hcount, hempty, hchains, ?_, ?_⟩
  · refine ⟨rfl, hinv.active_count, fun table htable => ?_, ?_, ?_, ?_, fun table htable => ?_⟩
    · cases htable
      exact (getNextPower2_eq_some hcount).1
    · simp [startedState]
    · intro h0
      simp [startedState] at h0
    · intro h0
      simp [startedState] at h0
    · cases htable
      refine ⟨rfl, target_ne_of_due hdue hcount, Int.le_refl 0, ?_, ?_, ?_, ?_⟩
      · simp only [startedState]
        omega
      · intro index hlt
        simp only [startedState] at hlt
        omega
      · rw [hsize, hempty]
        rfl
      · exact hinv.idle_size hindex
  · rw [entries_of_some (h := h.startedState backup) rfl, hempty, entries_of_none hidle]
    exact List.append_nil _

/-- A due `rehash` of a table at rest goes on from the started state. -/
theorem rehash_of_due {params : HashParams K T} {h next : Hash T} {step : Nat}
    {isAuto : Bool} (hinv : RehashInvariant h) (hidle : h.mBackup = none)
    (hdue : h.Due params) (hrehash : h.rehash params step isAuto = some next) :
    ∃ table, Started h table ∧ (h.startedState table).rehash params step isAuto = some next := by
  rw [rehash_of_idle (hinv.idle_of_none hidle), Option.bind_eq_some_iff] at hrehash
  obtain ⟨started, hstart, hrest⟩ := hrehash
  obtain ⟨table, rfl, hstarted⟩ := started_spec hinv hidle hdue hstart
  exact ⟨table, hstarted, hrest⟩

/-- The started state counts the entries there were. -/
theorem Started.length {h : Hash T} {table : HashTable T} (hstarted : Started h table)
    (hinv : RehashInvariant h) (hidle : h.mBackup = none) :
    (h.startedState table).entries.length = h.mActive.mSize := by
  rw [hstarted.contents, entries_of_none hidle, hinv.idle_size (hinv.idle_of_none hidle)]

/-! ## A move -/

/-- What a `rehash` call leaves: the invariant, the same entries, the same allocator. -/
structure Rehashed (h next : Hash T) : Prop where
  invariant : RehashInvariant next
  contents : next.entries.Perm h.entries
  newAddr : next.newAddr = h.newAddr

theorem Rehashed.refl {h : Hash T} (hinv : RehashInvariant h) : Rehashed h h :=
  ⟨hinv, List.Perm.refl _, rfl⟩

theorem nextIndex_le (h : Hash T) (backup : HashTable T) (index step : Nat) (isAuto : Bool) :
    h.nextIndex backup index step isAuto ≤ h.mActive.mBucketsNumber :=
  Nat.min_le_right _ _

theorem le_nextIndex {h : Hash T} {index : Nat} (backup : HashTable T) (step : Nat)
    (isAuto : Bool) (hindex : index < h.mActive.mBucketsNumber) :
    index ≤ h.nextIndex backup index step isAuto :=
  Nat.le_min.mpr ⟨Nat.le_add_right _ _, hindex.le⟩

/-- After a move the buckets below the new cursor are empty. -/
theorem released_emptied {h : Hash T} {backup active : HashTable T} {index last : Nat}
    (hbusy : h.Busy backup index) (hinv : RehashInvariant h) (hle : index ≤ last)
    (hreleased : Released h.mActive active index (last - index)) {other : Nat}
    (hother : other < last) : active.getBucketHead other = [] := by
  rw [hreleased.chains]
  split
  · rfl
  · refine (hinv.busy backup hbusy.backup_eq).emptied other ?_
    rw [hbusy.index_eq]
    omega

theorem entries_eq_nil {table : HashTable T}
    (hempty : ∀ index, index < table.mBucketsNumber → table.getBucketHead index = []) :
    table.entries = [] := by
  refine List.eq_nil_iff_forall_not_mem.mpr fun node hnode => ?_
  obtain ⟨index, hindex⟩ := HashTable.mem_entries.mp hnode
  rw [hempty index (HashTable.lt_of_mem_getBucketHead hindex)] at hindex
  cases hindex

/-- A move that reaches the end leaves nothing in the old table. -/
theorem released_all {h : Hash T} {backup active : HashTable T} {index : Nat}
    (hbusy : h.Busy backup index) (hinv : RehashInvariant h)
    (hindex : index ≤ h.mActive.mBucketsNumber)
    (hreleased : Released h.mActive active index (h.mActive.mBucketsNumber - index)) :
    active.entries = [] := by
  refine entries_eq_nil fun other hother => ?_
  rw [hreleased.buckets] at hother
  exact released_emptied hbusy hinv hindex hreleased hother

/-- Whatever the loop took out of the old table is in the receiving one. -/
theorem moved_contents {params : HashParams K T} {h : Hash T}
    {backup active received : HashTable T} {index count : Nat}
    (hbackup : h.mBackup = some backup) (hreleased : Released h.mActive active index count)
    (hreceived : Received params h.mBucketsMask (nodesFrom h.mActive index count) backup
      received) :
    (active.entries ++ received.entries).Perm h.entries := by
  rw [entries_of_some hbackup]
  have hcontents := hreleased.contents.append_right backup.entries
  have hreceive := hreceived.contents.append_left active.entries
  refine hreceive.trans (List.Perm.trans ?_ hcontents.symm)
  rw [← List.append_assoc]
  exact List.perm_append_comm.append_right _

/-- The rehash ends: the received table becomes the active one. -/
theorem swapped_invariant {h : Hash T} {backup received : HashTable T} (moved : Nat)
    (hinv : RehashInvariant h) (hbackup : h.mBackup = some backup)
    (hnumber : received.mBucketsNumber = backup.mBucketsNumber)
    (hsize : received.mSize = received.entries.length) :
    RehashInvariant (h.swappedState received moved) := by
  refine ⟨hinv.mask, ?_, fun _ h0 => (by cases h0), ⟨fun _ => rfl, fun _ => rfl⟩,
    fun _ => hnumber.trans (hinv.busy backup hbackup).number, fun _ => hsize,
    fun _ h0 => (by cases h0)⟩
  change IsBucketCount received.mBucketsNumber
  rw [hnumber]
  exact hinv.backup_count backup hbackup

/-- The cursor advances inside the old table. -/
theorem moved_invariant {h : Hash T} {backup active received : HashTable T}
    {index last : Nat} (hinv : RehashInvariant h) (hbusy : h.Busy backup index)
    (hle : index ≤ last) (hlast : last < h.mActive.mBucketsNumber)
    (hreleased : Released h.mActive active index (last - index))
    (hnumber : received.mBucketsNumber = backup.mBucketsNumber)
    (hsize : received.mSize = received.entries.length) :
    RehashInvariant (h.movedState active received last) := by
  have hold := hinv.busy backup hbusy.backup_eq
  have hlength := hreleased.contents.length_eq
  rw [List.length_append] at hlength
  have hneg : ¬ (last : Int) = -1 := by omega
  refine ⟨hinv.mask, ?_, fun table h0 => ?_, ⟨fun h0 => (by cases h0), fun h0 => absurd h0 hneg⟩,
    fun h0 => absurd h0 hneg, fun h0 => absurd h0 hneg, fun table h0 => ?_⟩
  · change IsBucketCount active.mBucketsNumber
    rw [hreleased.buckets]
    exact hinv.active_count
  · cases h0
    rw [hnumber]
    exact hinv.backup_count backup hbusy.backup_eq
  · cases h0
    refine ⟨hnumber.trans hold.number, ?_, Int.natCast_nonneg last, ?_, ?_, hsize, ?_⟩
    · change received.mBucketsNumber ≠ active.mBucketsNumber
      rw [hnumber, hreleased.buckets]
      exact hold.differs
    · change (last : Int) < active.mBucketsNumber
      rw [hreleased.buckets]
      omega
    · intro other hother
      exact released_emptied hbusy hinv hle hreleased (Int.ofNat_lt.mp hother)
    · change active.mSize = active.entries.length +
        (h.moved + (h.mActive.entries.length - active.entries.length))
      rw [hreleased.size, hold.active_size]
      omega

/-- One `rehash` call in progress keeps the invariant and every entry. -/
theorem rehashed_of_busy {params : HashParams K T} {h next : Hash T} {step : Nat}
    {isAuto : Bool} (hinv : RehashInvariant h) {backup : HashTable T}
    (hbackup : h.mBackup = some backup) (hrehash : h.rehash params step isAuto = some next) :
    Rehashed h next := by
  obtain ⟨index, hbusy, hindex⟩ := hinv.cursor hbackup
  obtain ⟨active, received, hreleased, hreceived, hresult⟩ :=
    rehash_of_busy step isAuto hbusy hindex (hinv.home_lt params hbackup)
  have hle := le_nextIndex backup step isAuto hindex
  have hlast := nextIndex_le h backup index step isAuto
  generalize hpos : h.nextIndex backup index step isAuto = last at *
  have hcontents := moved_contents hbackup hreleased hreceived
  have hsize : received.mSize = received.entries.length := by
    have hlength := hreceived.contents.length_eq
    rw [List.length_append] at hlength
    rw [hreceived.size, (hinv.busy backup hbackup).backup_size]
    omega
  rw [hresult] at hrehash
  have hnext := Option.some.inj hrehash
  split at hnext
  · rename_i hend
    rw [← hnext]
    rw [hend] at hreleased
    rw [released_all hbusy hinv hindex.le hreleased, List.nil_append] at hcontents
    refine ⟨swapped_invariant _ hinv hbackup hreceived.buckets hsize, ?_, rfl⟩
    rw [entries_of_none (h := h.swappedState received _) rfl]
    exact hcontents
  · rename_i hmore
    rw [← hnext]
    refine ⟨moved_invariant hinv hbusy hle (by omega) hreleased hreceived.buckets hsize, ?_, rfl⟩
    rw [entries_of_some (h := h.movedState active received last) rfl]
    exact hcontents

/-- Any `rehash` call, started when due, keeps the invariant and every entry. -/
theorem rehashed {params : HashParams K T} {h next : Hash T} {step : Nat} {isAuto : Bool}
    (hinv : RehashInvariant h) (hdue : h.mBackup = none → h.Due params)
    (hrehash : h.rehash params step isAuto = some next) : Rehashed h next := by
  cases hbackup : h.mBackup with
  | some backup => exact rehashed_of_busy hinv hbackup hrehash
  | none =>
      obtain ⟨table, hstarted, hrest⟩ := rehash_of_due hinv hbackup (hdue hbackup) hrehash
      have hmoved := rehashed_of_busy hstarted.invariant rfl hrest
      exact ⟨hmoved.invariant, by rw [← hstarted.contents]; exact hmoved.contents,
        hmoved.newAddr⟩

/-- The three ways of an opening rehash step: it moves, it starts an expansion, or
nothing is due. -/
theorem advance_ways {params : HashParams K T} {h next : Hash T} (hinv : RehashInvariant h)
    (hadvance : h.advance params = some next) :
    (h.mBackup ≠ none ∧ h.rehash params 2 true = some next) ∨
      (h.mBackup = none ∧ h.isNeedReHash params = true ∧
        h.rehash params 2 true = some next) ∨
      (h.mBackup = none ∧ h.isNeedReHash params = false ∧ next = h) := by
  rcases advance_cases hadvance with ⟨hwhy, hrehash⟩ | ⟨hidle, hneed, rfl⟩
  · by_cases hbackup : h.mBackup = none
    · have hidle := hinv.isReHashing_of_none hbackup
      exact .inr (.inl ⟨hbackup, hwhy.resolve_left (by simp [hidle]), hrehash⟩)
    · exact .inl ⟨hbackup, hrehash⟩
  · exact .inr (.inr ⟨hinv.none_of_isReHashing hidle, hneed, rfl⟩)

theorem rehashed_of_advance {params : HashParams K T} {h next : Hash T}
    (hinv : RehashInvariant h) (hadvance : h.advance params = some next) :
    Rehashed h next := by
  rcases advance_ways hinv hadvance with ⟨hsome, hrehash⟩ | ⟨-, hneed, hrehash⟩ | ⟨-, -, rfl⟩
  · exact rehashed hinv (fun hnone => absurd hnone hsome) hrehash
  · exact rehashed hinv (fun _ => .inl hneed) hrehash
  · exact Rehashed.refl hinv

theorem rehashed_of_complete {params : HashParams K T} {h next : Hash T}
    (hinv : RehashInvariant h) (hcomplete : h.complete params = some next) :
    Rehashed h next := by
  rcases complete_cases hcomplete with ⟨hbusy, hrehash⟩ | ⟨-, rfl⟩
  · refine rehashed hinv (fun hidle => ?_) hrehash
    rw [hinv.isReHashing_of_none hidle] at hbusy
    cases hbusy
  · exact Rehashed.refl hinv

/-! ## The insertion and the removal -/

/-- The backup table may change its nodes when its counter changes with them. -/
theorem RehashInvariant.with_backup {h : Hash T} {backup table : HashTable T} (addr : Nat)
    (hinv : RehashInvariant h) (hbackup : h.mBackup = some backup)
    (hnumber : table.mBucketsNumber = backup.mBucketsNumber)
    (hsize : table.mSize + backup.entries.length = table.entries.length + backup.mSize) :
    RehashInvariant { h with newAddr := addr, mBackup := some table } := by
  have hold := hinv.busy backup hbackup
  have hne : h.mRehashIndex ≠ -1 := by
    have := hold.index_nonneg
    omega
  refine ⟨hinv.mask, hinv.active_count, fun other h0 => ?_,
    ⟨fun h0 => (by cases h0), fun h0 => absurd h0 hne⟩, fun h0 => absurd h0 hne,
    fun h0 => absurd h0 hne, fun other h0 => ?_⟩
  · cases h0
    rw [hnumber]
    exact hinv.backup_count backup hbackup
  · cases h0
    refine ⟨hnumber.trans hold.number, ?_, hold.index_nonneg, hold.index_lt, hold.emptied, ?_,
      hold.active_size⟩
    · rw [hnumber]
      exact hold.differs
    · have := hold.backup_size
      omega

/-- The active table may change its nodes when its counter changes with them; during a
rehash no empty bucket may be filled. -/
theorem RehashInvariant.with_active {h : Hash T} {table : HashTable T} (addr : Nat)
    (hinv : RehashInvariant h) (hnumber : table.mBucketsNumber = h.mActive.mBucketsNumber)
    (hsize : table.mSize + h.mActive.entries.length = table.entries.length + h.mActive.mSize)
    (hempty : h.mBackup ≠ none → ∀ index, h.mActive.getBucketHead index = [] →
      table.getBucketHead index = []) :
    RehashInvariant { h with newAddr := addr, mActive := table } := by
  refine ⟨hinv.mask, hnumber ▸ hinv.active_count, hinv.backup_count, hinv.backup_none,
    fun h0 => hnumber.trans (hinv.idle_number h0), fun h0 => ?_, fun backup h0 => ?_⟩
  · change table.mSize = table.entries.length
    have := hinv.idle_size h0
    omega
  · have hold := hinv.busy backup h0
    have hsome : h.mBackup ≠ none := Option.ne_none_iff_exists'.mpr ⟨backup, h0⟩
    refine ⟨hold.number, ?_, hold.index_nonneg, ?_,
      fun index hlt => hempty hsome index (hold.emptied index hlt), hold.backup_size, ?_⟩
    · change backup.mBucketsNumber ≠ table.mBucketsNumber
      rw [hnumber]
      exact hold.differs
    · change h.mRehashIndex < table.mBucketsNumber
      rw [hnumber]
      exact hold.index_lt
    · change table.mSize = table.entries.length + h.moved
      have := hold.active_size
      omega

/-- An insertion inside the receiving table keeps the invariant and adds one node. -/
theorem put_spec {h next : Hash T} {index : Nat} {value : T} (hinv : RehashInvariant h)
    (hindex : index < h.mBucketsNumber) (hput : Put h index value next) :
    RehashInvariant next ∧ next.entries.Perm (⟨h.newAddr, value⟩ :: h.entries) ∧
      next.newAddr = h.newAddr + 1 := by
  rw [← hinv.target_number] at hindex
  cases hput with
  | @backup backup hbusy hbackup =>
      rw [hbackup, Option.getD_some] at hindex
      have hcontents := HashTable.entries_insertNode_perm ⟨h.newAddr, value⟩ hindex
      have hsize := HashTable.insertNode_mSize ⟨h.newAddr, value⟩ hindex
      have hbuckets := HashTable.insertNode_mBucketsNumber backup index ⟨h.newAddr, value⟩
      have hlength := hcontents.length_eq
      rw [List.length_cons] at hlength
      refine ⟨hinv.with_backup _ hbackup hbuckets (by omega), ?_, rfl⟩
      rw [entries_of_some hbackup, entries_of_some (h := h.putBackup backup index value) rfl]
      exact (hcontents.append_left _).trans List.perm_middle
  | active hidle =>
      have hbackup := hinv.none_of_isReHashing hidle
      rw [hbackup, Option.getD_none] at hindex
      have hcontents := HashTable.entries_insertNode_perm ⟨h.newAddr, value⟩ hindex
      have hsize := HashTable.insertNode_mSize ⟨h.newAddr, value⟩ hindex
      have hbuckets := HashTable.insertNode_mBucketsNumber h.mActive index ⟨h.newAddr, value⟩
      have hlength := hcontents.length_eq
      rw [List.length_cons] at hlength
      refine ⟨hinv.with_active _ hbuckets (by omega) (fun hsome => absurd hbackup hsome), ?_,
        rfl⟩
      rw [entries_of_none hbackup, entries_of_none (h := h.putActive index value) hbackup]
      exact hcontents

/-- A removal keeps the invariant and takes away one node. -/
theorem cut_spec {h next : Hash T} {node : HashNode T} (hinv : RehashInvariant h)
    (hcut : Cut h node next) :
    RehashInvariant next ∧ h.entries.Perm (node :: next.entries) ∧
      next.newAddr = h.newAddr := by
  cases hcut with
  | @backup backup table hbackup hunlinked =>
      have hlength := hunlinked.contents.length_eq
      rw [List.length_cons] at hlength
      have hsize := hunlinked.size
      have hold := (hinv.busy backup hbackup).backup_size
      refine ⟨hinv.with_backup _ hbackup hunlinked.buckets (by omega), ?_, rfl⟩
      rw [entries_of_some hbackup, entries_of_some (h := { h with mBackup := some table }) rfl]
      exact (hunlinked.contents.append_left _).trans List.perm_middle
  | @active table hunlinked =>
      have hlength := hunlinked.contents.length_eq
      rw [List.length_cons] at hlength
      have hsize := hunlinked.size
      have hle := hinv.active_length_le
      refine ⟨hinv.with_active _ hunlinked.buckets (by omega) (fun _ index h0 => ?_), ?_, rfl⟩
      · have hsub := hunlinked.chains index
        rw [h0] at hsub
        exact List.sublist_nil.mp hsub
      · exact hunlinked.contents.append_right (h.mBackup.elim [] HashTable.entries)

/-- A rehash in progress keeps `mBucketsNumber`. -/
theorem number_of_rehash_busy {params : HashParams K T} {h next : Hash T} {step : Nat}
    {isAuto : Bool} (hinv : RehashInvariant h) (hsome : h.mBackup ≠ none)
    (hrehash : h.rehash params step isAuto = some next) :
    next.mBucketsNumber = h.mBucketsNumber := by
  obtain ⟨backup, hbackup⟩ := Option.ne_none_iff_exists'.mp hsome
  obtain ⟨index, hbusy, hindex⟩ := hinv.cursor hbackup
  obtain ⟨active, received, -, -, hresult⟩ :=
    rehash_of_busy step isAuto hbusy hindex (hinv.home_lt params hbackup)
  rw [hresult] at hrehash
  rw [← Option.some.inj hrehash]
  split <;> rfl

/-- A rehash that starts makes the number the least admissible one for the counter. -/
theorem number_of_rehash_idle {params : HashParams K T} {h next : Hash T} {step : Nat}
    {isAuto : Bool} (hinv : RehashInvariant h) (hbackup : h.mBackup = none)
    (hdue : h.Due params) (hrehash : h.rehash params step isAuto = some next) :
    getNextPower2 h.mActive.mSize = some next.mBucketsNumber := by
  obtain ⟨table, hstarted, hrest⟩ := rehash_of_due hinv hbackup hdue hrehash
  rw [number_of_rehash_busy hstarted.invariant (by simp [startedState]) hrest]
  exact hstarted.count

/-- A rehash step never lowers `mBucketsNumber` before an insertion: a rehash that
`advance` starts is an expansion. -/
theorem number_le_of_advance {params : HashParams K T} {h next : Hash T}
    (hinv : RehashInvariant h) (hadvance : h.advance params = some next) :
    h.mBucketsNumber ≤ next.mBucketsNumber := by
  rcases advance_ways hinv hadvance with
    ⟨hsome, hrehash⟩ | ⟨hbackup, hneed, hrehash⟩ | ⟨-, -, rfl⟩
  · exact (number_of_rehash_busy hinv hsome hrehash).ge
  · have hcount := number_of_rehash_idle hinv hbackup (.inl hneed) hrehash
    have hlt := params.factors.lt_of_exceeds hneed
    have hle := (getNextPower2_eq_some hcount).2.1
    rw [← hinv.idle_number (hinv.idle_of_none hbackup)]
    omega
  · exact Nat.le_refl _

/-- When the move loop has reached the end, the table about to be deleted is empty. -/
theorem deleted_empty {params : HashParams K T} {h last : Hash T} {step : Nat}
    {isAuto : Bool} (hinv : RehashInvariant h) (hdue : h.mBackup = none → h.Due params)
    (hmove : h.rehashMove params step isAuto = some last)
    (hend : last.mRehashIndex = last.mActive.mBucketsNumber) : last.mActive.entries = [] := by
  have hbusyCase : ∀ {h last : Hash T}, RehashInvariant h → h.mBackup ≠ none →
      h.rehashMove params step isAuto = some last →
      last.mRehashIndex = last.mActive.mBucketsNumber → last.mActive.entries = [] := by
    intro h last hinv hsome hmove hend
    obtain ⟨backup, hbackup⟩ := Option.ne_none_iff_exists'.mp hsome
    obtain ⟨index, hbusy, hindex⟩ := hinv.cursor hbackup
    obtain ⟨active, received, hreleased, -, hresult⟩ := rehashMove_of_busy step
      isAuto hbusy hindex (hinv.home_lt params hbackup)
    rw [hresult] at hmove
    cases hmove
    have hall : h.nextIndex backup index step isAuto = h.mActive.mBucketsNumber := by
      rw [← hreleased.buckets]
      exact Int.ofNat_inj.mp hend
    rw [hall] at hreleased
    exact released_all hbusy hinv hindex.le hreleased
  cases hbackup : h.mBackup with
  | some backup => exact hbusyCase hinv (by simp [hbackup]) hmove hend
  | none =>
      have hidle := hinv.idle_of_none hbackup
      simp only [rehashMove, hidle, if_true, Option.bind_eq_bind] at hmove
      obtain ⟨started, hstart, hrest⟩ := Option.bind_eq_some_iff.mp hmove
      obtain ⟨table, rfl, hstarted⟩ := started_spec hinv hbackup (hdue hbackup) hstart
      refine hbusyCase hstarted.invariant (by simp [startedState]) ?_ hend
      simpa [rehashMove, startedState] using hrest

/-! ## Calls -/

section Calls

variable [DecidableEq K]

/-- The entries after a call, as the call and its answer determine them. -/
def EntriesAfter (params : HashParams K T) (h next : Hash T) :
    HashCall K T → HashAnswer T → Prop
  | .insert value, _ => next.entries.Perm (⟨h.newAddr, value⟩ :: h.entries)
  | .erase key, .status true =>
      ∃ node : HashNode T, params.getKey node.mValue = key ∧
        h.entries.Perm (node :: next.entries)
  | _, _ => next.entries.Perm h.entries

omit [DecidableEq K] in
/-- A call adds one new entry, removes one, or keeps them all. -/
theorem EntriesAfter.cases {params : HashParams K T} {h next : Hash T} {call : HashCall K T}
    {answer : HashAnswer T} (hentries : EntriesAfter params h next call answer) :
    (∃ value, call = .insert value ∧ next.entries.Perm (⟨h.newAddr, value⟩ :: h.entries)) ∨
      (∃ removed : HashNode T, h.entries.Perm (removed :: next.entries)) ∨
      next.entries.Perm h.entries := by
  cases call with
  | insert value => exact .inl ⟨value, rfl, hentries⟩
  | erase key =>
      cases answer with
      | status found =>
          cases found with
          | true =>
              obtain ⟨removed, -, hperm⟩ := hentries
              exact .inr (.inl ⟨removed, hperm⟩)
          | false => exact .inr (.inr hentries)
      | _ => exact .inr (.inr hentries)
  | _ => exact .inr (.inr hentries)

/-- The states in which a call invokes `rehash`, with the arguments it passes. -/
inductive Invokes (params : HashParams K T) (h : Hash T) :
    HashCall K T → Hash T → Nat → Bool → Prop where
  | keyed {call : HashCall K T} (hcall : ¬ call.IsIterator) (hscan : ∀ v, call ≠ .scan v)
      (hdue : h.isReHashing = true ∨ h.isNeedReHash params = true) :
      Invokes params h call h 2 true
  | afterErase {key : K} {middle cut : Hash T} (hadvance : h.advance params = some middle)
      (hcut : middle.eraseKey params (params.index h.mBucketsMask key) key =
        some (cut, true))
      (hshrink : cut.isNeedShrink params = true) :
      Invokes params h (.erase key) cut 2 true
  | iterator {call : HashCall K T} (hcall : call.IsIterator) (hbusy : h.isReHashing = true) :
      Invokes params h call h h.mActive.mBucketsNumber false

theorem eraseKey_effect {params : HashParams K T} {h next : Hash T} {index : Nat} {key : K}
    {status : Bool} (hinv : RehashInvariant h)
    (hcut : h.eraseKey params index key = some (next, status)) :
    (status = false ∧ next = h) ∨
      status = true ∧ ∃ node, h.lookup params index key = some node ∧ Cut h node next := by
  rcases eraseKey_spec params index key
    hinv.isReHashing_eq with ⟨-, heq⟩ | ⟨node, last, hlookup, hnode, heq⟩
  · rw [heq] at hcut
    cases hcut
    exact .inl ⟨rfl, rfl⟩
  · rw [heq] at hcut
    cases hcut
    exact .inr ⟨rfl, node, hlookup, hnode⟩

/-- The three ways of an `erase` after its first rehash step: it finds nothing, it removes a
node, or it removes a node and a step of a shrink follows. -/
theorem erase_ways {params : HashParams K T} {middle cut next : Hash T} {index : Nat} {key : K}
    {status : Bool} (hinv : RehashInvariant middle)
    (hcut : middle.eraseKey params index key = some (cut, status))
    (hlast : (status = true ∧ cut.isNeedShrink params = true ∧
        cut.rehash params 2 true = some next) ∨
      ((status && cut.isNeedShrink params) = false ∧ next = cut)) :
    (status = false ∧ next = middle) ∨
      (status = true ∧ ∃ node, middle.lookup params index key = some node ∧
        Cut middle node next ∧ next.isNeedShrink params = false) ∨
      (status = true ∧ ∃ node, middle.lookup params index key = some node ∧
        Cut middle node cut ∧ cut.isNeedShrink params = true ∧
          cut.rehash params 2 true = some next) := by
  rcases eraseKey_effect hinv hcut with ⟨rfl, rfl⟩ | ⟨rfl, node, hlookup, hnode⟩
  · rcases hlast with ⟨hfalse, -⟩ | ⟨-, rfl⟩
    · cases hfalse
    · exact .inl ⟨rfl, rfl⟩
  · rcases hlast with ⟨-, hshrink, hrehash⟩ | ⟨hneed, rfl⟩
    · exact .inr (.inr ⟨rfl, node, hlookup, hnode, hshrink, hrehash⟩)
    · exact .inr (.inl ⟨rfl, node, hlookup, hnode, hneed⟩)

/-- One call keeps the invariant and changes the entries as it says. -/
theorem step_spec {params : HashParams K T} {h next : Hash T} {call : HashCall K T}
    {answer : HashAnswer T} (hinv : RehashInvariant h)
    (hstep : hashStep params h call = some (next, answer)) :
    RehashInvariant next ∧ EntriesAfter params h next call answer := by
  cases hashStep_effect hstep with
  | @insert value middle next hadvance hput =>
      have hmiddle := rehashed_of_advance hinv hadvance
      have hindex := Nat.lt_of_lt_of_le (hinv.index_lt params (params.getKey value))
        (number_le_of_advance hinv hadvance)
      obtain ⟨hnext, hperm, -⟩ := put_spec hmiddle.invariant hindex hput
      rw [hmiddle.newAddr] at hperm
      exact ⟨hnext, hperm.trans (hmiddle.contents.cons _)⟩
  | @erase key middle cut next status hadvance hcut hlast =>
      have hmiddle := rehashed_of_advance hinv hadvance
      rcases erase_ways hmiddle.invariant hcut hlast with
        ⟨rfl, rfl⟩ | ⟨rfl, node, hlookup, hnode, -⟩ |
          ⟨rfl, node, hlookup, hnode, hshrink, hrehash⟩
      · exact ⟨hmiddle.invariant, hmiddle.contents⟩
      · obtain ⟨hnext, hperm, -⟩ := cut_spec hmiddle.invariant hnode
        exact ⟨hnext, node, (lookup_eq_some hlookup).1, hmiddle.contents.symm.trans hperm⟩
      · obtain ⟨hcutInv, hperm, -⟩ := cut_spec hmiddle.invariant hnode
        have hlastly := rehashed hcutInv (fun _ => .inr hshrink) hrehash
        have hfirst : h.entries.Perm (node :: cut.entries) :=
          hmiddle.contents.symm.trans hperm
        exact ⟨hlastly.invariant, node, (lookup_eq_some hlookup).1,
          hfirst.trans (hlastly.contents.symm.cons node)⟩
  | lookup hcall hadvance =>
      have hnext := rehashed_of_advance hinv hadvance
      rcases hcall with ⟨key, rfl⟩ | ⟨key, rfl⟩ <;>
        exact ⟨hnext.invariant, hnext.contents⟩
  | iterator hcall hcomplete =>
      have hnext := rehashed_of_complete hinv hcomplete
      refine ⟨hnext.invariant, ?_⟩
      cases call with
      | insert value => exact absurd hcall id
      | erase key => exact absurd hcall id
      | _ => exact hnext.contents
  | scan hscan => exact ⟨hinv, List.Perm.refl _⟩

/-- The state machine invariant holds in every reachable state. -/
theorem reachable_rehashInvariant (params : HashParams K T) {h : Hash T}
    (hreach : (hashMachine params).Reachable h) : RehashInvariant h := by
  have hkeep : ∀ state call next answer, RehashInvariant state →
      (hashMachine params).step state call = some (next, answer) → RehashInvariant next :=
    fun _ _ _ _ hinv hstep => (step_spec hinv hstep).1
  exact hreach.invariant RehashInvariant.new hkeep

/-- Each `rehash` a call invokes finds the invariant, and is due if it starts one. -/
theorem invokes_spec {params : HashParams K T} {h at' : Hash T} {call : HashCall K T}
    {step : Nat} {isAuto : Bool} (hinv : RehashInvariant h)
    (hinvokes : Invokes params h call at' step isAuto) :
    RehashInvariant at' ∧ (at'.mBackup = none → at'.Due params) := by
  cases hinvokes with
  | keyed hcall hscan hdue =>
      refine ⟨hinv, fun hidle => ?_⟩
      rcases hdue with hbusy | hneed
      · rw [hinv.isReHashing_of_none hidle] at hbusy
        cases hbusy
      · exact .inl hneed
  | afterErase hadvance hcut hshrink =>
      have hmiddle := rehashed_of_advance hinv hadvance
      rcases eraseKey_effect hmiddle.invariant hcut with ⟨hfalse, -⟩ | ⟨-, node, -, hnode⟩
      · cases hfalse
      · exact ⟨(cut_spec hmiddle.invariant hnode).1, fun _ => .inr hshrink⟩
  | iterator hcall hbusy =>
      refine ⟨hinv, fun hidle => ?_⟩
      rw [hinv.isReHashing_of_none hidle] at hbusy
      cases hbusy

/-- The rehash state machine: how the six fields hang together, at rest and while a
rehash is in progress. -/
theorem state_machine (params : HashParams K T) {h : Hash T}
    (hreach : (hashMachine params).Reachable h) :
    h.mBucketsMask = h.mBucketsNumber - 1 ∧
      IsBucketCount h.mActive.mBucketsNumber ∧
      (∀ backup, h.mBackup = some backup → IsBucketCount backup.mBucketsNumber) ∧
      (h.mBackup = none ↔ h.mRehashIndex = -1) ∧
      (h.mRehashIndex = -1 →
        h.mActive.mBucketsNumber = h.mBucketsNumber ∧
          h.mActive.mSize = h.mActive.entries.length) ∧
      ∀ backup, h.mBackup = some backup →
        backup.mBucketsNumber = h.mBucketsNumber ∧
          backup.mBucketsNumber ≠ h.mActive.mBucketsNumber ∧
          0 ≤ h.mRehashIndex ∧ h.mRehashIndex < h.mActive.mBucketsNumber ∧
          (∀ index : Nat, (index : Int) < h.mRehashIndex →
            h.mActive.getBucketHead index = []) ∧
          backup.mSize = backup.entries.length ∧
          h.mActive.mSize = h.mActive.entries.length + h.moved := by
  have hinv := reachable_rehashInvariant params hreach
  refine ⟨hinv.mask, hinv.active_count, hinv.backup_count, hinv.backup_none,
    fun hidle => ⟨hinv.idle_number hidle, hinv.idle_size hidle⟩, fun backup hbackup => ?_⟩
  have hbusy := hinv.busy backup hbackup
  exact ⟨hbusy.number, hbusy.differs, hbusy.index_nonneg, hbusy.index_lt, hbusy.emptied,
    hbusy.backup_size, hbusy.active_size⟩

/-- A map whose sixth insertion has started an expansion. -/
def expanding : Hash (Nat × Nat) :=
  (hashMachine HashParams.identity).stateAfter (insertions [0, 1, 2, 3, 4, 8]) (by decide)

theorem reachable_expanding : (hashMachine HashParams.identity).Reachable expanding :=
  Machine.reachable_stateAfter _ _ _

theorem state_machine_expanding :
    ∃ backup, expanding.mBackup = some backup ∧
      backup.mBucketsNumber = expanding.mBucketsNumber ∧
      expanding.mRehashIndex < expanding.mActive.mBucketsNumber ∧
      expanding.mActive.mSize = expanding.mActive.entries.length + expanding.moved := by
  obtain ⟨backup, hbackup⟩ := Option.isSome_iff_exists.mp
    (by decide : expanding.mBackup.isSome = true)
  obtain ⟨-, -, -, -, -, hbusy⟩ := state_machine HashParams.identity reachable_expanding
  obtain ⟨hnumber, -, -, hindex, -, -, hsize⟩ := hbusy backup hbackup
  exact ⟨backup, hbackup, hnumber, hindex, hsize⟩

/-- No entry is lost or duplicated: a call changes the entries of both tables exactly as
it says, and every table a rehash deletes is empty. -/
theorem entries_conserved (params : HashParams K T) {h next : Hash T} {call : HashCall K T}
    {answer : HashAnswer T} (hreach : (hashMachine params).Reachable h)
    (hstep : hashStep params h call = some (next, answer)) :
    EntriesAfter params h next call answer ∧
      ∀ at' step isAuto last, Invokes params h call at' step isAuto →
        at'.rehashMove params step isAuto = some last →
        last.mRehashIndex = last.mActive.mBucketsNumber → last.mActive.entries = [] := by
  have hinv := reachable_rehashInvariant params hreach
  refine ⟨(step_spec hinv hstep).2, fun at' step isAuto last hinvokes hmove hend => ?_⟩
  obtain ⟨hat, hdue⟩ := invokes_spec hinv hinvokes
  exact deleted_empty hat hdue hmove hend

theorem entries_conserved_expanding :
    ∃ next answer, hashStep HashParams.identity expanding (.erase 2) = some (next, answer) ∧
      EntriesAfter HashParams.identity expanding next (.erase 2) answer := by
  obtain ⟨⟨next, answer⟩, hstep⟩ := Option.isSome_iff_exists.mp
    (by decide : (hashStep HashParams.identity expanding (.erase 2)).isSome = true)
  exact ⟨next, answer, hstep,
    (entries_conserved HashParams.identity reachable_expanding hstep).1⟩

end Calls

end Hash

end RedisDB
