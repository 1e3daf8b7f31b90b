import RedisDB.Hash.ScanRun

/-!
# A scan of an unchanging container

With nothing called in between, the cursor runs once through the intervals of
the smaller table and each call reads the buckets of one interval, in both
tables.  Every bucket belongs to one interval, so the scan enumerates the
entries.
-/

namespace RedisDB

open RedisDB.Library

variable {K T : Type}

namespace Hash

/-- The loop `do { v = scan(v, out); } while (v != 0)`: the cursors returned and the nodes
pushed, `none` when zero has not come back within `fuel` calls. -/
def scanAll (h : Hash T) : Nat → BitVec 64 → Option (List (BitVec 64) × List (HashNode T))
  | 0, _ => none
  | fuel + 1, v => do
      let (v', values) ← h.scan v
      if v' = 0 then return ([v'], values)
      else
        let (cursors, out) ← scanAll h fuel v'
        return (v' :: cursors, values ++ out)

theorem scanAll_of_zero {h : Hash T} {v : BitVec 64} {values : List (HashNode T)}
    (hscan : h.scan v = some (0, values)) (fuel : Nat) :
    h.scanAll (fuel + 1) v = some ([0], values) := by
  simp [scanAll, hscan]

theorem scanAll_of_ne {h : Hash T} {v v' : BitVec 64} {values : List (HashNode T)}
    (hscan : h.scan v = some (v', values)) (hne : v' ≠ 0) (fuel : Nat) :
    h.scanAll (fuel + 1) v =
      (h.scanAll fuel v').map fun rest => (v' :: rest.1, values ++ rest.2) := by
  rw [scanAll, hscan, Option.bind_eq_bind, Option.bind_some]
  dsimp only
  rw [if_neg hne]
  cases h.scanAll fuel v' <;> rfl

/-- The bucket count of the table, of the smaller one when there are two. -/
def smallNumber (h : Hash T) : Nat :=
  match h.mBackup with
  | some backup => min h.mActive.mBucketsNumber backup.mBucketsNumber
  | none => h.mActive.mBucketsNumber

/-! ## Intervals -/

/-- What the calls of a whole scan find unchanged. -/
structure Scanning (h : Hash T) (bits : Nat) : Prop where
  invariant : RehashInvariant h
  bits_le : bits ≤ 64
  mask : smallMask h = lowMask 64 bits
  size_ne : h.mActive.mSize ≠ 0
  nodup : h.entries.Nodup

/-- The node lies in a bucket, of either table, of the given interval of the smaller one. -/
def InInterval (h : Hash T) (bits interval : Nat) (node : HashNode T) : Prop :=
  ∃ table ∈ h.tables, ∃ u, rank u / stride 64 bits = interval ∧
    node ∈ table.getBucketHead (u &&& wordMask table).toNat

theorem smallest_table (h : Hash T) :
    ∃ table ∈ h.tables, smallMask h = wordMask table ∧
      h.smallNumber = table.mBucketsNumber := by
  cases hbackup : h.mBackup with
  | none =>
      refine ⟨h.mActive, List.mem_cons_self, ?_, ?_⟩
      · rw [smallMask, hbackup]
      · rw [smallNumber, hbackup]
  | some backup =>
      rcases Nat.lt_or_ge backup.mBucketsNumber h.mActive.mBucketsNumber with hlt | hge
      · refine ⟨backup, (mem_tables_of_some hbackup).mpr (.inr rfl), ?_, ?_⟩
        · rw [smallMask, hbackup]
          exact if_pos hlt
        · rw [smallNumber, hbackup]
          exact Nat.min_eq_right hlt.le
      · refine ⟨h.mActive, List.mem_cons_self, ?_, ?_⟩
        · rw [smallMask, hbackup]
          exact if_neg (Nat.not_lt.mpr hge)
        · rw [smallNumber, hbackup]
          exact Nat.min_eq_left hge

theorem smallNumber_le {h : Hash T} {table : HashTable T} (htable : table ∈ h.tables) :
    h.smallNumber ≤ table.mBucketsNumber := by
  cases hbackup : h.mBackup with
  | none =>
      rw [mem_tables_of_none hbackup] at htable
      rw [smallNumber, hbackup, htable]
  | some backup =>
      rw [smallNumber, hbackup]
      rcases (mem_tables_of_some hbackup).mp htable with rfl | rfl
      · exact Nat.min_le_left _ _
      · exact Nat.min_le_right _ _

theorem RehashInvariant.table_count {h : Hash T} (hinv : RehashInvariant h)
    {table : HashTable T} (htable : table ∈ h.tables) :
    IsBucketCount table.mBucketsNumber := by
  rcases List.mem_cons.mp htable with rfl | hbackup
  · exact hinv.active_count
  · exact hinv.backup_count table (Option.mem_toList.mp hbackup)

/-- In a container with distinct nodes each table has distinct nodes. -/
theorem nodup_of_mem_tables {h : Hash T} {table : HashTable T} (hnodup : h.entries.Nodup)
    (htable : table ∈ h.tables) : table.entries.Nodup := by
  cases hbackup : h.mBackup with
  | none =>
      rw [entries_of_none hbackup] at hnodup
      rw [(mem_tables_of_none hbackup).mp htable]
      exact hnodup
  | some backup =>
      rw [entries_of_some hbackup] at hnodup
      rcases (mem_tables_of_some hbackup).mp htable with rfl | rfl
      · exact hnodup.of_append_left
      · exact hnodup.of_append_right

/-- In a container with distinct nodes a node lies in one table. -/
theorem table_unique {h : Hash T} {table other : HashTable T} {node : HashNode T}
    (hnodup : h.entries.Nodup) (htable : table ∈ h.tables) (hother : other ∈ h.tables)
    (hnode : node ∈ table.entries) (hnode' : node ∈ other.entries) : table = other := by
  cases hbackup : h.mBackup with
  | none =>
      rw [(mem_tables_of_none hbackup).mp htable, (mem_tables_of_none hbackup).mp hother]
  | some backup =>
      rw [entries_of_some hbackup] at hnodup
      have hdisjoint := List.disjoint_of_nodup_append hnodup
      rcases (mem_tables_of_some hbackup).mp htable with rfl | rfl <;>
        rcases (mem_tables_of_some hbackup).mp hother with rfl | rfl
      · rfl
      · exact absurd hnode' (hdisjoint hnode)
      · exact absurd hnode (hdisjoint hnode')
      · rfl

namespace Scanning

variable {h : Hash T} {bits : Nat}

theorem smallNumber_eq (hscanning : Scanning h bits) : h.smallNumber = 2 ^ bits := by
  obtain ⟨table, htable, hmask, hnumber⟩ := smallest_table h
  obtain ⟨more, hmore, hcount, hword⟩ :=
    wordMask_eq (hscanning.invariant.table_count htable)
  have hsame : bits = more :=
    lowMask_injective hscanning.bits_le hmore (hscanning.mask.symm.trans (hmask.trans hword))
  rw [hnumber, hcount, hsame]

/-- From the start of an interval a call reads the nodes of that interval. -/
theorem reads_iff (hscanning : Scanning h bits) {v : BitVec 64} {interval : Nat}
    (hv : rank v = interval * stride 64 bits) (node : HashNode T) :
    Reads h v node ↔ InInterval h bits interval node := by
  have hrank : rank v / stride 64 bits = interval := by
    rw [hv, Nat.mul_div_cancel _ (stride_pos 64 bits)]
  constructor
  · rintro ⟨table, htable, u, hsame, -, hnode⟩
    rw [hscanning.mask] at hsame
    have hin := (and_lowMask_eq_iff hscanning.bits_le u v).mp hsame
    exact ⟨table, htable, u, hin.trans hrank, hnode⟩
  · rintro ⟨table, htable, u, hin, hnode⟩
    refine ⟨table, htable, u, ?_, ?_, hnode⟩
    · rw [hscanning.mask]
      exact (and_lowMask_eq_iff hscanning.bits_le u v).mpr (hin.trans hrank.symm)
    · rw [hv, ← hin]
      exact Nat.div_mul_le_self _ _

/-- A node lies in one bucket, and a bucket in one interval. -/
theorem interval_unique (hscanning : Scanning h bits) {first second : Nat} {node : HashNode T}
    (hfirst : InInterval h bits first node) (hsecond : InInterval h bits second node) :
    first = second := by
  obtain ⟨table, htable, u, rfl, hu⟩ := hfirst
  obtain ⟨other, hother, u', rfl, hu'⟩ := hsecond
  obtain rfl : table = other := table_unique hscanning.nodup htable hother
    (HashTable.mem_entries.mpr ⟨_, hu⟩) (HashTable.mem_entries.mpr ⟨_, hu'⟩)
  obtain ⟨small, hsmallLe, hsmallMask, htables⟩ := smallMask_spec hscanning.invariant
  obtain rfl : small = bits :=
    lowMask_injective hsmallLe hscanning.bits_le (hsmallMask.symm.trans hscanning.mask)
  obtain ⟨more, hle, hmore, hword⟩ := htables table htable
  have hnodup := nodup_of_mem_tables hscanning.nodup htable
  have hindex : (u &&& wordMask table).toNat = (u' &&& wordMask table).toNat := by
    by_contra hne
    exact HashTable.disjoint_getBucketHead hnodup hne hu hu'
  have hword' := BitVec.eq_of_toNat_eq hindex
  rw [hword] at hword'
  rw [div_stride hle hmore, (and_lowMask_eq_iff hmore u u').mp hword', ← div_stride hle hmore]

/-- Every stored node lies in some interval. -/
theorem mem_entries_iff (hscanning : Scanning h bits) (node : HashNode T) :
    node ∈ h.entries ↔ ∃ interval, InInterval h bits interval node := by
  rw [Hash.mem_entries_iff]
  constructor
  · rintro ⟨table, htable, hnode⟩
    obtain ⟨index, hindex⟩ := HashTable.mem_entries.mp hnode
    have hlt := HashTable.lt_of_mem_getBucketHead hindex
    obtain ⟨more, hmore, hcount, hword⟩ :=
      wordMask_eq (hscanning.invariant.table_count htable)
    rw [hcount] at hlt
    have hpow : 2 ^ more ≤ 2 ^ 64 := Nat.pow_le_pow_right (by decide) hmore
    have hmasked : (BitVec.ofNat 64 index &&& wordMask table).toNat = index := by
      rw [hword, lowMask, BitVec.toNat_and, BitVec.toNat_ofNat, BitVec.toNat_ofNat,
        Nat.mod_eq_of_lt (Nat.lt_of_lt_of_le hlt hpow),
        Nat.mod_eq_of_lt (Nat.lt_of_lt_of_le (Nat.sub_lt (Nat.two_pow_pos more) (by decide)) hpow),
        Nat.and_two_pow_sub_one_eq_mod, Nat.mod_eq_of_lt hlt]
    exact ⟨_, table, htable, BitVec.ofNat 64 index, rfl, by rwa [hmasked]⟩
  · rintro ⟨interval, table, htable, u, -, hnode⟩
    exact ⟨table, htable, HashTable.mem_entries.mpr ⟨_, hnode⟩⟩

/-- The nodes from an interval on are its own and those from the next one on. -/
theorem from_interval_iff {interval : Nat} {node : HashNode T} :
    (∃ later ≥ interval, InInterval h bits later node) ↔
      InInterval h bits interval node ∨ ∃ later ≥ interval + 1, InInterval h bits later node := by
  constructor
  · rintro ⟨later, hle, hnode⟩
    rcases Nat.eq_or_lt_of_le hle with rfl | hlt
    · exact .inl hnode
    · exact .inr ⟨later, hlt, hnode⟩
  · rintro (hnode | ⟨later, hle, hnode⟩)
    · exact ⟨interval, Nat.le_refl _, hnode⟩
    · exact ⟨later, (Nat.le_succ _).trans hle, hnode⟩

theorem interval_lt (hscanning : Scanning h bits) {interval : Nat} {node : HashNode T}
    (hnode : InInterval h bits interval node) : interval < 2 ^ bits := by
  obtain ⟨table, -, u, rfl, -⟩ := hnode
  exact rank_div_stride_lt hscanning.bits_le u

/-! ## The calls of a scan -/

/-- A call from the start of an interval reads it and goes to the start of the next one. -/
theorem scan_spec (hscanning : Scanning h bits) {v : BitVec 64} {interval : Nat}
    (hv : rank v = interval * stride 64 bits) :
    ∃ v' values, h.scan v = some (v', values) ∧
      rank v' = (interval + 1) * stride 64 bits % 2 ^ 64 ∧ v'.toNat < 2 ^ bits ∧
      (∀ node, node ∈ values ↔ InInterval h bits interval node) ∧ values.Nodup := by
  rcases Hash.scan_spec hscanning.invariant v with
    ⟨hzero, -⟩ | ⟨-, v', values, small, hscan, hscanned⟩
  · exact absurd hzero hscanning.size_ne
  · obtain rfl : small = bits :=
      lowMask_injective hscanned.bits_le hscanning.bits_le
        (hscanned.mask.symm.trans hscanning.mask)
    have hrank := hscanned.cursor
    rw [hv, Nat.mul_div_cancel _ (stride_pos 64 small)] at hrank
    refine ⟨v', values, hscan, hrank, ?_, fun node => ?_, hscanned.nodup hscanning.nodup⟩
    · refine toNat_lt_of_dvd hscanned.bits_le ?_
      rw [hrank]
      exact (Nat.dvd_mod_iff (Dvd.intro_left _ (mul_stride hscanned.bits_le))).mpr
        (Dvd.intro_left _ rfl)
    · rw [hscanned.values_iff, hscanning.reads_iff hv]

/-- From the start of an interval on, the scan goes through the intervals left. -/
theorem scanAll_spec (hscanning : Scanning h bits) {left interval : Nat} {v : BitVec 64}
    (hsum : interval + left + 1 = 2 ^ bits) (hv : rank v = interval * stride 64 bits) :
    ∃ cursors out, h.scanAll (left + 1) v = some (cursors, out) ∧
      cursors.length = left + 1 ∧ (∀ cursor ∈ cursors, cursor.toNat < 2 ^ bits) ∧
      (∀ node, node ∈ out ↔ ∃ later ≥ interval, InInterval h bits later node) ∧
      out.Nodup := by
  induction left generalizing interval v with
  | zero =>
      obtain ⟨v', values, hscan, hrank, hlt, hvalues, hnodup⟩ := hscanning.scan_spec hv
      have hzero : v' = 0 := by
        rw [show interval + 1 = 2 ^ bits from hsum, mul_stride hscanning.bits_le,
          Nat.mod_self] at hrank
        exact rank_eq_zero.mp hrank
      subst hzero
      refine ⟨[0], values, scanAll_of_zero hscan 0, rfl, List.forall_mem_singleton.mpr hlt,
        fun node => ?_, hnodup⟩
      rw [hvalues, from_interval_iff]
      refine (or_iff_left ?_).symm
      rintro ⟨later, hle, hnode⟩
      have hlast := interval_lt hscanning hnode
      omega
  | succ left ih =>
      obtain ⟨v', values, hscan, hrank, hlt, hvalues, hnodup⟩ := hscanning.scan_spec hv
      have hinside : (interval + 1) * stride 64 bits < 2 ^ 64 := by
        rw [← mul_stride hscanning.bits_le]
        exact Nat.mul_lt_mul_of_pos_right (by omega) (stride_pos 64 bits)
      rw [Nat.mod_eq_of_lt hinside] at hrank
      have hne : v' ≠ 0 := fun hzero => by
        have hpos := Nat.mul_pos (Nat.succ_pos interval) (stride_pos 64 bits)
        rw [hzero, rank_zero] at hrank
        exact hpos.ne hrank
      obtain ⟨cursors, out, hrest, hlength, hcursors, hout, houtNodup⟩ :=
        ih (by omega) hrank
      refine ⟨v' :: cursors, values ++ out, ?_, by rw [List.length_cons, hlength], ?_,
        fun node => ?_, ?_⟩
      · rw [scanAll_of_ne hscan hne, hrest]
        rfl
      · exact List.forall_mem_cons.mpr ⟨hlt, hcursors⟩
      · rw [List.mem_append, hvalues, hout]
        exact from_interval_iff.symm
      · refine List.nodup_append.mpr ⟨hnodup, houtNodup, ?_⟩
        rintro node hnode other hother rfl
        obtain ⟨later, hle, hlater⟩ := (hout node).mp hother
        have hsame := hscanning.interval_unique ((hvalues node).mp hnode) hlater
        omega

end Scanning

section Whole

variable [DecidableEq K]

theorem reachable_scanning (params : HashParams K T) {h : Hash T}
    (hreach : (hashMachine params).Reachable h) (hne : h.entries ≠ []) :
    ∃ bits, Scanning h bits := by
  obtain ⟨hinv, hpaced, haddressed, -⟩ := reachable_scannable params hreach
  obtain ⟨bits, hbits, hmask, -⟩ := smallMask_spec hinv
  obtain ⟨node, hnode⟩ := List.exists_mem_of_ne_nil _ hne
  exact ⟨bits, hinv, hbits, hmask, size_ne_zero_of_stored hinv hpaced hnode, haddressed.nodup⟩

/-- A scan of an unchanging container that is not empty ends after as many calls as the
smaller table has buckets, each of them with a cursor inside both tables, and enumerates
the entries; a call from any other cursor returns as well. -/
theorem scan_permutes (params : HashParams K T) {h : Hash T}
    (hreach : (hashMachine params).Reachable h) (hne : h.entries ≠ []) :
    (∃ cursors out, h.scanAll h.smallNumber 0 = some (cursors, out) ∧
        cursors.length = h.smallNumber ∧
        (∀ cursor ∈ cursors, ∀ table ∈ h.tables, cursor.toNat < table.mBucketsNumber) ∧
        out.Perm h.entries) ∧
      ∀ v, ∃ v' values, h.scan v = some (v', values) := by
  obtain ⟨bits, hscanning⟩ := reachable_scanning params hreach hne
  have hnumber := hscanning.smallNumber_eq
  have hcount : h.smallNumber = 2 ^ bits - 1 + 1 := by
    rw [hnumber, Nat.sub_add_cancel (Nat.two_pow_pos bits)]
  refine ⟨?_, fun v => ?_⟩
  · have hfirst : rank (0 : BitVec 64) = 0 * stride 64 bits := by rw [rank_zero, Nat.zero_mul]
    have hsum : 0 + (2 ^ bits - 1) + 1 = 2 ^ bits := by omega
    obtain ⟨cursors, out, hall, hlength, hcursors, hout, hnodup⟩ :=
      hscanning.scanAll_spec hsum hfirst
    rw [← hcount] at hall hlength
    refine ⟨cursors, out, hall, hlength, fun cursor hcursor table htable => ?_, ?_⟩
    · have hlt := hcursors cursor hcursor
      rw [← hnumber] at hlt
      exact Nat.lt_of_lt_of_le hlt (smallNumber_le htable)
    · refine (List.perm_ext_iff_of_nodup hnodup hscanning.nodup).mpr fun node => ?_
      rw [hout, hscanning.mem_entries_iff]
      exact ⟨fun ⟨later, _, hnode⟩ => ⟨later, hnode⟩,
        fun ⟨later, hnode⟩ => ⟨later, Nat.zero_le _, hnode⟩⟩
  · rcases Hash.scan_spec hscanning.invariant v with
      ⟨-, hscan⟩ | ⟨-, v', values, -, hscan, -⟩
    · exact ⟨0, [], hscan⟩
    · exact ⟨v', values, hscan⟩

theorem scan_permutes_expanding :
    ∃ cursors out, expanding.scanAll 4 0 = some (cursors, out) ∧ cursors.length = 4 ∧
      out.Perm expanding.entries := by
  obtain ⟨⟨cursors, out, hall, hlength, -, hperm⟩, -⟩ :=
    scan_permutes HashParams.identity reachable_expanding (by decide)
  rw [show expanding.smallNumber = 4 by decide] at hall hlength
  exact ⟨cursors, out, hall, hlength, hperm⟩

end Whole

end Hash

end RedisDB
