import RedisDB.Hash.Placement
import RedisDB.Util.CursorStep
import Mathlib.Data.List.Nodup

/-!
# One call of `scan`

Which buckets a call reads and which cursor it returns, in terms of ranks: the
call reads in both tables the buckets whose intervals meet the rest of the
smaller table's interval, and returns the start of the next one.
-/

namespace RedisDB

open RedisDB.Library RedisDB.Util

variable {K T : Type}

namespace HashTable

/-- Different buckets of a table without repetitions share no node. -/
theorem disjoint_getBucketHead {table : HashTable T} (hnodup : table.entries.Nodup)
    {first second : Nat} (hne : first ≠ second) {node : HashNode T}
    (hfirst : node ∈ table.getBucketHead first) : node ∉ table.getBucketHead second := by
  intro hsecond
  have hpairwise := (List.nodup_flatten.mp hnodup).2
  have hfirstLt := lt_of_mem_getBucketHead hfirst
  have hsecondLt := lt_of_mem_getBucketHead hsecond
  rw [getBucketHead_of_lt hfirstLt, List.getD_eq_getElem _ _ (by rwa [table.mNodes_length])]
    at hfirst
  rw [getBucketHead_of_lt hsecondLt, List.getD_eq_getElem _ _ (by rwa [table.mNodes_length])]
    at hsecond
  rw [List.pairwise_iff_getElem] at hpairwise
  rcases Nat.lt_or_gt_of_ne hne with hlt | hgt
  · exact hpairwise first second _ _ hlt hfirst hsecond
  · exact hpairwise second first _ _ hgt hsecond hfirst

theorem nodup_getBucketHead {table : HashTable T} (hnodup : table.entries.Nodup)
    (index : Nat) : (table.getBucketHead index).Nodup := by
  by_cases hindex : index < table.mBucketsNumber
  · exact (List.nodup_append.mp ((entries_perm_outside hindex).nodup_iff.mp hnodup)).1
  · rw [getBucketHead_of_ge (Nat.not_lt.mp hindex)]
    exact List.nodup_nil

end HashTable

namespace Hash

theorem nextCursor_eq (mask v : BitVec 64) : nextCursor mask v = succCursor mask v :=
  BitsOp.rev_step (k := 6) rfl mask v

/-- The mask of a table as the low mask of some number of bits. -/
theorem wordMask_eq {table : HashTable T} (hcount : IsBucketCount table.mBucketsNumber) :
    ∃ bits, bits ≤ 64 ∧ table.mBucketsNumber = 2 ^ bits ∧ wordMask table = lowMask 64 bits := by
  obtain ⟨bits, -, hbits⟩ := hcount
  refine ⟨bits, ?_, hbits, by rw [wordMask, hbits]; rfl⟩
  have hle := table.mBucketsNumber_le
  rw [hbits] at hle
  by_contra hlarge
  have hpow := Nat.pow_le_pow_right (show 0 < 2 by decide) (Nat.not_le.mp hlarge)
  rw [INT_MAX] at hle
  omega

/-- The tables of a state. -/
def tables (h : Hash T) : List (HashTable T) := h.mActive :: h.mBackup.toList

theorem mem_tables_of_none {h : Hash T} (hbackup : h.mBackup = none) {table : HashTable T} :
    table ∈ h.tables ↔ table = h.mActive := by
  rw [tables, hbackup, Option.toList_none, List.mem_singleton]

theorem mem_tables_of_some {h : Hash T} {backup : HashTable T} (hbackup : h.mBackup = some backup)
    {table : HashTable T} : table ∈ h.tables ↔ table = h.mActive ∨ table = backup := by
  rw [tables, hbackup, Option.toList_some, List.mem_cons, List.mem_singleton]

theorem mem_entries_iff {h : Hash T} {node : HashNode T} :
    node ∈ h.entries ↔ ∃ table ∈ h.tables, node ∈ table.entries := by
  cases hbackup : h.mBackup with
  | none => simp [entries, tables, hbackup]
  | some backup => simp [entries, tables, hbackup]

/-- The mask of the smaller table. -/
def smallMask (h : Hash T) : BitVec 64 :=
  match h.mBackup with
  | some backup =>
      if h.mActive.mBucketsNumber > backup.mBucketsNumber then wordMask backup
      else wordMask h.mActive
  | none => wordMask h.mActive

/-- The smaller table's mask is part of the masks of both tables. -/
theorem smallMask_spec {h : Hash T} (hinv : RehashInvariant h) :
    ∃ bits, bits ≤ 64 ∧ smallMask h = lowMask 64 bits ∧
      ∀ table ∈ h.tables, ∃ more, bits ≤ more ∧ more ≤ 64 ∧
        wordMask table = lowMask 64 more := by
  obtain ⟨bits, hbits, hcount, hmask⟩ := wordMask_eq hinv.active_count
  cases hbackup : h.mBackup with
  | none =>
      refine ⟨bits, hbits, by rw [smallMask, hbackup]; exact hmask, fun table htable => ?_⟩
      rw [mem_tables_of_none hbackup] at htable
      exact ⟨bits, Nat.le_refl _, hbits, htable ▸ hmask⟩
  | some backup =>
      obtain ⟨more, hmore, hmoreCount, hmoreMask⟩ :=
        wordMask_eq (hinv.backup_count backup hbackup)
      have hpow : more < bits ↔ h.mActive.mBucketsNumber > backup.mBucketsNumber := by
        rw [hcount, hmoreCount]
        exact (Nat.pow_lt_pow_iff_right (by decide)).symm
      rw [smallMask, hbackup]
      dsimp only
      split
      · rename_i hgt
        refine ⟨more, hmore, hmoreMask, fun table htable => ?_⟩
        rcases (mem_tables_of_some hbackup).mp htable with rfl | rfl
        · exact ⟨bits, (hpow.mpr hgt).le, hbits, hmask⟩
        · exact ⟨more, Nat.le_refl _, hmore, hmoreMask⟩
      · rename_i hle
        refine ⟨bits, hbits, hmask, fun table htable => ?_⟩
        rcases (mem_tables_of_some hbackup).mp htable with rfl | rfl
        · exact ⟨bits, Nat.le_refl _, hbits, hmask⟩
        · exact ⟨more, Nat.not_lt.mp (mt hpow.mp hle), hmore, hmoreMask⟩

/-- A node that `scan(v)` reads: in a bucket, of either table, whose index extends the
smaller table's bucket of `v` and does not come before `v`. -/
def Reads (h : Hash T) (v : BitVec 64) (node : HashNode T) : Prop :=
  ∃ table ∈ h.tables, ∃ u, u &&& smallMask h = v &&& smallMask h ∧ rank v ≤ rank u ∧
    node ∈ table.getBucketHead (u &&& wordMask table).toNat

theorem scanLoop_eq (large : HashTable T) (m0 m1 : BitVec 64) (fuel : Nat) (v : BitVec 64)
    (values : List (HashNode T)) :
    scanLoop large m0 m1 fuel v values = (sweep m0 m1 fuel v).map fun result =>
      (result.2, values ++ result.1.flatMap fun u => large.getBucketHead (u &&& m1).toNat) := by
  induction fuel generalizing v values with
  | zero => rfl
  | succ fuel ih =>
      simp only [scanLoop, sweep, nextCursor_eq]
      split
      · rw [ih, Option.map_map]
        congr 1
        funext result
        simp
      · simp

/-- What a call of `scan` on a table that counts entries does. -/
structure Scanned (h : Hash T) (v v' : BitVec 64) (values : List (HashNode T))
    (bits : Nat) : Prop where
  bits_le : bits ≤ 64
  mask : smallMask h = lowMask 64 bits
  cursor : rank v' = (rank v / stride 64 bits + 1) * stride 64 bits % 2 ^ 64
  values_iff : ∀ node, node ∈ values ↔ Reads h v node
  nodup : h.entries.Nodup → values.Nodup

theorem scan_idle {h : Hash T} (hinv : RehashInvariant h) (hbackup : h.mBackup = none)
    (v : BitVec 64) :
    ∃ bits, Scanned h v (nextCursor (wordMask h.mActive) v)
      (h.mActive.getBucketHead (v &&& wordMask h.mActive).toNat) bits := by
  obtain ⟨bits, hbits, -, hmask⟩ := wordMask_eq hinv.active_count
  have hsmall : smallMask h = wordMask h.mActive := by rw [smallMask, hbackup]
  refine ⟨bits, hbits, hsmall.trans hmask, ?_, fun node => ?_, fun hnodup => ?_⟩
  · rw [nextCursor_eq, hmask]
    exact rank_succCursor hbits v
  · constructor
    · intro hnode
      exact ⟨h.mActive, List.mem_cons_self, v, rfl, Nat.le_refl _, hnode⟩
    · rintro ⟨table, htable, u, hsame, -, hnode⟩
      obtain rfl := (mem_tables_of_none hbackup).mp htable
      rw [hsmall] at hsame
      rwa [← hsame]
  · rw [entries_of_none hbackup] at hnodup
    exact HashTable.nodup_getBucketHead hnodup _

/-- Words of one interval read the same bucket. -/
theorem bucket_congr {table : HashTable T} {bits : Nat} (hbits : bits ≤ 64)
    (hmask : wordMask table = lowMask 64 bits) {u v : BitVec 64}
    (hsame : rank u / stride 64 bits = rank v / stride 64 bits) :
    table.getBucketHead (u &&& wordMask table).toNat =
      table.getBucketHead (v &&& wordMask table).toNat := by
  rw [hmask, (and_lowMask_eq_iff hbits u v).mpr hsame]

/-- The loop of `scan` over a smaller and a larger table. -/
theorem scan_pair {small large : HashTable T} (v : BitVec 64)
    (hsmall : IsBucketCount small.mBucketsNumber) (hlarge : IsBucketCount large.mBucketsNumber)
    (hle : small.mBucketsNumber ≤ large.mBucketsNumber) :
    ∃ bits v' visited, bits ≤ 64 ∧ wordMask small = lowMask 64 bits ∧
      scanLoop large (wordMask small) (wordMask large) large.mBucketsNumber v
          (small.getBucketHead (v &&& wordMask small).toNat) =
        some (v', small.getBucketHead (v &&& wordMask small).toNat ++ visited) ∧
      rank v' = (rank v / stride 64 bits + 1) * stride 64 bits % 2 ^ 64 ∧
      (∀ node, node ∈ visited ↔ ∃ u, u &&& wordMask small = v &&& wordMask small ∧
        rank v ≤ rank u ∧ node ∈ large.getBucketHead (u &&& wordMask large).toNat) ∧
      (large.entries.Nodup → visited.Nodup) := by
  obtain ⟨bits, hbits, hsmallCount, hsmallMask⟩ := wordMask_eq hsmall
  obtain ⟨more, hmore, hlargeCount, hlargeMask⟩ := wordMask_eq hlarge
  have hbitsLe : bits ≤ more := by
    rw [hsmallCount, hlargeCount] at hle
    exact (Nat.pow_le_pow_iff_right (by decide)).mp hle
  have hfuel : 2 ^ (more - bits) ≤ large.mBucketsNumber := by
    rw [hlargeCount]
    exact Nat.pow_le_pow_right (by decide) (Nat.sub_le _ _)
  obtain ⟨visited, v', hsweep, hnodup, hvisits, hrank⟩ := sweep_visits hbitsLe hmore v hfuel
  refine ⟨bits, v', visited.flatMap fun u => large.getBucketHead (u &&& wordMask large).toNat,
    hbits, hsmallMask, ?_, hrank, fun node => ?_, fun hentries => ?_⟩
  · rw [scanLoop_eq, hsmallMask, hlargeMask, hsweep]
    rfl
  · have hiff := fun u => and_lowMask_eq_iff hbits u v
    simp only [List.mem_flatMap, hsmallMask, hiff]
    constructor
    · rintro ⟨u, hu, hnode⟩
      obtain ⟨u', hlow, hsame, hinterval⟩ := (hvisits _).mp (List.mem_map_of_mem hu)
      exact ⟨u', hsame, hlow, by rwa [bucket_congr hmore hlargeMask hinterval]⟩
    · rintro ⟨u, hsame, hlow, hnode⟩
      obtain ⟨u', hu', hinterval⟩ := List.mem_map.mp ((hvisits _).mpr ⟨u, hlow, hsame, rfl⟩)
      exact ⟨u', hu', by rwa [bucket_congr hmore hlargeMask hinterval]⟩
  · rw [List.nodup_flatMap]
    refine ⟨fun u _ => HashTable.nodup_getBucketHead hentries _, ?_⟩
    refine (List.pairwise_map.mp hnodup).imp fun {u u'} hne node hnode => ?_
    refine HashTable.disjoint_getBucketHead hentries (fun hindex => hne ?_) hnode
    refine (and_lowMask_eq_iff hmore u u').mp ?_
    rw [← hlargeMask]
    exact BitVec.eq_of_toNat_eq hindex

/-- During a rehash the loop reads what `Reads` says, whichever table is the smaller. -/
theorem scanned_pair {h : Hash T} {small large : HashTable T} (v : BitVec 64)
    (hperm : h.entries.Perm (small.entries ++ large.entries))
    (hmem : ∀ table, table ∈ h.tables ↔ table = small ∨ table = large)
    (hmask : smallMask h = wordMask small) (hsmall : IsBucketCount small.mBucketsNumber)
    (hlarge : IsBucketCount large.mBucketsNumber)
    (hle : small.mBucketsNumber ≤ large.mBucketsNumber) :
    ∃ v' values bits,
      scanLoop large (wordMask small) (wordMask large) large.mBucketsNumber v
          (small.getBucketHead (v &&& wordMask small).toNat) = some (v', values) ∧
        Scanned h v v' values bits := by
  obtain ⟨bits, v', visited, hbits, hbitsMask, hloop, hrank, hvisited, hnodup⟩ :=
    scan_pair v hsmall hlarge hle
  refine ⟨v', _, bits, hloop, hbits, hmask.trans hbitsMask, hrank, fun node => ?_,
    fun hentries => ?_⟩
  · rw [List.mem_append, hvisited]
    constructor
    · rintro (hnode | ⟨u, hsame, hlow, hnode⟩)
      · exact ⟨small, (hmem small).mpr (.inl rfl), v, rfl, Nat.le_refl _, hnode⟩
      · exact ⟨large, (hmem large).mpr (.inr rfl), u, by rwa [hmask], hlow, hnode⟩
    · rintro ⟨table, htable, u, hsame, hlow, hnode⟩
      rw [hmask] at hsame
      rcases (hmem table).mp htable with rfl | rfl
      · exact .inl (by rwa [← hsame])
      · exact .inr ⟨u, hsame, hlow, hnode⟩
  · rw [hperm.nodup_iff, List.nodup_append] at hentries
    obtain ⟨hsmallNodup, hlargeNodup, hdisjoint⟩ := hentries
    refine List.nodup_append.mpr ⟨HashTable.nodup_getBucketHead hsmallNodup _,
      hnodup hlargeNodup, fun node hnode other hother => ?_⟩
    obtain ⟨u, -, -, hnodeLarge⟩ := (hvisited other).mp hother
    exact hdisjoint node (HashTable.mem_entries.mpr ⟨_, hnode⟩) other
      (HashTable.mem_entries.mpr ⟨_, hnodeLarge⟩)

theorem scan_busy {h : Hash T} {backup : HashTable T} (hinv : RehashInvariant h)
    (hbackup : h.mBackup = some backup) (hsize : h.mActive.mSize ≠ 0) (v : BitVec 64) :
    ∃ v' values bits, h.scan v = some (v', values) ∧ Scanned h v v' values bits := by
  have hbusy := hinv.isReHashing_of_some hbackup
  have hbackupCount := hinv.backup_count backup hbackup
  rw [scan, if_neg hsize, hbusy, hbackup, Option.bind_eq_bind, Option.bind_some]
  by_cases hlt : h.mActive.mBucketsNumber > backup.mBucketsNumber
  · simp only [Bool.not_true, Bool.false_eq_true, if_false, hlt, if_true]
    refine scanned_pair v ?_ ?_ ?_ hbackupCount hinv.active_count hlt.le
    · rw [entries_of_some hbackup]
      exact List.perm_append_comm
    · intro table
      rw [mem_tables_of_some hbackup, or_comm]
    · rw [smallMask, hbackup]
      exact if_pos hlt
  · simp only [Bool.not_true, Bool.false_eq_true, if_false, hlt]
    refine scanned_pair v ?_ ?_ ?_ hinv.active_count hbackupCount (Nat.not_lt.mp hlt)
    · rw [entries_of_some hbackup]
    · exact fun table => mem_tables_of_some hbackup
    · rw [smallMask, hbackup]
      exact if_neg hlt

/-- A call of `scan` returns: at once where no entry is counted, else with the nodes it
reads and the next cursor. -/
theorem scan_spec {h : Hash T} (hinv : RehashInvariant h) (v : BitVec 64) :
    (h.mActive.mSize = 0 ∧ h.scan v = some (0, [])) ∨
      (h.mActive.mSize ≠ 0 ∧ ∃ v' values bits, h.scan v = some (v', values) ∧
        Scanned h v v' values bits) := by
  by_cases hsize : h.mActive.mSize = 0
  · exact .inl ⟨hsize, by rw [scan, if_pos hsize]⟩
  · refine .inr ⟨hsize, ?_⟩
    cases hbackup : h.mBackup with
    | some backup => exact scan_busy hinv hbackup hsize v
    | none =>
        have hidle := hinv.isReHashing_of_none hbackup
        obtain ⟨bits, hscanned⟩ := scan_idle hinv hbackup v
        refine ⟨_, _, bits, ?_, hscanned⟩
        rw [scan, if_neg hsize, hidle]
        rfl

end Hash

end RedisDB
