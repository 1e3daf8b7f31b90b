import RedisDB.Hash.Astray
import RedisDB.Hash.Lookup
import RedisDB.Library.AffineFold
import Mathlib.Data.BitVec
import Mathlib.Tactic.Ring

/-!
# The two hash functions

`HashFunction` flips a constant into keys that convert to a word, and reads strings
with times33.  Both survive the mask of a table: nearby integers spread over all
buckets, while strings built of interchangeable blocks share a bucket in every table.
-/

namespace RedisDB

open RedisDB.Library

variable {K T : Type}

namespace HashFunction

/-- The keys of the primary template: a null pointer, a pointer, or a value that
`static_cast<size_t>` takes modulo the word. -/
inductive ScalarKey where
  | nullPointer
  | pointer (address : BitVec 64)
  | value (k : Int)
  deriving DecidableEq, Repr

/-- The primary template. -/
def scalar : ScalarKey → BitVec 64
  | .nullPointer => 0xdeadbeef#64
  | .pointer address => address ^^^ 0xdeadbeef#64
  | .value k => BitVec.ofInt 64 k ^^^ 0xdeadbeef#64

/-- `*kIt` as a word: `char` is signed. -/
def charWord (c : UInt8) : BitVec 64 := c.toBitVec.signExtend 64

/-- The loop of the specialization for strings. -/
def stringLoop (hash : BitVec 64) : List UInt8 → BitVec 64
  | [] => hash
  | c :: rest => stringLoop ((hash <<< 5) + hash + charWord c) rest

/-- The specialization for strings. -/
def string (k : List UInt8) : BitVec 64 := stringLoop 5381#64 k

/-- The buckets of `hello` and `zi` among four. -/
example : (string [104, 101, 108, 108, 111]).toNat % 4 = 1 ∧
    (string [122, 105]).toNat % 4 = 0 := by
  decide

theorem stringLoop_eq_affineFold (hash : BitVec 64) (k : List UInt8) :
    stringLoop hash k = affineFold 33#64 charWord hash k := by
  induction k generalizing hash with
  | nil => rfl
  | cons c rest ih =>
      have hshift : (hash <<< 5) + hash = 33#64 * hash := by
        rw [BitVec.shiftLeft_eq_mul_twoPow]
        have htwo : BitVec.twoPow 64 5 = 32#64 := by decide
        rw [htwo]
        bv_omega
      rw [stringLoop, affineFold, ih, hshift]

/-- The low bits of a word. -/
def lowBits (k : Nat) (hk : k ≤ 64) : BitVec 64 →+* BitVec k where
  toFun := BitVec.setWidth k
  map_zero' := BitVec.setWidth_zero k 64
  map_one' := BitVec.setWidth_ofNat_of_le hk 1
  map_add' x y := BitVec.setWidth_add x y hk
  map_mul' x y := by
    apply BitVec.eq_of_toNat_eq
    simp [Nat.mod_mod_of_dvd, Nat.pow_dvd_pow 2 hk, Nat.mul_mod]

theorem isUnit_thirtyThree : IsUnit (33#64) :=
  IsUnit.of_mul_eq_one 1117984489315730401#64 (by decide)

end HashFunction

/-! ## Keys that share a bucket -/

namespace Hash

variable [DecidableEq K] {h : Hash T}

omit [DecidableEq K] in
/-- Two keys share a bucket when the low bits of their hashes agree. -/
theorem index_eq_iff (params : HashParams K T) (k : Nat) (first second : K) :
    params.index (2 ^ k - 1) first = params.index (2 ^ k - 1) second ↔
      (params.mHasher first).setWidth k = (params.mHasher second).setWidth k := by
  rw [HashParams.index, HashParams.index, Nat.and_two_pow_sub_one_eq_mod,
    Nat.and_two_pow_sub_one_eq_mod, ← BitVec.toNat_inj, BitVec.toNat_setWidth,
    BitVec.toNat_setWidth]

omit [DecidableEq K] in
theorem bucketCount_of_mem_tables (hinv : RehashInvariant h) {table : HashTable T}
    (htable : table ∈ h.tables) : IsBucketCount table.mBucketsNumber := by
  rw [tables, List.mem_cons, Option.mem_toList] at htable
  rcases htable with rfl | hmode
  · exact hinv.active_count
  · exact hinv.backup_count table hmode

/-- The nodes of a table that hold one of the keys of a common hash lie in one chain, but
for one at most. -/
theorem length_filter_le_chain {params : HashParams K T} {table : HashTable T} {keys : List K}
    {key : K} (hnearly : NearlyHome params table) (hnodup : table.entries.Nodup)
    (hsame : ∀ other ∈ keys, params.mHasher other = params.mHasher key) :
    (table.entries.filter fun node => params.getKey node.mValue ∈ keys).length ≤
      (table.getBucketHead (params.index (table.mBucketsNumber - 1) key)).length + 1 := by
  refine hnearly.length_le_chain (hnodup.filter _) fun node hnode => ?_
  rw [List.mem_filter, decide_eq_true_eq] at hnode
  refine ⟨hnode.1, ?_⟩
  rw [HashParams.home, HashParams.index, HashParams.index, hsame _ hnode.2]

/-- Stored keys that are different have nodes of their own. -/
theorem length_le_filter {params : HashParams K T} {keys : List K} (hnodup : keys.Nodup)
    (hstored : ∀ key ∈ keys, key ∈ h.keys params) :
    keys.length ≤ (h.entries.filter fun node => params.getKey node.mValue ∈ keys).length := by
  rw [← List.length_map fun node : HashNode T => params.getKey node.mValue]
  refine (List.subperm_of_subset hnodup fun key hkey => ?_).length_le
  obtain ⟨node, hnode, hequal⟩ := List.mem_map.mp (hstored key hkey)
  refine List.mem_map.mpr ⟨node, List.mem_filter.mpr ⟨hnode, ?_⟩, hequal⟩
  rw [hequal]
  exact decide_eq_true hkey

/-- Keys of one hash make a long chain: no table spreads them. -/
theorem sharedHash_chain {params : HashParams K T} (hreach : (hashMachine params).Reachable h)
    {keys : List K} (hnodup : keys.Nodup) (hstored : ∀ key ∈ keys, key ∈ h.keys params)
    (hsame : ∀ key ∈ keys, ∀ other ∈ keys, params.mHasher key = params.mHasher other) :
    ∃ table ∈ h.tables, ∃ index,
      keys.length ≤ 2 * (table.getBucketHead index).length + 2 := by
  have hactiveMem : h.mActive ∈ h.tables := List.mem_cons_self
  have htotal := length_le_filter hnodup hstored
  rw [entries, List.filter_append, List.length_append] at htotal
  cases keys with
  | nil => exact ⟨h.mActive, hactiveMem, 0, Nat.zero_le _⟩
  | cons key rest =>
      have hchain : ∀ table ∈ h.tables, ∃ index,
          (table.entries.filter fun node => params.getKey node.mValue ∈ key :: rest).length ≤
            (table.getBucketHead index).length + 1 := fun table htable =>
        ⟨_, length_filter_le_chain (reachable_nearlyHome params hreach table htable)
          ((reachable_addrs params hreach).of_map.sublist (sublist_of_mem_tables htable))
          fun other hother => hsame other hother key List.mem_cons_self⟩
      obtain ⟨index, hactive⟩ := hchain h.mActive hactiveMem
      cases hbackup : h.mBackup with
      | none =>
          rw [hbackup, Option.elim_none, List.filter_nil, List.length_nil] at htotal
          exact ⟨h.mActive, hactiveMem, index, by omega⟩
      | some backup =>
          have hbackupMem : backup ∈ h.tables := (mem_tables_of_some hbackup).mpr (.inr rfl)
          obtain ⟨other, hsecond⟩ := hchain backup hbackupMem
          rw [hbackup, Option.elim_some] at htotal
          rcases Nat.le_total (h.mActive.getBucketHead index).length
            (backup.getBucketHead other).length with hle | hle
          · exact ⟨backup, hbackupMem, other, by omega⟩
          · exact ⟨h.mActive, hactiveMem, index, by omega⟩

/-! ## Strings -/

/-- The words of two-letter blocks `Ez` and `FY`. -/
def flooding (count : Nat) : List (List UInt8) := blockWords [69, 122] [70, 89] count

theorem flooding_blocks :
    Interchangeable 33#64 HashFunction.charWord [69, 122] [70, 89] := by
  intro seed
  have hcarry : 33#64 * HashFunction.charWord 69 + HashFunction.charWord 122 =
      33#64 * HashFunction.charWord 70 + HashFunction.charWord 89 := by decide
  simp only [affineFold, mul_add, add_assoc]
  rw [hcarry]

/-- A map that stores the `2 ^ count` words of `count` blocks has a chain of about half of
them, whatever its bucket counts are. -/
theorem flooded_chain {params : HashParams (List UInt8) T}
    (hhasher : params.mHasher = HashFunction.string)
    (hreach : (hashMachine params).Reachable h) {count : Nat}
    (hstored : ∀ word ∈ flooding count, word ∈ h.keys params) :
    ∃ table ∈ h.tables, ∃ index,
      2 ^ count ≤ 2 * (table.getBucketHead index).length + 2 := by
  have hblocks : ([69, 122] : List UInt8) ≠ [70, 89] := by decide
  have hnodup : (flooding count).Nodup := nodup_blockWords (by rfl) hblocks count
  have hlength : (flooding count).length = 2 ^ count := length_blockWords _ _ count
  rw [← hlength]
  refine sharedHash_chain hreach hnodup hstored fun word hword other hother => ?_
  rw [hhasher, HashFunction.string, HashFunction.string, HashFunction.stringLoop_eq_affineFold,
    HashFunction.stringLoop_eq_affineFold]
  exact affineFold_blockWords flooding_blocks _ hword hother

/-- A map with string keys. -/
def stringMap : HashParams (List UInt8) (List UInt8 × Nat) :=
  .map HashFunction.string LoadFactors.exact

/-- The map after the four words of two blocks are inserted. -/
def flooded : Hash (List UInt8 × Nat) :=
  (hashMachine stringMap).stateAfter ((flooding 2).map fun word => .insert (word, 0)) (by decide)

theorem flooded_chain_two :
    flooded.mActive.mNodes.map List.length = [0, 0, 0, 4] ∧
      ∃ table ∈ flooded.tables, ∃ index,
        2 ^ 2 ≤ 2 * (table.getBucketHead index).length + 2 :=
  ⟨by decide, flooded_chain rfl (Machine.reachable_stateAfter _ _ _) (by decide)⟩

/-- In every table two strings share a bucket exactly when they do with a common suffix. -/
theorem suffix_keeps_bucket {params : HashParams (List UInt8) T}
    (hhasher : params.mHasher = HashFunction.string)
    (hreach : (hashMachine params).Reachable h) {table : HashTable T} (htable : table ∈ h.tables)
    (first second suffix : List UInt8) :
    params.index (table.mBucketsNumber - 1) (first ++ suffix) =
        params.index (table.mBucketsNumber - 1) (second ++ suffix) ↔
      params.index (table.mBucketsNumber - 1) first =
        params.index (table.mBucketsNumber - 1) second := by
  have hcount := bucketCount_of_mem_tables (reachable_rehashInvariant params hreach) htable
  obtain ⟨k, hk, hpow, -⟩ := wordMask_eq hcount
  rw [hpow, index_eq_iff, index_eq_iff, hhasher]
  simp only [HashFunction.string, HashFunction.stringLoop_eq_affineFold, affineFold_append]
  change HashFunction.lowBits k hk _ = HashFunction.lowBits k hk _ ↔ _
  rw [map_affineFold (HashFunction.lowBits k hk) _ suffix,
    map_affineFold (HashFunction.lowBits k hk) _ suffix]
  have hunit := HashFunction.isUnit_thirtyThree.map (HashFunction.lowBits k hk)
  exact affineFold_eq_iff hunit suffix _ _

/-- `hello` and `world` share bucket `1` of four, so `hello!` and `world!` share one. -/
theorem suffix_keeps_bucket_hello :
    stringMap.index 3 [104, 101, 108, 108, 111, 33] =
      stringMap.index 3 [119, 111, 114, 108, 100, 33] := by
  have hkeeps := @suffix_keeps_bucket _ (new : Hash (List UInt8 × Nat)) stringMap rfl
    Machine.Reachable.init _ List.mem_cons_self [104, 101, 108, 108, 111]
    [119, 111, 114, 108, 100] [33]
  exact hkeeps.mpr (by decide)

/-! ## Integers -/

omit [DecidableEq K] in
/-- Integers that share a bucket are congruent modulo the bucket count. -/
theorem emod_eq_of_index_eq {params : HashParams Int T}
    (hhasher : params.mHasher = fun k => HashFunction.scalar (.value k)) {k : Nat} (hk : k ≤ 64)
    {first second : Int}
    (hindex : params.index (2 ^ k - 1) first = params.index (2 ^ k - 1) second) :
    first % (2 ^ k : Nat) = second % (2 ^ k : Nat) := by
  have hword : ∀ value : Int, (((BitVec.ofInt 64 value).setWidth k).toNat : Int) =
      value % (2 ^ k : Nat) := by
    intro value
    have hdvd : ((2 ^ k : Nat) : Int) ∣ ((2 ^ 64 : Nat) : Int) :=
      Int.natCast_dvd_natCast.mpr (Nat.pow_dvd_pow 2 hk)
    rw [BitVec.toNat_setWidth, BitVec.toNat_ofInt, Int.natCast_emod, Int.toNat_of_nonneg,
      Int.emod_emod_of_dvd _ hdvd]
    exact Int.emod_nonneg _ (by decide)
  rw [index_eq_iff, hhasher] at hindex
  simp only [HashFunction.scalar, BitVec.setWidth_xor, BitVec.xor_left_inj] at hindex
  rw [← hword, ← hword, hindex]

/-- Different integers of an interval that are congruent lie a whole count apart. -/
theorem length_le_of_congruent {keys : List Int} {low : Int} {spread count : Nat}
    (hcount : 0 < count) (hnodup : keys.Nodup)
    (hrange : ∀ key ∈ keys, low ≤ key ∧ key < low + spread)
    (hsame : ∀ key ∈ keys, ∀ other ∈ keys, key % count = other % count) :
    keys.length ≤ spread / count + 1 := by
  have hpos : (0 : Int) < count := by exact_mod_cast hcount
  have hinjective : ∀ key ∈ keys, ∀ other ∈ keys,
      ((key - low) / count).toNat = ((other - low) / count).toNat → key = other := by
    intro key hkey other hother hequal
    have hfirst := Int.ediv_nonneg (Int.sub_nonneg.mpr (hrange key hkey).1) hpos.le
    have hsecond := Int.ediv_nonneg (Int.sub_nonneg.mpr (hrange other hother).1) hpos.le
    have hquotient : (key - low) / count = (other - low) / count := by omega
    have hremainder : (key - low) % count = (other - low) % count := by
      rw [Int.sub_emod, hsame key hkey other hother, ← Int.sub_emod]
    have hkeyEq := Int.emod_add_mul_ediv (key - low) count
    have hotherEq := Int.emod_add_mul_ediv (other - low) count
    rw [hquotient, hremainder] at hkeyEq
    omega
  rw [← List.length_map fun key : Int => ((key - low) / count).toNat,
    ← List.length_range (n := spread / count + 1)]
  refine (List.subperm_of_subset (hnodup.map_on hinjective) fun offset hoffset => ?_).length_le
  obtain ⟨key, hkey, rfl⟩ := List.mem_map.mp hoffset
  obtain ⟨hlow, hhigh⟩ := hrange key hkey
  have hle : (key - low) / count ≤ (spread : Int) / count :=
    Int.ediv_le_ediv hpos (by omega)
  have hnonneg : 0 ≤ (spread : Int) / count := Int.ediv_nonneg (by omega) hpos.le
  rw [List.mem_range]
  omega

/-- Different keys of an interval spread over all buckets: a chain holds no more of them
than two above the average. -/
theorem dense_chain_le {params : HashParams Int T}
    (hhasher : params.mHasher = fun k => HashFunction.scalar (.value k))
    (hreach : (hashMachine params).Reachable h) (hunique : (h.keys params).Nodup)
    {low : Int} {spread : Nat}
    (hdense : ∀ key ∈ h.keys params, low ≤ key ∧ key < low + spread) :
    ∀ table ∈ h.tables, ∀ index,
      (table.getBucketHead index).length ≤ spread / table.mBucketsNumber + 2 := by
  intro table htable index
  have hcount := bucketCount_of_mem_tables (reachable_rehashInvariant params hreach) htable
  obtain ⟨k, hk, hpow, -⟩ := wordMask_eq hcount
  have hchain := (reachable_nearlyHome params hreach table htable).length_chain_le index
  have hsublist : (((table.getBucketHead index).filter fun node =>
      params.home (table.mBucketsNumber - 1) node = index).map fun node =>
        params.getKey node.mValue).Sublist (h.keys params) :=
    ((List.filter_sublist.trans (table.chain_sublist index)).trans
      (sublist_of_mem_tables htable)).map _
  have hpositive : 0 < table.mBucketsNumber := Nat.lt_of_lt_of_le (by decide) hcount.four_le
  have hhome := length_le_of_congruent hpositive
    (hunique.sublist hsublist) (fun key hkey => hdense key (hsublist.mem hkey)) (by
      intro key hkey other hother
      obtain ⟨node, hnode, rfl⟩ := List.mem_map.mp hkey
      obtain ⟨second, hsecond, rfl⟩ := List.mem_map.mp hother
      rw [List.mem_filter, decide_eq_true_eq, hpow] at hnode hsecond
      rw [hpow]
      exact emod_eq_of_index_eq hhasher hk (hnode.2.trans hsecond.2.symm))
  rw [List.length_map] at hhome
  omega

/-- A map with integer keys. -/
def integerMap : HashParams Int (Int × Nat) :=
  .map (fun k => HashFunction.scalar (.value k)) LoadFactors.exact

/-- The map after ten insertions of consecutive keys, the expansion to sixteen buckets
under way. -/
def consecutive : Hash (Int × Nat) :=
  (hashMachine integerMap).stateAfter
    ((List.range 10).map fun key : Nat => .insert ((key : Int) - 4, key)) (by decide)

theorem dense_chain_le_consecutive :
    consecutive.mBackup.isSome ∧
      ∀ table ∈ consecutive.tables, ∀ index,
        (table.getBucketHead index).length ≤ 10 / table.mBucketsNumber + 2 := by
  have hdense : ∀ key ∈ consecutive.keys integerMap, -4 ≤ key ∧ key < -4 + (10 : Nat) := by decide
  exact ⟨by decide, dense_chain_le rfl (Machine.reachable_stateAfter _ _ _) (by decide) hdense⟩

end Hash

end RedisDB
