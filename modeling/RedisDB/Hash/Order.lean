import RedisDB.Hash.Addresses
import RedisDB.Hash.Lookup
import RedisDB.Library.Buckets

/-!
# The order of the buckets

An iterator completes the rehash in progress and walks the one table that is
left.  Where each node will stand in it is settled when the rehash starts: a
move changes neither the order of the completed table nor its bucket count.
Only the start of an expansion files the nodes anew.
-/

namespace RedisDB

open RedisDB.Library

variable {K T : Type}

namespace Hash

/-! ## Buckets in a row -/

theorem nodesFrom_append (table : HashTable T) (index first second : Nat) :
    nodesFrom table index (first + second) =
      nodesFrom table index first ++ nodesFrom table (index + first) second := by
  rw [nodesFrom, ← List.range'_append_1, List.flatMap_append]
  rfl

theorem nodesFrom_eq_nil {table : HashTable T} {index count : Nat}
    (hempty : ∀ other, index ≤ other → other < index + count →
      table.getBucketHead other = []) : nodesFrom table index count = [] := by
  refine List.flatMap_eq_nil_iff.mpr fun other hother => ?_
  obtain ⟨hle, hlt⟩ := List.mem_range'_1.mp hother
  exact hempty other hle hlt

/-- The contents are the chains of all buckets, one after the other. -/
theorem entries_eq_nodesFrom (table : HashTable T) :
    table.entries = nodesFrom table 0 table.mBucketsNumber := by
  have hchains : (List.range' 0 table.mBucketsNumber).map table.getBucketHead =
      table.mNodes := by
    refine List.ext_getElem (by simp [table.mNodes_length]) fun index _ hindex => ?_
    have hlt : index < table.mBucketsNumber := by rwa [← table.mNodes_length]
    simp [HashTable.getBucketHead_of_lt hlt, hindex]
  rw [HashTable.entries, nodesFrom, List.flatMap_def, hchains]

/-- What the move loop takes out of the old table stood in front of what stays. -/
theorem released_entries {h : Hash T} {backup active : HashTable T} {index last : Nat}
    (hbusy : h.Busy backup index) (hinv : RehashInvariant h) (hle : index ≤ last)
    (hlast : last ≤ h.mActive.mBucketsNumber)
    (hreleased : Released h.mActive active index (last - index)) :
    h.mActive.entries = nodesFrom h.mActive index (last - index) ++ active.entries := by
  have hbelow : nodesFrom h.mActive 0 index = [] := nodesFrom_eq_nil fun other _ hother => by
    refine (hinv.busy backup hbusy.backup_eq).emptied other ?_
    rw [hbusy.index_eq]
    omega
  have hemptied : nodesFrom active 0 last = [] := nodesFrom_eq_nil fun other _ hother =>
    released_emptied hbusy hinv hle hreleased (by omega)
  have hrest : nodesFrom active last (h.mActive.mBucketsNumber - last) =
      nodesFrom h.mActive last (h.mActive.mBucketsNumber - last) := by
    refine List.flatMap_congr fun other hother => ?_
    have hother := (List.mem_range'_1.mp hother).1
    rw [hreleased.chains, if_neg (by omega)]
  have hnumber : h.mActive.mBucketsNumber =
      index + ((last - index) + (h.mActive.mBucketsNumber - last)) := by omega
  have hactive : h.mActive.mBucketsNumber =
      last + (h.mActive.mBucketsNumber - last) := by omega
  calc h.mActive.entries
      = nodesFrom h.mActive 0
          (index + ((last - index) + (h.mActive.mBucketsNumber - last))) := by
        rw [← hnumber]
        exact entries_eq_nodesFrom _
    _ = nodesFrom h.mActive index (last - index) ++
          nodesFrom active last (h.mActive.mBucketsNumber - last) := by
        rw [nodesFrom_append, hbelow, List.nil_append, Nat.zero_add, nodesFrom_append,
          Nat.add_sub_cancel' hle, hrest]
    _ = nodesFrom h.mActive index (last - index) ++ active.entries := by
        rw [entries_eq_nodesFrom active, hreleased.buckets, hactive, nodesFrom_append, hemptied,
          List.nil_append, Nat.zero_add, ← hactive]

/-! ## The order of the completed table -/

/-- The nodes of the old table that the rehash in progress puts in front of a chain. -/
def pending (params : HashParams K T) (h : Hash T) (index : Nat) : List (HashNode T) :=
  match h.mBackup with
  | none => []
  | some _ => filed (params.home h.mBucketsMask) h.mActive.entries index

/-- All nodes, bucket by bucket, as they stand once the rehash in progress is completed. -/
def order (params : HashParams K T) (h : Hash T) : List (HashNode T) :=
  (List.range h.mBucketsNumber).flatMap fun index =>
    h.pending params index ++ (h.mBackup.getD h.mActive).getBucketHead index

theorem order_of_none (params : HashParams K T) {h : Hash T} (hinv : RehashInvariant h)
    (hbackup : h.mBackup = none) : h.order params = h.entries := by
  rw [entries_of_none hbackup, entries_eq_nodesFrom,
    hinv.idle_number (hinv.idle_of_none hbackup), order, nodesFrom, List.range_eq_range']
  simp only [pending, hbackup, List.nil_append, Option.getD_none]

theorem order_of_some {params : HashParams K T} {h : Hash T} {backup : HashTable T}
    (hbackup : h.mBackup = some backup) :
    h.order params = (List.range h.mBucketsNumber).flatMap fun index =>
      filed (params.home h.mBucketsMask) h.mActive.entries index ++
        backup.getBucketHead index := by
  simp only [order, pending, hbackup, Option.getD_some]

/-- A move of the rehash in progress keeps the order. -/
theorem order_rehash {params : HashParams K T} {h next : Hash T} {backup : HashTable T}
    {step : Nat} {isAuto : Bool} (hinv : RehashInvariant h)
    (hbackup : h.mBackup = some backup) (hrehash : h.rehash params step isAuto = some next) :
    next.order params = h.order params := by
  obtain ⟨index, hbusy, hindex⟩ := hinv.cursor hbackup
  obtain ⟨active, received, hreleased, hreceived, hresult⟩ :=
    rehash_of_busy step isAuto hbusy hindex (hinv.home_lt params hbackup)
  have hle := le_nextIndex backup step isAuto hindex
  have hlast := nextIndex_le h backup index step isAuto
  generalize hpos : h.nextIndex backup index step isAuto = last at *
  have hentries := released_entries hbusy hinv hle hlast hreleased
  -- the nodes moved leave the front of the pending ones for the front of the chain
  have hchain : ∀ other, filed (params.home h.mBucketsMask) h.mActive.entries other ++
        backup.getBucketHead other =
      filed (params.home h.mBucketsMask) active.entries other ++
        received.getBucketHead other := by
    intro other
    rw [hentries, filed_append, hreceived.chains, List.append_assoc]
    rfl
  rw [order_of_some hbackup]
  simp only [hchain]
  rw [hresult] at hrehash
  rw [← Option.some.inj hrehash]
  split
  · rename_i hend
    rw [hend] at hreleased
    have hnil := released_all hbusy hinv hindex.le hreleased
    simp [order, pending, swappedState, hnil, filed]
  · rw [order_of_some (h := h.movedState active received last) rfl]
    rfl

/-! ## Steps that keep the order -/

/-- What a walk along the buckets relies on. -/
structure Sound (params : HashParams K T) (h : Hash T) : Prop where
  invariant : RehashInvariant h
  home : AllHome params h
  addrs : (h.entries.map HashNode.addr).Nodup

theorem reachable_sound [DecidableEq K] {params : HashParams K T} {h : Hash T}
    (hreach : (hashMachine params).Reachable h) (hhome : AllHome params h) :
    Sound params h :=
  ⟨reachable_rehashInvariant params hreach, hhome, reachable_addrs params hreach⟩

theorem Sound.nodup {params : HashParams K T} {h : Hash T} (hsound : Sound params h) :
    h.entries.Nodup :=
  hsound.addrs.of_map

/-- The start of a rehash moves no node. -/
theorem Sound.started {params : HashParams K T} {h : Hash T} {table : HashTable T}
    (hsound : Sound params h) (hstarted : Started h table) :
    Sound params (h.startedState table) := by
  refine ⟨hstarted.invariant, ⟨hsound.home.1, fun other h0 => ?_⟩, ?_⟩
  · cases h0
    exact HashTable.placed_of_empty hstarted.chains
  · rw [hstarted.contents]
    exact hsound.addrs

/-- The state has moved, but the completed table will be the same. -/
structure SameOrder (params : HashParams K T) (h next : Hash T) : Prop where
  sound : Sound params next
  contents : next.entries.Perm h.entries
  order : next.order params = h.order params
  number : next.mBucketsNumber = h.mBucketsNumber

theorem SameOrder.refl {params : HashParams K T} {h : Hash T} (hsound : Sound params h) :
    SameOrder params h h :=
  ⟨hsound, List.Perm.refl _, rfl, rfl⟩

theorem SameOrder.trans {params : HashParams K T} {h middle next : Hash T}
    (hfirst : SameOrder params h middle) (hsecond : SameOrder params middle next) :
    SameOrder params h next :=
  ⟨hsecond.sound, hsecond.contents.trans hfirst.contents,
    hsecond.order.trans hfirst.order, hsecond.number.trans hfirst.number⟩

theorem sameOrder_rehash {params : HashParams K T} {h next : Hash T} {backup : HashTable T}
    {step : Nat} {isAuto : Bool} (hsound : Sound params h) (hbackup : h.mBackup = some backup)
    (hrehash : h.rehash params step isAuto = some next) : SameOrder params h next := by
  have hrehashed := rehashed_of_busy hsound.invariant hbackup hrehash
  refine ⟨⟨hrehashed.invariant, ?_, ?_⟩, hrehashed.contents,
    order_rehash hsound.invariant hbackup hrehash, ?_⟩
  · exact placed_rehash_busy (admitsHome_home params) hsound.invariant hbackup hsound.home
      hrehash
  · exact (hrehashed.contents.map _).nodup_iff.mpr hsound.addrs
  · exact number_of_rehash_busy hsound.invariant (by simp [hbackup]) hrehash

/-- What an iterator method does first: it leaves one table, in the order known before. -/
theorem sameOrder_complete {params : HashParams K T} {h : Hash T} (hsound : Sound params h) :
    ∃ full, h.complete params = some full ∧ full.mBackup = none ∧
      SameOrder params h full := by
  cases hbackup : h.mBackup with
  | none => exact ⟨h, complete_of_none params hsound.invariant hbackup, hbackup, .refl hsound⟩
  | some backup =>
      rw [complete, hsound.invariant.isReHashing_of_some hbackup, if_pos rfl]
      obtain ⟨full, hfull, hnone, -⟩ := complete_of_busy params hsound.invariant hbackup
      exact ⟨full, hfull, hnone, sameOrder_rehash hsound hbackup hfull⟩

/-- The completed table will be overfull, so that the next keyed call expands it. -/
def Overfull (params : HashParams K T) (h : Hash T) : Prop :=
  params.factors.exceedsLoad h.entries.length h.mBucketsNumber = true

instance (params : HashParams K T) (h : Hash T) : Decidable (Overfull params h) :=
  inferInstanceAs (Decidable (_ = true))

theorem SameOrder.overfull_iff {params : HashParams K T} {h next : Hash T}
    (hsame : SameOrder params h next) : Overfull params next ↔ Overfull params h := by
  rw [Overfull, Overfull, hsame.contents.length_eq, hsame.number]

/-- At rest this is what `isNeedReHash` tests. -/
theorem isNeedReHash_iff {params : HashParams K T} {h : Hash T} (hinv : RehashInvariant h)
    (hbackup : h.mBackup = none) : h.isNeedReHash params = true ↔ Overfull params h := by
  have hidle := hinv.idle_of_none hbackup
  rw [isNeedReHash, Overfull, hinv.idle_size hidle, hinv.idle_number hidle,
    entries_of_none hbackup]

/-- The opening step of a keyed call, unless it starts an expansion. -/
theorem sameOrder_advance {params : HashParams K T} {h : Hash T} (hsound : Sound params h)
    (hroom : ¬ Overfull params h) :
    ∃ next, h.advance params = some next ∧ SameOrder params h next := by
  have hinv := hsound.invariant
  have hneed : h.mBackup = none → h.isNeedReHash params = false := fun hbackup =>
    Bool.eq_false_iff.mpr fun htrue => hroom ((isNeedReHash_iff hinv hbackup).mp htrue)
  obtain ⟨next, hadvance⟩ := advance_isSome params hinv fun hidle htrue => by
    rw [hneed (hinv.none_of_isReHashing hidle)] at htrue
    cases htrue
  refine ⟨next, hadvance, ?_⟩
  rcases advance_ways hinv hadvance with ⟨hsome, hrehash⟩ | ⟨hnone, htrue, -⟩ | ⟨-, -, rfl⟩
  · obtain ⟨backup, hbackup⟩ := Option.ne_none_iff_exists'.mp hsome
    exact sameOrder_rehash hsound hbackup hrehash
  · rw [hneed hnone] at htrue
    cases htrue
  · exact .refl hsound

/-- A table at rest with room is left alone. -/
theorem advance_of_room {params : HashParams K T} {h : Hash T} (hinv : RehashInvariant h)
    (hbackup : h.mBackup = none) (hroom : ¬ Overfull params h) :
    h.advance params = some h := by
  have hneed : h.isNeedReHash params = false :=
    Bool.eq_false_iff.mpr fun htrue => hroom ((isNeedReHash_iff hinv hbackup).mp htrue)
  rw [advance, hinv.isReHashing_of_none hbackup, hneed]
  rfl

/-! ## The start of an expansion -/

/-- An overfull table at rest is filed anew into twice as many buckets, and has room then. -/
theorem advance_of_overfull {params : HashParams K T} {h middle : Hash T}
    (hsound : Sound params h) (hpaced : Paced params.factors 1 h) (hbackup : h.mBackup = none)
    (hover : Overfull params h) (hadvance : h.advance params = some middle) :
    Sound params middle ∧ ¬ Overfull params middle ∧
      middle.order params = bucketed (params.home (2 * h.mBucketsNumber - 1))
        (2 * h.mBucketsNumber) h.entries := by
  have hinv := hsound.invariant
  have hidle := hinv.idle_of_none hbackup
  have hneed := (isNeedReHash_iff hinv hbackup).mpr hover
  have hrehash : h.rehash params 2 true = some middle := by
    rcases advance_ways hinv hadvance with ⟨hsome, -⟩ | ⟨-, -, hrehash⟩ | ⟨-, hfalse, -⟩
    · exact absurd hbackup hsome
    · exact hrehash
    · rw [hneed] at hfalse
      cases hfalse
  obtain ⟨table, hstarted, hrest⟩ := rehash_of_due hinv hbackup (.inl hneed) hrehash
  have hresting := hpaced.resting_of_none hbackup
  have hdouble := hresting.growth_target hinv hneed hstarted.count
  rw [hinv.idle_number hidle] at hdouble
  have hsame := sameOrder_rehash (hsound.started hstarted) rfl hrest
  refine ⟨hsame.sound, ?_, ?_⟩
  · rw [hsame.overfull_iff, Overfull, hstarted.length hinv hbackup]
    intro hexceeds
    have hlt := params.factors.lt_of_exceeds hexceeds
    have hhigh := hresting.high
    rw [hinv.idle_number hidle] at hhigh
    change table.mBucketsNumber < h.mActive.mSize at hlt
    omega
  · rw [hsame.order, order_of_some (h := h.startedState table) rfl, entries_of_none hbackup,
      ← hdouble]
    simp only [hstarted.chains, List.append_nil]
    rfl

/-- With more than `2 ^ 30` nodes the constructor of the new table does not return. -/
theorem advance_eq_none {params : HashParams K T} {h : Hash T} (hinv : RehashInvariant h)
    (hbackup : h.mBackup = none) (hover : Overfull params h)
    (hsize : 2 ^ 30 < h.entries.length) : h.advance params = none := by
  have hidle := hinv.idle_of_none hbackup
  have hneed := (isNeedReHash_iff hinv hbackup).mpr hover
  rw [entries_of_none hbackup, ← hinv.idle_size hidle] at hsize
  have hstart : h.startReHashing = none := by
    rw [Option.eq_none_iff_forall_not_mem]
    intro started hstarted
    obtain ⟨table, hcount, -, -⟩ := startReHashing_eq_some hstarted
    obtain ⟨⟨k, -, hpower⟩, hle, -⟩ := getNextPower2_eq_some hcount
    have htable := table.mBucketsNumber_le
    rw [INT_MAX] at htable
    have hk : 30 < k := by
      rw [← Nat.pow_lt_pow_iff_right (by decide : 1 < 2)]
      omega
    have hlarge : 2 ^ 31 ≤ 2 ^ k := Nat.pow_le_pow_right (by decide) hk
    omega
  rw [advance, hneed, Bool.or_true, if_pos rfl,
    rehash_of_idle hidle, hstart]
  rfl

end Hash

end RedisDB
