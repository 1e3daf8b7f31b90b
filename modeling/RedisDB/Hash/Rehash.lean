import RedisDB.Hash.Basic

/-!
# What one `rehash` call does

The two loops of `rehash` are described once: which chains they empty, what the
backup chains become, and what happens to counters and contents.  Everything
later cites `Released`, `Received` and `rehash_of_busy`, never the loops.
-/

namespace RedisDB

open RedisDB.Library

variable {K T : Type}

/-- A power of two that is at least four. -/
def IsBucketCount (count : Nat) : Prop := ∃ k, 2 ≤ k ∧ count = 2 ^ k

theorem IsBucketCount.four_le {count : Nat} (hcount : IsBucketCount count) : 4 ≤ count := by
  obtain ⟨k, hk, rfl⟩ := hcount
  calc 4 = 2 ^ 2 := rfl
    _ ≤ 2 ^ k := Nat.pow_le_pow_right (by decide) hk

theorem IsBucketCount.double {count : Nat} (hcount : IsBucketCount count) :
    IsBucketCount (2 * count) := by
  obtain ⟨k, hk, rfl⟩ := hcount
  exact ⟨k + 1, by omega, (Nat.pow_succ').symm⟩

/-- Masking with a bucket count less one is reduction modulo the count. -/
theorem HashParams.index_eq_mod (params : HashParams K T) {count : Nat}
    (hcount : IsBucketCount count) (key : K) :
    params.index (count - 1) key = (params.mHasher key).toNat % count := by
  obtain ⟨k, -, rfl⟩ := hcount
  exact Nat.and_two_pow_sub_one_eq_mod _ _

theorem HashParams.index_lt (params : HashParams K T) {count : Nat}
    (hcount : IsBucketCount count) (key : K) : params.index (count - 1) key < count := by
  rw [params.index_eq_mod hcount]
  have hfour := hcount.four_le
  exact Nat.mod_lt _ (by omega)

/-- The bucket a node belongs in under a mask. -/
def HashParams.home (params : HashParams K T) (mask : Nat) (node : HashNode T) : Nat :=
  params.index mask (params.getKey node.mValue)

namespace Hash

/-! ## `getNextPower2` -/

theorem nextPower2Loop_spec {k fuel s result : Nat} (hk : k ≤ 63)
    (hprev : k = 2 ∨ 2 ^ (k - 1) < s) (hk2 : 2 ≤ k)
    (hloop : nextPower2Loop fuel (2 ^ k) s = some result) (hs : s ≤ 2 ^ 63) :
    ∃ n, 2 ≤ n ∧ result = 2 ^ n ∧ s ≤ result ∧ (n = 2 ∨ 2 ^ (n - 1) < s) := by
  induction fuel generalizing k with
  | zero => cases hloop
  | succ fuel ih =>
      rw [nextPower2Loop] at hloop
      split at hloop
      · rename_i hlt
        have hk62 : k < 63 := by
          by_contra hge
          have hk63 : k = 63 := by omega
          subst hk63
          omega
        have hshift : (2 ^ k <<< 1) % 2 ^ 64 = 2 ^ (k + 1) := by
          rw [Nat.shiftLeft_eq, ← Nat.pow_add]
          exact Nat.mod_eq_of_lt (Nat.pow_lt_pow_right (by decide) (by omega))
        rw [hshift] at hloop
        exact ih (by omega) (.inr hlt) (by omega) hloop
      · rename_i hge
        cases hloop
        exact ⟨k, hk2, rfl, Nat.not_lt.mp hge, hprev⟩

/-- A zero word never reaches a positive bound: the loop spins for ever. -/
theorem nextPower2Loop_zero {fuel s : Nat} (hs : 0 < s) : nextPower2Loop fuel 0 s = none := by
  induction fuel with
  | zero => rfl
  | succ fuel ih => simp [nextPower2Loop, hs, ih]

/-- With more than `2 ^ 63` entries the loop runs through all powers to zero. -/
theorem nextPower2Loop_diverges {k s : Nat} (fuel : Nat) (hk : k ≤ 63) (hs : 2 ^ 63 < s) :
    nextPower2Loop fuel (2 ^ k) s = none := by
  induction fuel generalizing k with
  | zero => rfl
  | succ fuel ih =>
      have hlt : 2 ^ k < s :=
        Nat.lt_of_le_of_lt (Nat.pow_le_pow_right (by decide) hk) hs
      rw [nextPower2Loop, if_pos hlt, Nat.shiftLeft_eq, ← Nat.pow_add]
      by_cases hk63 : k = 63
      · subst hk63
        rw [show 63 + 1 = 64 from rfl, Nat.mod_self]
        exact nextPower2Loop_zero (by omega)
      · rw [Nat.mod_eq_of_lt (Nat.pow_lt_pow_right (by decide) (by omega))]
        exact ih (by omega)

/-- The result is a bucket count, at most twice the bound where it is not four. -/
theorem getNextPower2_eq_some {s result : Nat} (hresult : getNextPower2 s = some result) :
    IsBucketCount result ∧ s ≤ result ∧ (result = 4 ∨ result < 2 * s) := by
  have hs : s ≤ 2 ^ 63 := by
    by_contra hgt
    have hnone := nextPower2Loop_diverges (k := 2) 65 (by decide) (Nat.not_le.mp hgt)
    rw [getNextPower2, show MIN_BUCKETS_SIZE = 2 ^ 2 from rfl, hnone] at hresult
    cases hresult
  obtain ⟨n, hn, rfl, hle, hleast⟩ := nextPower2Loop_spec (k := 2) (by decide) (.inl rfl)
    (Nat.le_refl 2) hresult hs
  refine ⟨⟨n, hn, rfl⟩, hle, ?_⟩
  rcases hleast with rfl | hlt
  · exact .inl rfl
  · right
    have hpow : 2 ^ n = 2 * 2 ^ (n - 1) := by
      rw [← Nat.pow_succ', Nat.succ_eq_add_one, Nat.sub_add_cancel (by omega)]
    omega

/-- `getNextPower2` answers the least bucket count that is not below its bound. -/
theorem getNextPower2_least {s count other : Nat} (hcount : getNextPower2 s = some count)
    (hother : IsBucketCount other) (hle : s ≤ other) : count ≤ other := by
  obtain ⟨⟨k, -, rfl⟩, -, hleast⟩ := getNextPower2_eq_some hcount
  rcases hleast with hfour | hlt
  · rw [hfour]
    exact hother.four_le
  · obtain ⟨n, -, rfl⟩ := hother
    apply Nat.pow_le_pow_right (by decide)
    by_contra hnk
    have hpow : 2 ^ (n + 1) ≤ 2 ^ k := Nat.pow_le_pow_right (by decide) (by omega)
    rw [Nat.pow_succ] at hpow
    omega

/-- Up to `2 ^ 63` the loop ends. -/
theorem getNextPower2_isSome {s : Nat} (hs : s ≤ 2 ^ 63) :
    ∃ result, getNextPower2 s = some result := by
  have hgeneral : ∀ fuel k, k ≤ 63 → 63 < fuel + k →
      ∃ result, nextPower2Loop fuel (2 ^ k) s = some result := by
    intro fuel
    induction fuel with
    | zero => intro k hk hfuel; omega
    | succ fuel ih =>
        intro k hk hfuel
        rw [nextPower2Loop]
        split
        · rename_i hlt
          have hk63 : k ≠ 63 := by
            rintro rfl
            omega
          rw [Nat.shiftLeft_eq, ← Nat.pow_add,
            Nat.mod_eq_of_lt (Nat.pow_lt_pow_right (by decide) (by omega))]
          exact ih (k + 1) (by omega) (by omega)
        · exact ⟨_, rfl⟩
  exact hgeneral 65 2 (by decide) (by decide)

/-! ## The move loops -/

/-- The nodes of `count` buckets from `index` on, in bucket and chain order. -/
def nodesFrom (table : HashTable T) (index count : Nat) : List (HashNode T) :=
  (List.range' index count).flatMap table.getBucketHead

/-- Tables after nodes have left the first and entered the second, each put in
front of the chain of its home bucket. -/
structure Received (params : HashParams K T) (mask : Nat) (nodes : List (HashNode T))
    (backup next : HashTable T) : Prop where
  buckets : next.mBucketsNumber = backup.mBucketsNumber
  size : next.mSize = backup.mSize + nodes.length
  contents : next.entries.Perm (nodes ++ backup.entries)
  chains : ∀ index, next.getBucketHead index =
    (nodes.filter fun node => params.home mask node = index).reverse ++
      backup.getBucketHead index

theorem Received.nil (params : HashParams K T) (mask : Nat) (backup : HashTable T) :
    Received params mask [] backup backup :=
  ⟨rfl, rfl, List.Perm.refl _, fun _ => rfl⟩

theorem Received.trans {params : HashParams K T} {mask : Nat} {first second : List (HashNode T)}
    {backup middle next : HashTable T} (hfirst : Received params mask first backup middle)
    (hsecond : Received params mask second middle next) :
    Received params mask (first ++ second) backup next := by
  refine ⟨hsecond.buckets.trans hfirst.buckets, ?_, ?_, fun index => ?_⟩
  · rw [hsecond.size, hfirst.size, List.length_append, Nat.add_assoc]
  · have hstep := hsecond.contents.trans (hfirst.contents.append_left second)
    rw [← List.append_assoc] at hstep
    exact hstep.trans (List.perm_append_comm.append_right _)
  · rw [hsecond.chains, hfirst.chains, List.filter_append, List.reverse_append,
      List.append_assoc]

theorem received_insertNode {params : HashParams K T} {mask : Nat} {backup : HashTable T}
    {node : HashNode T} (hhome : params.home mask node < backup.mBucketsNumber) :
    Received params mask [node] backup
      (backup.insertNode (params.home mask node) node).1 := by
  refine ⟨HashTable.insertNode_mBucketsNumber _ _ _, HashTable.insertNode_mSize node hhome,
    HashTable.entries_insertNode_perm node hhome, fun index => ?_⟩
  rw [HashTable.getBucketHead_insertNode hhome]
  by_cases hsame : index = params.home mask node
  · subst hsame
    simp
  · simp [hsame, Ne.symm hsame]

theorem received_foldl {params : HashParams K T} {mask : Nat} {backup : HashTable T}
    (chain : List (HashNode T))
    (hmask : ∀ node : HashNode T, params.home mask node < backup.mBucketsNumber) :
    Received params mask chain backup
      (chain.foldl (fun table node =>
        (table.insertNode (params.index mask (params.getKey node.mValue)) node).1) backup) := by
  induction chain generalizing backup with
  | nil => exact Received.nil params mask backup
  | cons node rest ih =>
      have hfirst := received_insertNode (hmask node)
      refine hfirst.trans (ih fun other => ?_)
      rw [HashTable.insertNode_mBucketsNumber]
      exact hmask other

/-- The old table after the chains of some buckets have been taken out of it. -/
structure Released (active next : HashTable T) (index count : Nat) : Prop where
  buckets : next.mBucketsNumber = active.mBucketsNumber
  size : next.mSize = active.mSize
  contents : active.entries.Perm (nodesFrom active index count ++ next.entries)
  chains : ∀ other, next.getBucketHead other =
    if index ≤ other ∧ other < index + count then [] else active.getBucketHead other

theorem nodesFrom_succ (active : HashTable T) (index count : Nat) :
    nodesFrom active index (count + 1) =
      active.getBucketHead index ++ nodesFrom active (index + 1) count := by
  rw [nodesFrom, List.range'_succ, List.flatMap_cons]
  rfl

/-- The later buckets are read from the table with the earlier one reset. -/
theorem nodesFrom_resetBucket {active : HashTable T} {index : Nat}
    (hindex : index < active.mBucketsNumber) (count : Nat) :
    nodesFrom (active.resetBucket index) (index + 1) count =
      nodesFrom active (index + 1) count := by
  refine List.flatMap_congr fun other hother => ?_
  have hlt := (List.mem_range'_1.mp hother).1
  rw [HashTable.getBucketHead_resetBucket hindex, if_neg (by omega)]

/-- One bucket reset and then the next ones taken out are all of them taken out. -/
theorem Released.cons {active next : HashTable T} {index count : Nat}
    (hindex : index < active.mBucketsNumber)
    (hreleased : Released (active.resetBucket index) next (index + 1) count) :
    Released active next index (count + 1) := by
  refine ⟨hreleased.buckets, hreleased.size, ?_, fun other => ?_⟩
  · have hreset := HashTable.entries_resetBucket_perm hindex
    have hrest := hreleased.contents
    rw [nodesFrom_resetBucket hindex] at hrest
    rw [nodesFrom_succ, List.append_assoc]
    exact hreset.trans (hrest.append_left _)
  · have hchain := hreleased.chains other
    refine hchain.trans ?_
    rw [HashTable.getBucketHead_resetBucket hindex]
    by_cases hother : other = index
    · subst hother
      rw [if_neg (by omega), if_pos rfl, if_pos (by omega)]
    · by_cases hin : index + 1 ≤ other ∧ other < index + 1 + count
      · rw [if_pos hin, if_pos (by omega)]
      · rw [if_neg hin, if_neg hother, if_neg (by omega)]

theorem moveBuckets_spec {params : HashParams K T} {mask : Nat} (count index : Nat)
    (active : HashTable T) {backup : HashTable T}
    (hmask : ∀ node : HashNode T, params.home mask node < backup.mBucketsNumber)
    (hcount : index + count ≤ active.mBucketsNumber) :
    let result := moveBuckets params mask count index (active, backup)
    Released active result.1 index count ∧
      Received params mask (nodesFrom active index count) backup result.2 := by
  induction count generalizing index active backup with
  | zero =>
      refine ⟨⟨rfl, rfl, List.Perm.refl _, fun other => ?_⟩, Received.nil params mask backup⟩
      rw [if_neg (by omega)]
      rfl
  | succ count ih =>
      have hindex : index < active.mBucketsNumber := by omega
      have hmoved := received_foldl (active.getBucketHead index) hmask
      have hbound : index + 1 + count ≤ (active.resetBucket index).mBucketsNumber := by
        rw [HashTable.resetBucket, HashTable.setChain_mBucketsNumber]
        omega
      have hmaskNext : ∀ node : HashNode T, params.home mask node <
          ((active.getBucketHead index).foldl (fun table node =>
            (table.insertNode (params.index mask (params.getKey node.mValue)) node).1)
            backup).mBucketsNumber := by
        intro node
        rw [hmoved.buckets]
        exact hmask node
      obtain ⟨hreleased, hreceived⟩ := ih (index + 1) _ hmaskNext hbound
      rw [nodesFrom_resetBucket hindex] at hreceived
      rw [nodesFrom_succ]
      exact ⟨hreleased.cons hindex, hmoved.trans hreceived⟩

/-! ## One call -/

/-- A rehash is in progress: the old table, the new one and the cursor. -/
structure Busy (h : Hash T) (backup : HashTable T) (index : Nat) : Prop where
  backup_eq : h.mBackup = some backup
  index_eq : h.mRehashIndex = index

theorem Busy.eq_of_index {h : Hash T} {backup : HashTable T} {index other : Nat}
    (hbusy : h.Busy backup index) (hother : h.mRehashIndex = other) : index = other :=
  Int.ofNat_inj.mp (hbusy.index_eq.symm.trans hother)

/-- Where the cursor stands after a call with the given step. -/
def nextIndex (h : Hash T) (backup : HashTable T) (index step : Nat) (isAuto : Bool) : Nat :=
  min (index + if isAuto then calculateReHashStep h.mActive backup else step)
    h.mActive.mBucketsNumber

/-- The state between the move loop and the swap. -/
def movedState (h : Hash T) (active backup : HashTable T) (index : Nat) : Hash T :=
  { h with
    mActive := active
    mBackup := some backup
    mRehashIndex := index
    moved := h.moved + (h.mActive.entries.length - active.entries.length) }

/-- The state after the swap. -/
def swappedState (h : Hash T) (backup : HashTable T) (moved : Nat) : Hash T :=
  { h with mActive := backup, mBackup := none, mRehashIndex := -1, moved := moved }

/-- A call in progress moves the chains between the cursor and its next position. -/
theorem rehashMove_of_busy {params : HashParams K T} {h : Hash T} {backup : HashTable T}
    {index : Nat} (step : Nat) (isAuto : Bool) (hbusy : h.Busy backup index)
    (hindex : index < h.mActive.mBucketsNumber)
    (hmask : ∀ node : HashNode T, params.home h.mBucketsMask node < backup.mBucketsNumber) :
    ∃ active next,
      Released h.mActive active index (h.nextIndex backup index step isAuto - index) ∧
      Received params h.mBucketsMask
        (nodesFrom h.mActive index (h.nextIndex backup index step isAuto - index))
        backup next ∧
      rehashMove params h step isAuto =
        some (h.movedState active next (h.nextIndex backup index step isAuto)) := by
  have hne : ¬ h.mRehashIndex = -1 := by
    rw [hbusy.index_eq]
    omega
  have hspec := moveBuckets_spec (h.nextIndex backup index step isAuto - index) index
    h.mActive hmask (by simp only [nextIndex]; omega)
  refine ⟨_, _, hspec.1, hspec.2, ?_⟩
  rw [rehashMove, if_neg hne, Option.bind_eq_bind, Option.bind_some]
  dsimp only
  rw [hbusy.backup_eq, Option.bind_eq_bind, Option.bind_some, hbusy.index_eq,
    Int.toNat_natCast, if_pos hindex]
  rfl

/-- The two outcomes of a call in progress: the cursor advances, or the rehash ends. -/
theorem rehash_of_busy {params : HashParams K T} {h : Hash T} {backup : HashTable T}
    {index : Nat} (step : Nat) (isAuto : Bool) (hbusy : h.Busy backup index)
    (hindex : index < h.mActive.mBucketsNumber)
    (hmask : ∀ node : HashNode T, params.home h.mBucketsMask node < backup.mBucketsNumber) :
    ∃ active next,
      Released h.mActive active index (h.nextIndex backup index step isAuto - index) ∧
      Received params h.mBucketsMask
        (nodesFrom h.mActive index (h.nextIndex backup index step isAuto - index))
        backup next ∧
      rehash params h step isAuto = some
        (if h.nextIndex backup index step isAuto = h.mActive.mBucketsNumber then
          h.swappedState next
            (h.moved + (h.mActive.entries.length - active.entries.length))
        else h.movedState active next (h.nextIndex backup index step isAuto)) := by
  obtain ⟨active, next, hreleased, hreceived, hmove⟩ :=
    rehashMove_of_busy step isAuto hbusy hindex hmask
  refine ⟨active, next, hreleased, hreceived, ?_⟩
  rw [rehash, hmove, Option.map_some]
  simp only [rehashFinish, movedState, hreleased.buckets, Nat.cast_inj]
  split <;> rfl

/-- The state in which the block at the head of `rehash` leaves an idle table. -/
def startedState (h : Hash T) (backup : HashTable T) : Hash T :=
  { h with
    mBucketsNumber := backup.mBucketsNumber
    mBackup := some backup
    mRehashIndex := 0
    mBucketsMask := backup.mBucketsNumber - 1
    moved := 0 }

theorem startReHashing_eq_some {h next : Hash T} (hstart : h.startReHashing = some next) :
    ∃ backup : HashTable T, getNextPower2 h.mActive.mSize = some backup.mBucketsNumber ∧
      HashTable.new? backup.mBucketsNumber = some backup ∧ next = h.startedState backup := by
  simp only [startReHashing, Option.bind_eq_bind, Option.bind_eq_some_iff] at hstart
  obtain ⟨count, hcount, backup, hnew, hnext⟩ := hstart
  obtain ⟨hbuckets, -⟩ := HashTable.new?_eq_some hnew
  cases hnext
  refine ⟨backup, by rw [hbuckets]; exact hcount, by rw [hbuckets]; exact hnew, ?_⟩
  simp [startedState, hbuckets]

/-- From an idle state a call first starts the rehash. -/
theorem rehash_of_idle {params : HashParams K T} {h : Hash T} {step : Nat} {isAuto : Bool}
    (hidle : h.mRehashIndex = -1) :
    rehash params h step isAuto =
      h.startReHashing.bind fun started => rehash params started step isAuto := by
  rw [rehash, rehashMove, if_pos hidle]
  cases hstart : h.startReHashing with
  | none => rfl
  | some started =>
      obtain ⟨backup, -, -, rfl⟩ := startReHashing_eq_some hstart
      have hne : ¬ (h.startedState backup).mRehashIndex = -1 := by
        change ¬ (0 : Int) = -1
        decide
      rw [Option.bind_some, rehash, rehashMove, if_neg hne]

end Hash

end RedisDB
