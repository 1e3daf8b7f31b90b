import RedisDB.Hash.Placement
import Mathlib.Data.List.Nodup

/-!
# What lookups find

With all nodes at home and no key stored twice a lookup finds the one node of
its key, wherever the rehash cursor stands.  So a call on the two tables agrees
with the plain operation on the single table a completed rehash would leave.
-/

namespace RedisDB

open RedisDB.Library

variable {K T : Type}

namespace Hash

/-- The keys of the entries, one for each entry. -/
def keys (params : HashParams K T) (h : Hash T) : List K :=
  h.entries.map fun node => params.getKey node.mValue

/-- The node lies in one of the buckets that a lookup of the key reads. -/
def Sought (params : HashParams K T) (h : Hash T) (index : Nat) (key : K)
    (node : HashNode T) : Prop :=
  match h.mBackup with
  | some backup =>
      node ∈ backup.getBucketHead index ∨
        node ∈ h.mActive.getBucketHead (params.index (h.mActive.mBucketsNumber - 1) key)
  | none => node ∈ h.mActive.getBucketHead index

/-- Every node of the key is where a lookup reads. -/
def Finds (params : HashParams K T) (h : Hash T) (index : Nat) (key : K) : Prop :=
  ∀ node ∈ h.entries, params.getKey node.mValue = key → Sought params h index key node

theorem sought_of_backup {params : HashParams K T} {h : Hash T} {backup : HashTable T}
    {index : Nat} {key : K} {node : HashNode T} (hbackup : h.mBackup = some backup) :
    Sought params h index key node ↔ node ∈ backup.getBucketHead index ∨
      node ∈ h.mActive.getBucketHead (params.index (h.mActive.mBucketsNumber - 1) key) := by
  rw [Sought, hbackup]

theorem sought_of_none {params : HashParams K T} {h : Hash T} {index : Nat} {key : K}
    {node : HashNode T} (hbackup : h.mBackup = none) :
    Sought params h index key node ↔ node ∈ h.mActive.getBucketHead index := by
  rw [Sought, hbackup]

section Lookup

variable [DecidableEq K]

theorem lookup_eq_none_iff {params : HashParams K T} {h : Hash T} {index : Nat} {key : K} :
    h.lookup params index key = none ↔
      ∀ node, Sought params h index key node → params.getKey node.mValue ≠ key := by
  cases hbackup : h.mBackup with
  | none =>
      rw [lookup_of_none hbackup, HashTable.walk_eq_none]
      simp only [sought_of_none hbackup]
  | some backup =>
      rw [lookup_of_backup hbackup, Option.or_eq_none_iff, HashTable.walk_eq_none,
        HashTable.walk_eq_none]
      simp only [sought_of_backup hbackup]
      constructor
      · rintro ⟨hnew, hold⟩ node (hnode | hnode)
        · exact hnew node hnode
        · exact hold node hnode
      · intro hall
        exact ⟨fun node hnode => hall node (.inl hnode), fun node hnode => hall node (.inr hnode)⟩

/-- Where no key is stored twice the lookup finds exactly the node of the key. -/
theorem lookup_iff {params : HashParams K T} {h : Hash T} {index : Nat} {key : K}
    (hunique : (h.keys params).Nodup) (hfinds : Finds params h index key)
    {node : HashNode T} :
    h.lookup params index key = some node ↔
      node ∈ h.entries ∧ params.getKey node.mValue = key := by
  constructor
  · intro hlookup
    exact (lookup_eq_some hlookup).symm
  · rintro ⟨hmem, hkey⟩
    cases hlookup : h.lookup params index key with
    | none =>
        exact absurd hkey (lookup_eq_none_iff.mp hlookup node (hfinds node hmem hkey))
    | some other =>
        obtain ⟨hotherKey, hother⟩ := lookup_eq_some hlookup
        rw [List.inj_on_of_nodup_map hunique hother hmem (hotherKey.trans hkey.symm)]

/-- Two states with the same entries answer lookups alike. -/
theorem lookup_congr {params : HashParams K T} {h other : Hash T} {index index' : Nat}
    {key : K} (hunique : (h.keys params).Nodup) (hperm : other.entries.Perm h.entries)
    (hfinds : Finds params h index key) (hfindsOther : Finds params other index' key) :
    other.lookup params index' key = h.lookup params index key := by
  have huniqueOther : (other.keys params).Nodup := (hperm.map _).nodup_iff.mpr hunique
  ext node
  rw [lookup_iff huniqueOther hfindsOther,
    lookup_iff hunique hfinds, hperm.mem_iff]

end Lookup

/-- With all nodes at home, the index under the current mask finds every node. -/
theorem finds_of_home {params : HashParams K T} {h : Hash T} (hinv : RehashInvariant h)
    (hhome : AllHome params h) (key : K) :
    Finds params h (params.index h.mBucketsMask key) key := by
  intro node hnode hkey
  cases hbackup : h.mBackup with
  | none =>
      rw [sought_of_none hbackup, hinv.mask,
        ← hinv.idle_number (hinv.idle_of_none hbackup)]
      rw [entries_of_none hbackup] at hnode
      obtain ⟨index, hindex⟩ := HashTable.mem_entries.mp hnode
      have hat : params.home _ node = index := hhome.1 index node hindex
      rw [HashParams.home, hkey] at hat
      rwa [hat]
  | some backup =>
      rw [sought_of_backup hbackup, hinv.mask, ← (hinv.busy backup hbackup).number]
      rw [entries_of_some hbackup, List.mem_append] at hnode
      rcases hnode with hnode | hnode
      · obtain ⟨index, hindex⟩ := HashTable.mem_entries.mp hnode
        have hat : params.home _ node = index := hhome.1 index node hindex
        rw [HashParams.home, hkey] at hat
        exact .inr (by rwa [hat])
      · obtain ⟨index, hindex⟩ := HashTable.mem_entries.mp hnode
        have hat : params.home _ node = index := hhome.2 backup hbackup index node hindex
        rw [HashParams.home, hkey] at hat
        exact .inl (by rwa [hat])

theorem nodup_keys_of_perm {params : HashParams K T} {h next : Hash T}
    (hunique : (h.keys params).Nodup) (hperm : next.entries.Perm h.entries) :
    (next.keys params).Nodup :=
  (hperm.map _).nodup_iff.mpr hunique

theorem keys_perm_cons (params : HashParams K T) {h next : Hash T} {node : HashNode T}
    (hperm : h.entries.Perm (node :: next.entries)) :
    (h.keys params).Perm (params.getKey node.mValue :: next.keys params) :=
  hperm.map _

/-! ## Calls that return -/

/-- A rehash in progress returns. -/
theorem rehash_isSome_of_busy {h : Hash T} (params : HashParams K T) (step : Nat)
    (isAuto : Bool) (hinv : RehashInvariant h) {backup : HashTable T}
    (hbackup : h.mBackup = some backup) :
    ∃ next, h.rehash params step isAuto = some next := by
  obtain ⟨index, hbusy, hindex⟩ := hinv.cursor hbackup
  obtain ⟨active, received, -, -, hresult⟩ :=
    rehash_of_busy step isAuto hbusy hindex (hinv.home_lt params hbackup)
  exact ⟨_, hresult⟩

/-- A due rehash can start while no more than `2 ^ 30` nodes are counted: beyond, the
constructor's `int` overflows. -/
theorem startReHashing_isSome {h : Hash T} (hsize : h.mActive.mSize ≤ 2 ^ 30) :
    ∃ started, h.startReHashing = some started := by
  obtain ⟨count, hcount⟩ := getNextPower2_isSome (hsize.trans (by decide))
  obtain ⟨-, -, hleast⟩ := getNextPower2_eq_some hcount
  have hle : count ≤ INT_MAX := by
    rw [INT_MAX]
    omega
  obtain ⟨table, hnew⟩ := HashTable.new?_isSome (T := T) hle
  simp only [startReHashing, hcount, hnew, Option.bind_eq_bind, Option.bind_some]
  exact ⟨_, rfl⟩

theorem rehash_isSome {h : Hash T} (params : HashParams K T) (step : Nat) (isAuto : Bool)
    (hinv : RehashInvariant h) (hdue : h.mBackup = none → h.Due params)
    (hsize : h.mBackup = none → h.mActive.mSize ≤ 2 ^ 30) :
    ∃ next, h.rehash params step isAuto = some next := by
  cases hbackup : h.mBackup with
  | some backup => exact rehash_isSome_of_busy params step isAuto hinv hbackup
  | none =>
      obtain ⟨started, hstart⟩ := startReHashing_isSome (hsize hbackup)
      rw [rehash_of_idle (hinv.idle_of_none hbackup), hstart, Option.bind_some]
      obtain ⟨table, rfl, hstarted⟩ := started_spec hinv hbackup (hdue hbackup) hstart
      exact rehash_isSome_of_busy params step isAuto hstarted.invariant rfl

/-- The opening rehash step returns unless it starts too large an expansion. -/
theorem advance_isSome {h : Hash T} (params : HashParams K T) (hinv : RehashInvariant h)
    (hsize : h.isReHashing = false → h.isNeedReHash params = true →
      h.mActive.mSize ≤ 2 ^ 30) :
    ∃ next, h.advance params = some next := by
  rw [advance]
  cases hbackup : h.mBackup with
  | some backup =>
      rw [hinv.isReHashing_of_some hbackup, Bool.true_or, if_pos rfl]
      exact rehash_isSome_of_busy params 2 true hinv hbackup
  | none =>
      have hidle := hinv.isReHashing_of_none hbackup
      rw [hidle]
      cases hneed : h.isNeedReHash params with
      | false => exact ⟨h, rfl⟩
      | true =>
          exact rehash_isSome params 2 true hinv (fun _ => .inl hneed) fun _ =>
            hsize hidle hneed

/-- Once shrinking is due the table is small enough for the constructor. -/
theorem rehash_isSome_of_shrink {h : Hash T} (params : HashParams K T)
    (hinv : RehashInvariant h) (hneed : h.isNeedShrink params = true) :
    ∃ next, h.rehash params 2 true = some next := by
  refine rehash_isSome params 2 true hinv (fun _ => .inr hneed) fun _ => ?_
  have hlt := params.factors.lt_of_below (isNeedShrink_iff.mp hneed).2
  have hle := h.mActive.mBucketsNumber_le
  rw [INT_MAX] at hle
  omega

/-! ## Keyed calls after their rehash step -/

section Keyed

variable [DecidableEq K] {params : HashParams K T} {h middle : Hash T}

theorem find_of_advance (hinv : RehashInvariant h) (hadvance : h.advance params = some middle)
    (key : K) :
    h.find params key =
      some (middle, middle.lookup params (params.index h.mBucketsMask key) key) := by
  have hmiddle := (rehashed_of_advance hinv hadvance).invariant
  refine find_spec hadvance hmiddle.isReHashing_eq ?_ hmiddle.active_count
  rw [hmiddle.target_number]
  exact Nat.lt_of_lt_of_le (hinv.index_lt params key) (number_le_of_advance hinv hadvance)

theorem isExist_of_advance (hinv : RehashInvariant h)
    (hadvance : h.advance params = some middle) (key : K) :
    h.isExist params key =
      some (middle,
        (middle.lookup params (params.index h.mBucketsMask key) key).isSome) :=
  isExist_spec hadvance (rehashed_of_advance hinv hadvance).invariant.isReHashing_eq

theorem insertEntry_of_advance (hinv : RehashInvariant h)
    (hadvance : h.advance params = some middle) (value : T) :
    ∃ next, h.insertEntry params value = some next ∧
      next.entries.Perm (⟨h.newAddr, value⟩ :: h.entries) := by
  have hmiddle := (rehashed_of_advance hinv hadvance).invariant
  have hresult : ∃ next, h.insertEntry params value = some next := by
    rw [insertEntry, hadvance, Option.bind_eq_bind, Option.bind_some]
    cases hbackup : middle.mBackup with
    | none =>
        have hidle := hmiddle.idle_of_none hbackup
        simp [isReHashing, hidle]
    | some backup =>
        have hbusy : ¬ middle.mRehashIndex = -1 := fun h0 => by
          rw [hmiddle.backup_none.mpr h0] at hbackup
          cases hbackup
        simp [isReHashing, hbusy]
  obtain ⟨next, hinsert⟩ := hresult
  have hstep : hashStep params h (.insert value) = some (next, .done) := by
    simp [hashStep, hinsert]
  exact ⟨next, hinsert, (step_spec hinv hstep).2⟩

/-- An `erase` removes the node looked up after its first rehash step. -/
theorem erase_of_advance (hinv : RehashInvariant h) (hadvance : h.advance params = some middle)
    (key : K) :
    (middle.lookup params (params.index h.mBucketsMask key) key = none ∧
        h.erase params key = some (middle, false)) ∨
      ∃ node next,
        middle.lookup params (params.index h.mBucketsMask key) key = some node ∧
          h.erase params key = some (next, true) ∧ h.entries.Perm (node :: next.entries) := by
  have hmiddle := rehashed_of_advance hinv hadvance
  rcases eraseKey_spec params (params.index h.mBucketsMask key) key
    hmiddle.invariant.isReHashing_eq with ⟨hnone, heq⟩ | ⟨node, cut, hsome, hcut, heq⟩
  · exact .inl ⟨hnone, erase_of_eraseKey hadvance heq⟩
  · right
    rw [erase_of_eraseKey hadvance heq, Bool.true_and]
    obtain ⟨hcutInv, hperm, -⟩ := cut_spec hmiddle.invariant hcut
    have hfirst := hmiddle.contents.symm.trans hperm
    cases hneed : cut.isNeedShrink params with
    | false => exact ⟨node, cut, hsome, by simp, hfirst⟩
    | true =>
        obtain ⟨next, hrehash⟩ := rehash_isSome_of_shrink params hcutInv hneed
        have hlast := rehashed hcutInv (fun _ => .inr hneed) hrehash
        exact ⟨node, next, hsome, by simp [hrehash],
          hfirst.trans (hlast.contents.symm.cons node)⟩

end Keyed

/-! ## Agreement with the completed table -/

/-- A forced completion returns a single table with all the entries. -/
theorem complete_of_busy (params : HashParams K T) {h : Hash T} {backup : HashTable T}
    (hinv : RehashInvariant h) (hbackup : h.mBackup = some backup) :
    ∃ full, h.rehash params h.mActive.mBucketsNumber false = some full ∧
      full.mBackup = none ∧ Rehashed h full := by
  obtain ⟨index, hbusy, hindex⟩ := hinv.cursor hbackup
  obtain ⟨full, hfull⟩ :=
    rehash_isSome_of_busy params h.mActive.mBucketsNumber false hinv hbackup
  refine ⟨full, hfull, ?_, rehashed_of_busy hinv hbackup hfull⟩
  rcases rehash_counters hinv hbusy hindex hfull with ⟨-, hnone, -⟩ | ⟨hmore, -⟩
  · exact hnone
  · rw [nextIndex, if_neg (by simp), Nat.min_eq_right (Nat.le_add_left _ _)] at hmore
    exact absurd hmore (Nat.lt_irrefl _)

theorem complete_of_none (params : HashParams K T) {h : Hash T} (hinv : RehashInvariant h)
    (hbackup : h.mBackup = none) : h.complete params = some h := by
  rw [complete, hinv.isReHashing_of_none hbackup]
  rfl

/-- An iterator method leaves a single table with the same entries. -/
theorem complete_spec (params : HashParams K T) {h : Hash T} (hinv : RehashInvariant h) :
    ∃ full, h.complete params = some full ∧ full.mBackup = none ∧ Rehashed h full := by
  cases hbackup : h.mBackup with
  | none => exact ⟨h, complete_of_none params hinv hbackup, hbackup, .refl hinv⟩
  | some backup =>
      rw [complete, hinv.isReHashing_of_some hbackup, if_pos rfl]
      exact complete_of_busy params hinv hbackup

/-- While a rehash is in progress the opening step of a call neither starts another nor
moves the mask. -/
theorem advance_of_busy (params : HashParams K T) {h : Hash T} {backup : HashTable T}
    (hinv : RehashInvariant h) (hbackup : h.mBackup = some backup) :
    ∃ middle, h.advance params = some middle ∧ middle.mBucketsMask = h.mBucketsMask := by
  have hbusy := hinv.isReHashing_of_some hbackup
  obtain ⟨middle, hadvance⟩ := advance_isSome params hinv fun hidle => by
    rw [hbusy] at hidle
    cases hidle
  refine ⟨middle, hadvance, ?_⟩
  have hmiddle := (rehashed_of_advance hinv hadvance).invariant
  rcases advance_ways hinv hadvance with ⟨hsome, hrehash⟩ | ⟨hnone, -⟩ | ⟨hnone, -⟩
  · rw [hmiddle.mask, hinv.mask, number_of_rehash_busy hinv hsome hrehash]
  · rw [hnone] at hbackup
    cases hbackup
  · rw [hnone] at hbackup
    cases hbackup

section Agreement

variable [DecidableEq K]

/-- The bucket that the table has for the key holds this node of it. -/
def HoldsNode (params : HashParams K T) (table : HashTable T) (key : K) (node : HashNode T) :
    Prop :=
  node ∈ table.getBucketHead (params.index (table.mBucketsNumber - 1) key) ∧
    params.getKey node.mValue = key

/-- The incremental operations against the plain ones on one table: the same results, which
say whether the bucket of the key holds it, and afterwards the same entries, all of them at
home. -/
structure Agrees (params : HashParams K T) (h : Hash T) (table : HashTable T) : Prop where
  find : ∀ key, ∃ next found,
    table.get params.getKey (params.index (table.mBucketsNumber - 1) key) key = some found ∧
      h.find params key = some (next, found) ∧
      (∀ node, found = some node ↔ HoldsNode params table key node) ∧
      next.entries.Perm table.entries ∧ AllHome params next
  isExist : ∀ key, ∃ next answer,
    table.isExist params.getKey (params.index (table.mBucketsNumber - 1) key) key = answer ∧
      h.isExist params key = some (next, answer) ∧
      (answer = true ↔ ∃ node, HoldsNode params table key node) ∧
      next.entries.Perm table.entries ∧ AllHome params next
  erase : ∀ key, ∃ next plain status,
    table.eraseNode params.getKey (params.index (table.mBucketsNumber - 1) key) key =
        (plain, status) ∧
      h.erase params key = some (next, status) ∧
      (status = true ↔ ∃ node, HoldsNode params table key node) ∧
      next.entries.Perm plain.entries ∧
      (status = true → ∃ node, HoldsNode params table key node ∧
        table.entries.Perm (node :: next.entries)) ∧
      (status = false → next.entries.Perm table.entries) ∧ AllHome params next
  insert : ∀ value, ∃ next,
    h.insertEntry params value = some next ∧
      next.entries.Perm (table.insertNode
        (params.index (table.mBucketsNumber - 1) (params.getKey value))
        ⟨h.newAddr, value⟩).1.entries ∧
      next.entries.Perm (⟨h.newAddr, value⟩ :: table.entries) ∧ AllHome params next

/-- The walk along the bucket of a key finds a node exactly when the bucket holds one. -/
theorem walk_isSome_iff {params : HashParams K T} {table : HashTable T} {key : K} :
    (HashTable.walk params.getKey key
        (table.getBucketHead (params.index (table.mBucketsNumber - 1) key))).isSome = true ↔
      ∃ node, HoldsNode params table key node := by
  constructor
  · intro hsome
    obtain ⟨node, hwalk⟩ := Option.isSome_iff_exists.mp hsome
    exact ⟨node, (HashTable.walk_eq_some hwalk).symm⟩
  · rintro ⟨node, hmem, hkey⟩
    by_contra hnone
    exact HashTable.walk_eq_none.mp (Option.not_isSome_iff_eq_none.mp hnone) node hmem hkey

/-- Where no key is stored twice it finds the only one. -/
theorem walk_iff {params : HashParams K T} {table : HashTable T} {key : K}
    (hunique : (table.entries.map fun node => params.getKey node.mValue).Nodup)
    {node : HashNode T} :
    HashTable.walk params.getKey key
        (table.getBucketHead (params.index (table.mBucketsNumber - 1) key)) = some node ↔
      HoldsNode params table key node := by
  constructor
  · exact fun hwalk => (HashTable.walk_eq_some hwalk).symm
  · intro hholds
    obtain ⟨other, hwalk⟩ := Option.isSome_iff_exists.mp (walk_isSome_iff.mpr ⟨node, hholds⟩)
    obtain ⟨hkey, hmem⟩ := HashTable.walk_eq_some hwalk
    rw [hwalk, List.inj_on_of_nodup_map hunique (HashTable.mem_entries.mpr ⟨_, hmem⟩)
      (HashTable.mem_entries.mpr ⟨_, hholds.1⟩) (hkey.trans hholds.2.symm)]

/-- Both lookups search under the mask of the table the rehash fills. -/
theorem lookup_eq_walk_completed {params : HashParams K T}
    {h middle full : Hash T} (hunique : (h.keys params).Nodup) (hmoved : Rehashed h middle)
    (hmask : middle.mBucketsMask = h.mBucketsMask) (hmiddleHome : AllHome params middle)
    (hcompleted : Rehashed h full) (hnone : full.mBackup = none)
    (hfullHome : AllHome params full) (key : K) :
    middle.lookup params (params.index h.mBucketsMask key) key =
      HashTable.walk params.getKey key (full.mActive.getBucketHead
        (params.index (full.mActive.mBucketsNumber - 1) key)) := by
  have hindex : params.index h.mBucketsMask key = params.index middle.mBucketsMask key := by
    rw [hmask]
  have hfullIndex : params.index (full.mActive.mBucketsNumber - 1) key =
      params.index full.mBucketsMask key := by
    rw [hcompleted.invariant.mask,
      hcompleted.invariant.idle_number (hcompleted.invariant.idle_of_none hnone)]
  rw [← lookup_of_none hnone, hindex, hfullIndex]
  exact lookup_congr (nodup_keys_of_perm hunique hcompleted.contents)
    (hmoved.contents.trans hcompleted.contents.symm)
    (finds_of_home hcompleted.invariant hfullHome key)
    (finds_of_home hmoved.invariant hmiddleHome key)

/-- An `erase` takes the node that the plain removal takes from a table with the same
entries. -/
theorem erase_eq_plain {params : HashParams K T} {h middle : Hash T} {table : HashTable T}
    {key : K} (hinv : RehashInvariant h)
    (hadvance : h.advance params = some middle) (hentries : table.entries.Perm h.entries)
    (hmiddleEntries : middle.entries.Perm table.entries)
    (hsame : middle.lookup params (params.index h.mBucketsMask key) key =
      HashTable.walk params.getKey key
        (table.getBucketHead (params.index (table.mBucketsNumber - 1) key))) :
    ∃ next plain status,
      table.eraseNode params.getKey (params.index (table.mBucketsNumber - 1) key) key =
        (plain, status) ∧
      h.erase params key = some (next, status) ∧
      (status = true ↔ ∃ node, HoldsNode params table key node) ∧
      next.entries.Perm plain.entries ∧
      (status = true → ∃ node, HoldsNode params table key node ∧
        table.entries.Perm (node :: next.entries)) ∧
      (status = false → next.entries.Perm table.entries) := by
  rcases erase_of_advance hinv hadvance key with
    ⟨hmiss, herase⟩ | ⟨node, next, hfound, herase, hperm⟩
  · rw [hsame] at hmiss
    have hholds : false = true ↔ ∃ node, HoldsNode params table key node := by
      rw [← walk_isSome_iff, hmiss]
      rfl
    exact ⟨middle, table, false, HashTable.eraseNode_of_walk_none hmiss, herase, hholds,
      hmiddleEntries, fun h0 => (by cases h0), fun _ => hmiddleEntries⟩
  · rw [hsame] at hfound
    obtain ⟨plain, hplain, hunlinked⟩ := HashTable.eraseNode_spec hfound
    have hboth : (node :: next.entries).Perm (node :: plain.entries) :=
      hperm.symm.trans (hentries.symm.trans hunlinked.contents)
    have hholds : HoldsNode params table key node := (HashTable.walk_eq_some hfound).symm
    exact ⟨next, plain, true, hplain, herase, iff_of_true rfl ⟨node, hholds⟩, hboth.cons_inv,
      fun _ => ⟨node, hholds, hentries.trans hperm⟩, fun h0 => (by cases h0)⟩

/-- During a rehash with all nodes at home and no key twice, every operation agrees with
the plain one on the table a forced completion leaves. -/
theorem incremental_agrees (params : HashParams K T) {h : Hash T} {backup : HashTable T}
    (hreach : (hashMachine params).Reachable h) (hbackup : h.mBackup = some backup)
    (hhome : AllHome params h) (hunique : (h.keys params).Nodup) :
    ∃ full, h.rehash params h.mActive.mBucketsNumber false = some full ∧
      full.mBackup = none ∧ Agrees params h full.mActive := by
  have hinv := reachable_rehashInvariant params hreach
  have hpaced := reachable_paced params hreach
  obtain ⟨full, hfull, hnone, hcompleted⟩ := complete_of_busy params hinv hbackup
  obtain ⟨middle, hadvance, hmask⟩ := advance_of_busy params hinv hbackup
  have hmoved := rehashed_of_advance hinv hadvance
  have hfullHome : AllHome params full :=
    placed_rehash_busy (admitsHome_home params) hinv hbackup hhome hfull
  have hmiddleHome : AllHome params middle :=
    placed_advance (admitsHome_home params) hinv hhome hadvance
  have hentries := hcompleted.contents
  rw [entries_of_none hnone] at hentries
  have hmiddleEntries := hmoved.contents.trans hentries.symm
  have hsame := lookup_eq_walk_completed hunique hmoved hmask hmiddleHome hcompleted hnone
    hfullHome
  have huniqueFull : (full.mActive.entries.map fun node => params.getKey node.mValue).Nodup :=
    (hentries.map _).nodup_iff.mpr hunique
  refine ⟨full, hfull, hnone, fun key => ?_, fun key => ?_, fun key => ?_,
    fun value => ?_⟩
  · refine ⟨middle, _, HashTable.get_of_lt params.getKey key
      (params.index_lt hcompleted.invariant.active_count key), ?_,
      fun node => walk_iff huniqueFull, hmiddleEntries, hmiddleHome⟩
    rw [find_of_advance hinv hadvance, hsame]
  · refine ⟨middle, _, HashTable.isExist_eq_walk _ _ key, ?_, walk_isSome_iff, hmiddleEntries,
      hmiddleHome⟩
    rw [isExist_of_advance hinv hadvance, hsame]
  · obtain ⟨next, plain, status, hplain, herase, hstatus, hperm, htrue, hfalse⟩ :=
      erase_eq_plain hinv hadvance hentries hmiddleEntries (hsame key)
    have hstep : hashStep params h (.erase key) = some (next, .status status) := by
      simp [hashStep, herase]
    exact ⟨next, plain, status, hplain, herase, hstatus, hperm, htrue, hfalse,
      (home_step hinv hpaced hhome hstep).mpr trivial⟩
  · obtain ⟨next, hinsert, hperm⟩ := insertEntry_of_advance hinv hadvance value
    have hstep : hashStep params h (.insert value) = some (next, .done) := by
      simp [hashStep, hinsert]
    have hbusy := hinv.isReHashing_of_some hbackup
    have hadded := hperm.trans (hentries.symm.cons _)
    refine ⟨next, hinsert, hadded.trans ?_, hadded,
      (home_step hinv hpaced hhome hstep).mpr fun hidle => ?_⟩
    · exact (HashTable.entries_insertNode_perm _
        (params.index_lt hcompleted.invariant.active_count _)).symm
    · rw [hbusy] at hidle
      cases hidle

theorem incremental_agrees_expanding :
    ∃ full, expanding.rehash HashParams.identity expanding.mActive.mBucketsNumber false =
        some full ∧
      full.mBackup = none ∧ Agrees HashParams.identity expanding full.mActive := by
  obtain ⟨backup, hbackup⟩ := Option.isSome_iff_exists.mp
    (by decide : expanding.mBackup.isSome = true)
  exact incremental_agrees HashParams.identity reachable_expanding hbackup (by decide)
    (by decide)

end Agreement

end Hash

end RedisDB
