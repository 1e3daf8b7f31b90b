import RedisDB.Hash.Pacing
import Mathlib.Data.Nat.Bitwise

/-!
# Where nodes are filed

A placement relates each node to its bucket and to the bucket count.  A rehash
files nodes under the mask of the new table, so it keeps every placement that
home buckets satisfy.  The insertion files under the mask read before the
rehash step of the same call, which is where home placement can be lost.
-/

namespace RedisDB

open RedisDB.Library

variable {K T : Type}

namespace HashTable

variable {P : Nat → Nat → HashNode T → Prop}

/-- Every node of the table satisfies a placement. -/
def Placed (P : Nat → Nat → HashNode T → Prop) (table : HashTable T) : Prop :=
  ∀ index node, node ∈ table.getBucketHead index → P table.mBucketsNumber index node

theorem placed_iff_forall_lt {table : HashTable T} :
    table.Placed P ↔ ∀ index < table.mBucketsNumber,
      ∀ node ∈ table.getBucketHead index, P table.mBucketsNumber index node :=
  ⟨fun hplaced index _ node hnode => hplaced index node hnode,
    fun hall index node hnode => hall index (lt_of_mem_getBucketHead hnode) node hnode⟩

instance [∀ count index node, Decidable (P count index node)] (table : HashTable T) :
    Decidable (table.Placed P) :=
  decidable_of_iff _ placed_iff_forall_lt.symm

theorem placed_of_empty {table : HashTable T}
    (hempty : ∀ index, table.getBucketHead index = []) : table.Placed P := by
  intro index node hnode
  rw [hempty index] at hnode
  cases hnode

theorem Placed.of_sublist {table next : HashTable T} (hplaced : table.Placed P)
    (hbuckets : next.mBucketsNumber = table.mBucketsNumber)
    (hchains : ∀ index, (next.getBucketHead index).Sublist (table.getBucketHead index)) :
    next.Placed P := by
  intro index node hnode
  rw [hbuckets]
  exact hplaced index node ((hchains index).mem hnode)

/-- An insertion keeps a placement exactly when the new node satisfies it. -/
theorem placed_insertNode {table : HashTable T} {index : Nat} {node : HashNode T}
    (hindex : index < table.mBucketsNumber) (hplaced : table.Placed P) :
    (table.insertNode index node).1.Placed P ↔ P table.mBucketsNumber index node := by
  constructor
  · intro hnext
    have hnode := hnext index node (by simp [getBucketHead_insertNode hindex])
    rwa [insertNode_mBucketsNumber] at hnode
  · intro hnode other stored hstored
    rw [insertNode_mBucketsNumber]
    rw [getBucketHead_insertNode hindex] at hstored
    split at hstored
    · rename_i hsame
      rw [hsame]
      rcases List.mem_cons.mp hstored with rfl | hold
      · exact hnode
      · exact hplaced index stored hold
    · exact hplaced other stored hstored

end HashTable

namespace Hash

variable {P : Nat → Nat → HashNode T → Prop}

/-- Both tables satisfy a placement. -/
def Placed (P : Nat → Nat → HashNode T → Prop) (h : Hash T) : Prop :=
  h.mActive.Placed P ∧ ∀ backup, h.mBackup = some backup → backup.Placed P

instance [∀ count index node, Decidable (P count index node)] (h : Hash T) :
    Decidable (h.Placed P) :=
  match hbackup : h.mBackup with
  | none => decidable_of_iff (h.mActive.Placed P) (by simp [Placed, hbackup])
  | some backup =>
      decidable_of_iff (h.mActive.Placed P ∧ backup.Placed P) (by simp [Placed, hbackup])

/-- Home buckets satisfy the placement. -/
def AdmitsHome (params : HashParams K T) (P : Nat → Nat → HashNode T → Prop) : Prop :=
  ∀ count node, IsBucketCount count → P count (params.home (count - 1) node) node

theorem placed_new : (new : Hash T).Placed P := by
  refine ⟨HashTable.placed_of_empty fun index => ?_, fun _ h0 => (by cases h0)⟩
  have hempty : (emptyTable : HashTable T).entries = [] := rfl
  refine List.eq_nil_iff_forall_not_mem.mpr fun node hnode => ?_
  have hmem := HashTable.mem_entries.mpr ⟨index, hnode⟩
  rw [show (new : Hash T).mActive = emptyTable from rfl, hempty] at hmem
  cases hmem

/-! ## Rehash steps -/

theorem Released.placed {active next : HashTable T} {index count : Nat}
    (hreleased : Released active next index count) (hplaced : active.Placed P) :
    next.Placed P := by
  refine hplaced.of_sublist hreleased.buckets fun other => ?_
  rw [hreleased.chains]
  split
  · exact List.nil_sublist _
  · exact List.Sublist.refl _

theorem Received.placed {params : HashParams K T} {nodes : List (HashNode T)}
    {backup next : HashTable T} (hadmits : AdmitsHome params P)
    (hcount : IsBucketCount backup.mBucketsNumber)
    (hreceived : Received params (backup.mBucketsNumber - 1) nodes backup next)
    (hplaced : backup.Placed P) : next.Placed P := by
  intro index node hnode
  rw [hreceived.chains, List.mem_append, List.mem_reverse, List.mem_filter] at hnode
  rw [hreceived.buckets]
  rcases hnode with ⟨-, hhome⟩ | hold
  · rw [← of_decide_eq_true hhome]
    exact hadmits _ node hcount
  · exact hplaced index node hold

/-- A rehash in progress keeps a placement. -/
theorem placed_rehash_busy {params : HashParams K T} {h next : Hash T} {backup : HashTable T}
    {step : Nat} {isAuto : Bool} (hadmits : AdmitsHome params P) (hinv : RehashInvariant h)
    (hbackup : h.mBackup = some backup) (hplaced : h.Placed P)
    (hrehash : h.rehash params step isAuto = some next) : next.Placed P := by
  obtain ⟨index, hbusy, hindex⟩ := hinv.cursor hbackup
  obtain ⟨active, received, hreleased, hreceived, hresult⟩ :=
    rehash_of_busy step isAuto hbusy hindex (hinv.home_lt params hbackup)
  have hactive := hreleased.placed hplaced.1
  rw [hinv.mask, ← (hinv.busy backup hbackup).number] at hreceived
  have htarget := hreceived.placed hadmits (hinv.backup_count backup hbackup)
    (hplaced.2 backup hbackup)
  rw [hresult] at hrehash
  rw [← Option.some.inj hrehash]
  split
  · exact ⟨htarget, fun _ h0 => (by cases h0)⟩
  · exact ⟨hactive, fun table h0 => by cases h0; exact htarget⟩

/-- A rehash that starts keeps it as well. -/
theorem placed_rehash {params : HashParams K T} {h next : Hash T} {step : Nat}
    {isAuto : Bool} (hadmits : AdmitsHome params P) (hinv : RehashInvariant h)
    (hdue : h.mBackup = none → h.Due params) (hplaced : h.Placed P)
    (hrehash : h.rehash params step isAuto = some next) : next.Placed P := by
  cases hbackup : h.mBackup with
  | some backup => exact placed_rehash_busy hadmits hinv hbackup hplaced hrehash
  | none =>
      obtain ⟨table, hstarted, hrest⟩ := rehash_of_due hinv hbackup (hdue hbackup) hrehash
      refine placed_rehash_busy hadmits hstarted.invariant rfl
        ⟨hplaced.1, fun other h0 => ?_⟩ hrest
      cases h0
      exact HashTable.placed_of_empty hstarted.chains

theorem placed_advance {params : HashParams K T} {h next : Hash T}
    (hadmits : AdmitsHome params P) (hinv : RehashInvariant h) (hplaced : h.Placed P)
    (hadvance : h.advance params = some next) : next.Placed P := by
  rcases advance_ways hinv hadvance with ⟨hsome, hrehash⟩ | ⟨-, hneed, hrehash⟩ | ⟨-, -, rfl⟩
  · exact placed_rehash hadmits hinv (fun hnone => absurd hnone hsome) hplaced hrehash
  · exact placed_rehash hadmits hinv (fun _ => .inl hneed) hplaced hrehash
  · exact hplaced

theorem placed_complete {params : HashParams K T} {h next : Hash T}
    (hadmits : AdmitsHome params P) (hinv : RehashInvariant h) (hplaced : h.Placed P)
    (hcomplete : h.complete params = some next) : next.Placed P := by
  rcases complete_cases hcomplete with ⟨hbusy, hrehash⟩ | ⟨-, rfl⟩
  · obtain ⟨backup, hbackup⟩ := hinv.some_of_isReHashing hbusy
    exact placed_rehash_busy hadmits hinv hbackup hplaced hrehash
  · exact hplaced

/-! ## The insertion and the removal -/

/-- An insertion keeps a placement exactly when the new node satisfies it. -/
theorem placed_put {h next : Hash T} {index : Nat} {value : T} (hinv : RehashInvariant h)
    (hindex : index < h.mBucketsNumber) (hplaced : h.Placed P)
    (hput : Put h index value next) :
    next.Placed P ↔ P h.mBucketsNumber index ⟨h.newAddr, value⟩ := by
  rw [← hinv.target_number] at hindex ⊢
  cases hput with
  | @backup backup hbusy hbackup =>
      rw [hbackup, Option.getD_some] at hindex ⊢
      rw [← HashTable.placed_insertNode hindex (hplaced.2 backup hbackup)]
      refine ⟨fun hnext => hnext.2 _ rfl, fun hnext => ⟨hplaced.1, fun table h0 => ?_⟩⟩
      cases h0
      exact hnext
  | active hidle =>
      have hbackup := hinv.none_of_isReHashing hidle
      rw [hbackup, Option.getD_none] at hindex ⊢
      rw [← HashTable.placed_insertNode hindex hplaced.1]
      exact ⟨fun hnext => hnext.1, fun hnext => ⟨hnext, hplaced.2⟩⟩

theorem placed_cut {h next : Hash T} {node : HashNode T} (hplaced : h.Placed P)
    (hcut : Cut h node next) : next.Placed P := by
  cases hcut with
  | backup hbackup hunlinked =>
      refine ⟨hplaced.1, fun table h0 => ?_⟩
      cases h0
      exact (hplaced.2 _ hbackup).of_sublist hunlinked.buckets hunlinked.chains
  | active hunlinked =>
      exact ⟨hplaced.1.of_sublist hunlinked.buckets hunlinked.chains, hplaced.2⟩

/-- The bucket count the insertion sees is that of the next state. -/
theorem put_number {h next : Hash T} {index : Nat} {value : T}
    (hput : Put h index value next) : next.mBucketsNumber = h.mBucketsNumber := by
  cases hput <;> rfl

section Calls

variable [DecidableEq K]

/-- What an insertion has to satisfy for a placement to survive the call. -/
def FilesUnder (params : HashParams K T) (P : Nat → Nat → HashNode T → Prop)
    (h next : Hash T) : HashCall K T → Prop
  | .insert value =>
      P next.mBucketsNumber (params.index h.mBucketsMask (params.getKey value))
        ⟨h.newAddr, value⟩
  | _ => True

/-- A call keeps a placement that home buckets satisfy, up to the node it inserts. -/
theorem placed_step {params : HashParams K T} {h next : Hash T} {call : HashCall K T}
    {answer : HashAnswer T} (hadmits : AdmitsHome params P) (hinv : RehashInvariant h)
    (hplaced : h.Placed P) (hstep : hashStep params h call = some (next, answer)) :
    next.Placed P ↔ FilesUnder params P h next call := by
  cases hashStep_effect hstep with
  | @insert value middle next hadvance hput =>
      have hmiddle := rehashed_of_advance hinv hadvance
      have hindex := Nat.lt_of_lt_of_le (hinv.index_lt params (params.getKey value))
        (number_le_of_advance hinv hadvance)
      have hiff := placed_put hmiddle.invariant hindex
        (placed_advance hadmits hinv hplaced hadvance) hput
      rw [hmiddle.newAddr] at hiff
      rw [hiff, FilesUnder, put_number hput]
  | @erase key middle cut next status hadvance hcut hlast =>
      have hmiddle := (rehashed_of_advance hinv hadvance).invariant
      have hfirst := placed_advance hadmits hinv hplaced hadvance
      refine iff_of_true ?_ trivial
      rcases erase_ways hmiddle hcut hlast with
        ⟨rfl, rfl⟩ | ⟨rfl, node, -, hnode, -⟩ | ⟨rfl, node, -, hnode, hshrink, hrehash⟩
      · exact hfirst
      · exact placed_cut hfirst hnode
      · exact placed_rehash hadmits (cut_spec hmiddle hnode).1 (fun _ => .inr hshrink)
          (placed_cut hfirst hnode) hrehash
  | lookup hcall hadvance =>
      have hnext := placed_advance hadmits hinv hplaced hadvance
      rcases hcall with ⟨key, rfl⟩ | ⟨key, rfl⟩ <;> exact iff_of_true hnext trivial
  | iterator hcall hcomplete =>
      have hnext := placed_complete hadmits hinv hplaced hcomplete
      cases call with
      | insert value => exact absurd hcall id
      | _ => exact iff_of_true hnext trivial
  | scan hscan => exact iff_of_true hplaced trivial

/-! ## Home buckets -/

omit [DecidableEq K] in
/-- Two masks of doubled counts agree on a hash exactly when it lacks the new bit. -/
theorem index_double {params : HashParams K T} {count : Nat} (hcount : IsBucketCount count)
    (key : K) :
    params.index (2 * count - 1) key = params.index (count - 1) key ↔
      (params.mHasher key).toNat &&& count = 0 := by
  obtain ⟨k, -, rfl⟩ := hcount
  rw [show 2 * 2 ^ k = 2 ^ (k + 1) by rw [Nat.pow_succ]; omega, HashParams.index,
    HashParams.index, Nat.and_two_pow_sub_one_eq_mod, Nat.and_two_pow_sub_one_eq_mod,
    Nat.mod_pow_succ, ← Nat.toNat_testBit, Nat.and_two_pow]
  cases (params.mHasher key).toNat.testBit k <;> simp

/-- Every node lies in its home bucket. -/
def AllHome (params : HashParams K T) (h : Hash T) : Prop :=
  h.Placed fun count index node => params.home (count - 1) node = index

omit [DecidableEq K] in
instance (params : HashParams K T) (h : Hash T) : Decidable (AllHome params h) :=
  inferInstanceAs (Decidable (h.Placed fun count index node =>
    params.home (count - 1) node = index))

omit [DecidableEq K] in
theorem admitsHome_home (params : HashParams K T) :
    AdmitsHome params fun count index node => params.home (count - 1) node = index :=
  fun _ _ _ => rfl

omit [DecidableEq K] in
/-- The bucket count after the rehash step of a call. -/
theorem number_of_advance {params : HashParams K T} {h next : Hash T}
    (hinv : RehashInvariant h) (hpaced : Paced params.factors 1 h)
    (hadvance : h.advance params = some next) :
    next.mBucketsNumber =
      if h.isReHashing = false ∧ h.isNeedReHash params = true then 2 * h.mBucketsNumber
      else h.mBucketsNumber := by
  rcases advance_ways hinv hadvance with
    ⟨hsome, hrehash⟩ | ⟨hbackup, hneed, hrehash⟩ | ⟨-, hneed, rfl⟩
  · rw [if_neg fun h0 => hsome (hinv.none_of_isReHashing h0.1)]
    exact number_of_rehash_busy hinv hsome hrehash
  · rw [if_pos ⟨hinv.isReHashing_of_none hbackup, hneed⟩,
      ← hinv.idle_number (hinv.idle_of_none hbackup)]
    exact (hpaced.resting_of_none hbackup).growth_target hinv hneed
      (number_of_rehash_idle hinv hbackup (.inl hneed) hrehash)
  · rw [if_neg (by simp [hneed])]

/-- The condition under which a call files its node in its home bucket: an insertion
that starts an expansion needs a hash without the bit the new mask adds. -/
def FilesHome (params : HashParams K T) (h : Hash T) : HashCall K T → Prop
  | .insert value =>
      h.isReHashing = false → h.isNeedReHash params = true →
        (params.mHasher (params.getKey value)).toNat &&& h.mActive.mBucketsNumber = 0
  | _ => True

/-- From a state with all nodes at home a call leads to another one exactly when it
meets the condition. -/
theorem home_step {params : HashParams K T} {h next : Hash T} {call : HashCall K T}
    {answer : HashAnswer T} (hinv : RehashInvariant h) (hpaced : Paced params.factors 1 h)
    (hhome : AllHome params h) (hstep : hashStep params h call = some (next, answer)) :
    AllHome params next ↔ FilesHome params h call := by
  rw [AllHome, placed_step (admitsHome_home params) hinv hhome hstep]
  cases hashStep_effect hstep with
  | @insert value middle next hadvance hput =>
      have hnumber := put_number hput
      rw [number_of_advance hinv hpaced hadvance] at hnumber
      rw [FilesUnder, FilesHome, hnumber, HashParams.home, hinv.mask]
      split
      · rename_i hstarts
        have hidle : h.mRehashIndex = -1 := by simpa [isReHashing] using hstarts.1
        rw [index_double hinv.number_count, hinv.idle_number hidle]
        simp [hstarts]
      · rename_i hkeeps
        exact iff_of_true rfl fun hidle hneed => absurd ⟨hidle, hneed⟩ hkeeps
  | erase => exact Iff.rfl
  | lookup hcall => rcases hcall with ⟨key, rfl⟩ | ⟨key, rfl⟩ <;> exact Iff.rfl
  | @iterator call answer next hcall =>
      cases call with
      | insert value => exact absurd hcall id
      | _ => exact Iff.rfl
  | scan => exact Iff.rfl

/-- Home placement holds throughout a run exactly when all its calls meet the condition. -/
theorem home_placement (params : HashParams K T) {calls : List (HashCall K T)}
    {last : Hash T} {answers : List (HashAnswer T)}
    (hrun : (hashMachine params).run new calls = some (last, answers)) :
    (hashMachine params).Throughout (AllHome params) new calls ↔
      (hashMachine params).Along (FilesHome params) new calls := by
  have hkeep := invariants_step params
  exact Machine.throughout_iff_along hkeep
    (fun _ _ _ _ hboth hhome hstep => home_step hboth.1 hboth.2 hhome hstep)
    ⟨RehashInvariant.new, Paced.new params.factors⟩ placed_new hrun

theorem home_placement_expanding :
    ∃ last answers,
      (hashMachine HashParams.identity).run new (insertions [0, 1, 2, 3, 4, 8]) =
        some (last, answers) ∧
      ((hashMachine HashParams.identity).Throughout (AllHome HashParams.identity) new
          (insertions [0, 1, 2, 3, 4, 8]) ↔
        (hashMachine HashParams.identity).Along (FilesHome HashParams.identity) new
          (insertions [0, 1, 2, 3, 4, 8])) := by
  obtain ⟨⟨last, answers⟩, hrun⟩ := Option.isSome_iff_exists.mp
    (by decide : ((hashMachine HashParams.identity).run new
      (insertions [0, 1, 2, 3, 4, 8])).isSome = true)
  exact ⟨last, answers, hrun, home_placement HashParams.identity hrun⟩

/-- After the keys `0` to `4` fill the table, inserting `5` starts the expansion to eight
buckets and files `5` in bucket `1` of the new table. -/
def misfiling : Hash (Nat × Nat) :=
  (hashMachine HashParams.identity).stateAfter (insertions [0, 1, 2, 3, 4, 5]) (by decide)

theorem not_allHome_misfiling :
    ¬ ∀ h : Hash (Nat × Nat), (hashMachine HashParams.identity).Reachable h →
      AllHome HashParams.identity h := by
  intro hall
  have hhome := hall misfiling (Machine.reachable_stateAfter _ _ _)
  revert hhome
  decide

end Calls

end Hash

end RedisDB
