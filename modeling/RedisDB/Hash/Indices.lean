import RedisDB.Hash.Lookup
import RedisDB.Hash.Traced

/-!
# Bucket indices stay inside their tables

The rehash loop moves a node to the bucket of its key under the mask of the new table,
and a keyed method uses an index older than its rehash step: the step does not lower the
bucket count.
-/

namespace RedisDB

open RedisDB.Library

variable {K T : Type}

namespace Access

/-- The index lies in the bucket array. -/
def Inside (access : Access K T) : Prop := access.index < access.table.mBucketsNumber

/-- Inside the array `insertNode` does not return `false`. -/
theorem Inside.insertNode {access : Access K T} (hinside : access.Inside) (node : HashNode T) :
    (access.table.insertNode access.index node).2 = true := by
  rw [HashTable.insertNode_of_lt hinside]

/-- Inside the array the unchecked read of `get` is defined. -/
theorem Inside.get [DecidableEq K] {access : Access K T} (hinside : access.Inside)
    (getKey : T → K) (key : K) : access.table.get getKey access.index key ≠ none := by
  rw [HashTable.get_of_lt getKey key hinside]
  exact Option.some_ne_none _

/-- A use of a bucket of the array. -/
theorem observe_inside {A : Type} {table : HashTable T} {index : Nat} (use : BucketUse K T)
    (hindex : index < table.mBucketsNumber) (part : Option A) :
    (Logged.observe (Access.mk table index use) part).All Inside := by
  have hinside : (Access.mk table index use).Inside := hindex
  exact .observe hinside part

end Access

namespace Hash

/-! ## The move loop -/

/-- The nodes of one bucket go to buckets of the new table, which keeps its count. -/
theorem moveBucketTraced_inside {params : HashParams K T} {mask index : Nat}
    {tables : HashTable T × HashTable T}
    (hmask : ∀ node : HashNode T, params.home mask node < tables.2.mBucketsNumber)
    (hindex : index < tables.1.mBucketsNumber) :
    (moveBucketTraced params mask index tables).All Access.Inside := by
  have hnode : ∀ (backup : HashTable T) (node : HashNode T),
      backup.mBucketsNumber = tables.2.mBucketsNumber →
        (moveNodeTraced params mask backup node).All Access.Inside ∧
          ∀ next, (moveNodeTraced params mask backup node).result = some next →
            next.mBucketsNumber = tables.2.mBucketsNumber := by
    intro backup node hcount
    constructor
    · refine (Access.observe_inside _ ?_ _).bind fun _ _ => .pure _
      rw [hcount]
      exact hmask node
    · rintro next hnext
      cases hnext
      rw [HashTable.insertNode_mBucketsNumber, hcount]
  exact (Logged.All.foldlM hnode _ rfl).bind fun _ _ =>
    (Access.observe_inside _ hindex _).bind fun _ _ => .pure _

/-- The move loop stays inside both tables: the cursor below the bucket count of the old
one, the home buckets below that of the new one. -/
theorem moveBucketsTraced_inside {params : HashParams K T} {mask : Nat} (count index : Nat)
    {tables : HashTable T × HashTable T}
    (hmask : ∀ node : HashNode T, params.home mask node < tables.2.mBucketsNumber)
    (hcount : index + count ≤ tables.1.mBucketsNumber) :
    (moveBucketsTraced params mask count index tables).All Access.Inside := by
  induction count generalizing index tables with
  | zero => exact .pure _
  | succ count ih =>
      rw [moveBucketsTraced]
      refine (moveBucketTraced_inside hmask (by omega)).bind fun moved hmoved => ?_
      rw [result_moveBucketTraced] at hmoved
      cases hmoved
      refine ih (index + 1) (fun node => ?_) ?_
      · have hreceived := received_foldl (tables.1.getBucketHead index) hmask
        exact hreceived.buckets.symm ▸ hmask node
      · change index + 1 + count ≤ tables.1.mBucketsNumber
        omega

/-! ## `rehash` -/

/-- A `rehash` call stays inside, started when due. -/
theorem rehashTraced_inside {params : HashParams K T} {h : Hash T} (step : Nat)
    (isAuto : Bool) (hinv : RehashInvariant h) (hdue : h.mBackup = none → h.Due params) :
    (h.rehashTraced params step isAuto).All Access.Inside := by
  refine Logged.All.bind (Logged.All.bind (.ofOption _) fun begun hbegun =>
    Logged.All.bind (.ofOption _) fun backup hbackup => ?_) fun _ _ => .pure _
  rw [Logged.result_ofOption] at hbegun hbackup
  -- A call that starts the rehash goes on with the state it started.
  have hinv : RehashInvariant begun := by
    split at hbegun
    · rename_i hidle
      have hnone := hinv.backup_none.mpr hidle
      obtain ⟨table, rfl, hstarted⟩ := started_spec hinv hnone (hdue hnone) hbegun
      exact hstarted.invariant
    · cases hbegun
      exact hinv
  obtain ⟨index, hbusy, hindex⟩ := hinv.cursor hbackup
  simp only [hbusy.index_eq, Int.toNat_natCast, if_pos hindex]
  refine (moveBucketsTraced_inside _ _ (hinv.home_lt params hbackup) ?_).bind fun _ _ => .pure _
  change index + _ ≤ begun.mActive.mBucketsNumber
  omega

theorem advanceTraced_inside (params : HashParams K T) {h : Hash T} (hinv : RehashInvariant h) :
    (h.advanceTraced params).All Access.Inside := by
  refine .ite (fun hwhy => rehashTraced_inside 2 true hinv fun hidle => .inl ?_) fun _ => .pure _
  rw [hinv.isReHashing_of_none hidle] at hwhy
  simpa using hwhy

theorem completeTraced_inside (params : HashParams K T) {h : Hash T}
    (hinv : RehashInvariant h) : (h.completeTraced params).All Access.Inside := by
  refine .ite (fun hbusy => rehashTraced_inside _ false hinv fun hidle => ?_) fun _ => .pure _
  rw [hinv.isReHashing_of_none hidle] at hbusy
  cases hbusy

/-! ## Keyed methods -/

/-- What follows the rehash step uses an index computed before it. -/
theorem afterAdvance_inside {A : Type} {params : HashParams K T} {h : Hash T}
    (hinv : RehashInvariant h) (key : K) {next : Hash T → Logged (Access K T) A}
    (hnext : ∀ middle, RehashInvariant middle →
      params.index h.mBucketsMask key < (middle.mBackup.getD middle.mActive).mBucketsNumber →
        (next middle).All Access.Inside) :
    (h.advanceTraced params >>= next).All Access.Inside := by
  refine (advanceTraced_inside params hinv).bind fun middle hmiddle => ?_
  rw [result_advanceTraced] at hmiddle
  have hinvMiddle := (rehashed_of_advance hinv hmiddle).invariant
  refine hnext middle hinvMiddle ?_
  rw [hinvMiddle.target_number]
  exact Nat.lt_of_lt_of_le (hinv.index_lt params key) (number_le_of_advance hinv hmiddle)

/-- The two ways of a keyed method after its rehash step: an index below the bucket count of
the newest table is inside the table the method turns to first. -/
theorem newest_inside {A : Type} {h : Hash T} {index : Nat} (hinv : RehashInvariant h)
    (hindex : index < (h.mBackup.getD h.mActive).mBucketsNumber)
    {busy : HashTable T → Logged (Access K T) A} {idle : Logged (Access K T) A}
    (hbusy : ∀ backup, index < backup.mBucketsNumber → (busy backup).All Access.Inside)
    (hidle : index < h.mActive.mBucketsNumber → idle.All Access.Inside) :
    (if h.isReHashing then Logged.ofOption h.mBackup >>= busy else idle).All Access.Inside := by
  refine .ite (fun _ => Logged.All.bind (.ofOption _) fun backup hbackup => ?_) fun hresting => ?_
  · rw [Logged.result_ofOption] at hbackup
    rw [hbackup, Option.getD_some] at hindex
    exact hbusy backup hindex
  · rw [Bool.not_eq_true] at hresting
    rw [hinv.none_of_isReHashing hresting, Option.getD_none] at hindex
    exact hidle hindex

theorem insertEntryTraced_inside (params : HashParams K T) {h : Hash T}
    (hinv : RehashInvariant h) (value : T) :
    (h.insertEntryTraced params value).All Access.Inside := by
  refine afterAdvance_inside hinv (params.getKey value) fun middle hmiddle hindex => ?_
  refine newest_inside hmiddle hindex (fun backup hbackup => ?_) fun hactive => ?_
  · exact (Access.observe_inside _ hbackup _).bind fun _ _ => .pure _
  · exact (Access.observe_inside _ hactive _).bind fun _ _ => .pure _

section Search

variable [DecidableEq K] (params : HashParams K T) {h : Hash T}

theorem eraseKeyTraced_inside {index : Nat} (key : K) (hinv : RehashInvariant h)
    (hindex : index < (h.mBackup.getD h.mActive).mBucketsNumber) :
    (h.eraseKeyTraced params index key).All Access.Inside := by
  refine newest_inside hinv hindex (fun backup hbackup => ?_) fun hactive => ?_
  · refine (Access.observe_inside _ hbackup _).bind fun cut _ => ?_
    refine .ite (fun _ => .pure _) fun _ => ?_
    exact (Access.observe_inside _ (params.index_lt hinv.active_count key) _).bind
      fun _ _ => .pure _
  · exact (Access.observe_inside _ hactive _).bind fun _ _ => .pure _

theorem eraseTraced_inside (hinv : RehashInvariant h) (key : K) :
    (h.eraseTraced params key).All Access.Inside := by
  refine afterAdvance_inside hinv key fun middle hmiddle hindex => ?_
  refine (eraseKeyTraced_inside params key hmiddle hindex).bind fun cut hcut => ?_
  rw [result_eraseKeyTraced] at hcut
  refine .ite (fun hshrink => ?_) fun _ => .pure _
  rw [Bool.and_eq_true] at hshrink
  rcases eraseKey_effect hmiddle hcut with ⟨hfalse, -⟩ | ⟨-, node, -, hnode⟩
  · rw [hfalse] at hshrink
    cases hshrink.1
  · exact (rehashTraced_inside 2 true (cut_spec hmiddle hnode).1 fun _ => .inr hshrink.2).bind
      fun _ _ => .pure _

theorem isExistTraced_inside (hinv : RehashInvariant h) (key : K) :
    (h.isExistTraced params key).All Access.Inside := by
  refine afterAdvance_inside hinv key fun middle hmiddle hindex => ?_
  refine newest_inside hmiddle hindex (fun backup hbackup => ?_) fun hactive => ?_
  · refine (Access.observe_inside _ hbackup _).bind fun found _ => ?_
    refine .ite (fun _ => .pure _) fun _ => ?_
    exact (Access.observe_inside _ (params.index_lt hmiddle.active_count key) _).bind
      fun _ _ => .pure _
  · exact (Access.observe_inside _ hactive _).bind fun _ _ => .pure _

theorem findTraced_inside (hinv : RehashInvariant h) (key : K) :
    (h.findTraced params key).All Access.Inside := by
  refine afterAdvance_inside hinv key fun middle hmiddle hindex => ?_
  refine newest_inside hmiddle hindex (fun backup hbackup => ?_) fun hactive => ?_
  · refine (Access.observe_inside _ hbackup _).bind fun found _ => ?_
    cases found with
    | some node => exact .pure _
    | none =>
        exact (Access.observe_inside _ (params.index_lt hmiddle.active_count key) _).bind
          fun _ _ => .pure _
  · exact (Access.observe_inside _ hactive _).bind fun _ _ => .pure _

end Search

/-! ## Iterators -/

/-- What follows the completed rehash reads buckets by `getBucketHead` only. -/
theorem afterComplete_inside {A : Type} {params : HashParams K T} {h : Hash T}
    (hinv : RehashInvariant h) {next : Hash T → Logged (Access K T) A}
    (hnext : ∀ full, (next full).All Access.Inside) :
    (h.completeTraced params >>= next).All Access.Inside :=
  (completeTraced_inside params hinv).bind fun full _ => hnext full

theorem beginIterTraced_inside (params : HashParams K T) {h : Hash T}
    (hinv : RehashInvariant h) : (h.beginIterTraced params).All Access.Inside := by
  refine afterComplete_inside hinv fun full => ?_
  cases full.mActive.getBucketHead (firstIndex full.mActive full.mActive.mBucketsNumber 0) with
  | nil => exact .ofOption _
  | cons node rest => exact .pure _

theorem nextTraced_inside (params : HashParams K T) {h : Hash T} (hinv : RehashInvariant h)
    (addr : Nat) : (h.nextTraced params addr).All Access.Inside := by
  refine afterComplete_inside hinv fun full => Logged.All.bind (.ofOption _) fun chain _ => ?_
  match chain with
  | [] => exact .ofOption _
  | [node] => exact .ite (fun _ => .pure _) fun _ => .pure _
  | _ :: follower :: _ => exact .pure _

/-! ## All calls -/

section Calls

variable [DecidableEq K]

theorem tracedStep_inside (params : HashParams K T) {h : Hash T} (hinv : RehashInvariant h)
    (call : HashCall K T) : (tracedStep params h call).All Access.Inside := by
  cases call with
  | insert value => exact (insertEntryTraced_inside params hinv value).bind fun _ _ => .pure _
  | erase key => exact (eraseTraced_inside params hinv key).bind fun _ _ => .pure _
  | get key => exact (findTraced_inside params hinv key).bind fun _ _ => .pure _
  | isExist key => exact (isExistTraced_inside params hinv key).bind fun _ _ => .pure _
  | beginIter => exact (beginIterTraced_inside params hinv).bind fun _ _ => .pure _
  | endIter =>
      exact (afterComplete_inside hinv fun _ => .pure _).bind fun _ _ => .pure _
  | cbeginIter =>
      exact (afterComplete_inside hinv fun _ => .ite (fun _ => .pure _) fun _ => .pure _).bind
        fun _ _ => .pure _
  | cendIter =>
      exact (afterComplete_inside hinv fun _ => .pure _).bind fun _ _ => .pure _
  | next addr => exact (nextTraced_inside params hinv addr).bind fun _ _ => .pure _
  | scan v => exact Logged.All.bind (.ofOption _) fun _ _ => .pure _

/-- The traced call answers as the call does, and every index it passes to a table is below
the table's bucket count, so that `insertNode` never refuses a node and `get` never reads
past the array. -/
theorem indices_inside (params : HashParams K T) {h : Hash T}
    (hreach : (hashMachine params).Reachable h) (call : HashCall K T) :
    (tracedStep params h call).result = hashStep params h call ∧
      ∀ access ∈ (tracedStep params h call).log,
        access.index < access.table.mBucketsNumber ∧
          (∀ node, (access.table.insertNode access.index node).2 = true) ∧
          ∀ key, access.table.get params.getKey access.index key ≠ none := by
  refine ⟨result_tracedStep params h call, fun access haccess => ?_⟩
  have hinside := tracedStep_inside params (reachable_rehashInvariant params hreach) call
    access haccess
  exact ⟨hinside, hinside.insertNode, hinside.get params.getKey⟩

theorem indices_inside_expanding :
    ∃ access ∈ (tracedStep HashParams.identity expanding (.erase 2)).log,
      access.index < access.table.mBucketsNumber := by
  obtain ⟨access, haccess⟩ := List.exists_mem_of_ne_nil
    (tracedStep HashParams.identity expanding (.erase 2)).log (by decide)
  exact ⟨access, haccess,
    ((indices_inside HashParams.identity reachable_expanding (.erase 2)).2 access haccess).1⟩

end Calls

end Hash

end RedisDB
