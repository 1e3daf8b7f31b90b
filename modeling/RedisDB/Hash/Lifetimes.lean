import RedisDB.Hash.Astray
import RedisDB.Hash.Completion
import RedisDB.Hash.Uniqueness

/-!
# Every node is deleted once

Nodes are deleted in three places: `eraseNode` deletes the one it unlinks, `rehash`
deletes the old table with whatever it holds, and the destructor deletes both tables.
Over the life of a container these are all the nodes it allocated, each of them once.
-/

namespace RedisDB

open RedisDB.Library

variable {K T : Type}

/-! ## What is deleted -/

namespace HashTable

/-- The nodes the destructor deletes, bucket by bucket. -/
def destroyed (table : HashTable T) : List (HashNode T) :=
  (List.range table.mBucketsNumber).flatMap table.getBucketHead

/-- The node that `eraseNode` deletes. -/
def eraseDeletes [DecidableEq K] (getKey : T → K) (table : HashTable T) (index : Nat)
    (key : K) : Option (HashNode T) :=
  if index ≥ table.mBucketsNumber then none
  else walk getKey key (table.mNodes.getD index [])

theorem eraseDeletes_eq [DecidableEq K] (getKey : T → K) (table : HashTable T) (index : Nat)
    (key : K) :
    table.eraseDeletes getKey index key = walk getKey key (table.getBucketHead index) := by
  rw [eraseDeletes]
  split
  · rename_i hindex
    have hnil : table.getBucketHead index = [] := List.eq_nil_iff_forall_not_mem.mpr
      fun _ hnode => absurd (lt_of_mem_getBucketHead hnode) (Nat.not_lt.mpr hindex)
    rw [hnil, walk]
  · rename_i hindex
    rw [getBucketHead_of_lt (Nat.not_le.mp hindex)]

end HashTable

namespace Hash

/-- The nodes the destructor deletes. -/
def destroyed (h : Hash T) : List (HashNode T) :=
  h.mActive.destroyed ++ h.mBackup.elim [] HashTable.destroyed

/-- The nodes a call of `rehash` deletes, those of the old table once all buckets were
moved. -/
def rehashDeletes (params : HashParams K T) (call : RehashCall T) : List (HashNode T) :=
  match rehashMove params call.before call.step call.isAuto with
  | some last =>
      if last.mRehashIndex = last.mActive.mBucketsNumber then last.mActive.destroyed else []
  | none => []

section Calls

variable [DecidableEq K]

/-- The node that the middle of `erase` deletes. -/
def eraseDeletes (params : HashParams K T) (h : Hash T) (index : Nat) (key : K) :
    Option (HashNode T) :=
  if h.isReHashing then do
    let backup ← h.mBackup
    match backup.eraseDeletes params.getKey index key with
    | some node => some node
    | none =>
        h.mActive.eraseDeletes params.getKey (params.index (h.mActive.mBucketsNumber - 1) key) key
  else h.mActive.eraseDeletes params.getKey index key

/-- The node that an `erase` deletes after its first rehash step. -/
def erased (params : HashParams K T) (h : Hash T) : HashCall K T → List (HashNode T)
  | .erase key =>
      (h.advance params).elim [] fun middle =>
        (middle.eraseDeletes params (params.index h.mBucketsMask key) key).toList
  | _ => []

/-- The nodes a method deletes. -/
def callDeletes (params : HashParams K T) (h : Hash T) (call : HashCall K T) :
    List (HashNode T) :=
  (rehashCalls params h call).flatMap (rehashDeletes params) ++ erased params h call

/-- The nodes the methods of a run delete. -/
def runDeletes (params : HashParams K T) : Hash T → List (HashCall K T) → List (HashNode T)
  | _, [] => []
  | h, call :: rest =>
      callDeletes params h call ++
        match hashStep params h call with
        | some (next, _) => runDeletes params next rest
        | none => []

/-! ## One call -/

variable {params : HashParams K T} {h next last : Hash T} {call : HashCall K T}
  {answer : HashAnswer T}

omit [DecidableEq K] in
theorem destroyed_eq_entries (h : Hash T) : h.destroyed = h.entries := by
  rw [destroyed, entries, HashTable.entries_eq_flatMap, HashTable.destroyed]
  congr 1
  cases h.mBackup with
  | none => rfl
  | some backup => exact (HashTable.entries_eq_flatMap backup).symm

/-- No `rehash` deletes a node. -/
theorem rehashDeletes_eq_nil (hinv : RehashInvariant h) :
    (rehashCalls params h call).flatMap (rehashDeletes params) = [] := by
  refine List.flatMap_eq_nil_iff.mpr fun ⟨before, step, isAuto⟩ hc => ?_
  obtain ⟨hbefore, hdue⟩ := invokes_spec hinv (mem_rehashCalls.mp hc)
  rw [rehashDeletes]
  cases hmove : before.rehashMove params step isAuto with
  | none => rfl
  | some last =>
      dsimp only
      split
      · rename_i hend
        rw [HashTable.destroyed, ← HashTable.entries_eq_flatMap]
        exact deleted_empty hbefore hdue hmove hend
      · rfl

/-- What `erase` deletes is what its lookup is after. -/
theorem eraseDeletes_eq_lookup (hinv : RehashInvariant h) (index : Nat) (key : K) :
    h.eraseDeletes params index key = h.lookup params index key := by
  rw [eraseDeletes, lookup, hinv.isReHashing_eq]
  cases hbackup : h.mBackup with
  | none => simp [HashTable.eraseDeletes_eq]
  | some backup =>
      simp only [Option.isSome_some, if_true, Option.bind_eq_bind, Option.bind_some,
        HashTable.eraseDeletes_eq]
      cases HashTable.walk params.getKey key (backup.getBucketHead index) <;> rfl

/-- The node a call allocates. -/
def allocates (h : Hash T) : HashCall K T → List (HashNode T)
  | .insert value => [⟨h.newAddr, value⟩]
  | _ => []

/-- An `erase` deletes the node that it takes out of the tables. -/
theorem entries_eraseKey {cut : Hash T} {index : Nat} {key : K} {status : Bool}
    (hinv : RehashInvariant h) (hcut : h.eraseKey params index key = some (cut, status)) :
    h.entries.Perm ((h.eraseDeletes params index key).toList ++ cut.entries) := by
  rw [eraseDeletes_eq_lookup hinv]
  rcases eraseKey_spec params index key hinv.isReHashing_eq with
    ⟨hlookup, hnone⟩ | ⟨node, last, hlookup, hnode, hsome⟩
  · rw [hnone] at hcut
    cases hcut
    rw [hlookup]
    exact List.Perm.refl _
  · rw [hsome] at hcut
    cases hcut
    rw [hlookup]
    exact (cut_spec hinv hnode).2.1

/-- What `erase` deletes leaves the tables, and it allocates nothing. -/
theorem entries_erase {key : K} {status : Bool} (hinv : RehashInvariant h)
    (herase : h.erase params key = some (next, status)) :
    h.entries.Perm (erased params h (.erase key) ++ next.entries) ∧ next.newAddr = h.newAddr := by
  obtain ⟨middle, cut, hadvance, hcut, hlast⟩ := erase_cases herase
  have hmiddle := rehashed_of_advance hinv hadvance
  have hdeleted := entries_eraseKey hmiddle.invariant hcut
  have hcutSpec : RehashInvariant cut ∧ cut.newAddr = middle.newAddr := by
    rcases eraseKey_effect hmiddle.invariant hcut with ⟨-, rfl⟩ | ⟨-, node, -, hnode⟩
    · exact ⟨hmiddle.invariant, rfl⟩
    · have hspec := cut_spec hmiddle.invariant hnode
      exact ⟨hspec.1, hspec.2.2⟩
  have hshrunk : Rehashed cut next := by
    rcases hlast with ⟨-, hneed, hrehash⟩ | ⟨-, rfl⟩
    · exact rehashed hcutSpec.1 (fun _ => .inr hneed) hrehash
    · exact Rehashed.refl hcutSpec.1
  rw [erased, hadvance, Option.elim_some]
  constructor
  · exact (hmiddle.contents.symm.trans hdeleted).trans (hshrunk.contents.symm.append_left _)
  · rw [hshrunk.newAddr, hcutSpec.2, hmiddle.newAddr]

/-- The nodes there were and the one a call allocates are the nodes it deletes and those
there are. -/
theorem step_deletes (hinv : RehashInvariant h)
    (hstep : hashStep params h call = some (next, answer)) :
    (h.entries ++ allocates h call).Perm (callDeletes params h call ++ next.entries) := by
  have hentries := (step_spec hinv hstep).2
  rw [callDeletes, rehashDeletes_eq_nil hinv, List.nil_append]
  cases call with
  | insert value => exact List.perm_append_comm.trans (List.Perm.symm hentries)
  | erase key =>
      obtain ⟨⟨last, status⟩, herase, heq⟩ := Option.map_eq_some_iff.mp hstep
      cases heq
      simpa [allocates] using (entries_erase hinv herase).1
  | _ => simpa [allocates, erased] using List.Perm.symm hentries

/-- A call hands out the address of the node it allocates. -/
theorem addresses_step (hinv : RehashInvariant h)
    (hstep : hashStep params h call = some (next, answer)) :
    List.range next.newAddr = List.range h.newAddr ++ (allocates h call).map HashNode.addr := by
  cases hashStep_effect hstep with
  | @insert value middle next hadvance hput =>
      rw [put_newAddr hput, (rehashed_of_advance hinv hadvance).newAddr, List.range_succ]
      rfl
  | @erase key middle cut next status hadvance hcut hlast =>
      obtain ⟨⟨last, status⟩, herase, heq⟩ := Option.map_eq_some_iff.mp hstep
      cases heq
      simp [(entries_erase hinv herase).2, allocates]
  | lookup hcall hadvance =>
      rw [(rehashed_of_advance hinv hadvance).newAddr]
      rcases hcall with ⟨key, rfl⟩ | ⟨key, rfl⟩ <;> exact (List.append_nil _).symm
  | iterator hcall hcomplete =>
      rw [(rehashed_of_complete hinv hcomplete).newAddr]
      cases call with
      | insert value => exact absurd hcall id
      | _ => exact (List.append_nil _).symm
  | scan => exact (List.append_nil _).symm

/-! ## Whole lives -/

theorem run_deletes {calls : List (HashCall K T)} {answers : List (HashAnswer T)}
    {before : List (HashNode T)} (hinv : RehashInvariant h)
    (hbefore : ((before ++ h.entries).map HashNode.addr).Perm (List.range h.newAddr))
    (hrun : (hashMachine params).run h calls = some (last, answers)) :
    ((before ++ (runDeletes params h calls ++ last.entries)).map HashNode.addr).Perm
      (List.range last.newAddr) := by
  induction calls generalizing h before answers with
  | nil =>
      cases hrun
      exact hbefore
  | cons call rest ih =>
      obtain ⟨next, answer, tail, hstep, htail, rfl⟩ := Machine.run_cons_eq_some.mp hrun
      have hstep' : hashStep params h call = some (next, answer) := hstep
      have hdeletes := step_deletes hinv hstep'
      have hnext : (((before ++ callDeletes params h call) ++ next.entries).map
          HashNode.addr).Perm (List.range next.newAddr) := by
        rw [addresses_step hinv hstep', List.append_assoc]
        refine ((hdeletes.symm.append_left before).map HashNode.addr).trans ?_
        rw [← List.append_assoc, List.map_append]
        exact hbefore.append_right _
      have hlast := ih (step_spec hinv hstep').1 hnext htail
      rw [runDeletes, hstep']
      simpa only [List.append_assoc] using hlast

/-- From the first call to the end of the destructor every allocated node is deleted, and
none twice. -/
theorem deleted_once (params : HashParams K T) {calls : List (HashCall K T)}
    {answers : List (HashAnswer T)}
    (hrun : (hashMachine params).run new calls = some (last, answers)) :
    ((runDeletes params new calls ++ last.destroyed).map HashNode.addr).Perm
      (List.range last.newAddr) := by
  rw [destroyed_eq_entries]
  have hnone : (([] ++ (new : Hash T).entries).map HashNode.addr).Perm (List.range 0) :=
    List.Perm.refl _
  exact run_deletes RehashInvariant.new hnone hrun

/-- An expansion, a lookup that goes on with it and an `erase`. -/
def shortLife : List (HashCall Nat (Nat × Nat)) :=
  insertions [0, 1, 2, 3, 4, 8] ++ [.get 3, .erase 2]

theorem deleted_once_shortLife :
    ∃ last answers,
      (hashMachine HashParams.identity).run new shortLife = some (last, answers) ∧
      (runDeletes HashParams.identity new shortLife).map HashNode.addr = [2] ∧
      ((runDeletes HashParams.identity new shortLife ++ last.destroyed).map HashNode.addr).Perm
        (List.range last.newAddr) := by
  obtain ⟨⟨last, answers⟩, hrun⟩ := Option.isSome_iff_exists.mp
    (by decide : ((hashMachine HashParams.identity).run new shortLife).isSome = true)
  exact ⟨last, answers, hrun, by decide, deleted_once HashParams.identity hrun⟩

/-! ## Pointers -/

/-- A call that deletes a node is an `erase` of its key that answers `true`. -/
theorem erasesKey_of_deleted (hinv : RehashInvariant h)
    (hstep : hashStep params h call = some (next, answer)) {node : HashNode T}
    (hdeleted : node ∈ callDeletes params h call) :
    HashCall.erasesKey (params.getKey node.mValue) (call, answer) = true := by
  rw [callDeletes, rehashDeletes_eq_nil hinv, List.nil_append] at hdeleted
  cases call with
  | erase key =>
      obtain ⟨⟨last, status⟩, herase, heq⟩ := Option.map_eq_some_iff.mp hstep
      cases heq
      obtain ⟨middle, cut, hadvance, -, -⟩ := erase_cases herase
      have hmiddle := (rehashed_of_advance hinv hadvance).invariant
      rw [erased, hadvance, Option.elim_some, Option.mem_toList,
        eraseDeletes_eq_lookup hmiddle] at hdeleted
      rcases erase_of_advance hinv hadvance key with
        ⟨hnone, -⟩ | ⟨removed, after, hsome, hremoves, -⟩
      · rw [hnone] at hdeleted
        cases hdeleted
      · cases herase.symm.trans hremoves
        simp [HashCall.erasesKey, (lookup_eq_some hdeleted).1]
  | _ => exact absurd hdeleted List.not_mem_nil

theorem eq_of_erasesKey {key : K}
    (herases : HashCall.erasesKey key (call, answer) = true) :
    call = .erase key ∧ answer = .status true := by
  unfold HashCall.erasesKey at herases
  split at herases
  · rename_i other heq
    cases heq
    exact ⟨congrArg _ (of_decide_eq_true herases), rfl⟩
  · cases herases

/-- What a call deletes is stored no more. -/
theorem not_mem_of_deleted {node : HashNode T} (hinv : RehashInvariant h)
    (haddressed : Addressed h) (hstep : hashStep params h call = some (next, answer))
    (hdeleted : node ∈ callDeletes params h call) : node ∉ next.entries := by
  have hnew : (h.entries ++ allocates h call).Nodup := by
    refine List.nodup_append.mpr ⟨haddressed.nodup, ?_, ?_⟩
    · cases call with
      | insert value => exact List.nodup_singleton _
      | _ => exact List.nodup_nil
    · rintro stored hstored fresh hfresh rfl
      cases call with
      | insert value =>
          obtain rfl := List.mem_singleton.mp hfresh
          exact absurd (haddressed.below _ hstored) (Nat.lt_irrefl _)
      | _ => exact absurd hfresh List.not_mem_nil
  have hnodup := (step_deletes hinv hstep).nodup_iff.mp hnew
  exact List.disjoint_of_nodup_append hnodup hdeleted

theorem gone_of_run {node : HashNode T} {calls : List (HashCall K T)}
    {answers : List (HashAnswer T)} (hinv : RehashInvariant h) (haddr : node.addr < h.newAddr)
    (hgone : node ∉ h.entries) (hrun : (hashMachine params).run h calls = some (last, answers)) :
    node ∉ last.entries := by
  have hkeep : ∀ state call after answer,
      RehashInvariant state ∧ node.addr < state.newAddr ∧ node ∉ state.entries →
      (hashMachine params).step state call = some (after, answer) →
      RehashInvariant after ∧ node.addr < after.newAddr ∧ node ∉ after.entries := by
    rintro state call after answer ⟨hstate, hbelow, hnot⟩ hstep
    exact ⟨(step_spec hstate hstep).1,
      Nat.lt_of_lt_of_le hbelow (step_newAddr hstate hstep).1,
      fun hmem => hnot (stored_of_step hstate hstep hbelow hmem)⟩
  exact (Machine.run_invariant hkeep ⟨hinv, haddr, hgone⟩ hrun).2.2

theorem deleted_iff {calls : List (HashCall K T)} {answers : List (HashAnswer T)}
    {node : HashNode T} (hinv : RehashInvariant h) (haddressed : Addressed h)
    (hunique : (h.keys params).Nodup)
    (hinserts : (hashMachine params).Along (InsertsAbsent params) h calls)
    (hnode : node ∈ h.entries)
    (hrun : (hashMachine params).run h calls = some (last, answers)) :
    (node ∈ runDeletes params h calls ↔
        (calls.zip answers).any (HashCall.erasesKey (params.getKey node.mValue)) = true) ∧
      (node ∈ last.entries ↔ node ∉ runDeletes params h calls) := by
  induction calls generalizing h answers with
  | nil =>
      cases hrun
      simpa [runDeletes] using hnode
  | cons call rest ih =>
      obtain ⟨next, answer, tail, hstep, htail, rfl⟩ := Machine.run_cons_eq_some.mp hrun
      have hstep' : hashStep params h call = some (next, answer) := hstep
      have hnext := (step_spec hinv hstep').1
      rw [runDeletes, hstep']
      dsimp only
      rw [List.zip_cons_cons, List.any_cons, Bool.or_eq_true, List.mem_append]
      by_cases hdeleted : node ∈ callDeletes params h call
      · have herases := erasesKey_of_deleted hinv hstep' hdeleted
        have haddr := Nat.lt_of_lt_of_le (haddressed.below node hnode)
          (step_newAddr hinv hstep').1
        have hgone := gone_of_run hnext haddr (not_mem_of_deleted hinv haddressed hstep' hdeleted)
          htail
        simp [hdeleted, herases, hgone]
      · have hmem : node ∈ next.entries := by
          have hboth := (step_deletes hinv hstep').mem_iff.mp (List.mem_append_left _ hnode)
          exact (List.mem_append.mp hboth).resolve_left hdeleted
        have hkept : HashCall.erasesKey (params.getKey node.mValue) (call, answer) = false := by
          refine Bool.eq_false_iff.mpr fun herases => ?_
          obtain ⟨rfl, rfl⟩ := eq_of_erasesKey herases
          exact absent_of_erase hinv hunique hstep' (List.mem_map.mpr ⟨node, hmem, rfl⟩)
        have hrest := ih hnext (addressed_step hinv haddressed hstep')
          ((nodup_step hinv hunique hstep').mpr hinserts.1) (hinserts.2 _ _ hstep) hmem htail
        simpa [hdeleted, hkept] using hrest

/-- A pointer to a stored node, as `get` returns it, is good until a removal of its key
answers `true`, where no key is inserted twice: whatever rehashes go on, the node is deleted
by such a removal only, and is stored as it was before. -/
theorem pointer_valid (params : HashParams K T) {calls : List (HashCall K T)}
    {answers : List (HashAnswer T)} {node : HashNode T}
    (hreach : (hashMachine params).Reachable h) (hunique : (h.keys params).Nodup)
    (hinserts : (hashMachine params).Along (InsertsAbsent params) h calls)
    (hnode : node ∈ h.entries)
    (hrun : (hashMachine params).run h calls = some (last, answers)) :
    (node ∈ runDeletes params h calls ↔
        (calls.zip answers).any (HashCall.erasesKey (params.getKey node.mValue)) = true) ∧
      (node ∈ last.entries ↔ node ∉ runDeletes params h calls) := by
  have hkeep : ∀ state call next answer, RehashInvariant state ∧ Addressed state →
      (hashMachine params).step state call = some (next, answer) →
      RehashInvariant next ∧ Addressed next :=
    fun _ _ _ _ hprior hstep =>
      ⟨(step_spec hprior.1 hstep).1, addressed_step hprior.1 hprior.2 hstep⟩
  obtain ⟨hinv, haddressed⟩ := hreach.invariant ⟨RehashInvariant.new, addressed_new⟩ hkeep
  exact deleted_iff hinv haddressed hunique hinserts hnode hrun

/-- The removal of `2` in an expansion, and a new entry of the key. -/
theorem pointer_valid_expanding : ∃ last answers,
    (hashMachine HashParams.identity).run expanding [.get 3, .erase 2, .insert (2, 7)] =
        some (last, answers) ∧
      ∀ node ∈ expanding.entries, (node ∈ last.entries ↔ node ∉ runDeletes HashParams.identity
        expanding [.get 3, .erase 2, .insert (2, 7)]) := by
  obtain ⟨⟨last, answers⟩, hrun⟩ := Option.isSome_iff_exists.mp
    (by decide : ((hashMachine HashParams.identity).run expanding
      [.get 3, .erase 2, .insert (2, 7)]).isSome = true)
  have hinserts : (hashMachine HashParams.identity).Along (InsertsAbsent HashParams.identity)
      expanding [.get 3, .erase 2, .insert (2, 7)] := by decide
  exact ⟨last, answers, hrun, fun node hnode => (pointer_valid HashParams.identity
    reachable_expanding (by decide) hinserts hnode hrun).2⟩

end Calls

end Hash

end RedisDB
