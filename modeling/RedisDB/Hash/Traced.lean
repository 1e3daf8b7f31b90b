import RedisDB.Hash.Basic
import RedisDB.Library.Logged

/-!
# The methods of `Hash` with their uses of a bucket index

A keyed method computes its index under the mask it finds and uses it after a rehash
step, on whatever table is current then.  Here every method is written over members of
`HashTable` that note the table as it stands and the index they are passed; without its
log it is the method itself, on every state.
-/

namespace RedisDB

open RedisDB.Library

variable {K T : Type}

/-- The members of `HashTable` that use the index of a bucket as they are passed it. -/
inductive BucketUse (K T : Type) where
  | insertNode (node : HashNode T)
  | eraseNode (key : K)
  | isExist (key : K)
  | get (key : K)
  | resetBucket

/-- One use of a bucket: the table as it stands, the index passed, and by what. -/
structure Access (K T : Type) where
  table : HashTable T
  index : Nat
  use : BucketUse K T

namespace HashTable

variable (table : HashTable T) (index : Nat)

def insertNodeTraced (node : HashNode T) : Logged (Access K T) (HashTable T × Bool) :=
  .observe ⟨table, index, .insertNode node⟩ (some (table.insertNode index node))

def resetBucketTraced : Logged (Access K T) (HashTable T) :=
  .observe ⟨table, index, .resetBucket⟩ (some (table.resetBucket index))

section Lookup

variable [DecidableEq K] (getKey : T → K) (key : K)

def getTraced : Logged (Access K T) (Option (HashNode T)) :=
  .observe ⟨table, index, .get key⟩ (table.get getKey index key)

def isExistTraced : Logged (Access K T) Bool :=
  .observe ⟨table, index, .isExist key⟩ (some (table.isExist getKey index key))

def eraseNodeTraced : Logged (Access K T) (HashTable T × Bool) :=
  .observe ⟨table, index, .eraseNode key⟩ (some (table.eraseNode getKey index key))

end Lookup

end HashTable

namespace Hash

/-! ## Rehashing -/

/-- The body of the inner loop of `rehash`. -/
def moveNodeTraced (params : HashParams K T) (mask : Nat) (backup : HashTable T)
    (node : HashNode T) : Logged (Access K T) (HashTable T) := do
  let inserted ← backup.insertNodeTraced (params.index mask (params.getKey node.mValue)) node
  return inserted.1

def moveBucketTraced (params : HashParams K T) (mask index : Nat)
    (tables : HashTable T × HashTable T) :
    Logged (Access K T) (HashTable T × HashTable T) := do
  let backup ← (tables.1.getBucketHead index).foldlM (moveNodeTraced params mask) tables.2
  let active ← tables.1.resetBucketTraced index
  return (active, backup)

def moveBucketsTraced (params : HashParams K T) (mask : Nat) :
    Nat → Nat → HashTable T × HashTable T → Logged (Access K T) (HashTable T × HashTable T)
  | 0, _, tables => return tables
  | count + 1, index, tables => do
      let tables ← moveBucketTraced params mask index tables
      moveBucketsTraced params mask count (index + 1) tables

def rehashMoveTraced (params : HashParams K T) (h : Hash T) (step : Nat) (isAuto : Bool) :
    Logged (Access K T) (Hash T) := do
  let h ← .ofOption (if h.mRehashIndex = -1 then h.startReHashing else some h)
  let backup ← .ofOption h.mBackup
  let step := if isAuto then calculateReHashStep h.mActive backup else step
  let index := h.mRehashIndex.toNat
  let endIndex :=
    if index < h.mActive.mBucketsNumber then min (index + step) h.mActive.mBucketsNumber
    else index
  let tables ←
    moveBucketsTraced params h.mBucketsMask (endIndex - index) index (h.mActive, backup)
  return { h with
    mActive := tables.1
    mBackup := some tables.2
    mRehashIndex := endIndex
    moved := h.moved + (h.mActive.entries.length - tables.1.entries.length) }

def rehashTraced (params : HashParams K T) (h : Hash T) (step : Nat) (isAuto : Bool) :
    Logged (Access K T) (Hash T) := do
  let h ← rehashMoveTraced params h step isAuto
  return rehashFinish h

def advanceTraced (params : HashParams K T) (h : Hash T) : Logged (Access K T) (Hash T) :=
  if h.isReHashing || h.isNeedReHash params then h.rehashTraced params 2 true else return h

def completeTraced (params : HashParams K T) (h : Hash T) : Logged (Access K T) (Hash T) :=
  if h.isReHashing then h.rehashTraced params h.mActive.mBucketsNumber false else return h

/-! ## Iterators -/

def beginIterTraced (params : HashParams K T) (h : Hash T) :
    Logged (Access K T) (Hash T × Option (HashNode T)) := do
  let h ← h.completeTraced params
  match h.mActive.getBucketHead (firstIndex h.mActive h.mActive.mBucketsNumber 0) with
  | [] => .ofOption none
  | node :: _ => return (h, some node)

def endIterTraced (params : HashParams K T) (h : Hash T) :
    Logged (Access K T) (Hash T × Option (HashNode T)) := do
  let h ← h.completeTraced params
  return (h, none)

def cbeginIterTraced (params : HashParams K T) (h : Hash T) :
    Logged (Access K T) (Hash T × Option (HashNode T)) := do
  let h ← h.completeTraced params
  let index := firstIndex h.mActive h.mActive.mBucketsNumber 0
  if index ≥ h.mActive.mBucketsNumber then return (h, none)
  else return (h, (h.mActive.getBucketHead index).head?)

def cendIterTraced (params : HashParams K T) (h : Hash T) :
    Logged (Access K T) (Hash T × Option (HashNode T)) := do
  let h ← h.completeTraced params
  return (h, none)

def nextTraced (params : HashParams K T) (h : Hash T) (addr : Nat) :
    Logged (Access K T) (Hash T × Option (HashNode T)) := do
  let h ← h.completeTraced params
  let chain ← .ofOption (h.mActive.chainFrom addr)
  match chain with
  | _ :: follower :: _ => return (h, some follower)
  | [node] =>
      let index := params.index h.mBucketsMask (params.getKey node.mValue) + 1
      let index := firstIndex h.mActive (h.mActive.mBucketsNumber - index) index
      if index ≥ h.mBucketsNumber then return (h, none)
      else return (h, (h.mActive.getBucketHead index).head?)
  | [] => .ofOption none

/-! ## Keyed methods -/

def insertEntryTraced (params : HashParams K T) (h : Hash T) (value : T) :
    Logged (Access K T) (Hash T) := do
  let index := params.index h.mBucketsMask (params.getKey value)
  let h ← h.advanceTraced params
  let tmp : HashNode T := ⟨h.newAddr, value⟩
  let h := { h with newAddr := h.newAddr + 1 }
  if h.isReHashing then
    let backup ← .ofOption h.mBackup
    let inserted ← backup.insertNodeTraced index tmp
    return { h with mBackup := some inserted.1 }
  else
    let inserted ← h.mActive.insertNodeTraced index tmp
    return { h with mActive := inserted.1 }

section Keyed

variable [DecidableEq K]

def eraseKeyTraced (params : HashParams K T) (h : Hash T) (index : Nat) (key : K) :
    Logged (Access K T) (Hash T × Bool) :=
  if h.isReHashing then do
    let backup ← .ofOption h.mBackup
    let (backup, found) ← backup.eraseNodeTraced index params.getKey key
    if found then return ({ h with mBackup := some backup }, true)
    else
      let oldIndex := params.index (h.mActive.mBucketsNumber - 1) key
      let (active, status) ← h.mActive.eraseNodeTraced oldIndex params.getKey key
      return ({ h with mActive := active }, status)
  else do
    let (active, status) ← h.mActive.eraseNodeTraced index params.getKey key
    return ({ h with mActive := active }, status)

def eraseTraced (params : HashParams K T) (h : Hash T) (key : K) :
    Logged (Access K T) (Hash T × Bool) := do
  let index := params.index h.mBucketsMask key
  let h ← h.advanceTraced params
  let (h, status) ← h.eraseKeyTraced params index key
  if status && h.isNeedShrink params then
    let h ← h.rehashTraced params 2 true
    return (h, status)
  else
    return (h, status)

def isExistTraced (params : HashParams K T) (h : Hash T) (key : K) :
    Logged (Access K T) (Hash T × Bool) := do
  let index := params.index h.mBucketsMask key
  let h ← h.advanceTraced params
  if h.isReHashing then
    let backup ← .ofOption h.mBackup
    if ← backup.isExistTraced index params.getKey key then return (h, true)
    else
      let oldIndex := params.index (h.mActive.mBucketsNumber - 1) key
      let status ← h.mActive.isExistTraced oldIndex params.getKey key
      return (h, status)
  else
    let status ← h.mActive.isExistTraced index params.getKey key
    return (h, status)

def findTraced (params : HashParams K T) (h : Hash T) (key : K) :
    Logged (Access K T) (Hash T × Option (HashNode T)) := do
  let index := params.index h.mBucketsMask key
  let h ← h.advanceTraced params
  if h.isReHashing then
    let backup ← .ofOption h.mBackup
    let node ← backup.getTraced index params.getKey key
    match node with
    | some node => return (h, some node)
    | none =>
        let oldIndex := params.index (h.mActive.mBucketsNumber - 1) key
        let node ← h.mActive.getTraced oldIndex params.getKey key
        return (h, node)
  else
    let node ← h.mActive.getTraced index params.getKey key
    return (h, node)

/-- One call with every bucket index it uses. -/
def tracedStep (params : HashParams K T) (h : Hash T) :
    HashCall K T → Logged (Access K T) (Hash T × HashAnswer T)
  | .insert value => do
      let h ← h.insertEntryTraced params value
      return (h, .done)
  | .erase key => do
      let r ← h.eraseTraced params key
      return (r.1, .status r.2)
  | .get key => do
      let r ← h.findTraced params key
      return (r.1, .node r.2)
  | .isExist key => do
      let r ← h.isExistTraced params key
      return (r.1, .status r.2)
  | .beginIter => do
      let r ← h.beginIterTraced params
      return (r.1, .node r.2)
  | .endIter => do
      let r ← h.endIterTraced params
      return (r.1, .node r.2)
  | .cbeginIter => do
      let r ← h.cbeginIterTraced params
      return (r.1, .node r.2)
  | .cendIter => do
      let r ← h.cendIterTraced params
      return (r.1, .node r.2)
  | .next addr => do
      let r ← h.nextTraced params addr
      return (r.1, .node r.2)
  | .scan v => do
      let r ← .ofOption (h.scan v)
      return (h, .scanned r.1 r.2)

end Keyed

/-! ## The log changes no result -/

section Erasure

variable (params : HashParams K T) (h : Hash T)

@[simp] theorem result_moveNodeTraced (mask : Nat) (backup : HashTable T) (node : HashNode T) :
    (moveNodeTraced params mask backup node).result =
      some (backup.insertNode (params.index mask (params.getKey node.mValue)) node).1 := rfl

@[simp] theorem result_moveBucketTraced (mask index : Nat) (tables : HashTable T × HashTable T) :
    (moveBucketTraced params mask index tables).result =
      some (moveBucket params mask index tables) := by
  rw [moveBucketTraced, Logged.result_bind,
    Logged.result_foldlM (result_moveNodeTraced params mask), Option.bind_some]
  rfl

@[simp] theorem result_moveBucketsTraced (mask count index : Nat)
    (tables : HashTable T × HashTable T) :
    (moveBucketsTraced params mask count index tables).result =
      some (moveBuckets params mask count index tables) := by
  induction count generalizing index tables with
  | zero => rfl
  | succ count ih =>
      rw [moveBucketsTraced, Logged.result_bind, result_moveBucketTraced, Option.bind_some, ih]
      rfl

@[simp] theorem result_rehashMoveTraced (step : Nat) (isAuto : Bool) :
    (rehashMoveTraced params h step isAuto).result = rehashMove params h step isAuto := by
  by_cases hidle : h.mRehashIndex = -1
  · simp [rehashMoveTraced, rehashMove, hidle]
  · simp [rehashMoveTraced, rehashMove, hidle]

@[simp] theorem result_rehashTraced (step : Nat) (isAuto : Bool) :
    (h.rehashTraced params step isAuto).result = h.rehash params step isAuto := by
  simp [rehashTraced, rehash, Option.map_eq_bind]

@[simp] theorem result_advanceTraced :
    (h.advanceTraced params).result = h.advance params := by
  rw [advanceTraced, advance, Logged.result_ite, result_rehashTraced, Logged.result_pure]

@[simp] theorem result_completeTraced :
    (h.completeTraced params).result = h.complete params := by
  rw [completeTraced, complete, Logged.result_ite, result_rehashTraced, Logged.result_pure]

theorem result_beginIterTraced :
    (h.beginIterTraced params).result = h.beginIter params := by
  rw [beginIterTraced, Logged.result_bind, result_completeTraced, beginIter]
  refine Option.bind_congr fun full _ => ?_
  cases full.mActive.getBucketHead
    (firstIndex full.mActive full.mActive.mBucketsNumber 0) <;> rfl

theorem result_endIterTraced : (h.endIterTraced params).result = h.endIter params := by
  simp [endIterTraced, endIter]

theorem result_cbeginIterTraced :
    (h.cbeginIterTraced params).result = h.cbeginIter params := by
  simp [cbeginIterTraced, cbeginIter]

theorem result_cendIterTraced : (h.cendIterTraced params).result = h.cendIter params := by
  simp [cendIterTraced, cendIter]

theorem result_nextTraced (addr : Nat) :
    (h.nextTraced params addr).result = h.next params addr := by
  rw [nextTraced, Logged.result_bind, result_completeTraced, next]
  refine Option.bind_congr fun full _ => ?_
  rw [Logged.result_bind, Logged.result_ofOption]
  refine Option.bind_congr fun chain _ => ?_
  match chain with
  | [] => rfl
  | [node] => simp
  | _ :: follower :: _ => rfl

theorem result_insertEntryTraced (value : T) :
    (h.insertEntryTraced params value).result = h.insertEntry params value := by
  simp [insertEntryTraced, insertEntry, HashTable.insertNodeTraced]

variable [DecidableEq K]

theorem result_eraseKeyTraced (index : Nat) (key : K) :
    (h.eraseKeyTraced params index key).result = h.eraseKey params index key := by
  simp [eraseKeyTraced, eraseKey, HashTable.eraseNodeTraced]

theorem result_eraseTraced (key : K) :
    (h.eraseTraced params key).result = h.erase params key := by
  simp [eraseTraced, erase, result_eraseKeyTraced]

theorem result_isExistTraced (key : K) :
    (h.isExistTraced params key).result = h.isExist params key := by
  simp [isExistTraced, isExist, HashTable.isExistTraced]

theorem result_findTraced (key : K) :
    (h.findTraced params key).result = h.find params key := by
  simp only [findTraced, find, HashTable.getTraced, Logged.result_bind, Logged.result_ite,
    Logged.result_ofOption, Logged.result_observe, result_advanceTraced]
  refine Option.bind_congr fun middle _ => ?_
  split
  · refine Option.bind_congr fun backup _ => Option.bind_congr fun node _ => ?_
    cases node with
    | some node => rfl
    | none => rw [Logged.result_bind]; rfl
  · rfl

/-- Without its log a traced call is the call. -/
theorem result_tracedStep (call : HashCall K T) :
    (tracedStep params h call).result = hashStep params h call := by
  cases call <;>
    simp [tracedStep, hashStep, Option.map_eq_bind, result_insertEntryTraced, result_eraseTraced,
      result_findTraced, result_isExistTraced, result_beginIterTraced, result_endIterTraced,
      result_cbeginIterTraced, result_cendIterTraced, result_nextTraced]

end Erasure

end Hash

end RedisDB
