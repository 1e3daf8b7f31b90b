import RedisDB.Hash.LoadFactors
import RedisDB.Hash.Table
import RedisDB.Library.Machine
import RedisDB.Util.BitsOp

/-!
# `Hash`, `HashMap` and `HashSet`

The class keeps one table, or two while a rehash is in progress.  A method
answers in a new state, or `none` where the C++ call never returns: a loop that
does not end, a bucket array too large for its constructor, a dangling pointer.
`unsigned long` and `size_t` are both 64-bit words.
-/

namespace RedisDB

open RedisDB.Library RedisDB.Util

variable {K T V : Type}

/-- What the class template is instantiated with: how a key is read off a node's
value, the hasher, and a reading of the two load factors. -/
structure HashParams (K T : Type) where
  getKey : T → K
  mHasher : K → BitVec 64
  factors : LoadFactors

/-- `HashMap<K, V, Hasher>` stores pairs and reads the first component as the key. -/
def HashParams.map (mHasher : K → BitVec 64) (factors : LoadFactors) :
    HashParams K (K × V) :=
  ⟨Prod.fst, mHasher, factors⟩

/-- `HashSet<K, Hasher>` stores the keys themselves. -/
def HashParams.set (mHasher : K → BitVec 64) (factors : LoadFactors) : HashParams K K :=
  ⟨id, mHasher, factors⟩

/-- `mHasher(key) & mask`. -/
def HashParams.index (params : HashParams K T) (mask : Nat) (key : K) : Nat :=
  (params.mHasher key).toNat &&& mask

/-- The fields of `Hash`.  `mRehashIndex` is `-1` when no rehash is in progress.
The last two are no fields of the class: `newAddr` is the allocator's next
address, and `moved` counts the nodes taken out of `mActive` since the rehash
began; no branch reads either. -/
structure Hash (T : Type) where
  mActive : HashTable T
  mBackup : Option (HashTable T)
  mBucketsNumber : Nat
  mBucketsMask : Nat
  mRehashIndex : Int
  newAddr : Nat
  moved : Nat

def MIN_BUCKETS_SIZE : Nat := 4

namespace Hash

/-- The table of the constructor. -/
def emptyTable : HashTable T :=
  ⟨List.replicate 4 [], 0, 4, List.length_replicate, by decide⟩

/-- The constructor. -/
def new : Hash T where
  mActive := emptyTable
  mBackup := none
  mBucketsNumber := 4
  mBucketsMask := 3
  mRehashIndex := -1
  newAddr := 0
  moved := 0

/-- All nodes of both tables. -/
def entries (h : Hash T) : List (HashNode T) :=
  h.mActive.entries ++ (h.mBackup.elim [] HashTable.entries)

/-! ## Rehashing -/

def isReHashing (h : Hash T) : Bool := h.mRehashIndex ≠ -1

def isNeedReHash (params : HashParams K T) (h : Hash T) : Bool :=
  params.factors.exceedsLoad h.mActive.mSize h.mActive.mBucketsNumber

def isNeedShrink (params : HashParams K T) (h : Hash T) : Bool :=
  decide (h.mActive.mSize > MIN_BUCKETS_SIZE) &&
    params.factors.belowShrink h.mActive.mSize h.mActive.mBucketsNumber

/-- The loop of `getNextPower2` on 64-bit words; `none` when it does not end
within `fuel` tests. -/
def nextPower2Loop : Nat → Nat → Nat → Option Nat
  | 0, _, _ => none
  | fuel + 1, init, s =>
      if init < s then nextPower2Loop fuel ((init <<< 1) % 2 ^ 64) s else some init

/-- After 64 shifts the word is zero and stays zero. -/
def getNextPower2 (s : Nat) : Option Nat := nextPower2Loop 65 MIN_BUCKETS_SIZE s

/-- The block of `rehash` that allocates the new table. -/
def startReHashing (h : Hash T) : Option (Hash T) := do
  let mBucketsNumber ← getNextPower2 h.mActive.mSize
  let backup ← HashTable.new? mBucketsNumber
  return { h with
    mBucketsNumber := mBucketsNumber
    mBackup := some backup
    mRehashIndex := 0
    mBucketsMask := mBucketsNumber - 1
    moved := 0 }

def calculateReHashStep (active backup : HashTable T) : Nat :=
  if active.mBucketsNumber > backup.mBucketsNumber then
    active.mBucketsNumber / backup.mBucketsNumber
  else backup.mBucketsNumber / active.mBucketsNumber

/-- The body of the outer loop of `rehash`: every node of one bucket is inserted
into the backup table, then the bucket is reset. -/
def moveBucket (params : HashParams K T) (mask index : Nat)
    (tables : HashTable T × HashTable T) : HashTable T × HashTable T :=
  (tables.1.resetBucket index,
    (tables.1.getBucketHead index).foldl
      (fun backup node =>
        (backup.insertNode (params.index mask (params.getKey node.mValue)) node).1)
      tables.2)

/-- The outer loop of `rehash`, `count` buckets from `index` on. -/
def moveBuckets (params : HashParams K T) (mask : Nat) :
    Nat → Nat → HashTable T × HashTable T → HashTable T × HashTable T
  | 0, _, tables => tables
  | count + 1, index, tables =>
      moveBuckets params mask count (index + 1) (moveBucket params mask index tables)

/-- `rehash` up to the end of its move loop.  The bucket counts fit an `int`, so
passing one as `step` loses nothing. -/
def rehashMove (params : HashParams K T) (h : Hash T) (step : Nat) (isAuto : Bool) :
    Option (Hash T) := do
  let h ← if h.mRehashIndex = -1 then h.startReHashing else some h
  let backup ← h.mBackup
  let step := if isAuto then calculateReHashStep h.mActive backup else step
  let index := h.mRehashIndex.toNat
  let endIndex :=
    if index < h.mActive.mBucketsNumber then min (index + step) h.mActive.mBucketsNumber
    else index
  let tables := moveBuckets params h.mBucketsMask (endIndex - index) index (h.mActive, backup)
  return { h with
    mActive := tables.1
    mBackup := some tables.2
    mRehashIndex := endIndex
    moved := h.moved + (h.mActive.entries.length - tables.1.entries.length) }

/-- The end of `rehash`: once all buckets are moved the tables are swapped and
the old one is deleted, with whatever it holds. -/
def rehashFinish (h : Hash T) : Hash T :=
  match h.mBackup with
  | some backup =>
      if h.mRehashIndex = h.mActive.mBucketsNumber then
        { h with mActive := backup, mBackup := none, mRehashIndex := -1 }
      else h
  | none => h

def rehash (params : HashParams K T) (h : Hash T) (step : Nat) (isAuto : Bool) :
    Option (Hash T) :=
  (rehashMove params h step isAuto).map rehashFinish

/-- `if(isReHashing() || isNeedReHash()) rehash();`, the opening of every keyed method. -/
def advance (params : HashParams K T) (h : Hash T) : Option (Hash T) :=
  if h.isReHashing || h.isNeedReHash params then h.rehash params 2 true else some h

/-- `if(isReHashing()) rehash(mActive->mBucketsNumber, false);`, the opening of
every iterator method. -/
def complete (params : HashParams K T) (h : Hash T) : Option (Hash T) :=
  if h.isReHashing then h.rehash params h.mActive.mBucketsNumber false else some h

/-! ## Iterators -/

/-- The search of an iterator: the first index from `index` on whose bucket is not
empty, or the one after `count` buckets. -/
def firstIndex (table : HashTable T) : Nat → Nat → Nat
  | 0, index => index
  | count + 1, index =>
      match table.getBucketHead index with
      | [] => firstIndex table count (index + 1)
      | _ :: _ => index

/-- `begin()`.  Its search has no bound: past the array `getBucketHead` answers
`nullptr` for ever, so it returns only when some bucket is not empty. -/
def beginIter (params : HashParams K T) (h : Hash T) :
    Option (Hash T × Option (HashNode T)) := do
  let h ← h.complete params
  match h.mActive.getBucketHead (firstIndex h.mActive h.mActive.mBucketsNumber 0) with
  | [] => none
  | node :: _ => some (h, some node)

def endIter (params : HashParams K T) (h : Hash T) :
    Option (Hash T × Option (HashNode T)) := do
  let h ← h.complete params
  return (h, none)

def cbeginIter (params : HashParams K T) (h : Hash T) :
    Option (Hash T × Option (HashNode T)) := do
  let h ← h.complete params
  let index := firstIndex h.mActive h.mActive.mBucketsNumber 0
  if index ≥ h.mActive.mBucketsNumber then return (h, none)
  else return (h, (h.mActive.getBucketHead index).head?)

def cendIter (params : HashParams K T) (h : Hash T) :
    Option (Hash T × Option (HashNode T)) := do
  let h ← h.complete params
  return (h, none)

/-- `next(node)`, the node given by its address. -/
def next (params : HashParams K T) (h : Hash T) (addr : Nat) :
    Option (Hash T × Option (HashNode T)) := do
  let h ← h.complete params
  let chain ← h.mActive.chainFrom addr
  match chain with
  | _ :: follower :: _ => some (h, some follower)
  | [node] =>
      let index := params.index h.mBucketsMask (params.getKey node.mValue) + 1
      let index := firstIndex h.mActive (h.mActive.mBucketsNumber - index) index
      if index ≥ h.mBucketsNumber then some (h, none)
      else some (h, (h.mActive.getBucketHead index).head?)
  | [] => none

/-! ## Keyed methods -/

section Keyed

variable [DecidableEq K]

/-- The body `HashMap::insert` and `HashSet::insert` share. -/
def insertEntry (params : HashParams K T) (h : Hash T) (value : T) : Option (Hash T) := do
  let index := params.index h.mBucketsMask (params.getKey value)
  let h ← h.advance params
  let tmp : HashNode T := ⟨h.newAddr, value⟩
  let h := { h with newAddr := h.newAddr + 1 }
  if h.isReHashing then
    let backup ← h.mBackup
    return { h with mBackup := some (backup.insertNode index tmp).1 }
  else
    return { h with mActive := (h.mActive.insertNode index tmp).1 }

/-- The middle of `Hash::erase`: unlink the key from the new table, else from the old. -/
def eraseKey (params : HashParams K T) (h : Hash T) (index : Nat) (key : K) :
    Option (Hash T × Bool) :=
  if h.isReHashing then do
    let backup ← h.mBackup
    let (backup, found) := backup.eraseNode params.getKey index key
    if found then some ({ h with mBackup := some backup }, true)
    else
      let oldIndex := params.index (h.mActive.mBucketsNumber - 1) key
      let (active, status) := h.mActive.eraseNode params.getKey oldIndex key
      some ({ h with mActive := active }, status)
  else
    let (active, status) := h.mActive.eraseNode params.getKey index key
    some ({ h with mActive := active }, status)

def erase (params : HashParams K T) (h : Hash T) (key : K) : Option (Hash T × Bool) := do
  let index := params.index h.mBucketsMask key
  let h ← h.advance params
  let (h, status) ← h.eraseKey params index key
  if status && h.isNeedShrink params then
    let h ← h.rehash params 2 true
    return (h, status)
  else
    return (h, status)

def isExist (params : HashParams K T) (h : Hash T) (key : K) : Option (Hash T × Bool) := do
  let index := params.index h.mBucketsMask key
  let h ← h.advance params
  if h.isReHashing then
    let backup ← h.mBackup
    if backup.isExist params.getKey index key then return (h, true)
    else
      let oldIndex := params.index (h.mActive.mBucketsNumber - 1) key
      return (h, h.mActive.isExist params.getKey oldIndex key)
  else
    return (h, h.mActive.isExist params.getKey index key)

/-- The node `HashMap::get` looks up, `none` for `nullptr`. -/
def find (params : HashParams K T) (h : Hash T) (key : K) :
    Option (Hash T × Option (HashNode T)) := do
  let index := params.index h.mBucketsMask key
  let h ← h.advance params
  if h.isReHashing then
    let backup ← h.mBackup
    let node ← backup.get params.getKey index key
    match node with
    | some node => return (h, some node)
    | none =>
        let oldIndex := params.index (h.mActive.mBucketsNumber - 1) key
        let node ← h.mActive.get params.getKey oldIndex key
        return (h, node)
  else
    let node ← h.mActive.get params.getKey index key
    return (h, node)

end Keyed

/-! ## `scan` -/

/-- The three assignments that increment the reversed cursor under a mask. -/
def nextCursor (mask v : BitVec 64) : BitVec 64 :=
  let v := v ||| ~~~mask
  let v := BitsOp.rev v
  let v := v + 1
  BitsOp.rev v

/-- The mask of a table as a word. -/
def wordMask (table : HashTable T) : BitVec 64 := BitVec.ofNat 64 (table.mBucketsNumber - 1)

/-- The `do … while` loop of `scan` over the larger table. -/
def scanLoop (large : HashTable T) (m0 m1 : BitVec 64) :
    Nat → BitVec 64 → List (HashNode T) → Option (BitVec 64 × List (HashNode T))
  | 0, _, _ => none
  | fuel + 1, v, values =>
      let values := values ++ large.getBucketHead (v &&& m1).toNat
      let v := nextCursor m1 v
      if v &&& (m0 ^^^ m1) ≠ 0 then scanLoop large m0 m1 fuel v values
      else some (v, values)

/-- The cursor `scan` returns and the nodes whose values it pushes, in order.
The loop over the larger table meets each of its buckets at most once. -/
def scan (h : Hash T) (v : BitVec 64) : Option (BitVec 64 × List (HashNode T)) :=
  if h.mActive.mSize = 0 then some (0, [])
  else if !h.isReHashing then
    let m0 := wordMask h.mActive
    some (nextCursor m0 v, h.mActive.getBucketHead (v &&& m0).toNat)
  else do
    let backup ← h.mBackup
    let (t0, t1) :=
      if h.mActive.mBucketsNumber > backup.mBucketsNumber then (backup, h.mActive)
      else (h.mActive, backup)
    let m0 := wordMask t0
    let m1 := wordMask t1
    scanLoop t1 m0 m1 t1.mBucketsNumber v (t0.getBucketHead (v &&& m0).toNat)

end Hash

/-! ## The methods of the two derived classes -/

section Derived

variable [DecidableEq K]

def HashMap.insert (params : HashParams K (K × V)) (h : Hash (K × V)) (key : K) (v : V) :
    Option (Hash (K × V)) :=
  h.insertEntry params (key, v)

/-- `std::out_of_range`, with its text. -/
inductive OutOfRange where
  | outOfRange (text : String)
  deriving DecidableEq, Repr

def HashMap.get (params : HashParams K (K × V)) (h : Hash (K × V)) (key : K) :
    Option (Hash (K × V) × Except OutOfRange V) := do
  let (h, node) ← h.find params key
  match node with
  | some node => return (h, .ok node.mValue.2)
  | none => return (h, .error (.outOfRange "key not exist in hash"))

def HashSet.insert (params : HashParams K K) (h : Hash K) (key : K) : Option (Hash K) :=
  h.insertEntry params key

end Derived

/-! ## The container as a machine -/

/-- The public methods, with their arguments. -/
inductive HashCall (K T : Type) where
  | insert (value : T)
  | erase (key : K)
  | get (key : K)
  | isExist (key : K)
  | beginIter
  | endIter
  | cbeginIter
  | cendIter
  | next (addr : Nat)
  | scan (v : BitVec 64)

/-- What a method hands back; a `get` that throws has found no node. -/
inductive HashAnswer (T : Type) where
  | done
  | status (found : Bool)
  | node (found : Option (HashNode T))
  | scanned (v : BitVec 64) (values : List (HashNode T))

/-- One call.  With `HashParams.map` these are the calls of a `HashMap`, with
`HashParams.set` those of a `HashSet`, which makes no `get`. -/
def hashStep [DecidableEq K] (params : HashParams K T) (h : Hash T) :
    HashCall K T → Option (Hash T × HashAnswer T)
  | .insert value => (h.insertEntry params value).map fun h => (h, .done)
  | .erase key => (h.erase params key).map fun r => (r.1, .status r.2)
  | .get key => (h.find params key).map fun r => (r.1, .node r.2)
  | .isExist key => (h.isExist params key).map fun r => (r.1, .status r.2)
  | .beginIter => (h.beginIter params).map fun r => (r.1, .node r.2)
  | .endIter => (h.endIter params).map fun r => (r.1, .node r.2)
  | .cbeginIter => (h.cbeginIter params).map fun r => (r.1, .node r.2)
  | .cendIter => (h.cendIter params).map fun r => (r.1, .node r.2)
  | .next addr => (h.next params addr).map fun r => (r.1, .node r.2)
  | .scan v => (h.scan v).map fun r => (h, .scanned r.1 r.2)

/-- The container, freshly constructed, with its calls. -/
def hashMachine [DecidableEq K] (params : HashParams K T) :
    Machine (Hash T) (HashCall K T) (HashAnswer T) :=
  ⟨Hash.new, hashStep params⟩

/-- A map from numbers that hash to themselves. -/
def HashParams.identity : HashParams Nat (Nat × Nat) :=
  HashParams.map (BitVec.ofNat 64) LoadFactors.exact

/-- Insertions of the given keys, each with itself as its value. -/
def insertions (keys : List Nat) : List (HashCall Nat (Nat × Nat)) :=
  keys.map fun key => .insert (key, key)

end RedisDB
