import RedisDB.Library.Chains
import RedisDB.Util.IntType

/-!
# `HashNode` and `HashTable`

A table is an array of singly linked chains.  A chain is the list of the nodes
met along `mNext`, so `nullptr` is the empty list and a node pointer is the
suffix it heads.  The pointer itself is kept as `addr`: two nodes with equal
contents are still two nodes.
-/

namespace RedisDB

open RedisDB.Library

variable {T K : Type}

/-- A node with the address the allocator gave it. -/
structure HashNode (T : Type) where
  addr : Nat
  mValue : T
  deriving DecidableEq, Repr

/-- The bucket array with its two counters. -/
structure HashTable (T : Type) where
  mNodes : List (List (HashNode T))
  mSize : Nat
  mBucketsNumber : Nat
  mNodes_length : mNodes.length = mBucketsNumber
  mBucketsNumber_le : mBucketsNumber ≤ INT_MAX

namespace HashTable

/-- The constructor.  Its loop counts the buckets in an `int`, which overflows
when there are more than `INT_MAX` of them: no table that large is ever made. -/
def new? (buck : Nat) : Option (HashTable T) :=
  if hbuck : buck ≤ INT_MAX then
    some ⟨List.replicate buck [], 0, buck, List.length_replicate, hbuck⟩
  else none

def getBucketHead (table : HashTable T) (index : Nat) : List (HashNode T) :=
  if index ≥ table.mBucketsNumber then [] else table.mNodes.getD index []

/-- The assignment `mNodes[index] = chain`. -/
def setChain (table : HashTable T) (index : Nat) (chain : List (HashNode T)) :
    HashTable T :=
  { table with
    mNodes := table.mNodes.set index chain
    mNodes_length := by rw [List.length_set]; exact table.mNodes_length }

def resetBucket (table : HashTable T) (index : Nat) : HashTable T :=
  table.setChain index []

def insertNode (table : HashTable T) (index : Nat) (node : HashNode T) :
    HashTable T × Bool :=
  if index ≥ table.mBucketsNumber then (table, false)
  else
    let next :=
      match table.mNodes.getD index [] with
      | [] => table.setChain index [node]
      | head :: rest => table.setChain index (node :: head :: rest)
    ({ next with mSize := next.mSize + 1 }, true)

section Lookup

variable [DecidableEq K] (getKey : T → K)

/-- The walk of `HashTable::get` along one chain. -/
def walk (key : K) : List (HashNode T) → Option (HashNode T)
  | [] => none
  | head :: next => if getKey head.mValue = key then some head else walk key next

/-- `HashTable::get` reads `mNodes[index]` unchecked; the outer `none` stands
for a read past the array. -/
def get (table : HashTable T) (index : Nat) (key : K) : Option (Option (HashNode T)) :=
  table.mNodes[index]?.map (walk getKey key)

/-- The loop of `HashTable::isExist`, entered with the chain after `head`. -/
def isExistAfter (key : K) : List (HashNode T) → Bool
  | [] => false
  | next :: rest => if getKey next.mValue = key then true else isExistAfter key rest

def isExist (table : HashTable T) (index : Nat) (key : K) : Bool :=
  if index ≥ table.mBucketsNumber then false
  else
    match table.mNodes.getD index [] with
    | [] => false
    | head :: rest =>
        if getKey head.mValue = key then true else isExistAfter getKey key rest

/-- The loop of `HashTable::eraseNode`: the chain after `head` with its first
match unlinked, `none` when there is no match. -/
def eraseAfter (key : K) : List (HashNode T) → Option (List (HashNode T))
  | [] => none
  | next :: rest =>
      if getKey next.mValue = key then some rest
      else (eraseAfter key rest).map (next :: ·)

def eraseNode (table : HashTable T) (index : Nat) (key : K) : HashTable T × Bool :=
  if index ≥ table.mBucketsNumber then (table, false)
  else
    match table.mNodes.getD index [] with
    | [] => (table, false)
    | head :: rest =>
        if getKey head.mValue = key then
          ({ table.setChain index rest with mSize := table.mSize - 1 }, true)
        else
          match eraseAfter getKey key rest with
          | none => (table, false)
          | some remaining =>
              ({ table.setChain index (head :: remaining) with
                  mSize := table.mSize - 1 }, true)

end Lookup

/-- All nodes of the table, bucket by bucket. -/
def entries (table : HashTable T) : List (HashNode T) :=
  table.mNodes.flatten

/-- The chain that starts at the node a pointer refers to. -/
def chainFrom (table : HashTable T) (addr : Nat) : Option (List (HashNode T)) :=
  table.mNodes.findSome? fun chain =>
    match chain.dropWhile (fun node => node.addr ≠ addr) with
    | [] => none
    | node :: rest => some (node :: rest)

/-! ## Chains and contents -/

theorem getBucketHead_of_lt {table : HashTable T} {index : Nat}
    (hindex : index < table.mBucketsNumber) :
    table.getBucketHead index = table.mNodes.getD index [] := by
  simp [getBucketHead, Nat.not_le.mpr hindex]

theorem getBucketHead_of_ge {table : HashTable T} {index : Nat}
    (hindex : table.mBucketsNumber ≤ index) : table.getBucketHead index = [] := by
  simp [getBucketHead, hindex]

theorem mem_entries {table : HashTable T} {node : HashNode T} :
    node ∈ table.entries ↔ ∃ index, node ∈ table.getBucketHead index := by
  rw [entries, mem_flatten_iff_getD]
  constructor
  · rintro ⟨index, hindex, hnode⟩
    rw [table.mNodes_length] at hindex
    exact ⟨index, by rwa [getBucketHead_of_lt hindex]⟩
  · rintro ⟨index, hnode⟩
    by_cases hindex : index < table.mBucketsNumber
    · rw [getBucketHead_of_lt hindex] at hnode
      exact ⟨index, by rwa [table.mNodes_length], hnode⟩
    · rw [getBucketHead_of_ge (Nat.not_lt.mp hindex)] at hnode
      cases hnode

/-- A chain is only found below the bucket count. -/
theorem lt_of_mem_getBucketHead {table : HashTable T} {node : HashNode T} {index : Nat}
    (hnode : node ∈ table.getBucketHead index) : index < table.mBucketsNumber := by
  by_contra hindex
  rw [getBucketHead_of_ge (Nat.not_lt.mp hindex)] at hnode
  cases hnode

/-- What a table holds besides the chain of one bucket. -/
theorem entries_perm_outside {table : HashTable T} {index : Nat}
    (hindex : index < table.mBucketsNumber) :
    table.entries.Perm (table.getBucketHead index ++ outside table.mNodes index) := by
  have hlength : index < table.mNodes.length := by rwa [table.mNodes_length]
  rw [getBucketHead_of_lt hindex, entries]
  simpa [hlength] using flatten_perm_outside hlength

@[simp] theorem setChain_mBucketsNumber (table : HashTable T) (index : Nat)
    (chain : List (HashNode T)) :
    (table.setChain index chain).mBucketsNumber = table.mBucketsNumber := rfl

theorem getBucketHead_setChain {table : HashTable T} {index : Nat} (other : Nat)
    (chain : List (HashNode T)) (hindex : index < table.mBucketsNumber) :
    (table.setChain index chain).getBucketHead other =
      if other = index then chain else table.getBucketHead other := by
  have hlength : index < table.mNodes.length := by rwa [table.mNodes_length]
  simp only [getBucketHead, setChain_mBucketsNumber]
  by_cases hsame : other = index
  · subst other
    simp [setChain, hlength, Nat.not_le.mpr hindex]
  · rw [if_neg hsame]
    simp [setChain, List.getD_eq_getElem?_getD, List.getElem?_set_ne (Ne.symm hsame)]

theorem entries_setChain_perm {table : HashTable T} {index : Nat}
    (chain : List (HashNode T)) (hindex : index < table.mBucketsNumber) :
    (table.setChain index chain).entries.Perm (chain ++ outside table.mNodes index) :=
  flatten_set_perm (by rwa [table.mNodes_length])

/-! ## `HashTable(size_t)` and `resetBucket` -/

theorem new?_eq_some {buck : Nat} {table : HashTable T} (hnew : new? buck = some table) :
    table.mBucketsNumber = buck ∧ table.mSize = 0 ∧ table.entries = [] ∧
      ∀ index, table.getBucketHead index = [] := by
  unfold new? at hnew
  split at hnew
  · cases hnew
    refine ⟨rfl, rfl, by simp [entries], fun index => ?_⟩
    simp only [getBucketHead]
    split
    · rfl
    · rw [List.getD_eq_getElem?_getD, List.getElem?_replicate]
      split <;> rfl
  · cases hnew

theorem new?_isSome {buck : Nat} (hbuck : buck ≤ INT_MAX) :
    ∃ table : HashTable T, new? buck = some table := by
  simp [new?, hbuck]

theorem getBucketHead_resetBucket {table : HashTable T} {index other : Nat}
    (hindex : index < table.mBucketsNumber) :
    (table.resetBucket index).getBucketHead other =
      if other = index then [] else table.getBucketHead other :=
  getBucketHead_setChain other [] hindex

/-- Emptying a bucket takes its chain out of the contents. -/
theorem entries_resetBucket_perm {table : HashTable T} {index : Nat}
    (hindex : index < table.mBucketsNumber) :
    table.entries.Perm (table.getBucketHead index ++ (table.resetBucket index).entries) :=
  (entries_perm_outside hindex).trans
    ((entries_setChain_perm [] hindex).symm.append_left _)

/-! ## `insertNode` -/

theorem insertNode_of_lt {table : HashTable T} {index : Nat} {node : HashNode T}
    (hindex : index < table.mBucketsNumber) :
    table.insertNode index node =
      ({ table.setChain index (node :: table.getBucketHead index) with
          mSize := table.mSize + 1 }, true) := by
  rw [getBucketHead_of_lt hindex, insertNode, if_neg (Nat.not_le.mpr hindex)]
  cases table.mNodes.getD index [] <;> rfl

@[simp] theorem insertNode_mBucketsNumber (table : HashTable T) (index : Nat)
    (node : HashNode T) :
    (table.insertNode index node).1.mBucketsNumber = table.mBucketsNumber := by
  by_cases hindex : index < table.mBucketsNumber
  · rw [insertNode_of_lt hindex]; rfl
  · simp [insertNode, Nat.not_lt.mp hindex]

theorem insertNode_mSize {table : HashTable T} {index : Nat} (node : HashNode T)
    (hindex : index < table.mBucketsNumber) :
    (table.insertNode index node).1.mSize = table.mSize + 1 := by
  rw [insertNode_of_lt hindex]

theorem getBucketHead_insertNode {table : HashTable T} {index other : Nat}
    {node : HashNode T} (hindex : index < table.mBucketsNumber) :
    (table.insertNode index node).1.getBucketHead other =
      if other = index then node :: table.getBucketHead index
      else table.getBucketHead other := by
  rw [insertNode_of_lt hindex]
  exact getBucketHead_setChain other _ hindex

theorem entries_insertNode_perm {table : HashTable T} {index : Nat} (node : HashNode T)
    (hindex : index < table.mBucketsNumber) :
    (table.insertNode index node).1.entries.Perm (node :: table.entries) := by
  rw [insertNode_of_lt hindex]
  exact (entries_setChain_perm _ hindex).trans ((entries_perm_outside hindex).symm.cons node)

/-! ## The three chain walks -/

section Lookup

variable [DecidableEq K] {getKey : T → K}

/-- The walk stops at the first match. -/
theorem walk_eq_some {key : K} {chain : List (HashNode T)} {node : HashNode T}
    (hwalk : walk getKey key chain = some node) :
    getKey node.mValue = key ∧ node ∈ chain := by
  induction chain with
  | nil => cases hwalk
  | cons head rest ih =>
      rw [walk] at hwalk
      split at hwalk
      · rename_i hkey
        cases hwalk
        exact ⟨hkey, List.mem_cons_self⟩
      · obtain ⟨hkey, hmem⟩ := ih hwalk
        exact ⟨hkey, List.mem_cons_of_mem _ hmem⟩

theorem walk_eq_none {key : K} {chain : List (HashNode T)} :
    walk getKey key chain = none ↔ ∀ node ∈ chain, getKey node.mValue ≠ key := by
  induction chain with
  | nil => simp [walk]
  | cons head rest ih =>
      rw [walk]
      split
      · rename_i hkey
        simp [hkey]
      · rename_i hkey
        simp [ih, hkey]

theorem get_of_lt {table : HashTable T} {index : Nat} (getKey : T → K) (key : K)
    (hindex : index < table.mBucketsNumber) :
    table.get getKey index key = some (walk getKey key (table.getBucketHead index)) := by
  have hlength : index < table.mNodes.length := by rwa [table.mNodes_length]
  rw [getBucketHead_of_lt hindex, get, List.getD_eq_getElem?_getD,
    List.getElem?_eq_getElem hlength]
  rfl

theorem isExistAfter_eq_walk (key : K) (chain : List (HashNode T)) :
    isExistAfter getKey key chain = (walk getKey key chain).isSome := by
  induction chain with
  | nil => rfl
  | cons head rest ih => simp only [isExistAfter, walk]; split <;> simp [ih]

/-- `isExist` finds a key where `get` does. -/
theorem isExist_eq_walk (table : HashTable T) (index : Nat) (key : K) :
    table.isExist getKey index key =
      (walk getKey key (table.getBucketHead index)).isSome := by
  unfold isExist getBucketHead
  split
  · rfl
  · cases table.mNodes.getD index [] with
    | nil => rfl
    | cons head rest =>
        simp only [walk]
        split
        · rfl
        · exact isExistAfter_eq_walk key rest

/-- The first match of a chain, and the chain around it. -/
theorem walk_split {key : K} {chain : List (HashNode T)} {node : HashNode T}
    (hwalk : walk getKey key chain = some node) :
    ∃ before after, chain = before ++ node :: after ∧
      ∀ other ∈ before, getKey other.mValue ≠ key := by
  induction chain with
  | nil => cases hwalk
  | cons head rest ih =>
      rw [walk] at hwalk
      split at hwalk
      · cases hwalk
        exact ⟨[], rest, rfl, by simp⟩
      · rename_i hkey
        obtain ⟨before, after, rfl, hbefore⟩ := ih hwalk
        exact ⟨head :: before, after, rfl, by simpa [hkey] using hbefore⟩

theorem eraseAfter_of_walk {key : K} {before after : List (HashNode T)}
    {node : HashNode T} (hbefore : ∀ other ∈ before, getKey other.mValue ≠ key)
    (hkey : getKey node.mValue = key) :
    eraseAfter getKey key (before ++ node :: after) = some (before ++ after) := by
  induction before with
  | nil => simp [eraseAfter, hkey]
  | cons head rest ih =>
      have hhead : getKey head.mValue ≠ key := hbefore head List.mem_cons_self
      have hrest := ih fun other hother => hbefore other (List.mem_cons_of_mem _ hother)
      simp [eraseAfter, hhead, hrest]

theorem eraseAfter_eq_none {key : K} {chain : List (HashNode T)}
    (hnone : ∀ node ∈ chain, getKey node.mValue ≠ key) :
    eraseAfter getKey key chain = none := by
  induction chain with
  | nil => rfl
  | cons head rest ih =>
      have hhead : getKey head.mValue ≠ key := hnone head List.mem_cons_self
      have hrest := ih fun other hother => hnone other (List.mem_cons_of_mem _ hother)
      simp [eraseAfter, hhead, hrest]

/-- `eraseNode` fails, and changes nothing, exactly where the walk finds nothing. -/
theorem eraseNode_of_walk_none {table : HashTable T} {index : Nat} {key : K}
    (hwalk : walk getKey key (table.getBucketHead index) = none) :
    table.eraseNode getKey index key = (table, false) := by
  unfold eraseNode
  split
  · rfl
  · rename_i hindex
    rw [getBucketHead_of_lt (Nat.not_le.mp hindex)] at hwalk
    cases hchain : table.mNodes.getD index [] with
    | nil => rfl
    | cons head rest =>
        rw [hchain, walk_eq_none] at hwalk
        have hhead : getKey head.mValue ≠ key := hwalk head List.mem_cons_self
        have hrest : eraseAfter getKey key rest = none :=
          eraseAfter_eq_none fun node hnode => hwalk node (List.mem_cons_of_mem _ hnode)
        simp [hhead, hrest]

/-- `eraseNode` unlinks the node the walk finds. -/
theorem eraseNode_of_walk_some {table : HashTable T} {index : Nat} {key : K}
    {node : HashNode T}
    (hwalk : walk getKey key (table.getBucketHead index) = some node) :
    ∃ before after, table.getBucketHead index = before ++ node :: after ∧
      (∀ other ∈ before, getKey other.mValue ≠ key) ∧
      table.eraseNode getKey index key =
        ({ table.setChain index (before ++ after) with
            mSize := table.mSize - 1 }, true) := by
  obtain ⟨hkey, hmem⟩ := walk_eq_some hwalk
  have hindex := lt_of_mem_getBucketHead hmem
  obtain ⟨before, after, hchain, hbefore⟩ := walk_split hwalk
  refine ⟨before, after, hchain, hbefore, ?_⟩
  rw [getBucketHead_of_lt hindex] at hchain
  rw [eraseNode, if_neg (Nat.not_le.mpr hindex), hchain]
  cases before with
  | nil => simp [hkey]
  | cons head rest =>
      have hhead : getKey head.mValue ≠ key := hbefore head List.mem_cons_self
      have herase : eraseAfter getKey key (rest ++ node :: after) = some (rest ++ after) :=
        eraseAfter_of_walk
          (fun other hother => hbefore other (List.mem_cons_of_mem _ hother)) hkey
      simp [hhead, herase]

/-- One node has left the table: what its counters, contents and chains became. -/
structure Unlinked (table : HashTable T) (node : HashNode T) (next : HashTable T) : Prop where
  buckets : next.mBucketsNumber = table.mBucketsNumber
  size : next.mSize = table.mSize - 1
  contents : table.entries.Perm (node :: next.entries)
  chains : ∀ index, (next.getBucketHead index).Sublist (table.getBucketHead index)

/-- `eraseNode` unlinks exactly the node the walk finds. -/
theorem eraseNode_spec {table : HashTable T} {index : Nat} {key : K} {node : HashNode T}
    (hwalk : walk getKey key (table.getBucketHead index) = some node) :
    ∃ next : HashTable T, table.eraseNode getKey index key = (next, true) ∧
      Unlinked table node next := by
  have hindex := lt_of_mem_getBucketHead (walk_eq_some hwalk).2
  obtain ⟨before, after, hchain, -, herase⟩ := eraseNode_of_walk_some hwalk
  refine ⟨_, herase, rfl, rfl, ?_, fun other => ?_⟩
  · have hold := entries_perm_outside hindex
    have hnew := entries_setChain_perm (before ++ after) hindex
    rw [hchain, List.append_assoc] at hold
    rw [List.append_assoc] at hnew
    exact hold.trans (List.perm_middle.trans (hnew.symm.cons node))
  · have hget := getBucketHead_setChain other (before ++ after) hindex
    change (HashTable.getBucketHead (table.setChain index (before ++ after)) other).Sublist _
    rw [hget]
    split
    · rename_i hsame
      rw [hsame, hchain]
      exact List.Sublist.append_left (List.sublist_cons_self node after) before
    · exact List.Sublist.refl _

end Lookup

end HashTable

end RedisDB
