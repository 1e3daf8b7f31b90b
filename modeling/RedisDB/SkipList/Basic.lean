import Mathlib.Order.Lattice
import RedisDB.Util.IntType

/-!
# `SkipList`

Nodes live in a heap and a pointer is an address in it; `nullptr` is `none`.
A read or a write outside an array, through a null pointer or of a freed node
is undefined behaviour, and so is every result of it: such a step, and a loop
that never ends, is the outer `none`.  So is an overflow of the `int` counters:
`int` is the type they are counted in, `int32` that of the source.
-/

namespace RedisDB

/-- `std::vector::resize`. -/
def vectorResize {T : Type} (vector : List T) (n : Nat) (fill : T) : List T :=
  vector.take n ++ List.replicate (n - vector.length) fill

/-- The assignment `vector[i] = x`. -/
def vectorSet {T : Type} (vector : List T) (i : Nat) (x : T) : Option (List T) :=
  if i < vector.length then some (vector.set i x) else none

def ZSKIPLIST_MAXLEVEL : Nat := 64

structure SkipListNode (K V : Type) where
  mNexts : List (Option Nat)
  mBackword : Option Nat
  mValue : V
  mKey : K
  mSpans : List Int
  deriving DecidableEq, Repr

namespace SkipListNode

variable {K V : Type}

def setLevelNum (node : SkipListNode K V) (l : Nat) : SkipListNode K V :=
  { node with
    mNexts := vectorResize node.mNexts l none
    mSpans := vectorResize node.mSpans l 0 }

/-- The constructor without a level. -/
def new (k : K) (v : V) : SkipListNode K V :=
  ⟨[], none, v, k, []⟩

/-- The constructor with a level. -/
def newLevel (k : K) (v : V) (l : Nat) : SkipListNode K V :=
  (new k v).setLevelNum l

end SkipListNode

/-- The members of a `SkipList` and the heap its nodes live in; `newAddr` is the
address the next allocation returns.  What is computed for `mLength` and `mSpans` is a
value of `int`, or the call has no result. -/
structure SkipList (K V : Type) where
  heap : Nat → Option (SkipListNode K V)
  newAddr : Nat
  mHead : Nat
  mTail : Nat
  mMaxLevel : Nat
  mLength : Int

namespace SkipList

variable {K V A : Type}

/-! ## Reads and writes through a pointer -/

/-- The read `nd->mNexts[level]`. -/
def nextAt (s : SkipList K V) (nd level : Nat) : Option (Option Nat) :=
  (s.heap nd).bind fun node => node.mNexts[level]?

/-- The read `nd->mSpans[level]`. -/
def spanAt (s : SkipList K V) (nd level : Nat) : Option Int :=
  (s.heap nd).bind fun node => node.mSpans[level]?

def backAt (s : SkipList K V) (nd : Nat) : Option (Option Nat) :=
  (s.heap nd).map (·.mBackword)

def payloadAt (s : SkipList K V) (nd : Nat) : Option (K × V) :=
  (s.heap nd).map fun node => (node.mKey, node.mValue)

def keyAt (s : SkipList K V) (nd : Nat) : Option K :=
  (s.payloadAt nd).map (·.1)

/-- The number of levels a node takes part in. -/
def heightAt (s : SkipList K V) (nd : Nat) : Option Nat :=
  (s.heap nd).map (·.mNexts.length)

/-- A node allocated or overwritten. -/
def put (s : SkipList K V) (nd : Nat) (node : SkipListNode K V) : SkipList K V :=
  { s with heap := fun addr => if addr = nd then some node else s.heap addr }

/-- The assignment `nd->mNexts[level] = next`. -/
def setNext (s : SkipList K V) (nd level : Nat) (next : Option Nat) :
    Option (SkipList K V) := do
  let node ← s.heap nd
  let nexts ← vectorSet node.mNexts level next
  s.put nd { node with mNexts := nexts }

/-- The assignment `nd->mSpans[level] = span`. -/
def setSpan (s : SkipList K V) (nd level : Nat) (span : Int) : Option (SkipList K V) := do
  let node ← s.heap nd
  let spans ← vectorSet node.mSpans level span
  s.put nd { node with mSpans := spans }

/-- The assignment `nd->mBackword = back`. -/
def setBack (s : SkipList K V) (nd : Nat) (back : Option Nat) : Option (SkipList K V) := do
  let node ← s.heap nd
  s.put nd { node with mBackword := back }

/-- The call `nd->setLevelNum(l)`. -/
def setLevelNum (s : SkipList K V) (nd l : Nat) : Option (SkipList K V) := do
  let node ← s.heap nd
  s.put nd (node.setLevelNum l)

/-- The expression `new SkipListNode<Key, Value>(..)`. -/
def alloc (s : SkipList K V) (node : SkipListNode K V) : SkipList K V × Nat :=
  ({ s.put s.newAddr node with newAddr := s.newAddr + 1 }, s.newAddr)

/-! ## Construction -/

/-- The constructor.  Its locals `k` and `v` are not initialised, so the sentinels may
hold any key and value. -/
def new (k : K) (v : V) : SkipList K V :=
  { heap := fun nd =>
      if nd = 0 then
        some { (SkipListNode.new k v).setLevelNum 1 with mNexts := [some 1] }
      else if nd = 1 then
        some { (SkipListNode.new k v).setLevelNum 1 with mBackword := some 0 }
      else none
    newAddr := 2
    mHead := 0
    mTail := 1
    mMaxLevel := 0
    mLength := 0 }

def getLength (s : SkipList K V) : Int :=
  s.mLength

/-- `generateRandomLevel` on the values `std::rand` returns one after the other; the
test `draw < ZSKIPLIST_P * 0xFFFF` compares with 16383.75. -/
def generateRandomLevel (draws : List Nat) : Nat :=
  let level := (draws.takeWhile fun draw => 4 * (draw &&& 0xFFFF) < 0xFFFF).length
  if level < ZSKIPLIST_MAXLEVEL then level else ZSKIPLIST_MAXLEVEL - 1

/-! ## The search loop -/

section Search

variable (s : SkipList K V) (stop : K → Bool)

/-- The test `next == mTail || stop(next->mKey)` of every search. -/
def stopsAt (next : Option Nat) : Option Bool :=
  if next = some s.mTail then some true
  else do
    let nd ← next
    let key ← s.keyAt nd
    some (stop key)

/-- The loop of every search: `levels` is the current level plus one.  What a search
notes down as it leaves a level or moves to the right are its two parameters. -/
def descend (down right : Nat → Nat → A → Option A) :
    Nat → Nat → Nat → A → Option (Nat × A)
  | _, nd, 0, acc => some (nd, acc)
  | 0, _, _ + 1, _ => none
  | fuel + 1, nd, level + 1, acc => do
      let next ← s.nextAt nd level
      if ← s.stopsAt stop next then
        let acc ← down level nd acc
        descend down right fuel nd level acc
      else
        let acc ← right level nd acc
        descend down right fuel (← next) (level + 1) acc

/-- A search that notes nothing down at a step. -/
def noNote (_level _nd : Nat) (acc : A) : Option A :=
  some acc

/-- No search takes more steps: each ends a level or passes an element. -/
def searchFuel : Nat :=
  s.mMaxLevel + s.mLength.toNat + 2

end Search

/-- What one search differs in from the others: the test it stops at, what it notes down
as it leaves a level and as it moves to the right, and what it starts with. -/
structure Search (K A : Type) where
  stop : K → Bool
  down : Nat → Nat → A → Option A
  right : Nat → Nat → A → Option A
  start : A

/-- The search from the head at the highest level. -/
def search (s : SkipList K V) (kind : Search K A) : Option (Nat × A) :=
  s.descend kind.stop kind.down kind.right s.searchFuel s.mHead (s.mMaxLevel + 1) kind.start

/-! ## Insertion -/

section Insert

variable [LinearOrder K] (int : IntType)

/-- `prevs[currLevel] = nd; currLevel--; ranks[currLevel] = ranks[currLevel + 1]`, the
last only while a level is left. -/
def noteRankedPrev (level nd : Nat) (acc : List (Option Nat) × List Int) :
    Option (List (Option Nat) × List Int) := do
  let prevs ← vectorSet acc.1 level (some nd)
  match level with
  | 0 => some (prevs, acc.2)
  | below + 1 =>
      let rank ← acc.2[below + 1]?
      let ranks ← vectorSet acc.2 below rank
      some (prevs, ranks)

/-- `ranks[currLevel] += nd->mSpans[currLevel]`. -/
def addRank (s : SkipList K V) (level nd : Nat) (acc : List (Option Nat) × List Int) :
    Option (List (Option Nat) × List Int) := do
  let rank ← acc.2[level]?
  let span ← s.spanAt nd level
  let ranks ← vectorSet acc.2 level (← int.eval (rank + span))
  some (acc.1, ranks)

/-- The search of `insert`, for a list whose new maximum level is `top`. -/
def insertSearch (s : SkipList K V) (top : Nat) (k : K) :
    Search K (List (Option Nat) × List Int) :=
  ⟨fun key => k < key, noteRankedPrev, s.addRank int,
    (List.replicate (top + 1) none, List.replicate (top + 1) 0)⟩

/-- The loop `for (int i = level; i > mMaxLevel; i--)`, with `count` levels left. -/
def raiseLoop (s : SkipList K V) (prevs : List (Option Nat)) :
    Nat → Option (SkipList K V × List (Option Nat))
  | 0 => some (s, prevs)
  | count + 1 => do
      let i := s.mMaxLevel + count + 1
      let prevs ← vectorSet prevs i (some s.mHead)
      let s ← s.setNext s.mHead i (some s.mTail)
      let s ← s.setSpan s.mHead i s.mLength
      s.raiseLoop prevs count

/-- The levels above the current maximum get the head as predecessor. -/
def raise (s : SkipList K V) (level : Nat) (prevs : List (Option Nat)) :
    Option (SkipList K V × List (Option Nat)) :=
  if level > s.mMaxLevel then do
    let s ← s.setLevelNum s.mHead (level + 1)
    s.raiseLoop prevs (level - s.mMaxLevel)
  else some (s, prevs)

/-- The body of the loop that links the new node, for level `i`. -/
def linkLevel (s : SkipList K V) (newNode level : Nat) (prevs : List (Option Nat))
    (ranks : List Int) (i : Nat) : Option (SkipList K V) := do
  let prev ← (← prevs[i]?)
  let next ← s.nextAt prev i
  let span ← s.spanAt prev i
  if i ≤ level then
    let first ← ranks[0]?
    let rank ← ranks[i]?
    let passed ← int.eval (first - rank)
    let s ← s.setSpan newNode i (← int.eval (span - passed))
    let s ← s.setSpan prev i (← int.eval (passed + 1))
    let s ← s.setNext prev i (some newNode)
    s.setNext newNode i next
  else s.setSpan prev i (← int.eval (span + 1))

/-- The first `count` rounds of that loop. -/
def linkLoop (s : SkipList K V) (newNode level : Nat) (prevs : List (Option Nat))
    (ranks : List Int) : Nat → Option (SkipList K V)
  | 0 => some s
  | i + 1 => do
      let s ← s.linkLoop newNode level prevs ranks i
      s.linkLevel int newNode level prevs ranks i

/-- `newNode->mBackword = prevs[0]; newNode->mNexts[0]->mBackword = newNode`. -/
def linkBack (s : SkipList K V) (newNode : Nat) (prevs : List (Option Nat)) :
    Option (SkipList K V) := do
  let prev ← prevs[0]?
  let s ← s.setBack newNode prev
  let next ← (← s.nextAt newNode 0)
  s.setBack next (some newNode)

/-- `insert`; `level` is what `generateRandomLevel` returns. -/
def insert (s : SkipList K V) (level : Nat) (k : K) (v : V) :
    Option (SkipList K V × Bool) := do
  let (s, newNode) := s.alloc (SkipListNode.newLevel k v (level + 1))
  let newMaxLevel := max s.mMaxLevel level
  let (_, prevs, ranks) ← s.search (s.insertSearch int newMaxLevel k)
  let (s, prevs) ← s.raise level prevs
  let s ← s.linkLoop int newNode level prevs ranks (newMaxLevel + 1)
  let s ← s.linkBack newNode prevs
  let length ← int.eval (s.mLength + 1)
  some ({ s with mMaxLevel := newMaxLevel, mLength := length }, true)

end Insert

/-! ## Removal -/

section Erase

variable [LinearOrder K] (int : IntType)

/-- `prevs[currLevel] = nd; currLevel--`. -/
def notePrev (level nd : Nat) (prevs : List (Option Nat)) : Option (List (Option Nat)) :=
  vectorSet prevs level (some nd)

/-- The search of `erase`. -/
def eraseSearch (s : SkipList K V) (k : K) : Search K (List (Option Nat)) :=
  ⟨fun key => k ≤ key, notePrev, noNote, List.replicate (s.mMaxLevel + 1) none⟩

/-- The body of the loop that unlinks the node `nd`, for level `i`. -/
def unlinkLevel (s : SkipList K V) (nd : Nat) (prevs : List (Option Nat)) (i : Nat) :
    Option (SkipList K V) := do
  let prev ← (← prevs[i]?)
  let next ← s.nextAt prev i
  let span ← s.spanAt prev i
  if next = some nd then
    let added ← int.eval ((← s.spanAt nd i) - 1)
    let s ← s.setSpan prev i (← int.eval (span + added))
    s.setNext prev i (← s.nextAt nd i)
  else s.setSpan prev i (← int.eval (span - 1))

def unlinkLoop (s : SkipList K V) (nd : Nat) (prevs : List (Option Nat)) :
    Nat → Option (SkipList K V)
  | 0 => some s
  | i + 1 => do
      let s ← s.unlinkLoop nd prevs i
      s.unlinkLevel int nd prevs i

/-- `nd->mNexts[0]->mBackword = prevs[0]`. -/
def unlinkBack (s : SkipList K V) (nd : Nat) (prevs : List (Option Nat)) :
    Option (SkipList K V) := do
  let next ← (← s.nextAt nd 0)
  let prev ← prevs[0]?
  s.setBack next prev

/-- The loop that lowers `mMaxLevel`, from the given level. -/
def lowerLoop (s : SkipList K V) : Nat → Option Nat
  | 0 => some 0
  | level + 1 => do
      if (← s.nextAt s.mHead (level + 1)) = some s.mTail then s.lowerLoop level
      else some (level + 1)

/-- `erase`; the unlinked node is not freed. -/
def erase (s : SkipList K V) (k : K) : Option (SkipList K V × Bool) := do
  let (nd, prevs) ← s.search (s.eraseSearch k)
  let next ← s.nextAt nd 0
  if next = some s.mTail then return (s, false)
  let nd ← next
  if (← s.keyAt nd) ≠ k then return (s, false)
  let s ← s.unlinkLoop int nd prevs (s.mMaxLevel + 1)
  let s ← s.unlinkBack nd prevs
  let maxLevel ← s.lowerLoop s.mMaxLevel
  let length ← int.eval (s.mLength - 1)
  some ({ s with mMaxLevel := maxLevel, mLength := length }, true)

end Erase

/-! ## Queries -/

section Queries

variable [LinearOrder K] (int : IntType)

def isInRange (s : SkipList K V) (k : K) : Option Bool := do
  let first ← (← s.nextAt s.mHead 0)
  if k < (← s.keyAt first) then return false
  let last ← (← s.backAt s.mTail)
  if k > (← s.keyAt last) then return false
  return true

/-- The search of a bound; the two differ in the test they stop at. -/
def boundSearch (stop : K → Bool) : Search K Unit :=
  ⟨stop, noNote, noNote, ()⟩

/-- What both bounds do. -/
def bound (s : SkipList K V) (stop : K → Bool) (k : K) : Option (Option Nat) := do
  if ← s.isInRange k then
    let (nd, _) ← s.search (boundSearch stop)
    s.nextAt nd 0
  else return none

def lower_bound (s : SkipList K V) (k : K) : Option (Option Nat) :=
  s.bound (fun key => k ≤ key) k

def upper_bound (s : SkipList K V) (k : K) : Option (Option Nat) :=
  s.bound (fun key => k < key) k

/-- `result += nd->mSpans[level]`. -/
def addSpan (s : SkipList K V) (level nd : Nat) (result : Int) : Option Int := do
  let span ← s.spanAt nd level
  int.eval (result + span)

def rankSearch (s : SkipList K V) (k : K) : Search K Int :=
  ⟨fun key => k < key, noNote, s.addSpan int, 0⟩

def getRank (s : SkipList K V) (k : K) : Option Int := do
  let (nd, result) ← s.search (s.rankSearch int k)
  return if (← s.keyAt nd) = k then result else 0

/-- The nodes an iterator passes from a pointer to `mTail` along one level. -/
def walk (s : SkipList K V) (level : Nat) : Nat → Option Nat → Option (List Nat)
  | 0, _ => none
  | fuel + 1, it =>
      if it = some s.mTail then some []
      else do
        let nd ← it
        let next ← s.nextAt nd level
        let rest ← s.walk level fuel next
        some (nd :: rest)

/-- The nodes linked at one level, from `mHead` to `mTail`. -/
def levelChain (s : SkipList K V) (level : Nat) : Option (List Nat) := do
  s.walk level (s.mLength.toNat + 1) (← s.nextAt s.mHead level)

/-- What the loop `for (it = begin(); it != end(); it++)` reads. -/
def traverse (s : SkipList K V) : Option (List (K × V)) := do
  let nodes ← s.levelChain 0
  nodes.mapM s.payloadAt

end Queries

theorem generateRandomLevel_lt (draws : List Nat) :
    generateRandomLevel draws < ZSKIPLIST_MAXLEVEL := by
  unfold generateRandomLevel
  dsimp only
  split
  · assumption
  · decide

end SkipList

end RedisDB
