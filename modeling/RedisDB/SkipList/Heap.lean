import RedisDB.SkipList.Basic
import Mathlib.Logic.Function.Basic

/-!
# What the writes of a `SkipList` change

A heap is seen through five reads: the link and the span of a node at a level,
its back link, its payload and its height.  Each write changes one of them at
one place, and the proofs about the list use these equations only.
-/

namespace RedisDB

variable {T : Type}

theorem vectorSet_of_getElem? {vector : List T} {i : Nat} {old : T}
    (hold : vector[i]? = some old) (x : T) : vectorSet vector i x = some (vector.set i x) := by
  obtain ⟨hi, -⟩ := List.getElem?_eq_some_iff.mp hold
  rw [vectorSet, if_pos hi]

theorem getElem?_vectorResize_of_some {vector : List T} {n i : Nat} {fill old : T}
    (hi : i < n) (hold : vector[i]? = some old) :
    (vectorResize vector n fill)[i]? = some old := by
  obtain ⟨hlength, -⟩ := List.getElem?_eq_some_iff.mp hold
  rw [vectorResize, List.getElem?_append_left (by rw [List.length_take]; omega),
    List.getElem?_take, if_pos hi, hold]

theorem length_vectorResize {vector : List T} {n : Nat} {fill : T} :
    (vectorResize vector n fill).length = n := by
  rw [vectorResize, List.length_append, List.length_take, List.length_replicate]
  omega

theorem getElem?_vectorResize_nil {n i : Nat} {fill : T} (hi : i < n) :
    (vectorResize [] n fill)[i]? = some fill := by
  rw [vectorResize, List.take_nil, List.nil_append, List.length_nil, Nat.sub_zero,
    List.getElem?_replicate, if_pos hi]

/-- One entry of a two-place table overwritten. -/
def overwrite (table : Nat → Nat → Option T) (nd level : Nat) (x : T) :
    Nat → Nat → Option T :=
  fun nd' level' => if nd' = nd ∧ level' = level then some x else table nd' level'

section Overwrite

variable {table : Nat → Nat → Option T} {nd nd' level level' : Nat} {x : T}

@[simp] theorem overwrite_self : overwrite table nd level x nd level = some x := by
  simp [overwrite]

theorem overwrite_of_ne_node (hnd : nd' ≠ nd) :
    overwrite table nd level x nd' level' = table nd' level' := by
  simp [overwrite, hnd]

theorem overwrite_of_ne_level (hlevel : level' ≠ level) :
    overwrite table nd level x nd' level' = table nd' level' := by
  simp [overwrite, hlevel]

end Overwrite

namespace SkipList

variable {K V : Type} {s s' s'' : SkipList K V} {nd level : Nat}

/-- The two states differ in links, spans and the height of the head only. -/
structure SameNodes (s s' : SkipList K V) : Prop where
  mHead : s'.mHead = s.mHead
  mTail : s'.mTail = s.mTail
  newAddr : s'.newAddr = s.newAddr
  mMaxLevel : s'.mMaxLevel = s.mMaxLevel
  mLength : s'.mLength = s.mLength
  backAt : s'.backAt = s.backAt
  payloadAt : s'.payloadAt = s.payloadAt
  heightAt : ∀ nd, nd ≠ s.mHead → s'.heightAt nd = s.heightAt nd

namespace SameNodes

theorem refl (s : SkipList K V) : SameNodes s s :=
  ⟨rfl, rfl, rfl, rfl, rfl, rfl, rfl, fun _ _ => rfl⟩

theorem trans (hfirst : SameNodes s s') (hsecond : SameNodes s' s'') : SameNodes s s'' where
  mHead := hsecond.mHead.trans hfirst.mHead
  mTail := hsecond.mTail.trans hfirst.mTail
  newAddr := hsecond.newAddr.trans hfirst.newAddr
  mMaxLevel := hsecond.mMaxLevel.trans hfirst.mMaxLevel
  mLength := hsecond.mLength.trans hfirst.mLength
  backAt := hsecond.backAt.trans hfirst.backAt
  payloadAt := hsecond.payloadAt.trans hfirst.payloadAt
  heightAt nd hnd :=
    (hsecond.heightAt nd (by rw [hfirst.mHead]; exact hnd)).trans (hfirst.heightAt nd hnd)

end SameNodes

/-- The two states differ in back links only. -/
structure SameLinks (s s' : SkipList K V) : Prop where
  mHead : s'.mHead = s.mHead
  mTail : s'.mTail = s.mTail
  newAddr : s'.newAddr = s.newAddr
  mMaxLevel : s'.mMaxLevel = s.mMaxLevel
  mLength : s'.mLength = s.mLength
  nextAt : s'.nextAt = s.nextAt
  spanAt : s'.spanAt = s.spanAt
  payloadAt : s'.payloadAt = s.payloadAt
  heightAt : s'.heightAt = s.heightAt

theorem SameLinks.trans (hfirst : SameLinks s s') (hsecond : SameLinks s' s'') :
    SameLinks s s'' where
  mHead := hsecond.mHead.trans hfirst.mHead
  mTail := hsecond.mTail.trans hfirst.mTail
  newAddr := hsecond.newAddr.trans hfirst.newAddr
  mMaxLevel := hsecond.mMaxLevel.trans hfirst.mMaxLevel
  mLength := hsecond.mLength.trans hfirst.mLength
  nextAt := hsecond.nextAt.trans hfirst.nextAt
  spanAt := hsecond.spanAt.trans hfirst.spanAt
  payloadAt := hsecond.payloadAt.trans hfirst.payloadAt
  heightAt := hsecond.heightAt.trans hfirst.heightAt

/-- The sentinels stay where they are and every node keeps its key and value. -/
structure KeepsPayloads (s s' : SkipList K V) : Prop where
  mHead : s'.mHead = s.mHead
  mTail : s'.mTail = s.mTail
  newAddr : s.newAddr ≤ s'.newAddr
  payloadAt : ∀ nd, nd < s.newAddr → s'.payloadAt nd = s.payloadAt nd

namespace KeepsPayloads

theorem refl (s : SkipList K V) : KeepsPayloads s s :=
  ⟨rfl, rfl, Nat.le_refl _, fun _ _ => rfl⟩

theorem trans (hfirst : KeepsPayloads s s') (hsecond : KeepsPayloads s' s'') :
    KeepsPayloads s s'' where
  mHead := hsecond.mHead.trans hfirst.mHead
  mTail := hsecond.mTail.trans hfirst.mTail
  newAddr := Nat.le_trans hfirst.newAddr hsecond.newAddr
  payloadAt nd hnd :=
    (hsecond.payloadAt nd (Nat.lt_of_lt_of_le hnd hfirst.newAddr)).trans
      (hfirst.payloadAt nd hnd)

end KeepsPayloads

theorem SameNodes.keepsPayloads (hsame : SameNodes s s') : KeepsPayloads s s' :=
  ⟨hsame.mHead, hsame.mTail, Nat.le_of_eq hsame.newAddr.symm,
    fun _ _ => by rw [hsame.payloadAt]⟩

theorem SameLinks.keepsPayloads (hsame : SameLinks s s') : KeepsPayloads s s' :=
  ⟨hsame.mHead, hsame.mTail, Nat.le_of_eq hsame.newAddr.symm,
    fun _ _ => by rw [hsame.payloadAt]⟩

/-- The two counters are no part of the heap. -/
theorem KeepsPayloads.counters (hkeeps : KeepsPayloads s s') (top : Nat) (length : Int) :
    KeepsPayloads s { s' with mMaxLevel := top, mLength := length } :=
  ⟨hkeeps.mHead, hkeeps.mTail, hkeeps.newAddr, hkeeps.payloadAt⟩

/-! ## Writes -/

section Put

variable {node node' : SkipListNode K V}

/-- What a write leaves alone in its node reads as before everywhere. -/
theorem map_heap_put {R : Type} (read : SkipListNode K V → R) (hnode : s.heap nd = some node)
    (hread : read node' = read node) (addr : Nat) :
    ((s.put nd node').heap addr).map read = (s.heap addr).map read := by
  by_cases haddr : addr = nd
  · subst haddr
    simp [put, hnode, hread]
  · simp [put, haddr]

theorem nextAt_put_of_eq (hnode : s.heap nd = some node) (hnexts : node'.mNexts = node.mNexts) :
    (s.put nd node').nextAt = s.nextAt := by
  funext addr level
  by_cases haddr : addr = nd
  · subst haddr
    simp [nextAt, put, hnode, hnexts]
  · simp [nextAt, put, haddr]

theorem spanAt_put_of_eq (hnode : s.heap nd = some node) (hspans : node'.mSpans = node.mSpans) :
    (s.put nd node').spanAt = s.spanAt := by
  funext addr level
  by_cases haddr : addr = nd
  · subst haddr
    simp [spanAt, put, hnode, hspans]
  · simp [spanAt, put, haddr]

theorem SameNodes.put (hnode : s.heap nd = some node)
    (hback : node'.mBackword = node.mBackword)
    (hpayload : (node'.mKey, node'.mValue) = (node.mKey, node.mValue))
    (hheight : nd = s.mHead ∨ node'.mNexts.length = node.mNexts.length) :
    SameNodes s (s.put nd node') where
  mHead := rfl
  mTail := rfl
  newAddr := rfl
  mMaxLevel := rfl
  mLength := rfl
  backAt := funext (map_heap_put (·.mBackword) hnode hback)
  payloadAt := funext (map_heap_put (fun node => (node.mKey, node.mValue)) hnode hpayload)
  heightAt := by
    intro addr haddr
    rcases hheight with hhead | hlength
    · subst hhead
      simp [SkipList.heightAt, SkipList.put, haddr]
    · exact map_heap_put (·.mNexts.length) hnode hlength addr

end Put

/-- A link that can be read can be written. -/
theorem setNext_spec {old : Option Nat} (hold : s.nextAt nd level = some old)
    (next : Option Nat) :
    ∃ s', s.setNext nd level next = some s' ∧ SameNodes s s' ∧
      s'.nextAt = overwrite s.nextAt nd level next ∧ s'.spanAt = s.spanAt := by
  obtain ⟨node, hnode, hentry⟩ := Option.bind_eq_some_iff.mp hold
  refine ⟨s.put nd { node with mNexts := node.mNexts.set level next }, ?_,
    SameNodes.put hnode rfl rfl (.inr List.length_set), ?_, spanAt_put_of_eq hnode rfl⟩
  · simp [setNext, hnode, vectorSet_of_getElem? hentry]
  · funext addr l
    by_cases haddr : addr = nd
    · subst haddr
      obtain ⟨hlevel, -⟩ := List.getElem?_eq_some_iff.mp hentry
      by_cases hl : l = level
      · subst hl
        simp [nextAt, put, hlevel]
      · rw [overwrite_of_ne_level hl]
        simp [nextAt, put, hnode, List.getElem?_set_ne (Ne.symm hl)]
    · rw [overwrite_of_ne_node haddr]
      simp [nextAt, put, haddr]

/-- A span that can be read can be written. -/
theorem setSpan_spec {old : Int} (hold : s.spanAt nd level = some old) (span : Int) :
    ∃ s', s.setSpan nd level span = some s' ∧ SameNodes s s' ∧
      s'.nextAt = s.nextAt ∧ s'.spanAt = overwrite s.spanAt nd level span := by
  obtain ⟨node, hnode, hentry⟩ := Option.bind_eq_some_iff.mp hold
  refine ⟨s.put nd { node with mSpans := node.mSpans.set level span }, ?_,
    SameNodes.put hnode rfl rfl (.inr rfl), nextAt_put_of_eq hnode rfl, ?_⟩
  · simp [setSpan, hnode, vectorSet_of_getElem? hentry]
  · funext addr l
    by_cases haddr : addr = nd
    · subst haddr
      obtain ⟨hlevel, -⟩ := List.getElem?_eq_some_iff.mp hentry
      by_cases hl : l = level
      · subst hl
        simp [spanAt, put, hlevel]
      · rw [overwrite_of_ne_level hl]
        simp [spanAt, put, hnode, List.getElem?_set_ne (Ne.symm hl)]
    · rw [overwrite_of_ne_node haddr]
      simp [spanAt, put, haddr]

theorem setBack_spec {old : Option Nat} (hold : s.backAt nd = some old) (back : Option Nat) :
    ∃ s', s.setBack nd back = some s' ∧ SameLinks s s' ∧
      s'.backAt = Function.update s.backAt nd (some back) := by
  obtain ⟨node, hnode, -⟩ := Option.map_eq_some_iff.mp hold
  refine ⟨s.put nd { node with mBackword := back }, by simp [setBack, hnode],
    ⟨rfl, rfl, rfl, rfl, rfl, nextAt_put_of_eq hnode rfl, spanAt_put_of_eq hnode rfl,
      funext (map_heap_put (fun node => (node.mKey, node.mValue)) hnode rfl),
      funext (map_heap_put (·.mNexts.length) hnode rfl)⟩, ?_⟩
  funext addr
  by_cases haddr : addr = nd <;> simp [backAt, put, Function.update, haddr]

/-- The head keeps the links it has below the new height, and every other node all. -/
theorem setLevelNum_head_spec {payload : K × V} (hold : s.payloadAt s.mHead = some payload)
    (l : Nat) :
    ∃ s', s.setLevelNum s.mHead l = some s' ∧ SameNodes s s' ∧
      (∀ nd level, nd ≠ s.mHead → s'.nextAt nd level = s.nextAt nd level ∧
        s'.spanAt nd level = s.spanAt nd level) ∧
      (∀ level next, level < l → s.nextAt s.mHead level = some next →
        s'.nextAt s.mHead level = some next) ∧
      (∀ level span, level < l → s.spanAt s.mHead level = some span →
        s'.spanAt s.mHead level = some span) ∧
      ∀ level, level < l →
        (s'.nextAt s.mHead level).isSome ∧ (s'.spanAt s.mHead level).isSome := by
  obtain ⟨node, hnode, -⟩ := Option.map_eq_some_iff.mp hold
  refine ⟨s.put s.mHead (node.setLevelNum l), by simp [setLevelNum, hnode],
    SameNodes.put hnode rfl rfl (.inl rfl), ?_, ?_, ?_, ?_⟩
  · intro addr level haddr
    simp [nextAt, spanAt, put, haddr]
  · intro level next hlevel hnext
    simp only [nextAt, hnode, Option.bind_some] at hnext
    simpa [nextAt, put, SkipListNode.setLevelNum] using
      getElem?_vectorResize_of_some hlevel hnext
  · intro level span hlevel hspan
    simp only [spanAt, hnode, Option.bind_some] at hspan
    simpa [spanAt, put, SkipListNode.setLevelNum] using
      getElem?_vectorResize_of_some hlevel hspan
  · intro level hlevel
    simp [nextAt, spanAt, put, SkipListNode.setLevelNum, length_vectorResize, hlevel]

/-! ## Allocation -/

section Alloc

variable {node : SkipListNode K V}

theorem heap_alloc_of_ne (hnd : nd ≠ s.newAddr) : (s.alloc node).1.heap nd = s.heap nd := by
  simp [alloc, put, hnd]

theorem heap_alloc_self : (s.alloc node).1.heap s.newAddr = some node := by
  simp [alloc, put]

theorem nextAt_alloc_of_ne (hnd : nd ≠ s.newAddr) :
    (s.alloc node).1.nextAt nd level = s.nextAt nd level := by
  rw [nextAt, heap_alloc_of_ne hnd, nextAt]

theorem spanAt_alloc_of_ne (hnd : nd ≠ s.newAddr) :
    (s.alloc node).1.spanAt nd level = s.spanAt nd level := by
  rw [spanAt, heap_alloc_of_ne hnd, spanAt]

theorem backAt_alloc_of_ne (hnd : nd ≠ s.newAddr) :
    (s.alloc node).1.backAt nd = s.backAt nd := by
  rw [backAt, heap_alloc_of_ne hnd, backAt]

theorem payloadAt_alloc_of_ne (hnd : nd ≠ s.newAddr) :
    (s.alloc node).1.payloadAt nd = s.payloadAt nd := by
  rw [payloadAt, heap_alloc_of_ne hnd, payloadAt]

theorem heightAt_alloc_of_ne (hnd : nd ≠ s.newAddr) :
    (s.alloc node).1.heightAt nd = s.heightAt nd := by
  rw [heightAt, heap_alloc_of_ne hnd, heightAt]

theorem keepsPayloads_alloc : KeepsPayloads s (s.alloc node).1 :=
  ⟨rfl, rfl, Nat.le_succ _, fun _ hnd => payloadAt_alloc_of_ne (Nat.ne_of_lt hnd)⟩

end Alloc

end SkipList

end RedisDB
