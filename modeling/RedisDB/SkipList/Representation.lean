import RedisDB.SkipList.Heap
import RedisDB.Library.Marks
import Mathlib.Data.List.Nodup

/-!
# The representation of a skip list

A skip list stands for a sequence of cells.  The head is position `0`, the
cells are the positions `1 … n` and the tail is position `n + 1`.  A level marks
the cells taller than it; its links go from mark to mark and its spans count
the positions passed.
-/

namespace RedisDB

open RedisDB.Library

variable {K V : Type}

/-- An element of a skip list with its node's address and height. -/
structure Cell (K V : Type) where
  addr : Nat
  key : K
  value : V
  height : Nat

/-- The nodes of the list in order, sentinels included. -/
def spine (head tail : Nat) (cells : List (Cell K V)) : List Nat :=
  head :: (cells.map (·.addr) ++ [tail])

/-- The address of the node at a position. -/
def addrAt (head tail : Nat) (cells : List (Cell K V)) : Nat → Nat
  | 0 => head
  | p + 1 => (cells[p]?.map (·.addr)).getD tail

/-- The position is a cell taller than the level. -/
def tall (cells : List (Cell K V)) (level : Nat) : Nat → Prop
  | 0 => False
  | p + 1 => ∃ cell, cells[p]? = some cell ∧ level < cell.height

/-! ## Positions -/

section Positions

variable {head tail level p q : Nat} {cells before after : List (Cell K V)} {cell : Cell K V}

@[simp] theorem addrAt_zero : addrAt head tail cells 0 = head := rfl

theorem addrAt_of_getElem? (hcell : cells[p]? = some cell) :
    addrAt head tail cells (p + 1) = cell.addr := by
  simp [addrAt, hcell]

@[simp] theorem addrAt_length : addrAt head tail cells (cells.length + 1) = tail := by
  simp [addrAt]

theorem spine_getElem? (hp : p ≤ cells.length + 1) :
    (spine head tail cells)[p]? = some (addrAt head tail cells p) := by
  cases p with
  | zero => rfl
  | succ p =>
      rw [spine, List.getElem?_cons_succ]
      rcases Nat.lt_or_ge p cells.length with hlt | hge
      · rw [List.getElem?_append_left (by simpa using hlt), List.getElem?_map,
          List.getElem?_eq_getElem hlt, addrAt, List.getElem?_eq_getElem hlt]
        rfl
      · obtain rfl : p = cells.length := by omega
        simp

theorem addrAt_mem_spine (hp : p ≤ cells.length + 1) :
    addrAt head tail cells p ∈ spine head tail cells :=
  List.mem_of_getElem? (spine_getElem? hp)

theorem addrAt_injective (hnodup : (spine head tail cells).Nodup) (hp : p ≤ cells.length + 1)
    (hq : q ≤ cells.length + 1) (heq : addrAt head tail cells p = addrAt head tail cells q) :
    p = q := by
  have hlength : p < (spine head tail cells).length := by simp [spine]; omega
  refine (List.getElem?_inj hlength hnodup).mp ?_
  rw [spine_getElem? hp, spine_getElem? hq, heq]

theorem tall.pos (htall : tall cells level p) : 0 < p := by
  cases p with
  | zero => exact htall.elim
  | succ p => omega

theorem tall.le (htall : tall cells level p) : p ≤ cells.length := by
  cases p with
  | zero => omega
  | succ p =>
      obtain ⟨cell, hcell, -⟩ := htall
      obtain ⟨hp, -⟩ := List.getElem?_eq_some_iff.mp hcell
      exact hp

theorem tall.mono {low : Nat} (htall : tall cells level p) (hlow : low ≤ level) :
    tall cells low p := by
  cases p with
  | zero => exact htall.elim
  | succ p =>
      obtain ⟨cell, hcell, hheight⟩ := htall
      exact ⟨cell, hcell, by omega⟩

/-! ### A cell between two parts of the sequence -/

theorem getElem?_middle_lt (hp : p < before.length) :
    (before ++ cell :: after)[p]? = (before ++ after)[p]? := by
  rw [List.getElem?_append_left hp, List.getElem?_append_left hp]

theorem getElem?_middle : (before ++ cell :: after)[before.length]? = some cell := by
  simp

theorem getElem?_middle_gt (hp : before.length ≤ p) :
    (before ++ cell :: after)[p + 1]? = (before ++ after)[p]? := by
  rw [List.getElem?_append_right (by omega), List.getElem?_append_right hp,
    show p + 1 - before.length = p - before.length + 1 by omega, List.getElem?_cons_succ]

theorem addrAt_middle_le (hp : p ≤ before.length) :
    addrAt head tail (before ++ cell :: after) p = addrAt head tail (before ++ after) p := by
  cases p with
  | zero => rfl
  | succ p => rw [addrAt, getElem?_middle_lt hp, addrAt]

theorem addrAt_middle :
    addrAt head tail (before ++ cell :: after) (before.length + 1) = cell.addr :=
  addrAt_of_getElem? getElem?_middle

theorem addrAt_middle_gt (hp : before.length < p) :
    addrAt head tail (before ++ cell :: after) (p + 1) =
      addrAt head tail (before ++ after) p := by
  cases p with
  | zero => omega
  | succ p => rw [addrAt, getElem?_middle_gt (by omega), addrAt]

/-- The marks with the cell are the marks without it and one for the cell. -/
theorem tall_middle :
    tall (before ++ cell :: after) level =
      insertMark (tall (before ++ after) level) before.length (level < cell.height) := by
  funext p
  cases p with
  | zero => rw [insertMark_of_le (Nat.zero_le _)]; rfl
  | succ p =>
      rcases Nat.lt_trichotomy p before.length with hlt | rfl | hgt
      · rw [insertMark_of_le hlt, tall, tall, getElem?_middle_lt hlt]
      · rw [insertMark_self, tall, getElem?_middle]
        simp
      · obtain ⟨p, rfl⟩ : ∃ p', p = p' + 1 := ⟨p - 1, by omega⟩
        rw [insertMark_succ (by omega), tall, tall, getElem?_middle_gt (by omega)]

/-- The marks without the cell are the marks with it, that of the cell left out. -/
theorem tall_without_middle (cell : Cell K V) :
    tall (before ++ after) level =
      eraseMark (tall (before ++ cell :: after) level) before.length := by
  funext p
  rcases Nat.lt_or_ge before.length p with hgt | hle
  · rw [eraseMark_of_gt hgt, tall_middle, insertMark_succ hgt]
  · rw [eraseMark_of_le hle, tall_middle, insertMark_of_le hle]

end Positions

namespace SkipList

/-! ## The relation between a list and its cells -/

/-- The address of the node at a position of the list. -/
def place (s : SkipList K V) (cells : List (Cell K V)) (p : Nat) : Nat :=
  addrAt s.mHead s.mTail cells p

/-- The node at position `p` links to the next mark of the level. -/
structure LinkedAt (s : SkipList K V) (cells : List (Cell K V)) (level p q : Nat) :
    Prop where
  next : NextMark (tall cells level) cells.length p q
  link : s.nextAt (s.place cells p) level = some (some (s.place cells q))
  span : s.spanAt (s.place cells p) level = some ((min q cells.length : Nat) - p : Int)

/-- Every mark of the level, and the head, links to the next. -/
def Linked (s : SkipList K V) (cells : List (Cell K V)) (level : Nat) : Prop :=
  ∀ p, p = 0 ∨ tall cells level p → ∃ q, s.LinkedAt cells level p q

/-- The nodes of the cells and the sentinels are distinct nodes with the cells' contents. -/
structure Shape (s : SkipList K V) (cells : List (Cell K V)) : Prop where
  distinct : (spine s.mHead s.mTail cells).Nodup
  allocated : ∀ nd ∈ spine s.mHead s.mTail cells, nd < s.newAddr
  contents : ∀ cell ∈ cells, s.payloadAt cell.addr = some (cell.key, cell.value)
  heights : ∀ cell ∈ cells, s.heightAt cell.addr = some cell.height
  head_payload : ∃ payload, s.payloadAt s.mHead = some payload
  tail_payload : ∃ payload, s.payloadAt s.mTail = some payload

/-- Every node after the head links back to the one before it. -/
def BackLinked (s : SkipList K V) (cells : List (Cell K V)) : Prop :=
  ∀ p, p ≤ cells.length → s.backAt (s.place cells (p + 1)) = some (some (s.place cells p))

/-- The maximum level is that of the tallest cell, or `0`. -/
structure Topped (cells : List (Cell K V)) (top : Nat) : Prop where
  positive : ∀ cell ∈ cells, 1 ≤ cell.height
  bounded : ∀ cell ∈ cells, cell.height ≤ top + 1
  attained : top = 0 ∨ ∃ cell ∈ cells, cell.height = top + 1

/-- The list stands for the cells. -/
structure Represents [LinearOrder K] (s : SkipList K V) (cells : List (Cell K V)) :
    Prop where
  shape : s.Shape cells
  linked : ∀ level, level ≤ s.mMaxLevel → s.Linked cells level
  back : s.BackLinked cells
  topped : Topped cells s.mMaxLevel
  sorted : cells.Pairwise fun first second => first.key ≤ second.key
  length : s.mLength = cells.length

variable {s s' : SkipList K V} {cells : List (Cell K V)} {level p q : Nat}

theorem SameNodes.place (hsame : SameNodes s s') : s'.place cells = s.place cells := by
  funext p
  rw [SkipList.place, SkipList.place, hsame.mHead, hsame.mTail]

theorem SameLinks.place (hsame : SameLinks s s') : s'.place cells = s.place cells := by
  funext p
  rw [SkipList.place, SkipList.place, hsame.mHead, hsame.mTail]

theorem Shape.place_injective (hshape : s.Shape cells) (hp : p ≤ cells.length + 1)
    (hq : q ≤ cells.length + 1) (heq : s.place cells p = s.place cells q) : p = q :=
  addrAt_injective hshape.distinct hp hq heq

theorem Shape.place_ne (hshape : s.Shape cells) (hp : p ≤ cells.length) (hr : q ≤ cells.length)
    (hne : q ≠ p) : s.place cells q ≠ s.place cells p :=
  fun heq => hne (hshape.place_injective (Nat.le_succ_of_le hr) (Nat.le_succ_of_le hp) heq)

theorem Shape.place_lt (hshape : s.Shape cells) (hp : p ≤ cells.length + 1) :
    s.place cells p < s.newAddr :=
  hshape.allocated _ (addrAt_mem_spine hp)

/-- A place before the tail is not the tail. -/
theorem Shape.place_ne_tail (hshape : s.Shape cells) (hp : p ≤ cells.length) :
    s.place cells p ≠ s.mTail := by
  intro heq
  have htail : s.place cells (cells.length + 1) = s.mTail := addrAt_length
  have := hshape.place_injective (by omega) (Nat.le_refl _) (heq.trans htail.symm)
  omega

theorem Shape.addr_ne_tail (hshape : s.Shape cells) {cell : Cell K V} (hcell : cell ∈ cells) :
    cell.addr ≠ s.mTail := by
  obtain ⟨p, hp, rfl⟩ := List.getElem_of_mem hcell
  have hne := hshape.place_ne_tail (p := p + 1) hp
  rwa [SkipList.place, addrAt_of_getElem? (List.getElem?_eq_getElem hp)] at hne

theorem Shape.keyAt_place (hshape : s.Shape cells) {cell : Cell K V}
    (hcell : cells[p]? = some cell) : s.keyAt (s.place cells (p + 1)) = some cell.key := by
  rw [SkipList.place, addrAt_of_getElem? hcell, SkipList.keyAt,
    hshape.contents cell (List.mem_of_getElem? hcell)]
  rfl

/-- Links, spans and back links are no part of the shape. -/
theorem Shape.of_sameNodes (hshape : s.Shape cells) (hsame : SameNodes s s') :
    s'.Shape cells where
  distinct := by rw [hsame.mHead, hsame.mTail]; exact hshape.distinct
  allocated := by rw [hsame.mHead, hsame.mTail, hsame.newAddr]; exact hshape.allocated
  contents := by rw [hsame.payloadAt]; exact hshape.contents
  heights := by
    intro cell hcell
    have hhead : cell.addr ≠ s.mHead := by
      intro heq
      have hnodup := (List.nodup_cons.mp hshape.distinct).1
      exact hnodup (heq ▸ List.mem_append_left _ (List.mem_map_of_mem hcell))
    rw [hsame.heightAt _ hhead, hshape.heights cell hcell]
  head_payload := by rw [hsame.mHead, hsame.payloadAt]; exact hshape.head_payload
  tail_payload := by rw [hsame.mTail, hsame.payloadAt]; exact hshape.tail_payload

theorem Shape.of_sameLinks (hshape : s.Shape cells) (hsame : SameLinks s s') :
    s'.Shape cells where
  distinct := by rw [hsame.mHead, hsame.mTail]; exact hshape.distinct
  allocated := by rw [hsame.mHead, hsame.mTail, hsame.newAddr]; exact hshape.allocated
  contents := by rw [hsame.payloadAt]; exact hshape.contents
  heights := by rw [hsame.heightAt]; exact hshape.heights
  head_payload := by rw [hsame.mHead, hsame.payloadAt]; exact hshape.head_payload
  tail_payload := by rw [hsame.mTail, hsame.payloadAt]; exact hshape.tail_payload

theorem BackLinked.of_sameNodes (hback : s.BackLinked cells) (hsame : SameNodes s s') :
    s'.BackLinked cells := by
  intro p hp
  rw [hsame.place, hsame.backAt]
  exact hback p hp

/-- A level is linked wherever its reads are the same. -/
theorem Linked.congr (hlinked : s.Linked cells level) (hplace : s'.place cells = s.place cells)
    (hsame : ∀ p, p ≤ cells.length →
      s'.nextAt (s.place cells p) level = s.nextAt (s.place cells p) level ∧
        s'.spanAt (s.place cells p) level = s.spanAt (s.place cells p) level) :
    s'.Linked cells level := by
  intro p hp
  obtain ⟨q, hq⟩ := hlinked p hp
  have hle : p ≤ cells.length := by
    rcases hp with rfl | htall
    · omega
    · exact htall.le
  obtain ⟨hnext, hspan⟩ := hsame p hle
  exact ⟨q, hq.next, by rw [hplace, hnext, hq.link], by rw [hplace, hspan, hq.span]⟩

theorem Linked.of_sameLinks (hlinked : s.Linked cells level) (hsame : SameLinks s s') :
    s'.Linked cells level :=
  hlinked.congr hsame.place fun _ _ => by rw [hsame.nextAt, hsame.spanAt]; exact ⟨rfl, rfl⟩

/-- A list stands for cells that it links when its two counters are set to fit them. -/
theorem Shape.represents [LinearOrder K] {top : Nat} {length : Int} (hshape : s.Shape cells)
    (hlinked : ∀ level, level ≤ top → s.Linked cells level) (hback : s.BackLinked cells)
    (htopped : Topped cells top)
    (hsorted : cells.Pairwise fun first second => first.key ≤ second.key)
    (hlength : length = cells.length) :
    Represents { s with mMaxLevel := top, mLength := length } cells where
  shape := ⟨hshape.distinct, hshape.allocated, hshape.contents, hshape.heights,
    hshape.head_payload, hshape.tail_payload⟩
  linked level hlevel p hp := by
    obtain ⟨q, hq⟩ := hlinked level hlevel p hp
    exact ⟨q, hq.next, hq.link, hq.span⟩
  back := hback
  topped := htopped
  sorted := hsorted
  length := hlength

theorem LinkedAt.le_length {next : Nat} (hlinked : s.LinkedAt cells level p next) :
    p ≤ cells.length := by
  have hlt := hlinked.next.lt
  have hle := hlinked.next.le
  omega

section New

variable [LinearOrder K] (k : K) (v : V)

/-- A new list stands for no cells. -/
theorem represents_new : (new k v : SkipList K V).Represents [] where
  shape :=
    { distinct := by simp [spine, new]
      allocated := by simp [spine, new]
      contents := by simp
      heights := by simp
      head_payload := ⟨_, rfl⟩
      tail_payload := ⟨_, rfl⟩ }
  linked := by
    intro level hlevel
    obtain rfl : level = 0 := Nat.le_zero.mp hlevel
    rintro p (rfl | htall)
    · exact ⟨1, ⟨Nat.one_pos, Nat.le_refl 1, by simp, by omega⟩, rfl, rfl⟩
    · exact absurd htall.le (by have := htall.pos; simp; omega)
  back := by
    intro p hp
    obtain rfl : p = 0 := Nat.le_zero.mp hp
    rfl
  topped := ⟨by simp, by simp, .inl rfl⟩
  sorted := List.Pairwise.nil
  length := rfl

end New

end SkipList

end RedisDB
