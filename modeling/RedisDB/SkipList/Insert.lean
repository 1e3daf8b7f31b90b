import RedisDB.SkipList.Search
import RedisDB.SkipList.Link

/-!
# `insert`

The search notes the last mark up to the new place on every level and its rank.
The new node goes behind that mark on the levels it is tall enough for, and the
span over it grows by one on the others.
-/

namespace RedisDB

open RedisDB.Library

namespace SkipList

variable {K V : Type} {s s' : SkipList K V} {cells before after : List (Cell K V)}
  {cell : Cell K V} {level m p q : Nat} {int : IntType} {limit : Nat}

/-! ## The notes of a search -/

/-- The entry of `ranks` for a level is the position of the last mark up to `m`. -/
def RankNoted (cells : List (Cell K V)) (m : Nat) (ranks : List Int) (level : Nat) : Prop :=
  ∀ p, PrevMark (tall cells level) m p → ranks[level]? = some (p : Int)

/-- What the search of `insert` has noted when `levels` levels are left. -/
structure RankedNotes (s : SkipList K V) (cells : List (Cell K V)) (m top levels p : Nat)
    (acc : List (Option Nat) × List Int) : Prop where
  length : acc.1.length = top + 1 ∧ acc.2.length = top + 1
  prevs : ∀ level, levels ≤ level → level ≤ s.mMaxLevel → s.PrevNoted cells m acc.1 level
  ranks : ∀ level, levels ≤ level → level ≤ s.mMaxLevel → RankNoted cells m acc.2 level
  current : 0 < levels → acc.2[levels - 1]? = some (p : Int)
  above : ∀ level, s.mMaxLevel < level → level ≤ top → acc.2[level]? = some 0

theorem addRank_notes {top : Nat} {acc : List (Option Nat) × List Int}
    (hint : int.HoldsUpTo limit) (hlimit : q ≤ limit)
    (hlevel : level ≤ s.mMaxLevel) (hnotes : s.RankedNotes cells m top (level + 1) p acc)
    (hspan : s.spanAt (s.place cells p) level = some ((q : Int) - p)) :
    ∃ acc', s.addRank int level (s.place cells p) acc = some acc' ∧
      s.RankedNotes cells m top (level + 1) q acc' := by
  have hcurrent : acc.2[level]? = some (p : Int) := hnotes.current (Nat.succ_pos level)
  have heval : int.eval ((p : Int) + (q - p)) = some ((p : Int) + (q - p)) :=
    hint.eval (by omega) (by omega)
  refine ⟨(acc.1, acc.2.set level (p + (q - p))), ?_, ?_, ?_, ?_, ?_, ?_⟩
  · simp only [addRank, hcurrent, hspan, heval, vectorSet_of_getElem? hcurrent,
      Option.bind_eq_bind, Option.bind_some]
  · simpa using hnotes.length
  · exact hnotes.prevs
  · intro l hlow hhigh r hprev
    rw [List.getElem?_set_ne (by omega)]
    exact hnotes.ranks l hlow hhigh r hprev
  · intro _
    obtain ⟨hlt, -⟩ := List.getElem?_eq_some_iff.mp hcurrent
    rw [Nat.add_sub_cancel, List.getElem?_set_self hlt]
    congr 1
    omega
  · intro l hlow hhigh
    rw [List.getElem?_set_ne (by omega)]
    exact hnotes.above l hlow hhigh

theorem noteRankedPrev_notes {top : Nat} {acc : List (Option Nat) × List Int}
    (hlevel : level ≤ s.mMaxLevel) (htop : s.mMaxLevel ≤ top)
    (hnotes : s.RankedNotes cells m top (level + 1) p acc)
    (hprev : PrevMark (tall cells level) m p) :
    ∃ acc', noteRankedPrev level (s.place cells p) acc = some acc' ∧
      s.RankedNotes cells m top level p acc' := by
  have hcurrent : acc.2[level]? = some (p : Int) := hnotes.current (Nat.succ_pos level)
  have hlt : level < acc.1.length := by rw [hnotes.length.1]; omega
  have hentry := List.getElem?_eq_getElem hlt
  have hprevs : ∀ l, level ≤ l → l ≤ s.mMaxLevel →
      s.PrevNoted cells m (acc.1.set level (some (s.place cells p))) l :=
    fun l hlow hhigh => PrevNoted.set hlt hprev hlow fun hmore => hnotes.prevs l hmore hhigh
  have hranks : ∀ l, level ≤ l → l ≤ s.mMaxLevel → RankNoted cells m acc.2 l := by
    intro l hlow hhigh r hr
    rcases Nat.eq_or_lt_of_le hlow with rfl | hmore
    · rw [hcurrent, hr.unique hprev]
    · exact hnotes.ranks l hmore hhigh r hr
  cases level with
  | zero =>
      refine ⟨(acc.1.set 0 (some (s.place cells p)), acc.2), ?_, ?_, hprevs, hranks,
        fun habsurd => absurd habsurd (Nat.lt_irrefl 0), hnotes.above⟩
      · simp [noteRankedPrev, vectorSet_of_getElem? hentry]
      · simpa using hnotes.length
  | succ below =>
      have hbelow : below < acc.2.length := by rw [hnotes.length.2]; omega
      refine ⟨(acc.1.set (below + 1) (some (s.place cells p)), acc.2.set below p), ?_, ?_,
        hprevs, ?_, ?_, ?_⟩
      · simp [noteRankedPrev, vectorSet_of_getElem? hentry, hcurrent,
          vectorSet_of_getElem? (List.getElem?_eq_getElem hbelow)]
      · simpa using hnotes.length
      · intro l hlow hhigh r hr
        rw [List.getElem?_set_ne (by omega)]
        exact hranks l hlow hhigh r hr
      · intro _
        rw [Nat.add_sub_cancel, List.getElem?_set_self hbelow]
      · intro l hlow hhigh
        rw [List.getElem?_set_ne (by omega)]
        exact hnotes.above l hlow hhigh

section Ranked

variable [LinearOrder K] {k : K}

/-- No cell reaches above the maximum level. -/
theorem Represents.not_tall (hrep : s.Represents cells) (hlevel : s.mMaxLevel < level) :
    ¬ tall cells level p := by
  cases p with
  | zero => exact id
  | succ p =>
      rintro ⟨cell, hcell, hheight⟩
      have := hrep.topped.bounded cell (List.mem_of_getElem? hcell)
      omega

/-- The search of `insert` ends at the cell `m` with all levels noted. -/
theorem insert_search_spec (hint : int.HoldsUpTo limit) (hlimit : m ≤ limit)
    (hrep : s.Represents cells) (hturns : TurnsAt (fun key => decide (k < key)) cells m)
    {top : Nat} (htop : s.mMaxLevel ≤ top) :
    ∃ nd prevs ranks, s.search (s.insertSearch int top k) = some (nd, prevs, ranks) ∧
      prevs.length = top + 1 ∧
      (∀ level, level ≤ s.mMaxLevel → s.PrevNoted cells m prevs level) ∧
      ∀ level, level ≤ top → RankNoted cells m ranks level := by
  have hstart : s.RankedNotes cells m top (s.mMaxLevel + 1) 0
      (List.replicate (top + 1) none, List.replicate (top + 1) 0) := by
    refine ⟨by simp, fun _ _ _ => by omega, fun _ _ _ => by omega, fun _ => ?_,
      fun l _ _ => ?_⟩
    · rw [Nat.add_sub_cancel, List.getElem?_replicate, if_pos (by omega)]
      rfl
    · rw [List.getElem?_replicate, if_pos (by omega)]
  obtain ⟨⟨prevs, ranks⟩, hsearch, hnotes⟩ :=
    search_spec (s.insertSearch int top k) (s.RankedNotes cells m top) hrep hturns
      (fun level p q acc hlevel hq hinv hspan =>
        addRank_notes hint (Nat.le_trans hq hlimit) hlevel hinv hspan)
      (fun level p acc hlevel hinv hprev => noteRankedPrev_notes hlevel htop hinv hprev)
      hstart
  refine ⟨_, prevs, ranks, hsearch, hnotes.length.1,
    fun l hl => hnotes.prevs l (Nat.zero_le l) hl, fun l hl r hr => ?_⟩
  rcases Nat.lt_or_ge s.mMaxLevel l with hgt | hle
  · -- above the old maximum no cell is marked, so the noted rank is that of the head
    have hzero : r = 0 := hr.mark.resolve_right (hrep.not_tall hgt)
    rw [hnotes.above l hgt hl, hzero]
    rfl
  · exact hnotes.ranks l (Nat.zero_le l) hle r hr

end Ranked

/-! ## The new node -/

section Alloc

variable {node : SkipListNode K V}

theorem Shape.place_ne_newAddr (hshape : s.Shape cells) (hp : p ≤ cells.length + 1) :
    s.place cells p ≠ s.newAddr :=
  Nat.ne_of_lt (hshape.place_lt hp)

theorem Shape.alloc (hshape : s.Shape cells) : (s.alloc node).1.Shape cells where
  distinct := hshape.distinct
  allocated nd hnd := Nat.lt_succ_of_lt (hshape.allocated nd hnd)
  contents := by
    intro cell hcell
    have hlt := hshape.allocated cell.addr (by simp [spine, List.mem_map_of_mem hcell])
    rw [payloadAt_alloc_of_ne (Nat.ne_of_lt hlt), hshape.contents cell hcell]
  heights := by
    intro cell hcell
    have hlt := hshape.allocated cell.addr (by simp [spine, List.mem_map_of_mem hcell])
    rw [heightAt_alloc_of_ne (Nat.ne_of_lt hlt), hshape.heights cell hcell]
  head_payload := by
    obtain ⟨payload, hpayload⟩ := hshape.head_payload
    have hlt := hshape.allocated s.mHead (by simp [spine])
    exact ⟨payload, (payloadAt_alloc_of_ne (Nat.ne_of_lt hlt)).trans hpayload⟩
  tail_payload := by
    obtain ⟨payload, hpayload⟩ := hshape.tail_payload
    have hlt := hshape.allocated s.mTail (by simp [spine])
    exact ⟨payload, (payloadAt_alloc_of_ne (Nat.ne_of_lt hlt)).trans hpayload⟩

/-- The list does not see a node that is allocated and not linked. -/
theorem Represents.alloc [LinearOrder K] (hrep : s.Represents cells) :
    (s.alloc node).1.Represents cells where
  shape := hrep.shape.alloc
  linked level hlevel := (hrep.linked level hlevel).congr rfl fun p hp => by
    have hne := hrep.shape.place_ne_newAddr (p := p) (by omega)
    exact ⟨nextAt_alloc_of_ne hne, spanAt_alloc_of_ne hne⟩
  back p hp :=
    (backAt_alloc_of_ne (hrep.shape.place_ne_newAddr (by omega))).trans (hrep.back p hp)
  topped := ⟨hrep.topped.positive, hrep.topped.bounded, hrep.topped.attained⟩
  sorted := hrep.sorted
  length := hrep.length

/-- A node with the contents and the height of a cell that is not yet linked. -/
structure Unlinked (s : SkipList K V) (cells : List (Cell K V)) (cell : Cell K V) :
    Prop where
  outside : cell.addr ∉ spine s.mHead s.mTail cells
  allocated : cell.addr < s.newAddr
  contents : s.payloadAt cell.addr = some (cell.key, cell.value)
  height : s.heightAt cell.addr = some cell.height
  back : ∃ back, s.backAt cell.addr = some back

/-- The link and the span of a node at a level are there to be overwritten. -/
def Readable (s : SkipList K V) (nd level : Nat) : Prop :=
  ∃ next span, s.nextAt nd level = some next ∧ s.spanAt nd level = some span

theorem Readable.of_sameReads {nd : Nat} (hread : s.Readable nd level)
    (hsame : SameReads s s' nd level) : s'.Readable nd level := by
  obtain ⟨next, span, hnext, hspan⟩ := hread
  exact ⟨next, span, hsame.1.trans hnext, hsame.2.trans hspan⟩

theorem readable_alloc (k : K) (v : V) {height : Nat} (hlevel : level < height) :
    (s.alloc (SkipListNode.newLevel k v height)).1.Readable s.newAddr level := by
  refine ⟨none, 0, ?_, ?_⟩
  · rw [nextAt, heap_alloc_self]
    exact getElem?_vectorResize_nil hlevel
  · rw [spanAt, heap_alloc_self]
    exact getElem?_vectorResize_nil hlevel

theorem Shape.unlinked_alloc (hshape : s.Shape cells) (k : K) (v : V) (height : Nat) :
    (s.alloc (SkipListNode.newLevel k v height)).1.Unlinked cells
      ⟨s.newAddr, k, v, height⟩ where
  outside hmem := Nat.lt_irrefl _ (hshape.allocated _ hmem)
  allocated := Nat.lt_succ_self _
  contents := by rw [payloadAt, heap_alloc_self]; rfl
  height := by
    rw [heightAt, heap_alloc_self]
    simp [SkipListNode.newLevel, SkipListNode.setLevelNum, length_vectorResize]
  back := ⟨none, by rw [backAt, heap_alloc_self]; rfl⟩

theorem Unlinked.ne_head (hnew : s.Unlinked cells cell) : cell.addr ≠ s.mHead :=
  fun heq => hnew.outside (heq ▸ List.mem_cons_self)

theorem Unlinked.of_sameNodes (hnew : s.Unlinked cells cell) (hsame : SameNodes s s') :
    s'.Unlinked cells cell where
  outside := by rw [hsame.mHead, hsame.mTail]; exact hnew.outside
  allocated := by rw [hsame.newAddr]; exact hnew.allocated
  contents := by rw [hsame.payloadAt]; exact hnew.contents
  height := by rw [hsame.heightAt _ hnew.ne_head]; exact hnew.height
  back := by rw [hsame.backAt]; exact hnew.back

theorem Unlinked.place_ne (hnew : s.Unlinked cells cell) (hp : p ≤ cells.length + 1) :
    s.place cells p ≠ cell.addr :=
  fun heq => hnew.outside (heq ▸ addrAt_mem_spine hp)

end Alloc

/-! ## Levels above the maximum -/

section Raise

variable {prevs prevs' : List (Option Nat)} {high : Nat}

/-- The levels above the maximum, up to `high`, lead from the head to the tail. -/
structure Raised (s s' : SkipList K V) (prevs prevs' : List (Option Nat)) (high : Nat) :
    Prop where
  same : SameNodes s s'
  other : ∀ nd level, nd ≠ s.mHead ∨ level ≤ s.mMaxLevel ∨ high < level →
    SameReads s s' nd level
  prevs : ∀ level, level ≤ s.mMaxLevel ∨ high < level → prevs'[level]? = prevs[level]?
  raised : ∀ level, s.mMaxLevel < level → level ≤ high →
    s'.nextAt s.mHead level = some (some s.mTail) ∧
      s'.spanAt s.mHead level = some s.mLength ∧ prevs'[level]? = some (some s.mHead)

/-- One round of the raising loop leads the head to the tail at level `i`. -/
theorem raiseRound_spec {i : Nat} (hnext : (s.nextAt s.mHead i).isSome)
    (hspan : (s.spanAt s.mHead i).isSome) :
    ∃ s₁ s₂, s.setNext s.mHead i (some s.mTail) = some s₁ ∧
      s₁.setSpan s₁.mHead i s₁.mLength = some s₂ ∧ s₁.mHead = s.mHead ∧ SameNodes s s₂ ∧
      s₂.nextAt s.mHead i = some (some s.mTail) ∧ s₂.spanAt s.mHead i = some s.mLength ∧
      ∀ nd level, nd ≠ s.mHead ∨ level ≠ i → SameReads s s₂ nd level := by
  obtain ⟨old, hold⟩ := Option.isSome_iff_exists.mp hnext
  obtain ⟨oldSpan, holdSpan⟩ := Option.isSome_iff_exists.mp hspan
  obtain ⟨s₁, hset₁, hsame₁, hnext₁, hspan₁⟩ := setNext_spec hold (some s.mTail)
  have hread₁ : s₁.spanAt s₁.mHead i = some oldSpan := by
    rw [hsame₁.mHead, hspan₁, holdSpan]
  obtain ⟨s₂, hset₂, hsame₂, hnext₂, hspan₂⟩ := setSpan_spec hread₁ s₁.mLength
  rw [hnext₁] at hnext₂
  rw [hspan₁, hsame₁.mHead, hsame₁.mLength] at hspan₂
  refine ⟨s₁, s₂, hset₁, hset₂, hsame₁.mHead, hsame₁.trans hsame₂,
    by rw [hnext₂, overwrite_self], by rw [hspan₂, overwrite_self], ?_⟩
  rintro nd level (hnd | hlevel)
  · exact ⟨by rw [hnext₂, overwrite_of_ne_node hnd], by rw [hspan₂, overwrite_of_ne_node hnd]⟩
  · exact ⟨by rw [hnext₂, overwrite_of_ne_level hlevel],
      by rw [hspan₂, overwrite_of_ne_level hlevel]⟩

theorem raiseLoop_spec {count : Nat}
    (hreads : ∀ level, s.mMaxLevel < level → level ≤ s.mMaxLevel + count →
      (s.nextAt s.mHead level).isSome ∧ (s.spanAt s.mHead level).isSome)
    (hlength : s.mMaxLevel + count < prevs.length) :
    ∃ s' prevs', s.raiseLoop prevs count = some (s', prevs') ∧
      Raised s s' prevs prevs' (s.mMaxLevel + count) := by
  induction count generalizing s prevs with
  | zero =>
      exact ⟨s, prevs, rfl, SameNodes.refl s, fun _ _ _ => SameReads.refl _ _ _,
        fun _ _ => rfl, fun _ _ _ => by omega⟩
  | succ count ih =>
      obtain ⟨hnext, hspan⟩ := hreads (s.mMaxLevel + count + 1) (by omega) (by omega)
      obtain ⟨s₁, s₂, hset₁, hset₂, hhead, hsame, hnext₂, hspan₂, hother⟩ :=
        raiseRound_spec hnext hspan
      have hentry := List.getElem?_eq_getElem (l := prevs) (i := s.mMaxLevel + count + 1)
        (by omega)
      have hreads₂ : ∀ level, s₂.mMaxLevel < level → level ≤ s₂.mMaxLevel + count →
          (s₂.nextAt s₂.mHead level).isSome ∧ (s₂.spanAt s₂.mHead level).isSome := by
        rw [hsame.mMaxLevel, hsame.mHead]
        intro level hlow hhigh
        have hread := hother s.mHead level (.inr (by omega))
        rw [hread.1, hread.2]
        exact hreads level hlow (by omega)
      have hlength₂ : s₂.mMaxLevel + count <
          (prevs.set (s.mMaxLevel + count + 1) (some s.mHead)).length := by
        rw [hsame.mMaxLevel, List.length_set]
        omega
      obtain ⟨s', prevs', hloop, hraised⟩ := ih hreads₂ hlength₂
      rw [hsame.mMaxLevel] at hraised
      refine ⟨s', prevs', ?_, hsame.trans hraised.same, ?_, ?_, ?_⟩
      · simp only [raiseLoop, Option.bind_eq_bind, Option.bind_some,
          vectorSet_of_getElem? hentry, hset₁]
        rw [← hhead, hset₂, Option.bind_some, hhead, hloop]
      · intro nd level hcase
        refine (hother nd level (by omega)).trans (hraised.other nd level ?_)
        rw [hsame.mHead, hsame.mMaxLevel]
        omega
      · intro level hcase
        rw [hraised.prevs level (by rw [hsame.mMaxLevel]; omega),
          List.getElem?_set_ne (by omega)]
      · intro level hlow hhigh
        rcases Nat.lt_or_ge (s.mMaxLevel + count) level with hnew | hrest
        · obtain rfl : level = s.mMaxLevel + count + 1 := by omega
          have hread := hraised.other s.mHead (s.mMaxLevel + count + 1)
            (.inr (.inr (by omega)))
          rw [hread.1, hread.2, hraised.prevs _ (.inr (by omega)),
            List.getElem?_set_self (by omega)]
          exact ⟨hnext₂, hspan₂, rfl⟩
        · have hread := hraised.raised level (by rw [hsame.mMaxLevel]; omega) hrest
          rwa [hsame.mHead, hsame.mTail, hsame.mLength] at hread

/-- A level no cell reaches is linked when the head leads to the tail. -/
theorem Linked.of_not_tall (hnone : ∀ p, ¬ tall cells level p)
    (hlink : s.nextAt s.mHead level = some (some s.mTail))
    (hspan : s.spanAt s.mHead level = some (cells.length : Int)) : s.Linked cells level := by
  rintro p (rfl | htall)
  · refine ⟨cells.length + 1, ⟨Nat.succ_pos _, Nat.le_refl _, by omega, fun r _ _ => hnone r⟩,
      ?_, ?_⟩
    · rw [place, place, addrAt_zero, addrAt_length, hlink]
    · rw [place, addrAt_zero, hspan]
      congr 1
      omega
  · exact absurd htall (hnone p)

/-- Raising the levels keeps what can be read at the levels that were there. -/
theorem raise_of_gt (hshape : s.Shape cells) (hraise : s.mMaxLevel < level)
    (hlength : prevs.length = level + 1)
    (hdefined : ∀ l, l ≤ s.mMaxLevel → s.Readable s.mHead l) :
    ∃ s' prevs', s.raise level prevs = some (s', prevs') ∧ SameNodes s s' ∧
      (∀ nd l, nd ≠ s.mHead ∨ l ≤ s.mMaxLevel → SameReads s s' nd l) ∧
      (∀ l, l ≤ s.mMaxLevel → prevs'[l]? = prevs[l]?) ∧
      ∀ l, s.mMaxLevel < l → l ≤ level → s'.nextAt s.mHead l = some (some s.mTail) ∧
        s'.spanAt s.mHead l = some s.mLength ∧ prevs'[l]? = some (some s.mHead) := by
  obtain ⟨payload, hpayload⟩ := hshape.head_payload
  obtain ⟨s₁, hset, hsame₁, hother₁, hnext₁, hspan₁, hdefined₁⟩ :=
    setLevelNum_head_spec hpayload (level + 1)
  have hcount : s₁.mMaxLevel + (level - s₁.mMaxLevel) = level := by
    rw [hsame₁.mMaxLevel]
    omega
  have hreads₁ : ∀ l, s₁.mMaxLevel < l → l ≤ s₁.mMaxLevel + (level - s₁.mMaxLevel) →
      (s₁.nextAt s₁.mHead l).isSome ∧ (s₁.spanAt s₁.mHead l).isSome := by
    rw [hcount, hsame₁.mHead]
    exact fun l _ hl => hdefined₁ l (by omega)
  have hlength₁ : s₁.mMaxLevel + (level - s₁.mMaxLevel) < prevs.length := by
    rw [hcount, hlength]
    omega
  obtain ⟨s', prevs', hloop, hraised⟩ := raiseLoop_spec hreads₁ hlength₁
  rw [hcount] at hraised
  obtain ⟨hsame, hrest, hprevs, hnew⟩ := hraised
  rw [hsame₁.mHead, hsame₁.mMaxLevel] at hrest
  rw [hsame₁.mMaxLevel] at hprevs
  rw [hsame₁.mHead, hsame₁.mMaxLevel, hsame₁.mTail, hsame₁.mLength] at hnew
  refine ⟨s', prevs', by simp [raise, hraise, hset, hloop], hsame₁.trans hsame, ?_,
    fun l hl => hprevs l (.inl hl), hnew⟩
  intro nd l hcase
  refine SameReads.trans ?_ (hrest nd l (hcase.imp id .inl))
  by_cases hnd : nd = s.mHead
  · -- the head keeps the entries it had; only stale ones above the new levels are cut off
    subst hnd
    have hlow := hcase.resolve_left (fun hne => hne rfl)
    obtain ⟨next, span, hnext, hspan⟩ := hdefined l hlow
    exact ⟨(hnext₁ l next (by omega) hnext).trans hnext.symm,
      (hspan₁ l span (by omega) hspan).trans hspan.symm⟩
  · exact hother₁ nd l hnd

/-- After the levels are raised every level up to that of the new node is linked and
noted. -/
theorem raise_spec [LinearOrder K] (hrep : s.Represents cells)
    (hlength : prevs.length = max s.mMaxLevel level + 1)
    (hnoted : ∀ l, l ≤ s.mMaxLevel → s.PrevNoted cells m prevs l) :
    ∃ s' prevs', s.raise level prevs = some (s', prevs') ∧ SameNodes s s' ∧
      (∀ nd l, nd ≠ s.mHead → SameReads s s' nd l) ∧
      (∀ l, l ≤ max s.mMaxLevel level → s'.Linked cells l) ∧
      ∀ l, l ≤ max s.mMaxLevel level → s'.PrevNoted cells m prevs' l := by
  by_cases hraise : level > s.mMaxLevel
  · have hmax : max s.mMaxLevel level = level := by omega
    rw [hmax] at hlength
    have hdefined : ∀ l, l ≤ s.mMaxLevel → s.Readable s.mHead l := by
      intro l hl
      obtain ⟨q, hq⟩ := hrep.linked l hl 0 (.inl rfl)
      exact ⟨_, _, hq.link, hq.span⟩
    obtain ⟨s', prevs', hset, hsame, hreads, hprevs, hnew⟩ :=
      raise_of_gt hrep.shape hraise hlength hdefined
    rw [hmax]
    refine ⟨s', prevs', hset, hsame, fun nd l hnd => hreads nd l (.inl hnd), ?_, ?_⟩
    · intro l hl
      rcases Nat.lt_or_ge s.mMaxLevel l with hgt | hle
      · obtain ⟨hnext, hspan, -⟩ := hnew l hgt hl
        rw [← hsame.mHead, ← hsame.mTail] at hnext
        rw [← hsame.mHead, hrep.length] at hspan
        exact Linked.of_not_tall (fun p => hrep.not_tall hgt) hnext hspan
      · exact (hrep.linked l hle).congr hsame.place fun p _ => hreads _ l (.inr hle)
    · intro l hl
      rcases Nat.lt_or_ge s.mMaxLevel l with hgt | hle
      · refine ⟨0, ⟨Nat.zero_le m, .inl rfl, fun r _ _ => hrep.not_tall hgt⟩, ?_⟩
        rw [(hnew l hgt hl).2.2, place, addrAt_zero, hsame.mHead]
      · obtain ⟨p, hp, hentry⟩ := (hnoted l hle).of_sameNodes hsame
        exact ⟨p, hp, by rw [hprevs l hle, hentry]⟩
  · have hmax : max s.mMaxLevel level = s.mMaxLevel := by omega
    rw [hmax]
    exact ⟨s, prevs, by rw [raise, if_neg hraise], SameNodes.refl s,
      fun _ _ _ => SameReads.refl _ _ _, hrep.linked, hnoted⟩

end Raise

/-! ## Linking -/

section LinkNew

variable {prevs : List (Option Nat)} {ranks : List Int}

/-- A round at a level the new node reaches writes two links and two spans. -/
theorem linkLevel_of_le {i prev newNode : Nat} {next : Option Nat} {span first rank : Int}
    (hpassed : int.eval (first - rank) = some (first - rank))
    (hrest : int.eval (span - (first - rank)) = some (span - (first - rank)))
    (hmore : int.eval (first - rank + 1) = some (first - rank + 1))
    (htall : i ≤ level) (hentry : prevs[i]? = some (some prev))
    (hfirst : ranks[0]? = some first) (hrank : ranks[i]? = some rank)
    (hnext : s.nextAt prev i = some next) (hspan : s.spanAt prev i = some span)
    (hread : s.Readable newNode i) (hne : prev ≠ newNode) :
    ∃ s', s.linkLevel int newNode level prevs ranks i = some s' ∧ SameNodes s s' ∧
      s'.nextAt = overwrite (overwrite s.nextAt prev i (some newNode)) newNode i next ∧
      s'.spanAt = overwrite (overwrite s.spanAt newNode i (span - (first - rank))) prev i
        (first - rank + 1) := by
  obtain ⟨old, oldSpan, hold, holdSpan⟩ := hread
  obtain ⟨s₁, hset₁, hsame₁, hnext₁, hspan₁⟩ := setSpan_spec holdSpan (span - (first - rank))
  have hread₂ : s₁.spanAt prev i = some span := by
    rw [hspan₁, overwrite_of_ne_node hne, hspan]
  obtain ⟨s₂, hset₂, hsame₂, hnext₂, hspan₂⟩ := setSpan_spec hread₂ (first - rank + 1)
  have hread₃ : s₂.nextAt prev i = some next := by rw [hnext₂, hnext₁, hnext]
  obtain ⟨s₃, hset₃, hsame₃, hnext₃, hspan₃⟩ := setNext_spec hread₃ (some newNode)
  have hread₄ : s₃.nextAt newNode i = some old := by
    rw [hnext₃, overwrite_of_ne_node (Ne.symm hne), hnext₂, hnext₁, hold]
  obtain ⟨s', hset₄, hsame₄, hnext₄, hspan₄⟩ := setNext_spec hread₄ next
  refine ⟨s', ?_, ((hsame₁.trans hsame₂).trans hsame₃).trans hsame₄, ?_, ?_⟩
  · simp only [linkLevel, hentry, hnext, hspan, if_pos htall, hfirst, hrank, hpassed, hrest,
      hmore, Option.bind_eq_bind, Option.bind_some, hset₁, hset₂, hset₃, hset₄]
  · rw [hnext₄, hnext₃, hnext₂, hnext₁]
  · rw [hspan₄, hspan₃, hspan₂, hspan₁]

/-- A round at a level above the new node writes one span. -/
theorem linkLevel_of_gt {i prev newNode : Nat} {next : Option Nat} {span : Int}
    (hmore : int.eval (span + 1) = some (span + 1))
    (hshort : ¬ i ≤ level) (hentry : prevs[i]? = some (some prev))
    (hnext : s.nextAt prev i = some next) (hspan : s.spanAt prev i = some span) :
    ∃ s', s.linkLevel int newNode level prevs ranks i = some s' ∧ SameNodes s s' ∧
      s'.nextAt = s.nextAt ∧ s'.spanAt = overwrite s.spanAt prev i (span + 1) := by
  obtain ⟨s', hset, hsame, hnext', hspan'⟩ := setSpan_spec hspan (span + 1)
  refine ⟨s', ?_, hsame, hnext', hspan'⟩
  simp only [linkLevel, hentry, hnext, hspan, if_neg hshort, hmore, Option.bind_eq_bind,
    Option.bind_some, hset]

/-- One round of the linking loop links the new node at its level. -/
theorem linkLevel_spec {i : Nat} (hint : int.HoldsUpTo limit)
    (hlimit : (before ++ after).length < limit) (hheight : cell.height = level + 1)
    (hshape : s.Shape (before ++ after)) (hlinked : s.Linked (before ++ after) i)
    (hnoted : s.PrevNoted (before ++ after) before.length prevs i)
    (hrank : RankNoted (before ++ after) before.length ranks i)
    (hfirst : ranks[0]? = some (before.length : Int))
    (hne : ∀ p, p ≤ (before ++ after).length + 1 → s.place (before ++ after) p ≠ cell.addr)
    (hreads : i < cell.height → s.Readable cell.addr i) :
    ∃ s', s.linkLevel int cell.addr level prevs ranks i = some s' ∧ SameNodes s s' ∧
      (∀ nd l, l ≠ i → SameReads s s' nd l) ∧ s'.Linked (before ++ cell :: after) i := by
  obtain ⟨p, hprev, hentry⟩ := hnoted
  obtain ⟨q, hq⟩ := hlinked p hprev.mark
  have hp := hprev.le
  have hm := length_before_le before after
  have hturn := hprev.lt_next hq.next hm
  have hnew := hne p (by omega)
  have hother : ∀ r, r ≤ (before ++ after).length → r ≠ p →
      s.place (before ++ after) r ≠ s.place (before ++ after) p :=
    fun r hr hrp => hshape.place_ne (by omega) hr hrp
  by_cases htall : i ≤ level
  · obtain ⟨s', hround, hsame, hnext, hspan⟩ := linkLevel_of_le
      (hint.eval (by omega) (by omega)) (hint.eval (by omega) (by omega))
      (hint.eval (by omega) (by omega)) htall hentry hfirst (hrank p hprev) hq.link hq.span
      (hreads (by omega)) hnew
    have hmark : s'.LinkedAt (before ++ cell :: after) i p (before.length + 1) :=
      hq.insert_at hsame hp hturn (by omega)
        (by rw [hnext, overwrite_of_ne_node hnew, overwrite_self])
        (by rw [hspan, overwrite_self])
    have hcell : s'.LinkedAt (before ++ cell :: after) i (before.length + 1) (q + 1) := by
      refine hq.insert_new hsame hp hturn (by rw [hnext, overwrite_self, hq.link]) ?_
      intro old hold
      cases hq.span.symm.trans hold
      rw [hspan, overwrite_of_ne_node (Ne.symm hnew), overwrite_self]
    refine ⟨s', hround, hsame, ?_, hlinked.insert hsame hprev ?_ ⟨_, hmark⟩ fun _ => ⟨_, hcell⟩⟩
    · intro nd l hl
      exact ⟨by rw [hnext, overwrite_of_ne_level hl, overwrite_of_ne_level hl],
        by rw [hspan, overwrite_of_ne_level hl, overwrite_of_ne_level hl]⟩
    · intro r hr hrp
      have hrcell := hne r (by omega)
      have hrprev := hother r hr hrp
      exact ⟨by rw [hnext, overwrite_of_ne_node hrcell, overwrite_of_ne_node hrprev],
        by rw [hspan, overwrite_of_ne_node hrprev, overwrite_of_ne_node hrcell]⟩
  · obtain ⟨s', hround, hsame, hnext, hspan⟩ :=
      linkLevel_of_gt (hint.eval (by omega) (by omega)) htall hentry hq.link hq.span
    have hmark : s'.LinkedAt (before ++ cell :: after) i p (q + 1) := by
      refine hq.insert_over hsame hp hturn (by omega) (by rw [hnext]) ?_
      intro old hold
      cases hq.span.symm.trans hold
      rw [hspan, overwrite_self]
    refine ⟨s', hround, hsame, ?_, hlinked.insert hsame hprev ?_ ⟨_, hmark⟩ fun _ => by omega⟩
    · intro nd l hl
      exact ⟨by rw [hnext], by rw [hspan, overwrite_of_ne_level hl]⟩
    · intro r hr hrp
      exact ⟨by rw [hnext], by rw [hspan, overwrite_of_ne_node (hother r hr hrp)]⟩

/-- The linking loop links the new node on every level it reaches. -/
theorem linkLoop_spec {top count : Nat} (hint : int.HoldsUpTo limit)
    (hlimit : (before ++ after).length < limit) (hheight : cell.height = level + 1)
    (hshape : s.Shape (before ++ after)) (hnew : s.Unlinked (before ++ after) cell)
    (hlinked : ∀ l, l ≤ top → s.Linked (before ++ after) l)
    (hnoted : ∀ l, l ≤ top → s.PrevNoted (before ++ after) before.length prevs l)
    (hranks : ∀ l, l ≤ top → RankNoted (before ++ after) before.length ranks l)
    (hfirst : ranks[0]? = some (before.length : Int))
    (hreads : ∀ l, l < cell.height → s.Readable cell.addr l) (hcount : count ≤ top + 1) :
    ∃ s', s.linkLoop int cell.addr level prevs ranks count = some s' ∧ SameNodes s s' ∧
      (∀ nd l, count ≤ l → SameReads s s' nd l) ∧
      ∀ l, l < count → s'.Linked (before ++ cell :: after) l := by
  induction count with
  | zero =>
      exact ⟨s, rfl, SameNodes.refl s, fun _ _ _ => SameReads.refl _ _ _,
        fun _ habsurd => absurd habsurd (Nat.not_lt_zero _)⟩
  | succ i ih =>
      obtain ⟨s₁, hloop, hsame₁, hrest, hdone⟩ := ih (by omega)
      obtain ⟨s', hlevel, hsame, hother, hlink⟩ :=
        linkLevel_spec hint hlimit hheight (hshape.of_sameNodes hsame₁)
          ((hlinked i (by omega)).congr hsame₁.place fun p _ => hrest _ i (Nat.le_refl i))
          ((hnoted i (by omega)).of_sameNodes hsame₁) (hranks i (by omega)) hfirst
          (fun p hp => (hnew.of_sameNodes hsame₁).place_ne hp)
          (fun hi => (hreads i hi).of_sameReads (hrest _ i (Nat.le_refl i)))
      refine ⟨s', ?_, hsame₁.trans hsame, ?_, ?_⟩
      · simp only [linkLoop, hloop, Option.bind_eq_bind, Option.bind_some, hlevel]
      · intro nd l hl
        exact (hrest nd l (by omega)).trans (hother nd l (by omega))
      · intro l hl
        rcases Nat.eq_or_lt_of_le (Nat.le_of_lt_succ hl) with rfl | hlt
        · exact hlink
        · exact (hdone l hlt).congr hsame.place fun p _ => hother _ l (by omega)

/-- The new node and the one after it get their back links. -/
theorem linkBack_spec (hshape : s.Shape (before ++ after))
    (hnew : s.Unlinked (before ++ after) cell) (hback : s.BackLinked (before ++ after))
    (hentry : prevs[0]? = some (some (s.place (before ++ after) before.length)))
    (hlink : s.nextAt cell.addr 0 =
      some (some (s.place (before ++ after) (before.length + 1)))) :
    ∃ s', s.linkBack cell.addr prevs = some s' ∧ SameLinks s s' ∧
      s'.BackLinked (before ++ cell :: after) := by
  have hm := length_before_le before after
  have hne := hnew.place_ne (p := before.length + 1) (by omega)
  obtain ⟨old, hold⟩ := hnew.back
  obtain ⟨s₁, hset₁, hsame₁, hback₁⟩ :=
    setBack_spec hold (some (s.place (before ++ after) before.length))
  have hread₁ : s₁.backAt (s.place (before ++ after) (before.length + 1)) =
      some (some (s.place (before ++ after) before.length)) := by
    rw [hback₁, Function.update_of_ne hne, hback before.length hm]
  obtain ⟨s', hset₂, hsame₂, hback₂⟩ := setBack_spec hread₁ (some cell.addr)
  have hsame := hsame₁.trans hsame₂
  refine ⟨s', ?_, hsame, ?_⟩
  · simp only [linkBack, hentry, Option.bind_eq_bind, Option.bind_some, hset₁,
      hsame₁.nextAt, hlink, hset₂]
  · intro p hp
    rw [hback₂, hback₁]
    rcases Nat.lt_trichotomy p before.length with hlt | rfl | hgt
    · rw [place_middle_le hsame.mHead hsame.mTail hlt,
        place_middle_le hsame.mHead hsame.mTail (by omega), Function.update_of_ne,
        Function.update_of_ne (hnew.place_ne (by omega)), hback p (by omega)]
      intro heq
      have := hshape.place_injective (by omega) (by omega) heq
      omega
    · rw [place_middle, place_middle_le hsame.mHead hsame.mTail (Nat.le_refl _),
        Function.update_of_ne (Ne.symm hne), Function.update_self]
    · rw [length_middle] at hp
      obtain ⟨p, rfl⟩ : ∃ p', p = p' + 1 := ⟨p - 1, by omega⟩
      rw [place_middle_gt hsame.mHead hsame.mTail (by omega)]
      rcases Nat.eq_or_lt_of_le (Nat.le_of_lt_succ hgt) with rfl | hmore
      · rw [Function.update_self, place_middle]
      · rw [place_middle_gt hsame.mHead hsame.mTail hmore, Function.update_of_ne,
          Function.update_of_ne (hnew.place_ne (by omega)), hback p (by omega)]
        intro heq
        have := hshape.place_injective (by omega) (by omega) heq
        omega

end LinkNew

/-! ## The whole call -/

theorem Shape.insert (hshape : s.Shape (before ++ after))
    (hnew : s.Unlinked (before ++ after) cell) : s.Shape (before ++ cell :: after) := by
  have hperm : (spine s.mHead s.mTail (before ++ cell :: after)).Perm
      (cell.addr :: spine s.mHead s.mTail (before ++ after)) := by
    simp only [spine, List.map_append, List.map_cons, List.append_assoc, List.cons_append]
    exact (List.Perm.cons _ List.perm_middle).trans (List.Perm.swap _ _ _)
  refine ⟨?_, ?_, ?_, ?_, hshape.head_payload, hshape.tail_payload⟩
  · exact hperm.nodup_iff.mpr (List.nodup_cons.mpr ⟨hnew.outside, hshape.distinct⟩)
  · intro nd hnd
    rcases List.mem_cons.mp (hperm.mem_iff.mp hnd) with rfl | hold
    · exact hnew.allocated
    · exact hshape.allocated nd hold
  · intro other hother
    rcases List.mem_cons.mp (List.perm_middle.mem_iff.mp hother) with rfl | hold
    · exact hnew.contents
    · exact hshape.contents other hold
  · intro other hother
    rcases List.mem_cons.mp (List.perm_middle.mem_iff.mp hother) with rfl | hold
    · exact hnew.height
    · exact hshape.heights other hold

theorem Topped.insert {top : Nat} (htopped : Topped (before ++ after) top)
    (hheight : cell.height = level + 1) :
    Topped (before ++ cell :: after) (max top level) where
  positive := by
    intro other hother
    rcases List.mem_cons.mp (List.perm_middle.mem_iff.mp hother) with rfl | hold
    · omega
    · exact htopped.positive other hold
  bounded := by
    intro other hother
    rcases List.mem_cons.mp (List.perm_middle.mem_iff.mp hother) with rfl | hold
    · omega
    · have := htopped.bounded other hold
      omega
  attained := by
    rcases Nat.lt_or_ge level top with hlow | hhigh
    · rw [Nat.max_eq_left (Nat.le_of_lt hlow)]
      obtain ⟨other, hother, hheight'⟩ := htopped.attained.resolve_left (by omega)
      exact .inr ⟨other, List.perm_middle.mem_iff.mpr (.tail _ hother), hheight'⟩
    · rw [Nat.max_eq_right hhigh]
      exact .inr ⟨cell, by simp, hheight⟩

section Whole

variable [LinearOrder K] {k : K}

theorem pairwise_insert (hsorted : (before ++ after).Pairwise (·.key ≤ ·.key))
    (hbefore : ∀ other ∈ before, other.key ≤ cell.key)
    (hafter : ∀ other ∈ after, cell.key < other.key) :
    (before ++ cell :: after).Pairwise (·.key ≤ ·.key) := by
  obtain ⟨hfirst, hsecond, hcross⟩ := List.pairwise_append.mp hsorted
  refine List.pairwise_append.mpr ⟨hfirst,
    List.pairwise_cons.mpr ⟨fun other hother => le_of_lt (hafter other hother), hsecond⟩, ?_⟩
  intro other hother later hlater
  rcases List.mem_cons.mp hlater with rfl | hold
  · exact hbefore other hother
  · exact hcross other hother later hold

/-- `insert` puts a new cell of the drawn height behind all cells with keys up to its own. -/
theorem insert_spec (hint : int.HoldsUpTo limit) (hlimit : (before ++ after).length < limit)
    (hrep : s.Represents (before ++ after))
    (hbefore : ∀ other ∈ before, other.key ≤ k) (hafter : ∀ other ∈ after, k < other.key)
    (level : Nat) (v : V) :
    ∃ s', s.insert int level k v = some (s', true) ∧
      s'.Represents (before ++ ⟨s.newAddr, k, v, level + 1⟩ :: after) ∧ KeepsPayloads s s' := by
  have hturns : TurnsAt (fun key => decide (k < key)) (before ++ after) before.length :=
    turnsAt_append (fun other hother => decide_eq_false (not_lt.mpr (hbefore other hother)))
      (fun other hother => decide_eq_true (hafter other hother))
  obtain ⟨s₁, hs₁⟩ : ∃ s₁, s₁ = (s.alloc (SkipListNode.newLevel k v (level + 1))).1 :=
    ⟨_, rfl⟩
  have halloc : s.alloc (SkipListNode.newLevel k v (level + 1)) = (s₁, s.newAddr) := by
    rw [hs₁]
    rfl
  have hrep₁ : s₁.Represents (before ++ after) := hs₁ ▸ hrep.alloc
  have hnew₁ : s₁.Unlinked (before ++ after) ⟨s.newAddr, k, v, level + 1⟩ :=
    hs₁ ▸ hrep.shape.unlinked_alloc k v (level + 1)
  have hreads₁ : ∀ l, l < level + 1 → s₁.Readable s.newAddr l :=
    fun l hl => hs₁ ▸ readable_alloc k v hl
  obtain ⟨nd, prevs, ranks, hsearch, hlength, hnoted₁, hranks⟩ :=
    insert_search_spec hint (Nat.le_trans hturns.le (Nat.le_of_lt hlimit)) hrep₁ hturns
      (Nat.le_max_left s₁.mMaxLevel level)
  obtain ⟨s₂, prevs₂, hraise, hsame₂, hother₂, hlinked₂, hnoted₂⟩ :=
    raise_spec hrep₁ hlength hnoted₁
  have hshape₂ := hrep₁.shape.of_sameNodes hsame₂
  have hnew₂ := hnew₁.of_sameNodes hsame₂
  obtain ⟨p, hprev, hentry⟩ := hnoted₂ 0 (Nat.zero_le _)
  obtain rfl : p = before.length := hrep.prev_at_bottom hturns.le hprev
  have hfirst := hranks 0 (Nat.zero_le _) _ hprev
  obtain ⟨s₃, hlink, hsame₃, -, hlinked₃⟩ :=
    linkLoop_spec hint hlimit rfl hshape₂ hnew₂ hlinked₂ hnoted₂ hranks hfirst
      (fun l hl => (hreads₁ l hl).of_sameReads (hother₂ _ l hnew₁.ne_head)) (Nat.le_refl _)
  have hshape₃ := hshape₂.of_sameNodes hsame₃
  have hnew₃ := hnew₂.of_sameNodes hsame₃
  have hback₃ := (hrep₁.back.of_sameNodes hsame₂).of_sameNodes hsame₃
  have htopped : Topped (before ++ ⟨s.newAddr, k, v, level + 1⟩ :: after)
    (max s₁.mMaxLevel level) := hrep₁.topped.insert rfl
  obtain ⟨q, hq⟩ := hlinked₃ 0 (Nat.succ_pos _) (before.length + 1)
    (.inr ⟨_, getElem?_middle, Nat.succ_pos level⟩)
  obtain rfl : q = before.length + 1 + 1 :=
    hq.next.eq_succ fun r hlow hhigh => tall_zero htopped.positive hlow hhigh
  have hlink₃ := hq.link
  rw [place_middle, place_middle_gt rfl rfl (Nat.lt_succ_self _)] at hlink₃
  obtain ⟨s₄, hback, hsame₄, hback₄⟩ :=
    linkBack_spec hshape₃ hnew₃ hback₃ (by rw [hentry, hsame₃.place]) hlink₃
  have hlength₄ : s₄.mLength = (before ++ after).length := by
    rw [hsame₄.mLength, hsame₃.mLength, hsame₂.mLength, hrep₁.length]
  have hcounted : int.eval (s₄.mLength + 1) = some (s₄.mLength + 1) :=
    hint.eval (by omega) (by omega)
  have hkeeps₁ : KeepsPayloads s s₁ := hs₁ ▸ keepsPayloads_alloc
  have hkeeps₄ : KeepsPayloads s s₄ := ((hkeeps₁.trans hsame₂.keepsPayloads).trans
    hsame₃.keepsPayloads).trans hsame₄.keepsPayloads
  refine ⟨{ s₄ with mMaxLevel := max s₁.mMaxLevel level, mLength := s₄.mLength + 1 }, ?_, ?_,
    hkeeps₄.counters _ _⟩
  · simp only [insert, halloc, hsearch, hraise, hlink, hback, hcounted, Option.bind_eq_bind,
      Option.bind_some]
  · refine ((hshape₃.insert hnew₃).of_sameLinks hsame₄).represents ?_ hback₄ htopped
      (pairwise_insert hrep.sorted hbefore hafter) ?_
    · exact fun l hl => (hlinked₃ l (Nat.lt_succ_of_le hl)).of_sameLinks hsame₄
    · rw [length_middle, hlength₄]
      rfl

end Whole

end SkipList

end RedisDB
