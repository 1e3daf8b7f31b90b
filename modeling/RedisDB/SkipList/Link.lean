import RedisDB.SkipList.Representation

/-!
# Links around one cell

What becomes of the links of a level when a cell comes in or goes out.  Only
the last mark before the cell gets a new link or span; every other link joins
the same two nodes as before, whose positions may have moved by one.
-/

namespace RedisDB

open RedisDB.Library

namespace SkipList

variable {K V : Type} {s s' : SkipList K V} {before after : List (Cell K V)}
  {cell : Cell K V} {level p q prev : Nat}

/-- The two states read the same link and span of a node at a level. -/
def SameReads (s s' : SkipList K V) (nd level : Nat) : Prop :=
  s'.nextAt nd level = s.nextAt nd level ∧ s'.spanAt nd level = s.spanAt nd level

theorem SameReads.refl (s : SkipList K V) (nd level : Nat) : SameReads s s nd level :=
  ⟨rfl, rfl⟩

theorem SameReads.trans {s'' : SkipList K V} {nd : Nat} (hfirst : SameReads s s' nd level)
    (hsecond : SameReads s' s'' nd level) : SameReads s s'' nd level :=
  ⟨hsecond.1.trans hfirst.1, hsecond.2.trans hfirst.2⟩

/-! ## Places with and without the cell -/

theorem place_middle_le (hhead : s'.mHead = s.mHead) (htail : s'.mTail = s.mTail)
    (hp : p ≤ before.length) :
    s'.place (before ++ cell :: after) p = s.place (before ++ after) p := by
  rw [place, place, hhead, htail, addrAt_middle_le hp]

theorem place_middle (s : SkipList K V) (before after : List (Cell K V)) (cell : Cell K V) :
    s.place (before ++ cell :: after) (before.length + 1) = cell.addr :=
  addrAt_middle

theorem place_middle_gt (hhead : s'.mHead = s.mHead) (htail : s'.mTail = s.mTail)
    (hp : before.length < p) :
    s'.place (before ++ cell :: after) (p + 1) = s.place (before ++ after) p := by
  rw [place, place, hhead, htail, addrAt_middle_gt hp]

theorem length_middle (before after : List (Cell K V)) (cell : Cell K V) :
    (before ++ cell :: after).length = (before ++ after).length + 1 := by
  simp [Nat.add_assoc]

theorem length_before_le (before after : List (Cell K V)) :
    before.length ≤ (before ++ after).length := by
  simp

/-! ## A cell comes in -/

section Insert

variable (hsame : SameNodes s s')

include hsame

theorem LinkedAt.insert_before (hlinked : s.LinkedAt (before ++ after) level p q)
    (hq : q ≤ before.length)
    (hreads : SameReads s s' (s.place (before ++ after) p) level) :
    s'.LinkedAt (before ++ cell :: after) level p q := by
  have hlt := hlinked.next.lt
  have hm := length_before_le before after
  refine ⟨?_, ?_, ?_⟩
  · rw [tall_middle, length_middle]
    exact hlinked.next.insert_before hq hm
  · rw [place_middle_le hsame.mHead hsame.mTail (by omega),
      place_middle_le hsame.mHead hsame.mTail hq, hreads.1, hlinked.link]
  · rw [place_middle_le hsame.mHead hsame.mTail (by omega), hreads.2, hlinked.span,
      length_middle]
    congr 2
    omega

theorem LinkedAt.insert_after (hlinked : s.LinkedAt (before ++ after) level p q)
    (hp : before.length < p)
    (hreads : SameReads s s' (s.place (before ++ after) p) level) :
    s'.LinkedAt (before ++ cell :: after) level (p + 1) (q + 1) := by
  have hlt := hlinked.next.lt
  refine ⟨?_, ?_, ?_⟩
  · rw [tall_middle, length_middle]
    exact hlinked.next.insert_after hp
  · rw [place_middle_gt hsame.mHead hsame.mTail hp,
      place_middle_gt hsame.mHead hsame.mTail (by omega), hreads.1, hlinked.link]
  · rw [place_middle_gt hsame.mHead hsame.mTail hp, hreads.2, hlinked.span, length_middle]
    congr 1
    omega

/-- The last mark before a cell tall enough links to it. -/
theorem LinkedAt.insert_at (hlinked : s.LinkedAt (before ++ after) level p q)
    (hp : p ≤ before.length) (hq : before.length < q) (htall : level < cell.height)
    (hlink : s'.nextAt (s.place (before ++ after) p) level = some (some cell.addr))
    (hspan : s'.spanAt (s.place (before ++ after) p) level =
      some ((before.length : Int) - p + 1)) :
    s'.LinkedAt (before ++ cell :: after) level p (before.length + 1) := by
  have hm := length_before_le before after
  refine ⟨?_, ?_, ?_⟩
  · rw [tall_middle, length_middle]
    exact hlinked.next.insert_at hp hq hm htall
  · rw [place_middle_le hsame.mHead hsame.mTail hp, place_middle, hlink]
  · rw [place_middle_le hsame.mHead hsame.mTail hp, hspan, length_middle]
    congr 1
    omega

/-- The cell takes over the link of the mark before it. -/
theorem LinkedAt.insert_new (hlinked : s.LinkedAt (before ++ after) level p q)
    (hp : p ≤ before.length) (hq : before.length < q)
    (hlink : s'.nextAt cell.addr level = s.nextAt (s.place (before ++ after) p) level)
    (hspan : ∀ span, s.spanAt (s.place (before ++ after) p) level = some span →
      s'.spanAt cell.addr level = some (span - ((before.length : Int) - p))) :
    s'.LinkedAt (before ++ cell :: after) level (before.length + 1) (q + 1) := by
  refine ⟨?_, ?_, ?_⟩
  · rw [tall_middle, length_middle]
    exact hlinked.next.insert_new hp hq
  · rw [place_middle, place_middle_gt hsame.mHead hsame.mTail hq, hlink, hlinked.link]
  · have hm := length_before_le before after
    rw [place_middle, hspan _ hlinked.span, length_middle]
    congr 1
    omega

/-- Over a cell that is not tall enough the span grows. -/
theorem LinkedAt.insert_over (hlinked : s.LinkedAt (before ++ after) level p q)
    (hp : p ≤ before.length) (hq : before.length < q) (hshort : cell.height ≤ level)
    (hlink : s'.nextAt (s.place (before ++ after) p) level =
      s.nextAt (s.place (before ++ after) p) level)
    (hspan : ∀ span, s.spanAt (s.place (before ++ after) p) level = some span →
      s'.spanAt (s.place (before ++ after) p) level = some (span + 1)) :
    s'.LinkedAt (before ++ cell :: after) level p (q + 1) := by
  refine ⟨?_, ?_, ?_⟩
  · rw [tall_middle, length_middle]
    exact hlinked.next.insert_over hp hq (by omega)
  · rw [place_middle_le hsame.mHead hsame.mTail hp,
      place_middle_gt hsame.mHead hsame.mTail hq, hlink, hlinked.link]
  · rw [place_middle_le hsame.mHead hsame.mTail hp, hspan _ hlinked.span, length_middle]
    congr 1
    omega

/-- A level is linked around a new cell when the last mark before it and the cell
itself are. -/
theorem Linked.insert (hlinked : s.Linked (before ++ after) level)
    (hprev : PrevMark (tall (before ++ after) level) before.length prev)
    (hreads : ∀ p, p ≤ (before ++ after).length → p ≠ prev →
      SameReads s s' (s.place (before ++ after) p) level)
    (hmark : ∃ q, s'.LinkedAt (before ++ cell :: after) level prev q)
    (hcell : level < cell.height →
      ∃ q, s'.LinkedAt (before ++ cell :: after) level (before.length + 1) q) :
    s'.Linked (before ++ cell :: after) level := by
  intro p hp
  rw [tall_middle] at hp
  rcases Nat.lt_trichotomy p (before.length + 1) with hlt | rfl | hgt
  · rw [insertMark_of_le (by omega)] at hp
    by_cases hself : p = prev
    · subst hself
      exact hmark
    · obtain ⟨q, hq⟩ := hlinked p hp
      have hle : q ≤ before.length := by
        by_contra habsurd
        exact hself ((PrevMark.of_next hp (by omega) hq.next (by omega)).unique hprev)
      exact ⟨q, hq.insert_before hsame hle (hreads p hq.le_length hself)⟩
  · rw [insertMark_self] at hp
    exact hcell (hp.resolve_left (by omega))
  · obtain ⟨p, rfl⟩ : ∃ p', p = p' + 1 := ⟨p - 1, by omega⟩
    rw [insertMark_succ (by omega)] at hp
    obtain ⟨q, hq⟩ := hlinked p (.inr (hp.resolve_left (by omega)))
    have hle := hprev.le
    exact ⟨q + 1, hq.insert_after hsame (by omega) (hreads p hq.le_length (by omega))⟩

end Insert

/-! ## A cell goes out -/

section Erase

variable (hsame : SameNodes s s')

include hsame

theorem LinkedAt.erase_before (hlinked : s.LinkedAt (before ++ cell :: after) level p q)
    (hq : q ≤ before.length)
    (hreads : SameReads s s' (s.place (before ++ cell :: after) p) level) :
    s'.LinkedAt (before ++ after) level p q := by
  have hlt := hlinked.next.lt
  have hm := length_before_le before after
  refine ⟨?_, ?_, ?_⟩
  · rw [tall_without_middle cell]
    exact NextMark.erase_before (length_middle before after cell ▸ hlinked.next) hq hm
  · rw [← place_middle_le hsame.mHead.symm hsame.mTail.symm (by omega),
      ← place_middle_le hsame.mHead.symm hsame.mTail.symm hq, hreads.1, hlinked.link]
  · rw [← place_middle_le hsame.mHead.symm hsame.mTail.symm (by omega), hreads.2,
      hlinked.span, length_middle]
    congr 2
    omega

theorem LinkedAt.erase_after
    (hlinked : s.LinkedAt (before ++ cell :: after) level (p + 1) (q + 1))
    (hp : before.length < p)
    (hreads : SameReads s s' (s.place (before ++ cell :: after) (p + 1)) level) :
    s'.LinkedAt (before ++ after) level p q := by
  have hlt := hlinked.next.lt
  refine ⟨?_, ?_, ?_⟩
  · rw [tall_without_middle cell]
    exact NextMark.erase_after (length_middle before after cell ▸ hlinked.next) hp
  · rw [← place_middle_gt hsame.mHead.symm hsame.mTail.symm hp,
      ← place_middle_gt hsame.mHead.symm hsame.mTail.symm (by omega), hreads.1, hlinked.link]
  · rw [← place_middle_gt hsame.mHead.symm hsame.mTail.symm hp, hreads.2, hlinked.span,
      length_middle]
    congr 1
    omega

/-- The mark before the cell takes over its link. -/
theorem LinkedAt.erase_at
    (hlinked : s.LinkedAt (before ++ cell :: after) level p (before.length + 1))
    (hcell : s.LinkedAt (before ++ cell :: after) level (before.length + 1) (q + 1))
    (hlink : s'.nextAt (s.place (before ++ cell :: after) p) level =
      s.nextAt cell.addr level)
    (hspan : ∀ span own, s.spanAt (s.place (before ++ cell :: after) p) level = some span →
      s.spanAt cell.addr level = some own →
        s'.spanAt (s.place (before ++ cell :: after) p) level = some (span + (own - 1))) :
    s'.LinkedAt (before ++ after) level p q := by
  have hlt := hlinked.next.lt
  have hlow := hcell.next.lt
  have hafter := hcell.next
  have hown := place_middle s before after cell
  refine ⟨?_, ?_, ?_⟩
  · rw [tall_without_middle cell]
    rw [length_middle] at hafter
    exact NextMark.erase_at (length_middle before after cell ▸ hlinked.next) hafter
  · rw [← place_middle_le hsame.mHead.symm hsame.mTail.symm (by omega),
      ← place_middle_gt hsame.mHead.symm hsame.mTail.symm (by omega), hlink, ← hown,
      hcell.link]
  · have hm := length_before_le before after
    rw [← place_middle_le hsame.mHead.symm hsame.mTail.symm (by omega),
      hspan _ _ hlinked.span (hown ▸ hcell.span), length_middle]
    congr 1
    omega

/-- A span over the cell shrinks. -/
theorem LinkedAt.erase_over
    (hlinked : s.LinkedAt (before ++ cell :: after) level p (q + 1))
    (hp : p ≤ before.length) (hq : before.length < q)
    (hlink : s'.nextAt (s.place (before ++ cell :: after) p) level =
      s.nextAt (s.place (before ++ cell :: after) p) level)
    (hspan : ∀ span, s.spanAt (s.place (before ++ cell :: after) p) level = some span →
      s'.spanAt (s.place (before ++ cell :: after) p) level = some (span - 1)) :
    s'.LinkedAt (before ++ after) level p q := by
  refine ⟨?_, ?_, ?_⟩
  · rw [tall_without_middle cell]
    exact NextMark.erase_over (length_middle before after cell ▸ hlinked.next) hp hq
  · rw [← place_middle_le hsame.mHead.symm hsame.mTail.symm hp,
      ← place_middle_gt hsame.mHead.symm hsame.mTail.symm hq, hlink, hlinked.link]
  · rw [← place_middle_le hsame.mHead.symm hsame.mTail.symm hp, hspan _ hlinked.span,
      length_middle]
    congr 1
    omega

/-- A level is linked without the cell when the last mark before it is. -/
theorem Linked.erase (hlinked : s.Linked (before ++ cell :: after) level)
    (hprev : PrevMark (tall (before ++ cell :: after) level) before.length prev)
    (hreads : ∀ p, p ≤ (before ++ cell :: after).length → p ≠ prev →
      SameReads s s' (s.place (before ++ cell :: after) p) level)
    (hmark : ∃ q, s'.LinkedAt (before ++ after) level prev q) :
    s'.Linked (before ++ after) level := by
  intro p hp
  rw [tall_without_middle cell] at hp
  have hprevLe := hprev.le
  rcases Nat.lt_or_ge before.length p with hgt | hle
  · rw [eraseMark_of_gt hgt] at hp
    obtain ⟨q, hq⟩ := hlinked (p + 1) (.inr (hp.resolve_left (by omega)))
    obtain ⟨q, rfl⟩ : ∃ q', q = q' + 1 := ⟨q - 1, by have := hq.next.lt; omega⟩
    exact ⟨q, hq.erase_after hsame hgt (hreads _ hq.le_length (by omega))⟩
  · rw [eraseMark_of_le hle] at hp
    by_cases hself : p = prev
    · subst hself
      exact hmark
    · obtain ⟨q, hq⟩ := hlinked p hp
      have hqle : q ≤ before.length := by
        by_contra habsurd
        exact hself ((PrevMark.of_next hp hle hq.next (by omega)).unique hprev)
      exact ⟨q, hq.erase_before hsame hqle (hreads p hq.le_length hself)⟩

end Erase

end SkipList

end RedisDB
