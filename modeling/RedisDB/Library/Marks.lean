import Mathlib.Data.Nat.Basic

/-!
# Marked positions on a line

The positions `1 … n` of a line lie between a start `0` and an end `n + 1`;
some are marked.  A level of a skip list is such a marking, and its links go
from each mark to the next.  The lemmas say what becomes of next marks when a
position is inserted or erased.
-/

namespace RedisDB.Library

variable {marked : Nat → Prop} {n p q : Nat}

/-- `q` is the first mark after `p`, or the end. -/
structure NextMark (marked : Nat → Prop) (n p q : Nat) : Prop where
  lt : p < q
  le : q ≤ n + 1
  mark : q ≤ n → marked q
  between : ∀ r, p < r → r < q → ¬ marked r

/-- `p` is the last mark up to `m`, or the start. -/
structure PrevMark (marked : Nat → Prop) (m p : Nat) : Prop where
  le : p ≤ m
  mark : p = 0 ∨ marked p
  between : ∀ r, p < r → r ≤ m → ¬ marked r

theorem NextMark.unique {q' : Nat} (hnext : NextMark marked n p q)
    (hother : NextMark marked n p q') : q = q' := by
  have hle := hnext.le
  have hle' := hother.le
  rcases Nat.lt_trichotomy q q' with hlt | heq | hgt
  · exact absurd (hnext.mark (by omega)) (hother.between q hnext.lt hlt)
  · exact heq
  · exact absurd (hother.mark (by omega)) (hnext.between q' hother.lt hgt)

theorem PrevMark.unique {m p' : Nat} (hprev : PrevMark marked m p)
    (hother : PrevMark marked m p') : p = p' := by
  rcases Nat.lt_trichotomy p p' with hlt | heq | hgt
  · exact absurd (hother.mark.resolve_left (by omega)) (hprev.between p' hlt hother.le)
  · exact heq
  · exact absurd (hprev.mark.resolve_left (by omega)) (hother.between p hgt hprev.le)

/-- The mark after the last one up to `m` comes after `m`. -/
theorem PrevMark.lt_next {m : Nat} (hprev : PrevMark marked m p)
    (hnext : NextMark marked n p q) (hm : m ≤ n) : m < q := by
  by_contra hge
  exact hprev.between q hnext.lt (Nat.not_lt.mp hge) (hnext.mark (by omega))

/-- A walk along the marks that would pass `m` stands at the last mark up to `m`. -/
theorem PrevMark.of_next {m : Nat} (hmark : p = 0 ∨ marked p) (hp : p ≤ m)
    (hnext : NextMark marked n p q) (hm : m < q) : PrevMark marked m p :=
  ⟨hp, hmark, fun r hlow hhigh => hnext.between r hlow (by omega)⟩

/-- Where every position is marked the next mark is the next position. -/
theorem NextMark.eq_succ (hall : ∀ r, 1 ≤ r → r ≤ n → marked r)
    (hnext : NextMark marked n p q) : q = p + 1 := by
  have hlt := hnext.lt
  have hle := hnext.le
  by_contra hne
  exact hnext.between (p + 1) (by omega) (by omega) (hall (p + 1) (by omega) (by omega))

theorem PrevMark.eq_self {m : Nat} (hall : ∀ r, 1 ≤ r → r ≤ n → marked r) (hm : m ≤ n)
    (hprev : PrevMark marked m p) : p = m := by
  have hle := hprev.le
  by_contra hne
  exact hprev.between m (by omega) (Nat.le_refl m) (hall m (by omega) hm)

/-! ## Insertion of a position -/

/-- The marking with a new position `m + 1`, those after it moved up. -/
def insertMark (marked : Nat → Prop) (m : Nat) (new : Prop) (r : Nat) : Prop :=
  if r ≤ m then marked r else if r = m + 1 then new else marked (r - 1)

section Insert

variable {m r : Nat} {new : Prop}

theorem insertMark_of_le (hr : r ≤ m) : insertMark marked m new r = marked r := by
  rw [insertMark, if_pos hr]

theorem insertMark_self : insertMark marked m new (m + 1) = new := by
  rw [insertMark, if_neg (by omega), if_pos rfl]

theorem insertMark_succ (hr : m < r) : insertMark marked m new (r + 1) = marked r := by
  rw [insertMark, if_neg (by omega), if_neg (by omega), Nat.add_sub_cancel]

theorem NextMark.insert_before (hnext : NextMark marked n p q) (hq : q ≤ m) (hm : m ≤ n) :
    NextMark (insertMark marked m new) (n + 1) p q := by
  refine ⟨hnext.lt, by omega, fun _ => ?_, fun r hlow hhigh => ?_⟩
  · rw [insertMark_of_le hq]
    exact hnext.mark (by omega)
  · rw [insertMark_of_le (by omega)]
    exact hnext.between r hlow hhigh

theorem NextMark.insert_at (hnext : NextMark marked n p q) (hp : p ≤ m) (hq : m < q)
    (hm : m ≤ n) (hnew : new) : NextMark (insertMark marked m new) (n + 1) p (m + 1) := by
  refine ⟨by omega, by omega, fun _ => ?_, fun r hlow hhigh => ?_⟩
  · rw [insertMark_self]
    exact hnew
  · rw [insertMark_of_le (by omega)]
    exact hnext.between r hlow (by omega)

theorem NextMark.insert_over (hnext : NextMark marked n p q) (hp : p ≤ m) (hq : m < q)
    (hnew : ¬ new) : NextMark (insertMark marked m new) (n + 1) p (q + 1) := by
  have hle := hnext.le
  refine ⟨by omega, by omega, fun hin => ?_, fun r hlow hhigh => ?_⟩
  · rw [insertMark_succ hq]
    exact hnext.mark (by omega)
  · rcases Nat.lt_trichotomy r (m + 1) with hlt | rfl | hgt
    · rw [insertMark_of_le (by omega)]
      exact hnext.between r hlow (by omega)
    · rw [insertMark_self]
      exact hnew
    · obtain ⟨r, rfl⟩ : ∃ r', r = r' + 1 := ⟨r - 1, by omega⟩
      rw [insertMark_succ (by omega)]
      exact hnext.between r (by omega) (by omega)

theorem NextMark.insert_new (hnext : NextMark marked n p q) (hp : p ≤ m) (hq : m < q) :
    NextMark (insertMark marked m new) (n + 1) (m + 1) (q + 1) := by
  have hle := hnext.le
  refine ⟨by omega, by omega, fun hin => ?_, fun r hlow hhigh => ?_⟩
  · rw [insertMark_succ hq]
    exact hnext.mark (by omega)
  · obtain ⟨r, rfl⟩ : ∃ r', r = r' + 1 := ⟨r - 1, by omega⟩
    rw [insertMark_succ (by omega)]
    exact hnext.between r (by omega) (by omega)

theorem NextMark.insert_after (hnext : NextMark marked n p q) (hp : m < p) :
    NextMark (insertMark marked m new) (n + 1) (p + 1) (q + 1) := by
  have hlt := hnext.lt
  have hle := hnext.le
  refine ⟨by omega, by omega, fun hin => ?_, fun r hlow hhigh => ?_⟩
  · rw [insertMark_succ (by omega)]
    exact hnext.mark (by omega)
  · obtain ⟨r, rfl⟩ : ∃ r', r = r' + 1 := ⟨r - 1, by omega⟩
    rw [insertMark_succ (by omega)]
    exact hnext.between r (by omega) (by omega)

end Insert

/-! ## Removal of a position -/

/-- The marking without the position `m + 1`, those after it moved down. -/
def eraseMark (marked : Nat → Prop) (m r : Nat) : Prop :=
  if r ≤ m then marked r else marked (r + 1)

section Erase

variable {m r : Nat}

theorem eraseMark_of_le (hr : r ≤ m) : eraseMark marked m r = marked r := by
  rw [eraseMark, if_pos hr]

theorem eraseMark_of_gt (hr : m < r) : eraseMark marked m r = marked (r + 1) := by
  rw [eraseMark, if_neg (by omega)]

theorem NextMark.erase_before (hnext : NextMark marked (n + 1) p q) (hq : q ≤ m)
    (hm : m ≤ n) : NextMark (eraseMark marked m) n p q := by
  refine ⟨hnext.lt, by omega, fun _ => ?_, fun r hlow hhigh => ?_⟩
  · rw [eraseMark_of_le hq]
    exact hnext.mark (by omega)
  · rw [eraseMark_of_le (by omega)]
    exact hnext.between r hlow hhigh

/-- A link to the erased position goes on to the mark after it. -/
theorem NextMark.erase_at (hnext : NextMark marked (n + 1) p (m + 1))
    (hafter : NextMark marked (n + 1) (m + 1) (q + 1)) : NextMark (eraseMark marked m) n p q := by
  have hlt := hnext.lt
  have hlow := hafter.lt
  have hle := hafter.le
  refine ⟨by omega, by omega, fun hin => ?_, fun r hr hhigh => ?_⟩
  · rw [eraseMark_of_gt (by omega)]
    exact hafter.mark (by omega)
  · rcases Nat.lt_or_ge m r with hgt | hle
    · rw [eraseMark_of_gt hgt]
      exact hafter.between (r + 1) (by omega) (by omega)
    · rw [eraseMark_of_le hle]
      exact hnext.between r hr (by omega)

/-- A link over the erased position keeps its end. -/
theorem NextMark.erase_over (hnext : NextMark marked (n + 1) p (q + 1)) (hp : p ≤ m)
    (hq : m < q) : NextMark (eraseMark marked m) n p q := by
  have hle := hnext.le
  refine ⟨by omega, by omega, fun hin => ?_, fun r hr hhigh => ?_⟩
  · rw [eraseMark_of_gt (by omega)]
    exact hnext.mark (by omega)
  · rcases Nat.lt_or_ge m r with hgt | hle
    · rw [eraseMark_of_gt hgt]
      exact hnext.between (r + 1) (by omega) (by omega)
    · rw [eraseMark_of_le hle]
      exact hnext.between r hr (by omega)

theorem NextMark.erase_after (hnext : NextMark marked (n + 1) (p + 1) (q + 1)) (hp : m < p) :
    NextMark (eraseMark marked m) n p q := by
  have hlt := hnext.lt
  have hle := hnext.le
  refine ⟨by omega, by omega, fun hin => ?_, fun r hr hhigh => ?_⟩
  · rw [eraseMark_of_gt (by omega)]
    exact hnext.mark (by omega)
  · rw [eraseMark_of_gt (by omega)]
    exact hnext.between (r + 1) (by omega) (by omega)

end Erase

end RedisDB.Library
