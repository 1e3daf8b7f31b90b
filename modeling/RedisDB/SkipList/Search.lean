import RedisDB.SkipList.Representation
import Mathlib.Data.Int.Basic

/-!
# The search loop

All searches of a skip list walk the same way.  When the test they stop at
turns true after `m` cells, they leave each level at its last mark up to `m`
and end at the cell `m`, whatever the heights are.
-/

namespace RedisDB

open RedisDB.Library

namespace SkipList

variable {K V A : Type} {s : SkipList K V} {cells : List (Cell K V)}

/-- The test is false on the first `m` cells and true on the others. -/
structure TurnsAt (stop : K → Bool) (cells : List (Cell K V)) (m : Nat) : Prop where
  le : m ≤ cells.length
  turns : ∀ (p : Nat) (cell : Cell K V), cells[p]? = some cell →
    stop cell.key = decide (m ≤ p)

/-- A sequence split in two parts turns between them. -/
theorem turnsAt_append {stop : K → Bool} {before after : List (Cell K V)}
    (hbefore : ∀ cell ∈ before, stop cell.key = false)
    (hafter : ∀ cell ∈ after, stop cell.key = true) :
    TurnsAt stop (before ++ after) before.length where
  le := by rw [List.length_append]; omega
  turns := by
    intro p cell hcell
    rcases Nat.lt_or_ge p before.length with hlt | hge
    · rw [List.getElem?_append_left hlt] at hcell
      rw [hbefore cell (List.mem_of_getElem? hcell), decide_eq_false (by omega)]
    · rw [List.getElem?_append_right hge] at hcell
      rw [hafter cell (List.mem_of_getElem? hcell), decide_eq_true hge]

/-- A search stops before exactly the positions after the turn. -/
theorem stopsAt_place {stop : K → Bool} {m p : Nat} (hshape : s.Shape cells)
    (hturns : TurnsAt stop cells m) (hpos : 0 < p) (hp : p ≤ cells.length + 1) :
    s.stopsAt stop (some (s.place cells p)) = some (decide (m < p)) := by
  obtain ⟨p, rfl⟩ : ∃ p', p = p' + 1 := ⟨p - 1, by omega⟩
  have htail : s.place cells (cells.length + 1) = s.mTail := addrAt_length
  have hle := hturns.le
  rcases Nat.lt_or_ge p cells.length with hlt | hge
  · have hne := hshape.place_ne_tail (p := p + 1) hlt
    have hcell := List.getElem?_eq_getElem hlt
    simp only [stopsAt, Option.some.injEq, if_neg hne, hshape.keyAt_place hcell,
      Option.bind_eq_bind, Option.bind_some, hturns.turns p _ hcell, Nat.lt_succ_iff]
  · obtain rfl : p = cells.length := by omega
    rw [stopsAt, htail, if_pos rfl, decide_eq_true (by omega)]

/-! ## Notes of a search -/

section Notes

variable {s' : SkipList K V} {prevs : List (Option Nat)} {level m p : Nat}

/-- The entry of `prevs` for a level is the last mark up to `m`. -/
def PrevNoted (s : SkipList K V) (cells : List (Cell K V)) (m : Nat)
    (prevs : List (Option Nat)) (level : Nat) : Prop :=
  ∃ p, PrevMark (tall cells level) m p ∧ prevs[level]? = some (some (s.place cells p))

theorem PrevNoted.of_sameNodes (hnoted : s.PrevNoted cells m prevs level)
    (hsame : SameNodes s s') : s'.PrevNoted cells m prevs level := by
  obtain ⟨p, hprev, hentry⟩ := hnoted
  exact ⟨p, hprev, by rw [hsame.place, hentry]⟩

/-- The note for the level being left joins those for the levels above it. -/
theorem PrevNoted.set {l : Nat} (hlevel : level < prevs.length)
    (hprev : PrevMark (tall cells level) m p) (hlow : level ≤ l)
    (habove : level < l → s.PrevNoted cells m prevs l) :
    s.PrevNoted cells m (prevs.set level (some (s.place cells p))) l := by
  rcases Nat.eq_or_lt_of_le hlow with rfl | hmore
  · exact ⟨p, hprev, List.getElem?_set_self hlevel⟩
  · obtain ⟨r, hr, hnoted⟩ := habove hmore
    exact ⟨r, hr, by rw [List.getElem?_set_ne (by omega), hnoted]⟩

end Notes

/-! ## The loop -/

section Bottom

variable {m p : Nat}

/-- On level `0` every cell is marked. -/
theorem tall_zero (hpositive : ∀ cell ∈ cells, 1 ≤ cell.height) (hpos : 1 ≤ p)
    (hp : p ≤ cells.length) : tall cells 0 p := by
  obtain ⟨p, rfl⟩ : ∃ p', p = p' + 1 := ⟨p - 1, by omega⟩
  have hcell := List.getElem?_eq_getElem (l := cells) hp
  exact ⟨_, hcell, hpositive _ (List.mem_of_getElem? hcell)⟩

theorem Represents.prev_at_bottom [LinearOrder K] (hrep : s.Represents cells)
    (hm : m ≤ cells.length) (hprev : PrevMark (tall cells 0) m p) : p = m :=
  hprev.eq_self (fun _ hlow hhigh => tall_zero hrep.topped.positive hlow hhigh) hm

/-- The links of level `0` go from each position to the next. -/
theorem Represents.next_at_bottom [LinearOrder K] (hrep : s.Represents cells)
    (hp : p ≤ cells.length) :
    s.nextAt (s.place cells p) 0 = some (some (s.place cells (p + 1))) := by
  have hmark : p = 0 ∨ tall cells 0 p := by
    rcases Nat.eq_zero_or_pos p with rfl | hpos
    · exact .inl rfl
    · exact .inr (tall_zero hrep.topped.positive hpos hp)
  obtain ⟨q, hq⟩ := hrep.linked 0 (Nat.zero_le _) p hmark
  obtain rfl : q = p + 1 :=
    hq.next.eq_succ fun _ hlow hhigh => tall_zero hrep.topped.positive hlow hhigh
  exact hq.link

end Bottom

section Rule

variable {stop : K → Bool} {down right : Nat → Nat → A → Option A} {m : Nat}

/-- A walk to the right reads the distance it covers from the span. -/
theorem LinkedAt.span_of_le {level p q : Nat} (hlinked : s.LinkedAt cells level p q)
    (hq : q ≤ cells.length) :
    s.spanAt (s.place cells p) level = some ((q : Int) - p) := by
  rw [hlinked.span, Nat.min_eq_left hq]

/-- The loop rule: what every step to the right and every step down keeps holds where
the search ends, at the cell `m`. -/
theorem descend_spec [LinearOrder K] (Inv : Nat → Nat → A → Prop)
    (hrep : s.Represents cells) (hturns : TurnsAt stop cells m)
    (hright : ∀ (level p q : Nat) (acc : A), level ≤ s.mMaxLevel → q ≤ m →
      Inv (level + 1) p acc → s.spanAt (s.place cells p) level = some ((q : Int) - p) →
        ∃ acc', right level (s.place cells p) acc = some acc' ∧ Inv (level + 1) q acc')
    (hdown : ∀ level p acc, level ≤ s.mMaxLevel → Inv (level + 1) p acc →
      PrevMark (tall cells level) m p →
        ∃ acc', down level (s.place cells p) acc = some acc' ∧ Inv level p acc')
    (fuel : Nat) {levels p : Nat} {acc : A} (hlevels : levels ≤ s.mMaxLevel + 1)
    (hmark : p = 0 ∨ tall cells (levels - 1) p) (hp : p ≤ m) (hlast : levels = 0 → p = m)
    (hfuel : levels + (m - p) ≤ fuel) (hinv : Inv levels p acc) :
    ∃ acc', s.descend stop down right fuel (s.place cells p) levels acc =
      some (s.place cells m, acc') ∧ Inv 0 m acc' := by
  induction fuel generalizing levels p acc with
  | zero =>
      obtain rfl : levels = 0 := by omega
      obtain rfl : p = m := hlast rfl
      exact ⟨acc, rfl, hinv⟩
  | succ fuel ih =>
      cases levels with
      | zero =>
          obtain rfl : p = m := hlast rfl
          exact ⟨acc, rfl, hinv⟩
      | succ level =>
          have hm := hturns.le
          obtain ⟨q, hq⟩ := hrep.linked level (by omega) p hmark
          have hpos : 0 < q := Nat.zero_lt_of_lt hq.next.lt
          have hstop := stopsAt_place hrep.shape hturns hpos hq.next.le
          by_cases hturn : m < q
          · -- the next mark lies after the turn: the search leaves the level here
            have hprev := PrevMark.of_next hmark hp hq.next hturn
            obtain ⟨acc', hacc, hinv'⟩ := hdown level p acc (by omega) hinv hprev
            have hbottom : level = 0 → p = m := by
              intro hzero
              subst hzero
              exact hrep.prev_at_bottom hm hprev
            have hlower : p = 0 ∨ tall cells (level - 1) p :=
              hmark.imp id fun htall => htall.mono (by omega)
            obtain ⟨last, hlast', hend⟩ :=
              ih (by omega) hlower hp hbottom (by omega) hinv'
            refine ⟨last, ?_, hend⟩
            simp only [descend, hq.link, hstop, decide_eq_true hturn, Option.bind_eq_bind,
              Option.bind_some, if_true, hacc, hlast']
          · -- the next mark is one of the first `m` cells: the search goes there
            have hlt := hq.next.lt
            obtain ⟨acc', hacc, hinv'⟩ :=
              hright level p q acc (by omega) (by omega) hinv (hq.span_of_le (by omega))
            have hqmark : q = 0 ∨ tall cells (level + 1 - 1) q :=
              .inr (hq.next.mark (by omega))
            obtain ⟨last, hlast', hend⟩ :=
              ih hlevels hqmark (by omega) (by omega) (by omega) hinv'
            refine ⟨last, ?_, hend⟩
            simp only [descend, hq.link, hstop, decide_eq_false hturn, Option.bind_eq_bind,
              Option.bind_some, Bool.false_eq_true, if_false, hacc, hlast']

theorem search_spec [LinearOrder K] (kind : Search K A) (Inv : Nat → Nat → A → Prop)
    (hrep : s.Represents cells) (hturns : TurnsAt kind.stop cells m)
    (hright : ∀ (level p q : Nat) (acc : A), level ≤ s.mMaxLevel → q ≤ m →
      Inv (level + 1) p acc → s.spanAt (s.place cells p) level = some ((q : Int) - p) →
        ∃ acc', kind.right level (s.place cells p) acc = some acc' ∧ Inv (level + 1) q acc')
    (hdown : ∀ level p acc, level ≤ s.mMaxLevel → Inv (level + 1) p acc →
      PrevMark (tall cells level) m p →
        ∃ acc', kind.down level (s.place cells p) acc = some acc' ∧ Inv level p acc')
    (hinv : Inv (s.mMaxLevel + 1) 0 kind.start) :
    ∃ acc, s.search kind = some (s.place cells m, acc) ∧ Inv 0 m acc := by
  have hle := hturns.le
  have hlength := hrep.length
  exact descend_spec Inv hrep hturns hright hdown s.searchFuel (Nat.le_refl _) (.inl rfl)
    (Nat.zero_le _) (by omega) (by rw [searchFuel]; omega) hinv

end Rule

end SkipList

end RedisDB
