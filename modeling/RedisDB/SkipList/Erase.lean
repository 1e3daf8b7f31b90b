import RedisDB.SkipList.Search
import RedisDB.SkipList.Link

/-!
# `erase`

The search ends before the first cell whose key is not smaller.  When that cell
has the key, the marks before it take over its links, the spans over it shrink
by one, and the levels it was the last to reach are given up.
-/

namespace RedisDB

open RedisDB.Library

namespace SkipList

variable {K V : Type} {s s' : SkipList K V} {cells before after : List (Cell K V)}
  {cell : Cell K V} {level m p q : Nat} {prevs : List (Option Nat)} {int : IntType}
  {limit : Nat}

/-! ## The search -/

/-- What the search of `erase` has noted when `levels` levels are left. -/
structure PlainNotes (s : SkipList K V) (cells : List (Cell K V)) (m levels p : Nat)
    (prevs : List (Option Nat)) : Prop where
  length : prevs.length = s.mMaxLevel + 1
  prevs : ∀ level, levels ≤ level → level ≤ s.mMaxLevel → s.PrevNoted cells m prevs level

theorem notePrev_notes (hlevel : level ≤ s.mMaxLevel)
    (hnotes : s.PlainNotes cells m (level + 1) p prevs)
    (hprev : PrevMark (tall cells level) m p) :
    ∃ prevs', notePrev level (s.place cells p) prevs = some prevs' ∧
      s.PlainNotes cells m level p prevs' := by
  have hlt : level < prevs.length := by rw [hnotes.length]; omega
  refine ⟨prevs.set level (some (s.place cells p)),
    vectorSet_of_getElem? (List.getElem?_eq_getElem hlt) _, ?_, ?_⟩
  · rw [List.length_set, hnotes.length]
  · intro l hlow hhigh
    exact PrevNoted.set hlt hprev hlow fun hmore => hnotes.prevs l hmore hhigh

/-- The search of `erase` ends at the cell `m` with all levels noted. -/
theorem erase_search_spec [LinearOrder K] {k : K} (hrep : s.Represents cells)
    (hturns : TurnsAt (fun key => decide (k ≤ key)) cells m) :
    ∃ prevs, s.search (s.eraseSearch k) = some (s.place cells m, prevs) ∧
      ∀ level, level ≤ s.mMaxLevel → s.PrevNoted cells m prevs level := by
  have hright : ∀ (level p q : Nat) (prevs : List (Option Nat)), level ≤ s.mMaxLevel →
      q ≤ m → s.PlainNotes cells m (level + 1) p prevs →
      s.spanAt (s.place cells p) level = some ((q : Int) - p) →
        ∃ prevs', noNote level (s.place cells p) prevs = some prevs' ∧
          s.PlainNotes cells m (level + 1) q prevs' :=
    fun _ _ _ prevs _ _ hinv _ => ⟨prevs, rfl, hinv.length, hinv.prevs⟩
  obtain ⟨prevs, hsearch, hnotes⟩ :=
    search_spec (s.eraseSearch k) (s.PlainNotes cells m) hrep hturns hright
      (fun level p prevs hlevel hinv hprev => notePrev_notes hlevel hinv hprev)
      ⟨List.length_replicate, fun _ _ _ => by omega⟩
  exact ⟨prevs, hsearch, fun l hl => hnotes.prevs l (Nat.zero_le l) hl⟩

/-! ## Unlinking -/

/-- A round at a level whose last mark links to the node passes on the node's link. -/
theorem unlinkLevel_of_eq {i prev nd : Nat} {next : Option Nat} {span own : Int}
    (hadded : int.eval (own - 1) = some (own - 1))
    (hsum : int.eval (span + (own - 1)) = some (span + (own - 1)))
    (hentry : prevs[i]? = some (some prev)) (hlink : s.nextAt prev i = some (some nd))
    (hspan : s.spanAt prev i = some span) (hnext : s.nextAt nd i = some next)
    (hown : s.spanAt nd i = some own) :
    ∃ s', s.unlinkLevel int nd prevs i = some s' ∧ SameNodes s s' ∧
      s'.nextAt = overwrite s.nextAt prev i next ∧
      s'.spanAt = overwrite s.spanAt prev i (span + (own - 1)) := by
  obtain ⟨s₁, hset₁, hsame₁, hnext₁, hspan₁⟩ := setSpan_spec hspan (span + (own - 1))
  have hread : s₁.nextAt prev i = some (some nd) := by rw [hnext₁, hlink]
  obtain ⟨s', hset₂, hsame₂, hnext₂, hspan₂⟩ := setNext_spec hread next
  refine ⟨s', ?_, hsame₁.trans hsame₂, by rw [hnext₂, hnext₁], by rw [hspan₂, hspan₁]⟩
  simp only [unlinkLevel, hentry, hlink, hspan, if_true, hown, hadded, hsum, hset₁, hnext₁,
    hnext, hset₂, Option.bind_eq_bind, Option.bind_some]

/-- A round at a level that passes over the node writes one span. -/
theorem unlinkLevel_of_ne {i prev nd other : Nat} {span : Int}
    (hless : int.eval (span - 1) = some (span - 1))
    (hentry : prevs[i]? = some (some prev)) (hlink : s.nextAt prev i = some (some other))
    (hspan : s.spanAt prev i = some span) (hne : other ≠ nd) :
    ∃ s', s.unlinkLevel int nd prevs i = some s' ∧ SameNodes s s' ∧
      s'.nextAt = s.nextAt ∧ s'.spanAt = overwrite s.spanAt prev i (span - 1) := by
  obtain ⟨s', hset, hsame, hnext', hspan'⟩ := setSpan_spec hspan (span - 1)
  refine ⟨s', ?_, hsame, hnext', hspan'⟩
  simp only [unlinkLevel, hentry, hlink, hspan, Option.some.injEq, if_neg hne, hless, hset,
    Option.bind_eq_bind, Option.bind_some]

/-- A level that links to the node: the mark before it takes over the node's link. -/
theorem unlinkLevel_hit {i : Nat} (hint : int.HoldsUpTo limit)
    (hlimit : (before ++ cell :: after).length ≤ limit)
    (hshape : s.Shape (before ++ cell :: after))
    (hlinked : s.Linked (before ++ cell :: after) i)
    (hprev : PrevMark (tall (before ++ cell :: after) i) before.length p)
    (hentry : prevs[i]? = some (some (s.place (before ++ cell :: after) p)))
    (hq : s.LinkedAt (before ++ cell :: after) i p (before.length + 1)) :
    ∃ s', s.unlinkLevel int cell.addr prevs i = some s' ∧ SameNodes s s' ∧
      (∀ nd l, l ≠ i ∨ nd = cell.addr → SameReads s s' nd l) ∧
      s'.Linked (before ++ after) i := by
  have hp := hprev.le
  have hm := length_before_le before after
  have hlength := length_middle before after cell
  have hplace := place_middle s before after cell
  have hcell : cell.addr ≠ s.place (before ++ cell :: after) p := by
    rw [← hplace]
    exact hshape.place_ne (by omega) (by omega) (by omega)
  obtain ⟨r, hr⟩ := hlinked _ (.inr (hq.next.mark (by omega)))
  obtain ⟨r, rfl⟩ : ∃ r', r = r' + 1 := ⟨r - 1, by have := hr.next.lt; omega⟩
  have hlink := hr.link
  have hspan := hr.span
  have hto := hq.link
  rw [hplace] at hlink hspan hto
  have hrle := hr.next.le
  have hrlt := hr.next.lt
  obtain ⟨s', hround, hsame, hnext', hspan'⟩ :=
    unlinkLevel_of_eq (hint.eval (by omega) (by omega)) (hint.eval (by omega) (by omega)) hentry
      hto hq.span hlink hspan
  have hmark : s'.LinkedAt (before ++ after) i p r := by
    refine hq.erase_at hsame hr (by rw [hnext', overwrite_self, hlink]) ?_
    intro old own hold hown
    cases hq.span.symm.trans hold
    cases hspan.symm.trans hown
    rw [hspan', overwrite_self]
  refine ⟨s', hround, hsame, ?_, hlinked.erase hsame hprev ?_ ⟨_, hmark⟩⟩
  · rintro nd l (hl | rfl)
    · exact ⟨by rw [hnext', overwrite_of_ne_level hl],
        by rw [hspan', overwrite_of_ne_level hl]⟩
    · exact ⟨by rw [hnext', overwrite_of_ne_node hcell],
        by rw [hspan', overwrite_of_ne_node hcell]⟩
  · intro r' hr' hrp
    have hne := hshape.place_ne (by omega) hr' hrp
    exact ⟨by rw [hnext', overwrite_of_ne_node hne], by rw [hspan', overwrite_of_ne_node hne]⟩

/-- A level that passes over the node: only the span of the mark before it changes. -/
theorem unlinkLevel_over {i : Nat} (hint : int.HoldsUpTo limit)
    (hlimit : (before ++ cell :: after).length ≤ limit)
    (hshape : s.Shape (before ++ cell :: after))
    (hlinked : s.Linked (before ++ cell :: after) i)
    (hprev : PrevMark (tall (before ++ cell :: after) i) before.length p)
    (hentry : prevs[i]? = some (some (s.place (before ++ cell :: after) p)))
    (hq : s.LinkedAt (before ++ cell :: after) i p (q + 1)) (hover : before.length < q) :
    ∃ s', s.unlinkLevel int cell.addr prevs i = some s' ∧ SameNodes s s' ∧
      (∀ nd l, l ≠ i ∨ nd = cell.addr → SameReads s s' nd l) ∧
      s'.Linked (before ++ after) i := by
  have hp := hprev.le
  have hqle := hq.next.le
  have hm := length_before_le before after
  have hlength := length_middle before after cell
  have hplace := place_middle s before after cell
  have hcell : cell.addr ≠ s.place (before ++ cell :: after) p := by
    rw [← hplace]
    exact hshape.place_ne (by omega) (by omega) (by omega)
  have hmiss : s.place (before ++ cell :: after) (q + 1) ≠ cell.addr := by
    rw [← hplace]
    intro heq
    have := hshape.place_injective hqle (by omega) heq
    omega
  obtain ⟨s', hround, hsame, hnext', hspan'⟩ :=
    unlinkLevel_of_ne (hint.eval (by omega) (by omega)) hentry hq.link hq.span hmiss
  have hmark : s'.LinkedAt (before ++ after) i p q := by
    refine hq.erase_over hsame hp hover (by rw [hnext']) ?_
    intro old hold
    cases hq.span.symm.trans hold
    rw [hspan', overwrite_self]
  refine ⟨s', hround, hsame, ?_, hlinked.erase hsame hprev ?_ ⟨_, hmark⟩⟩
  · rintro nd l (hl | rfl)
    · exact ⟨by rw [hnext'], by rw [hspan', overwrite_of_ne_level hl]⟩
    · exact ⟨by rw [hnext'], by rw [hspan', overwrite_of_ne_node hcell]⟩
  · intro r hr hrp
    have hne := hshape.place_ne (by omega) hr hrp
    exact ⟨by rw [hnext'], by rw [hspan', overwrite_of_ne_node hne]⟩

/-- One round of the unlinking loop takes the node out of its level. -/
theorem unlinkLevel_spec {i : Nat} (hint : int.HoldsUpTo limit)
    (hlimit : (before ++ cell :: after).length ≤ limit)
    (hshape : s.Shape (before ++ cell :: after))
    (hlinked : s.Linked (before ++ cell :: after) i)
    (hnoted : s.PrevNoted (before ++ cell :: after) before.length prevs i) :
    ∃ s', s.unlinkLevel int cell.addr prevs i = some s' ∧ SameNodes s s' ∧
      (∀ nd l, l ≠ i ∨ nd = cell.addr → SameReads s s' nd l) ∧
      s'.Linked (before ++ after) i := by
  obtain ⟨p, hprev, hentry⟩ := hnoted
  obtain ⟨q, hq⟩ := hlinked p hprev.mark
  have hm := length_before_le before after
  have hlength := length_middle before after cell
  have hturn := hprev.lt_next hq.next (by omega)
  by_cases hhit : q = before.length + 1
  · subst hhit
    exact unlinkLevel_hit hint hlimit hshape hlinked hprev hentry hq
  · obtain ⟨q, rfl⟩ : ∃ q', q = q' + 1 := ⟨q - 1, by omega⟩
    exact unlinkLevel_over hint hlimit hshape hlinked hprev hentry hq (by omega)

/-- The unlinking loop takes the node out of every level. -/
theorem unlinkLoop_spec {top count : Nat} (hint : int.HoldsUpTo limit)
    (hlimit : (before ++ cell :: after).length ≤ limit)
    (hshape : s.Shape (before ++ cell :: after))
    (hlinked : ∀ l, l ≤ top → s.Linked (before ++ cell :: after) l)
    (hnoted : ∀ l, l ≤ top → s.PrevNoted (before ++ cell :: after) before.length prevs l)
    (hcount : count ≤ top + 1) :
    ∃ s', s.unlinkLoop int cell.addr prevs count = some s' ∧ SameNodes s s' ∧
      (∀ nd l, count ≤ l ∨ nd = cell.addr → SameReads s s' nd l) ∧
      ∀ l, l < count → s'.Linked (before ++ after) l := by
  induction count with
  | zero =>
      exact ⟨s, rfl, SameNodes.refl s, fun _ _ _ => SameReads.refl _ _ _,
        fun _ habsurd => absurd habsurd (Nat.not_lt_zero _)⟩
  | succ i ih =>
      obtain ⟨s₁, hloop, hsame₁, hrest, hdone⟩ := ih (by omega)
      obtain ⟨s', hlevel, hsame, hother, hlink⟩ :=
        unlinkLevel_spec hint hlimit (hshape.of_sameNodes hsame₁)
          ((hlinked i (by omega)).congr hsame₁.place
            fun p _ => hrest _ i (.inl (Nat.le_refl i)))
          ((hnoted i (by omega)).of_sameNodes hsame₁)
      refine ⟨s', ?_, hsame₁.trans hsame, ?_, ?_⟩
      · simp only [unlinkLoop, hloop, Option.bind_eq_bind, Option.bind_some, hlevel]
      · intro nd l hl
        exact (hrest nd l (hl.imp (by omega) id)).trans (hother nd l (hl.imp (by omega) id))
      · intro l hl
        rcases Nat.eq_or_lt_of_le (Nat.le_of_lt_succ hl) with rfl | hlt
        · exact hlink
        · exact (hdone l hlt).congr hsame.place fun p _ => hother _ l (.inl (by omega))

/-- The node after the unlinked one gets its back link. -/
theorem unlinkBack_spec (hshape : s.Shape (before ++ cell :: after))
    (hback : s.BackLinked (before ++ cell :: after))
    (hentry : prevs[0]? = some (some (s.place (before ++ cell :: after) before.length)))
    (hlink : s.nextAt cell.addr 0 =
      some (some (s.place (before ++ cell :: after) (before.length + 2)))) :
    ∃ s', s.unlinkBack cell.addr prevs = some s' ∧ SameLinks s s' ∧
      s'.BackLinked (before ++ after) := by
  have hm := length_before_le before after
  have hlength := length_middle before after cell
  obtain ⟨s', hset, hsame, hback'⟩ := setBack_spec
    (hback (before.length + 1) (by omega))
    (some (s.place (before ++ cell :: after) before.length))
  have hother : ∀ p, p ≤ (before ++ cell :: after).length → p ≠ before.length + 1 →
      s'.backAt (s.place (before ++ cell :: after) (p + 1)) =
        some (some (s.place (before ++ cell :: after) p)) := by
    intro p hp hne
    rw [hback', Function.update_of_ne, hback p hp]
    intro heq
    have := hshape.place_injective (by omega) (by omega) heq
    omega
  refine ⟨s', ?_, hsame, ?_⟩
  · simp only [unlinkBack, hlink, hentry, hset, Option.bind_eq_bind, Option.bind_some]
  · intro p hp
    rcases Nat.lt_trichotomy p before.length with hlt | rfl | hgt
    · rw [← place_middle_le hsame.mHead.symm hsame.mTail.symm hlt,
        ← place_middle_le hsame.mHead.symm hsame.mTail.symm (Nat.le_of_lt hlt),
        hother p (by omega) (by omega)]
    · rw [← place_middle_gt hsame.mHead.symm hsame.mTail.symm (Nat.lt_succ_self _),
        ← place_middle_le hsame.mHead.symm hsame.mTail.symm (Nat.le_refl _), hback',
        Function.update_self]
    · rw [← place_middle_gt hsame.mHead.symm hsame.mTail.symm (Nat.lt_succ_of_lt hgt),
        ← place_middle_gt hsame.mHead.symm hsame.mTail.symm hgt,
        hother (p + 1) (by omega) (by omega)]

/-- The maximum level is lowered to that of the tallest cell left. -/
theorem lowerLoop_spec {top : Nat} (hshape : s.Shape cells)
    (hlinked : ∀ l, l ≤ top → s.Linked cells l) (hpositive : ∀ cell ∈ cells, 1 ≤ cell.height)
    (hbounded : ∀ cell ∈ cells, cell.height ≤ top + 1) :
    ∃ top', s.lowerLoop top = some top' ∧ top' ≤ top ∧ Topped cells top' := by
  induction top with
  | zero => exact ⟨0, rfl, Nat.le_refl 0, hpositive, hbounded, .inl rfl⟩
  | succ top ih =>
      obtain ⟨q, hq⟩ := hlinked (top + 1) (Nat.le_refl _) 0 (.inl rfl)
      have hlink : s.nextAt s.mHead (top + 1) = some (some (s.place cells q)) := hq.link
      have hle := hq.next.le
      rcases Nat.lt_or_ge cells.length q with hend | hmore
      · obtain rfl : q = cells.length + 1 := by omega
        rw [place, addrAt_length] at hlink
        have hlower : ∀ cell ∈ cells, cell.height ≤ top + 1 := by
          intro cell hcell
          by_contra habove
          obtain ⟨p, hp, hget⟩ := List.getElem_of_mem hcell
          refine hq.next.between (p + 1) (Nat.succ_pos p) (by omega) ⟨cell, ?_, by omega⟩
          rw [List.getElem?_eq_getElem hp, hget]
        obtain ⟨top', hloop, hle', htopped⟩ := ih (fun l hl => hlinked l (by omega)) hlower
        refine ⟨top', ?_, by omega, htopped⟩
        simp only [lowerLoop, hlink, Option.bind_eq_bind, Option.bind_some, if_true, hloop]
      · have hne := hshape.place_ne_tail hmore
        have hmark := hq.next.mark hmore
        obtain ⟨q, rfl⟩ : ∃ q', q = q' + 1 := ⟨q - 1, by have := hq.next.lt; omega⟩
        obtain ⟨cell, hget, hheight⟩ := hmark
        have hcell := List.mem_of_getElem? hget
        have htall := hbounded cell hcell
        refine ⟨top + 1, ?_, Nat.le_refl _, hpositive, hbounded,
          .inr ⟨cell, hcell, by omega⟩⟩
        simp only [lowerLoop, hlink, Option.bind_eq_bind, Option.bind_some,
          Option.some.injEq, if_neg hne]

/-! ## The whole call -/

theorem Shape.erase (hshape : s.Shape (before ++ cell :: after)) :
    s.Shape (before ++ after) := by
  have hsub : (before ++ after).Sublist (before ++ cell :: after) :=
    (List.sublist_cons_self cell after).append_left before
  have hspine : (spine s.mHead s.mTail (before ++ after)).Sublist
      (spine s.mHead s.mTail (before ++ cell :: after)) :=
    ((hsub.map _).append_right [s.mTail]).cons_cons s.mHead
  exact
    { distinct := hshape.distinct.sublist hspine
      allocated := fun nd hnd => hshape.allocated nd (hspine.subset hnd)
      contents := fun other hother => hshape.contents other (hsub.subset hother)
      heights := fun other hother => hshape.heights other (hsub.subset hother)
      head_payload := hshape.head_payload
      tail_payload := hshape.tail_payload }

section Whole

variable [LinearOrder K] {k : K}

/-- `erase` takes out the first cell with the key. -/
theorem erase_spec (hint : int.HoldsUpTo limit)
    (hlimit : (before ++ cell :: after).length ≤ limit)
    (hrep : s.Represents (before ++ cell :: after)) (hkey : cell.key = k)
    (hbefore : ∀ other ∈ before, other.key < k) :
    ∃ s', s.erase int k = some (s', true) ∧ s'.Represents (before ++ after) ∧
      KeepsPayloads s s' := by
  subst hkey
  obtain ⟨hfirst, hsecond, -⟩ := List.pairwise_append.mp hrep.sorted
  obtain ⟨hcellAfter, hafter⟩ := List.pairwise_cons.mp hsecond
  have hturns : TurnsAt (fun key => decide (cell.key ≤ key)) (before ++ cell :: after)
      before.length := by
    refine turnsAt_append (fun other hother => decide_eq_false (not_le.mpr (hbefore _ hother)))
      fun other hother => decide_eq_true ?_
    rcases List.mem_cons.mp hother with rfl | hlater
    · exact le_refl _
    · exact hcellAfter other hlater
  obtain ⟨prevs, hsearch, hnoted⟩ := erase_search_spec hrep hturns
  have hplace := place_middle s before after cell
  have hlength := length_middle before after cell
  have hm := length_before_le before after
  obtain ⟨p, hprev, hentry⟩ := hnoted 0 (Nat.zero_le _)
  obtain rfl : p = before.length := hrep.prev_at_bottom hturns.le hprev
  have hnext := hrep.next_at_bottom (p := before.length) (by omega)
  have hlast := hrep.next_at_bottom (p := before.length + 1) (by omega)
  rw [hplace] at hnext hlast
  have hne : cell.addr ≠ s.mTail := hrep.shape.addr_ne_tail (by simp)
  have hkey : s.keyAt cell.addr = some cell.key := by
    rw [← hplace]
    exact hrep.shape.keyAt_place getElem?_middle
  obtain ⟨s₁, hunlink, hsame₁, hreads₁, hlinked₁⟩ :=
    unlinkLoop_spec hint hlimit hrep.shape hrep.linked hnoted (Nat.le_refl _)
  obtain ⟨s₂, hback, hsame₂, hback₂⟩ :=
    unlinkBack_spec (hrep.shape.of_sameNodes hsame₁) (hrep.back.of_sameNodes hsame₁)
      (by rw [hentry, hsame₁.place])
      (by rw [(hreads₁ cell.addr 0 (.inr rfl)).1, hsame₁.place, hlast])
  have hshape₂ := ((hrep.shape.of_sameNodes hsame₁).erase).of_sameLinks hsame₂
  have hmax : s₂.mMaxLevel = s.mMaxLevel := by rw [hsame₂.mMaxLevel, hsame₁.mMaxLevel]
  have hlinked₂ : ∀ l, l ≤ s₂.mMaxLevel → s₂.Linked (before ++ after) l := by
    intro l hl
    exact (hlinked₁ l (by omega)).of_sameLinks hsame₂
  have hsub : ∀ other ∈ before ++ after, other ∈ before ++ cell :: after :=
    fun other hother => List.perm_middle.mem_iff.mpr (.tail _ hother)
  obtain ⟨top, hlower, htop, htopped⟩ := lowerLoop_spec hshape₂ hlinked₂
    (fun other hother => hrep.topped.positive other (hsub other hother))
    (fun other hother => by rw [hmax]; exact hrep.topped.bounded other (hsub other hother))
  have hlength₂ : s₂.mLength = (before ++ cell :: after).length := by
    rw [hsame₂.mLength, hsame₁.mLength, hrep.length]
  have hcounted : int.eval (s₂.mLength - 1) = some (s₂.mLength - 1) :=
    hint.eval (by omega) (by omega)
  refine ⟨{ s₂ with mMaxLevel := top, mLength := s₂.mLength - 1 }, ?_, ?_,
    (hsame₁.keepsPayloads.trans hsame₂.keepsPayloads).counters _ _⟩
  · simp only [erase, hsearch, hnext, Option.some.injEq, if_neg hne, hkey, ne_eq, not_true,
      if_false, hunlink, hback, hlower, hcounted, Option.bind_eq_bind, Option.bind_some]
  · refine hshape₂.represents (fun l hl => hlinked₂ l (by omega)) hback₂ htopped
      (hrep.sorted.sublist ((List.sublist_cons_self cell after).append_left before)) ?_
    rw [hlength₂, hlength]
    omega

/-- `erase` leaves a list without the key alone. -/
theorem erase_absent (hrep : s.Represents (before ++ after))
    (hbefore : ∀ other ∈ before, other.key < k) (hafter : ∀ other ∈ after, k < other.key) :
    s.erase int k = some (s, false) := by
  have hturns : TurnsAt (fun key => decide (k ≤ key)) (before ++ after) before.length :=
    turnsAt_append (fun other hother => decide_eq_false (not_le.mpr (hbefore _ hother)))
      (fun other hother => decide_eq_true (le_of_lt (hafter _ hother)))
  obtain ⟨prevs, hsearch, -⟩ := erase_search_spec hrep hturns
  have hnext := hrep.next_at_bottom (length_before_le before after)
  cases after with
  | nil =>
      have htail : s.place (before ++ []) (before.length + 1) = s.mTail := by
        rw [List.append_nil]
        exact addrAt_length
      rw [htail] at hnext
      simp only [erase, hsearch, hnext, if_true, Option.bind_eq_bind, Option.bind_some]
      rfl
  | cons cell after =>
      rw [place_middle] at hnext
      have hne : cell.addr ≠ s.mTail := hrep.shape.addr_ne_tail (by simp)
      have hkey : s.keyAt cell.addr = some cell.key := by
        rw [← place_middle s before after cell]
        exact hrep.shape.keyAt_place getElem?_middle
      have hdiff : cell.key ≠ k := ne_of_gt (hafter cell List.mem_cons_self)
      simp only [erase, hsearch, hnext, Option.some.injEq, if_neg hne, hkey, ne_eq, hdiff,
        not_false_eq_true, if_true, Option.bind_eq_bind, Option.bind_some]
      rfl

end Whole

end SkipList

end RedisDB
