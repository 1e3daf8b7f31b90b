import RedisDB.SkipList.Search

/-!
# Ranks and walks

`getRank` adds up the spans its search passes, and an iterator follows the links
of one level to the tail.
-/

namespace RedisDB

open RedisDB.Library

/-- Reads that all succeed give the list of what they read. -/
theorem mapM_map_eq_some {A B C : Type} {read : B → Option C} {f : A → B} {g : A → C}
    {l : List A} (hread : ∀ a ∈ l, read (f a) = some (g a)) :
    (l.map f).mapM read = some (l.map g) := by
  induction l with
  | nil => rfl
  | cons a l ih =>
      rw [List.map_cons, List.mapM_cons, hread a List.mem_cons_self,
        ih fun b hb => hread b (List.mem_cons_of_mem a hb)]
      rfl

namespace SkipList

variable {K V : Type} {s : SkipList K V} {cells before after : List (Cell K V)}
  {level p q : Nat} {int : IntType} {limit : Nat}

/-! ## `getRank` -/

section Rank

variable [LinearOrder K] {k : K}

/-- The search of `getRank` ends at the last cell of a key up to `k` with its position. -/
theorem rank_search_spec (hint : int.HoldsUpTo limit) (hlimit : before.length ≤ limit)
    (hrep : s.Represents (before ++ after))
    (hbefore : ∀ cell ∈ before, cell.key ≤ k) (hafter : ∀ cell ∈ after, k < cell.key) :
    s.search (s.rankSearch int k) =
      some (s.place (before ++ after) before.length, (before.length : Int)) := by
  have hturns : TurnsAt (fun key => decide (k < key)) (before ++ after) before.length :=
    turnsAt_append (fun cell hcell => decide_eq_false (not_lt.mpr (hbefore cell hcell)))
      (fun cell hcell => decide_eq_true (hafter cell hcell))
  have hright : ∀ (level p q : Nat) (result : Int), level ≤ s.mMaxLevel → q ≤ before.length →
      result = p → s.spanAt (s.place (before ++ after) p) level = some ((q : Int) - p) →
        ∃ result', s.addSpan int level (s.place (before ++ after) p) result = some result' ∧
          result' = q := by
    intro level p q result _ hq hresult hspan
    have hsum : (p : Int) + (q - p) = q := by omega
    refine ⟨q, ?_, rfl⟩
    simp only [addSpan, hspan, hresult, hsum, Option.bind_eq_bind, Option.bind_some]
    exact hint.eval (by omega) (by omega)
  have hdown : ∀ (level p : Nat) (result : Int), level ≤ s.mMaxLevel → result = p →
      PrevMark (tall (before ++ after) level) before.length p →
        ∃ result', noNote level (s.place (before ++ after) p) result = some result' ∧
          result' = p :=
    fun _ _ result _ hinv _ => ⟨result, rfl, hinv⟩
  obtain ⟨result, hsearch, hresult⟩ :=
    search_spec (s.rankSearch int k) (fun _ p result => result = (p : Int)) hrep hturns hright
      hdown rfl
  subst hresult
  exact hsearch

theorem getRank_spec (hint : int.HoldsUpTo limit) (hlimit : before.length ≤ limit)
    (hrep : s.Represents (before ++ after))
    (hbefore : ∀ cell ∈ before, cell.key ≤ k) (hafter : ∀ cell ∈ after, k < cell.key) :
    s.getRank int k =
      some (if ∃ cell ∈ before, cell.key = k then (before.length : Int) else 0) := by
  have hsearch := rank_search_spec hint hlimit hrep hbefore hafter
  rcases List.eq_nil_or_concat before with rfl | ⟨front, last, rfl⟩
  · obtain ⟨payload, hpayload⟩ := hrep.shape.head_payload
    simp [getRank, hsearch, place, keyAt, hpayload]
  · have hsorted := (List.pairwise_append.mp hrep.sorted).1
    have hget : (front.concat last ++ after)[front.length]? = some last := by simp
    have hkey : s.keyAt (s.place (front.concat last ++ after) (front.concat last).length) =
        some last.key := by
      rw [List.length_concat]
      exact hrep.shape.keyAt_place hget
    have hlast : last.key = k ↔ ∃ cell ∈ front.concat last, cell.key = k := by
      constructor
      · exact fun heq => ⟨last, by simp, heq⟩
      · rintro ⟨cell, hcell, heq⟩
        refine le_antisymm (hbefore last (by simp)) ?_
        rw [List.concat_eq_append] at hcell hsorted
        rcases List.mem_append.mp hcell with hfront | hend
        · have hle := (List.pairwise_append.mp hsorted).2.2 cell hfront last (by simp)
          exact heq ▸ hle
        · rw [List.mem_singleton.mp hend] at heq
          exact le_of_eq heq.symm
    simp only [getRank, hsearch, hkey, Option.bind_eq_bind, Option.bind_some, hlast]
    rfl

end Rank

/-! ## Walks along a level -/

section Walk

/-- Between two neighbouring marks no cell is tall enough to be passed. -/
theorem filter_drop_of_nextMark (hnext : NextMark (tall cells level) cells.length p q) :
    (cells.drop p).filter (fun cell => level < cell.height) =
      (cells.drop (q - 1)).filter fun cell => level < cell.height := by
  obtain ⟨distance, hdistance⟩ : ∃ distance, q = p + 1 + distance :=
    ⟨q - (p + 1), by have := hnext.lt; omega⟩
  have hle := hnext.le
  have hbetween := hnext.between
  clear hnext
  induction distance generalizing p with
  | zero =>
      obtain rfl : q = p + 1 := hdistance
      rw [Nat.add_sub_cancel]
  | succ distance ih =>
      have hp : p < cells.length := by omega
      have hshort : ¬ level < cells[p].height := fun habove =>
        hbetween (p + 1) (Nat.lt_succ_self p) (by omega)
          ⟨cells[p], List.getElem?_eq_getElem hp, habove⟩
      rw [List.drop_eq_getElem_cons hp, List.filter_cons, if_neg (by simpa using hshort)]
      exact ih (by omega) fun r hlow hhigh => hbetween r (by omega) hhigh

/-- A walk from the node a mark links to meets the marked cells after it. -/
theorem walk_spec (hshape : s.Shape cells) (hlinked : s.Linked cells level)
    (hlink : s.LinkedAt cells level p q) (fuel : Nat) (hfuel : cells.length + 1 < fuel + q) :
    s.walk level fuel (some (s.place cells q)) =
      some (((cells.drop p).filter fun cell => level < cell.height).map (·.addr)) := by
  rw [filter_drop_of_nextMark hlink.next]
  induction fuel generalizing p q with
  | zero =>
      have := hlink.next.le
      omega
  | succ fuel ih =>
      rcases Nat.lt_or_ge cells.length q with hend | hmore
      · obtain rfl : q = cells.length + 1 := by have := hlink.next.le; omega
        rw [place, addrAt_length, walk, if_pos rfl, Nat.add_sub_cancel, List.drop_length]
        rfl
      · have hmark := hlink.next.mark hmore
        obtain ⟨r, hr⟩ := hlinked q (.inr hmark)
        have hrest := ih hr (by have := hr.next.lt; omega)
        rw [← filter_drop_of_nextMark hr.next] at hrest
        have hne := hshape.place_ne_tail hmore
        obtain ⟨q, rfl⟩ : ∃ q', q = q' + 1 := ⟨q - 1, by have := hlink.next.lt; omega⟩
        obtain ⟨cell, hget, habove⟩ := hmark
        have hcell : cells[q] = cell := Option.some.inj ((List.getElem?_eq_getElem hmore) ▸ hget)
        have haddr : s.place cells (q + 1) = cell.addr := addrAt_of_getElem? hget
        simp only [walk, Option.some.injEq, if_neg hne, hr.link, hrest, Option.bind_eq_bind,
          Option.bind_some]
        rw [Nat.add_sub_cancel, List.drop_eq_getElem_cons hmore, hcell, List.filter_cons,
          if_pos (decide_eq_true habove), List.map_cons, haddr]

variable [LinearOrder K]

/-- The chain of a level is the chain of the cells taller than it. -/
theorem levelChain_spec (hrep : s.Represents cells) (hlevel : level ≤ s.mMaxLevel) :
    s.levelChain level =
      some ((cells.filter fun cell => level < cell.height).map (·.addr)) := by
  obtain ⟨q, hq⟩ := hrep.linked level hlevel 0 (.inl rfl)
  have hlink : s.nextAt s.mHead level = some (some (s.place cells q)) := hq.link
  have hlength := hrep.length
  have hlt := hq.next.lt
  have hwalk := walk_spec hrep.shape (hrep.linked level hlevel) hq (s.mLength.toNat + 1)
    (by omega)
  simp only [levelChain, hlink, hwalk, List.drop_zero, Option.bind_eq_bind, Option.bind_some]

theorem levelChain_zero (hrep : s.Represents cells) :
    s.levelChain 0 = some (cells.map (·.addr)) := by
  rw [levelChain_spec hrep (Nat.zero_le _)]
  have hall : cells.filter (fun cell => 0 < cell.height) = cells :=
    List.filter_eq_self.mpr fun cell hcell => decide_eq_true (hrep.topped.positive cell hcell)
  rw [hall]

/-- The traversal reads the keys and values of the cells. -/
theorem traverse_spec (hrep : s.Represents cells) :
    s.traverse = some (cells.map fun cell => (cell.key, cell.value)) := by
  simp only [traverse, levelChain_zero hrep, mapM_map_eq_some hrep.shape.contents,
    Option.bind_eq_bind, Option.bind_some]

end Walk

end SkipList

end RedisDB
