import RedisDB.Library.Records
import RedisDB.SkipList.OrderQueries

/-!
# The path of a search

All searches are one loop with different notes.  With the notes taken here it counts its
rounds and lists the nodes it moves to.  These are exactly the nodes before the place
sought that no later one before it is taller than; one more round leaves each level.
-/

namespace RedisDB

open RedisDB.Library

namespace SkipList

variable {K V : Type} {s : SkipList K V} {cells : List (Cell K V)}

/-- A round that leaves its level. -/
def noteLeft (_level _nd : Nat) (acc : Nat × List Nat) : Option (Nat × List Nat) :=
  some (acc.1 + 1, acc.2)

/-- A round that moves to the right. -/
def noteMoved (s : SkipList K V) (level nd : Nat) (acc : Nat × List Nat) :
    Option (Nat × List Nat) := do
  let next ← (← s.nextAt nd level)
  some (acc.1 + 1, acc.2 ++ [next])

/-- The number of rounds of a search and the nodes it moves to. -/
def searchPath (s : SkipList K V) (stop : K → Bool) : Option (Nat × List Nat) :=
  (s.search ⟨stop, noteLeft, s.noteMoved, (0, [])⟩).map (·.2)

/-- The height of a node. -/
def height (s : SkipList K V) (nd : Nat) : Nat := (s.heightAt nd).getD 0

/-! ## The path along the cells -/

/-- The cells on the way to the `m`th one begin anew at a cell in between. -/
theorem drop_take_split {p q m : Nat} {cell : Cell K V} (hcell : cells[q]? = some cell)
    (hp : p ≤ q) (hq : q < m) :
    (cells.take m).drop p = (cells.take q).drop p ++ cell :: (cells.take m).drop (q + 1) := by
  have hget : (cells.take m)[q]? = some cell := by rw [List.getElem?_take_of_lt hq, hcell]
  obtain ⟨hlt, hget⟩ := List.getElem?_eq_some_iff.mp hget
  have hsplit : cells.take m = cells.take q ++ cell :: (cells.take m).drop (q + 1) := by
    have htake : (cells.take m).take q = cells.take q := by
      rw [List.take_take, Nat.min_eq_left (Nat.le_of_lt hq)]
    rw [← htake, ← hget, List.getElem_cons_drop, List.take_append_drop]
  have hlength : p ≤ (cells.take q).length := by
    rw [List.length_take] at hlt ⊢
    omega
  conv_lhs => rw [hsplit]
  exact List.drop_append_of_le_length hlength

/-- Between two positions none is tall: their cells are no taller than the level. -/
theorem height_le_of_not_tall {level p m : Nat}
    (hnone : ∀ r, p < r → r ≤ m → ¬ tall cells level r) :
    ∀ cell ∈ (cells.take m).drop p, cell.height ≤ level := by
  intro cell hcell
  obtain ⟨i, hi, rfl⟩ := List.getElem_of_mem hcell
  rw [List.getElem_drop, List.getElem_take]
  rw [List.length_drop, List.length_take] at hi
  by_contra htall
  refine hnone (p + i + 1) (by omega) (by omega) ⟨_, List.getElem?_eq_getElem (by omega), ?_⟩
  omega

variable {stop : K → Bool} {m : Nat}

/-- From a position that hides none of the cells behind it, the search goes on along the
records of those cells. -/
theorem descend_path [LinearOrder K] (hrep : s.Represents cells) (hturns : TurnsAt stop cells m)
    (fuel : Nat) {levels p : Nat} (rounds : Nat) (passed : List Nat)
    (hlevels : levels ≤ s.mMaxLevel + 1)
    (hmark : p = 0 ∨ tall cells (levels - 1) p) (hp : p ≤ m)
    (hclear : ∀ r, p < r → r ≤ m → ¬ tall cells levels r) (hfuel : levels + (m - p) ≤ fuel) :
    s.descend stop noteLeft s.noteMoved fuel (s.place cells p) levels (rounds, passed) =
      some (s.place cells m,
        (rounds + levels + (records Cell.height ((cells.take m).drop p)).length,
          passed ++ (records Cell.height ((cells.take m).drop p)).map (·.addr))) := by
  have hm := hturns.le
  induction fuel generalizing levels p rounds passed with
  | zero =>
      obtain rfl : levels = 0 := by omega
      obtain rfl : p = m := by omega
      simp [descend, records]
  | succ fuel ih =>
      cases levels with
      | zero =>
          have hend : p = m := by
            by_contra hne
            exact hclear (p + 1) (by omega) (by omega)
              (tall_zero hrep.topped.positive (by omega) (by omega))
          subst hend
          simp [descend, records]
      | succ level =>
          obtain ⟨q, hq⟩ := hrep.linked level (by omega) p hmark
          have hpos : 0 < q := Nat.zero_lt_of_lt hq.next.lt
          have hstop := stopsAt_place hrep.shape hturns hpos hq.next.le
          by_cases hturn : m < q
          · -- no cell on the way reaches this level: it is left
            have hlower : p = 0 ∨ tall cells (level - 1) p :=
              hmark.imp id fun htall => htall.mono (by omega)
            have hclear' : ∀ r, p < r → r ≤ m → ¬ tall cells level r :=
              fun r hlow hhigh => hq.next.between r hlow (by omega)
            have hrest := ih (rounds + 1) passed (by omega) hlower hp
              hclear' (by omega)
            simp only [descend, hq.link, hstop, decide_eq_true hturn, Option.bind_eq_bind,
              Option.bind_some, if_true, noteLeft, hrest]
            congr 3
            omega
          · -- the first cell that does is the next record
            have hlt := hq.next.lt
            obtain ⟨q, rfl⟩ : ∃ q', q = q' + 1 := ⟨q - 1, by omega⟩
            have hqmark : tall cells level (q + 1) := hq.next.mark (by omega)
            obtain ⟨cell, hcell, hheight⟩ := hq.next.mark (by omega)
            have hbetween : ∀ r, p < r → r ≤ q → ¬ tall cells level r :=
              fun r hr hrq => hq.next.between r hr (by omega)
            have hlow : ∀ other ∈ (cells.take q).drop p, other.height < cell.height := by
              intro other hother
              have hle := height_le_of_not_tall hbetween other hother
              omega
            have hclear' : ∀ r, q + 1 < r → r ≤ m → ¬ tall cells (level + 1) r :=
              fun r hr hrm => hclear r (by omega) hrm
            have hhigh : ∀ other ∈ (cells.take m).drop (q + 1), other.height ≤ cell.height := by
              intro other hother
              have hle := height_le_of_not_tall hclear' other hother
              omega
            have hrest := ih (rounds + 1) (passed ++ [cell.addr]) hlevels
              (.inr hqmark) (by omega) hclear' (by omega)
            have hplace : s.place cells (q + 1) = cell.addr := addrAt_of_getElem? hcell
            rw [drop_take_split hcell (by omega) (by omega), records_append hlow hhigh]
            have hlink := hq.link
            rw [hplace] at hlink hrest
            rw [hplace] at hstop
            simp only [descend, hlink, hstop, decide_eq_false hturn, Option.bind_eq_bind,
              Option.bind_some, Bool.false_eq_true, if_false, noteMoved, hrest]
            simp only [List.length_cons, List.map_cons, List.append_assoc, List.cons_append,
              List.nil_append]
            congr 3
            omega

theorem Represents.searchPath [LinearOrder K] (hrep : s.Represents cells)
    (hturns : TurnsAt stop cells m) : s.searchPath stop =
      some (s.mMaxLevel + 1 + (records Cell.height (cells.take m)).length,
        (records Cell.height (cells.take m)).map (·.addr)) := by
  have hm := hturns.le
  have hlength := hrep.length
  have hclear : ∀ r, 0 < r → r ≤ m → ¬ tall cells (s.mMaxLevel + 1) r := by
    rintro (_ | r) hpos - htall
    · omega
    · obtain ⟨cell, hcell, hheight⟩ := htall
      have hbounded := hrep.topped.bounded cell (List.mem_of_getElem? hcell)
      omega
  have hpath := descend_path hrep hturns s.searchFuel 0 []
    (Nat.le_refl _) (.inl rfl) (Nat.zero_le m) hclear (by rw [searchFuel]; omega)
  have hhead : s.place cells 0 = s.mHead := addrAt_zero
  rw [hhead, List.drop_zero, Nat.zero_add, List.nil_append] at hpath
  rw [SkipList.searchPath, search, hpath, Option.map_some]

/-! ## Runs -/

/-- A test that stays true above a key for which it is true. -/
def Upward [LE K] (stop : K → Bool) : Prop :=
  ∀ first second, first ≤ second → stop first = true → stop second = true

/-- The search stops behind the cells whose keys fail its test. -/
theorem Represents.turnsAt [LinearOrder K] (hrep : s.Represents cells) (hstop : Upward stop) :
    TurnsAt stop cells (cells.filter fun cell => !stop cell.key).length ∧
      cells.take (cells.filter fun cell => !stop cell.key).length =
        cells.filter fun cell => !stop cell.key := by
  have hcut := hrep.cut (fun key => !stop key) fun first second hle hlow => by
    cases hfirst : stop first with
    | false => rfl
    | true => simp [hstop first second hle hfirst] at hlow
  have hturns : TurnsAt stop ((cells.filter fun cell => !stop cell.key) ++
      cells.filter fun cell => !!stop cell.key)
        (cells.filter fun cell => !stop cell.key).length :=
    turnsAt_append (fun cell hcell => by simpa using (List.mem_filter.mp hcell).2)
      fun cell hcell => by simpa using (List.mem_filter.mp hcell).2
  have htake : ((cells.filter fun cell => !stop cell.key) ++
      cells.filter fun cell => !!stop cell.key).take
        (cells.filter fun cell => !stop cell.key).length =
          cells.filter fun cell => !stop cell.key := List.take_left
  rw [hcut] at hturns htake
  exact ⟨hturns, htake⟩

/-- After every run a search moves exactly to the nodes below the place sought that no later
one of them is taller than, and takes one round for each of them and for each level. -/
theorem run_searchPath [LinearOrder K] (k₀ : K) (v₀ : V) (calls : List (SkipCall K V))
    (hstop : Upward stop) :
    ∃ s answers nodes passed,
      RunsTo k₀ v₀ calls s answers ∧
        s.levelChain 0 = some nodes ∧
          passed = records s.height (nodes.filter (s.passes fun key => !stop key)) ∧
            s.searchPath stop = some (s.mMaxLevel + 1 + passed.length, passed) := by
  obtain ⟨s, hrun, cells, hrep, -⟩ := run_models k₀ v₀ calls
  obtain ⟨hturns, htake⟩ := hrep.turnsAt hstop
  have hbefore : (cells.map (·.addr)).filter (s.passes fun key => !stop key) =
      (cells.filter fun cell => !stop cell.key).map (·.addr) := by
    rw [List.filter_map]
    exact congrArg (List.map _) (List.filter_congr fun cell hcell =>
      hrep.shape.passes_addr _ hcell)
  have hheights : records (fun cell : Cell K V => s.height cell.addr)
      (cells.filter fun cell => !stop cell.key) =
        records Cell.height (cells.filter fun cell => !stop cell.key) :=
    records_congr fun cell hcell => by
      rw [SkipList.height, hrep.shape.heights cell (List.mem_filter.mp hcell).1, Option.getD_some]
  refine ⟨s, _, _, _, hrun, levelChain_zero hrep, rfl, ?_⟩
  rw [hrep.searchPath hturns, htake, hbefore, records_map, hheights, List.length_map]

/-- The search for `3` among `1`, `2` and `3` of levels `1`, `0` and `2`. -/
theorem run_searchPath_three : ∃ s answers nodes passed,
    RunsTo 0 () [.insert 2 3 (), .insert 0 2 (), .insert 1 1 ()] s answers ∧
      s.levelChain 0 = some nodes ∧
        passed = records s.height (nodes.filter (s.passes fun key => !decide (3 ≤ key))) ∧
          s.searchPath (fun key : Nat => 3 ≤ key) =
            some (s.mMaxLevel + 1 + passed.length, passed) :=
  run_searchPath 0 () _ fun _ _ hle hfirst =>
    decide_eq_true (Nat.le_trans (of_decide_eq_true hfirst) hle)

end SkipList

end RedisDB
