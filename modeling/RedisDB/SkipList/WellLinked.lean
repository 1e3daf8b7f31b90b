import RedisDB.SkipList.Runs

/-!
# What a reached skip list looks like

The invariant of a skip list in terms of its pointers, without the cells: the
chain of level `0`, the chains of the other levels as parts of it, the spans as
differences of ranks, and the two counters.
-/

namespace RedisDB

open RedisDB.Library RedisDB.IntType

namespace SkipList

variable {K V : Type} [LinearOrder K] {s : SkipList K V} {cells : List (Cell K V)} {level : Nat}

/-- The height of the node exceeds the level. -/
def reaches (s : SkipList K V) (level nd : Nat) : Bool :=
  match s.heightAt nd with
  | none => false
  | some height => level < height

/-- A link and its span at a level, from a node of rank `r`: to the tail, or to the
element of a greater rank. -/
def SpanFits (s : SkipList K V) (nodes : List Nat) (level r nd : Nat) : Prop :=
  (s.nextAt nd level = some (some s.mTail) ∧ s.spanAt nd level = some (s.mLength - r)) ∨
    ∃ rank next, r < rank ∧ (s.mHead :: nodes)[rank]? = some next ∧
      s.nextAt nd level = some (some next) ∧ s.spanAt nd level = some ((rank : Int) - r)

/-- The pointers, spans and counters of a list whose chain of level `0` is `nodes`. -/
structure WellLinked (s : SkipList K V) (nodes : List Nat) : Prop where
  chain : s.levelChain 0 = some nodes
  distinct : (s.mHead :: (nodes ++ [s.mTail])).Nodup
  sorted : ∃ keys : List K, nodes.map s.keyAt = keys.map some ∧ keys.Pairwise (· ≤ ·)
  length : s.mLength = nodes.length
  levels : ∀ level, level ≤ s.mMaxLevel →
    s.levelChain level = some (nodes.filter (s.reaches level))
  spans : ∀ level, level ≤ s.mMaxLevel → ∀ r nd, (s.mHead :: nodes)[r]? = some nd →
    r = 0 ∨ s.reaches level nd → s.SpanFits nodes level r nd
  empty_level : nodes = [] → s.mMaxLevel = 0
  largest_level : ∀ nd ∈ nodes, ∃ l, s.heightAt nd = some (l + 1) ∧ l ≤ s.mMaxLevel
  attained_level : nodes ≠ [] → ∃ nd ∈ nodes, s.heightAt nd = some (s.mMaxLevel + 1)

omit [LinearOrder K] in
theorem Shape.reaches_addr (hshape : s.Shape cells) {cell : Cell K V} (hcell : cell ∈ cells) :
    s.reaches level cell.addr = decide (level < cell.height) := by
  rw [reaches, hshape.heights cell hcell]

omit [LinearOrder K] in
/-- The node of a rank stands at the position of that number. -/
theorem getElem?_ranked {r nd : Nat} :
    (s.mHead :: cells.map (·.addr))[r]? = some nd ↔ r ≤ cells.length ∧ s.place cells r = nd := by
  cases r with
  | zero => simp [place]
  | succ r =>
      rw [List.getElem?_cons_succ, List.getElem?_map, Option.map_eq_some_iff]
      constructor
      · rintro ⟨cell, hcell, rfl⟩
        obtain ⟨hr, -⟩ := List.getElem?_eq_some_iff.mp hcell
        exact ⟨hr, addrAt_of_getElem? hcell⟩
      · rintro ⟨hr, rfl⟩
        have hcell := List.getElem?_eq_getElem (l := cells) hr
        exact ⟨_, hcell, (addrAt_of_getElem? hcell).symm⟩

omit [LinearOrder K] in
/-- The nodes a back link leaves are those after the head. -/
theorem getElem?_behind_head {r nd : Nat} :
    (cells.map (·.addr) ++ [s.mTail])[r]? = some nd ↔
      r ≤ cells.length ∧ s.place cells (r + 1) = nd := by
  have hspine : r ≤ cells.length →
      (cells.map (·.addr) ++ [s.mTail])[r]? = some (s.place cells (r + 1)) := fun hr => by
    rw [← List.getElem?_cons_succ (a := s.mHead)]
    exact spine_getElem? (by omega)
  constructor
  · intro hnd
    have hr : r ≤ cells.length := by
      have hlt := (List.getElem?_eq_some_iff.mp hnd).1
      rw [List.length_append, List.length_map, List.length_singleton] at hlt
      omega
    exact ⟨hr, Option.some.inj ((hspine hr).symm.trans hnd)⟩
  · rintro ⟨hr, rfl⟩
    exact hspine hr

theorem Represents.spanFits (hrep : s.Represents cells) (hlevel : level ≤ s.mMaxLevel)
    {r nd : Nat} (hnd : (s.mHead :: cells.map (·.addr))[r]? = some nd)
    (hreaches : r = 0 ∨ s.reaches level nd) : s.SpanFits (cells.map (·.addr)) level r nd := by
  obtain ⟨hr, rfl⟩ := getElem?_ranked.mp hnd
  have hmark : r = 0 ∨ tall cells level r := by
    cases r with
    | zero => exact .inl rfl
    | succ r =>
        have htall := hreaches.resolve_left (Nat.succ_ne_zero r)
        have hcell := List.getElem?_eq_getElem (l := cells) hr
        rw [place, addrAt_of_getElem? hcell,
          hrep.shape.reaches_addr (List.getElem_mem hr)] at htall
        exact .inr ⟨_, hcell, of_decide_eq_true htall⟩
  obtain ⟨q, hq⟩ := hrep.linked level hlevel r hmark
  have hlt := hq.next.lt
  have hle := hq.next.le
  rcases Nat.lt_or_ge cells.length q with hend | hmore
  · obtain rfl : q = cells.length + 1 := by omega
    refine .inl ⟨?_, ?_⟩
    · rw [hq.link]
      exact congrArg (fun next => some (some next)) addrAt_length
    · rw [hq.span, hrep.length, Nat.min_eq_right (by omega)]
  · exact .inr ⟨q, _, hlt, getElem?_ranked.mpr ⟨hmore, rfl⟩, hq.link, hq.span_of_le hmore⟩

/-- A list that stands for cells is well linked along their nodes. -/
theorem Represents.wellLinked (hrep : s.Represents cells) :
    s.WellLinked (cells.map (·.addr)) where
  chain := levelChain_zero hrep
  distinct := hrep.shape.distinct
  sorted := by
    refine ⟨cells.map (·.key), ?_, List.pairwise_map.mpr hrep.sorted⟩
    rw [List.map_map, List.map_map]
    refine List.map_congr_left fun cell hcell => ?_
    rw [Function.comp_apply, keyAt, hrep.shape.contents cell hcell]
    rfl
  length := by rw [hrep.length, List.length_map]
  levels := by
    intro level hlevel
    rw [levelChain_spec hrep hlevel, List.filter_map]
    congr 2
    exact List.filter_congr fun cell hcell => (hrep.shape.reaches_addr hcell).symm
  spans level hlevel r nd hnd hreaches := hrep.spanFits hlevel hnd hreaches
  empty_level := by
    intro hempty
    have hcells : cells = [] := List.map_eq_nil_iff.mp hempty
    refine hrep.topped.attained.resolve_right ?_
    rintro ⟨cell, hcell, -⟩
    rw [hcells] at hcell
    cases hcell
  largest_level := by
    intro nd hnd
    obtain ⟨cell, hcell, rfl⟩ := List.mem_map.mp hnd
    have hpositive := hrep.topped.positive cell hcell
    have hbounded := hrep.topped.bounded cell hcell
    refine ⟨cell.height - 1, ?_, by omega⟩
    rw [hrep.shape.heights cell hcell]
    congr 1
    omega
  attained_level := by
    intro hne
    rcases hrep.topped.attained with hzero | ⟨cell, hcell, hheight⟩
    · -- all nodes have level 0 when that is the maximum
      obtain ⟨cell, hcell⟩ := List.exists_mem_of_ne_nil cells fun hnil => hne (by rw [hnil]; rfl)
      have hpositive := hrep.topped.positive cell hcell
      have hbounded := hrep.topped.bounded cell hcell
      refine ⟨cell.addr, List.mem_map_of_mem hcell, ?_⟩
      rw [hrep.shape.heights cell hcell]
      congr 1
      omega
    · exact ⟨cell.addr, List.mem_map_of_mem hcell,
        by rw [hrep.shape.heights cell hcell, hheight]⟩

/-- A run on a new list returns and ends in a well linked list, whatever its sentinels hold
and whatever levels are drawn, exactly when its elements always are few enough for an `int`
to count. -/
theorem run_wellLinked (k : K) (v : V) (calls : List (SkipCall K V)) :
    (∃ s answers nodes, (skipMachine int32 k v).run (new k v) calls = some (s, answers) ∧
      s.WellLinked nodes) ↔ Fits INT_MAX calls := by
  constructor
  · rintro ⟨s, answers, nodes, hrun, -⟩
    exact fits_of_run hrun
  · intro hfits
    obtain ⟨s, hrun, ⟨cells, hrep, -⟩, -⟩ := run_models_within k v hfits
    exact ⟨s, _, _, hrun, hrep.wellLinked⟩

/-- The last of `INT_MAX + 1` insertions overflows `mLength`. -/
theorem not_wellLinked_inserts :
    ¬ ∃ s answers nodes, (skipMachine int32 0 0).run (new 0 0 : SkipList Nat Nat)
        (List.replicate (INT_MAX + 1) (.insert 0 0 0)) = some (s, answers) ∧
      s.WellLinked nodes := by
  rintro ⟨s, answers, nodes, hrun, -⟩
  exact not_fits_inserts (Nat.lt_succ_self INT_MAX) (fits_of_run hrun)

end SkipList

end RedisDB
