import RedisDB.SkipList.Refinement

/-!
# Ranks and bounds

`getRank` counts the elements up to a stored key.  The two bounds are the ends
of the run of elements with one key, and both are null for a key outside the
list's range.
-/

namespace RedisDB

open RedisDB.Library RedisDB.IntType

namespace SkipList

variable {K V : Type} [LinearOrder K] {s : SkipList K V} {m : Multimap K V}
  {cells before after : List (Cell K V)} {k : K} {stop : K → Bool} {n p : Nat}

/-! ## Ranks -/

/-- The last element of the key stands at the position `r`, counted from 1. -/
def LastOfKey (elements : List (K × V)) (k : K) (r : Nat) : Prop :=
  ∃ before e after, elements = before ++ e :: after ∧ before.length + 1 = r ∧ e.1 = k ∧
    ∀ later ∈ after, later.1 ≠ k

/-- In a sorted sequence the elements up to a stored key end with the last of that key. -/
theorem lastOfKey_filter {elements : List (K × V)}
    (hsorted : elements.Pairwise fun first second => first.1 ≤ second.1)
    (hstored : ∃ e ∈ elements, e.1 = k) :
    LastOfKey elements k (elements.filter fun e => e.1 ≤ k).length := by
  have hcut : elements.filter (fun e => e.1 ≤ k) ++ elements.filter (fun e => !decide (e.1 ≤ k)) =
      elements :=
    filter_append_filter_not (hsorted.imp fun hle hlow =>
      decide_eq_true (le_trans hle (of_decide_eq_true hlow)))
  obtain ⟨found, hfound, hkey⟩ := hstored
  have hin : found ∈ elements.filter fun e => e.1 ≤ k :=
    List.mem_filter.mpr ⟨hfound, decide_eq_true (le_of_eq hkey)⟩
  have hlow := hsorted.filter fun e => decide (e.1 ≤ k)
  rcases List.eq_nil_or_concat (elements.filter fun e => e.1 ≤ k) with hnil | ⟨front, e, hlast⟩
  · rw [hnil] at hin
    cases hin
  · have hle : e.1 ≤ k := by
      have hmem : e ∈ elements.filter fun e => e.1 ≤ k := by rw [hlast]; simp
      exact of_decide_eq_true (List.mem_filter.mp hmem).2
    refine ⟨front, e, elements.filter fun e => !decide (e.1 ≤ k), ?_, ?_, ?_, ?_⟩
    · rw [hlast, List.concat_append] at hcut
      exact hcut.symm
    · rw [hlast, List.length_concat]
    · -- the found element is `e` or stands before it
      rw [hlast, List.concat_eq_append] at hin hlow
      refine le_antisymm hle ?_
      rcases List.mem_append.mp hin with hfront | hend
      · exact hkey ▸ (List.pairwise_append.mp hlow).2.2 found hfront e (by simp)
      · rw [List.mem_singleton.mp hend] at hkey
        exact le_of_eq hkey.symm
    · intro later hlater heq
      have habove := (List.mem_filter.mp hlater).2
      simp [heq] at habove

theorem Models.sorted (hmodels : s.Models m) :
    m.toList.Pairwise fun first second => first.1 ≤ second.1 := by
  obtain ⟨cells, hrep, hcontents⟩ := hmodels
  rw [← hcontents]
  exact List.pairwise_map.mpr hrep.sorted

/-- The rank of a stored key is the number of elements with keys up to it, which is the
position of the last element with the key; the rank of any other key is `0`, that of the
key in the sentinels included. -/
def RanksElements (int : IntType) (s : SkipList K V) (elements : List (K × V)) : Prop :=
  ∀ k, ((∃ e ∈ elements, e.1 = k) →
      s.getRank int k = some ((elements.filter fun e => e.1 ≤ k).length : Int) ∧
        LastOfKey elements k (elements.filter fun e => e.1 ≤ k).length) ∧
    ((∀ e ∈ elements, e.1 ≠ k) → s.getRank int k = some 0)

theorem ModelsWithin.ranksElements (hmodels : s.ModelsWithin m) :
    s.RanksElements int32 m.toList := by
  obtain ⟨hmodels, hfits⟩ := hmodels
  refine fun k => ⟨fun hstored => ?_, fun habsent => ?_⟩
  · have hcontains := Multimap.contains_iff.mpr hstored
    rw [hmodels.getRank int32_holdsUpTo hfits k, Multimap.rank_eq, if_pos hcontains]
    exact ⟨rfl, lastOfKey_filter hmodels.sorted hstored⟩
  · have hcontains : ¬ m.contains k = true := fun h => by
      obtain ⟨e, he, hkey⟩ := Multimap.contains_iff.mp h
      exact habsent e he hkey
    rw [hmodels.getRank int32_holdsUpTo hfits k, Multimap.rank_eq, if_neg hcontains]
    rfl

/-- A run leads to a list that ranks all keys exactly when its elements always are few enough
for an `int` to count. -/
theorem run_getRank (k₀ : K) (v₀ : V) (calls : List (SkipCall K V)) :
    (∃ s answers elements, (skipMachine int32 k₀ v₀).run (new k₀ v₀) calls = some (s, answers) ∧
      s.traverse = some elements ∧ s.RanksElements int32 elements) ↔ Fits INT_MAX calls := by
  constructor
  · rintro ⟨s, answers, elements, hrun, -⟩
    exact fits_of_run hrun
  · intro hfits
    obtain ⟨s, hrun, hmodels⟩ := run_models_within k₀ v₀ hfits
    exact ⟨s, _, _, hrun, hmodels.1.traverse, hmodels.ranksElements⟩

/-- No `int` is the rank of the key that was inserted `INT_MAX + 1` times. -/
theorem not_ranksElements_inserts :
    ¬ ∃ s answers elements, (skipMachine int32 0 0).run (new 0 0 : SkipList Nat Nat)
        (List.replicate (INT_MAX + 1) (.insert 0 0 0)) = some (s, answers) ∧
      s.traverse = some elements ∧ s.RanksElements int32 elements := by
  rintro ⟨s, answers, elements, hrun, -⟩
  exact not_fits_inserts (Nat.lt_succ_self INT_MAX) (fits_of_run hrun)

/-! ## The range of the list -/

/-- The key lies between the smallest and the largest of the cells. -/
def InRange (cells : List (Cell K V)) (k : K) : Prop :=
  (∃ cell ∈ cells, cell.key ≤ k) ∧ ∃ cell ∈ cells, k ≤ cell.key

theorem Represents.key_le (hrep : s.Represents cells) {first second : Cell K V}
    (hfirst : cells[n]? = some first) (hsecond : cells[p]? = some second) (hle : n ≤ p) :
    first.key ≤ second.key := by
  obtain ⟨hn, rfl⟩ := List.getElem?_eq_some_iff.mp hfirst
  obtain ⟨hp, rfl⟩ := List.getElem?_eq_some_iff.mp hsecond
  rcases Nat.eq_or_lt_of_le hle with rfl | hlt
  · exact le_refl _
  · exact List.pairwise_iff_getElem.mp hrep.sorted n p hn hp hlt

/-- `isInRange` compares with the first and the last cell. -/
theorem Represents.isInRange_of_ends (hrep : s.Represents cells) {first last : Cell K V}
    (hfirst : cells[0]? = some first) (hlast : cells[n]? = some last)
    (hlength : cells.length = n + 1) :
    s.isInRange k = some (decide (first.key ≤ k) && decide (k ≤ last.key)) := by
  have hnext : s.nextAt s.mHead 0 = some (some (s.place cells 1)) :=
    hrep.next_at_bottom (Nat.zero_le _)
  have hback := hrep.back (n + 1) (by omega)
  have htail : s.place cells (n + 1 + 1) = s.mTail := by
    rw [← hlength]
    exact addrAt_length
  rw [htail] at hback
  have hfirstKey := hrep.shape.keyAt_place hfirst
  have hlastKey := hrep.shape.keyAt_place hlast
  simp only [isInRange, hnext, hback, hfirstKey, hlastKey, Option.bind_eq_bind,
    Option.bind_some]
  by_cases hlow : first.key ≤ k
  · by_cases hhigh : k ≤ last.key <;> simp [hlow, hhigh, not_lt.mpr, not_le.mp]
  · simp [hlow, not_le.mp hlow]

theorem Represents.isInRange (hrep : s.Represents cells) (hne : cells ≠ []) :
    (InRange cells k → s.isInRange k = some true) ∧
      (¬ InRange cells k → s.isInRange k = some false) := by
  obtain ⟨n, hlength⟩ : ∃ n, cells.length = n + 1 :=
    ⟨cells.length - 1, by have := List.length_pos_iff.mpr hne; omega⟩
  have hfirst := List.getElem?_eq_getElem (l := cells) (i := 0) (by omega)
  have hlast := List.getElem?_eq_getElem (l := cells) (i := n) (by omega)
  have hiff : InRange cells k ↔ cells[0].key ≤ k ∧ k ≤ cells[n].key := by
    constructor
    · rintro ⟨⟨low, hlow, hlowKey⟩, high, hhigh, hhighKey⟩
      obtain ⟨p, hp⟩ := List.getElem?_of_mem hlow
      obtain ⟨q, hq⟩ := List.getElem?_of_mem hhigh
      have hqlt := (List.getElem?_eq_some_iff.mp hq).1
      exact ⟨le_trans (hrep.key_le hfirst hp (Nat.zero_le p)) hlowKey,
        le_trans hhighKey (hrep.key_le hq hlast (by omega))⟩
    · rintro ⟨hlow, hhigh⟩
      exact ⟨⟨_, List.getElem_mem _, hlow⟩, _, List.getElem_mem _, hhigh⟩
  rw [hrep.isInRange_of_ends hfirst hlast hlength]
  constructor
  · intro hrange
    obtain ⟨hlow, hhigh⟩ := hiff.mp hrange
    rw [decide_eq_true hlow, decide_eq_true hhigh]
    rfl
  · intro hout
    congr 1
    by_contra habsurd
    rw [Bool.not_eq_false, Bool.and_eq_true] at habsurd
    exact hout (hiff.mpr ⟨of_decide_eq_true habsurd.1, of_decide_eq_true habsurd.2⟩)

/-! ## The bounds -/

/-- The node's key passes the test. -/
def passes (s : SkipList K V) (test : K → Bool) (nd : Nat) : Bool :=
  match s.keyAt nd with
  | none => false
  | some key => test key

omit [LinearOrder K] in
theorem Shape.passes_addr (hshape : s.Shape cells) (test : K → Bool) {cell : Cell K V}
    (hcell : cell ∈ cells) : s.passes test cell.addr = test cell.key := by
  rw [passes, keyAt, hshape.contents cell hcell]
  rfl

omit [LinearOrder K] in
/-- The first node that passes the test of a search stands right after its turn. -/
theorem TurnsAt.find?_passes (hshape : s.Shape cells) (hturns : TurnsAt stop cells n) :
    (cells.map (·.addr)).find? (s.passes stop) = cells[n]?.map (·.addr) := by
  rw [List.find?_map]
  congr 1
  have hpasses : ∀ (p : Nat) (hp : p < cells.length),
      s.passes stop cells[p].addr = decide (n ≤ p) := fun p hp => by
    rw [hshape.passes_addr stop (List.getElem_mem hp)]
    exact hturns.turns p _ (List.getElem?_eq_getElem hp)
  rcases Nat.lt_or_ge n cells.length with hlt | hge
  · rw [List.getElem?_eq_getElem hlt, List.find?_eq_some_iff_getElem]
    refine ⟨by simp [hpasses n hlt], n, hlt, rfl, fun p hp => ?_⟩
    simp [hpasses p (by omega), hp]
  · rw [List.getElem?_eq_none hge, List.find?_eq_none]
    intro cell hcell
    obtain ⟨p, hp, rfl⟩ := List.getElem_of_mem hcell
    simp [hpasses p hp, Nat.lt_of_lt_of_le hp hge]

omit [LinearOrder K] in
theorem TurnsAt.place_eq (hshape : s.Shape cells) (hturns : TurnsAt stop cells n) :
    s.place cells (n + 1) = ((cells.map (·.addr)).find? (s.passes stop)).getD s.mTail := by
  rw [hturns.find?_passes hshape]
  rfl

/-- The search of a bound ends at its turn. -/
theorem bound_search_spec (hrep : s.Represents cells) (hturns : TurnsAt stop cells n) :
    s.search (boundSearch stop) = some (s.place cells n, ()) := by
  obtain ⟨_, hsearch, -⟩ : ∃ acc, s.search (boundSearch stop) =
      some (s.place cells n, acc) ∧ True :=
    search_spec (boundSearch stop) (fun _ _ _ => True) hrep hturns
      (fun _ _ _ acc _ _ _ _ => ⟨acc, rfl, trivial⟩)
      (fun _ _ acc _ _ _ => ⟨acc, rfl, trivial⟩) trivial
  exact hsearch

/-- Inside the range a bound is the place after the turn of its search. -/
theorem bound_spec (hrep : s.Represents cells) (hturns : TurnsAt stop cells n)
    (hrange : s.isInRange k = some true) :
    s.bound stop k = some (some (s.place cells (n + 1))) := by
  have hsearch := bound_search_spec hrep hturns
  have hnext := hrep.next_at_bottom hturns.le
  simp only [bound, hrange, hsearch, hnext, if_true, Option.bind_eq_bind, Option.bind_some]

theorem bound_outside (hrange : s.isInRange k = some false) : s.bound stop k = some none := by
  simp [bound, hrange]

/-- The nodes an iterator passes from one pointer to another along the links of
level `0`. -/
def between (s : SkipList K V) (last : Option Nat) : Nat → Option Nat → Option (List Nat)
  | 0, _ => none
  | fuel + 1, it =>
      if it = last then some []
      else do
        let nd ← it
        let next ← s.nextAt nd 0
        let rest ← s.between last fuel next
        some (nd :: rest)

/-- The walk from one position to another passes the cells between them. -/
theorem between_spec (hrep : s.Represents cells) (hle : n ≤ p) (hp : p ≤ cells.length)
    (fuel : Nat) (hfuel : p < fuel + n) :
    s.between (some (s.place cells (p + 1))) fuel (some (s.place cells (n + 1))) =
      some (((cells.drop n).take (p - n)).map (·.addr)) := by
  induction fuel generalizing n with
  | zero => omega
  | succ fuel ih =>
      rcases Nat.eq_or_lt_of_le hle with rfl | hlt
      · simp [between]
      · have hne : s.place cells (n + 1) ≠ s.place cells (p + 1) := by
          intro heq
          have := hrep.shape.place_injective (by omega) (by omega) heq
          omega
        have hcell := List.getElem?_eq_getElem (l := cells) (i := n) (by omega)
        have hnext := hrep.next_at_bottom (p := n + 1) (by omega)
        have hrest := ih (n := n + 1) hlt (by omega)
        rw [place, addrAt_of_getElem? hcell] at hne hnext
        rw [between, place, addrAt_of_getElem? hcell, if_neg fun heq => hne (Option.some.inj heq)]
        simp only [hnext, hrest, Option.bind_eq_bind, Option.bind_some]
        have hdrop : cells.drop n = cells[n] :: cells.drop (n + 1) := List.drop_eq_getElem_cons _
        rw [hdrop, show p - n = p - (n + 1) + 1 by omega, List.take_succ_cons, List.map_cons]

/-! ## The elements of one key -/

/-- What a call does to the values of a key: `insert` adds one behind the others and
`erase` removes the first. -/
def survive (k : K) (values : List V) : SkipCall K V → List V
  | .insert _ k' v => if k' = k then values ++ [v] else values
  | .erase k' => if k' = k then values.tail else values
  | .getLength => values
  | .getRank _ => values

/-- The values inserted with a key and not erased by the end of a run, in the order of
their insertion. -/
def survivors (k : K) (calls : List (SkipCall K V)) : List V :=
  calls.foldl (survive k) []

theorem valuesOf_refState (k : K) (calls : List (SkipCall K V)) (m : Multimap K V) :
    (Machine.refState refSkipStep m calls).valuesOf k = calls.foldl (survive k) (m.valuesOf k) := by
  induction calls generalizing m with
  | nil => rfl
  | cons call rest ih =>
      have hcall : (refSkipStep m call).1.valuesOf k = survive k (m.valuesOf k) call := by
        cases call with
        | insert level k' v => exact Multimap.valuesOf_insert m k' v
        | erase k' => exact Multimap.valuesOf_erase m k'
        | getLength => rfl
        | getRank k' => rfl
      rw [Machine.refState, ih, hcall, List.foldl_cons]

/-! ## Runs -/

/-- The cells below a key, those with it and those above it. -/
structure SplitAt (cells below equal above : List (Cell K V)) (k : K) : Prop where
  parts : cells = below ++ (equal ++ above)
  below : ∀ cell ∈ below, cell.key < k
  equal : ∀ cell ∈ equal, cell.key = k
  above : ∀ cell ∈ above, k < cell.key

theorem Represents.split (hrep : s.Represents cells) (k : K) :
    ∃ below equal above, SplitAt cells below equal above k := by
  have hbelow := hrep.cut (fun key => key < k) fun first second hle hlow =>
    decide_eq_true (lt_of_le_of_lt hle (of_decide_eq_true hlow))
  have hrest := hrep.sorted.filter fun cell => !decide (cell.key < k)
  have habove := filter_append_filter_not
    (p := fun cell : Cell K V => decide (cell.key ≤ k)) (hrest.imp fun hle hlow =>
      decide_eq_true (le_trans hle (of_decide_eq_true hlow)))
  refine ⟨_, _, _, (habove ▸ hbelow).symm, ?_, ?_, ?_⟩
  · exact fun cell hcell => of_decide_eq_true (List.mem_filter.mp hcell).2
  · intro cell hcell
    obtain ⟨hmem, hle⟩ := List.mem_filter.mp hcell
    have hge := (List.mem_filter.mp hmem).2
    exact le_antisymm (of_decide_eq_true hle) (by simpa using hge)
  · intro cell hcell
    simpa using (List.mem_filter.mp hcell).2

section Split

variable {below equal above : List (Cell K V)}

theorem SplitAt.filter_equal (hsplit : SplitAt cells below equal above k) :
    cells.filter (fun cell => cell.key = k) = equal := by
  have hlow : below.filter (fun cell => cell.key = k) = [] :=
    List.filter_eq_nil_iff.mpr fun cell hcell => by simpa using (hsplit.below cell hcell).ne
  have hmiddle : equal.filter (fun cell => cell.key = k) = equal :=
    List.filter_eq_self.mpr fun cell hcell => by simpa using hsplit.equal cell hcell
  have hhigh : above.filter (fun cell => cell.key = k) = [] :=
    List.filter_eq_nil_iff.mpr fun cell hcell => by simpa using (hsplit.above cell hcell).ne'
  rw [hsplit.parts, List.filter_append, List.filter_append, hlow, hmiddle, hhigh]
  simp

theorem SplitAt.lower_turnsAt (hsplit : SplitAt cells below equal above k) :
    TurnsAt (fun key => decide (k ≤ key)) cells below.length := by
  rw [hsplit.parts]
  refine turnsAt_append
    (fun cell hcell => decide_eq_false (not_le.mpr (hsplit.below cell hcell))) ?_
  intro cell hcell
  rcases List.mem_append.mp hcell with hequal | habove
  · exact decide_eq_true (le_of_eq (hsplit.equal cell hequal).symm)
  · exact decide_eq_true (le_of_lt (hsplit.above cell habove))

/-- A key up to the largest has an element not below it. -/
theorem SplitAt.below_lt (hsplit : SplitAt cells below equal above k)
    (hrange : InRange cells k) : below.length < cells.length := by
  obtain ⟨cell, hcell, hkey⟩ := hrange.2
  obtain ⟨p, hp⟩ := List.getElem?_of_mem hcell
  have hturn := hsplit.lower_turnsAt.turns p cell hp
  rw [decide_eq_true hkey] at hturn
  exact Nat.lt_of_le_of_lt (of_decide_eq_true hturn.symm) (List.getElem?_eq_some_iff.mp hp).1

theorem SplitAt.upper_turnsAt (hsplit : SplitAt cells below equal above k) :
    TurnsAt (fun key => decide (k < key)) cells (below.length + equal.length) := by
  rw [hsplit.parts, ← List.append_assoc, ← List.length_append]
  refine turnsAt_append ?_ fun cell hcell => decide_eq_true (hsplit.above cell hcell)
  intro cell hcell
  rcases List.mem_append.mp hcell with hbelow | hequal
  · exact decide_eq_false (not_lt.mpr (le_of_lt (hsplit.below cell hbelow)))
  · exact decide_eq_false (not_lt.mpr (le_of_eq (hsplit.equal cell hequal)))

theorem SplitAt.drop_take (hsplit : SplitAt cells below equal above k) :
    (cells.drop below.length).take (below.length + equal.length - below.length) = equal := by
  rw [hsplit.parts, Nat.add_sub_cancel_left, List.drop_left, List.take_left]

end Split

/-- Some node has a key up to `k` and some node one from `k` on. -/
def KeyInRange (s : SkipList K V) (nodes : List Nat) (k : K) : Prop :=
  (∃ nd ∈ nodes, s.passes (fun key => key ≤ k) nd = true) ∧
    ∃ nd ∈ nodes, s.passes (fun key => k ≤ key) nd = true

theorem Shape.keyInRange_iff (hshape : s.Shape cells) :
    s.KeyInRange (cells.map (·.addr)) k ↔ InRange cells k := by
  have hexists : ∀ test : K → Bool, (∃ nd ∈ cells.map (·.addr), s.passes test nd = true) ↔
      ∃ cell ∈ cells, test cell.key = true := by
    intro test
    constructor
    · rintro ⟨nd, hnd, htest⟩
      obtain ⟨cell, hcell, rfl⟩ := List.mem_map.mp hnd
      exact ⟨cell, hcell, (hshape.passes_addr test hcell).symm.trans htest⟩
    · rintro ⟨cell, hcell, htest⟩
      exact ⟨_, List.mem_map_of_mem hcell, (hshape.passes_addr test hcell).trans htest⟩
  rw [KeyInRange, hexists, hexists, InRange]
  simp only [decide_eq_true_eq]

/-- After every run and for every key in the range of the list: `lower_bound` is the first
element not below the key and `upper_bound` the first above it, or the tail.  The elements
from the one to the other are those of the key, in the order of their insertion. -/
theorem run_bounds (k₀ : K) (v₀ : V) (calls : List (SkipCall K V)) :
    ∃ s answers nodes, RunsTo k₀ v₀ calls s answers ∧
      s.levelChain 0 = some nodes ∧
      ∀ k, s.KeyInRange nodes k → s.isInRange k = some true ∧
        ∃ low high, s.lower_bound k = some (some low) ∧ s.upper_bound k = some (some high) ∧
          nodes.find? (s.passes fun key => k ≤ key) = some low ∧
          high = (nodes.find? (s.passes fun key => k < key)).getD s.mTail ∧
          s.between (some high) (s.mLength.toNat + 1) (some low) =
            some (nodes.filter (s.passes fun key => key = k)) ∧
          (nodes.filter (s.passes fun key => key = k)).mapM s.payloadAt =
            some ((survivors k calls).map fun v => (k, v)) := by
  obtain ⟨s, hrun, cells, hrep, hcontents⟩ := run_models k₀ v₀ calls
  refine ⟨s, _, _, hrun, levelChain_zero hrep, fun k hkey => ?_⟩
  have hrange := hrep.shape.keyInRange_iff.mp hkey
  have hne : cells ≠ [] := List.ne_nil_of_mem hrange.1.choose_spec.1
  have hadmits := (hrep.isInRange hne).1 hrange
  obtain ⟨below, equal, above, hsplit⟩ := hrep.split k
  have hlower := hsplit.lower_turnsAt
  have hupper := hsplit.upper_turnsAt
  have hlength := hrep.length
  have hle := hupper.le
  have hequal : (cells.map (·.addr)).filter (s.passes fun key => key = k) =
      equal.map (·.addr) := by
    rw [List.filter_map, ← hsplit.filter_equal]
    congr 1
    exact List.filter_congr fun cell hcell => hrep.shape.passes_addr _ hcell
  have hstored := hsplit.below_lt hrange
  have hvalues : equal.map (fun cell => (cell.key, cell.value)) =
      (survivors k calls).map fun v => (k, v) := by
    have hfilter := map_filter_contents cells fun key => decide (key = k)
    rw [hsplit.filter_equal, hcontents, Multimap.filter_toList_key, valuesOf_refState] at hfilter
    exact hfilter
  refine ⟨hadmits, _, _, bound_spec hrep hlower hadmits, bound_spec hrep hupper hadmits,
    ?_, ?_, ?_, ?_⟩
  · rw [hlower.find?_passes hrep.shape, place, addrAt, List.getElem?_eq_getElem hstored]
    rfl
  · exact hupper.place_eq hrep.shape
  · rw [between_spec hrep (Nat.le_add_right _ _) hle _ (by omega), hsplit.drop_take, hequal]
  · rw [hequal, ← hvalues]
    refine mapM_map_eq_some fun cell hcell => hrep.shape.contents cell ?_
    rw [hsplit.parts]
    exact List.mem_append_right _ (List.mem_append_left _ hcell)

/-- On an empty list `isInRange` compares with the sentinels. -/
theorem Represents.isInRange_nil (hrep : s.Represents []) {k₀ : K} {v₀ : V}
    (hholds : s.SentinelsHold k₀ v₀) : s.isInRange k = some (decide (k = k₀)) := by
  have hnext : s.nextAt s.mHead 0 = some (some s.mTail) := hrep.next_at_bottom (Nat.zero_le _)
  have hback : s.backAt s.mTail = some (some s.mHead) := hrep.back 0 (Nat.zero_le _)
  have hhead : s.keyAt s.mHead = some k₀ := by rw [keyAt, hholds.1]; rfl
  have htail : s.keyAt s.mTail = some k₀ := by rw [keyAt, hholds.2]; rfl
  simp only [SkipList.isInRange, hnext, hback, hhead, htail, Option.bind_eq_bind,
    Option.bind_some]
  rcases lt_trichotomy k k₀ with hlt | rfl | hgt
  · simp [hlt, hlt.ne]
  · simp
  · simp [hgt, hgt.not_gt, hgt.ne']

/-- A key below all elements and the largest key: `lower_bound` of the one is null although
an element is not below it, and `upper_bound` of the other is no element. -/
theorem bounds_of_one_element :
    ∃ s answers nodes, (skipMachine int32 0 0).run (new 0 0) [.insert 0 5 0] =
        some (s, answers) ∧
      s.levelChain 0 = some nodes ∧
      ¬ (s.lower_bound 3 = some none ↔
        ∀ nd ∈ nodes, s.passes (fun key => 3 ≤ key) nd = false) ∧
      ¬ ∀ nd, s.upper_bound 5 = some (some nd) → nd ∈ nodes := by
  refine ⟨_, _, [2], rfl, rfl, ?_, ?_⟩
  · intro hiff
    have hbelow := hiff.mp rfl 2 (by simp)
    cases hbelow
  · intro hall
    have hstored := hall 1 rfl
    simp at hstored

/-- After every run, on a list with elements or for a key the sentinels do not hold: both
bounds are null exactly for the keys outside the range, and otherwise they are elements,
except that the bound above the largest key is the tail. -/
theorem run_bounds_null (k₀ : K) (v₀ : V) (calls : List (SkipCall K V)) :
    ∃ s answers nodes, RunsTo k₀ v₀ calls s answers ∧
      s.levelChain 0 = some nodes ∧ (s.mHead :: (nodes ++ [s.mTail])).Nodup ∧
      ∀ k, nodes ≠ [] ∨ k ≠ k₀ →
        ∃ low high, s.lower_bound k = some low ∧ s.upper_bound k = some high ∧
          (low = none ↔ ¬ s.KeyInRange nodes k) ∧ (high = none ↔ ¬ s.KeyInRange nodes k) ∧
          (∀ nd, low = some nd → nd ∈ nodes) ∧
          ∀ nd, high = some nd →
            nd ∈ nodes ∧ s.passes (fun key => k < key) nd = true ∨
              nd = s.mTail ∧ ∀ nd' ∈ nodes, s.passes (fun key => k < key) nd' = false := by
  obtain ⟨s, hrun, ⟨cells, hrep, -⟩, hholds⟩ := run_models_sentinels k₀ v₀ calls
  refine ⟨s, _, _, hrun, levelChain_zero hrep, hrep.shape.distinct, fun k hlist => ?_⟩
  rw [hrep.shape.keyInRange_iff]
  by_cases hrange : InRange cells k
  · have hne : cells ≠ [] := List.ne_nil_of_mem hrange.1.choose_spec.1
    have hadmits := (hrep.isInRange hne).1 hrange
    obtain ⟨below, equal, above, hsplit⟩ := hrep.split k
    have hlower := bound_spec hrep hsplit.lower_turnsAt hadmits
    have hupper := bound_spec hrep hsplit.upper_turnsAt hadmits
    refine ⟨_, _, hlower, hupper, by simp [hrange], by simp [hrange], ?_, ?_⟩
    · rintro nd ⟨⟩
      have hcell := List.getElem?_eq_getElem (hsplit.below_lt hrange)
      rw [place, addrAt_of_getElem? hcell]
      exact List.mem_map_of_mem (List.getElem_mem _)
    · rintro nd ⟨⟩
      rw [hsplit.upper_turnsAt.place_eq hrep.shape]
      cases hfind : (cells.map (·.addr)).find? (s.passes fun key => k < key) with
      | none =>
          refine .inr ⟨rfl, fun nd hnd => ?_⟩
          exact Bool.eq_false_iff.mpr (List.find?_eq_none.mp hfind nd hnd)
      | some nd =>
          exact .inl ⟨List.mem_of_find?_eq_some hfind, List.find?_some hfind⟩
  · have hout : s.isInRange k = some false := by
      by_cases hne : cells = []
      · subst hne
        rw [hrep.isInRange_nil hholds,
          decide_eq_false (hlist.resolve_left fun habsurd => habsurd rfl)]
      · exact (hrep.isInRange hne).2 hrange
    refine ⟨none, none, bound_outside hout, bound_outside hout, by simp [hrange],
      by simp [hrange], ?_, ?_⟩ <;> rintro nd ⟨⟩

end SkipList

end RedisDB
