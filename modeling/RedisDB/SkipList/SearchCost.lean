import Mathlib.Data.List.InsertIdx
import RedisDB.SkipList.RandomLevel
import RedisDB.SkipList.SearchPath

/-!
# The cost of a search

Where the calls of a run do not look at the levels, the levels of the elements left are
drawn independently: a call inserts a new level or takes one away at a place that the keys
decide.  So a search can expect few rounds, whatever the run is.
-/

namespace RedisDB

open RedisDB.Library RedisDB.IntType

variable {K V : Type}

/-- The call of a list whose node draws this level. -/
def MultimapCall.drawn (level : Nat) : MultimapCall K V → SkipCall K V
  | .insert k v => .insert level k v
  | .erase k => .erase k
  | .getLength => .getLength
  | .getRank k => .getRank k

namespace SkipList

/-! ## The levels drawn -/

/-- The values `std::rand` returns to one call of `generateRandomLevel`, from a range of
whole words. -/
abbrev Draws (words count : Nat) := Fin count → Fin (65536 * words)

def drawnLevel {words count : Nat} (draws : Draws words count) : Nat :=
  generateRandomLevel (List.ofFn fun i => (draws i).val)

section Shares

variable {words count : Nat}

theorem drawnLevel_lt (draws : Draws words count) : drawnLevel draws < ZSKIPLIST_MAXLEVEL :=
  generateRandomLevel_lt _

theorem drawnLevel_le (draws : Draws words count) : drawnLevel draws ≤ count := by
  by_contra hlarge
  have hlevel := drawnLevel_lt draws
  have hreached := (le_generateRandomLevel_iff hlevel).mp (Nat.le_refl (drawnLevel draws))
  have hlength := (List.takeWhile_sublist (p := raises)
    (l := List.ofFn fun i => (draws i).val)).length_le
  rw [List.length_ofFn] at hlength
  omega

theorem share_drawnLevel (hwords : 0 < words) {j : Nat} (hlevel : j < ZSKIPLIST_MAXLEVEL)
    (hj : j ≤ count) :
    share (drawnLevel : Draws words count → Nat) j = 1 / 4 ^ j := by
  have hcard := card_reaching words hlevel hj
  have hall : Fintype.card (Draws words count) = (65536 * words) ^ count := by simp [Draws]
  have hpow : (65536 * words) ^ count =
      4 ^ j * ((16384 * words) ^ j * (65536 * words) ^ (count - j)) := by
    rw [← Nat.mul_assoc, ← Nat.mul_pow, ← Nat.mul_assoc, ← Nat.pow_add, Nat.add_sub_cancel' hj]
  have hpos : 0 < (16384 * words) ^ j * (65536 * words) ^ (count - j) := by positivity
  rw [share, mean, Finset.sum_boole, hall, hpow]
  unfold drawnLevel
  rw [hcard]
  push_cast
  field_simp

theorem share_drawnLevel_rare (hwords : 0 < words) (j : Nat) :
    4 * share (drawnLevel : Draws words count → Nat) (j + 1) ≤
      share (drawnLevel : Draws words count → Nat) j := by
  by_cases hreached : j + 1 < ZSKIPLIST_MAXLEVEL ∧ j + 1 ≤ count
  · rw [share_drawnLevel hwords hreached.1 hreached.2,
      share_drawnLevel hwords (by omega) (by omega), pow_succ]
    apply le_of_eq
    field_simp
  · have hnone : share (drawnLevel : Draws words count → Nat) (j + 1) = 0 := by
      have hlow : ∀ draws : Draws words count, ¬ j + 1 ≤ drawnLevel draws := by
        intro draws hle
        have hlt := drawnLevel_lt draws
        have hcount := drawnLevel_le draws
        omega
      simp [share, mean, hlow]
    rw [hnone, mul_zero]
    exact share_nonneg drawnLevel j

end Shares

/-! ## Keys and levels in order -/

/-- The list stands for cells with these keys and heights in order. -/
def Towers [LinearOrder K] (s : SkipList K V) (keys : List K) (heights : List Nat) : Prop :=
  ∃ cells, s.Represents cells ∧ cells.map (·.key) = keys ∧ cells.map (·.height) = heights

section Calls

variable [LinearOrder K] {s : SkipList K V} {keys : List K} {heights : List Nat}

/-- The place an element of this key is inserted at. -/
def insertPlace (keys : List K) (k : K) : Nat := (keys.filter fun key => key ≤ k).length

/-- The place of the first element of this key. -/
def erasePlace (keys : List K) (k : K) : Nat := (keys.filter fun key => key < k).length

/-- The keys after a call. -/
def keysAfter (keys : List K) : MultimapCall K V → List K
  | .insert k _ => keys.insertIdx (insertPlace keys k) k
  | .erase k => if k ∈ keys then keys.eraseIdx (erasePlace keys k) else keys
  | .getLength => keys
  | .getRank _ => keys

theorem insertPlace_le (keys : List K) (k : K) : insertPlace keys k ≤ keys.length :=
  List.length_filter_le _ _

theorem erasePlace_lt {k : K} (hstored : k ∈ keys) : erasePlace keys k < keys.length :=
  List.length_filter_lt_length_iff_exists.mpr ⟨k, hstored, by simp⟩

theorem insertIdx_middle {T : Type} (before after : List T) (x : T) :
    (before ++ after).insertIdx before.length x = before ++ x :: after := by
  induction before with
  | nil => rfl
  | cons first before ih => simp [ih]

theorem eraseIdx_middle {T : Type} (before after : List T) (x : T) :
    (before ++ x :: after).eraseIdx before.length = before ++ after := by
  rw [List.eraseIdx_append_of_length_le (Nat.le_refl _), Nat.sub_self, List.eraseIdx_cons_zero]

theorem Towers.insert (htowers : s.Towers keys heights) (level : Nat) (k : K) (v : V) :
    ∃ s', s.insert unbounded level k v = some (s', true) ∧
      s'.Towers (keys.insertIdx (insertPlace keys k) k)
        (heights.insertIdx (insertPlace keys k) (level + 1)) := by
  obtain ⟨cells, hrep, rfl, rfl⟩ := htowers
  have hcut := hrep.cut_le k
  obtain ⟨s', hinsert, hrep', -⟩ := insert_spec (unbounded_holdsUpTo _) (Nat.lt_succ_self _)
    (hcut ▸ hrep)
    (fun cell hcell => of_decide_eq_true (List.mem_filter.mp hcell).2)
    (fun cell hcell => of_decide_eq_true (List.mem_filter.mp hcell).2) level v
  have hplace : insertPlace (cells.map (·.key)) k =
      (cells.filter fun cell => cell.key ≤ k).length := by
    rw [insertPlace, List.filter_map, List.length_map]
    rfl
  refine ⟨s', hinsert, _, hrep', ?_, ?_⟩
  · have hmiddle := insertIdx_middle ((cells.filter fun cell => cell.key ≤ k).map (·.key))
      ((cells.filter fun cell => k < cell.key).map (·.key)) k
    rw [List.length_map, ← List.map_append, ← hcut, ← hplace] at hmiddle
    rw [hmiddle, List.map_append, List.map_cons]
  · have hmiddle := insertIdx_middle ((cells.filter fun cell => cell.key ≤ k).map (·.height))
      ((cells.filter fun cell => k < cell.key).map (·.height)) (level + 1)
    rw [List.length_map, ← List.map_append, ← hcut, ← hplace] at hmiddle
    rw [hmiddle, List.map_append, List.map_cons]

theorem Towers.erase (htowers : s.Towers keys heights) (k : K) :
    ∃ s' done, s.erase unbounded k = some (s', done) ∧
      if k ∈ keys then
        s'.Towers (keys.eraseIdx (erasePlace keys k)) (heights.eraseIdx (erasePlace keys k))
      else s'.Towers keys heights := by
  obtain ⟨cells, hrep, rfl, rfl⟩ := htowers
  have hcut := hrep.cut (fun key => key < k) fun first second hle hlow =>
    decide_eq_true (lt_of_le_of_lt hle (of_decide_eq_true hlow))
  have hbefore : ∀ cell ∈ cells.filter (fun cell => cell.key < k), cell.key < k :=
    fun cell hcell => of_decide_eq_true (List.mem_filter.mp hcell).2
  by_cases hstored : k ∈ cells.map (·.key)
  · obtain ⟨cell, after, hrest, hkey⟩ := hrep.first_of_key (List.mem_map.mp hstored)
    rw [hrest] at hcut
    have hplace : erasePlace (cells.map (·.key)) k =
        (cells.filter fun cell => cell.key < k).length := by
      rw [erasePlace, List.filter_map, List.length_map]
      rfl
    have hrep' := hrep
    rw [← hcut] at hrep'
    obtain ⟨s', herase, hnext, -⟩ := erase_spec (unbounded_holdsUpTo _) (Nat.le_refl _) hrep'
      hkey hbefore
    have hmiddle := eraseIdx_middle (cells.filter fun cell => cell.key < k) after cell
    rw [hcut, ← hplace] at hmiddle
    refine ⟨s', true, herase, ?_⟩
    rw [if_pos hstored]
    refine ⟨_, hnext, ?_, ?_⟩
    · rw [List.eraseIdx_map, hmiddle]
    · rw [List.eraseIdx_map, hmiddle]
  · have hafter : ∀ cell ∈ cells.filter (fun cell => !decide (cell.key < k)), k < cell.key := by
      intro cell hcell
      have hge : k ≤ cell.key := by simpa using (List.mem_filter.mp hcell).2
      exact lt_of_le_of_ne hge fun heq =>
        hstored (List.mem_map.mpr ⟨cell, (List.mem_filter.mp hcell).1, heq.symm⟩)
    refine ⟨s, false, erase_absent (hcut.symm ▸ hrep) hbefore hafter, ?_⟩
    rw [if_neg hstored]
    exact ⟨cells, hrep, rfl, rfl⟩

/-- What a call makes of the levels in order; its own draw comes last. -/
def arrangeAfter {Ω : Type} (keys : List K) (arrange : List Ω → List Ω) :
    MultimapCall K V → List Ω → List Ω
  | .insert k _ => insertLast (insertPlace keys k) arrange
  | .erase k =>
      if k ∈ keys then eraseAt (erasePlace keys k) arrange else skipLast arrange
  | .getLength => skipLast arrange
  | .getRank _ => skipLast arrange

theorem Towers.step {Ω : Type} (level : Ω → Nat) {arrange : List Ω → List Ω} {word : List Ω}
    (htowers : s.Towers keys ((arrange word).map fun x => level x + 1))
    (call : MultimapCall K V) (x : Ω) :
    ∃ next answer, skipStep unbounded s (call.drawn (level x)) = some (next, answer) ∧
      next.Towers (keysAfter keys call)
        ((arrangeAfter keys arrange call (word ++ [x])).map fun x => level x + 1) := by
  cases call with
  | insert k v =>
      obtain ⟨next, hinsert, hnext⟩ := htowers.insert (level x) k v
      refine ⟨next, .status true, by rw [MultimapCall.drawn, skipStep, hinsert]; rfl, ?_⟩
      rw [arrangeAfter, insertLast_concat, List.map_insertIdx]
      exact hnext
  | erase k =>
      obtain ⟨next, done, herase, hnext⟩ := htowers.erase k
      refine ⟨next, .status done, by rw [MultimapCall.drawn, skipStep, herase]; rfl, ?_⟩
      by_cases hstored : k ∈ keys
      · rw [if_pos hstored, List.eraseIdx_map] at hnext
        simp only [keysAfter, arrangeAfter, if_pos hstored, eraseAt_concat]
        exact hnext
      · rw [if_neg hstored] at hnext
        simp only [keysAfter, arrangeAfter, if_neg hstored, skipLast_concat]
        exact hnext
  | getLength =>
      refine ⟨s, _, rfl, ?_⟩
      rw [arrangeAfter, skipLast_concat]
      exact htowers
  | getRank k =>
      obtain ⟨cells, hrep, hkeys, hheights⟩ := htowers
      have hrank := getRank_spec (unbounded_holdsUpTo _) (Nat.le_refl _) (hrep.cut_le k ▸ hrep)
        (fun cell hcell => of_decide_eq_true (List.mem_filter.mp hcell).2)
        (fun cell hcell => of_decide_eq_true (List.mem_filter.mp hcell).2)
      refine ⟨s, _, by rw [MultimapCall.drawn, skipStep, hrank]; rfl, ?_⟩
      rw [arrangeAfter, skipLast_concat]
      exact ⟨cells, hrep, hkeys, hheights⟩

/-- A call whose place the keys decide leaves the levels drawn independently. -/
theorem fair_step {Ω : Type} [Fintype Ω] [Nonempty Ω] {n : Nat} {arrange : List Ω → List Ω}
    (hfair : Fair n keys.length arrange) (call : MultimapCall K V) :
    Fair (n + 1) (keysAfter keys call).length (arrangeAfter keys arrange call) := by
  cases call with
  | insert k v =>
      have hplace := insertPlace_le keys k
      rw [keysAfter, List.length_insertIdx_of_le_length hplace]
      exact hfair.insertLast hplace
  | erase k =>
      by_cases hstored : k ∈ keys
      · have hplace := erasePlace_lt hstored
        obtain ⟨m, hm⟩ : ∃ m, keys.length = m + 1 := ⟨keys.length - 1, by omega⟩
        simp only [keysAfter, arrangeAfter, if_pos hstored, List.length_eraseIdx_of_lt hplace]
        rw [hm] at hfair hplace ⊢
        exact hfair.eraseAt (by omega)
      · simp only [keysAfter, arrangeAfter, if_neg hstored]
        exact hfair.skipLast
  | getLength => exact hfair.skipLast
  | getRank k => exact hfair.skipLast

/-! ## Runs -/

/-- The calls with the levels that the letters of a word stand for. -/
def drawnCalls {Ω : Type} (level : Ω → Nat) (calls : List (MultimapCall K V)) (word : List Ω) :
    List (SkipCall K V) :=
  List.zipWith (fun call x => call.drawn (level x)) calls word

/-- Whatever the calls of a run are, its last list has the same keys for all draws, and
independent levels. -/
theorem run_towers {Ω : Type} [Fintype Ω] [Nonempty Ω] (level : Ω → Nat) (k₀ : K) (v₀ : V)
    (calls : List (MultimapCall K V)) :
    ∃ keys arrange, Fair calls.length (keys : List K).length arrange ∧
      ∀ word : List Ω, word.length = calls.length →
        ∃ s answers, RunsTo k₀ v₀ (drawnCalls level calls word) s answers ∧
          s.Towers keys ((arrange word).map fun x => level x + 1) := by
  induction calls using List.reverseRecOn with
  | nil =>
      refine ⟨[], id, fair_id, fun word hword => ?_⟩
      obtain rfl := List.length_eq_zero_iff.mp hword
      exact ⟨_, _, runsTo_of_unbounded rfl, [], represents_new k₀ v₀, rfl, rfl⟩
  | append_singleton calls call ih =>
      obtain ⟨keys, arrange, hfair, hruns⟩ := ih
      refine ⟨keysAfter keys call, arrangeAfter keys arrange call, ?_, fun word hword => ?_⟩
      · rw [List.length_append]
        exact fair_step hfair call
      · rw [List.length_append] at hword
        obtain ⟨before, x, rfl, hbefore⟩ := exists_concat hword
        obtain ⟨s, answers, hrun, htowers⟩ := hruns before hbefore
        obtain ⟨next, answer, hstep, hnext⟩ := htowers.step level call x
        refine ⟨next, answers ++ [answer], runsTo_of_unbounded ?_, hnext⟩
        rw [drawnCalls, List.zipWith_append hbefore.symm]
        exact Machine.run_concat hrun.unbounded hstep

/-! ## Rounds -/

section Rounds

variable {Ω : Type} {level : Ω → Nat} {word : List Ω} {stop : K → Bool}

theorem Towers.searchPath (htowers : s.Towers keys (word.map fun x => level x + 1))
    (hstop : Upward stop) :
    ∃ passed, s.searchPath stop = some (s.mMaxLevel + 1 +
      (records level (word.take (keys.filter fun key => !stop key).length)).length, passed) := by
  obtain ⟨cells, hrep, rfl, hheights⟩ := htowers
  obtain ⟨hturns, -⟩ := hrep.turnsAt hstop
  have hturn : (cells.filter fun cell => !stop cell.key).length =
      ((cells.map (·.key)).filter fun key => !stop key).length := by
    rw [List.filter_map, List.length_map]
    rfl
  have htaken : ∀ m, (records Cell.height (cells.take m)).length =
      (records level (word.take m)).length := by
    intro m
    have hcells := congrArg List.length (records_map Cell.height id (cells.take m))
    have hword := congrArg List.length
      (records_map (fun x => level x + 1) id (word.take m))
    rw [List.map_take, List.length_map] at hcells hword
    rw [hheights] at hcells
    simp only [id_eq, records_succ] at hword
    exact hcells.symm.trans hword
  rw [hturn] at hturns
  exact ⟨_, (hrep.searchPath hturns).trans (by rw [htaken])⟩

theorem Towers.mMaxLevel_le (htowers : s.Towers keys (word.map fun x => level x + 1))
    (bound : Nat) : s.mMaxLevel ≤ bound + (word.map fun x => level x - bound).sum := by
  obtain ⟨cells, hrep, -, hheights⟩ := htowers
  rcases hrep.topped.attained with hzero | ⟨cell, hcell, htop⟩
  · omega
  · have hheight : cell.height ∈ word.map fun x => level x + 1 :=
      hheights ▸ List.mem_map_of_mem hcell
    obtain ⟨x, hx, heq⟩ := List.mem_map.mp hheight
    have hle : level x ≤ bound + (word.map fun y => level y - bound).sum :=
      height_le_add_sum bound hx
    omega

theorem Towers.getLength (htowers : s.Towers keys heights) : s.getLength = keys.length := by
  obtain ⟨cells, hrep, rfl, -⟩ := htowers
  rw [SkipList.getLength, hrep.length, List.length_map]

end Rounds

/-- The rounds of a search at the end of a run. -/
def roundsAfter (k : K) (v : V) (stop : K → Bool) (calls : List (SkipCall K V)) : Nat :=
  (((skipMachine unbounded k v).run (new k v) calls).bind
    fun r => r.1.searchPath stop).elim 0 Prod.fst

/-- The rounds expected of a search when one in four levels that reach a height goes higher. -/
theorem expected_cost_le {Ω : Type} [Fintype Ω] [Nonempty Ω] {level : Ω → Nat} {top : Nat}
    (htop : ∀ x, level x ≤ top) (hrare : ∀ j, 4 * share level (j + 1) ≤ share level j)
    {bound : Nat} (hreached : ∀ j, j ≤ bound → share level j = 1 / 4 ^ j) {n m : Nat}
    (hm : m ≤ n) :
    expected n (fun word => ((bound + (word.map fun x => level x - bound).sum + 1 +
      (records level (word.take m)).length : Nat) : ℚ)) ≤
        4 * bound + 1 + 4 * n / (3 * 4 ^ bound) := by
  have hsum : ∀ word : List Ω, ((bound + (word.map fun x => level x - bound).sum + 1 +
      (records level (word.take m)).length : Nat) : ℚ) =
        ((bound + 1 : ℚ) + (word.map fun x => ((level x - bound : Nat) : ℚ)).sum) +
          ((records level (word.take m)).length : ℚ) := by
    intro word
    have hcast : (((word.map fun x => level x - bound).sum : Nat) : ℚ) =
        (word.map fun x => ((level x - bound : Nat) : ℚ)).sum := by
      rw [Nat.cast_list_sum, List.map_map]
      rfl
    rw [Nat.cast_add, Nat.cast_add, Nat.cast_add, hcast, Nat.cast_one]
    ring
  have hexcess : (4 - 1) * (mean fun x => ((level x - bound : Nat) : ℚ)) ≤ share level bound :=
    mean_excess_le htop hrare bound
  have hrecords : expected m (fun word => ((records level word).length : ℚ)) ≤
      bound * (4 - 1) + m * share level bound := by
    refine expected_length_records_le m bound fun j hj => ⟨?_, ?_⟩
    · rw [hreached (j + 1) hj]
      positivity
    · rw [hreached (j + 1) hj, hreached j (Nat.le_of_lt hj), pow_succ]
      apply le_of_eq
      field_simp
  have hwalked : (n : ℚ) * (mean fun x => ((level x - bound : Nat) : ℚ)) ≤
      n * (share level bound / 3) :=
    mul_le_mul_of_nonneg_left (by linarith) (Nat.cast_nonneg n)
  have hbefore : (m : ℚ) * share level bound ≤ n * share level bound :=
    mul_le_mul_of_nonneg_right (Nat.cast_le.mpr hm) (share_nonneg level bound)
  have hshare : 4 * (n : ℚ) / (3 * 4 ^ bound) = n * share level bound * (4 / 3) := by
    rw [hreached bound (Nat.le_refl bound)]
    field_simp
  simp only [hsum]
  rw [expected_add, expected_add, expected_const, expected_sum_map,
    expected_take hm fun word => ((records level word).length : ℚ), hshare]
  linarith

/-- Three elements inserted and one erased. -/
def fourCalls : List (MultimapCall Nat Unit) :=
  [.insert 3 (), .insert 1 (), .insert 2 (), .erase 1]

end Calls

end SkipList

end RedisDB
