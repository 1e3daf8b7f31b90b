import RedisDB.SkipList.Insert
import RedisDB.SkipList.Erase
import RedisDB.SkipList.Queries
import RedisDB.SkipList.Overflow
import RedisDB.Library.Machine
import RedisDB.Library.Multimap

/-!
# Runs of a skip list and of a multimap

A run is a list of calls, each `insert` with the level its node draws.  A stable
sorted multimap takes the same calls without the levels.  Every call keeps the
two alike and answers the same, as long as the counters of the list do not overflow:
those of the source do at the element after the `INT_MAX`th.
-/

namespace RedisDB

open RedisDB.Library RedisDB.IntType

variable {K V : Type}

/-- A call of a skip list; `insert` comes with the level `generateRandomLevel` returns. -/
inductive SkipCall (K V : Type) where
  | insert (level : Nat) (k : K) (v : V)
  | erase (k : K)
  | getLength
  | getRank (k : K)

inductive SkipAnswer where
  | status (done : Bool)
  | count (n : Int)
  deriving DecidableEq, Repr

/-- A call of a multimap. -/
inductive MultimapCall (K V : Type) where
  | insert (k : K) (v : V)
  | erase (k : K)
  | getLength
  | getRank (k : K)

/-- The call without its level. -/
def SkipCall.plain : SkipCall K V → MultimapCall K V
  | .insert _ k v => .insert k v
  | .erase k => .erase k
  | .getLength => .getLength
  | .getRank k => .getRank k

section Steps

variable [LinearOrder K]

def skipStep (int : IntType) (s : SkipList K V) :
    SkipCall K V → Option (SkipList K V × SkipAnswer)
  | .insert level k v => (s.insert int level k v).map fun r => (r.1, .status r.2)
  | .erase k => (s.erase int k).map fun r => (r.1, .status r.2)
  | .getLength => some (s, .count s.getLength)
  | .getRank k => (s.getRank int k).map fun rank => (s, .count rank)

/-- A new list with the given contents of its sentinels, and its calls. -/
def skipMachine (int : IntType) (k : K) (v : V) :
    Machine (SkipList K V) (SkipCall K V) SkipAnswer :=
  ⟨SkipList.new k v, skipStep int⟩

def multimapStep (m : Multimap K V) : MultimapCall K V → Multimap K V × SkipAnswer
  | .insert k v => (m.insert k v, .status true)
  | .erase k => ((m.erase k).1, .status (m.erase k).2)
  | .getLength => (m, .count m.toList.length)
  | .getRank k => (m, .count (m.rank k))

/-- The multimap on a call of the list: the level is not looked at. -/
def refSkipStep (m : Multimap K V) (call : SkipCall K V) : Multimap K V × SkipAnswer :=
  multimapStep m call.plain

/-- After none of the calls the elements are more than `limit`. -/
def Fits (limit : Nat) (calls : List (SkipCall K V)) : Prop :=
  Machine.RefAdmits refSkipStep (fun m call => (refSkipStep m call).1.toList.length ≤ limit)
    Multimap.empty calls

end Steps

namespace SkipList

variable [LinearOrder K] {s : SkipList K V} {m : Multimap K V} {cells : List (Cell K V)} {k : K}
  {int : IntType} {limit : Nat}

/-- The list stands for cells with the contents of the multimap, in order. -/
def Models (s : SkipList K V) (m : Multimap K V) : Prop :=
  ∃ cells, s.Represents cells ∧ cells.map (fun cell => (cell.key, cell.value)) = m.toList

theorem models_new (k : K) (v : V) : (new k v : SkipList K V).Models Multimap.empty :=
  ⟨[], represents_new k v, rfl⟩

/-! ## One call -/

/-- The cells in two parts: those whose keys pass a test that only low keys pass, and the
others. -/
theorem Represents.cut (hrep : s.Represents cells) (low : K → Bool)
    (hlow : ∀ first second, first ≤ second → low second = true → low first = true) :
    cells.filter (fun cell => low cell.key) ++ cells.filter (fun cell => !low cell.key) =
      cells :=
  filter_append_filter_not (hrep.sorted.imp fun hle => hlow _ _ hle)

omit [LinearOrder K] in
theorem map_filter_contents (cells : List (Cell K V)) (low : K → Bool) :
    (cells.filter fun cell => low cell.key).map (fun cell => (cell.key, cell.value)) =
      (cells.map fun cell => (cell.key, cell.value)).filter fun e => low e.1 := by
  rw [List.filter_map]
  rfl

theorem Represents.cut_le (hrep : s.Represents cells) (k : K) :
    cells = cells.filter (fun cell => cell.key ≤ k) ++
      cells.filter (fun cell => k < cell.key) := by
  have hcut := hrep.cut (fun key => key ≤ k) fun first second hle hlow =>
    decide_eq_true (le_trans hle (of_decide_eq_true hlow))
  have hsame : ∀ cell : Cell K V, (!decide (cell.key ≤ k)) = decide (k < cell.key) := by
    intro cell
    simp [← not_le]
  simpa only [hsame] using hcut.symm

/-- The first cell whose key is not below a stored key has that key. -/
theorem Represents.first_of_key (hrep : s.Represents cells)
    (hfound : ∃ cell ∈ cells, cell.key = k) :
    ∃ cell after, cells.filter (fun cell => !decide (cell.key < k)) = cell :: after ∧
      cell.key = k := by
  obtain ⟨found, hmem, hkey⟩ := hfound
  have hin : found ∈ cells.filter (fun cell => !decide (cell.key < k)) :=
    List.mem_filter.mpr ⟨hmem, by simp [hkey]⟩
  have hsorted := hrep.sorted.filter (fun cell => !decide (cell.key < k))
  cases hrest : cells.filter (fun cell => !decide (cell.key < k)) with
  | nil =>
      rw [hrest] at hin
      cases hin
  | cons cell after =>
      refine ⟨cell, after, rfl, le_antisymm ?_ ?_⟩
      · rw [hrest] at hin hsorted
        rcases List.mem_cons.mp hin with rfl | hlater
        · exact le_of_eq hkey
        · exact hkey ▸ (List.pairwise_cons.mp hsorted).1 found hlater
      · have hcell : cell ∈ cells.filter (fun cell => !decide (cell.key < k)) :=
          hrest ▸ List.mem_cons_self
        simpa using (List.mem_filter.mp hcell).2

theorem Models.insert (hint : int.HoldsUpTo limit) (hmodels : s.Models m) (level : Nat) (k : K)
    (v : V) (hfits : (m.insert k v).toList.length ≤ limit) :
    ∃ s', s.insert int level k v = some (s', true) ∧ s'.Models (m.insert k v) ∧
      KeepsPayloads s s' := by
  obtain ⟨cells, hrep, hcontents⟩ := hmodels
  have hcut := hrep.cut_le k
  rw [m.length_insert, ← hcontents, List.length_map, hcut] at hfits
  obtain ⟨s', hinsert, hrep', hkeeps⟩ := insert_spec hint hfits (hcut ▸ hrep)
    (fun cell hcell => of_decide_eq_true (List.mem_filter.mp hcell).2)
    (fun cell hcell => of_decide_eq_true (List.mem_filter.mp hcell).2) level v
  refine ⟨s', hinsert, ⟨_, hrep', ?_⟩, hkeeps⟩
  rw [List.map_append, List.map_cons, map_filter_contents cells (fun key => key ≤ k),
    map_filter_contents cells (fun key => k < key), hcontents, Multimap.toList_insert]

theorem Models.erase (hint : int.HoldsUpTo limit) (hmodels : s.Models m)
    (hfits : m.toList.length ≤ limit) (k : K) :
    ∃ s', s.erase int k = some (s', (m.erase k).2) ∧ s'.Models (m.erase k).1 ∧
      KeepsPayloads s s' := by
  obtain ⟨cells, hrep, hcontents⟩ := hmodels
  rw [← hcontents, List.length_map] at hfits
  have hcut := hrep.cut (fun key => key < k) fun first second hle hlow =>
    decide_eq_true (lt_of_le_of_lt hle (of_decide_eq_true hlow))
  have hbefore : ∀ cell ∈ cells.filter (fun cell => cell.key < k), cell.key < k :=
    fun cell hcell => of_decide_eq_true (List.mem_filter.mp hcell).2
  have hafter : ∀ cell ∈ cells.filter (fun cell => !decide (cell.key < k)), k ≤ cell.key := by
    intro cell hcell
    simpa using (List.mem_filter.mp hcell).2
  have hcontains : m.contains k = true ↔ ∃ cell ∈ cells, cell.key = k := by
    rw [Multimap.contains_iff, ← hcontents]
    simp
  by_cases hfound : ∃ cell ∈ cells, cell.key = k
  · obtain ⟨cell, after, hrest, hkey⟩ := hrep.first_of_key hfound
    have hrep' := hrep
    rw [← hcut, hrest] at hrep' hfits
    obtain ⟨s', herase, hnext, hkeeps⟩ := erase_spec hint hfits hrep' hkey hbefore
    refine ⟨s', ?_, ⟨_, hnext, ?_⟩, hkeeps⟩
    · rw [herase, Multimap.erase_snd, hcontains.mpr hfound]
    · have hhigh := map_filter_contents cells (fun key => !decide (key < k))
      rw [hrest, hcontents] at hhigh
      rw [Multimap.toList_erase (hcontains.mpr hfound), List.map_append,
        map_filter_contents cells (fun key => key < k), hcontents, ← hhigh]
      rfl
  · have hnot : m.contains k = false := Bool.eq_false_iff.mpr fun h => hfound (hcontains.mp h)
    rw [Multimap.erase_of_not_contains hnot]
    refine ⟨s, erase_absent (hcut.symm ▸ hrep) hbefore fun cell hcell => ?_,
      ⟨cells, hrep, hcontents⟩, KeepsPayloads.refl s⟩
    exact lt_of_le_of_ne (hafter cell hcell)
      fun heq => hfound ⟨cell, (List.mem_filter.mp hcell).1, heq.symm⟩

theorem Models.getLength (hmodels : s.Models m) : s.getLength = m.toList.length := by
  obtain ⟨cells, hrep, hcontents⟩ := hmodels
  rw [SkipList.getLength, hrep.length, ← hcontents, List.length_map]

theorem Models.getRank (hint : int.HoldsUpTo limit) (hmodels : s.Models m)
    (hfits : m.toList.length ≤ limit) (k : K) : s.getRank int k = some (m.rank k : Int) := by
  obtain ⟨cells, hrep, hcontents⟩ := hmodels
  rw [← hcontents, List.length_map] at hfits
  have hcut := hrep.cut_le k
  have hle : ∀ cell ∈ cells.filter (fun cell => cell.key ≤ k), cell.key ≤ k :=
    fun cell hcell => of_decide_eq_true (List.mem_filter.mp hcell).2
  have hlow := Nat.le_trans (List.length_filter_le (fun cell => decide (cell.key ≤ k)) cells) hfits
  rw [getRank_spec hint hlow (hcut ▸ hrep) hle
    fun cell hcell => of_decide_eq_true (List.mem_filter.mp hcell).2]
  have hcontains : (∃ cell ∈ cells.filter (fun cell => cell.key ≤ k), cell.key = k) ↔
      m.contains k = true := by
    rw [Multimap.contains_iff, ← hcontents]
    constructor
    · rintro ⟨cell, hcell, heq⟩
      exact ⟨_, List.mem_map_of_mem (List.mem_filter.mp hcell).1, heq⟩
    · rintro ⟨e, he, heq⟩
      obtain ⟨cell, hcell, rfl⟩ := List.mem_map.mp he
      exact ⟨cell, List.mem_filter.mpr ⟨hcell, decide_eq_true (le_of_eq heq)⟩, heq⟩
  have hlength := congrArg List.length (map_filter_contents cells (fun key => key ≤ k))
  rw [List.length_map, hcontents] at hlength
  rw [Multimap.rank_eq, hlength]
  by_cases hfound : m.contains k = true
  · rw [if_pos (hcontains.mpr hfound), if_pos hfound]
  · rw [if_neg fun h => hfound (hcontains.mp h), if_neg hfound]
    rfl

/-- The calls of the list and of the multimap go together, whatever level is drawn. -/
theorem Models.step (hint : int.HoldsUpTo limit) (hmodels : s.Models m)
    (hfits : m.toList.length ≤ limit) (call : SkipCall K V)
    (hnext : (refSkipStep m call).1.toList.length ≤ limit) :
    ∃ next, skipStep int s call = some (next, (refSkipStep m call).2) ∧
      next.Models (refSkipStep m call).1 ∧ KeepsPayloads s next := by
  cases call with
  | insert level k v =>
      obtain ⟨next, hinsert, hnext⟩ := hmodels.insert hint level k v hnext
      exact ⟨next, by rw [skipStep, hinsert]; rfl, hnext⟩
  | erase k =>
      obtain ⟨next, herase, hnext⟩ := hmodels.erase hint hfits k
      exact ⟨next, by rw [skipStep, herase]; rfl, hnext⟩
  | getLength =>
      exact ⟨s, by rw [skipStep, hmodels.getLength]; rfl, hmodels, KeepsPayloads.refl s⟩
  | getRank k =>
      exact ⟨s, by rw [skipStep, hmodels.getRank hint hfits k]; rfl, hmodels,
        KeepsPayloads.refl s⟩

/-- The sentinels hold what the constructor put into them. -/
def SentinelsHold (s : SkipList K V) (k : K) (v : V) : Prop :=
  s.payloadAt s.mHead = some (k, v) ∧ s.payloadAt s.mTail = some (k, v)

theorem SentinelsHold.keep {v : V} (hholds : s.SentinelsHold k v) (hmodels : s.Models m)
    {s' : SkipList K V} (hkeeps : KeepsPayloads s s') : s'.SentinelsHold k v := by
  obtain ⟨cells, hrep, -⟩ := hmodels
  have hhead := hrep.shape.allocated s.mHead (by simp [spine])
  have htail := hrep.shape.allocated s.mTail (by simp [spine])
  refine ⟨?_, ?_⟩
  · rw [hkeeps.mHead, hkeeps.payloadAt _ hhead, hholds.1]
  · rw [hkeeps.mTail, hkeeps.payloadAt _ htail, hholds.2]

/-! ## Runs -/

/-- The calls lead from a new list to `s`: with unbounded counters they do, and with
counters of any type they do or overflow. -/
structure RunsTo (k : K) (v : V) (calls : List (SkipCall K V)) (s : SkipList K V)
    (answers : List SkipAnswer) : Prop where
  unbounded : (skipMachine unbounded k v).run (new k v) calls = some (s, answers)
  bounded : ∀ int result, (skipMachine int k v).run (new k v) calls = some result →
    result = (s, answers)

theorem skipStep_below (s : SkipList K V) (call : SkipCall K V) :
    DefinedBelow (skipStep int s call) (skipStep unbounded s call) := by
  cases call with
  | insert level k v => exact (insert_below s level k v).map _
  | erase k => exact (erase_below s k).map _
  | getLength => exact .refl _
  | getRank k => exact (getRank_below s k).map _

theorem runsTo_of_unbounded {v : V} {calls : List (SkipCall K V)} {answers : List SkipAnswer}
    (hrun : (skipMachine unbounded k v).run (new k v) calls = some (s, answers)) :
    RunsTo k v calls s answers where
  unbounded := hrun
  bounded _ result hbounded := Option.some.inj
    ((Machine.run_below skipStep_below (new k v) calls result hbounded).symm.trans hrun)

/-- A run on a new list returns, answers as the multimap does and ends in a list that
models it, with the sentinels as they were. -/
theorem run_models_sentinels (k : K) (v : V) (calls : List (SkipCall K V)) :
    ∃ s, RunsTo k v calls s (Machine.refRun refSkipStep Multimap.empty calls) ∧
      s.Models (Machine.refState refSkipStep Multimap.empty calls) ∧ s.SentinelsHold k v := by
  have hsim : ∀ (s : SkipList K V) (m : Multimap K V) (call : SkipCall K V),
      s.Models m ∧ s.SentinelsHold k v → True →
        ∃ next, (skipMachine unbounded k v).step s call =
            some (next, (refSkipStep m call).2) ∧
          next.Models (refSkipStep m call).1 ∧ next.SentinelsHold k v := by
    rintro s m call ⟨hmodels, hholds⟩ -
    obtain ⟨next, hstep, hnext, hkeeps⟩ :=
      hmodels.step (unbounded_holdsUpTo _) (Nat.le_max_left _ _) call (Nat.le_max_right _ _)
    exact ⟨next, hstep, hnext, hholds.keep hmodels hkeeps⟩
  obtain ⟨s, hrun, hend⟩ := Machine.run_simulates hsim ⟨models_new k v, rfl, rfl⟩
    (Machine.refAdmits_of_forall (fun _ _ => trivial) Multimap.empty calls)
  exact ⟨s, runsTo_of_unbounded hrun, hend⟩

theorem run_models (k : K) (v : V) (calls : List (SkipCall K V)) :
    ∃ s, RunsTo k v calls s (Machine.refRun refSkipStep Multimap.empty calls) ∧
      s.Models (Machine.refState refSkipStep Multimap.empty calls) := by
  obtain ⟨s, hrun, hmodels, -⟩ := run_models_sentinels k v calls
  exact ⟨s, hrun, hmodels⟩

/-! ## Runs within the type `int` -/

/-- The list models the multimap and is not longer than an `int` can say. -/
def ModelsWithin (s : SkipList K V) (m : Multimap K V) : Prop :=
  s.Models m ∧ m.toList.length ≤ INT_MAX

theorem modelsWithin_new (k : K) (v : V) :
    (new k v : SkipList K V).ModelsWithin Multimap.empty :=
  ⟨models_new k v, Nat.zero_le _⟩

theorem ModelsWithin.step (hmodels : s.ModelsWithin m) (call : SkipCall K V)
    (hnext : (refSkipStep m call).1.toList.length ≤ INT_MAX) :
    ∃ next, skipStep int32 s call = some (next, (refSkipStep m call).2) ∧
      next.ModelsWithin (refSkipStep m call).1 := by
  obtain ⟨next, hstep, hmodels', -⟩ := hmodels.1.step int32_holdsUpTo hmodels.2 call hnext
  exact ⟨next, hstep, hmodels', hnext⟩

/-- The insertion of one element too many does not return. -/
theorem ModelsWithin.fits_of_returns (hmodels : s.ModelsWithin m) {call : SkipCall K V}
    {result : SkipList K V × SkipAnswer} (hstep : skipStep int32 s call = some result) :
    (refSkipStep m call).1.toList.length ≤ INT_MAX := by
  cases call with
  | insert level k v =>
      obtain ⟨⟨s', done⟩, hinsert, -⟩ := Option.map_eq_some_iff.mp hstep
      obtain ⟨next, hexact, hnext, -⟩ := hmodels.1.insert (unbounded_holdsUpTo _) level k v
        (Nat.le_refl _)
      cases (insert_below s level k v _ hinsert).symm.trans hexact
      have hlength := hnext.getLength
      have hholds := le_of_int32_holds (insert_holds hinsert)
      rw [SkipList.getLength] at hlength
      change (m.insert k v).toList.length ≤ INT_MAX
      omega
  | erase k => exact Nat.le_trans (m.length_erase_le k) hmodels.2
  | getLength => exact hmodels.2
  | getRank k => exact hmodels.2

theorem run_models_within (k : K) (v : V) {calls : List (SkipCall K V)}
    (hfits : Fits INT_MAX calls) :
    ∃ s, (skipMachine int32 k v).run (new k v) calls =
        some (s, Machine.refRun refSkipStep Multimap.empty calls) ∧
      s.ModelsWithin (Machine.refState refSkipStep Multimap.empty calls) :=
  Machine.run_simulates (fun _ _ call hmodels => hmodels.step call) (modelsWithin_new k v) hfits

/-- So many insertions and no removals do not fit. -/
theorem not_fits_inserts {level count : Nat} {v : V} (hcount : limit < count) :
    ¬ Fits limit (List.replicate count (.insert level k v) : List (SkipCall K V)) := by
  have hgrows : ∀ m : Multimap K V, m.toList.length ≤ limit →
      Machine.RefAdmits refSkipStep
        (fun m call => (refSkipStep m call).1.toList.length ≤ limit) m
        (List.replicate count (.insert level k v)) → m.toList.length + count ≤ limit := by
    clear hcount
    induction count with
    | zero => exact fun _ hm _ => hm
    | succ count ih =>
        rintro m - ⟨hfirst, hrest⟩
        have hall := ih (m.insert k v) hfirst hrest
        rw [m.length_insert] at hall
        omega
  intro hfits
  have hall := hgrows Multimap.empty (Nat.zero_le _) hfits
  omega

/-- A run returns only when its elements never are more than an `int` can count. -/
theorem fits_of_run {v : V} {calls : List (SkipCall K V)} {answers : List SkipAnswer}
    (hrun : (skipMachine int32 k v).run (new k v) calls = some (s, answers)) :
    Fits INT_MAX calls :=
  Machine.refAdmits_of_run (fun _ _ call hmodels => hmodels.step call)
    (fun _ _ _ _ hmodels hstep => hmodels.fits_of_returns hstep) (modelsWithin_new k v) hrun

end SkipList

end RedisDB
