import RedisDB.Hash.Completion
import RedisDB.Library.Amortised

/-!
# What rehashing costs

A rehash writes the slots of a new bucket array, empties the buckets of the old one
and files their nodes anew.  A table that is about to be resized holds many more or
many fewer entries than one that was just resized, and the insertions and removals
in between pay for all of it.
-/

namespace RedisDB

open RedisDB.Library

variable {K T : Type}

namespace Hash

/-- The slots a call of `rehash` initialises, the buckets it empties and the nodes it
files in the new table. -/
def rehashWork (params : HashParams K T) (call : RehashCall T) : Nat :=
  match rehashMove params call.before call.step call.isAuto with
  | some last =>
      if call.before.mRehashIndex = -1 then
        last.mBucketsNumber + (last.mRehashIndex.toNat + last.moved)
      else
        (last.mRehashIndex - call.before.mRehashIndex).toNat + (last.moved - call.before.moved)
  | none => 0

/-- The work of all the `rehash` calls a method makes. -/
def callWork [DecidableEq K] (params : HashParams K T) (h : Hash T) (call : HashCall K T) : Nat :=
  ((rehashCalls params h call).map (rehashWork params)).sum

/-! ## The potential -/

/-- What is left to do of a rehash in progress. -/
def unmoved (h : Hash T) : Nat :=
  match h.mBackup with
  | some _ => h.mActive.entries.length + (h.mActive.mBucketsNumber - h.mRehashIndex.toNat)
  | none => 0

/-- How far a table with this many buckets and entries is on its way to the next rehash. -/
def imbalance (buckets size : Nat) : Nat := max (9 * size - 5 * buckets) (3 * buckets - 6 * size)

def potential (h : Hash T) : Nat := h.unmoved + imbalance h.mBucketsNumber h.entries.length

/-- An insertion pays for nine units of work and a removal for six; lookups, iterators and
scans pay nothing. -/
def price : HashCall K T → HashAnswer T → Nat
  | .insert _, _ => 9
  | .erase _, .status true => 6
  | _, _ => 0

theorem unmoved_of_none {h : Hash T} (hbackup : h.mBackup = none) : h.unmoved = 0 := by
  rw [unmoved, hbackup]

theorem unmoved_of_busy {h : Hash T} {backup : HashTable T} {index : Nat}
    (hbusy : h.Busy backup index) :
    h.unmoved = h.mActive.entries.length + (h.mActive.mBucketsNumber - index) := by
  rw [unmoved, hbusy.backup_eq, hbusy.index_eq, Int.toNat_natCast]

/-! ## `rehash` calls -/

variable {params : HashParams K T} {h next : Hash T} {step : Nat} {isAuto : Bool}

/-- A call in progress takes its work from what is left to do. -/
theorem work_of_busy (hinv : RehashInvariant h) (hsome : h.mBackup ≠ none)
    (hrehash : h.rehash params step isAuto = some next) :
    rehashWork params ⟨h, step, isAuto⟩ + next.potential ≤ h.potential := by
  obtain ⟨backup, hbackup⟩ := Option.ne_none_iff_exists'.mp hsome
  obtain ⟨index, hbusy, hindex⟩ := hinv.cursor hbackup
  have hnumber := number_of_rehash_busy hinv hsome hrehash
  have hlength := (rehashed_of_busy hinv hbackup hrehash).contents.length_eq
  obtain ⟨active, received, hreleased, -, hmove⟩ :=
    rehashMove_of_busy step isAuto hbusy hindex (hinv.home_lt params hbackup)
  have hshorter : active.entries.length ≤ h.mActive.entries.length := by
    rw [hreleased.contents.length_eq, List.length_append]
    omega
  have hwork : rehashWork params ⟨h, step, isAuto⟩ =
      (h.nextIndex backup index step isAuto - index) +
        (h.mActive.entries.length - active.entries.length) := by
    have hne : ¬ h.mRehashIndex = -1 := by
      rw [hbusy.index_eq]
      omega
    rw [rehashWork, hmove]
    dsimp only
    rw [if_neg hne, hbusy.index_eq]
    simp only [movedState]
    omega
  have hunmoved : next.unmoved + (h.nextIndex backup index step isAuto - index) +
      (h.mActive.entries.length - active.entries.length) ≤ h.unmoved := by
    have hle := nextIndex_le h backup index step isAuto
    have hge := le_nextIndex backup step isAuto hindex
    rw [rehash, hmove, Option.map_some] at hrehash
    have hnext := Option.some.inj hrehash
    simp only [rehashFinish, movedState, hreleased.buckets, Nat.cast_inj] at hnext
    rw [unmoved_of_busy hbusy]
    split at hnext
    · rw [← hnext, unmoved_of_none rfl]
      omega
    · rw [← hnext, unmoved_of_busy ⟨rfl, rfl⟩]
      dsimp only
      rw [hreleased.buckets]
      omega
  unfold potential
  rw [hnumber, hlength, hwork]
  omega

/-- An overfull table has saved what doubling it will cost. -/
theorem imbalance_double {buckets size : Nat} (hlt : buckets < size) (hle : size ≤ 2 * buckets) :
    2 * buckets + (size + buckets) + imbalance (2 * buckets) size ≤ imbalance buckets size := by
  unfold imbalance
  omega

/-- A sparse table has saved what dividing it by eight will cost. -/
theorem imbalance_eighth {buckets size : Nat} (hlt : size < buckets) :
    buckets + (size + 8 * buckets) + imbalance buckets size ≤ imbalance (8 * buckets) size := by
  unfold imbalance
  omega

/-- The load of a table that is about to be resized. -/
def Resizes (size old new : Nat) : Prop :=
  new = 2 * old ∧ old < size ∧ size ≤ 2 * old ∨ old = 8 * new ∧ size < new

theorem Resizes.saved {size old new : Nat} (hresizes : Resizes size old new) :
    new + (size + old) + imbalance new size ≤ imbalance old size := by
  rcases hresizes with ⟨rfl, hlt, hle⟩ | ⟨rfl, hlt⟩
  · exact imbalance_double hlt hle
  · exact imbalance_eighth hlt

/-- From an idle state `rehash` does what it does once the new table is there. -/
theorem rehashMove_of_start {table : HashTable T} (hindex : h.mRehashIndex = -1)
    (hstart : h.startReHashing = some (h.startedState table)) (step : Nat) (isAuto : Bool) :
    rehashMove params h step isAuto = rehashMove params (h.startedState table) step isAuto := by
  have hne : ¬ (h.startedState table).mRehashIndex = -1 := by
    change ¬ (0 : Int) = -1
    decide
  rw [rehashMove, rehashMove, if_pos hindex, if_neg hne, hstart]

/-- The work of the call that starts a rehash: the slots of the new table, and a move. -/
theorem rehashWork_of_start {table : HashTable T} (hinv : RehashInvariant (h.startedState table))
    (hindex : h.mRehashIndex = -1)
    (hstart : h.startReHashing = some (h.startedState table)) (step : Nat) (isAuto : Bool) :
    rehashWork params ⟨h, step, isAuto⟩ =
      table.mBucketsNumber + rehashWork params ⟨h.startedState table, step, isAuto⟩ := by
  obtain ⟨index, hbusy, hlt⟩ := hinv.cursor rfl
  obtain ⟨active, received, -, -, hmove⟩ :=
    rehashMove_of_busy step isAuto hbusy hlt (hinv.home_lt params rfl)
  have hne : ¬ (h.startedState table).mRehashIndex = -1 := by
    change ¬ (0 : Int) = -1
    decide
  simp only [rehashWork, rehashMove_of_start hindex hstart, hmove, if_pos hindex, if_neg hne]
  simp [movedState, startedState]

/-- A call that starts a rehash takes its work from what the table has saved. -/
theorem work_of_start (hinv : RehashInvariant h) (hidle : h.mBackup = none)
    (hdue : h.Due params)
    (hresizes : ∀ count, getNextPower2 h.mActive.mSize = some count →
      Resizes h.mActive.mSize h.mActive.mBucketsNumber count)
    (hrehash : h.rehash params step isAuto = some next) :
    rehashWork params ⟨h, step, isAuto⟩ + next.potential ≤ h.potential := by
  have hindex := hinv.idle_of_none hidle
  rw [rehash_of_idle hindex, Option.bind_eq_some_iff] at hrehash
  obtain ⟨started, hstart, hrest⟩ := hrehash
  obtain ⟨table, rfl, hstarted⟩ := started_spec hinv hidle hdue hstart
  have hwork := work_of_busy hstarted.invariant (by simp [startedState]) hrest
  have hpotential : (h.startedState table).potential =
      h.mActive.mSize + h.mActive.mBucketsNumber +
        imbalance table.mBucketsNumber h.mActive.mSize := by
    have hunmoved : (h.startedState table).unmoved =
        h.mActive.entries.length + h.mActive.mBucketsNumber := rfl
    rw [potential, hunmoved, hstarted.length hinv hidle, hinv.idle_size hindex]
    rfl
  have hbefore : h.potential = imbalance h.mActive.mBucketsNumber h.mActive.mSize := by
    rw [potential, unmoved_of_none hidle, Nat.zero_add, ← hinv.idle_number hindex,
      entries_of_none hidle, hinv.idle_size hindex]
  have hsaved := (hresizes _ hstarted.count).saved
  rw [rehashWork_of_start hstarted.invariant hindex hstart, hbefore]
  omega

/-! ## The calls of the container -/

/-- The opening step of a keyed method. -/
theorem work_of_advance (hinv : RehashInvariant h) (hpaced : Paced params.factors 1 h)
    (hadvance : h.advance params = some next) :
    ((advanceCalls params h).map (rehashWork params)).sum + next.potential ≤ h.potential := by
  rcases advance_ways hinv hadvance with
    ⟨hsome, hrehash⟩ | ⟨hbackup, hneed, hrehash⟩ | ⟨hbackup, hneed, rfl⟩
  · have hbusy : h.isReHashing = true := by
      rw [hinv.isReHashing_eq, Option.isSome_iff_ne_none]
      exact hsome
    simpa [advanceCalls, hbusy] using work_of_busy hinv hsome hrehash
  · have hresizes : ∀ count, getNextPower2 h.mActive.mSize = some count →
        Resizes h.mActive.mSize h.mActive.mBucketsNumber count := by
      intro count hcount
      have hresting := hpaced.resting_of_none hbackup
      have hhigh := hresting.high
      exact Or.inl ⟨hresting.growth_target hinv hneed hcount,
        params.factors.lt_of_exceeds hneed, by omega⟩
    simpa [advanceCalls, hneed] using work_of_start hinv hbackup (.inl hneed) hresizes hrehash
  · simp [advanceCalls, hinv.isReHashing_of_none hbackup, hneed]

/-- An iterator method at most completes a rehash. -/
theorem work_of_complete (hinv : RehashInvariant h) (hcomplete : h.complete params = some next) :
    ((completeCalls h).map (rehashWork params)).sum + next.potential ≤ h.potential := by
  rcases complete_cases hcomplete with ⟨hbusy, hrehash⟩ | ⟨hidle, rfl⟩
  · have hsome : h.mBackup ≠ none := by
      rw [hinv.isReHashing_eq, Option.isSome_iff_ne_none] at hbusy
      exact hbusy
    simpa [completeCalls, hbusy] using work_of_busy hinv hsome hrehash
  · simp [completeCalls, hidle]

theorem imbalance_insert (buckets size : Nat) :
    imbalance buckets (size + 1) ≤ imbalance buckets size + 9 := by
  unfold imbalance
  omega

theorem imbalance_erase (buckets size : Nat) :
    imbalance buckets size ≤ imbalance buckets (size + 1) + 6 := by
  unfold imbalance
  omega

/-- A new entry does not lie in the way of a rehash in progress. -/
theorem potential_put {index : Nat} {value : T} (hinv : RehashInvariant h)
    (hindex : index < h.mBucketsNumber) (hput : Put h index value next) :
    next.potential ≤ h.potential + 9 := by
  have hlength := (put_spec hinv hindex hput).2.1.length_eq
  have hnumber := put_number hput
  have hunmoved : next.unmoved = h.unmoved := by
    cases hput with
    | @backup backup hbusy hbackup => simp only [unmoved, putBackup, hbackup]
    | active hidle =>
        have hbackup := hinv.none_of_isReHashing hidle
        rw [unmoved_of_none hbackup]
        exact unmoved_of_none hbackup
  have himbalance := imbalance_insert h.mBucketsNumber h.entries.length
  rw [List.length_cons] at hlength
  unfold potential
  rw [hunmoved, hnumber, hlength]
  omega

theorem potential_cut {node : HashNode T} (hinv : RehashInvariant h) (hcut : Cut h node next) :
    next.potential ≤ h.potential + 6 := by
  have hlength := (cut_spec hinv hcut).2.1.length_eq
  have hnumber : next.mBucketsNumber = h.mBucketsNumber := by cases hcut <;> rfl
  have hunmoved : next.unmoved ≤ h.unmoved := by
    cases hcut with
    | backup hbackup hunlinked =>
        simp only [unmoved, hbackup]
        exact Nat.le_refl _
    | active hunlinked =>
        have hactive := hunlinked.contents.length_eq
        rw [List.length_cons] at hactive
        simp only [unmoved, hunlinked.buckets]
        cases h.mBackup with
        | none => exact Nat.le_refl _
        | some backup =>
            dsimp only
            omega
  have himbalance := imbalance_erase h.mBucketsNumber next.entries.length
  rw [List.length_cons] at hlength
  unfold potential
  rw [hnumber, hlength]
  omega

section Calls

variable [DecidableEq K]

/-- The removal of an `erase` and the `rehash` call that may follow it. -/
theorem work_of_cut {cut : Hash T} {index : Nat} {key : K} {status : Bool}
    (hinv : RehashInvariant h) (hpaced : Paced params.factors 2 h)
    (heraseKey : h.eraseKey params index key = some (cut, status))
    (hlast : (status = true ∧ cut.isNeedShrink params = true ∧
        cut.rehash params 2 true = some next) ∨
      ((status && cut.isNeedShrink params) = false ∧ next = cut)) :
    ((shrinkCalls params h index key).map (rehashWork params)).sum + next.potential ≤
      h.potential + if status then 6 else 0 := by
  rcases eraseKey_effect hinv heraseKey with ⟨rfl, rfl⟩ | ⟨rfl, node, -, hcut⟩
  · obtain ⟨hfalse, -⟩ | ⟨-, rfl⟩ := hlast
    · cases hfalse
    · simp [shrinkCalls, heraseKey]
  · have hpotential := potential_cut hinv hcut
    obtain ⟨-, hneed, hrehash⟩ | ⟨hneed, rfl⟩ := hlast
    · have hcutInv := (cut_spec hinv hcut).1
      have hwork : rehashWork params ⟨cut, 2, true⟩ + next.potential ≤ cut.potential := by
        cases hbackup : cut.mBackup with
        | some backup => exact work_of_busy hcutInv (by simp [hbackup]) hrehash
        | none =>
            refine work_of_start hcutInv hbackup (.inr hneed) (fun count hcount => ?_) hrehash
            have htarget := (hpaced.cut hinv hcut).2.2 hbackup hneed count hcount
            have hbelow := params.factors.lt_of_below (isNeedShrink_iff.mp hneed).2
            exact Or.inr ⟨htarget, by omega⟩
      simpa [shrinkCalls, heraseKey, hneed] using hwork.trans hpotential
    · rw [Bool.true_and] at hneed
      simpa [shrinkCalls, heraseKey, hneed] using hpotential

/-- Every call is paid for. -/
theorem work_affordable (params : HashParams K T) :
    (hashMachine params).Affordable
      (fun h => RehashInvariant h ∧ Paced params.factors 1 h) (callWork params) potential
      price := by
  rintro h call next answer ⟨hinv, hpaced⟩ hstep
  cases hashStep_effect hstep with
  | @insert value middle next hadvance hput =>
      have hwork := work_of_advance hinv hpaced hadvance
      have hindex := Nat.lt_of_lt_of_le (hinv.index_lt params (params.getKey value))
        (number_le_of_advance hinv hadvance)
      have hpotential := potential_put (rehashed_of_advance hinv hadvance).invariant hindex hput
      simp only [callWork, rehashCalls, price]
      omega
  | @erase key middle cut next status hadvance hcut hlast =>
      have hwork := work_of_advance hinv hpaced hadvance
      have hmiddle := (rehashed_of_advance hinv hadvance).invariant
      have hlater := work_of_cut hmiddle (hpaced.advance hinv hadvance) hcut hlast
      have hprice : price (.erase key : HashCall K T) (.status status) =
          if status then 6 else 0 := by
        cases status <;> rfl
      simp only [callWork, rehashCalls, hadvance, Option.elim_some, List.map_append,
        List.sum_append, hprice]
      omega
  | lookup hcall hadvance =>
      have hwork := work_of_advance hinv hpaced hadvance
      rcases hcall with ⟨key, rfl⟩ | ⟨key, rfl⟩ <;> exact hwork
  | iterator hcall hcomplete =>
      have hwork := work_of_complete hinv hcomplete
      cases call with
      | beginIter | endIter | cbeginIter | cendIter | next addr => exact hwork
      | _ => exact absurd hcall id
  | scan hscan => simp [callWork, rehashCalls, price]

/-- All the rehashing of a run costs at most nine units for each insertion and six for each
removal, whatever the hasher and the order of the calls: slots of new bucket arrays, emptied
buckets and nodes filed anew all counted. -/
theorem rehash_work_le (params : HashParams K T) {calls : List (HashCall K T)} {last : Hash T}
    {answers : List (HashAnswer T)}
    (hrun : (hashMachine params).run new calls = some (last, answers)) :
    (hashMachine params).totalCost (callWork params) new calls ≤
      12 + (List.zipWith price calls answers).sum := by
  have hstart : potential (new : Hash T) = 12 := rfl
  have htotal := Machine.totalCost_le (invariants_step params) (work_affordable params)
    ⟨RehashInvariant.new, Paced.new params.factors⟩ hrun
  omega

theorem rehash_work_le_expanding :
    (hashMachine HashParams.identity).totalCost (callWork HashParams.identity) new
      (insertions [0, 1, 2, 3, 4, 8]) ≤ 66 := by
  obtain ⟨⟨last, answers⟩, hrun⟩ := Option.isSome_iff_exists.mp
    (by decide : ((hashMachine HashParams.identity).run new
      (insertions [0, 1, 2, 3, 4, 8])).isSome = true)
  have hprices : (List.zipWith price (insertions [0, 1, 2, 3, 4, 8]) answers).sum = 54 := by
    cases hrun
    rfl
  exact (rehash_work_le HashParams.identity hrun).trans (by omega)

end Calls

end Hash

end RedisDB
