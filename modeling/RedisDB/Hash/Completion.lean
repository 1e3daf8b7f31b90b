import RedisDB.Hash.Lookup

/-!
# How a rehash comes to its end

A run of calls makes a sequence of `rehash` calls.  Nothing between two of them
touches the cursor or the bucket counts, so each finds what the one before left:
an automatic call moves the cursor one step on, a forced one to the end.  Beyond
`2 ^ 30` nodes no rehash comes even to its beginning: the new table needs more
buckets than an `int` can count.
-/

namespace RedisDB

open RedisDB.Library

variable {K T : Type}

/-- A call of `rehash`: the state it finds and its arguments. -/
structure RehashCall (T : Type) where
  before : Hash T
  step : Nat
  isAuto : Bool

/-- How far a rehash has got: the cursor and the bucket counts of the two tables. -/
structure Standing where
  cursor : Int
  old : Nat
  new : Option Nat

namespace Hash

def standing (h : Hash T) : Standing :=
  ⟨h.mRehashIndex, h.mActive.mBucketsNumber, h.mBackup.map HashTable.mBucketsNumber⟩

/-! ## The `rehash` calls of a run -/

def advanceCalls (params : HashParams K T) (h : Hash T) : List (RehashCall T) :=
  if h.isReHashing || h.isNeedReHash params then [⟨h, 2, true⟩] else []

def completeCalls (h : Hash T) : List (RehashCall T) :=
  if h.isReHashing then [⟨h, h.mActive.mBucketsNumber, false⟩] else []

section Calls

variable [DecidableEq K]

/-- The second `rehash` call of an `erase`, which shrinks. -/
def shrinkCalls (params : HashParams K T) (h : Hash T) (index : Nat) (key : K) :
    List (RehashCall T) :=
  match h.eraseKey params index key with
  | some (cut, true) => if cut.isNeedShrink params then [⟨cut, 2, true⟩] else []
  | _ => []

/-- The `rehash` calls of a method, in order. -/
def rehashCalls (params : HashParams K T) (h : Hash T) : HashCall K T → List (RehashCall T)
  | .insert _ | .get _ | .isExist _ => advanceCalls params h
  | .erase key =>
      let index := params.index h.mBucketsMask key
      advanceCalls params h ++
        (h.advance params).elim [] fun h => shrinkCalls params h index key
  | .beginIter | .endIter | .cbeginIter | .cendIter | .next _ => completeCalls h
  | .scan _ => []

/-- The `rehash` calls of a run; it stops at a call that does not return. -/
def rehashTrace (params : HashParams K T) : Hash T → List (HashCall K T) → List (RehashCall T)
  | _, [] => []
  | h, call :: rest =>
      rehashCalls params h call ++
        match hashStep params h call with
        | some (next, _) => rehashTrace params next rest
        | none => []

end Calls

/-! ## Each call finds what the one before left -/

/-- A sequence of `rehash` calls from a given standing: each starts where the one before
stopped, and one that does not return is the last. -/
inductive Linked (params : HashParams K T) : Standing → List (RehashCall T) → Prop where
  | nil (standing : Standing) : Linked params standing []
  | returns {standing : Standing} {call : RehashCall T} {rest : List (RehashCall T)}
      {after : Hash T} (hbefore : call.before.standing = standing)
      (hinv : RehashInvariant call.before)
      (hforced : call.isAuto = false → call.step = call.before.mActive.mBucketsNumber)
      (hafter : call.before.rehash params call.step call.isAuto = some after)
      (hrest : Linked params after.standing rest) : Linked params standing (call :: rest)
  | hangs {standing : Standing} {call : RehashCall T} (hbefore : call.before.standing = standing)
      (hinv : RehashInvariant call.before)
      (hafter : call.before.rehash params call.step call.isAuto = none) :
      Linked params standing [call]

theorem Linked.invariant {params : HashParams K T} {standing : Standing}
    {calls : List (RehashCall T)} (hlinked : Linked params standing calls) :
    ∀ call ∈ calls, RehashInvariant call.before := by
  induction hlinked with
  | nil => exact fun _ h0 => absurd h0 List.not_mem_nil
  | returns _ hinv _ _ _ ih => exact List.forall_mem_cons.mpr ⟨hinv, ih⟩
  | hangs _ hinv _ => exact List.forall_mem_singleton.mpr hinv

theorem standing_put {h next : Hash T} {index : Nat} {value : T}
    (hput : Put h index value next) : next.standing = h.standing := by
  cases hput with
  | backup hbusy hbackup =>
      simp [standing, putBackup, hbackup]
  | active hidle =>
      simp [standing, putActive]

theorem standing_cut {h next : Hash T} {node : HashNode T} (hcut : Cut h node next) :
    next.standing = h.standing := by
  cases hcut with
  | backup hbackup hunlinked => simp [standing, hbackup, hunlinked.buckets]
  | active hunlinked => simp [standing, hunlinked.buckets]

theorem linked_advance {params : HashParams K T} {h : Hash T} {rest : List (RehashCall T)}
    (hinv : RehashInvariant h)
    (hsome : ∀ middle, h.advance params = some middle → Linked params middle.standing rest)
    (hnone : h.advance params = none → rest = []) :
    Linked params h.standing (advanceCalls params h ++ rest) := by
  rw [advance] at hsome hnone
  rw [advanceCalls]
  split at hsome
  · rename_i hwhy
    rw [if_pos hwhy] at hnone ⊢
    cases hafter : h.rehash params 2 true with
    | none =>
        rw [hnone hafter]
        exact .hangs rfl hinv hafter
    | some after => exact .returns rfl hinv (fun h0 => by cases h0) hafter (hsome after hafter)
  · rename_i hwhy
    rw [if_neg hwhy]
    exact hsome h rfl

theorem linked_complete {params : HashParams K T} {h : Hash T} {rest : List (RehashCall T)}
    (hinv : RehashInvariant h)
    (hsome : ∀ full, h.complete params = some full → Linked params full.standing rest)
    (hnone : h.complete params = none → rest = []) :
    Linked params h.standing (completeCalls h ++ rest) := by
  rw [complete] at hsome hnone
  rw [completeCalls]
  split at hsome
  · rename_i hbusy
    rw [if_pos hbusy] at hnone ⊢
    cases hafter : h.rehash params h.mActive.mBucketsNumber false with
    | none =>
        rw [hnone hafter]
        exact .hangs rfl hinv hafter
    | some after => exact .returns rfl hinv (fun _ => rfl) hafter (hsome after hafter)
  · rename_i hbusy
    rw [if_neg hbusy]
    exact hsome h rfl

section Calls

variable [DecidableEq K] {params : HashParams K T} {h : Hash T}

/-- After a call, whose outcome has a known standing, the run goes on or stops. -/
theorem linked_rest {call : HashCall K T} {standing : Standing} {rest : List (RehashCall T)}
    (hsome : ∀ next answer, hashStep params h call = some (next, answer) →
      Linked params next.standing rest)
    (hnone : hashStep params h call = none → rest = [])
    (hsame : ∀ next answer, hashStep params h call = some (next, answer) →
      next.standing = standing) : Linked params standing rest := by
  cases hstep : hashStep params h call with
  | none =>
      rw [hnone hstep]
      exact .nil standing
  | some result =>
      rw [← hsame result.1 result.2 hstep]
      exact hsome result.1 result.2 hstep

/-- A method does not return when its opening step does not. -/
theorem step_eq_none {call : HashCall K T} {opening : Option (Hash T)} (hstop : opening = none)
    (hreturns : ∀ next answer, hashStep params h call = some (next, answer) →
      ∃ middle, opening = some middle) : hashStep params h call = none := by
  refine Option.eq_none_iff_forall_ne_some.mpr fun result hstep => ?_
  obtain ⟨middle, hmiddle⟩ := hreturns result.1 result.2 hstep
  rw [hstop] at hmiddle
  cases hmiddle

/-- The second rehash step of an `erase`, from the state the first has left. -/
theorem linked_shrink {middle : Hash T} {key : K} {rest : List (RehashCall T)}
    (hinv : RehashInvariant h) (hadvance : h.advance params = some middle)
    (hsome : ∀ next answer, hashStep params h (.erase key) = some (next, answer) →
      Linked params next.standing rest)
    (hnone : hashStep params h (.erase key) = none → rest = []) :
    Linked params middle.standing
      (shrinkCalls params middle (params.index h.mBucketsMask key) key ++ rest) := by
  have hmiddle := (rehashed_of_advance hinv hadvance).invariant
  rw [shrinkCalls]
  rcases eraseKey_spec params (params.index h.mBucketsMask key) key
    hmiddle.isReHashing_eq with ⟨-, heq⟩ | ⟨node, cut, -, hcut, heq⟩
  · have herase := erase_of_eraseKey hadvance heq
    rw [Bool.false_and, if_neg (by decide)] at herase
    rw [hashStep, herase] at hsome
    rw [heq]
    exact hsome middle _ rfl
  · have hcutInv := (cut_spec hmiddle hcut).1
    have herase := erase_of_eraseKey hadvance heq
    rw [Bool.true_and] at herase
    rw [heq, ← standing_cut hcut]
    dsimp only
    split
    · rename_i hneed
      rw [if_pos hneed] at herase
      cases hlast : cut.rehash params 2 true with
      | none =>
          rw [hashStep, herase, hlast] at hnone
          rw [hnone rfl]
          exact .hangs rfl hcutInv hlast
      | some next =>
          rw [hashStep, herase, hlast] at hsome
          exact .returns rfl hcutInv (fun h0 => by cases h0) hlast (hsome next _ rfl)
    · rename_i hneed
      rw [if_neg hneed] at herase
      rw [hashStep, herase] at hsome
      exact hsome cut _ rfl

/-- A method that opens with `advance` and changes no standing after it. -/
theorem linked_keyed {call : HashCall K T} {rest : List (RehashCall T)} (hinv : RehashInvariant h)
    (hreturns : ∀ next answer, hashStep params h call = some (next, answer) →
      ∃ middle, h.advance params = some middle ∧ next.standing = middle.standing)
    (hsome : ∀ next answer, hashStep params h call = some (next, answer) →
      Linked params next.standing rest)
    (hnone : hashStep params h call = none → rest = []) :
    Linked params h.standing (advanceCalls params h ++ rest) := by
  refine linked_advance hinv (fun middle hmiddle => ?_) fun hstop => hnone ?_
  · refine linked_rest hsome hnone fun next answer hstep => ?_
    obtain ⟨other, hother, hsame⟩ := hreturns next answer hstep
    cases hmiddle.symm.trans hother
    exact hsame
  · refine step_eq_none hstop fun next answer hstep => ?_
    obtain ⟨middle, hmiddle, -⟩ := hreturns next answer hstep
    exact ⟨middle, hmiddle⟩

/-- A method that opens with `complete`. -/
theorem linked_iterator {rest : List (RehashCall T)} (hinv : RehashInvariant h)
    (call : HashCall K T) (hcall : call.IsIterator)
    (hsome : ∀ next answer, hashStep params h call = some (next, answer) →
      Linked params next.standing rest)
    (hnone : hashStep params h call = none → rest = []) :
    Linked params h.standing (completeCalls h ++ rest) := by
  have hreturns : ∀ next answer, hashStep params h call = some (next, answer) →
      h.complete params = some next := by
    intro next answer hstep
    cases hashStep_effect hstep with
    | iterator _ hcomplete => exact hcomplete
    | insert => exact hcall.elim
    | erase => exact hcall.elim
    | lookup hlookup => rcases hlookup with ⟨key, rfl⟩ | ⟨key, rfl⟩ <;> exact hcall.elim
    | scan => exact hcall.elim
  refine linked_complete hinv (fun full hfull => ?_) fun hstop => hnone ?_
  · refine linked_rest hsome hnone fun next answer hstep => ?_
    cases hfull.symm.trans (hreturns next answer hstep)
    rfl
  · exact step_eq_none hstop fun next answer hstep => ⟨next, hreturns next answer hstep⟩

/-- The `rehash` calls of one method, and those that follow. -/
theorem linked_calls {call : HashCall K T} {rest : List (RehashCall T)}
    (hinv : RehashInvariant h)
    (hsome : ∀ next answer, hashStep params h call = some (next, answer) →
      Linked params next.standing rest)
    (hnone : hashStep params h call = none → rest = []) :
    Linked params h.standing (rehashCalls params h call ++ rest) := by
  cases call with
  | insert value =>
      refine linked_keyed hinv (fun next answer hstep => ?_) hsome hnone
      cases hashStep_effect hstep with
      | insert hadvance hput => exact ⟨_, hadvance, standing_put hput⟩
      | lookup hlookup => simp at hlookup
      | iterator hcall => exact hcall.elim
  | erase key =>
      rw [rehashCalls, List.append_assoc]
      refine linked_advance hinv (fun middle hmiddle => ?_) fun hstop => ?_
      · rw [hmiddle, Option.elim_some]
        exact linked_shrink hinv hmiddle hsome hnone
      · rw [hstop, Option.elim_none, List.nil_append]
        refine hnone ?_
        rw [hashStep, erase, hstop]
        rfl
  | get key =>
      refine linked_keyed hinv (fun next answer hstep => ?_) hsome hnone
      cases hashStep_effect hstep with
      | lookup _ hadvance => exact ⟨next, hadvance, rfl⟩
      | iterator hcall => exact hcall.elim
  | isExist key =>
      refine linked_keyed hinv (fun next answer hstep => ?_) hsome hnone
      cases hashStep_effect hstep with
      | lookup _ hadvance => exact ⟨next, hadvance, rfl⟩
      | iterator hcall => exact hcall.elim
  | scan v =>
      refine linked_rest hsome hnone fun next answer hstep => ?_
      cases hashStep_effect hstep with
      | lookup hlookup => simp at hlookup
      | iterator hcall => exact hcall.elim
      | scan hscan => rfl
  | beginIter => exact linked_iterator hinv .beginIter trivial hsome hnone
  | endIter => exact linked_iterator hinv .endIter trivial hsome hnone
  | cbeginIter => exact linked_iterator hinv .cbeginIter trivial hsome hnone
  | cendIter => exact linked_iterator hinv .cendIter trivial hsome hnone
  | next addr => exact linked_iterator hinv (.next addr) trivial hsome hnone

/-- The `rehash` calls of a run are linked. -/
theorem linked_trace (hinv : RehashInvariant h) (calls : List (HashCall K T)) :
    Linked params h.standing (rehashTrace params h calls) := by
  induction calls generalizing h with
  | nil => exact .nil h.standing
  | cons call rest ih =>
      rw [rehashTrace]
      refine linked_calls hinv (fun next answer hstep => ?_) fun hstop => ?_
      · rw [hstep]
        exact ih (step_spec hinv hstep).1
      · rw [hstop]

/-! ## The `rehash` calls of a method are those it invokes -/

omit [DecidableEq K] in
theorem mem_advanceCalls {c : RehashCall T} :
    c ∈ advanceCalls params h ↔
      (h.isReHashing = true ∨ h.isNeedReHash params = true) ∧ c = ⟨h, 2, true⟩ := by
  rw [advanceCalls, ← Bool.or_eq_true]
  split
  · rename_i hwhy
    simp [hwhy]
  · rename_i hwhy
    simp [hwhy]

omit [DecidableEq K] in
theorem mem_completeCalls {c : RehashCall T} :
    c ∈ completeCalls h ↔
      h.isReHashing = true ∧ c = ⟨h, h.mActive.mBucketsNumber, false⟩ := by
  rw [completeCalls]
  split
  · rename_i hbusy
    simp [hbusy]
  · rename_i hbusy
    simp [hbusy]

theorem mem_shrinkCalls {index : Nat} {key : K} {c : RehashCall T} :
    c ∈ shrinkCalls params h index key ↔
      ∃ cut, h.eraseKey params index key = some (cut, true) ∧
        cut.isNeedShrink params = true ∧ c = ⟨cut, 2, true⟩ := by
  rw [shrinkCalls]
  split
  · rename_i cut hcut
    split
    · rename_i hneed
      simp [hcut, hneed]
    · rename_i hneed
      simp [hcut, hneed]
  · rename_i hother
    simp only [List.not_mem_nil, false_iff]
    rintro ⟨cut, hcut, -⟩
    exact hother cut hcut

variable {before : Hash T} {step : Nat} {isAuto : Bool}

theorem mem_keyedCalls {call : HashCall K T} (hcall : ¬ call.IsIterator)
    (hscan : ∀ v, call ≠ .scan v) (herase : ∀ key, call ≠ .erase key) :
    ⟨before, step, isAuto⟩ ∈ advanceCalls params h ↔
      Invokes params h call before step isAuto := by
  rw [mem_advanceCalls]
  constructor
  · rintro ⟨hwhy, heq⟩
    cases heq
    exact .keyed hcall hscan hwhy
  · intro hinvokes
    cases hinvokes with
    | keyed _ _ hwhy => exact ⟨hwhy, rfl⟩
    | afterErase => exact absurd rfl (herase _)
    | iterator hiterator => exact absurd hiterator hcall

theorem mem_iteratorCalls {call : HashCall K T} (hcall : call.IsIterator) :
    ⟨before, step, isAuto⟩ ∈ completeCalls h ↔
      Invokes params h call before step isAuto := by
  rw [mem_completeCalls]
  constructor
  · rintro ⟨hbusy, heq⟩
    cases heq
    exact .iterator hcall hbusy
  · intro hinvokes
    cases hinvokes with
    | keyed hkeyed => exact absurd hcall hkeyed
    | afterErase => exact hcall.elim
    | iterator _ hbusy => exact ⟨hbusy, rfl⟩

theorem mem_eraseCalls {key : K} :
    ⟨before, step, isAuto⟩ ∈ rehashCalls params h (.erase key) ↔
      Invokes params h (.erase key) before step isAuto := by
  rw [rehashCalls, List.mem_append]
  constructor
  · rintro (hfirst | hsecond)
    · obtain ⟨hwhy, heq⟩ := mem_advanceCalls.mp hfirst
      cases heq
      exact .keyed id (fun _ => nofun) hwhy
    · cases hadvance : h.advance params with
      | none =>
          rw [hadvance] at hsecond
          exact absurd hsecond List.not_mem_nil
      | some middle =>
          rw [hadvance] at hsecond
          obtain ⟨cut, hcut, hneed, heq⟩ := mem_shrinkCalls.mp hsecond
          cases heq
          exact .afterErase hadvance hcut hneed
  · intro hinvokes
    cases hinvokes with
    | keyed _ _ hwhy => exact .inl (mem_advanceCalls.mpr ⟨hwhy, rfl⟩)
    | afterErase hadvance hcut hneed =>
        right
        rw [hadvance]
        exact mem_shrinkCalls.mpr ⟨_, hcut, hneed, rfl⟩
    | iterator hiterator => exact hiterator.elim

theorem mem_rehashCalls {call : HashCall K T} :
    ⟨before, step, isAuto⟩ ∈ rehashCalls params h call ↔
      Invokes params h call before step isAuto := by
  cases call with
  | insert value => exact mem_keyedCalls id (fun _ => nofun) fun _ => nofun
  | get key => exact mem_keyedCalls id (fun _ => nofun) fun _ => nofun
  | isExist key => exact mem_keyedCalls id (fun _ => nofun) fun _ => nofun
  | erase key => exact mem_eraseCalls
  | scan v =>
      refine ⟨fun hc => absurd hc List.not_mem_nil, fun hinvokes => ?_⟩
      cases hinvokes with
      | keyed _ hscan => exact absurd rfl (hscan v)
      | iterator hiterator => exact hiterator.elim
  | beginIter => exact mem_iteratorCalls trivial
  | endIter => exact mem_iteratorCalls trivial
  | cbeginIter => exact mem_iteratorCalls trivial
  | cendIter => exact mem_iteratorCalls trivial
  | next addr => exact mem_iteratorCalls trivial

/-- The `rehash` calls of a run from a reachable state are invoked in reachable states. -/
theorem mem_rehashTrace {calls : List (HashCall K T)} {c : RehashCall T}
    (hreach : (hashMachine params).Reachable h) (hc : c ∈ rehashTrace params h calls) :
    ∃ at' call, (hashMachine params).Reachable at' ∧
      Invokes params at' call c.before c.step c.isAuto := by
  induction calls generalizing h with
  | nil => exact absurd hc List.not_mem_nil
  | cons call rest ih =>
      rw [rehashTrace, List.mem_append] at hc
      rcases hc with hfirst | hlater
      · exact ⟨h, call, hreach, mem_rehashCalls.mp hfirst⟩
      · cases hstep : hashStep params h call with
        | none =>
            rw [hstep] at hlater
            exact absurd hlater List.not_mem_nil
        | some result =>
            rw [hstep] at hlater
            exact ih (hreach.step hstep) hlater

end Calls

/-! ## The pace of a rehash -/

/-- The step an automatic call goes on with, the rehash started when none is in progress. -/
def autoStep (h : Hash T) : Option Nat := do
  let h ← if h.mRehashIndex = -1 then h.startReHashing else some h
  let backup ← h.mBackup
  return calculateReHashStep h.mActive backup

/-- An automatic call does what a forced one with that step does. -/
theorem rehash_of_autoStep {params : HashParams K T} {h : Hash T} {ratio : Nat}
    (hratio : h.autoStep = some ratio) (step : Nat) :
    h.rehash params step true = h.rehash params ratio false := by
  rw [autoStep] at hratio
  split at hratio
  · rename_i hidle
    obtain ⟨started, hstart, hrest⟩ := Option.bind_eq_some_iff.mp hratio
    obtain ⟨backup, hbackup, heq⟩ := Option.bind_eq_some_iff.mp hrest
    cases heq
    simp only [rehash, rehashMove, if_pos hidle, hstart, hbackup, Option.bind_eq_bind,
      Option.bind_some, Bool.false_eq_true, if_true, if_false]
  · rename_i hbusy
    rw [Option.bind_eq_bind, Option.bind_some] at hratio
    obtain ⟨backup, hbackup, heq⟩ := Option.bind_eq_some_iff.mp hratio
    cases heq
    simp only [rehash, rehashMove, if_neg hbusy, hbackup, Option.bind_eq_bind,
      Option.bind_some, Bool.false_eq_true, if_true, if_false]

theorem calculateReHashStep_eq (active backup : HashTable T) :
    calculateReHashStep active backup =
      max active.mBucketsNumber backup.mBucketsNumber /
        min active.mBucketsNumber backup.mBucketsNumber := by
  rw [calculateReHashStep]
  split
  · rw [Nat.max_eq_left (by omega), Nat.min_eq_right (by omega)]
  · rw [Nat.max_eq_right (by omega), Nat.min_eq_left (by omega)]

/-- Two bucket counts and their ratio, the step of an automatic call: it divides the old count
into two steps at least. -/
structure Pace (old new ratio : Nat) : Prop where
  min_pos : 0 < min old new
  ratio_eq : ratio = max old new / min old new
  two_le : 2 ≤ ratio
  dvd : ratio ∣ old
  calls : 2 ≤ old / ratio

/-- The cursor is clipped at the old count, which the steps meet exactly. -/
theorem Pace.clip {old new ratio calls : Nat} (hpace : Pace old new ratio)
    (hcalls : ratio * calls < old) :
    (min (ratio * calls + ratio) old = old ↔ calls + 1 = old / ratio) ∧
      min (ratio * calls + ratio) old = ratio * (calls + 1) := by
  obtain ⟨parts, rfl⟩ := hpace.dvd
  have hpos : 0 < ratio := Nat.lt_of_lt_of_le (by decide) hpace.two_le
  have hlt : calls + 1 ≤ parts := Nat.lt_of_mul_lt_mul_left hcalls
  have hmin : min (ratio * calls + ratio) (ratio * parts) = ratio * (calls + 1) :=
    Nat.min_eq_left (Nat.mul_le_mul_left ratio hlt)
  refine ⟨?_, hmin⟩
  rw [hmin, Nat.mul_div_cancel_left parts hpos]
  exact Nat.mul_right_inj hpos.ne'

/-- A doubling and a division by eight are paced. -/
theorem pace_of_target {old new : Nat} (hold : IsBucketCount old) (hnew : IsBucketCount new)
    (htarget : new = 2 * old ∨ old = 8 * new) :
    Pace old new (max old new / min old new) := by
  have holdFour := hold.four_le
  have hnewFour := hnew.four_le
  have hmin : 0 < min old new := by omega
  rcases htarget with rfl | rfl
  · have hratio : max old (2 * old) / min old (2 * old) = 2 := by
      rw [Nat.max_eq_right (by omega), Nat.min_eq_left (by omega)]
      exact Nat.mul_div_cancel _ (by omega)
    rw [hratio]
    refine ⟨hmin, hratio.symm, Nat.le_refl 2, ?_, by omega⟩
    exact Nat.dvd_trans (by decide) hold.even
  · have hratio : max (8 * new) new / min (8 * new) new = 8 := by
      rw [Nat.max_eq_left (by omega), Nat.min_eq_right (by omega)]
      exact Nat.mul_div_cancel _ (by omega)
    rw [hratio]
    exact ⟨hmin, hratio.symm, by decide, Nat.dvd_mul_right 8 new, by omega⟩

theorem standing_busy {h : Hash T} {cursor : Int} {old new : Nat}
    (hstanding : h.standing = ⟨cursor, old, some new⟩) :
    h.mRehashIndex = cursor ∧ h.mActive.mBucketsNumber = old ∧
      ∃ backup, h.mBackup = some backup ∧ backup.mBucketsNumber = new := by
  rw [standing, Standing.mk.injEq, Option.map_eq_some_iff] at hstanding
  exact hstanding

theorem autoStep_of_standing {h : Hash T} {cursor old new : Nat}
    (hstanding : h.standing = ⟨cursor, old, some new⟩) :
    h.autoStep = some (max old new / min old new) := by
  obtain ⟨hcursor, rfl, backup, hbackup, rfl⟩ := standing_busy hstanding
  have hne : ¬ h.mRehashIndex = -1 := by omega
  simp only [autoStep, if_neg hne, hbackup, Option.bind_eq_bind, Option.bind_some,
    calculateReHashStep_eq]
  rfl

/-- The call ends the rehash: it swaps the tables and leaves no backup. -/
def Ends (params : HashParams K T) (new : Nat) (c : RehashCall T) : Prop :=
  ∃ after, c.before.rehash params c.step c.isAuto = some after ∧
    after.mBackup = none ∧ after.mRehashIndex = -1 ∧ after.mActive.mBucketsNumber = new

section Phase

variable {params : HashParams K T} {old new ratio : Nat}

/-- The call after `calls` others: it ends the rehash if it is forced or the last one the
ratio leaves room for, else the cursor is one ratio on. -/
theorem ends_or_moves {c : RehashCall T} {after : Hash T} {calls : Nat}
    (hpace : Pace old new ratio) (hinv : RehashInvariant c.before)
    (hstanding : c.before.standing = ⟨(ratio * calls : Nat), old, some new⟩)
    (hforced : c.isAuto = false → c.step = c.before.mActive.mBucketsNumber)
    (hafter : c.before.rehash params c.step c.isAuto = some after) :
    (Ends params new c ∧ (c.isAuto = false ∨ calls + 1 = old / ratio)) ∨
      (¬ Ends params new c ∧ ¬ (c.isAuto = false ∨ calls + 1 = old / ratio) ∧
        after.standing = ⟨(ratio * (calls + 1) : Nat), old, some new⟩) := by
  obtain ⟨hcursor, hold, backup, hbackup, hnew⟩ := standing_busy hstanding
  obtain ⟨index, hbusy, hindex⟩ := hinv.cursor hbackup
  have hindexEq := hbusy.eq_of_index hcursor
  have hratio : calculateReHashStep c.before.mActive backup = ratio := by
    rw [calculateReHashStep_eq, hold, hnew]
    exact hpace.ratio_eq.symm
  have hcalls : ratio * calls < old := by
    rw [← hindexEq, ← hold]
    exact hindex
  obtain ⟨hclip, hmoves⟩ := hpace.clip hcalls
  have hwhen : c.before.nextIndex backup index c.step c.isAuto = old ↔
      c.isAuto = false ∨ calls + 1 = old / ratio := by
    rw [nextIndex, hratio, hold, hindexEq]
    cases hauto : c.isAuto with
    | false => simp [hforced hauto, hold]
    | true => simpa using hclip
  rcases rehash_counters hinv hbusy hindex hafter with
    ⟨hend, hnone, hnumber, -⟩ | ⟨hmore, table, hsome, hnumber, hactive, -, hnext, -⟩
  · left
    rw [hold] at hend
    have hidle := (rehashed_of_busy hinv hbackup hafter).invariant.idle_of_none hnone
    exact ⟨⟨after, hafter, hnone, hidle, hnumber.trans hnew⟩, hwhen.mp hend⟩
  · right
    rw [hold] at hmore
    have hnot := mt hwhen.mpr hmore.ne
    refine ⟨?_, hnot, ?_⟩
    · rintro ⟨other, hother, hnone, -⟩
      cases hafter.symm.trans hother
      rw [hsome] at hnone
      cases hnone
    · have hauto : c.isAuto = true := Bool.not_eq_false _ ▸ fun h0 => hnot (.inl h0)
      have hstep : c.before.nextIndex backup index c.step c.isAuto = ratio * (calls + 1) := by
        rw [nextIndex, hratio, hold, hindexEq, hauto, if_pos rfl, hmoves]
      rw [standing, hnext, hstep, hactive, hold, hsome, Option.map_some, hnumber, hnew]

/-- From `calls` calls on, until the rehash ends: each call finds the cursor as many ratios
on as there were calls, and ends the rehash if it is forced or the last one. -/
theorem linked_phase (hpace : Pace old new ratio) {sequence : List (RehashCall T)} {calls : Nat}
    (hlinked : Linked params ⟨(ratio * calls : Nat), old, some new⟩ sequence)
    (position : Nat) {c : RehashCall T} (hc : sequence[position]? = some c)
    (hbefore : ∀ earlier < position, ∀ e, sequence[earlier]? = some e → ¬ Ends params new e) :
    c.before.standing = ⟨(ratio * (calls + position) : Nat), old, some new⟩ ∧
      (Ends params new c ↔ c.isAuto = false ∨ calls + position + 1 = old / ratio) := by
  induction position generalizing sequence calls with
  | zero =>
      cases hlinked with
      | nil => cases hc
      | returns hstart hinv hforced hafter hrest =>
          cases hc
          refine ⟨hstart, ?_⟩
          rcases ends_or_moves hpace hinv hstart hforced hafter with
            ⟨hends, hlast⟩ | ⟨hends, hlast, -⟩
          · exact iff_of_true hends hlast
          · exact iff_of_false hends hlast
      | hangs hstart hinv hstuck =>
          cases hc
          obtain ⟨-, -, backup, hbackup, -⟩ := standing_busy hstart
          obtain ⟨after, hafter⟩ :=
            rehash_isSome_of_busy params c.step c.isAuto hinv hbackup
          rw [hafter] at hstuck
          cases hstuck
  | succ position ih =>
      cases hlinked with
      | nil => cases hc
      | returns hstart hinv hforced hafter hrest =>
          have hgoes := hbefore 0 (Nat.succ_pos _) _ rfl
          rcases ends_or_moves hpace hinv hstart hforced hafter with
            ⟨hends, -⟩ | ⟨-, -, hmoved⟩
          · exact absurd hends hgoes
          · rw [hmoved] at hrest
            have hlater := ih hrest hc fun earlier hlt e he =>
              hbefore (earlier + 1) (Nat.succ_lt_succ hlt) e he
            rw [Nat.add_right_comm, Nat.add_assoc calls position] at hlater
            exact hlater
      | hangs => cases hc

/-- The calls from any one of the sequence on are linked. -/
theorem linked_suffix {standing : Standing} {earlier later : List (RehashCall T)}
    {c : RehashCall T} (hlinked : Linked params standing (earlier ++ c :: later)) :
    Linked params c.before.standing (c :: later) := by
  induction earlier generalizing standing with
  | nil =>
      cases hlinked with
      | returns hstart hinv hforced hafter hrest =>
          exact .returns rfl hinv hforced hafter hrest
      | hangs hstart hinv hstuck => exact .hangs rfl hinv hstuck
  | cons first rest ih =>
      rw [List.cons_append] at hlinked
      generalize htail : rest ++ c :: later = tail at hlinked
      cases hlinked with
      | returns hstart hinv hforced hafter hrest =>
          rw [← htail] at hrest
          exact ih hrest
      | hangs => simp at htail

/-- The call that starts a rehash goes on like one from the started state. -/
theorem linked_started {c : RehashCall T} {later : List (RehashCall T)} {table : HashTable T}
    (hstart : c.before.startReHashing = some (c.before.startedState table))
    (hidle : c.before.mRehashIndex = -1) (hauto : c.isAuto = true)
    (hstarted : Started c.before table)
    (hlinked : Linked params c.before.standing (c :: later)) :
    Linked params ⟨0, c.before.mActive.mBucketsNumber, some table.mBucketsNumber⟩
      (⟨c.before.startedState table, c.step, c.isAuto⟩ :: later) := by
  have hsame : c.before.rehash params c.step c.isAuto =
      (c.before.startedState table).rehash params c.step c.isAuto := by
    rw [rehash_of_idle hidle, hstart, Option.bind_some]
  have hforced : c.isAuto = false → c.step = (c.before.startedState table).mActive.mBucketsNumber :=
    fun h0 => by rw [hauto] at h0; cases h0
  cases hlinked with
  | returns _ _ _ hafter hrest =>
      rw [hsame] at hafter
      exact .returns rfl hstarted.invariant hforced hafter hrest
  | hangs _ _ hstuck =>
      rw [hsame] at hstuck
      exact .hangs rfl hstarted.invariant hstuck

end Phase

/-- A call at the given position of a rehash that has not ended: no second rehash starts, the
call returns, an automatic one takes the ratio as its step, and the rehash ends here exactly
if the call is forced or is the last of as many calls as the ratio goes into the old count. -/
structure Underway (params : HashParams K T) (old new ratio position : Nat) (d : RehashCall T) :
    Prop where
  in_progress : 0 < position → d.before.mRehashIndex ≠ -1
  step_eq : d.before.autoStep = some ratio
  auto_step : d.isAuto = true →
    d.before.rehash params d.step d.isAuto = d.before.rehash params ratio false
  returns : ∃ after, d.before.rehash params d.step d.isAuto = some after
  ends_iff : Ends params new d ↔ d.isAuto = false ∨ position + 1 = old / ratio

theorem Underway.auto_of_step {params : HashParams K T} {d : RehashCall T} {ratio : Nat}
    (hratio : d.before.autoStep = some ratio) (hauto : d.isAuto = true) :
    d.before.rehash params d.step d.isAuto = d.before.rehash params ratio false := by
  rw [hauto]
  exact rehash_of_autoStep hratio d.step

section Start

variable {params : HashParams K T} {c : RehashCall T} {later : List (RehashCall T)}

/-- A rehash that starts runs through its phase. -/
theorem underway_of_started {ratio : Nat} {table : HashTable T}
    (hpace : Pace c.before.mActive.mBucketsNumber table.mBucketsNumber ratio)
    (hidle : c.before.mRehashIndex = -1) (hauto : c.isAuto = true)
    (hstart : c.before.startReHashing = some (c.before.startedState table))
    (hstarted : Started c.before table)
    (hlinked : Linked params c.before.standing (c :: later))
    {position : Nat} {d : RehashCall T} (hd : (c :: later)[position]? = some d)
    (hbefore : ∀ prior < position, ∀ e, (c :: later)[prior]? = some e →
      ¬ Ends params table.mBucketsNumber e) :
    Underway params c.before.mActive.mBucketsNumber table.mBucketsNumber ratio position d := by
  have hsame : Ends params table.mBucketsNumber ⟨c.before.startedState table, c.step, c.isAuto⟩ ↔
      Ends params table.mBucketsNumber c := by
    rw [Ends, Ends, rehash_of_idle hidle, hstart, Option.bind_some]
  have hphase := linked_started hstart hidle hauto hstarted hlinked
  rw [show (0 : Int) = (ratio * 0 : Nat) by rw [Nat.mul_zero]; rfl] at hphase
  cases position with
  | zero =>
      cases hd
      obtain ⟨hstanding, hends⟩ := linked_phase hpace hphase 0 rfl
        (fun prior hlt => absurd hlt (Nat.not_lt_zero prior))
      have hstep : c.before.autoStep = some ratio := by
        rw [hpace.ratio_eq, ← autoStep_of_standing hstanding]
        simp [autoStep, hidle, hstart, startedState]
      refine ⟨fun h0 => absurd h0 (Nat.lt_irrefl 0), hstep, Underway.auto_of_step hstep, ?_, ?_⟩
      · rw [rehash_of_idle hidle, hstart, Option.bind_some]
        exact rehash_isSome_of_busy params c.step c.isAuto hstarted.invariant rfl
      · rw [← hsame, hends, Nat.zero_add]
  | succ position =>
      have hprior : ∀ prior < position + 1, ∀ e,
          (⟨c.before.startedState table, c.step, c.isAuto⟩ :: later)[prior]? = some e →
            ¬ Ends params table.mBucketsNumber e := by
        intro prior hlt e he
        cases prior with
        | zero =>
            cases he
            exact mt hsame.mp (hbefore 0 hlt c rfl)
        | succ prior => exact hbefore (prior + 1) hlt e he
      obtain ⟨hstanding, hends⟩ := linked_phase hpace hphase (position + 1) hd hprior
      obtain ⟨hcursor, -, backup, hbackup, -⟩ := standing_busy hstanding
      have hinv := hphase.invariant d (List.mem_cons_of_mem _ (List.mem_of_getElem? hd))
      have hstep : d.before.autoStep = some ratio := by
        rw [autoStep_of_standing hstanding, ← hpace.ratio_eq]
      refine ⟨fun _ => by omega, hstep, Underway.auto_of_step hstep,
        rehash_isSome_of_busy params d.step d.isAuto hinv hbackup, ?_⟩
      rw [hends, Nat.zero_add]

end Start

/-- The rehash that the first of these calls starts goes to the least bucket count for the
entries, at a pace that suits it; and whatever calls follow, each of them is one of a rehash
under way, and one of as many as the ratio goes into the old count ends it. -/
structure CompletesTo (params : HashParams K T) (c : RehashCall T) (later : List (RehashCall T))
    (count ratio : Nat) : Prop where
  target : getNextPower2 c.before.mActive.mSize = some count
  power : IsBucketCount count
  size_le : c.before.mActive.mSize ≤ count
  least : ∀ other, IsBucketCount other → c.before.mActive.mSize ≤ other → count ≤ other
  differs : count ≠ c.before.mActive.mBucketsNumber
  pace : Pace c.before.mActive.mBucketsNumber count ratio
  underway : ∀ position d, (c :: later)[position]? = some d →
    (∀ prior < position, ∀ e, (c :: later)[prior]? = some e → ¬ Ends params count e) →
      Underway params c.before.mActive.mBucketsNumber count ratio position d
  ends : c.before.mActive.mBucketsNumber / ratio ≤ (c :: later).length →
    ∃ position < c.before.mActive.mBucketsNumber / ratio, ∃ d,
      (c :: later)[position]? = some d ∧ Ends params count d

/-- For the bucket count and the ratio that this rehash has. -/
def RehashCompletes (params : HashParams K T) (c : RehashCall T) (later : List (RehashCall T)) :
    Prop :=
  ∃ count ratio, CompletesTo params c later count ratio

section Completion

variable {params : HashParams K T} {c : RehashCall T} {later : List (RehashCall T)}

/-- Where every call of a rehash is under way, the last of its calls ends it, if none does
before. -/
theorem ends_of_underway {old new ratio : Nat} (hpace : Pace old new ratio)
    (hunderway : ∀ position d, (c :: later)[position]? = some d →
      (∀ prior < position, ∀ e, (c :: later)[prior]? = some e → ¬ Ends params new e) →
        Underway params old new ratio position d)
    (hlength : old / ratio ≤ (c :: later).length) :
    ∃ position < old / ratio, ∃ d, (c :: later)[position]? = some d ∧ Ends params new d := by
  by_contra hnone
  have hcalls := hpace.calls
  have hd := List.getElem?_eq_getElem (l := c :: later) (i := old / ratio - 1) (by omega)
  have hlast := hunderway _ _ hd fun prior hprior e he hends =>
    hnone ⟨prior, by omega, e, he, hends⟩
  exact hnone ⟨_, by omega, _, hd, hlast.ends_iff.mpr (.inr (by omega))⟩

/-- The table for more than `2 ^ 30` nodes cannot be constructed. -/
theorem startReHashing_eq_none {h : Hash T} (hsize : 2 ^ 30 < h.mActive.mSize) :
    h.startReHashing = none := by
  refine Option.eq_none_iff_forall_ne_some.mpr fun started hstart => ?_
  obtain ⟨table, hcount, hnew, -⟩ := startReHashing_eq_some hstart
  obtain ⟨⟨k, -, hpower⟩, hle, -⟩ := getNextPower2_eq_some hcount
  have hbuckets := table.mBucketsNumber_le
  rw [INT_MAX] at hbuckets
  have hk : 30 < k := (Nat.pow_lt_pow_iff_right (by decide)).mp (by omega : 2 ^ 30 < 2 ^ k)
  have hlarge : 2 ^ 31 ≤ 2 ^ k := Nat.pow_le_pow_right (by decide) hk
  omega

/-- So the call that would start that rehash does not return. -/
theorem rehash_eq_none {h : Hash T} (step : Nat) (isAuto : Bool) (hidle : h.mRehashIndex = -1)
    (hsize : 2 ^ 30 < h.mActive.mSize) : h.rehash params step isAuto = none := by
  rw [rehash_of_idle hidle, startReHashing_eq_none hsize, Option.bind_none]

/-- A rehash that completes began with a call that returned. -/
theorem RehashCompletes.returns (hcompletes : RehashCompletes params c later) :
    ∃ after, c.before.rehash params c.step c.isAuto = some after := by
  obtain ⟨count, ratio, hto⟩ := hcompletes
  exact (hto.underway 0 c rfl fun prior hprior => absurd hprior (Nat.not_lt_zero prior)).returns

end Completion

section Runs

variable [DecidableEq K]

/-- A rehash that a call of any run starts completes exactly if it has no more than `2 ^ 30`
nodes to count. -/
theorem rehash_completes (params : HashParams K T) (calls : List (HashCall K T))
    {earlier later : List (RehashCall T)} {c : RehashCall T}
    (htrace : rehashTrace params new calls = earlier ++ c :: later)
    (hidle : c.before.mRehashIndex = -1) :
    RehashCompletes params c later ↔ c.before.mActive.mSize ≤ 2 ^ 30 := by
  constructor
  · intro hcompletes
    by_contra hlarge
    obtain ⟨after, hafter⟩ := hcompletes.returns
    rw [rehash_eq_none c.step c.isAuto hidle (Nat.not_le.mp hlarge)] at hafter
    cases hafter
  · intro hsmall
    have hlinked : Linked params (new : Hash T).standing (rehashTrace params new calls) :=
      linked_trace RehashInvariant.new calls
    rw [htrace] at hlinked
    have hsuffix := linked_suffix hlinked
    have hinv := hsuffix.invariant c List.mem_cons_self
    have hbackup := hinv.backup_none.mpr hidle
    obtain ⟨at', call, hreach, hinvokes⟩ := mem_rehashTrace .init
      (htrace ▸ List.mem_append_right earlier List.mem_cons_self)
    have hbegun := reachable_rehashInvariant params hreach
    have hdue := (invokes_spec hbegun hinvokes).2 hbackup
    obtain ⟨started, hstart⟩ := startReHashing_isSome hsmall
    obtain ⟨table, rfl, hstarted⟩ := started_spec hinv hbackup hdue hstart
    have hcount := hstarted.count
    obtain ⟨hpower, hle, -⟩ := getNextPower2_eq_some hcount
    obtain ⟨hauto, htarget⟩ :=
      (reachable_paced params hreach).target hbegun hinvokes hbackup hcount
    have hpace := pace_of_target hinv.active_count hpower htarget
    have hunderway : ∀ position d, (c :: later)[position]? = some d →
        (∀ prior < position, ∀ e, (c :: later)[prior]? = some e →
          ¬ Ends params table.mBucketsNumber e) →
        Underway params c.before.mActive.mBucketsNumber table.mBucketsNumber _ position d :=
      fun _ _ hd hbefore =>
        underway_of_started hpace hidle hauto hstart hstarted hsuffix hd hbefore
    exact ⟨_, _, hcount, hpower, hle, fun other => getNextPower2_least hcount,
      target_ne_of_due hdue hcount, hpace, hunderway, ends_of_underway hpace hunderway⟩

/-- The sixth of these insertions starts an expansion from 4 buckets to 8, the seventh ends
it. -/
def doubling : List (HashCall Nat (Nat × Nat)) := insertions [0, 1, 2, 3, 4, 8, 5, 6]

theorem rehash_completes_doubling :
    ∃ c later, rehashTrace HashParams.identity new doubling = c :: later ∧
      RehashCompletes HashParams.identity c later := by
  obtain ⟨c, later, htrace⟩ := List.exists_cons_of_ne_nil
    (by decide : rehashTrace HashParams.identity new doubling ≠ [])
  have hidle : ((rehashTrace HashParams.identity new doubling).head?.map
      fun c => (c.before.mRehashIndex, c.before.mActive.mSize)) = some (-1, 5) := by decide
  rw [htrace, List.head?_cons, Option.map_some, Option.some.injEq, Prod.mk.injEq] at hidle
  refine ⟨c, later, htrace, (rehash_completes HashParams.identity doubling
    (htrace.trans (List.nil_append _).symm) hidle.1).mpr ?_⟩
  rw [hidle.2]
  decide

/-- An insertion that does not return is stopped by the rehash it starts. -/
theorem rehashCalls_of_stuck {params : HashParams K T} {h : Hash T} {value : T}
    (hinv : RehashInvariant h) (hstuck : hashStep params h (.insert value) = none) :
    rehashCalls params h (.insert value) = [⟨h, 2, true⟩] ∧ h.mRehashIndex = -1 ∧
      h.rehash params 2 true = none := by
  have hadvance : h.advance params = none := by
    refine Option.eq_none_iff_forall_ne_some.mpr fun middle hmiddle => ?_
    obtain ⟨next, hinsert, -⟩ := insertEntry_of_advance hinv hmiddle value
    rw [hashStep, hinsert] at hstuck
    cases hstuck
  rw [advance] at hadvance
  rw [rehashCalls, advanceCalls]
  split at hadvance
  · rename_i hwhy
    refine ⟨if_pos hwhy, ?_, hadvance⟩
    by_contra hbusy
    obtain ⟨backup, hbackup⟩ :=
      Option.ne_none_iff_exists'.mp fun hnone => hbusy (hinv.idle_of_none hnone)
    obtain ⟨after, hafter⟩ := rehash_isSome_of_busy params 2 true hinv hbackup
    rw [hadvance] at hafter
    cases hafter
  · cases hadvance

/-- A number of insertions all return and leave as many nodes more, or start a rehash that
does not return. -/
theorem insertions_return_or_stop {params : HashParams K T} (value : T) (count : Nat) {h : Hash T}
    (hreach : (hashMachine params).Reachable h) :
    (∃ last, (hashMachine params).Reachable last ∧
      last.entries.length = h.entries.length + count) ∨
    ∃ earlier c later,
      rehashTrace params h (List.replicate count (.insert value)) = earlier ++ c :: later ∧
        c.before.mRehashIndex = -1 ∧ c.before.mActive.mSize ≤ h.entries.length + count ∧
        c.before.rehash params c.step c.isAuto = none := by
  induction count generalizing h with
  | zero => exact .inl ⟨h, hreach, rfl⟩
  | succ count ih =>
      have hinv := reachable_rehashInvariant params hreach
      rw [List.replicate_succ]
      cases hstep : hashStep params h (.insert value) with
      | none =>
          right
          obtain ⟨hcalls, hidle, hstuck⟩ := rehashCalls_of_stuck hinv hstep
          have hsize := hinv.idle_size hidle
          rw [← entries_of_none (hinv.backup_none.mpr hidle)] at hsize
          refine ⟨[], ⟨h, 2, true⟩, [], ?_, hidle, ?_, hstuck⟩
          · rw [rehashTrace, hcalls, hstep]
            rfl
          · change h.mActive.mSize ≤ _
            omega
      | some result =>
          obtain ⟨next, answer⟩ := result
          have hentries : next.entries.Perm (⟨h.newAddr, value⟩ :: h.entries) :=
            (step_spec hinv hstep).2
          have hlength := hentries.length_eq
          rw [List.length_cons] at hlength
          have hreturns : (hashMachine params).step h (.insert value) = some (next, answer) :=
            hstep
          rcases ih (hreach.step hreturns) with
            ⟨last, hlast, htotal⟩ | ⟨earlier, c, later, htrace, hrest⟩
          · exact .inl ⟨last, hlast, by omega⟩
          · right
            refine ⟨rehashCalls params h (.insert value) ++ earlier, c, later, ?_, hrest.1, ?_,
              hrest.2.2⟩
            · rw [rehashTrace, hstep, List.append_assoc, ← htrace]
            · have hsize := hrest.2.1
              omega

/-- Of `2 ^ 33` insertions, which no two tables have room for, one starts a rehash that does
not complete. -/
theorem not_rehashCompletes_insertions :
    ¬ ∀ earlier c later,
      rehashTrace (HashParams.map (BitVec.ofNat 64) LoadFactors.binary32) new
          (List.replicate (2 ^ 33) (.insert (0, 0) : HashCall Nat (Nat × Nat))) =
        earlier ++ c :: later →
      c.before.mRehashIndex = -1 → c.before.mActive.mSize ≤ 2 ^ 63 →
        RehashCompletes (HashParams.map (BitVec.ofNat 64) LoadFactors.binary32) c later := by
  intro hall
  have hempty : (new : Hash (Nat × Nat)).entries.length = 0 := rfl
  have hinit : (hashMachine (HashParams.map (BitVec.ofNat 64) LoadFactors.binary32 :
    HashParams Nat (Nat × Nat))).Reachable new := .init
  rcases insertions_return_or_stop (0, 0) (2 ^ 33) hinit with
    ⟨last, hreach, htotal⟩ | ⟨earlier, c, later, htrace, hidle, hsize, hstuck⟩
  · have hfew := (reachable_paced _ hreach).length_le (reachable_rehashInvariant _ hreach)
    rw [INT_MAX] at hfew
    rw [htotal, hempty] at hfew
    exact absurd hfew (by decide)
  · rw [hempty, Nat.zero_add] at hsize
    have hroom : c.before.mActive.mSize ≤ 2 ^ 63 :=
      hsize.trans (Nat.pow_le_pow_right (by decide) (by decide))
    obtain ⟨after, hafter⟩ := (hall earlier c later htrace hidle hroom).returns
    rw [hstuck] at hafter
    cases hafter

end Runs

end Hash

end RedisDB
