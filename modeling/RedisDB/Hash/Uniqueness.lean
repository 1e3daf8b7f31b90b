import RedisDB.Hash.Lookup
import Mathlib.Data.List.Count

/-!
# How often a key is stored

No method looks for the key it inserts, so the two tables hold as many nodes of
a key as it was inserted, less the removals that answered `true`.  Keys stay
unique exactly in the runs whose insertions are all of absent keys; there a
successful `erase` removes the key until its next insertion.
-/

namespace RedisDB

open RedisDB.Library

variable {K T : Type} [DecidableEq K]

/-- The call inserts a value of the key. -/
def HashCall.insertsKey (params : HashParams K T) (key : K) : HashCall K T → Bool
  | .insert value => params.getKey value = key
  | _ => false

/-- The call is an `erase` of the key, and it answers `true`. -/
def HashCall.erasesKey (key : K) : HashCall K T × HashAnswer T → Bool
  | (.erase other, .status true) => other = key
  | _ => false

namespace Hash

/-- An insertion finds no node of its key in either table. -/
def InsertsAbsent (params : HashParams K T) (h : Hash T) : HashCall K T → Prop
  | .insert value => params.getKey value ∉ h.keys params
  | _ => True

instance (params : HashParams K T) (h : Hash T) :
    (call : HashCall K T) → Decidable (InsertsAbsent params h call)
  | .insert _ => inferInstanceAs (Decidable (_ ∉ _))
  | .erase _ | .get _ | .isExist _ | .beginIter | .endIter | .cbeginIter | .cendIter
  | .next _ | .scan _ => .isTrue trivial

/-! ## One call -/

/-- A call adds the node it inserts and takes away the node it erases. -/
theorem count_step {params : HashParams K T} {h next : Hash T} {call : HashCall K T}
    {answer : HashAnswer T} (hinv : RehashInvariant h)
    (hstep : hashStep params h call = some (next, answer)) (key : K) :
    (next.keys params).count key + (if HashCall.erasesKey key (call, answer) then 1 else 0) =
      (h.keys params).count key + if call.insertsKey params key then 1 else 0 := by
  have hentries := (step_spec hinv hstep).2
  have hsame : next.entries.Perm h.entries →
      (next.keys params).count key = (h.keys params).count key :=
    fun hperm => (hperm.map _).count_eq key
  cases call with
  | insert value =>
      have hcount := (keys_perm_cons params hentries).count_eq key
      rw [List.count_cons] at hcount
      simpa [HashCall.erasesKey, HashCall.insertsKey] using hcount
  | erase other =>
      cases answer with
      | status found =>
          cases found with
          | true =>
              obtain ⟨removed, rfl, hperm⟩ := hentries
              have hcount := (keys_perm_cons params hperm).count_eq key
              rw [List.count_cons] at hcount
              simpa [HashCall.erasesKey, HashCall.insertsKey] using hcount.symm
          | false => exact hsame hentries
      | _ => exact hsame hentries
  | _ => exact hsame hentries

/-- Keys that are unique stay so exactly when the call inserts none that is stored. -/
theorem nodup_step {params : HashParams K T} {h next : Hash T} {call : HashCall K T}
    {answer : HashAnswer T} (hinv : RehashInvariant h) (hunique : (h.keys params).Nodup)
    (hstep : hashStep params h call = some (next, answer)) :
    (next.keys params).Nodup ↔ InsertsAbsent params h call := by
  have hentries := (step_spec hinv hstep).2
  have hsame : next.entries.Perm h.entries → ((next.keys params).Nodup ↔ True) :=
    fun hperm => iff_of_true (nodup_keys_of_perm hunique hperm) trivial
  cases call with
  | insert value =>
      rw [(keys_perm_cons params hentries).nodup_iff, List.nodup_cons]
      exact and_iff_left hunique
  | erase key =>
      cases answer with
      | status found =>
          cases found with
          | true =>
              obtain ⟨removed, -, hperm⟩ := hentries
              have hcons := (keys_perm_cons params hperm).nodup_iff.mp hunique
              exact iff_of_true (List.nodup_cons.mp hcons).2 trivial
          | false => exact hsame hentries
      | _ => exact hsame hentries
  | _ => exact hsame hentries

/-! ## Whole runs -/

/-- The nodes of a key after a run: those there were, those inserted, less those erased. -/
theorem count_run {params : HashParams K T} (key : K) {calls : List (HashCall K T)}
    {h last : Hash T} {answers : List (HashAnswer T)} (hinv : RehashInvariant h)
    (hrun : (hashMachine params).run h calls = some (last, answers)) :
    (last.keys params).count key + (calls.zip answers).countP (HashCall.erasesKey key) =
      (h.keys params).count key + calls.countP (HashCall.insertsKey params key) := by
  induction calls generalizing h answers with
  | nil => cases hrun; rfl
  | cons call rest ih =>
      obtain ⟨next, answer, tail, hstep, htail, rfl⟩ := Machine.run_cons_eq_some.mp hrun
      have hfirst := count_step hinv hstep key
      have hrest := ih (step_spec hinv hstep).1 htail
      rw [List.zip_cons_cons, List.countP_cons, List.countP_cons]
      omega

/-- A key that is not stored is not stored either after calls that do not insert it. -/
theorem absent_run {params : HashParams K T} {key : K} {calls : List (HashCall K T)}
    {h last : Hash T} {answers : List (HashAnswer T)} (hinv : RehashInvariant h)
    (habsent : key ∉ h.keys params)
    (hrun : (hashMachine params).run h calls = some (last, answers))
    (hcalls : ∀ value, .insert value ∈ calls → params.getKey value ≠ key) :
    key ∉ last.keys params := by
  have hcount := count_run key hinv hrun
  have hinserts : calls.countP (HashCall.insertsKey params key) = 0 := by
    rw [List.countP_eq_zero]
    intro call hcall
    cases call with
    | insert value => simpa [HashCall.insertsKey] using hcalls value hcall
    | _ => exact Bool.false_ne_true
  rw [List.count_eq_zero.mpr habsent, hinserts] at hcount
  exact List.count_eq_zero.mp (by omega)

/-- Unique keys lose the key an `erase` takes away. -/
theorem absent_of_erase {params : HashParams K T} {h next : Hash T} {key : K}
    (hinv : RehashInvariant h) (hunique : (h.keys params).Nodup)
    (hstep : hashStep params h (.erase key) = some (next, .status true)) :
    key ∉ next.keys params := by
  obtain ⟨removed, rfl, hperm⟩ := (step_spec hinv hstep).2
  have hcons := (keys_perm_cons params hperm).nodup_iff.mp hunique
  exact (List.nodup_cons.mp hcons).1

/-- Keys are unique throughout a run exactly when its insertions are all of absent keys; in
every run a key is stored once for each insertion and less once for each successful
removal; and with unique keys an erased key stays away until it is inserted again. -/
theorem unique_keys (params : HashParams K T) {calls : List (HashCall K T)} {last : Hash T}
    {answers : List (HashAnswer T)}
    (hrun : (hashMachine params).run new calls = some (last, answers)) :
    ((hashMachine params).Throughout (fun h => (h.keys params).Nodup) new calls ↔
        (hashMachine params).Along (InsertsAbsent params) new calls) ∧
      (∀ key, (last.keys params).count key +
          (calls.zip answers).countP (HashCall.erasesKey key) =
        calls.countP (HashCall.insertsKey params key)) ∧
      ((hashMachine params).Along (InsertsAbsent params) new calls →
        ∀ key next, hashStep params last (.erase key) = some (next, .status true) →
          ∀ later final more, (hashMachine params).run next later = some (final, more) →
            (∀ value, .insert value ∈ later → params.getKey value ≠ key) →
              key ∉ final.keys params) := by
  have hkeep : ∀ state call next answer, RehashInvariant state ∧ (state.keys params).Nodup →
      InsertsAbsent params state call →
      (hashMachine params).step state call = some (next, answer) →
      RehashInvariant next ∧ (next.keys params).Nodup :=
    fun _ _ _ _ hboth habsent hstep =>
      ⟨(step_spec hboth.1 hstep).1, (nodup_step hboth.1 hboth.2 hstep).mpr habsent⟩
  refine ⟨?_, fun key => ?_, fun halong key next hstep later final more hlater hcalls => ?_⟩
  · exact Machine.throughout_iff_along
      (fun _ _ _ _ hinv hstep => (step_spec hinv hstep).1)
      (fun _ _ _ _ hinv hunique hstep => nodup_step hinv hunique hstep)
      RehashInvariant.new List.nodup_nil hrun
  · have hcount := count_run key RehashInvariant.new hrun
    rwa [show (new : Hash T).keys params = [] from rfl, List.count_nil, Nat.zero_add]
      at hcount
  · obtain ⟨hinv, hunique⟩ :=
      halong.invariant hkeep ⟨RehashInvariant.new, List.nodup_nil⟩ hrun
    exact absent_run (step_spec hinv hstep).1 (absent_of_erase hinv hunique hstep) hlater
      hcalls

/-- A set of numbers that hash to themselves. -/
def numbers : HashParams Nat Nat := HashParams.set (BitVec.ofNat 64) LoadFactors.exact

theorem unique_keys_reinserted :
    ∃ last answers,
      (hashMachine numbers).run new [.insert 1, .erase 1, .insert 1] = some (last, answers) ∧
        (hashMachine numbers).Throughout (fun h => (h.keys numbers).Nodup) new
          [.insert 1, .erase 1, .insert 1] ∧
        (last.keys numbers).count 1 +
          ([HashCall.insert 1, .erase 1, .insert 1].zip answers).countP
            (HashCall.erasesKey 1) = 2 := by
  obtain ⟨⟨last, answers⟩, hrun⟩ := Option.isSome_iff_exists.mp
    (by decide : ((hashMachine numbers).run new
      [.insert 1, .erase 1, .insert 1]).isSome = true)
  obtain ⟨hiff, hcount, -⟩ := unique_keys numbers hrun
  exact ⟨last, answers, hrun, hiff.mpr (by decide), hcount 1⟩

/-- Inserting a key twice stores two nodes of it, and the first `erase` leaves one. -/
theorem not_unique_repeated :
    ∃ twice cut,
      (hashMachine numbers).run new [.insert 1, .insert 1] = some (twice, [.done, .done]) ∧
        ¬ (twice.keys numbers).Nodup ∧
        hashStep numbers twice (.erase 1) = some (cut, .status true) ∧
        1 ∈ cut.keys numbers := by
  refine ⟨_, _, rfl, ?_, rfl, ?_⟩
  · decide
  · decide

end Hash

end RedisDB
