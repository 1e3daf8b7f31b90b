import RedisDB.Hash.Addresses
import RedisDB.Hash.Lookup

/-!
# The three lookup paths

`isExist`, `get` and `erase` make the same rehash step and then walk the same
chains, each in its own way.  From one state all three return or none does, and
those that return are after the same node.
-/

namespace RedisDB

open RedisDB.Library

variable {K T V : Type} [DecidableEq K]

namespace Hash

/-- What the three calls for a key say of each other, all made from the same state. -/
structure PathsAgree (params : HashParams K (K × V)) (h : Hash (K × V)) (key : K) : Prop where
  exist_iff_get : (∃ next, h.isExist params key = some (next, true)) ↔
    ∃ next v, HashMap.get params h key = some (next, .ok v)
  get_iff_erase : (∃ next v, HashMap.get params h key = some (next, .ok v)) ↔
    ∃ next, h.erase params key = some (next, true)
  returns : (h.isExist params key).isSome = (HashMap.get params h key).isSome ∧
    (HashMap.get params h key).isSome = (h.erase params key).isSome
  same_state : (h.isExist params key).map Prod.fst = (HashMap.get params h key).map Prod.fst
  removed : ∀ next, h.erase params key = some (next, true) →
    ∃ middle node, HashMap.get params h key = some (middle, .ok node.mValue.2) ∧
      h.find params key = some (middle, some node) ∧
      h.entries.Perm (node :: next.entries) ∧ node ∉ next.entries

/-- The three calls do not return, or all miss the key, or all are after one node of it. -/
theorem lookups_cases (params : HashParams K T) {h : Hash T} (hinv : RehashInvariant h)
    (key : K) :
    (h.isExist params key = none ∧ h.find params key = none ∧ h.erase params key = none) ∨
      (∃ middle, h.isExist params key = some (middle, false) ∧
        h.find params key = some (middle, none) ∧ h.erase params key = some (middle, false)) ∨
      ∃ middle node next, h.isExist params key = some (middle, true) ∧
        h.find params key = some (middle, some node) ∧
        h.erase params key = some (next, true) ∧ h.entries.Perm (node :: next.entries) := by
  cases hadvance : h.advance params with
  | none =>
      left
      simp [isExist, find, erase, hadvance]
  | some middle =>
      right
      have hexist := isExist_of_advance hinv hadvance key
      have hfind := find_of_advance hinv hadvance key
      rcases erase_of_advance hinv hadvance key with
        ⟨hnone, herase⟩ | ⟨node, next, hsome, herase, hperm⟩
      · rw [hnone] at hexist hfind
        exact .inl ⟨middle, hexist, hfind, herase⟩
      · rw [hsome] at hexist hfind
        exact .inr ⟨middle, node, next, hexist, hfind, herase, hperm⟩

/-- From every reachable state the three lookup paths agree on every key. -/
theorem paths_agree (params : HashParams K (K × V)) {h : Hash (K × V)}
    (hreach : (hashMachine params).Reachable h) (key : K) : PathsAgree params h key := by
  have hnodup : h.entries.Nodup := (reachable_addrs params hreach).of_map
  rcases lookups_cases params (reachable_rehashInvariant params hreach) key with
    ⟨hexist, hfind, herase⟩ | ⟨middle, hexist, hfind, herase⟩ |
      ⟨middle, node, last, hexist, hfind, herase, hperm⟩
  · have hget : HashMap.get params h key = none := by rw [HashMap.get, hfind]; rfl
    refine ⟨?_, ?_, ?_, ?_, fun next h0 => ?_⟩
    · simp [hexist, hget]
    · simp [hget, herase]
    · simp [hexist, hget, herase]
    · simp [hexist, hget]
    · rw [herase] at h0
      cases h0
  · have hget : HashMap.get params h key =
        some (middle, .error (.outOfRange "key not exist in hash")) := by
      rw [HashMap.get, hfind]
      rfl
    refine ⟨?_, ?_, ?_, ?_, fun next h0 => ?_⟩
    · simp [hexist, hget]
    · simp [hget, herase]
    · simp [hexist, hget, herase]
    · simp [hexist, hget]
    · rw [herase] at h0
      cases h0
  · have hget : HashMap.get params h key = some (middle, .ok node.mValue.2) := by
      rw [HashMap.get, hfind]
      rfl
    refine ⟨?_, ?_, ?_, ?_, fun next h0 => ?_⟩
    · simp [hexist, hget]
    · simp [hget, herase]
    · simp [hexist, hget, herase]
    · simp [hexist, hget]
    · obtain rfl : last = next := by
        rw [herase] at h0
        cases h0
        rfl
      exact ⟨middle, node, hget, hfind, hperm,
        (List.nodup_cons.mp (hperm.nodup_iff.mp hnodup)).1⟩

theorem paths_agree_expanding : PathsAgree HashParams.identity expanding 2 :=
  paths_agree HashParams.identity reachable_expanding 2

end Hash

end RedisDB
