import RedisDB.SkipList.Runs

/-!
# A skip list is a stable sorted multimap

The traversal, the length and all answers of a run are those of the multimap,
and so they do not depend on the levels that were drawn.  The multimap has no bound on
its entries; the list has that of its counters.
-/

namespace RedisDB

open RedisDB.Library RedisDB.IntType

namespace SkipList

variable {K V : Type} [LinearOrder K] {s : SkipList K V} {m : Multimap K V}

theorem Models.traverse (hmodels : s.Models m) : s.traverse = some m.toList := by
  obtain ⟨cells, hrep, hcontents⟩ := hmodels
  rw [traverse_spec hrep, hcontents]

/-- The multimap does not look at the levels. -/
theorem refSkipStep_congr (m : Multimap K V) (call call' : SkipCall K V)
    (hplain : call.plain = call'.plain) : refSkipStep m call = refSkipStep m call' := by
  rw [refSkipStep, refSkipStep, hplain]

/-- Nor does the bound on its elements. -/
theorem fits_congr {limit : Nat} {calls calls' : List (SkipCall K V)}
    (hcalls : calls.map SkipCall.plain = calls'.map SkipCall.plain) (hfits : Fits limit calls) :
    Fits limit calls' :=
  Machine.refAdmits_congr SkipCall.plain
    (fun m call call' hplain => by
      rw [refSkipStep_congr m call call' hplain]
      exact ⟨rfl, id⟩) hcalls hfits

/-- The run on a new list returns with the answers of the multimap and ends in a list whose
traversal and length are the multimap's.  A run of the same calls with other levels has the
same answers and ends with the same traversal. -/
def RefinesMultimap (int : IntType) (k : K) (v : V) (calls : List (SkipCall K V)) : Prop :=
  ∃ s, (skipMachine int k v).run (new k v) calls =
      some (s, Machine.refRun refSkipStep Multimap.empty calls) ∧
    s.traverse = some (Machine.refState refSkipStep Multimap.empty calls).toList ∧
    s.getLength = (Machine.refState refSkipStep Multimap.empty calls).toList.length ∧
    ∀ calls' : List (SkipCall K V),
      calls'.map SkipCall.plain = calls.map SkipCall.plain →
        ∃ s', (skipMachine int k v).run (new k v) calls' =
            some (s', Machine.refRun refSkipStep Multimap.empty calls) ∧
          s'.traverse = s.traverse

/-- A list is the multimap exactly in the runs in which an `int` can count its elements. -/
theorem run_refines_multimap (k : K) (v : V) (calls : List (SkipCall K V)) :
    RefinesMultimap int32 k v calls ↔ Fits INT_MAX calls := by
  constructor
  · rintro ⟨s, hrun, -⟩
    exact fits_of_run hrun
  · intro hfits
    obtain ⟨s, hrun, hmodels, -⟩ := run_models_within k v hfits
    refine ⟨s, hrun, hmodels.traverse, hmodels.getLength, fun calls' hcalls => ?_⟩
    obtain ⟨s', hrun', hmodels', -⟩ := run_models_within k v (fits_congr hcalls.symm hfits)
    obtain ⟨hanswers, hstate⟩ :=
      Machine.refRun_congr SkipCall.plain refSkipStep_congr Multimap.empty hcalls
    rw [hanswers] at hrun'
    rw [hstate] at hmodels'
    exact ⟨s', hrun', hmodels'.traverse.trans hmodels.traverse.symm⟩

/-- `INT_MAX + 1` insertions of one key: the multimap holds them all, the list does not. -/
theorem not_refinesMultimap_inserts :
    ¬ RefinesMultimap int32 0 0
      (List.replicate (INT_MAX + 1) (.insert 0 0 0) : List (SkipCall Nat Nat)) := by
  rintro ⟨s, hrun, -⟩
  exact not_fits_inserts (Nat.lt_succ_self INT_MAX) (fits_of_run hrun)

/-- Three insertions at different levels and the removal of the middle element. -/
example :
    ((skipMachine int32 0 "").run (new 0 "") [.insert 0 1 "he", .insert 2 8 "world",
      .insert 1 3 "llo", .erase 3, .getLength, .getRank 8]).map
        (fun r => (r.1.traverse, r.2)) =
      some (some [(1, "he"), (8, "world")],
        [.status true, .status true, .status true, .status true, .count 2, .count 2]) := by
  decide

end SkipList

end RedisDB
