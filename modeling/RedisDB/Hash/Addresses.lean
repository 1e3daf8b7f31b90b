import RedisDB.Hash.StateInvariant

/-!
# Node addresses

The allocator never hands out an address twice, so an address stands for one
node over a whole run: a node stored at two moments was stored in between.
-/

namespace RedisDB

open RedisDB.Library

variable {K T : Type}

namespace Hash

/-- Every node has an address of its own, below the allocator's next one. -/
structure Addressed (h : Hash T) : Prop where
  nodup : h.entries.Nodup
  below : ∀ node ∈ h.entries, node.addr < h.newAddr

theorem addressed_new : Addressed (new : Hash T) :=
  ⟨List.nodup_nil, fun _ hnode => absurd hnode List.not_mem_nil⟩

theorem put_newAddr {h next : Hash T} {index : Nat} {value : T}
    (hput : Put h index value next) : next.newAddr = h.newAddr + 1 := by
  cases hput <;> rfl

section Calls

variable [DecidableEq K] {params : HashParams K T}

/-- Addresses are handed out in order, one to each insertion. -/
theorem step_newAddr {h next : Hash T} {call : HashCall K T} {answer : HashAnswer T}
    (hinv : RehashInvariant h) (hstep : hashStep params h call = some (next, answer)) :
    h.newAddr ≤ next.newAddr ∧
      ∀ value, call = .insert value → next.newAddr = h.newAddr + 1 := by
  cases hashStep_effect hstep with
  | @insert value middle next hadvance hput =>
      have hsame := (rehashed_of_advance hinv hadvance).newAddr
      have hnext := put_newAddr hput
      exact ⟨by omega, fun _ _ => by omega⟩
  | @erase key middle cut next status hadvance hcut hlast =>
      have hmiddle := rehashed_of_advance hinv hadvance
      refine ⟨?_, fun value h0 => (by cases h0)⟩
      have hfirst := hmiddle.newAddr
      rcases erase_ways hmiddle.invariant hcut hlast with
        ⟨rfl, rfl⟩ | ⟨rfl, node, -, hnode, -⟩ | ⟨rfl, node, -, hnode, hshrink, hrehash⟩
      · exact hfirst.ge
      · have hsame := (cut_spec hmiddle.invariant hnode).2.2
        omega
      · obtain ⟨hcutInv, -, hsame⟩ := cut_spec hmiddle.invariant hnode
        have hlastly := (rehashed hcutInv (fun _ => .inr hshrink) hrehash).newAddr
        omega
  | lookup hcall hadvance =>
      refine ⟨(rehashed_of_advance hinv hadvance).newAddr.ge, fun value h0 => ?_⟩
      rcases hcall with ⟨key, rfl⟩ | ⟨key, rfl⟩ <;> cases h0
  | @iterator call answer next hcall hcomplete =>
      refine ⟨(rehashed_of_complete hinv hcomplete).newAddr.ge, fun value h0 => ?_⟩
      subst h0
      exact absurd hcall id
  | scan hscan => exact ⟨Nat.le_refl _, fun value h0 => (by cases h0)⟩

/-- A call stores no node but the one it allocates. -/
theorem stored_of_step {h next : Hash T} {call : HashCall K T} {answer : HashAnswer T}
    (hinv : RehashInvariant h) (hstep : hashStep params h call = some (next, answer))
    {node : HashNode T} (hold : node.addr < h.newAddr) (hnode : node ∈ next.entries) :
    node ∈ h.entries := by
  rcases (step_spec hinv hstep).2.cases with
    ⟨value, -, hperm⟩ | ⟨removed, hperm⟩ | hperm
  · rcases List.mem_cons.mp (hperm.mem_iff.mp hnode) with rfl | hmem
    · exact absurd hold (Nat.lt_irrefl _)
    · exact hmem
  · exact hperm.mem_iff.mpr (List.mem_cons_of_mem _ hnode)
  · exact hperm.mem_iff.mp hnode

theorem addressed_step {h next : Hash T} {call : HashCall K T} {answer : HashAnswer T}
    (hinv : RehashInvariant h) (haddr : Addressed h)
    (hstep : hashStep params h call = some (next, answer)) : Addressed next := by
  obtain ⟨hle, hinsert⟩ := step_newAddr hinv hstep
  have hbelow : ∀ node ∈ h.entries, node.addr < next.newAddr := fun node hnode =>
    Nat.lt_of_lt_of_le (haddr.below node hnode) hle
  rcases (step_spec hinv hstep).2.cases with
    ⟨value, hcall, hperm⟩ | ⟨removed, hperm⟩ | hperm
  · have hfresh : ⟨h.newAddr, value⟩ ∉ h.entries := fun hmem =>
      absurd (haddr.below _ hmem) (Nat.lt_irrefl _)
    refine ⟨hperm.nodup_iff.mpr (List.nodup_cons.mpr ⟨hfresh, haddr.nodup⟩),
      fun node hnode => ?_⟩
    rcases List.mem_cons.mp (hperm.mem_iff.mp hnode) with rfl | hmem
    · rw [hinsert value hcall]
      exact Nat.lt_succ_self _
    · exact hbelow node hmem
  · exact ⟨(List.nodup_cons.mp (hperm.nodup_iff.mp haddr.nodup)).2, fun node hnode =>
      hbelow node (hperm.mem_iff.mpr (List.mem_cons_of_mem _ hnode))⟩
  · exact ⟨hperm.nodup_iff.mpr haddr.nodup, fun node hnode =>
      hbelow node (hperm.mem_iff.mp hnode)⟩

/-- No two nodes share an address. -/
theorem addrs_step {h next : Hash T} {call : HashCall K T} {answer : HashAnswer T}
    (hinv : RehashInvariant h) (haddr : Addressed h)
    (hnodup : (h.entries.map HashNode.addr).Nodup)
    (hstep : hashStep params h call = some (next, answer)) :
    (next.entries.map HashNode.addr).Nodup := by
  rcases (step_spec hinv hstep).2.cases with
    ⟨value, -, hperm⟩ | ⟨removed, hperm⟩ | hperm
  · have hfresh : h.newAddr ∉ h.entries.map HashNode.addr := fun hmem => by
      obtain ⟨node, hnode, heq⟩ := List.mem_map.mp hmem
      have hlt := haddr.below node hnode
      omega
    exact (hperm.map HashNode.addr).nodup_iff.mpr (List.nodup_cons.mpr ⟨hfresh, hnodup⟩)
  · have hcons := (hperm.map HashNode.addr).nodup_iff.mp hnodup
    exact (List.nodup_cons.mp hcons).2
  · exact (hperm.map HashNode.addr).nodup_iff.mpr hnodup

theorem reachable_addrs (params : HashParams K T) {h : Hash T}
    (hreach : (hashMachine params).Reachable h) : (h.entries.map HashNode.addr).Nodup := by
  have hkeep : ∀ state call next answer,
      (RehashInvariant state ∧ Addressed state ∧ (state.entries.map HashNode.addr).Nodup) →
      (hashMachine params).step state call = some (next, answer) →
      RehashInvariant next ∧ Addressed next ∧ (next.entries.map HashNode.addr).Nodup :=
    fun _ _ _ _ hall hstep => ⟨(step_spec hall.1 hstep).1,
      addressed_step hall.1 hall.2.1 hstep, addrs_step hall.1 hall.2.1 hall.2.2 hstep⟩
  exact (hreach.invariant ⟨RehashInvariant.new, addressed_new, List.nodup_nil⟩ hkeep).2.2

end Calls

end Hash

end RedisDB
