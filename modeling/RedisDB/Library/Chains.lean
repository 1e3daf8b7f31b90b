import Mathlib.Data.List.Perm.Basic
import Mathlib.Data.List.Flatten

/-!
# Arrays of chains

A table of buckets is a list of chains.  Its contents are the flattened list,
and every operation on it rewrites the chain of one bucket; the lemmas say what
such a rewrite does to the contents, up to order.
-/

namespace RedisDB.Library

variable {α : Type*}

/-- The contents of a table outside one bucket. -/
def outside (chains : List (List α)) (index : Nat) : List α :=
  (chains.eraseIdx index).flatten

/-- The contents are one chain and what lies outside it. -/
theorem flatten_perm_outside {chains : List (List α)} {index : Nat}
    (hindex : index < chains.length) :
    chains.flatten.Perm (chains[index] ++ outside chains index) := by
  induction chains generalizing index with
  | nil => cases hindex
  | cons chain rest ih =>
      cases index with
      | zero => exact List.Perm.refl _
      | succ index =>
          have hrest : index < rest.length := Nat.lt_of_succ_lt_succ hindex
          have hperm := (ih hrest).append_left chain
          have hswap : (chain ++ (rest[index] ++ outside rest index)).Perm
              (rest[index] ++ (chain ++ outside rest index)) := by
            rw [← List.append_assoc, ← List.append_assoc]
            exact List.perm_append_comm.append_right _
          exact hperm.trans hswap

/-- Rewriting a chain changes only that part of the contents. -/
theorem flatten_set_perm {chains : List (List α)} {index : Nat} {chain : List α}
    (hindex : index < chains.length) :
    (chains.set index chain).flatten.Perm (chain ++ outside chains index) := by
  have hset : index < (chains.set index chain).length := by simpa using hindex
  have hperm := flatten_perm_outside hset
  have hsame : outside (chains.set index chain) index = outside chains index := by
    simp [outside, List.eraseIdx_set_eq]
  rw [List.getElem_set_self, hsame] at hperm
  exact hperm

/-- Membership in the contents is membership in the chain of some bucket. -/
theorem mem_flatten_iff_getD {chains : List (List α)} {value : α} :
    value ∈ chains.flatten ↔
      ∃ index, index < chains.length ∧ value ∈ chains.getD index [] := by
  rw [List.mem_flatten]
  constructor
  · rintro ⟨chain, hchain, hvalue⟩
    obtain ⟨index, hindex, rfl⟩ := List.getElem_of_mem hchain
    exact ⟨index, hindex, by simpa [hindex] using hvalue⟩
  · rintro ⟨index, hindex, hvalue⟩
    exact ⟨chains[index], List.getElem_mem hindex, by simpa [hindex] using hvalue⟩

end RedisDB.Library
