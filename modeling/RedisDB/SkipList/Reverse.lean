import RedisDB.SkipList.WellLinked

/-!
# Reverse iteration

`rbegin` to `rend` follows the back links from the tail's to the head.  It meets
the elements in the reverse of the order in which `begin` to `end` meets them.
-/

namespace RedisDB

open RedisDB.Library

namespace SkipList

variable {K V : Type} {s : SkipList K V} {cells : List (Cell K V)} {p : Nat}

def rbegin (s : SkipList K V) : Option (Option Nat) :=
  s.backAt s.mTail

def rend (s : SkipList K V) : Option Nat :=
  some s.mHead

/-- The nodes a reverse iterator passes from a pointer to `rend()`. -/
def reverseWalk (s : SkipList K V) : Nat → Option Nat → Option (List Nat)
  | 0, _ => none
  | fuel + 1, it =>
      if it = s.rend then some []
      else do
        let nd ← it
        let prev ← s.backAt nd
        let rest ← s.reverseWalk fuel prev
        some (nd :: rest)

/-- The loop `for (it = rbegin(); it != rend(); it++)`. -/
def reverseChain (s : SkipList K V) : Option (List Nat) := do
  s.reverseWalk (s.mLength.toNat + 1) (← s.rbegin)

/-- A reverse walk from a position meets the cells up to it, the last one first. -/
theorem reverseWalk_spec (hshape : s.Shape cells) (hback : s.BackLinked cells)
    (hp : p ≤ cells.length) (fuel : Nat) (hfuel : p < fuel) :
    s.reverseWalk fuel (some (s.place cells p)) =
      some ((cells.take p).map (·.addr)).reverse := by
  induction fuel generalizing p with
  | zero => omega
  | succ fuel ih =>
      cases p with
      | zero =>
          rw [reverseWalk, rend, place, addrAt_zero, if_pos rfl]
          rfl
      | succ p =>
          have hne : s.place cells (p + 1) ≠ s.mHead := by
            intro heq
            have := hshape.place_injective (q := 0) (by omega) (by omega) heq
            omega
          have hcell := List.getElem?_eq_getElem (l := cells) (i := p) (by omega)
          have hprev := hback p (by omega)
          have hrest := ih (p := p) (by omega) (by omega)
          rw [reverseWalk, rend, if_neg fun heq => hne (Option.some.inj heq)]
          simp only [hprev, hrest, Option.bind_eq_bind, Option.bind_some]
          rw [List.take_add_one, hcell, List.map_append, List.reverse_append, place,
            addrAt_of_getElem? hcell]
          rfl

section Runs

variable [LinearOrder K]

theorem Represents.reverseChain (hrep : s.Represents cells) :
    s.reverseChain = some (cells.map (·.addr)).reverse := by
  have hlength := hrep.length
  have hlast := hrep.back cells.length (Nat.le_refl _)
  rw [place, addrAt_length] at hlast
  have hwalk := reverseWalk_spec hrep.shape hrep.back (Nat.le_refl _) (s.mLength.toNat + 1)
    (by omega)
  simp only [SkipList.reverseChain, rbegin, hlast, hwalk, List.take_length,
    Option.bind_eq_bind, Option.bind_some]

/-- After every run reverse iteration ends and passes the nodes of level `0` in reverse.
The back link of every element and of the tail leads to the node whose link leads to it. -/
theorem run_reverse (k : K) (v : V) (calls : List (SkipCall K V)) :
    ∃ s answers nodes, RunsTo k v calls s answers ∧
      s.levelChain 0 = some nodes ∧ s.reverseChain = some nodes.reverse ∧
      ∀ i nd : Nat, (nodes ++ [s.mTail])[i]? = some nd →
        ∃ prev, (s.mHead :: nodes)[i]? = some prev ∧
          s.nextAt prev 0 = some (some nd) ∧ s.backAt nd = some (some prev) := by
  obtain ⟨s, hrun, cells, hrep, -⟩ := run_models k v calls
  refine ⟨s, _, _, hrun, levelChain_zero hrep, hrep.reverseChain, fun i nd hnd => ?_⟩
  obtain ⟨hi, rfl⟩ := getElem?_behind_head.mp hnd
  exact ⟨s.place cells i, getElem?_ranked.mpr ⟨hi, rfl⟩, hrep.next_at_bottom hi, hrep.back i hi⟩

end Runs

end SkipList

end RedisDB
