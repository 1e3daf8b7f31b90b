import Mathlib.Algebra.Ring.Hom.Defs
import Mathlib.Algebra.Ring.Commute
import Mathlib.Data.List.Nodup
import Mathlib.Tactic.Ring

/-!
# Folding a word by an affine map

A multiplicative string hash reads a word from the left and sends the value so far
to `factor * seed + value`.  Ring homomorphisms commute with the fold, so what holds
of it modulo the word size is inherited by every coarser modulus.  With an invertible
factor the fold forgets nothing: equal ends force equal starts.
-/

namespace RedisDB.Library

universe u v w

section AffineFold

variable {α : Type u} {R : Type v} {S : Type w} [CommRing R] [CommRing S]

/-- The value after a word is read. -/
def affineFold (factor : R) (value : α → R) : R → List α → R
  | seed, [] => seed
  | seed, first :: rest => affineFold factor value (factor * seed + value first) rest

variable {factor : R} {value : α → R}

theorem affineFold_append (seed : R) (word rest : List α) :
    affineFold factor value seed (word ++ rest) =
      affineFold factor value (affineFold factor value seed word) rest := by
  induction word generalizing seed with
  | nil => rfl
  | cons first word ih => exact ih _

/-- A homomorphism may be applied before or after the fold. -/
theorem map_affineFold (f : R →+* S) (seed : R) (word : List α) :
    f (affineFold factor value seed word) =
      affineFold (f factor) (fun letter => f (value letter)) (f seed) word := by
  induction word generalizing seed with
  | nil => rfl
  | cons first word ih =>
      rw [affineFold, affineFold, ih, map_add, map_mul]

/-- Reading a word with an invertible factor is injective in the seed. -/
theorem affineFold_eq_iff (hfactor : IsUnit factor) (word : List α) (first second : R) :
    affineFold factor value first word = affineFold factor value second word ↔
      first = second := by
  induction word generalizing first second with
  | nil => exact Iff.rfl
  | cons letter word ih =>
      rw [affineFold, affineFold, ih, add_left_inj]
      exact hfactor.mul_right_inj

/-! ## Words of interchangeable blocks -/

/-- Two blocks that no seed tells apart. -/
def Interchangeable (factor : R) (value : α → R) (left right : List α) : Prop :=
  ∀ seed, affineFold factor value seed left = affineFold factor value seed right

/-- All words of a number of blocks, each of them one of the two. -/
def blockWords (left right : List α) : Nat → List (List α)
  | 0 => [[]]
  | count + 1 =>
      (blockWords left right count).map (left ++ ·) ++
        (blockWords left right count).map (right ++ ·)

theorem length_blockWords (left right : List α) (count : Nat) :
    (blockWords left right count).length = 2 ^ count := by
  induction count with
  | zero => rfl
  | succ count ih =>
      rw [blockWords, List.length_append, List.length_map, List.length_map, ih, Nat.pow_succ,
        Nat.mul_two]

/-- Different blocks of one length make different words. -/
theorem nodup_blockWords {left right : List α} (hlength : left.length = right.length)
    (hne : left ≠ right) (count : Nat) : (blockWords left right count).Nodup := by
  induction count with
  | zero => exact List.nodup_singleton _
  | succ count ih =>
      rw [blockWords]
      refine List.Nodup.append (ih.map (List.append_right_injective left))
        (ih.map (List.append_right_injective right)) ?_
      intro word hleft hright
      obtain ⟨first, -, rfl⟩ := List.mem_map.mp hleft
      obtain ⟨second, -, hequal⟩ := List.mem_map.mp hright
      exact hne (List.append_inj_left hequal.symm hlength)

/-- The fold does not tell words of interchangeable blocks apart. -/
theorem affineFold_blockWords {left right : List α}
    (hblocks : Interchangeable factor value left right) (seed : R) {count : Nat}
    {word other : List α} (hword : word ∈ blockWords left right count)
    (hother : other ∈ blockWords left right count) :
    affineFold factor value seed word = affineFold factor value seed other := by
  induction count generalizing seed word other with
  | zero =>
      rw [blockWords, List.mem_singleton] at hword hother
      rw [hword, hother]
  | succ count ih =>
      rw [blockWords, List.mem_append, List.mem_map, List.mem_map] at hword hother
      rcases hword with ⟨first, hfirst, rfl⟩ | ⟨first, hfirst, rfl⟩ <;>
        rcases hother with ⟨second, hsecond, rfl⟩ | ⟨second, hsecond, rfl⟩ <;>
        rw [affineFold_append, affineFold_append]
      · exact ih _ hfirst hsecond
      · rw [hblocks]
        exact ih _ hfirst hsecond
      · rw [hblocks]
        exact ih _ hfirst hsecond
      · exact ih _ hfirst hsecond

end AffineFold

end RedisDB.Library
