import RedisDB.Library.ReverseCursor
import RedisDB.Util.BitsOp

/-!
# The cursor step of `scan`

`rev(rev(v | ~m) + 1)` adds one to the masked bits read backwards: the fill
carries the one through the bits above the mask into the reversed string, and
out of its last place when the string is all ones.
-/

namespace RedisDB.Util.BitsOp

open RedisDB.Library

variable {w : Nat}

theorem getLsbD_rev {k : Nat} (hw : w = 2 ^ k) (v : BitVec w) {i : Nat} (hi : i < w) :
    (rev v).getLsbD i = v.getLsbD (w - 1 - i) := by
  rw [rev_eq_reverse hw, BitVec.getLsbD_reverse, BitVec.getMsbD_eq_getLsbD]
  simp [hi]

theorem rev_rev {k : Nat} (hw : w = 2 ^ k) (v : BitVec w) : rev (rev v) = v := by
  rw [rev_eq_reverse hw, rev_eq_reverse hw, BitVec.reverse_reverse_eq]

/-- The three assignments are a step of the reversed-bit cursor. -/
theorem rev_step {k : Nat} (hw : w = 2 ^ k) (mask v : BitVec w) :
    rev (rev (v ||| ~~~mask) + 1) = succCursor mask v := by
  rw [rev_eq_reverse hw, rev_eq_reverse hw, succCursor]

/-- Masked bits do not change the reversed string of the low bits. -/
theorem rank_masked {bits : Nat} (hbits : bits ≤ w) (v : BitVec w) :
    rank ((v &&& lowMask w bits).setWidth bits) = rank (v.setWidth bits) := by
  rw [← rank_div_stride hbits, ← rank_div_stride hbits, rank_and_lowMask hbits,
    Nat.mul_div_cancel _ (stride_pos w bits)]

/-- On every width that is a power of two `rev` ends, reverses the bits and undoes itself;
and under the mask of a table of `2 ^ j` buckets the cursor step goes to the bucket behind
that of `v` in the order of reversed `j`-bit strings, from the last one to zero. -/
theorem rev_spec (k : Nat) (v : BitVec (2 ^ k)) :
    revLoop (2 ^ k + 1) (2 ^ k) (BitVec.allOnes (2 ^ k)) v = some (rev v) ∧
      (∀ i < 2 ^ k, (rev v).getLsbD i = v.getLsbD (2 ^ k - 1 - i)) ∧
      rev (rev v) = v ∧
      ∀ j ≤ 2 ^ k, ∀ m : BitVec (2 ^ k), m = BitVec.ofNat (2 ^ k) (2 ^ j - 1) →
        (rev (rev (v ||| ~~~m) + 1)).toNat ≤ 2 ^ j - 1 ∧
          rank ((rev (rev (v ||| ~~~m) + 1)).setWidth j) =
            (rank ((v &&& m).setWidth j) + 1) % 2 ^ j := by
  refine ⟨?_, fun i hi => getLsbD_rev rfl v hi, rev_rev rfl v, fun j hj m hm => ?_⟩
  · rw [revLoop_eq_reverse rfl, rev_eq_reverse rfl]
  · obtain rfl : m = lowMask (2 ^ k) j := hm
    rw [rev_step rfl, rank_masked hj]
    constructor
    · have hlt := toNat_lt_of_dvd hj (stride_dvd_rank_succCursor hj v)
      omega
    · rw [← rank_div_stride hj, ← rank_div_stride hj]
      exact succCursor_interval hj v

theorem rev_spec_three_bits :
    (rev (rev ((3 : BitVec (2 ^ 6)) ||| ~~~7) + 1)).toNat ≤ 7 ∧
      rank ((rev (rev ((3 : BitVec (2 ^ 6)) ||| ~~~7) + 1)).setWidth 3) = 7 := by
  obtain ⟨hle, hnext⟩ := (rev_spec 6 3).2.2.2 3 (by decide) 7 rfl
  exact ⟨hle, hnext.trans (by decide)⟩

end RedisDB.Util.BitsOp
