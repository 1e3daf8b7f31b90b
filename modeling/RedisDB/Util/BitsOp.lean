import Mathlib.Data.Nat.Basic
import Mathlib.Tactic.Ring

/-!
# `BitsOp::rev`

The word is reversed by swapping neighbouring blocks of halving size.  At each
round the mask selects the lower block of every pair.  The width is a
parameter: `unsigned long` has 32 or 64 bits.
-/

namespace RedisDB.Util.BitsOp

variable {w : Nat}

/-- The `while` loop of `rev`; `none` when it has not ended within `fuel` tests. -/
def revLoop : Nat → Nat → BitVec w → BitVec w → Option (BitVec w)
  | 0, _, _, _ => none
  | fuel + 1, s, mask, v =>
      let s := s >>> 1
      if s > 0 then
        let mask := mask ^^^ (mask <<< s)
        let v := ((v >>> s) &&& mask) ||| ((v <<< s) &&& ~~~mask)
        revLoop fuel s mask v
      else some v

def rev (v : BitVec w) : BitVec w :=
  (revLoop (w + 1) w (BitVec.allOnes w) v).getD v

/-! ## The loop invariant -/

/-- The bit a round-by-round swap has brought to position `i` once all blocks of
size `block` and more are exchanged, in a word of `total` bits. -/
def source (total block i : Nat) : Nat :=
  (total / block - 1 - i / block) * block + i % block

/-- `mask` selects the even blocks of the given size. -/
def SelectsEven (mask : BitVec w) (block : Nat) : Prop :=
  ∀ i, i < w → mask.getLsbD i = decide (i / block % 2 = 0)

/-- Position `i` as its pair of blocks, its half and its offset. -/
theorem split_index (half i : Nat) (hhalf : 0 < half) :
    ∃ pair offset, offset < half ∧
      (i = (2 * pair) * half + offset ∨ i = (2 * pair + 1) * half + offset) := by
  refine ⟨i / half / 2, i % half, Nat.mod_lt _ hhalf, ?_⟩
  have hi := Nat.div_add_mod' i half
  rcases Nat.mod_two_eq_zero_or_one (i / half) with h | h
  · left
    have hq : 2 * (i / half / 2) = i / half := by omega
    rw [hq]
    exact hi.symm
  · right
    have hq : 2 * (i / half / 2) + 1 = i / half := by omega
    rw [hq]
    exact hi.symm

theorem div_block {half quotient offset : Nat} (hoffset : offset < half) :
    (quotient * half + offset) / half = quotient := by
  rw [Nat.mul_comm, Nat.mul_add_div (by omega), Nat.div_eq_of_lt hoffset, Nat.add_zero]

theorem mod_block {half quotient offset : Nat} (hoffset : offset < half) :
    (quotient * half + offset) % half = offset := by
  rw [Nat.mul_comm, Nat.mul_add_mod, Nat.mod_eq_of_lt hoffset]

/-- Xor-shifting a mask of even blocks gives the mask of even half blocks. -/
theorem selectsEven_half {mask : BitVec w} {half : Nat} (hhalf : 0 < half)
    (hmask : SelectsEven mask (2 * half)) :
    SelectsEven (mask ^^^ (mask <<< half)) half := by
  intro i hi
  rw [BitVec.getLsbD_xor, BitVec.getLsbD_shiftLeft, hmask i hi]
  obtain ⟨pair, offset, hoffset, rfl | rfl⟩ := split_index half i hhalf
  · -- lower half: the shifted mask comes from the pair before, of the other parity
    have hdiv : (2 * pair * half + offset) / (2 * half) = pair := by
      rw [show 2 * pair * half + offset = pair * (2 * half) + offset by ring]
      exact div_block (by omega)
    rw [hdiv, div_block hoffset]
    cases pair with
    | zero => simp [hoffset]
    | succ pair =>
        have hback : 2 * (pair + 1) * half + offset - half =
            pair * (2 * half) + (half + offset) := by
          have : 2 * (pair + 1) * half + offset = pair * (2 * half) + (2 * half + offset) := by
            ring
          omega
        have hge : ¬ 2 * (pair + 1) * half + offset < half := by
          have : 2 * (pair + 1) * half = 2 * pair * half + 2 * half := by ring
          omega
        rw [hmask _ (by omega), hback, div_block (by omega)]
        rcases Nat.mod_two_eq_zero_or_one pair with h | h <;>
          simp [hi, hge, Nat.add_mod, h]
  · -- upper half: the shifted mask comes from the same pair and cancels
    have hsame : (2 * pair + 1) * half + offset = pair * (2 * half) + (half + offset) := by
      ring
    have hback : (2 * pair + 1) * half + offset - half = pair * (2 * half) + offset := by
      omega
    have hge : ¬ (2 * pair + 1) * half + offset < half := by
      rw [hsame]
      omega
    rw [hmask _ (by omega), hback, div_block (by omega), hsame, div_block (by omega),
      ← hsame, div_block hoffset]
    simp [hi, hge, Nat.add_mod]

/-- One round composes the block exchange with the exchange of the halves. -/
theorem source_half_lower {total half pair offset : Nat} (hoffset : offset < half)
    (htotal : pair < total) :
    source (total * (2 * half)) half (2 * pair * half + offset) =
      source (total * (2 * half)) (2 * half) (2 * pair * half + offset + half) := by
  have hpos : 0 < half := by omega
  have hpair : 2 * pair * half + offset + half = pair * (2 * half) + (half + offset) := by
    ring
  simp only [source]
  rw [div_block hoffset, mod_block hoffset, hpair, div_block (by omega),
    mod_block (by omega), Nat.mul_div_cancel _ (by omega : 0 < 2 * half),
    show total * (2 * half) = (2 * total) * half by ring, Nat.mul_div_cancel _ hpos]
  obtain ⟨rest, rfl⟩ : ∃ rest, total = pair + 1 + rest := ⟨total - pair - 1, by omega⟩
  rw [show 2 * (pair + 1 + rest) - 1 - 2 * pair = 2 * rest + 1 by omega,
    show pair + 1 + rest - 1 - pair = rest by omega]
  ring

theorem source_half_upper {total half pair offset : Nat} (hoffset : offset < half)
    (htotal : pair < total) :
    source (total * (2 * half)) half ((2 * pair + 1) * half + offset) =
      source (total * (2 * half)) (2 * half) ((2 * pair + 1) * half + offset - half) := by
  have hpos : 0 < half := by omega
  have hpair : (2 * pair + 1) * half + offset - half = pair * (2 * half) + offset := by
    have : (2 * pair + 1) * half = pair * (2 * half) + half := by ring
    omega
  simp only [source]
  rw [div_block hoffset, mod_block hoffset, hpair, div_block (by omega),
    mod_block (by omega), Nat.mul_div_cancel _ (by omega : 0 < 2 * half),
    show total * (2 * half) = (2 * total) * half by ring, Nat.mul_div_cancel _ hpos]
  obtain ⟨rest, rfl⟩ : ∃ rest, total = pair + 1 + rest := ⟨total - pair - 1, by omega⟩
  rw [show 2 * (pair + 1 + rest) - 1 - (2 * pair + 1) = 2 * rest by omega,
    show pair + 1 + rest - 1 - pair = rest by omega]
  ring

/-- The pair of a position is one of the `pairs` pairs of the word. -/
theorem pair_lt {half pairs pair rest : Nat} (hlt : pair * (2 * half) + rest < pairs * (2 * half)) :
    pair < pairs :=
  Nat.lt_of_mul_lt_mul_right (Nat.lt_of_le_of_lt (Nat.le_add_right _ rest) hlt)

/-- A round exchanges the two blocks of every pair. -/
theorem round_spec {half pairs : Nat} (hhalf : 0 < half) (htotal : w = pairs * (2 * half))
    {mask word v : BitVec w} (hmask : SelectsEven mask half)
    (hword : ∀ i, i < w → word.getLsbD i = v.getLsbD (source w (2 * half) i)) {i : Nat}
    (hi : i < w) :
    (((word >>> half) &&& mask) ||| ((word <<< half) &&& ~~~mask)).getLsbD i =
      v.getLsbD (source w half i) := by
  rw [BitVec.getLsbD_or, BitVec.getLsbD_and, BitVec.getLsbD_and, BitVec.getLsbD_not,
    hmask i hi, BitVec.getLsbD_ushiftRight, BitVec.getLsbD_shiftLeft]
  obtain ⟨pair, offset, hoffset, hindex | hindex⟩ := split_index half i hhalf
  · -- the lower block of a pair receives the upper one
    have hblock : i = pair * (2 * half) + offset := by
      rw [hindex]
      ring
    have hlt : pair < pairs := by
      rw [hblock, htotal] at hi
      exact pair_lt hi
    have hup : i + half < w := by
      have := Nat.mul_le_mul_right (2 * half) (Nat.succ_le_of_lt hlt)
      rw [← htotal, Nat.succ_mul] at this
      omega
    have hsource := source_half_lower hoffset hlt
    rw [← htotal, ← hindex] at hsource
    rw [show i / half = 2 * pair by rw [hindex]; exact div_block hoffset, hsource,
      ← hword _ hup]
    simp [Nat.add_comm]
  · -- the upper block of a pair receives the lower one
    have hblock : i = pair * (2 * half) + (half + offset) := by
      rw [hindex]
      ring
    have hlt : pair < pairs := by
      rw [hblock, htotal] at hi
      exact pair_lt hi
    have hge : ¬ i < half := by omega
    have hsource := source_half_upper hoffset hlt
    rw [← htotal, ← hindex] at hsource
    rw [show i / half = 2 * pair + 1 by rw [hindex]; exact div_block hoffset, hsource,
      ← hword _ (by omega)]
    simp [hi, hge, Nat.add_mod]

/-- From blocks of size `2 ^ exponent` on, the loop brings bit `w - 1 - i` to `i`. -/
theorem revLoop_spec {k exponent : Nat} (fuel : Nat) (hw : w = 2 ^ k) (hexponent : exponent ≤ k)
    (hfuel : exponent < fuel) {mask word v : BitVec w}
    (hmask : SelectsEven mask (2 ^ exponent))
    (hword : ∀ i, i < w → word.getLsbD i = v.getLsbD (source w (2 ^ exponent) i)) :
    revLoop fuel (2 ^ exponent) mask word = some v.reverse := by
  induction exponent generalizing fuel mask word with
  | zero =>
      obtain ⟨fuel, rfl⟩ : ∃ n, fuel = n + 1 := ⟨fuel - 1, by omega⟩
      have hdone : word = v.reverse := by
        apply BitVec.eq_of_getLsbD_eq
        intro i hi
        rw [hword i hi, BitVec.getLsbD_reverse, BitVec.getMsbD_eq_getLsbD]
        simp [source, hi, Nat.mod_one]
      simp [revLoop, hdone]
  | succ exponent ih =>
      obtain ⟨fuel, rfl⟩ : ∃ n, fuel = n + 1 := ⟨fuel - 1, by omega⟩
      have hhalf : 0 < 2 ^ exponent := Nat.two_pow_pos exponent
      have hpow : 2 ^ (exponent + 1) = 2 * 2 ^ exponent := by ring
      have hshift : 2 ^ (exponent + 1) >>> 1 = 2 ^ exponent := by
        rw [Nat.shiftRight_eq_div_pow, hpow]
        omega
      have htotal : w = 2 ^ (k - (exponent + 1)) * (2 * 2 ^ exponent) := by
        rw [← hpow, ← Nat.pow_add, Nat.sub_add_cancel hexponent, hw]
      rw [hpow] at hmask hword
      rw [revLoop]
      simp only [hshift, if_pos hhalf]
      have hnext := selectsEven_half hhalf hmask
      exact ih fuel (by omega) (by omega) hnext fun i hi =>
        round_spec hhalf htotal hnext hword hi

/-- On every width that is a power of two the loop ends, with the bits reversed. -/
theorem revLoop_eq_reverse {k : Nat} (hw : w = 2 ^ k) (v : BitVec w) :
    revLoop (w + 1) w (BitVec.allOnes w) v = some v.reverse := by
  have hmask : SelectsEven (BitVec.allOnes w) (2 ^ k) := by
    intro i hi
    rw [BitVec.getLsbD_allOnes, Nat.div_eq_of_lt (hw ▸ hi)]
    simp [hi]
  have hword : ∀ i, i < w → v.getLsbD i = v.getLsbD (source w (2 ^ k) i) := by
    intro i hi
    have hi' : i < 2 ^ k := hw ▸ hi
    have hone : w / 2 ^ k = 1 := by rw [hw, Nat.div_self (Nat.two_pow_pos k)]
    rw [source, hone, Nat.div_eq_of_lt hi', Nat.mod_eq_of_lt hi']
    simp
  have hspec := revLoop_spec (w + 1) hw (Nat.le_refl k)
    (by have := Nat.lt_two_pow_self (n := k); omega) hmask hword
  rwa [← hw] at hspec

theorem rev_eq_reverse {k : Nat} (hw : w = 2 ^ k) (v : BitVec w) : rev v = v.reverse := by
  rw [rev, revLoop_eq_reverse hw]
  rfl

end RedisDB.Util.BitsOp
