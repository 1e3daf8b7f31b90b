import RedisDB.SkipList.Basic
import Mathlib.Data.Fintype.BigOperators
import Mathlib.Data.Fintype.Fin
import Mathlib.Data.Nat.Count
import Mathlib.Tactic.Ring

/-!
# How levels are drawn

A draw of `std::rand` raises the level when its low sixteen bits are below `16383.75`.
Exactly a quarter of all draws do, so a level is reached by exactly that power of a
quarter of all sequences of draws.
-/

namespace RedisDB

namespace SkipList

/-- The test of the loop in `generateRandomLevel`. -/
def raises (draw : Nat) : Bool := 4 * (draw &&& 0xFFFF) < 0xFFFF

theorem raises_iff (draw : Nat) : raises draw = true ↔ draw % 65536 < 16384 := by
  have hmask : draw &&& 0xFFFF = draw % 65536 := Nat.and_two_pow_sub_one_eq_mod draw 16
  rw [raises, decide_eq_true_eq, hmask]
  omega

/-- The first draws that raise the level decide which levels are reached. -/
theorem le_generateRandomLevel_iff {draws : List Nat} {j : Nat} (hj : j < ZSKIPLIST_MAXLEVEL) :
    j ≤ generateRandomLevel draws ↔ j ≤ (draws.takeWhile raises).length := by
  have hlevel : generateRandomLevel draws =
      if (draws.takeWhile raises).length < ZSKIPLIST_MAXLEVEL then
        (draws.takeWhile raises).length
      else ZSKIPLIST_MAXLEVEL - 1 := rfl
  rw [hlevel]
  split <;> omega

theorem le_length_takeWhile_iff {α : Type} {p : α → Bool} {values : List α} {j : Nat} :
    j ≤ (values.takeWhile p).length ↔
      j ≤ values.length ∧ ∀ value ∈ values.take j, p value = true := by
  induction values generalizing j with
  | nil => simp
  | cons value rest ih =>
      cases j with
      | zero => simp
      | succ j =>
          cases hp : p value with
          | false => simp [hp]
          | true => simp [hp, ih]

/-! ## Counting draws -/

/-- A quarter of the draws from a range of whole words raise the level. -/
theorem count_raises (words : Nat) :
    Nat.count (fun draw => raises draw = true) (65536 * words) = 16384 * words := by
  induction words with
  | zero => rfl
  | succ words ih =>
      have hlow : Nat.count (fun draw => raises (65536 * words + draw) = true) 16384 = 16384 :=
        Nat.count_iff_forall.mpr fun draw hdraw => (raises_iff _).mpr (by omega)
      have hhigh : Nat.count
          (fun draw => raises (65536 * words + (16384 + draw)) = true) 49152 = 0 := by
        refine Nat.count_iff_forall_not.mpr fun draw hdraw hraises => ?_
        have hsmall := (raises_iff _).mp hraises
        omega
      rw [Nat.mul_succ, Nat.count_add, ih, show 65536 = 16384 + 49152 from rfl, Nat.count_add,
        hlow, hhigh]
      omega

/-- Sequences whose first entries all pass a test. -/
theorem card_leading {α : Type} [Fintype α] (p : α → Bool) {n j : Nat} (hj : j ≤ n) :
    (Finset.univ.filter fun f : Fin n → α => ∀ i, i.val < j → p (f i) = true).card =
      (Finset.univ.filter fun a => p a = true).card ^ j * Fintype.card α ^ (n - j) := by
  classical
  have hset : (Finset.univ.filter fun f : Fin n → α => ∀ i, i.val < j → p (f i) = true) =
      Fintype.piFinset fun i : Fin n =>
        if i.val < j then Finset.univ.filter fun a => p a = true else Finset.univ := by
    ext f
    rw [Finset.mem_filter, Fintype.mem_piFinset]
    constructor
    · rintro ⟨-, hleading⟩ i
      split
      · rename_i hi
        exact Finset.mem_filter.mpr ⟨Finset.mem_univ _, hleading i hi⟩
      · exact Finset.mem_univ _
    · intro hall
      refine ⟨Finset.mem_univ _, fun i hi => ?_⟩
      have hmem := hall i
      rw [if_pos hi] at hmem
      exact (Finset.mem_filter.mp hmem).2
  have hcard : ∀ i : Fin n,
      (if i.val < j then Finset.univ.filter fun a => p a = true else Finset.univ).card =
        if i.val < j then (Finset.univ.filter fun a => p a = true).card else Fintype.card α := by
    intro i
    split <;> rfl
  rw [hset, Fintype.card_piFinset, Finset.prod_congr rfl fun i _ => hcard i, Finset.prod_ite,
    Finset.prod_const, Finset.prod_const]
  have hbefore : (Finset.univ.filter fun i : Fin n => i.val < j).card = j := by
    rw [Fin.card_filter_val_lt, Nat.min_eq_right hj]
  have hall := Finset.card_filter_add_card_filter_not (s := (Finset.univ : Finset (Fin n)))
    fun i => i.val < j
  rw [hbefore, Finset.card_univ, Fintype.card_fin] at hall
  have hafter : (Finset.univ.filter fun i : Fin n => ¬ i.val < j).card = n - j := by omega
  rw [hbefore, hafter]

/-- Level `j` is reached when the first `j` draws raise the level, as long as it is possible. -/
theorem card_reaching (words : Nat) {n j : Nat} (hlevel : j < ZSKIPLIST_MAXLEVEL)
    (hj : j ≤ n) :
    (Finset.univ.filter fun draws : Fin n → Fin (65536 * words) =>
        j ≤ generateRandomLevel (List.ofFn fun i => (draws i).val)).card =
      (16384 * words) ^ j * (65536 * words) ^ (n - j) := by
  have hset : (Finset.univ.filter fun draws : Fin n → Fin (65536 * words) =>
        j ≤ generateRandomLevel (List.ofFn fun i => (draws i).val)) =
      Finset.univ.filter fun draws : Fin n → Fin (65536 * words) =>
        ∀ i, i.val < j → raises (draws i).val = true := by
    refine Finset.filter_congr fun draws _ => ?_
    rw [le_generateRandomLevel_iff hlevel, le_length_takeWhile_iff, List.length_ofFn]
    constructor
    · rintro ⟨-, hraises⟩ i hi
      apply hraises
      exact List.mem_take_iff_getElem.mpr ⟨i.val, by simp [hi], by simp⟩
    · intro hraises
      refine ⟨hj, fun value hvalue => ?_⟩
      obtain ⟨i, hi, rfl⟩ := List.mem_take_iff_getElem.mp hvalue
      rw [List.getElem_ofFn]
      exact hraises _ (Nat.lt_min.mp hi).1
  have hquarter : (Finset.univ.filter fun draw : Fin (65536 * words) =>
      raises draw.val = true).card = 16384 * words := by
    rw [← count_raises, Nat.count_eq_card_filter_range, ← Finset.card_map Fin.valEmbedding]
    congr 1
    ext draw
    simp [Fin.exists_iff, and_comm]
  rw [hset, card_leading (fun draw : Fin (65536 * words) => raises draw.val) hj, hquarter,
    Fintype.card_fin]

/-- Level `j` is reached by one in `4 ^ j` of the sequences of draws, as long as it is
possible. -/
theorem generateRandomLevel_card (words : Nat) {n j : Nat} (hlevel : j < ZSKIPLIST_MAXLEVEL)
    (hj : j ≤ n) :
    4 ^ j * (Finset.univ.filter fun draws : Fin n → Fin (65536 * words) =>
        j ≤ generateRandomLevel (List.ofFn fun i => (draws i).val)).card =
      (65536 * words) ^ n := by
  rw [card_reaching words hlevel hj, ← Nat.mul_assoc, ← Nat.mul_pow, ← Nat.mul_assoc,
    ← Nat.pow_add, Nat.add_sub_cancel' hj]

/-- Two levels up from draws below `2 ^ 31`. -/
theorem generateRandomLevel_card_two :
    4 ^ 2 * (Finset.univ.filter fun draws : Fin 3 → Fin (65536 * 32768) =>
        2 ≤ generateRandomLevel (List.ofFn fun i => (draws i).val)).card =
      (65536 * 32768) ^ 3 :=
  generateRandomLevel_card 32768 (by decide) (by decide)

end SkipList

end RedisDB
