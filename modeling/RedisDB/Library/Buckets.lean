import Mathlib.Data.List.Nodup
import Mathlib.Data.List.Range
import Mathlib.Order.Lattice

/-!
# A list filed into buckets

Values are filed one after the other, each put in front of its bucket, and read
back bucket by bucket.  The lemmas say which values come behind a given one in
the new order, and when these are the ones that came behind it in the old order.
-/

namespace RedisDB.Library

variable {α : Type*}

/-- One bucket, the last value filed first. -/
def filed (bucket : α → Nat) (values : List α) (index : Nat) : List α :=
  (values.filter fun value => bucket value = index).reverse

/-- The values bucket by bucket. -/
def bucketed (bucket : α → Nat) (count : Nat) (values : List α) : List α :=
  (List.range count).flatMap (filed bucket values)

theorem mem_filed {bucket : α → Nat} {values : List α} {index : Nat} {value : α} :
    value ∈ filed bucket values index ↔ value ∈ values ∧ bucket value = index := by
  rw [filed, List.mem_reverse, List.mem_filter, decide_eq_true_eq]

/-- The later values are put in front. -/
theorem filed_append (bucket : α → Nat) (first second : List α) (index : Nat) :
    filed bucket (first ++ second) index =
      filed bucket second index ++ filed bucket first index := by
  rw [filed, List.filter_append, List.reverse_append]
  rfl

/-- A list put in front of another one, its last value first: the head stays that of the
two in their former order exactly when nothing was put there or one value is all there is. -/
theorem head?_reverse_append_iff {first second : List α} (hnodup : (second ++ first).Nodup) :
    (first.reverse ++ second).head? = (second ++ first).head? ↔
      first = [] ∨ (second ++ first).length ≤ 1 := by
  rcases List.eq_nil_or_concat first with rfl | ⟨front, last, rfl⟩
  · simp
  · rw [List.concat_eq_append, ← List.append_assoc] at hnodup ⊢
    rw [List.reverse_append, List.reverse_singleton, List.singleton_append, List.cons_append,
      List.head?_cons]
    cases hall : second ++ front with
    | nil => simp
    | cons value rest =>
        rw [hall] at hnodup
        have hne : last ≠ value := by
          rintro rfl
          simp at hnodup
        simp [hne]

theorem filed_cons_self (bucket : α → Nat) (value : α) (values : List α) :
    filed bucket (value :: values) (bucket value) =
      filed bucket values (bucket value) ++ [value] := by
  rw [filed, List.filter_cons_of_pos (by simp), List.reverse_cons]
  rfl

/-- Filing makes no copies. -/
theorem nodup_bucketed (bucket : α → Nat) (count : Nat) {values : List α}
    (hnodup : values.Nodup) : (bucketed bucket count values).Nodup := by
  refine List.nodup_flatMap.mpr ⟨fun index _ => ?_, ?_⟩
  · exact List.nodup_reverse.mpr (hnodup.filter _)
  · refine List.nodup_range.pairwise_of_forall_ne fun first _ second _ hne => ?_
    intro value hfirst hsecond
    exact hne ((mem_filed.mp hfirst).2.symm.trans (mem_filed.mp hsecond).2)

/-- A range cut at one of its elements. -/
theorem range_split {index count : Nat} (hindex : index < count) :
    List.range count =
      List.range index ++ index :: List.range' (index + 1) (count - index - 1) := by
  have hcount : count = index + (1 + (count - index - 1)) := by omega
  conv_lhs => rw [hcount]
  rw [List.range_eq_range', List.range_eq_range', ← List.range'_append_1,
    ← List.range'_append_1]
  simp

/-- Behind a value come the values of its bucket filed before it and those of the later
buckets. -/
theorem bucketed_split {bucket : α → Nat} {count : Nat} (before after : List α) (value : α)
    (hbound : ∀ other, bucket other < count) :
    ∃ earlier later,
      bucketed bucket count (before ++ value :: after) = earlier ++ value :: later ∧
        ∀ other, other ∈ later ↔
          (other ∈ before ∧ bucket other = bucket value) ∨
            (other ∈ before ++ value :: after ∧ bucket value < bucket other) := by
  let values := before ++ value :: after
  refine ⟨(List.range (bucket value)).flatMap (filed bucket values) ++
      filed bucket after (bucket value),
    filed bucket before (bucket value) ++
      (List.range' (bucket value + 1) (count - bucket value - 1)).flatMap
        (filed bucket values), ?_, fun other => ?_⟩
  · have hmiddle : filed bucket values (bucket value) =
        filed bucket after (bucket value) ++ value :: filed bucket before (bucket value) := by
      rw [filed_append, filed_cons_self, List.append_assoc]
      rfl
    rw [bucketed, range_split (hbound value), List.flatMap_append, List.flatMap_cons, hmiddle]
    simp only [List.append_assoc, List.cons_append]
    rfl
  · have hlt := hbound other
    rw [List.mem_append, mem_filed, List.mem_flatMap]
    refine or_congr_right ⟨?_, fun hother => ?_⟩
    · rintro ⟨index, hindex, hmem⟩
      obtain ⟨hvalues, hbucket⟩ := mem_filed.mp hmem
      have hrange := (List.mem_range'_1.mp hindex).1
      exact ⟨hvalues, by omega⟩
    · exact ⟨bucket other, List.mem_range'_1.mpr (by omega), mem_filed.mpr ⟨hother.1, rfl⟩⟩

/-- The values behind a given one are the same before and after filing exactly when its
bucket lies above those of the values before it and below those of the values behind. -/
theorem bucketed_later_perm {bucket : α → Nat} {count : Nat} {before after : List α}
    {value : α} (hbound : ∀ other, bucket other < count)
    (hnodup : (before ++ value :: after).Nodup) :
    ∃ earlier later,
      bucketed bucket count (before ++ value :: after) = earlier ++ value :: later ∧
        (later.Perm after ↔
          (∀ other ∈ before, bucket other < bucket value) ∧
            ∀ other ∈ after, bucket value < bucket other) := by
  obtain ⟨earlier, later, hsplit, hmem⟩ := bucketed_split before after value hbound
  have hall := nodup_bucketed bucket count hnodup
  rw [hsplit] at hall
  have hlater : later.Nodup := (List.nodup_cons.mp hall.of_append_right).2
  have hafter : after.Nodup := (List.nodup_cons.mp hnodup.of_append_right).2
  have hdisjoint : ∀ other ∈ before, other ∉ after := fun other hbefore hother =>
    List.disjoint_of_nodup_append hnodup hbefore (List.mem_cons_of_mem _ hother)
  refine ⟨earlier, later, hsplit, ?_⟩
  rw [List.perm_ext_iff_of_nodup hlater hafter]
  constructor
  · intro hsame
    refine ⟨fun other hother => ?_, fun other hother => ?_⟩
    · have hnot : other ∉ later := fun hin => hdisjoint other hother ((hsame other).mp hin)
      rw [hmem] at hnot
      by_contra hge
      rcases Nat.lt_or_eq_of_le (Nat.not_lt.mp hge) with hlt | heq
      · exact hnot (.inr ⟨List.mem_append_left _ hother, hlt⟩)
      · exact hnot (.inl ⟨hother, heq.symm⟩)
    · rcases (hmem other).mp ((hsame other).mpr hother) with ⟨hbefore, -⟩ | ⟨-, hlt⟩
      · exact absurd hother (hdisjoint other hbefore)
      · exact hlt
  · rintro ⟨hbefore, hbehind⟩ other
    rw [hmem]
    constructor
    · rintro (⟨hother, heq⟩ | ⟨hother, hlt⟩)
      · have := hbefore other hother
        omega
      · rcases List.mem_append.mp hother with hold | hold
        · have := hbefore other hold
          omega
        · rcases List.mem_cons.mp hold with rfl | hold
          · exact absurd hlt (Nat.lt_irrefl _)
          · exact hold
    · intro hother
      exact .inr ⟨List.mem_append_right _ (List.mem_cons_of_mem _ hother),
        hbehind other hother⟩

end RedisDB.Library
