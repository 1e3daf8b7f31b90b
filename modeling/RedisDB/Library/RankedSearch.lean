import Mathlib.Data.List.Perm.Basic

/-!
# The first match in a list of falling rank

A list is kept in falling order of a rank, and a search takes its first element
that matches.  The search then finds a match of the highest rank, and where no
two matches have one rank it does not depend on how elements of equal rank are
arranged.
-/

namespace RedisDB.Library

universe u

variable {Item : Type u}

/-- The elements stand in falling order of their rank. -/
def Falling (rank : Item → Nat) (items : List Item) : Prop :=
  items.Pairwise fun first second => rank second ≤ rank first

variable {rank : Item → Nat} {Matches : Item → Bool}

/-- The first match has the highest rank of all matches. -/
theorem Falling.rank_le_of_find? {items : List Item} (hfalling : Falling rank items)
    {found : Item} (hfound : items.find? Matches = some found) {other : Item}
    (hother : other ∈ items) (hmatches : Matches other = true) : rank other ≤ rank found := by
  induction items with
  | nil => cases hother
  | cons item items ih =>
      obtain ⟨hfirst, hrest⟩ := List.pairwise_cons.mp hfalling
      cases hitem : Matches item with
      | true =>
          rw [List.find?_cons_of_pos hitem] at hfound
          cases hfound
          rcases List.mem_cons.mp hother with rfl | hlater
          · exact Nat.le_refl _
          · exact hfirst other hlater
      | false =>
          rw [List.find?_cons_of_neg (by simp [hitem])] at hfound
          rcases List.mem_cons.mp hother with rfl | hlater
          · cases hitem.symm.trans hmatches
          · exact ih hrest hfound hlater

/-- Where matches of one rank are equal, the first match is the one of the highest rank. -/
theorem Falling.find?_eq_some_iff {items : List Item} (hfalling : Falling rank items)
    (hunique : ∀ first ∈ items, ∀ second ∈ items, Matches first = true →
      Matches second = true → rank first = rank second → first = second) {found : Item} :
    items.find? Matches = some found ↔
      found ∈ items ∧ Matches found = true ∧
        ∀ other ∈ items, Matches other = true → rank other ≤ rank found := by
  constructor
  · intro hfound
    exact ⟨List.mem_of_find?_eq_some hfound, List.find?_some hfound,
      fun other hother hmatches => hfalling.rank_le_of_find? hfound hother hmatches⟩
  · rintro ⟨hmem, hmatches, hhighest⟩
    cases hfind : items.find? Matches with
    | none => exact absurd hmatches (List.find?_eq_none.mp hfind found hmem)
    | some first =>
        have hfirst := List.mem_of_find?_eq_some hfind
        have hmatch := List.find?_some hfind
        have hle := hfalling.rank_le_of_find? hfind hmem hmatches
        rw [hunique first hfirst found hmem hmatch hmatches
          (Nat.le_antisymm (hhighest first hfirst hmatch) hle)]

/-- Two arrangements in falling order give the same first match. -/
theorem Falling.find?_eq_of_perm {items items' : List Item} (hfalling : Falling rank items)
    (hfalling' : Falling rank items') (hperm : items.Perm items')
    (hunique : ∀ first ∈ items, ∀ second ∈ items, Matches first = true →
      Matches second = true → rank first = rank second → first = second) :
    items.find? Matches = items'.find? Matches := by
  apply Option.ext
  intro found
  have hunique' : ∀ first ∈ items', ∀ second ∈ items', Matches first = true →
      Matches second = true → rank first = rank second → first = second := by
    intro first hfirst second hsecond
    exact hunique first (hperm.mem_iff.mpr hfirst) second (hperm.mem_iff.mpr hsecond)
  simp only [hfalling.find?_eq_some_iff hunique, hfalling'.find?_eq_some_iff hunique',
    hperm.mem_iff]

end RedisDB.Library
