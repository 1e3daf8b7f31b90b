import Mathlib.Data.Option.Basic

/-!
# Partial computations that agree where the first has a result

One computation is below another when every result of the first is the result of the
second.  The order is kept by sequencing and by case distinctions, so two programs that
differ in the partial operations they make are compared operation by operation.
-/

namespace RedisDB.Library

universe u v

/-- Where the first computation has a result, the second has the same. -/
def DefinedBelow {A : Type u} (first second : Option A) : Prop :=
  ∀ result, first = some result → second = some result

namespace DefinedBelow

variable {A : Type u} {B : Type v}

theorem refl (computation : Option A) : DefinedBelow computation computation :=
  fun _ => id

theorem bind {first second : Option A} {next next' : A → Option B}
    (hfirst : DefinedBelow first second) (hnext : ∀ a, DefinedBelow (next a) (next' a)) :
    DefinedBelow (first.bind next) (second.bind next') := by
  intro result hresult
  obtain ⟨a, ha, hrest⟩ := Option.bind_eq_some_iff.mp hresult
  exact Option.bind_eq_some_iff.mpr ⟨a, hfirst a ha, hnext a result hrest⟩

/-- The first parts are the same. -/
theorem bind_same (computation : Option A) {next next' : A → Option B}
    (hnext : ∀ a, DefinedBelow (next a) (next' a)) :
    DefinedBelow (computation.bind next) (computation.bind next') :=
  (refl computation).bind hnext

theorem map {first second : Option A} (hfirst : DefinedBelow first second) (f : A → B) :
    DefinedBelow (first.map f) (second.map f) := by
  intro result hresult
  obtain ⟨a, ha, heq⟩ := Option.map_eq_some_iff.mp hresult
  exact Option.map_eq_some_iff.mpr ⟨a, hfirst a ha, heq⟩

theorem ite {test : Prop} [Decidable test] {first first' second second' : Option A}
    (hthen : DefinedBelow first first') (helse : DefinedBelow second second') :
    DefinedBelow (if test then first else second) (if test then first' else second') := by
  split
  · exact hthen
  · exact helse

end DefinedBelow

end RedisDB.Library
