import Mathlib.Order.Basic

/-!
# The C++ type `int`

A result that an integer type cannot hold overflows, which is undefined, so such an
operation has no result.  The type is a parameter of the code that counts with it: at a
type that holds every integer the same code counts exactly.
-/

namespace RedisDB

/-- The largest value of the C++ type `int`. -/
def INT_MAX : Nat := 2147483647

/-- A signed integer type, by the values it holds. -/
structure IntType where
  holds : Int → Bool

namespace IntType

/-- The result of an arithmetic operation, `none` when it overflows. -/
def eval (type : IntType) (value : Int) : Option Int :=
  if type.holds value then some value else none

/-- The type `int`, of 32 bits. -/
def int32 : IntType :=
  ⟨fun value => -(INT_MAX : Int) - 1 ≤ value ∧ value ≤ INT_MAX⟩

/-- The integers, without a bound. -/
def unbounded : IntType :=
  ⟨fun _ => true⟩

/-- The values that counters up to `limit` take, `-1` included. -/
def HoldsUpTo (type : IntType) (limit : Nat) : Prop :=
  ∀ value : Int, -1 ≤ value → value ≤ limit → type.holds value = true

variable {type : IntType} {limit : Nat} {value result : Int}

@[simp]
theorem unbounded_eval (value : Int) : unbounded.eval value = some value := rfl

theorem eval_eq_some :
    type.eval value = some result ↔ type.holds value = true ∧ value = result := by
  rw [eval, Option.ite_none_right_eq_some, Option.some.injEq]

theorem unbounded_holdsUpTo (limit : Nat) : unbounded.HoldsUpTo limit := fun _ _ _ => rfl

theorem le_of_int32_holds (hholds : int32.holds value = true) : value ≤ INT_MAX :=
  (of_decide_eq_true hholds).2

theorem int32_holdsUpTo : int32.HoldsUpTo INT_MAX := by
  intro value hlow hhigh
  exact decide_eq_true ⟨by omega, hhigh⟩

theorem HoldsUpTo.eval (hholds : type.HoldsUpTo limit) (hlow : -1 ≤ value)
    (hhigh : value ≤ limit) : type.eval value = some value :=
  eval_eq_some.mpr ⟨hholds value hlow hhigh, rfl⟩

end IntType

end RedisDB
