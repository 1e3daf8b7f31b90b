import Mathlib.Data.List.Basic
import Mathlib.Data.Option.Basic

/-!
# Partial computations that keep a log

A computation leaves events on its way to a result, or to the place where it stops.
Its result is that of the same computation without a log, and a condition on all its
events is shown part by part.
-/

namespace RedisDB.Library

universe u v w

/-- The events of a computation in order, and its result, `none` where it stops. -/
structure Logged (E : Type u) (A : Type v) where
  log : List E
  result : Option A

namespace Logged

section Rules

variable {E : Type u} {A B : Type v} {X : Type w}

/-- A part that leaves no event. -/
def ofOption (part : Option A) : Logged E A := ⟨[], part⟩

/-- A part that leaves one event. -/
def observe (event : E) (part : Option A) : Logged E A := ⟨[event], part⟩

instance : Monad (Logged E) where
  pure a := ofOption (some a)
  bind part next :=
    match part.result with
    | none => ⟨part.log, none⟩
    | some a => ⟨part.log ++ (next a).log, (next a).result⟩

/-- Every event meets the condition. -/
def All (P : E → Prop) (computation : Logged E A) : Prop := ∀ event ∈ computation.log, P event

/-! ## Results -/

@[simp] theorem result_pure (a : A) : (pure a : Logged E A).result = some a := rfl

@[simp] theorem result_ofOption (part : Option A) :
    (ofOption part : Logged E A).result = part := rfl

@[simp] theorem result_observe (event : E) (part : Option A) :
    (observe event part).result = part := rfl

@[simp] theorem result_bind (part : Logged E A) (next : A → Logged E B) :
    (part >>= next).result = part.result.bind fun a => (next a).result := by
  obtain ⟨log, result⟩ := part
  cases result <;> rfl

@[simp] theorem result_ite (test : Prop) [Decidable test] (first second : Logged E A) :
    (if test then first else second).result =
      if test then first.result else second.result :=
  apply_ite result test first second

/-- A loop whose body always goes on computes what it computes without the log. -/
theorem result_foldlM {body : A → X → Logged E A} {plain : A → X → A}
    (hbody : ∀ a x, (body a x).result = some (plain a x)) (xs : List X) (a : A) :
    (xs.foldlM body a).result = some (xs.foldl plain a) := by
  induction xs generalizing a with
  | nil => rfl
  | cons x rest ih => rw [List.foldlM_cons, result_bind, hbody, Option.bind_some, ih]; rfl

/-! ## Conditions on the events -/

variable {P : E → Prop}

theorem All.pure (a : A) : (Pure.pure a : Logged E A).All P :=
  fun _ hevent => absurd hevent List.not_mem_nil

theorem All.ofOption (part : Option A) : (Logged.ofOption part : Logged E A).All P :=
  fun _ hevent => absurd hevent List.not_mem_nil

theorem All.observe {event : E} (hevent : P event) (part : Option A) :
    (Logged.observe event part).All P :=
  List.forall_mem_singleton.mpr hevent

/-- What follows is only asked about the results that reach it. -/
theorem All.bind {part : Logged E A} {next : A → Logged E B} (hpart : part.All P)
    (hnext : ∀ a, part.result = some a → (next a).All P) : (part >>= next).All P := by
  obtain ⟨log, result⟩ := part
  cases result with
  | none => exact hpart
  | some a => exact List.forall_mem_append.mpr ⟨hpart, hnext a rfl⟩

theorem All.ite {test : Prop} [Decidable test] {first second : Logged E A}
    (hfirst : test → first.All P) (hsecond : ¬ test → second.All P) :
    (if test then first else second).All P := by
  split
  · rename_i htest
    exact hfirst htest
  · rename_i htest
    exact hsecond htest

/-- The rule of a loop: its body keeps an invariant that makes the events of a round good. -/
theorem All.foldlM {body : A → X → Logged E A} {Inv : A → Prop}
    (hbody : ∀ a x, Inv a → (body a x).All P ∧ ∀ b, (body a x).result = some b → Inv b)
    (xs : List X) {a : A} (hinit : Inv a) : (xs.foldlM body a).All P := by
  induction xs generalizing a with
  | nil => exact All.pure a
  | cons x rest ih =>
      rw [List.foldlM_cons]
      exact (hbody a x hinit).1.bind fun b hb => ih ((hbody a x hinit).2 b hb)

end Rules

end Logged

end RedisDB.Library
