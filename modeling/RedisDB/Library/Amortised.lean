import Mathlib.Data.Nat.Basic
import Mathlib.Tactic.Ring
import RedisDB.Library.Machine

/-!
# Amortised costs

The calls of a run cost what they cost one by one; a potential of the states bounds
their sum.  A call may use up potential that earlier calls have paid for.
-/

namespace RedisDB.Library.Machine

universe u v w

variable {State : Type u} {Call : Type v} {Answer : Type w}

/-- The costs of the calls of a run, up to one that does not return. -/
def totalCost (machine : Machine State Call Answer) (cost : State → Call → Nat) :
    State → List Call → Nat
  | _, [] => 0
  | state, call :: rest =>
      cost state call +
        match machine.step state call with
        | some (next, _) => machine.totalCost cost next rest
        | none => 0

/-- Every call is paid for by its price and by the potential it takes from the state. -/
def Affordable (machine : Machine State Call Answer) (Inv : State → Prop)
    (cost : State → Call → Nat) (potential : State → Nat) (price : Call → Answer → Nat) : Prop :=
  ∀ state call next answer, Inv state → machine.step state call = some (next, answer) →
    cost state call + potential next ≤ potential state + price call answer

/-- What a whole run costs is paid for by the prices of its calls and the potential at first. -/
theorem totalCost_le {machine : Machine State Call Answer} {Inv : State → Prop}
    {cost : State → Call → Nat} {potential : State → Nat} {price : Call → Answer → Nat}
    (hkeep : ∀ state call next answer, Inv state →
      machine.step state call = some (next, answer) → Inv next)
    (hpaid : machine.Affordable Inv cost potential price) {calls : List Call}
    {state last : State} {answers : List Answer} (hstate : Inv state)
    (hrun : machine.run state calls = some (last, answers)) :
    machine.totalCost cost state calls + potential last ≤
      potential state + (List.zipWith price calls answers).sum := by
  induction calls generalizing state answers with
  | nil =>
      cases hrun
      simp [totalCost]
  | cons call rest ih =>
      obtain ⟨next, answer, tail, hstep, htail, rfl⟩ := run_cons_eq_some.mp hrun
      have hfirst := hpaid _ _ _ _ hstate hstep
      have hrest := ih (hkeep _ _ _ _ hstate hstep) htail
      simp only [totalCost, hstep, List.zipWith_cons_cons, List.sum_cons]
      omega

end RedisDB.Library.Machine
