import RedisDB.Library.Machine

/-!
# Productive calls

Some calls, told by their answers, bring a machine nearer to an end: a measure of the
states drops.  However they are chosen, runs of such calls are short, and where an
unsettled state always has another one they can only stop settled.
-/

namespace RedisDB.Library.Machine

universe u v w

variable {State : Type u} {Call : Type v} {Answer : Type w}

/-- The measure drops at every productive call, which keeps the invariant. -/
def Drops (machine : Machine State Call Answer) (Inv : State → Prop)
    (Productive : Call → Answer → Prop) (measure : State → Nat) : Prop :=
  ∀ state call next answer, Inv state → machine.step state call = some (next, answer) →
    Productive call answer → Inv next ∧ measure next < measure state

variable {machine : Machine State Call Answer} {Inv Settled : State → Prop}
  {Productive : Call → Answer → Prop} {measure : State → Nat}

/-- A productive run is no longer than the measure allows. -/
theorem Drops.run (hdrops : machine.Drops Inv Productive measure) {calls : List Call}
    {state last : State} {answers : List Answer} (hstate : Inv state)
    (hrun : machine.run state calls = some (last, answers))
    (hproductive : List.Forall₂ Productive calls answers) :
    Inv last ∧ calls.length + measure last ≤ measure state := by
  induction hproductive generalizing state with
  | nil =>
      cases hrun
      exact ⟨hstate, by simp⟩
  | @cons call answer rest tail hcall _ ih =>
      obtain ⟨next, first, others, hstep, htail, heq⟩ := run_cons_eq_some.mp hrun
      cases heq
      obtain ⟨hnext, hless⟩ := hdrops _ _ _ _ hstate hstep hcall
      obtain ⟨hlast, hlength⟩ := ih hnext htail
      refine ⟨hlast, ?_⟩
      rw [List.length_cons]
      omega

/-- Where unsettled states have a productive call, some productive run ends settled. -/
theorem Drops.exists_run (hdrops : machine.Drops Inv Productive measure)
    (hprogress : ∀ state, Inv state → ¬ Settled state →
      ∃ call next answer, machine.step state call = some (next, answer) ∧ Productive call answer)
    {state : State} (hstate : Inv state) :
    ∃ calls last answers, machine.run state calls = some (last, answers) ∧
      List.Forall₂ Productive calls answers ∧ Settled last := by
  induction hmeasure : measure state using Nat.strongRecOn generalizing state with
  | _ size ih =>
      by_cases hsettled : Settled state
      · exact ⟨[], state, [], rfl, List.Forall₂.nil, hsettled⟩
      · obtain ⟨call, next, answer, hstep, hcall⟩ := hprogress state hstate hsettled
        obtain ⟨hnext, hless⟩ := hdrops _ _ _ _ hstate hstep hcall
        obtain ⟨calls, last, answers, hrun, hrest, hlast⟩ :=
          ih (measure next) (hmeasure ▸ hless) hnext rfl
        exact ⟨call :: calls, last, answer :: answers,
          run_cons_eq_some.mpr ⟨next, answer, answers, hstep, hrun, rfl⟩,
          List.Forall₂.cons hcall hrest, hlast⟩

end RedisDB.Library.Machine
