import Mathlib.Data.List.Basic
import RedisDB.Library.Definedness

/-!
# Deterministic machines with calls and answers

A machine takes one call at a time and either answers in a new state or does
not return.  The module holds the rules a development about such a component
needs: reachability and its invariant rule, runs over lists of calls, runs all
of whose calls meet a condition, and simulation by a total reference machine.
-/

namespace RedisDB.Library

universe u v w

/-- A call on a state answers in a new state, or `none`: the call never returns. -/
structure Machine (State : Type u) (Call : Type v) (Answer : Type w) where
  init : State
  step : State → Call → Option (State × Answer)

namespace Machine

variable {State : Type u} {Call : Type v} {Answer : Type w}

/-- The states some finite sequence of returning calls leads to. -/
inductive Reachable (machine : Machine State Call Answer) : State → Prop where
  | init : Reachable machine machine.init
  | step {state next : State} {call : Call} {answer : Answer}
      (hreach : Reachable machine state)
      (hstep : machine.step state call = some (next, answer)) :
      Reachable machine next

/-- What holds at first and is kept by every returning call holds in every reachable state. -/
theorem Reachable.invariant {machine : Machine State Call Answer} {Inv : State → Prop}
    (hinit : Inv machine.init)
    (hkeep : ∀ state call next answer, Inv state →
      machine.step state call = some (next, answer) → Inv next)
    {state : State} (hreach : machine.Reachable state) : Inv state := by
  induction hreach with
  | init => exact hinit
  | step hprior hstep ih => exact hkeep _ _ _ _ ih hstep

/-- The final state and the answers of a list of calls made one after the other. -/
def run (machine : Machine State Call Answer) :
    State → List Call → Option (State × List Answer)
  | state, [] => some (state, [])
  | state, call :: rest =>
      match machine.step state call with
      | none => none
      | some (next, answer) =>
          match machine.run next rest with
          | none => none
          | some (last, answers) => some (last, answer :: answers)

/-- A run of a nonempty list is its first call and the run of the rest. -/
theorem run_cons_eq_some {machine : Machine State Call Answer} {state last : State}
    {call : Call} {rest : List Call} {answers : List Answer} :
    machine.run state (call :: rest) = some (last, answers) ↔
      ∃ next answer tail, machine.step state call = some (next, answer) ∧
        machine.run next rest = some (last, tail) ∧ answers = answer :: tail := by
  constructor
  · intro hrun
    rw [run] at hrun
    cases hstep : machine.step state call with
    | none => rw [hstep] at hrun; cases hrun
    | some first =>
        obtain ⟨next, answer⟩ := first
        rw [hstep] at hrun
        dsimp only at hrun
        cases htail : machine.run next rest with
        | none => rw [htail] at hrun; cases hrun
        | some second =>
            obtain ⟨final, tail⟩ := second
            rw [htail] at hrun
            cases hrun
            exact ⟨next, answer, tail, rfl, htail, rfl⟩
  · rintro ⟨next, answer, tail, hstep, htail, rfl⟩
    simp [run, hstep, htail]

/-- Steps that return only what those of another machine return make such runs. -/
theorem run_below {machine machine' : Machine State Call Answer}
    (hstep : ∀ state call, DefinedBelow (machine.step state call) (machine'.step state call))
    (state : State) (calls : List Call) :
    DefinedBelow (machine.run state calls) (machine'.run state calls) := by
  rintro ⟨last, answers⟩ hrun
  induction calls generalizing state answers with
  | nil => exact hrun
  | cons call rest ih =>
      obtain ⟨next, answer, tail, hfirst, htail, rfl⟩ := run_cons_eq_some.mp hrun
      exact run_cons_eq_some.mpr
        ⟨next, answer, tail, hstep state call _ hfirst, ih next tail htail, rfl⟩

/-- A run goes on with one more call. -/
theorem run_concat {machine : Machine State Call Answer} {state middle last : State}
    {calls : List Call} {call : Call} {answers : List Answer} {answer : Answer}
    (hrun : machine.run state calls = some (middle, answers))
    (hstep : machine.step middle call = some (last, answer)) :
    machine.run state (calls ++ [call]) = some (last, answers ++ [answer]) := by
  induction calls generalizing state answers with
  | nil =>
      cases hrun
      exact run_cons_eq_some.mpr ⟨last, answer, [], hstep, rfl, rfl⟩
  | cons first rest ih =>
      obtain ⟨next, given, tail, hfirst, htail, rfl⟩ := run_cons_eq_some.mp hrun
      exact run_cons_eq_some.mpr ⟨next, given, tail ++ [answer], hfirst, ih htail, rfl⟩

/-- A run in which a given answer is given, cut at the call it answers. -/
theorem run_eq_append {machine : Machine State Call Answer} {earlier later : List Answer}
    {answer : Answer} {calls : List Call} {state last : State}
    (hrun : machine.run state calls = some (last, earlier ++ answer :: later)) :
    ∃ before call after middle next, calls = before ++ call :: after ∧
      machine.run state before = some (middle, earlier) ∧
      machine.step middle call = some (next, answer) ∧
      machine.run next after = some (last, later) := by
  induction earlier generalizing calls state with
  | nil =>
      cases calls with
      | nil => cases hrun
      | cons call rest =>
          obtain ⟨next, answer', tail, hstep, htail, heq⟩ := run_cons_eq_some.mp hrun
          cases heq
          exact ⟨[], call, rest, state, next, rfl, rfl, hstep, htail⟩
  | cons first earlier ih =>
      cases calls with
      | nil => cases hrun
      | cons call rest =>
          obtain ⟨next, answer', tail, hstep, htail, heq⟩ := run_cons_eq_some.mp hrun
          cases heq
          obtain ⟨before, call', after, middle, next', rfl, hbefore, hcall, hafter⟩ := ih htail
          exact ⟨call :: before, call', after, middle, next', rfl,
            run_cons_eq_some.mpr ⟨next, _, _, hstep, hbefore, rfl⟩, hcall, hafter⟩

/-- An invariant of the calls is kept by whole runs. -/
theorem run_invariant {machine : Machine State Call Answer} {Inv : State → Prop}
    (hkeep : ∀ state call next answer, Inv state →
      machine.step state call = some (next, answer) → Inv next)
    {calls : List Call} {state last : State} {answers : List Answer}
    (hstate : Inv state) (hrun : machine.run state calls = some (last, answers)) :
    Inv last := by
  induction calls generalizing state answers with
  | nil => cases hrun; exact hstate
  | cons call rest ih =>
      obtain ⟨next, answer, tail, hstep, htail, rfl⟩ := run_cons_eq_some.mp hrun
      exact ih (hkeep _ _ _ _ hstate hstep) htail

/-- A run from a reachable state ends in one. -/
theorem Reachable.run {machine : Machine State Call Answer} {calls : List Call}
    {state last : State} {answers : List Answer} (hreach : machine.Reachable state)
    (hrun : machine.run state calls = some (last, answers)) : machine.Reachable last :=
  run_invariant (fun _ _ _ _ hprior hstep => hprior.step hstep) hreach hrun

/-- The state to which calls that all return lead from the initial one. -/
def stateAfter (machine : Machine State Call Answer) (calls : List Call)
    (hreturns : (machine.run machine.init calls).isSome = true) : State :=
  ((machine.run machine.init calls).get hreturns).1

theorem reachable_stateAfter (machine : Machine State Call Answer) (calls : List Call)
    (hreturns : (machine.run machine.init calls).isSome = true) :
    machine.Reachable (machine.stateAfter calls hreturns) :=
  Reachable.init.run (Option.some_get hreturns).symm

/-! ## Runs whose calls meet a condition -/

/-- Every call of the run is made in a state in which it meets the condition. -/
def Along (machine : Machine State Call Answer) (Meets : State → Call → Prop) :
    State → List Call → Prop
  | _, [] => True
  | state, call :: rest =>
      Meets state call ∧
        ∀ next answer, machine.step state call = some (next, answer) →
          machine.Along Meets next rest

/-- The condition on a whole run can be evaluated. -/
instance decidableAlong (machine : Machine State Call Answer) (Meets : State → Call → Prop)
    [∀ state call, Decidable (Meets state call)] :
    (state : State) → (calls : List Call) → Decidable (machine.Along Meets state calls)
  | _, [] => .isTrue trivial
  | state, call :: rest =>
      match hstep : machine.step state call with
      | none => decidable_of_iff (Meets state call) (by simp [Along, hstep])
      | some (next, answer) =>
          have := decidableAlong machine Meets next rest
          decidable_of_iff (Meets state call ∧ machine.Along Meets next rest) (by
            simp only [Along, hstep, Option.some.injEq, Prod.mk.injEq]
            exact and_congr_right fun _ =>
              ⟨fun hrest _ _ heq => heq.1 ▸ hrest, fun hrest => hrest _ _ ⟨rfl, rfl⟩⟩)

/-- What every call that meets the condition keeps holds where a run of such calls ends. -/
theorem Along.invariant {machine : Machine State Call Answer} {Meets : State → Call → Prop}
    {Inv : State → Prop}
    (hkeep : ∀ state call next answer, Inv state → Meets state call →
      machine.step state call = some (next, answer) → Inv next)
    {calls : List Call} {state last : State} {answers : List Answer} (hstate : Inv state)
    (halong : machine.Along Meets state calls)
    (hrun : machine.run state calls = some (last, answers)) : Inv last := by
  induction calls generalizing state answers with
  | nil => cases hrun; exact hstate
  | cons call rest ih =>
      obtain ⟨next, answer, tail, hstep, htail, rfl⟩ := run_cons_eq_some.mp hrun
      exact ih (hkeep _ _ _ _ hstate halong.1 hstep) (halong.2 _ _ hstep) htail

/-- A condition on the calls alone holds along every run of them. -/
theorem along_of_forall {machine : Machine State Call Answer} {Allowed : Call → Prop}
    {calls : List Call} (hcalls : ∀ call ∈ calls, Allowed call) (state : State) :
    machine.Along (fun _ call => Allowed call) state calls := by
  induction calls generalizing state with
  | nil => trivial
  | cons call rest ih =>
      obtain ⟨hcall, hrest⟩ := List.forall_mem_cons.mp hcalls
      exact ⟨hcall, fun next _ _ => ih hrest next⟩

/-- The property holds in every state the run goes through, the first one included. -/
def Throughout (machine : Machine State Call Answer) (Holds : State → Prop) :
    State → List Call → Prop
  | state, [] => Holds state
  | state, call :: rest =>
      Holds state ∧
        ∀ next answer, machine.step state call = some (next, answer) →
          machine.Throughout Holds next rest

theorem Throughout.first {machine : Machine State Call Answer} {Holds : State → Prop}
    {state : State} {calls : List Call}
    (hall : machine.Throughout Holds state calls) : Holds state := by
  cases calls with
  | nil => exact hall
  | cons call rest => exact hall.1

/-- Where the condition on a call decides whether a property survives it, the
condition on a whole run decides whether the property holds throughout. -/
theorem throughout_iff_along {machine : Machine State Call Answer}
    {Inv Holds : State → Prop} {Meets : State → Call → Prop}
    (hkeep : ∀ state call next answer, Inv state →
      machine.step state call = some (next, answer) → Inv next)
    (hdecides : ∀ state call next answer, Inv state → Holds state →
      machine.step state call = some (next, answer) →
        (Holds next ↔ Meets state call))
    {calls : List Call} {state last : State} {answers : List Answer}
    (hinv : Inv state) (hholds : Holds state)
    (hrun : machine.run state calls = some (last, answers)) :
    machine.Throughout Holds state calls ↔ machine.Along Meets state calls := by
  induction calls generalizing state answers with
  | nil => exact ⟨fun _ => trivial, fun _ => hholds⟩
  | cons call rest ih =>
      obtain ⟨next, answer, tail, hstep, htail, rfl⟩ := run_cons_eq_some.mp hrun
      have hnextInv := hkeep _ _ _ _ hinv hstep
      have hiff := hdecides _ _ _ _ hinv hholds hstep
      constructor
      · rintro ⟨_, hrest⟩
        have hall := hrest next answer hstep
        refine ⟨hiff.mp hall.first, fun other answer' hother => ?_⟩
        cases hstep.symm.trans hother
        exact (ih hnextInv hall.first htail).mp hall
      · rintro ⟨hmeets, hrest⟩
        refine ⟨hholds, fun other answer' hother => ?_⟩
        cases hstep.symm.trans hother
        exact (ih hnextInv (hiff.mpr hmeets) htail).mpr (hrest next answer hstep)

/-! ## Simulation by a reference machine -/

variable {Reference : Type*}

/-- The answers of a total reference machine to a list of calls. -/
def refRun (step : Reference → Call → Reference × Answer) :
    Reference → List Call → List Answer
  | _, [] => []
  | reference, call :: rest =>
      (step reference call).2 :: refRun step (step reference call).1 rest

/-- The state in which a list of calls leaves a reference machine. -/
def refState (step : Reference → Call → Reference × Answer) :
    Reference → List Call → Reference
  | reference, [] => reference
  | reference, call :: rest => refState step (step reference call).1 rest

/-- Calls a reference machine does not tell apart have the same answers and lead to the
same states. -/
theorem refRun_congr {Name : Type*} {step : Reference → Call → Reference × Answer}
    (name : Call → Name)
    (hstep : ∀ reference call call', name call = name call' →
      step reference call = step reference call')
    (reference : Reference) {calls calls' : List Call}
    (hnames : calls.map name = calls'.map name) :
    refRun step reference calls = refRun step reference calls' ∧
      refState step reference calls = refState step reference calls' := by
  induction calls generalizing calls' reference with
  | nil =>
      obtain rfl : calls' = [] := List.map_eq_nil_iff.mp hnames.symm
      exact ⟨rfl, rfl⟩
  | cons call rest ih =>
      cases calls' with
      | nil => cases hnames
      | cons call' rest' =>
          obtain ⟨hhead, htail⟩ := List.cons.inj hnames
          obtain ⟨hrun, hstate⟩ := ih (step reference call).1 htail
          rw [refRun, refRun, refState, refState, hrun, hstate,
            hstep reference call call' hhead]
          exact ⟨rfl, rfl⟩

/-- Every call of the reference run is one the reference admits. -/
def RefAdmits (step : Reference → Call → Reference × Answer)
    (Admits : Reference → Call → Prop) : Reference → List Call → Prop
  | _, [] => True
  | reference, call :: rest =>
      Admits reference call ∧ RefAdmits step Admits (step reference call).1 rest

instance decidableRefAdmits (step : Reference → Call → Reference × Answer)
    (Admits : Reference → Call → Prop)
    [∀ reference call, Decidable (Admits reference call)] :
    (reference : Reference) → (calls : List Call) →
      Decidable (RefAdmits step Admits reference calls)
  | _, [] => .isTrue trivial
  | reference, call :: rest =>
      have := decidableRefAdmits step Admits (step reference call).1 rest
      inferInstanceAs (Decidable (Admits reference call ∧ _))

theorem refAdmits_of_forall {step : Reference → Call → Reference × Answer}
    {Admits : Reference → Call → Prop} (hall : ∀ reference call, Admits reference call)
    (reference : Reference) (calls : List Call) : RefAdmits step Admits reference calls := by
  induction calls generalizing reference with
  | nil => trivial
  | cons call rest ih => exact ⟨hall reference call, ih _⟩

/-- Calls that neither the reference machine nor the condition tells apart are admitted
alike. -/
theorem refAdmits_congr {Name : Type*} {step : Reference → Call → Reference × Answer}
    {Admits : Reference → Call → Prop} (name : Call → Name)
    (hstep : ∀ reference call call', name call = name call' →
      step reference call = step reference call' ∧
        (Admits reference call → Admits reference call'))
    {reference : Reference} {calls calls' : List Call}
    (hnames : calls.map name = calls'.map name)
    (hadmits : RefAdmits step Admits reference calls) :
    RefAdmits step Admits reference calls' := by
  induction calls generalizing calls' reference with
  | nil =>
      obtain rfl : calls' = [] := List.map_eq_nil_iff.mp hnames.symm
      trivial
  | cons call rest ih =>
      cases calls' with
      | nil => cases hnames
      | cons call' rest' =>
          obtain ⟨hhead, htail⟩ := List.cons.inj hnames
          obtain ⟨hsame, hcall⟩ := hstep reference call call' hhead
          exact ⟨hcall hadmits.1, ih htail (hsame ▸ hadmits.2)⟩

/-- A relation every admitted call keeps, with equal answers, makes whole runs agree. -/
theorem run_eq_refRun {machine : Machine State Call Answer}
    {refStep : Reference → Call → Reference × Answer}
    {Admits : Reference → Call → Prop} {Meets : State → Call → Prop}
    {Rel : State → Reference → Prop}
    (hsim : ∀ state reference call, Rel state reference → Admits reference call →
      Meets state call →
        ∃ next, machine.step state call = some (next, (refStep reference call).2) ∧
          Rel next (refStep reference call).1)
    {calls : List Call} {state : State} {reference : Reference}
    (hrel : Rel state reference) (hadmits : RefAdmits refStep Admits reference calls)
    (hmeets : machine.Along Meets state calls) :
    ∃ last, machine.run state calls = some (last, refRun refStep reference calls) ∧
      Rel last (refState refStep reference calls) := by
  induction calls generalizing state reference with
  | nil => exact ⟨state, rfl, hrel⟩
  | cons call rest ih =>
      obtain ⟨next, hstep, hnext⟩ := hsim _ _ _ hrel hadmits.1 hmeets.1
      obtain ⟨last, hlast, hend⟩ := ih hnext hadmits.2 (hmeets.2 _ _ hstep)
      exact ⟨last, run_cons_eq_some.mpr ⟨next, _, _, hstep, hlast, rfl⟩, hend⟩

/-- The same when only the reference has a say in which calls are admitted. -/
theorem run_simulates {machine : Machine State Call Answer}
    {refStep : Reference → Call → Reference × Answer} {Admits : Reference → Call → Prop}
    {Rel : State → Reference → Prop}
    (hsim : ∀ state reference call, Rel state reference → Admits reference call →
      ∃ next, machine.step state call = some (next, (refStep reference call).2) ∧
        Rel next (refStep reference call).1)
    {calls : List Call} {state : State} {reference : Reference} (hrel : Rel state reference)
    (hadmits : RefAdmits refStep Admits reference calls) :
    ∃ last, machine.run state calls = some (last, refRun refStep reference calls) ∧
      Rel last (refState refStep reference calls) := by
  have hmeets : machine.Along (fun _ _ => True) state calls :=
    along_of_forall (fun _ _ => trivial) state
  exact run_eq_refRun (fun _ _ _ hrel hadmits _ => hsim _ _ _ hrel hadmits) hrel hadmits hmeets

/-- Where a call that is not admitted does not return, a run that returns makes admitted
calls only. -/
theorem refAdmits_of_run {machine : Machine State Call Answer}
    {refStep : Reference → Call → Reference × Answer} {Admits : Reference → Call → Prop}
    {Rel : State → Reference → Prop}
    (hsim : ∀ state reference call, Rel state reference → Admits reference call →
      ∃ next, machine.step state call = some (next, (refStep reference call).2) ∧
        Rel next (refStep reference call).1)
    (hreturns : ∀ state reference call result, Rel state reference →
      machine.step state call = some result → Admits reference call)
    {calls : List Call} {state last : State} {answers : List Answer} {reference : Reference}
    (hrel : Rel state reference) (hrun : machine.run state calls = some (last, answers)) :
    RefAdmits refStep Admits reference calls := by
  induction calls generalizing state reference answers with
  | nil => trivial
  | cons call rest ih =>
      obtain ⟨next, answer, tail, hstep, htail, rfl⟩ := run_cons_eq_some.mp hrun
      have hadmits := hreturns _ _ _ _ hrel hstep
      obtain ⟨next', hstep', hnext⟩ := hsim _ _ _ hrel hadmits
      cases hstep.symm.trans hstep'
      exact ⟨hadmits, ih hnext htail⟩

end Machine

end RedisDB.Library
