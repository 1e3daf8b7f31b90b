import Mathlib.Data.List.Induction

/-!
# Histories and systems of components

A history lists the calls a component was given with what it answered.  A system
hosts components under indices: each of its calls is a call of one of them, or of
none.  However the calls of the components are interleaved, what a component has
done by itself is a history of it, so what holds of every history of one component
holds of all the components of a system at once.
-/

namespace RedisDB.Library

section Histories

variable {State Call Answer : Type*}

/-- The calls of the history, made one after the other, are answered as it says. -/
def Ran (step : State → Call → Option (State × Answer)) :
    State → List (Call × Answer) → State → Prop
  | state, [], last => last = state
  | state, (call, answer) :: history, last =>
      ∃ next, step state call = some (next, answer) ∧ Ran step next history last

variable {step : State → Call → Option (State × Answer)}

/-- A history can be cut anywhere. -/
theorem ran_append_iff {state last : State} {first second : List (Call × Answer)} :
    Ran step state (first ++ second) last ↔
      ∃ middle, Ran step state first middle ∧ Ran step middle second last := by
  induction first generalizing state with
  | nil => simp [Ran]
  | cons entry first ih =>
      obtain ⟨call, answer⟩ := entry
      simp only [List.cons_append, Ran, ih]
      constructor
      · rintro ⟨next, hstep, middle, hfirst, hsecond⟩
        exact ⟨middle, ⟨next, hstep, hfirst⟩, hsecond⟩
      · rintro ⟨middle, ⟨next, hstep, hfirst⟩, hsecond⟩
        exact ⟨next, hstep, middle, hfirst, hsecond⟩

/-- A relation between the state and the history so far that every call keeps. -/
theorem Ran.invariant {Rel : State → List (Call × Answer) → Prop}
    (hkeep : ∀ state call next answer before, Rel state before →
      step state call = some (next, answer) → Rel next (before ++ [(call, answer)]))
    {state last : State} {history : List (Call × Answer)} (hstart : Rel state [])
    (hran : Ran step state history last) : Rel last history := by
  induction history using List.reverseRecOn generalizing last with
  | nil =>
      cases hran
      exact hstart
  | append_singleton before entry ih =>
      obtain ⟨call, answer⟩ := entry
      obtain ⟨middle, hbefore, next, hstep, hlast⟩ := ran_append_iff.mp hran
      cases hlast
      exact hkeep _ _ _ _ _ (ih hbefore) hstep

end Histories

section Hosting

variable {System SystemCall SystemAnswer State Call Answer Index : Type*}

/-- The system hosts components: `component` finds them, `target` says which of them
a call of the system is a call of, and `output` what that component answers.  A
component that was not there before is a new one. -/
structure Hosts (run : System → SystemCall → Option (System × SystemAnswer))
    (step : State → Call → Option (State × Answer)) (component : System → Index → Option State)
    (target : SystemCall → Option (Index × Call)) (output : SystemAnswer → Answer)
    (New : State → Prop) : Prop where
  step_target : ∀ system call next answer index request,
    run system call = some (next, answer) → target call = some (index, request) →
      ∃ before after, component system index = some before ∧
        step before request = some (after, output answer) ∧
        component next index = some after
  step_other : ∀ system call next answer index,
    run system call = some (next, answer) →
      (∀ request, target call ≠ some (index, request)) →
        component next index = component system index ∨
          component system index = none ∧ ∃ new, component next index = some new ∧ New new

variable [DecidableEq Index]

/-- What a history of the system is for one component. -/
def historyOf (target : SystemCall → Option (Index × Call)) (output : SystemAnswer → Answer)
    (index : Index) : List (SystemCall × SystemAnswer) → List (Call × Answer)
  | [] => []
  | (call, answer) :: history =>
      match target call with
      | some (place, request) =>
          if place = index then (request, output answer) :: historyOf target output index history
          else historyOf target output index history
      | none => historyOf target output index history

variable {run : System → SystemCall → Option (System × SystemAnswer)}
  {step : State → Call → Option (State × Answer)} {component : System → Index → Option State}
  {target : SystemCall → Option (Index × Call)} {output : SystemAnswer → Answer}
  {New : State → Prop}

theorem historyOf_cons_of_eq {call : SystemCall} {answer : SystemAnswer} {index : Index}
    {request : Call} (history : List (SystemCall × SystemAnswer))
    (htarget : target call = some (index, request)) :
    historyOf target output index ((call, answer) :: history) =
      (request, output answer) :: historyOf target output index history := by
  rw [historyOf, htarget]
  exact if_pos rfl

theorem historyOf_cons_of_ne {call : SystemCall} {answer : SystemAnswer} {index : Index}
    (history : List (SystemCall × SystemAnswer))
    (hother : ∀ request, target call ≠ some (index, request)) :
    historyOf target output index ((call, answer) :: history) =
      historyOf target output index history := by
  rw [historyOf]
  split
  next place request htarget =>
    rw [if_neg]
    rintro rfl
    exact hother request htarget
  next => rfl

/-- In every history of the system each component has a history of its own, which starts
where the component was or when it was new. -/
theorem Hosts.ran (hhosts : Hosts run step component target output New)
    {system last : System} {history : List (SystemCall × SystemAnswer)}
    (hran : Ran run system history last) {index : Index} {after : State}
    (hafter : component last index = some after) :
    ∃ before, (component system index = some before ∨
        component system index = none ∧ New before) ∧
      Ran step before (historyOf target output index history) after := by
  induction history generalizing system with
  | nil =>
      cases hran
      exact ⟨after, Or.inl hafter, rfl⟩
  | cons entry history ih =>
      obtain ⟨call, answer⟩ := entry
      obtain ⟨next, hrun, htail⟩ := hran
      obtain ⟨middle, hmiddle, hlater⟩ := ih htail
      by_cases htarget : ∃ request, target call = some (index, request)
      · obtain ⟨request, htarget⟩ := htarget
        obtain ⟨before, now, hbefore, hstep, hnow⟩ :=
          hhosts.step_target _ _ _ _ _ _ hrun htarget
        rw [historyOf_cons_of_eq history htarget]
        obtain rfl : middle = now := by simpa [hnow, eq_comm] using hmiddle
        exact ⟨before, Or.inl hbefore, middle, hstep, hlater⟩
      · have hother : ∀ request, target call ≠ some (index, request) :=
          fun request heq => htarget ⟨request, heq⟩
        rw [historyOf_cons_of_ne history hother]
        refine ⟨middle, ?_, hlater⟩
        rcases hhosts.step_other _ _ _ _ index hrun hother with hsame | ⟨hnone, new, hnew, hborn⟩
        · rwa [← hsame]
        · obtain rfl : middle = new := by simpa [hnew, eq_comm] using hmiddle
          exact Or.inr ⟨hnone, hborn⟩

end Hosting

end RedisDB.Library
