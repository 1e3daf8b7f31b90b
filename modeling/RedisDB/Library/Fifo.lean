import RedisDB.Library.Machine

/-!
# First in, first out

A machine has contents, and its answers tell which value a call added or took.
When every call adds at the back and takes from the front, the values added in a
run are the values taken followed by what is left.
-/

namespace RedisDB.Library

universe u v w

/-- The contents of a machine's states, and the value an answer says was pushed or popped. -/
structure Fifo (State : Type u) (Answer : Type v) (T : Type w) where
  contents : State → List T
  pushed : Answer → Option T
  popped : Answer → Option T

namespace Fifo

variable {State Call Answer T : Type*} {fifo : Fifo State Answer T}
  {machine : Machine State Call Answer}

/-- The values pushed by a sequence of answered calls. -/
def pushes (fifo : Fifo State Answer T) (answers : List Answer) : List T :=
  answers.filterMap fifo.pushed

def pops (fifo : Fifo State Answer T) (answers : List Answer) : List T :=
  answers.filterMap fifo.popped

theorem filterMap_cons_toList {A B : Type*} (f : A → Option B) (a : A) (l : List A) :
    (a :: l).filterMap f = (f a).toList ++ l.filterMap f := by
  rw [List.filterMap_cons]
  cases f a <;> rfl

theorem pushes_cons (answer : Answer) (answers : List Answer) :
    fifo.pushes (answer :: answers) = (fifo.pushed answer).toList ++ fifo.pushes answers :=
  filterMap_cons_toList _ _ _

theorem pops_cons (answer : Answer) (answers : List Answer) :
    fifo.pops (answer :: answers) = (fifo.popped answer).toList ++ fifo.pops answers :=
  filterMap_cons_toList _ _ _

/-- Every call adds at the back what it pushes and takes from the front what it pops. -/
def Serves (fifo : Fifo State Answer T) (machine : Machine State Call Answer) : Prop :=
  ∀ state call next answer, machine.step state call = some (next, answer) →
    fifo.contents state ++ (fifo.pushed answer).toList =
      (fifo.popped answer).toList ++ fifo.contents next

/-- What was there and what a run pushes is what it pops and what is left. -/
theorem Serves.run (hserves : fifo.Serves machine) {calls : List Call} {state last : State}
    {answers : List Answer} (hrun : machine.run state calls = some (last, answers)) :
    fifo.contents state ++ fifo.pushes answers = fifo.pops answers ++ fifo.contents last := by
  induction calls generalizing state answers with
  | nil =>
      cases hrun
      simp [pushes, pops]
  | cons call rest ih =>
      obtain ⟨next, answer, tail, hstep, htail, rfl⟩ := Machine.run_cons_eq_some.mp hrun
      have hcall := hserves _ _ _ _ hstep
      have hrest := ih htail
      calc fifo.contents state ++ fifo.pushes (answer :: tail)
          = fifo.contents state ++ (fifo.pushed answer).toList ++ fifo.pushes tail := by
            rw [pushes_cons, List.append_assoc]
        _ = (fifo.popped answer).toList ++ (fifo.contents next ++ fifo.pushes tail) := by
            rw [hcall, List.append_assoc]
        _ = fifo.pops (answer :: tail) ++ fifo.contents last := by
            rw [hrest, pops_cons, List.append_assoc]

/-- In a run that starts empty the value popped after `j` others is the value pushed after
`j` others, and it was pushed before. -/
theorem Serves.popped_eq (hserves : fifo.Serves machine) {calls : List Call}
    {state last : State} (hempty : fifo.contents state = []) {earlier later : List Answer}
    {answer : Answer} {value : T} (hpopped : fifo.popped answer = some value)
    (hpushed : fifo.pushed answer = none)
    (hrun : machine.run state calls = some (last, earlier ++ answer :: later)) :
    (fifo.pushes earlier)[(fifo.pops earlier).length]? = some value := by
  obtain ⟨before, call, after, middle, next, -, hbefore, hcall, -⟩ :=
    Machine.run_eq_append hrun
  have hconserved := hserves.run hbefore
  have hstep := hserves _ _ _ _ hcall
  rw [hpushed, hpopped, Option.toList_none, List.append_nil] at hstep
  rw [hempty, List.nil_append, hstep] at hconserved
  rw [hconserved, List.getElem?_append_right (Nat.le_refl _), Nat.sub_self]
  rfl

end Fifo

end RedisDB.Library
