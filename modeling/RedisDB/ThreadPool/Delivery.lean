import RedisDB.ThreadPool.Effects
import RedisDB.Library.Fifo

/-!
# First in, first out and exactly once

The values that were pushed are, in this order, the values that were removed and
those the queue holds, in whatever order the sections of the threads are run.
-/

namespace RedisDB

open RedisDB.Library

variable {T Thread : Type}

/-- The values pushed by the sections of a run, in this order. -/
def pushedValues (outcomes : List (Outcome T)) : List T :=
  outcomes.filterMap Outcome.added

/-- The values removed by the sections of a run, in this order. -/
def removedValues (outcomes : List (Outcome T)) : List T :=
  outcomes.filterMap Outcome.removed

def queueFifo : Fifo (QueueSystem T Thread) (Outcome T) T :=
  ⟨fun sys => sys.queue.mData, Outcome.added, Outcome.removed⟩

/-! ## Runs -/

section Runs

variable [DecidableEq Thread] {sys last : QueueSystem T Thread}
  {schedule : List (Section T Thread)} {outcomes : List (Outcome T)}

theorem queueFifo_serves (s : Nat) :
    (queueFifo : Fifo (QueueSystem T Thread) (Outcome T) T).Serves (queueMachine s) :=
  fun _ _ _ _ hstep => (QueueSystem.step_effect hstep).serves

/-- A limit that is never changed bounds the size in every run. -/
theorem run_bounded (s : Nat) (hschedule : ∀ sec ∈ schedule, sec.setsLimit = false)
    (hrun : (queueMachine s).run (queueMachine s).init schedule = some (sys, outcomes)) :
    sys.queue.mMaxSize = s ∧ sys.queue.mData.length ≤ s := by
  have hkeep : ∀ (sys : QueueSystem T Thread) (sec : Section T Thread)
      (next : QueueSystem T Thread) (outcome : Outcome T),
      sys.queue.mMaxSize = s ∧ sys.queue.mData.length ≤ s → sec.setsLimit = false →
        (queueMachine s).step sys sec = some (next, outcome) →
          next.queue.mMaxSize = s ∧ next.queue.mData.length ≤ s := by
    rintro sys sec next outcome ⟨hlimit, hsize⟩ hsec hstep
    have heffect := QueueSystem.step_effect hstep
    have hle := heffect.size_le
    rw [hsec] at heffect
    exact ⟨heffect.limit_eq.trans hlimit, by omega⟩
  refine Machine.Along.invariant hkeep ?_ (Machine.along_of_forall hschedule _) hrun
  exact ⟨rfl, Nat.zero_le s⟩

/-- In a run that finds the queue never below its limit the size does not grow. -/
theorem run_size_le (s : Nat)
    (hfull : (queueMachine s).Along
      (fun sys _ => sys.queue.mMaxSize ≤ sys.queue.mData.length) sys schedule)
    (hrun : (queueMachine s).run sys schedule = some (last, outcomes)) :
    last.queue.mData.length ≤ sys.queue.mData.length := by
  have hkeep : ∀ (mid : QueueSystem T Thread) (sec : Section T Thread)
      (next : QueueSystem T Thread) (outcome : Outcome T),
      mid.queue.mData.length ≤ sys.queue.mData.length →
        mid.queue.mMaxSize ≤ mid.queue.mData.length →
          (queueMachine s).step mid sec = some (next, outcome) →
            next.queue.mData.length ≤ sys.queue.mData.length := by
    intro mid sec next outcome hsize hlimit hstep
    have hle := (QueueSystem.step_effect hstep).size_le
    omega
  exact Machine.Along.invariant hkeep (Nat.le_refl _) hfull hrun

/-- The values pushed in any run on a new queue are the values removed, in this order, and
the contents.  A value `waitPop` returns is the pushed value of its number.  What returns
false changes nothing, nothing is removed from an empty queue and nothing pushed at the
limit; so the size stays within a limit that is not changed, and never grows while it is not
below the limit. -/
theorem fifo_delivery (s : Nat) (schedule : List (Section T Thread))
    (sys : QueueSystem T Thread) (outcomes : List (Outcome T))
    (hrun : (queueMachine s).run (queueMachine s).init schedule = some (sys, outcomes)) :
    pushedValues outcomes = removedValues outcomes ++ sys.queue.mData ∧
    (∀ earlier value later, outcomes = earlier ++ .popped value :: later →
      (pushedValues earlier)[(removedValues earlier).length]? = some value) ∧
    (∀ t value notified next, sys.step (.tryPush t value notified) = some (next, .refused) →
      next = sys) ∧
    (∀ t next, sys.step (.tryPop t) = some (next, .nothing) → next = sys) ∧
    (∀ sec next outcome, sys.step sec = some (next, outcome) →
      (∀ value, outcome.removed = some value →
        sys.queue.mData = value :: next.queue.mData) ∧
      ∀ value, outcome.added = some value → sys.queue.mData.length < sys.queue.mMaxSize) ∧
    ((∀ sec ∈ schedule, sec.setsLimit = false) →
      sys.queue.mMaxSize = s ∧ sys.queue.mData.length ≤ s) ∧
    ∀ rest last outcomes', (queueMachine s).run sys rest = some (last, outcomes') →
      (queueMachine s).Along (fun sys _ => sys.queue.mMaxSize ≤ sys.queue.mData.length) sys rest →
        last.queue.mData.length ≤ sys.queue.mData.length := by
  refine ⟨?_, ?_, fun _ _ _ _ => QueueSystem.tryPush_refused,
    fun _ _ => QueueSystem.tryPop_nothing, ?_, ?_, ?_⟩
  · exact (queueFifo_serves s).run hrun
  · rintro earlier value later rfl
    exact (queueFifo_serves s).popped_eq rfl rfl rfl hrun
  · intro sec next outcome hstep
    have heffect := QueueSystem.step_effect hstep
    exact ⟨fun _ => heffect.removed_front, fun _ => heffect.added_room⟩
  · exact fun hschedule => run_bounded s hschedule hrun
  · exact fun _ _ _ hrest hfull => run_size_le s hfull hrest

/-- A consumer sleeps, two producers come and the second spins, the value is handed over and
the second value is left. -/
def handover : List (Section Nat Nat) :=
  [.waitPop 2, .tryPush 0 7 (some 2), .waitPush 1 8 none, .waitPopAgain 2, .waitPushAgain 1 none]

example : ((queueMachine 1).run (queueMachine 1).init handover).map (·.2) =
    some [.sleeps, .pushed 7, .spins, .popped 7, .pushed 8] := by
  decide

theorem fifo_delivery_handover :
    ∃ sys outcomes, (queueMachine 1).run (queueMachine 1).init handover = some (sys, outcomes) ∧
      pushedValues outcomes = removedValues outcomes ++ sys.queue.mData := by
  have hreturns : ((queueMachine 1).run (queueMachine 1).init handover).isSome = true := by
    decide
  obtain ⟨⟨sys, outcomes⟩, hrun⟩ := Option.isSome_iff_exists.mp hreturns
  exact ⟨sys, outcomes, hrun, (fifo_delivery 1 handover sys outcomes hrun).1⟩

end Runs

end RedisDB
