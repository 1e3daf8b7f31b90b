import RedisDB.ThreadPool.Effects

/-!
# No lost wakeup

Each push notifies once.  While a consumer sleeps, every queued value has a woken
consumer that has not yet taken the lock: a value that a fresh consumer or a
`tryPop` takes leaves one too many, and a woken consumer goes back to sleep only
on an empty queue.
-/

namespace RedisDB

open RedisDB.Library

variable {T Thread : Type} [DecidableEq Thread]

/-- Every effect keeps the queued values covered by woken consumers. -/
theorem ConcurrentQueueWithLock.Effect.covers {q next : ConcurrentQueueWithLock T Thread}
    {limited : Bool} {outcome : Outcome T} (heffect : Effect q next limited outcome)
    (hcovers : q.mCond.Covers q.mData.length) : next.mCond.Covers next.mData.length := by
  cases heffect with
  | push value notified _ hdata _ hcond =>
      rw [hdata, List.length_append, List.length_singleton]
      exact hcovers.notifyOne hcond
  | remove _ value _ _ hdata _ hcond =>
      rw [hdata, List.length_cons] at hcovers
      rcases hcond with hsame | ⟨t, ht, hrelock⟩
      · rw [hsame]
        exact hcovers.take
      · rw [hrelock]
        exact hcovers.relock ht
  | sleep _ hnext =>
      rw [hnext]
      exact CondVar.covers_zero _
  | wake t ht hdata _ hcond =>
      rw [hdata, hcond]
      exact hcovers.wake ht
  | setLimit hdata hcond =>
      rw [hdata, hcond]
      exact hcovers
  | quiet _ _ _ hnext =>
      rw [hnext]
      exact hcovers

/-- The values in the queue are covered by woken consumers. -/
def Covered (sys : QueueSystem T Thread) : Prop :=
  sys.queue.mCond.Covers sys.queue.mData.length

theorem step_covered {sys next : QueueSystem T Thread} {sec : Section T Thread}
    {outcome : Outcome T} (hcovered : Covered sys)
    (hstep : sys.step sec = some (next, outcome)) : Covered next :=
  (QueueSystem.step_effect hstep).covers hcovered

theorem reachable_covered {s : Nat} {sys : QueueSystem T Thread}
    (hreach : (queueMachine s).Reachable sys) : Covered sys := by
  induction hreach with
  | init => exact CondVar.covers_zero _
  | step hprior hstep ih => exact step_covered ih hstep

/-- In every reachable state in which a consumer sleeps there are at most as many queued
values as woken consumers.  So no value is queued while a consumer sleeps and none is woken. -/
theorem no_lost_wakeup (s : Nat) (sys : QueueSystem T Thread)
    (hreach : (queueMachine s).Reachable sys) :
    (sys.queue.mCond.sleeping.Nonempty →
      sys.queue.mData.length ≤ sys.queue.mCond.woken.card) ∧
    ¬ (sys.queue.mData ≠ [] ∧ sys.queue.mCond.sleeping.Nonempty ∧
      sys.queue.mCond.woken = ∅) := by
  have hcovered := reachable_covered hreach
  refine ⟨hcovered, ?_⟩
  rintro ⟨hdata, hsleeping, hwoken⟩
  have hle := hcovered hsleeping
  rw [hwoken, Finset.card_empty] at hle
  exact hdata (List.eq_nil_of_length_eq_zero (Nat.le_zero.mp hle))

/-- Two consumers sleep and a push wakes one of them. -/
def twoConsumers : List (Section Nat Nat) :=
  [.waitPop 2, .waitPop 3, .tryPush 0 7 (some 2)]

theorem no_lost_wakeup_two_consumers :
    ((queueMachine 5).stateAfter twoConsumers (by decide)).queue.mData.length ≤
      ((queueMachine 5).stateAfter twoConsumers (by decide)).queue.mCond.woken.card :=
  (no_lost_wakeup 5 _ (Machine.reachable_stateAfter _ twoConsumers (by decide))).1 (by decide)

end RedisDB
