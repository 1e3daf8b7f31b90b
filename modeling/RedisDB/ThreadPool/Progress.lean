import RedisDB.ThreadPool.Wakeup
import RedisDB.Library.Progress

/-!
# Waiting calls get done

A producer in the loop of `waitPush` and a consumer at `mCond` never wait for each
other.  Whatever calls are resumed and in whatever order, after a bounded number of them
that return nobody waits who could be served.
-/

namespace RedisDB

open RedisDB.Library

variable {T Thread : Type} [DecidableEq Thread]

/-- The section goes on with a call that waits. -/
def Section.resumes : Section T Thread → Bool
  | .waitPushAgain _ _ => true
  | .waitPopAgain _ => true
  | _ => false

/-- The section ends its call with a value handed over. -/
def Outcome.completes : Outcome T → Bool
  | .pushed _ => true
  | .popped _ => true
  | _ => false

/-- A waiting call is resumed and returns. -/
def Resumed (sec : Section T Thread) (outcome : Outcome T) : Prop :=
  sec.resumes = true ∧ outcome.completes = true

namespace QueueSystem

variable {sys next : QueueSystem T Thread} {t : Thread} {outcome : Outcome T}

/-- Nobody waits needlessly: producers wait for a full queue with no consumer, consumers
for an empty queue with no producer. -/
def Settled (sys : QueueSystem T Thread) : Prop :=
  (∀ t, sys.spinning t = none) ∧ (sys.queue.mData = [] ∨ sys.queue.mCond.waiting = 0) ∨
    sys.queue.isFull = true ∧ sys.queue.mCond.waiting = 0

/-- A potential that bounds the calls still to return: two for each waiting consumer, which
on its return may make room for a producer, and the free room. -/
def unserved (sys : QueueSystem T Thread) : Nat :=
  2 * sys.queue.mCond.waiting + (sys.queue.mMaxSize - sys.queue.mData.length)

/-- A producer that returns finds room, adds one value and leaves the waiters as many. -/
theorem waitPushAgain_spec {notified : Option Thread} (hcompletes : outcome.completes = true)
    (hstep : sys.step (.waitPushAgain t notified) = some (next, outcome)) :
    sys.queue.mData.length < sys.queue.mMaxSize ∧
      next.queue.mData.length = sys.queue.mData.length + 1 ∧
      next.queue.mMaxSize = sys.queue.mMaxSize ∧
      next.queue.mCond.waiting = sys.queue.mCond.waiting := by
  obtain ⟨value, -, heq⟩ := Option.bind_eq_some_iff.mp hstep
  obtain ⟨⟨queue, pushed⟩, hpush, heq⟩ := Option.map_eq_some_iff.mp heq
  rcases ConcurrentQueueWithLock.emplaceBelowLimit_cases hpush with ⟨rfl, heffect⟩ | ⟨rfl, rfl⟩
  · cases heq
    cases heffect with
    | push _ _ hroom hdata hlimit hcond =>
        refine ⟨hroom, ?_, hlimit, CondVar.waiting_notifyOne hcond⟩
        rw [hdata, List.length_append, List.length_singleton]
    | remove _ _ hadded => cases hadded
    | quiet _ hadded => cases hadded
  · cases heq
    cases hcompletes

/-- A consumer that returns was woken and takes the front value. -/
theorem waitPopAgain_spec (hcompletes : outcome.completes = true)
    (hstep : sys.step (.waitPopAgain t) = some (next, outcome)) :
    sys.queue.mData.length = next.queue.mData.length + 1 ∧
      next.queue.mMaxSize = sys.queue.mMaxSize ∧
      next.queue.mCond.waiting + 1 = sys.queue.mCond.waiting := by
  obtain ⟨ht, heq⟩ := Option.ite_none_right_eq_some.mp hstep
  rw [popSection, ConcurrentQueueWithLock.waitPop] at heq
  cases hdata : sys.queue.mData with
  | nil =>
      rw [hdata] at heq
      cases heq
      cases hcompletes
  | cons first rest =>
      rw [hdata] at heq
      cases heq
      exact ⟨rfl, rfl, CondVar.waiting_relock ht⟩

/-- A woken consumer returns when it is resumed with a value there. -/
theorem exists_popped {value : T} {rest : List T} (ht : t ∈ sys.queue.mCond.woken)
    (hdata : sys.queue.mData = value :: rest) :
    ∃ next, sys.step (.waitPopAgain t) = some (next, .popped value) := by
  rw [step, if_pos ht, popSection, ConcurrentQueueWithLock.waitPop]
  simp only [hdata]
  exact ⟨_, rfl⟩

/-- A spinning producer returns when it is resumed with room there. -/
theorem exists_pushed {value : T} (hspinning : sys.spinning t = some value)
    (hroom : sys.queue.isFull = false) :
    ∃ notified next, sys.step (.waitPushAgain t notified) = some (next, .pushed value) := by
  obtain ⟨notified, cond, hnotify⟩ := sys.queue.mCond.exists_notifyOne
  refine ⟨notified, ?_⟩
  rw [step, hspinning, Option.bind_some, ConcurrentQueueWithLock.waitPush,
    ConcurrentQueueWithLock.emplaceBelowLimit, hroom, if_neg Bool.false_ne_true,
    ConcurrentQueueWithLock.emplace, hnotify]
  exact ⟨_, rfl⟩

/-- Every resumed call that returns leaves fewer to serve. -/
theorem unserved_lt {sec : Section T Thread} (hresumed : Resumed sec outcome)
    (hstep : sys.step sec = some (next, outcome)) :
    next.queue.mMaxSize = sys.queue.mMaxSize ∧ next.unserved < sys.unserved := by
  obtain ⟨hresumes, hcompletes⟩ := hresumed
  rw [unserved, unserved]
  cases sec with
  | waitPushAgain t notified =>
      obtain ⟨hroom, hdata, hlimit, hwaiting⟩ := waitPushAgain_spec hcompletes hstep
      exact ⟨hlimit, by omega⟩
  | waitPopAgain t =>
      obtain ⟨hdata, hlimit, hwaiting⟩ := waitPopAgain_spec hcompletes hstep
      exact ⟨hlimit, by omega⟩
  | _ => cases hresumes

omit [DecidableEq Thread] in
/-- A consumer waits and there is a value: one that was woken can take it. -/
theorem exists_woken (hcovered : Covered sys) (hdata : sys.queue.mData ≠ [])
    (hwaiting : sys.queue.mCond.waiting ≠ 0) : ∃ t, t ∈ sys.queue.mCond.woken := by
  by_contra hnone
  have hwoken : sys.queue.mCond.woken = ∅ :=
    Finset.eq_empty_of_forall_notMem fun t ht => hnone ⟨t, ht⟩
  rw [CondVar.waiting, hwoken, Finset.card_empty, Nat.add_zero] at hwaiting
  have hle := hcovered (Finset.card_ne_zero.mp hwaiting)
  rw [hwoken, Finset.card_empty] at hle
  exact hdata (List.eq_nil_of_length_eq_zero (Nat.le_zero.mp hle))

/-- While somebody waits needlessly a waiting call can be resumed and returns. -/
theorem exists_resumed (hcovered : Covered sys) (hlimit : 1 ≤ sys.queue.mMaxSize)
    (hunsettled : ¬ Settled sys) :
    ∃ sec next outcome, sys.step sec = some (next, outcome) ∧ Resumed sec outcome := by
  by_cases hpush : (∃ t, sys.spinning t ≠ none) ∧ sys.queue.isFull = false
  · obtain ⟨⟨t, ht⟩, hroom⟩ := hpush
    obtain ⟨value, hspinning⟩ := Option.ne_none_iff_exists'.mp ht
    obtain ⟨notified, next, hstep⟩ := exists_pushed hspinning hroom
    exact ⟨_, next, _, hstep, rfl, rfl⟩
  · by_cases hpop : sys.queue.mData ≠ [] ∧ sys.queue.mCond.waiting ≠ 0
    · obtain ⟨t, ht⟩ := exists_woken hcovered hpop.1 hpop.2
      obtain ⟨value, rest, hdata⟩ := List.exists_cons_of_ne_nil hpop.1
      obtain ⟨next, hstep⟩ := exists_popped ht hdata
      exact ⟨_, next, _, hstep, rfl, rfl⟩
    · exfalso
      apply hunsettled
      have hidle : sys.queue.mData = [] ∨ sys.queue.mCond.waiting = 0 := by
        by_contra hbusy
        exact hpop (not_or.mp hbusy)
      cases hfull : sys.queue.isFull with
      | false =>
          left
          refine ⟨fun t => ?_, hidle⟩
          by_contra ht
          exact hpush ⟨⟨t, ht⟩, hfull⟩
      | true =>
          rcases hidle with hdata | hwaiting
          · -- an empty queue is below its limit
            have hroom := ConcurrentQueueWithLock.isFull_eq_false.mpr
              (show sys.queue.mData.length < sys.queue.mMaxSize by rw [hdata]; exact hlimit)
            rw [hroom] at hfull
            cases hfull
          · exact .inr ⟨hfull, hwaiting⟩

end QueueSystem

open QueueSystem (Settled unserved)

/-- What resumed calls keep. -/
def Serving (sys : QueueSystem T Thread) : Prop :=
  Covered sys ∧ 1 ≤ sys.queue.mMaxSize

theorem queueMachine_drops (s : Nat) :
    (queueMachine s : Machine (QueueSystem T Thread) _ _).Drops Serving Resumed unserved := by
  intro sys sec next outcome hserving hstep hresumed
  obtain ⟨hlimit, hless⟩ := QueueSystem.unserved_lt hresumed hstep
  exact ⟨⟨step_covered hserving.1 hstep, hlimit ▸ hserving.2⟩, hless⟩

/-- With a limit of one, two consumers sleep, a push wakes one and a producer spins. -/
def crossedWaits : List (Section Nat Nat) :=
  [.waitPop 2, .waitPop 3, .tryPush 0 7 (some 2), .waitPush 1 8 none]

end RedisDB
