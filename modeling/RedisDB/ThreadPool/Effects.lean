import RedisDB.ThreadPool.Queue

/-!
# What a section does to the queue

A section pushes at the back and only below the limit, or removes the front, or
leaves the values alone.  The list of these effects is made once, and what holds
across all interleavings is read off from it.
-/

namespace RedisDB

open RedisDB.Library

variable {T Thread : Type}

namespace Outcome

/-- The value a section has added to the queue. -/
def added : Outcome T → Option T
  | .pushed value => some value
  | _ => none

/-- The value a section has removed from the queue. -/
def removed : Outcome T → Option T
  | .popped value => some value
  | .dropped value => some value
  | _ => none

end Outcome

/-- The section changes the limit. -/
def Section.setsLimit : Section T Thread → Bool
  | .setMaxSize _ _ => true
  | _ => false

namespace ConcurrentQueueWithLock

variable [DecidableEq Thread]

/-- What a section with the given outcome can do to the queue; the flag tells the sections
that set the limit. -/
inductive Effect (q next : ConcurrentQueueWithLock T Thread) : Bool → Outcome T → Prop where
  | push (value : T) (notified : Option Thread) (hroom : q.mData.length < q.mMaxSize)
      (hdata : next.mData = q.mData ++ [value]) (hlimit : next.mMaxSize = q.mMaxSize)
      (hcond : q.mCond.notifyOne notified = some next.mCond) : Effect q next false (.pushed value)
  | remove (outcome : Outcome T) (value : T) (hadded : outcome.added = none)
      (hremoved : outcome.removed = some value) (hdata : q.mData = value :: next.mData)
      (hlimit : next.mMaxSize = q.mMaxSize)
      (hcond : next.mCond = q.mCond ∨ ∃ t ∈ q.mCond.woken, next.mCond = q.mCond.relock t) :
      Effect q next false outcome
  | sleep (hdata : q.mData = []) (hnext : next.mData = [])
      (hlimit : next.mMaxSize = q.mMaxSize) : Effect q next false .sleeps
  | wake (t : Thread) (ht : t ∈ q.mCond.sleeping) (hdata : next.mData = q.mData)
      (hlimit : next.mMaxSize = q.mMaxSize) (hcond : next.mCond = q.mCond.wake t) :
      Effect q next false .wakes
  | setLimit (hdata : next.mData = q.mData) (hcond : next.mCond = q.mCond) :
      Effect q next true .done
  | quiet (outcome : Outcome T) (hadded : outcome.added = none)
      (hremoved : outcome.removed = none) (hnext : next = q) :
      Effect q next false outcome

section Effects

variable {q next : ConcurrentQueueWithLock T Thread} {limited : Bool} {outcome : Outcome T}

theorem Effect.removed_front (heffect : Effect q next limited outcome) {value : T}
    (hremoved : outcome.removed = some value) : q.mData = value :: next.mData := by
  cases heffect with
  | push => cases hremoved
  | remove _ front _ hfront hdata =>
      obtain rfl := Option.some.inj (hfront.symm.trans hremoved)
      exact hdata
  | sleep => cases hremoved
  | wake => cases hremoved
  | setLimit => cases hremoved
  | quiet _ _ hnone => cases hnone.symm.trans hremoved

theorem Effect.added_room (heffect : Effect q next limited outcome) {value : T}
    (hadded : outcome.added = some value) : q.mData.length < q.mMaxSize := by
  cases heffect with
  | push _ _ hroom => exact hroom
  | remove _ _ hnone => cases hnone.symm.trans hadded
  | sleep => cases hadded
  | wake => cases hadded
  | setLimit => cases hadded
  | quiet _ hnone => cases hnone.symm.trans hadded

/-- The values added are those behind, the values removed those in front. -/
theorem Effect.serves (heffect : Effect q next limited outcome) :
    q.mData ++ outcome.added.toList = outcome.removed.toList ++ next.mData := by
  cases heffect with
  | push value notified hroom hdata => rw [hdata]; rfl
  | remove _ value hadded hremoved hdata => simp [hadded, hremoved, hdata]
  | sleep hdata hnext => rw [hdata, hnext]; rfl
  | wake t ht hdata => simp [Outcome.added, Outcome.removed, hdata]
  | setLimit hdata => simp [Outcome.added, Outcome.removed, hdata]
  | quiet _ hadded hremoved hnext => simp [hadded, hremoved, hnext]

/-- A section that leaves the queue larger leaves it within the limit. -/
theorem Effect.size_le (heffect : Effect q next limited outcome) :
    next.mData.length ≤ max q.mData.length q.mMaxSize := by
  cases heffect with
  | push value _ hroom hdata =>
      rw [hdata, List.length_append, List.length_singleton]
      omega
  | remove _ _ _ _ hdata => rw [hdata, List.length_cons]; omega
  | sleep _ hnext => rw [hnext]; exact Nat.zero_le _
  | wake _ _ hdata => rw [hdata]; exact Nat.le_max_left _ _
  | setLimit hdata => rw [hdata]; exact Nat.le_max_left _ _
  | quiet _ _ _ hnext => rw [hnext]; exact Nat.le_max_left _ _

/-- Only the sections that set the limit change it. -/
theorem Effect.limit_eq (heffect : Effect q next false outcome) : next.mMaxSize = q.mMaxSize := by
  cases heffect with
  | push _ _ _ _ hlimit => exact hlimit
  | remove _ _ _ _ _ hlimit => exact hlimit
  | sleep _ _ hlimit => exact hlimit
  | wake _ _ _ hlimit => exact hlimit
  | quiet _ _ _ hnext => rw [hnext]

end Effects

omit [DecidableEq Thread] in
theorem isFull_eq_false {q : ConcurrentQueueWithLock T Thread} :
    q.isFull = false ↔ q.mData.length < q.mMaxSize := by
  simp [isFull]

/-- `tryPush` and a test of `waitPush` push below the limit and do nothing at it. -/
theorem emplaceBelowLimit_cases {q next : ConcurrentQueueWithLock T Thread} {value : T}
    {notified : Option Thread} {pushed : Bool}
    (hpush : q.emplaceBelowLimit value notified = some (next, pushed)) :
    pushed = true ∧ Effect q next false (.pushed value) ∨ pushed = false ∧ next = q := by
  rw [emplaceBelowLimit] at hpush
  cases hfull : q.isFull with
  | true =>
      rw [hfull, if_pos rfl] at hpush
      cases hpush
      exact .inr ⟨rfl, rfl⟩
  | false =>
      rw [hfull, if_neg Bool.false_ne_true, emplace, Option.map_map] at hpush
      obtain ⟨cond, hnotify, heq⟩ := Option.map_eq_some_iff.mp hpush
      cases heq
      exact .inl ⟨rfl, .push value notified (isFull_eq_false.mp hfull) rfl rfl hnotify⟩

/-- So a push has its effect, whatever other outcome says that it was not made. -/
theorem emplaceBelowLimit_effect {q next : ConcurrentQueueWithLock T Thread} {value : T}
    {notified : Option Thread} {pushed : Bool} {other : Outcome T}
    (hadded : other.added = none) (hremoved : other.removed = none)
    (hpush : q.emplaceBelowLimit value notified = some (next, pushed)) :
    Effect q next false (if pushed then .pushed value else other) := by
  rcases emplaceBelowLimit_cases hpush with ⟨rfl, heffect⟩ | ⟨rfl, rfl⟩
  · exact heffect
  · exact .quiet _ hadded hremoved rfl

end ConcurrentQueueWithLock

namespace QueueSystem

variable [DecidableEq Thread] {sys next : QueueSystem T Thread} {sec : Section T Thread}
  {outcome : Outcome T}

open ConcurrentQueueWithLock (Effect emplaceBelowLimit_cases emplaceBelowLimit_effect)

/-- The section of `waitPop`, by a thread that calls it or that has just relocked the mutex. -/
theorem popSection_effect {q : ConcurrentQueueWithLock T Thread} {t : Thread}
    (hpop : sys.popSection t = (next, outcome)) (hdata : sys.queue.mData = q.mData)
    (hlimit : sys.queue.mMaxSize = q.mMaxSize)
    (hcond : sys.queue.mCond = q.mCond ∨
      ∃ t ∈ q.mCond.woken, sys.queue.mCond = q.mCond.relock t) :
    Effect q next.queue false outcome := by
  rw [popSection, ConcurrentQueueWithLock.waitPop] at hpop
  cases hvalues : sys.queue.mData with
  | nil =>
      rw [hvalues] at hpop
      cases hpop
      exact .sleep (hdata.symm.trans hvalues) rfl hlimit
  | cons value rest =>
      rw [hvalues] at hpop
      cases hpop
      exact .remove _ value rfl rfl (hdata.symm.trans hvalues) hlimit hcond

/-- Every section has one of the effects. -/
theorem step_effect (hstep : sys.step sec = some (next, outcome)) :
    Effect sys.queue next.queue sec.setsLimit outcome := by
  cases sec with
  | tryPush t value notified =>
      obtain ⟨-, heq⟩ := Option.ite_none_right_eq_some.mp hstep
      obtain ⟨⟨queue, pushed⟩, hpush, heq⟩ := Option.map_eq_some_iff.mp heq
      cases heq
      exact emplaceBelowLimit_effect rfl rfl hpush
  | waitPush t value notified =>
      obtain ⟨-, heq⟩ := Option.ite_none_right_eq_some.mp hstep
      obtain ⟨⟨queue, pushed⟩, hpush, heq⟩ := Option.map_eq_some_iff.mp heq
      have heffect : Effect sys.queue queue false
          (if pushed then .pushed value else .spins) :=
        emplaceBelowLimit_effect rfl rfl hpush
      cases pushed <;> cases heq <;> exact heffect
  | waitPushAgain t notified =>
      obtain ⟨value, -, heq⟩ := Option.bind_eq_some_iff.mp hstep
      obtain ⟨⟨queue, pushed⟩, hpush, heq⟩ := Option.map_eq_some_iff.mp heq
      have heffect : Effect sys.queue queue false
          (if pushed then .pushed value else .spins) :=
        emplaceBelowLimit_effect rfl rfl hpush
      cases pushed <;> cases heq <;> exact heffect
  | waitPop t =>
      obtain ⟨-, heq⟩ := Option.ite_none_right_eq_some.mp hstep
      exact popSection_effect (Option.some.inj heq) rfl rfl (.inl rfl)
  | waitPopAgain t =>
      obtain ⟨ht, heq⟩ := Option.ite_none_right_eq_some.mp hstep
      exact popSection_effect (Option.some.inj heq) rfl rfl (.inr ⟨t, ht, rfl⟩)
  | wakeup t =>
      obtain ⟨ht, heq⟩ := Option.ite_none_right_eq_some.mp hstep
      cases heq
      exact .wake t ht rfl rfl rfl
  | tryPop t =>
      obtain ⟨-, heq⟩ := Option.ite_none_right_eq_some.mp hstep
      rw [ConcurrentQueueWithLock.tryPop] at heq
      cases hdata : sys.queue.mData with
      | nil =>
          rw [hdata] at heq
          cases heq
          exact .quiet _ rfl rfl rfl
      | cons value rest =>
          rw [hdata] at heq
          cases heq
          exact .remove _ value rfl rfl hdata rfl (.inl rfl)
  | front t =>
      obtain ⟨-, heq⟩ := Option.ite_none_right_eq_some.mp hstep
      obtain ⟨value, -, heq⟩ := Option.map_eq_some_iff.mp heq
      cases heq
      exact .quiet _ rfl rfl rfl
  | setMaxSize t s =>
      obtain ⟨-, heq⟩ := Option.ite_none_right_eq_some.mp hstep
      cases heq
      exact .setLimit rfl rfl
  | empty t | getMaxSize t | getSize t =>
      obtain ⟨-, heq⟩ := Option.ite_none_right_eq_some.mp hstep
      cases heq
      exact .quiet _ rfl rfl rfl

/-- A `tryPush` that returns false changes nothing. -/
theorem tryPush_refused {t : Thread} {value : T} {notified : Option Thread}
    (hstep : sys.step (.tryPush t value notified) = some (next, .refused)) : next = sys := by
  obtain ⟨-, heq⟩ := Option.ite_none_right_eq_some.mp hstep
  obtain ⟨⟨queue, pushed⟩, hpush, heq⟩ := Option.map_eq_some_iff.mp heq
  rcases emplaceBelowLimit_cases hpush with ⟨rfl, -⟩ | ⟨rfl, rfl⟩ <;> cases heq
  rfl

/-- A `tryPop` that returns false changes nothing. -/
theorem tryPop_nothing {t : Thread} (hstep : sys.step (.tryPop t) = some (next, .nothing)) :
    next = sys := by
  obtain ⟨-, heq⟩ := Option.ite_none_right_eq_some.mp hstep
  rw [ConcurrentQueueWithLock.tryPop] at heq
  cases hdata : sys.queue.mData with
  | nil =>
      rw [hdata] at heq
      cases heq
      rfl
  | cons value rest =>
      rw [hdata] at heq
      cases heq

end QueueSystem

end RedisDB
