import Mathlib.Data.Finset.Card

/-!
# Condition variables

The waiters of a condition variable sleep or were woken and have not taken the
lock again.  A notification wakes one sleeper, if there is one, and a sleeper may
wake up for no reason.  The counting rule of the module is about items that are
waited for: while somebody sleeps, every item has a woken waiter.
-/

namespace RedisDB.Library

structure CondVar (Thread : Type) where
  sleeping : Finset Thread
  woken : Finset Thread
  apart : Disjoint sleeping woken

namespace CondVar

variable {Thread : Type}

/-- Nobody waits. -/
def new : CondVar Thread :=
  ⟨∅, ∅, Finset.disjoint_empty_left ∅⟩

variable [DecidableEq Thread]

/-- The thread releases the lock and sleeps. -/
def wait (cond : CondVar Thread) (t : Thread) : CondVar Thread where
  sleeping := insert t cond.sleeping
  woken := cond.woken.erase t
  apart := Finset.disjoint_insert_left.mpr ⟨Finset.notMem_erase t _,
    cond.apart.mono_right (Finset.erase_subset t _)⟩

/-- The thread wakes up. -/
def wake (cond : CondVar Thread) (t : Thread) : CondVar Thread where
  sleeping := cond.sleeping.erase t
  woken := insert t cond.woken
  apart := Finset.disjoint_insert_right.mpr ⟨Finset.notMem_erase t _,
    cond.apart.mono_left (Finset.erase_subset t _)⟩

/-- The thread, woken before, takes the lock again. -/
def relock (cond : CondVar Thread) (t : Thread) : CondVar Thread where
  sleeping := cond.sleeping
  woken := cond.woken.erase t
  apart := cond.apart.mono_right (Finset.erase_subset t _)

/-- `notify_one` with the thread it wakes; it wakes none only when none sleeps. -/
def notifyOne (cond : CondVar Thread) : Option Thread → Option (CondVar Thread)
  | none => if cond.sleeping = ∅ then some cond else none
  | some t => if t ∈ cond.sleeping then some (cond.wake t) else none

/-! ## Items and woken waiters -/

/-- While a thread sleeps there are at least `n` woken ones. -/
def Covers (cond : CondVar Thread) (n : Nat) : Prop :=
  cond.sleeping.Nonempty → n ≤ cond.woken.card

section Covers

variable {cond cond' : CondVar Thread} {n : Nat} {t : Thread} {chosen : Option Thread}

omit [DecidableEq Thread] in
theorem covers_zero (cond : CondVar Thread) : cond.Covers 0 :=
  fun _ => Nat.zero_le _

omit [DecidableEq Thread] in
/-- An item taken without a wait leaves the others covered. -/
theorem Covers.take (hcovers : cond.Covers (n + 1)) : cond.Covers n :=
  fun hsleeping => Nat.le_of_succ_le (hcovers hsleeping)

theorem card_woken_wake (ht : t ∈ cond.sleeping) :
    (cond.wake t).woken.card = cond.woken.card + 1 :=
  Finset.card_insert_of_notMem (Finset.disjoint_left.mp cond.apart ht)

theorem Covers.wake_succ (hcovers : cond.Covers n) (ht : t ∈ cond.sleeping) :
    (cond.wake t).Covers (n + 1) := by
  rintro -
  rw [card_woken_wake ht]
  exact Nat.succ_le_succ (hcovers ⟨t, ht⟩)

/-- A thread that wakes up for no reason leaves the items covered. -/
theorem Covers.wake (hcovers : cond.Covers n) (ht : t ∈ cond.sleeping) :
    (cond.wake t).Covers n :=
  (hcovers.wake_succ ht).take

/-- A new item is covered by the waiter its notification wakes. -/
theorem Covers.notifyOne (hcovers : cond.Covers n)
    (hnotify : cond.notifyOne chosen = some cond') : cond'.Covers (n + 1) := by
  cases chosen with
  | none =>
      obtain ⟨hnone, heq⟩ := Option.ite_none_right_eq_some.mp hnotify
      obtain rfl : cond = cond' := Option.some.inj heq
      intro hsleeping
      exact absurd hnone hsleeping.ne_empty
  | some t =>
      obtain ⟨ht, heq⟩ := Option.ite_none_right_eq_some.mp hnotify
      obtain rfl : cond.wake t = cond' := Option.some.inj heq
      exact hcovers.wake_succ ht

/-- A woken waiter that takes an item leaves the others covered. -/
theorem Covers.relock (hcovers : cond.Covers (n + 1)) (ht : t ∈ cond.woken) :
    (cond.relock t).Covers n := by
  intro hsleeping
  have hcard : (cond.relock t).woken.card + 1 = cond.woken.card :=
    Finset.card_erase_add_one ht
  have hle := hcovers hsleeping
  omega

end Covers

/-! ## Counting the waiters -/

/-- The threads that wait. -/
def waiting (cond : CondVar Thread) : Nat := cond.sleeping.card + cond.woken.card

/-- A notification wakes somebody unless nobody sleeps. -/
theorem exists_notifyOne (cond : CondVar Thread) :
    ∃ chosen cond', cond.notifyOne chosen = some cond' := by
  rcases cond.sleeping.eq_empty_or_nonempty with hnone | ⟨t, ht⟩
  · exact ⟨none, cond, if_pos hnone⟩
  · exact ⟨some t, cond.wake t, if_pos ht⟩

/-- A waiter that wakes up goes on waiting. -/
theorem waiting_wake {cond : CondVar Thread} {t : Thread} (ht : t ∈ cond.sleeping) :
    (cond.wake t).waiting = cond.waiting := by
  have hsleeping : (cond.sleeping.erase t).card + 1 = cond.sleeping.card :=
    Finset.card_erase_add_one ht
  have hwoken := card_woken_wake ht
  change (cond.sleeping.erase t).card + (cond.wake t).woken.card = _
  rw [waiting]
  omega

theorem waiting_notifyOne {cond cond' : CondVar Thread} {chosen : Option Thread}
    (hnotify : cond.notifyOne chosen = some cond') : cond'.waiting = cond.waiting := by
  cases chosen with
  | none =>
      obtain ⟨-, heq⟩ := Option.ite_none_right_eq_some.mp hnotify
      rw [Option.some.inj heq]
  | some t =>
      obtain ⟨ht, heq⟩ := Option.ite_none_right_eq_some.mp hnotify
      rw [← Option.some.inj heq, waiting_wake ht]

theorem waiting_relock {cond : CondVar Thread} {t : Thread} (ht : t ∈ cond.woken) :
    (cond.relock t).waiting + 1 = cond.waiting := by
  have hwoken : (cond.woken.erase t).card + 1 = cond.woken.card := Finset.card_erase_add_one ht
  change cond.sleeping.card + (cond.woken.erase t).card + 1 = _
  rw [waiting]
  omega

end CondVar

end RedisDB.Library
