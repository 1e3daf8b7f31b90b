import RedisDB.Library.Machine
import RedisDB.Library.CondVar
import Mathlib.Logic.Function.Basic

/-!
# `ConcurrentQueueWithLock`

Every member function works on the queue while it holds `mMutex`.  A section is
what a thread does from taking the mutex to giving it up again, be it at the end
of the call, in the loop of `waitPush` or in the wait of `waitPop`; the mutex
makes sections atomic, and the threads run theirs in any order.  A thread waits
for its next section in the loop of `waitPush` or at `mCond`.
-/

namespace RedisDB

open RedisDB.Library

/-- The members of the queue; `mMutex` is held in every section and free between them. -/
structure ConcurrentQueueWithLock (T Thread : Type) where
  mData : List T
  mMaxSize : Nat
  mCond : CondVar Thread

namespace ConcurrentQueueWithLock

variable {T Thread : Type}

def new (s : Nat) : ConcurrentQueueWithLock T Thread :=
  ⟨[], s, CondVar.new⟩

/-- The test `mData.size() >= mMaxSize`. -/
def isFull (q : ConcurrentQueueWithLock T Thread) : Bool :=
  q.mData.length ≥ q.mMaxSize

def empty (q : ConcurrentQueueWithLock T Thread) : Bool :=
  q.mData.isEmpty

/-- `front`, which is undefined on an empty queue. -/
def front (q : ConcurrentQueueWithLock T Thread) : Option T :=
  q.mData.head?

def getMaxSize (q : ConcurrentQueueWithLock T Thread) : Nat :=
  q.mMaxSize

def setMaxSize (q : ConcurrentQueueWithLock T Thread) (s : Nat) :
    ConcurrentQueueWithLock T Thread :=
  { q with mMaxSize := s }

def getSize (q : ConcurrentQueueWithLock T Thread) : Nat :=
  q.mData.length

/-- `tryPop`; the code returns whether a value was removed and drops the value, which is
returned here. -/
def tryPop (q : ConcurrentQueueWithLock T Thread) :
    ConcurrentQueueWithLock T Thread × Option T :=
  match q.mData with
  | [] => (q, none)
  | value :: rest => ({ q with mData := rest }, some value)

variable [DecidableEq Thread]

/-- `mData.emplace(value); mCond.notify_one()`, with the thread the notification wakes. -/
def emplace (q : ConcurrentQueueWithLock T Thread) (value : T) (notified : Option Thread) :
    Option (ConcurrentQueueWithLock T Thread) :=
  (q.mCond.notifyOne notified).map fun cond =>
    { q with mData := q.mData ++ [value], mCond := cond }

/-- A push that is made only below the limit, and whether it was made. -/
def emplaceBelowLimit (q : ConcurrentQueueWithLock T Thread) (value : T)
    (notified : Option Thread) : Option (ConcurrentQueueWithLock T Thread × Bool) :=
  if q.isFull then some (q, false)
  else (q.emplace value notified).map fun q => (q, true)

/-- `tryPush`. -/
def tryPush (q : ConcurrentQueueWithLock T Thread) (value : T) (notified : Option Thread) :
    Option (ConcurrentQueueWithLock T Thread × Bool) :=
  q.emplaceBelowLimit value notified

/-- One test of the loop of `waitPush` and what follows it: the thread gives up the mutex
and yields, which is the answer `false`, or leaves the loop and pushes. -/
def waitPush (q : ConcurrentQueueWithLock T Thread) (value : T) (notified : Option Thread) :
    Option (ConcurrentQueueWithLock T Thread × Bool) :=
  q.emplaceBelowLimit value notified

/-- One test of the predicate of `mCond.wait` and what follows it: the thread gives up the
mutex and sleeps, which is the answer `none`, or returns the front value. -/
def waitPop (q : ConcurrentQueueWithLock T Thread) (t : Thread) :
    ConcurrentQueueWithLock T Thread × Option T :=
  match q.mData with
  | [] => ({ q with mCond := q.mCond.wait t }, none)
  | value :: rest => ({ q with mData := rest }, some value)

end ConcurrentQueueWithLock

/-! ## Threads and their sections -/

/-- The queue and the threads that are in the loop of `waitPush`, with their values. -/
structure QueueSystem (T Thread : Type) where
  queue : ConcurrentQueueWithLock T Thread
  spinning : Thread → Option T

/-- A section, with the thread that runs it.  `again` sections follow a wait, and a spurious
wakeup is a step of its own. -/
inductive Section (T Thread : Type) where
  | tryPush (t : Thread) (value : T) (notified : Option Thread)
  | waitPush (t : Thread) (value : T) (notified : Option Thread)
  | waitPushAgain (t : Thread) (notified : Option Thread)
  | waitPop (t : Thread)
  | waitPopAgain (t : Thread)
  | wakeup (t : Thread)
  | tryPop (t : Thread)
  | empty (t : Thread)
  | front (t : Thread)
  | getMaxSize (t : Thread)
  | setMaxSize (t : Thread) (s : Nat)
  | getSize (t : Thread)

/-- What comes of a section. -/
inductive Outcome (T : Type) where
  /-- `tryPush` returns true or `waitPush` returns. -/
  | pushed (value : T)
  /-- `tryPush` returns false. -/
  | refused
  /-- `waitPush` goes on with its loop. -/
  | spins
  /-- `waitPop` returns a value. -/
  | popped (value : T)
  /-- `waitPop` sleeps. -/
  | sleeps
  /-- `tryPop` returns true. -/
  | dropped (value : T)
  /-- `tryPop` returns false. -/
  | nothing
  | wakes
  | answer (value : T)
  | status (holds : Bool)
  | count (n : Nat)
  | done
  deriving DecidableEq, Repr

namespace QueueSystem

variable {T Thread : Type} [DecidableEq Thread]

/-- The thread is in no call. -/
def Idle (sys : QueueSystem T Thread) (t : Thread) : Prop :=
  t ∉ sys.queue.mCond.sleeping ∧ t ∉ sys.queue.mCond.woken ∧ (sys.spinning t).isNone = true

instance (sys : QueueSystem T Thread) (t : Thread) : Decidable (sys.Idle t) :=
  inferInstanceAs (Decidable (_ ∧ _ ∧ _))

/-- The section of `waitPop`, with the thread not or no longer at `mCond`. -/
def popSection (sys : QueueSystem T Thread) (t : Thread) : QueueSystem T Thread × Outcome T :=
  match sys.queue.waitPop t with
  | (queue, none) => ({ sys with queue := queue }, .sleeps)
  | (queue, some value) => ({ sys with queue := queue }, .popped value)

/-- A section run by its thread; `none` if the thread is not at the section, the notification
does not wake a sleeper although there is one, or the behaviour is undefined. -/
def step (sys : QueueSystem T Thread) :
    Section T Thread → Option (QueueSystem T Thread × Outcome T)
  | .tryPush t value notified =>
      if sys.Idle t then
        (sys.queue.tryPush value notified).map fun r =>
          ({ sys with queue := r.1 }, if r.2 then .pushed value else .refused)
      else none
  | .waitPush t value notified =>
      if sys.Idle t then
        (sys.queue.waitPush value notified).map fun r =>
          if r.2 then ({ sys with queue := r.1 }, .pushed value)
          else (⟨r.1, Function.update sys.spinning t (some value)⟩, .spins)
      else none
  | .waitPushAgain t notified =>
      (sys.spinning t).bind fun value =>
        (sys.queue.waitPush value notified).map fun r =>
          if r.2 then (⟨r.1, Function.update sys.spinning t none⟩, .pushed value)
          else ({ sys with queue := r.1 }, .spins)
  | .waitPop t => if sys.Idle t then some (sys.popSection t) else none
  | .waitPopAgain t =>
      if t ∈ sys.queue.mCond.woken then
        some (popSection
          { sys with queue := { sys.queue with mCond := sys.queue.mCond.relock t } } t)
      else none
  | .wakeup t =>
      if t ∈ sys.queue.mCond.sleeping then
        some ({ sys with queue := { sys.queue with mCond := sys.queue.mCond.wake t } }, .wakes)
      else none
  | .tryPop t =>
      if sys.Idle t then
        match sys.queue.tryPop with
        | (queue, none) => some ({ sys with queue := queue }, .nothing)
        | (queue, some value) => some ({ sys with queue := queue }, .dropped value)
      else none
  | .empty t => if sys.Idle t then some (sys, .status sys.queue.empty) else none
  | .front t =>
      if sys.Idle t then sys.queue.front.map fun value => (sys, .answer value) else none
  | .getMaxSize t => if sys.Idle t then some (sys, .count sys.queue.getMaxSize) else none
  | .setMaxSize t s =>
      if sys.Idle t then some ({ sys with queue := sys.queue.setMaxSize s }, .done) else none
  | .getSize t => if sys.Idle t then some (sys, .count sys.queue.getSize) else none

end QueueSystem

/-- A new queue with a limit, its threads in no call, and their sections. -/
def queueMachine {T Thread : Type} [DecidableEq Thread] (s : Nat) :
    Machine (QueueSystem T Thread) (Section T Thread) (Outcome T) :=
  ⟨⟨ConcurrentQueueWithLock.new s, fun _ => none⟩, QueueSystem.step⟩

end RedisDB
