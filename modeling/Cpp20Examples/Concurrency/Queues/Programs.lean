import Cpp20Examples.Lib.Monitor

/-!
# The queues of `concurrency`

Five files hold a queue with a mutex and one condition variable:
`threadSafeQueue.cpp`, `threadsafequeue1.cpp`, `threadsafequeue2.cpp`,
`monitorObject.cpp` and `monitorObjectCpp20.cpp`.  A method is the code that a
call of it runs.  A guard object is the code of its constructor in front of the
rest of its scope and the code of its destructor behind it, so the three designs
that hold their lock over the removal come from three kinds of guards;
`monitorObject` gives the mutex back at the end of `wait` and locks it again.

A thread makes any sequence of calls, and between them it may do anything with
the other shared variables `β` of the program and its own variables `ℓ`.
-/

namespace Cpp20Examples.Queues

open Lib Lib.Monitor

/-- The queue, what was added to it and removed from it so far, and the other
shared variables of the program. -/
structure Memory (α β : Type) where
  contents : List α := []
  added : List α := []
  removed : List α := []
  rest : β

/-- The variable `number` (or `val`) of a removal, which is the result of the
call, and the other variables of the thread. -/
structure Vars (α ℓ : Type) where
  number : Option α := none
  vars : ℓ

/-- The operations on the shared memory. -/
inductive Op (α β ℓ : Type)
  /-- `push_back(number)` -/
  | push (number : ℓ → α)
  /-- `number = front()` -/
  | front
  /-- `pop_front()` -/
  | pop
  /-- an access to the other shared variables -/
  | other (f : β → Vars α ℓ → β × Vars α ℓ)

variable {α β ℓ : Type}

/-- What the operations do; `front` and `pop` of an empty queue are undefined. -/
def sem : Op α β ℓ → Memory α β → Vars α ℓ → Option (Memory α β × Vars α ℓ)
  | .push number, m, v =>
    some ({ m with
      contents := m.contents ++ [number v.vars], added := m.added ++ [number v.vars] }, v)
  | .front, m, v =>
    match m.contents with
    | [] => none
    | x :: _ => some (m, { v with number := some x })
  | .pop, m, v =>
    match m.contents with
    | [] => none
    | _ :: xs => some ({ m with contents := xs, removed := m.removed ++ v.number.toList }, v)
  | .other f, m, v => some ({ m with rest := (f m.rest v).1 }, (f m.rest v).2)

/-- `[this] { return !d_numberQueue.empty(); }` -/
def notEmpty (m : Memory α β) : Bool := !m.contents.isEmpty

abbrev QCode (α β ℓ : Type) := Code (Op α β ℓ) Unit (Memory α β)

/-- The two methods of a queue. -/
structure Methods (α β ℓ : Type) where
  add : (ℓ → α) → QCode α β ℓ
  remove : QCode α β ℓ

/-! ### `threadSafeQueue.cpp` -/

namespace ThreadSafeQueue

/-- `Monitor::UnlockAndNotify`. -/
def unlockAndNotify : QCode α β ℓ := [.unlock, .notifyOne ()]

/-- The scope of `const auto lock = d_monitor.makeLockWithNotify();`. -/
def makeLockWithNotify (scope : QCode α β ℓ) : QCode α β ℓ := [.lock] ++ scope ++ unlockAndNotify

/-- The scope of `const auto lock = makeLockWithWait(waitForCondition);`: the
lock that is returned is one of the mutex alone. -/
def makeLockWithWait (waitForCondition : Memory α β → Bool) (scope : QCode α β ℓ) :
    QCode α β ℓ := [.lock, .wait () waitForCondition] ++ scope ++ [.unlock]

def addNumber (number : ℓ → α) : QCode α β ℓ := makeLockWithNotify [.exec (.push number)]

def removeNumber : QCode α β ℓ := makeLockWithWait notEmpty [.exec .front, .exec .pop]

end ThreadSafeQueue

def threadSafeQueue : Methods α β ℓ :=
  ⟨ThreadSafeQueue.addNumber, ThreadSafeQueue.removeNumber⟩

/-! ### `threadsafequeue1.cpp` -/

namespace Threadsafequeue1

/-- The scope of `auto kerberos = sendGuard();`: the members of the guard are
destroyed last to first, the `lock_guard` and then the `notifier`. -/
def sendGuard (scope : QCode α β ℓ) : QCode α β ℓ :=
  [.lock] ++ scope ++ ([.unlock] ++ [.notifyOne ()])

/-- The scope of `auto kerberos = receiveGuard();`. -/
def receiveGuard (scope : QCode α β ℓ) : QCode α β ℓ := [.lock] ++ scope ++ [.unlock]

/-- `Monitor::wait`. -/
def wait (pred : Memory α β → Bool) : QCode α β ℓ := [.wait () pred]

def add (val : ℓ → α) : QCode α β ℓ := sendGuard [.exec (.push val)]

def get : QCode α β ℓ := receiveGuard (wait notEmpty ++ [.exec .front, .exec .pop])

end Threadsafequeue1

def threadsafequeue1 : Methods α β ℓ := ⟨Threadsafequeue1.add, Threadsafequeue1.get⟩

/-! ### `threadsafequeue2.cpp` -/

namespace Threadsafequeue2

/-- `Monitor::UnlockAndNotify`. -/
def unlockAndNotify : QCode α β ℓ := [.unlock, .notifyOne ()]

/-- The scope of `auto [numberQueue, lock] = d_monitor.makeProducerLock();`. -/
def makeProducerLock (scope : QCode α β ℓ) : QCode α β ℓ := [.lock] ++ scope ++ unlockAndNotify

/-- The scope of `auto [numberQueue, lock] =
d_monitor.makeConsumerLockWhen(predicate);`: the lock is moved into the tuple. -/
def makeConsumerLockWhen (predicate : Memory α β → Bool) (scope : QCode α β ℓ) :
    QCode α β ℓ := ([.lock] ++ [.wait () predicate]) ++ scope ++ [.unlock]

def add (number : ℓ → α) : QCode α β ℓ := makeProducerLock [.exec (.push number)]

def remove : QCode α β ℓ := makeConsumerLockWhen notEmpty [.exec .front, .exec .pop]

end Threadsafequeue2

def threadsafequeue2 : Methods α β ℓ := ⟨Threadsafequeue2.add, Threadsafequeue2.remove⟩

/-! ### `monitorObject.cpp`, `monitorObjectCpp20.cpp` -/

namespace MonitorObject

/-- `Monitor::wait`: the `unique_lock` is destroyed when the wait returns. -/
def wait (pred : Memory α β → Bool) : QCode α β ℓ := [.lock, .wait () pred, .unlock]

def add (val : ℓ → α) : QCode α β ℓ := [.lock, .exec (.push val), .unlock, .notifyOne ()]

def get : QCode α β ℓ := wait notEmpty ++ [.lock, .exec .front, .exec .pop, .unlock]

end MonitorObject

def monitorObject : Methods α β ℓ := ⟨MonitorObject.add, MonitorObject.get⟩

/-- `monitorObjectCpp20.cpp` constrains the predicate by a concept and has the
same methods. -/
def monitorObjectCpp20 : Methods α β ℓ := ⟨MonitorObject.add, MonitorObject.get⟩

/-! ### Programs -/

/-- What a thread does between two points outside the queue. -/
inductive Call (α β ℓ : Type)
  | add (number : ℓ → α)
  | remove
  | other (f : β → Vars α ℓ → β × Vars α ℓ)

def Methods.call (m : Methods α β ℓ) : Call α β ℓ → QCode α β ℓ
  | .add number => m.add number
  | .remove => m.remove
  | .other f => [.exec (.other f)]

/-- The code of a sequence of calls. -/
def Methods.program (m : Methods α β ℓ) (calls : List (Call α β ℓ)) : QCode α β ℓ :=
  calls.flatMap m.call

abbrev QThread (α β ℓ : Type) := Thread (Op α β ℓ) Unit (Memory α β) (Vars α ℓ)

abbrev QState (α β ℓ : Type) := State (Op α β ℓ) Unit (Memory α β) (Vars α ℓ)

/-- Threads that start with the given variables and make the given calls on an
empty queue. -/
def Methods.system (m : Methods α β ℓ) (rest : β) (clients : List (ℓ × List (Call α β ℓ))) :
    System (QState α β ℓ) Act :=
  Monitor.system sem { rest } (clients.map fun c => ⟨m.program c.2, .running, { vars := c.1 }⟩)

/-- The queues that hold their lock from the test to the removal. -/
inductive LockHolding
  | threadSafeQueue
  | threadsafequeue1
  | threadsafequeue2

def LockHolding.methods : LockHolding → Methods α β ℓ
  | threadSafeQueue => Queues.threadSafeQueue
  | threadsafequeue1 => Queues.threadsafequeue1
  | threadsafequeue2 => Queues.threadsafequeue2

/-- The queues that give their lock up between the test and the removal. -/
inductive LockReleasing
  | monitorObject
  | monitorObjectCpp20

def LockReleasing.methods : LockReleasing → Methods α β ℓ
  | monitorObject => Queues.monitorObject
  | monitorObjectCpp20 => Queues.monitorObjectCpp20

end Cpp20Examples.Queues
