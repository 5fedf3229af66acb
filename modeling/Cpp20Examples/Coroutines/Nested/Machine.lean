import Cpp20Examples.Coroutines.Nested.CallStack
import Mathlib.Logic.Function.Basic

/-!
# The coroutines of `nested`

`coroutines/nested/main.cpp` keeps the call stack of its coroutines in their
promises.  A handle and a pointer to a promise are both the number of a frame
here, and `State.frames` is the heap; a frame is gone when the `Async` object
that owns it is destroyed.

`State.step` is what happens between two points of the program: a coroutine runs
to its next `co_await` or `co_return`, or a handle is resumed.  An assertion that
does not hold is a `Failure`, and so is an access to a frame that is not there.

The data of a frame that the program does not read are left out: its local
variables are in the continuation of its `Point`.
-/

namespace Cpp20Examples.Nested

open Lib

variable {V : Type}

/-- Where a coroutine is, with what follows there. -/
inductive Point (V : Type)
  /-- suspended by `initial_suspend` -/
  | initial (body : Prog V)
  | running
  /-- suspended by `co_await GetData{}` -/
  | getData (k : Int → Prog V)
  /-- suspended by `co_await` of the `Async` of the frame `self`, which is destroyed
  behind the expression if it is a temporary -/
  | awaiting (self : Nat) (temporary : Bool) (k : V → Prog V)
  /-- suspended by `final_suspend` -/
  | final

/-- Whose `promise_type` the promise of a frame is. -/
inductive Kind
  | async
  | asyncResult
  deriving DecidableEq

/-- A coroutine frame with its `promise_base`.  `value` is `opt_return_value` of
an `Async`, `result` of an `AsyncResult`. -/
structure Frame (V : Type) where
  kind : Kind
  parent : Option Nat := none
  child : Option Nat := none
  parentHandle : Option Nat := none
  selfHandle : Option Nat := none
  scheduler : Option Nat := none
  value : Option V := none
  point : Point V

structure Scheduler where
  toResume : Option Nat := none
  resumeValue : Int := -1

/-- Who has control. -/
inductive Control (V : Type)
  /-- `spawn_task(scheduler, task)` is about to be called -/
  | spawn (scheduler task : Nat)
  /-- the coroutine of a frame runs -/
  | run (p : Nat) (body : Prog V)
  /-- the handle of a frame is about to be resumed -/
  | resume (p : Nat)
  /-- the caller of `spawn_task` or of `resumeWithData` -/
  | caller

/-- The frames, the number of the next frame, and the schedulers. -/
structure State (V : Type) where
  frames : Nat → Option (Frame V)
  next : Nat
  schedulers : Nat → Scheduler
  control : Control V

inductive Failure
  /-- `assert(sched)` -/
  | sched
  /-- `assert(!sched->to_resume)` -/
  | toResume
  /-- `assert(self.promise().parent == nullptr)` -/
  | parent
  /-- `assert(h_other.promise().child == nullptr)` -/
  | child
  /-- `assert(!opt_return_value.has_value())` -/
  | optReturnValue
  /-- `assert(self && self.promise().result)` -/
  | result
  /-- a null pointer, a handle that cannot be resumed, an empty optional -/
  | undefined
  /-- pointers in a circle -/
  | diverges
  /-- no coroutine has control -/
  | idle
  deriving DecidableEq

abbrev M := Except Failure

def assert (b : Bool) (e : Failure) : M Unit := if b then .ok () else .error e

/-- The value of a pointer or an optional that must not be empty. -/
def deref {α : Type} : Option α → M α
  | some x => .ok x
  | none => .error .undefined

namespace State

def frame (s : State V) (p : Nat) : M (Frame V) := deref (s.frames p)

def setFrame (s : State V) (p : Nat) (f : Frame V) : State V :=
  { s with frames := Function.update s.frames p (some f) }

/-- `self.destroy()` -/
def destroy (s : State V) (p : Nat) : State V :=
  { s with frames := Function.update s.frames p none }

/-- A coroutine is called: its frame is `s.next`. -/
def create (s : State V) (f : Frame V) : State V :=
  { s.setFrame s.next f with next := s.next + 1 }

end State

/-- `promise_base::setScheduler`, down the child links. -/
def setScheduler (sched : Nat) : Nat → Nat → State V → M (State V)
  | 0, _, _ => .error .diverges
  | fuel + 1, p, s => do
    let f ← s.frame p
    let s := s.setFrame p { f with scheduler := some sched }
    match f.child with
    | some c => setScheduler sched fuel c s
    | none => .ok s

/-! ### `GetData` -/

namespace GetData

/-- The first loop: the scheduler of the nearest promise that has one. -/
def findScheduler (s : State V) : Nat → Option Nat → M (Option Nat)
  | 0, _ => .error .diverges
  | _ + 1, none => .ok none
  | fuel + 1, some it => do
    let f ← s.frame it
    match f.scheduler with
    | some sched => .ok (some sched)
    | none => findScheduler s fuel f.parent

/-- The second loop: the promises up to one that has a scheduler get `sched`. -/
def propagateScheduler (sched : Nat) : Nat → Option Nat → State V → M (State V)
  | 0, _, _ => .error .diverges
  | _ + 1, none, s => .ok s
  | fuel + 1, some it, s => do
    let f ← s.frame it
    match f.scheduler with
    | some _ => .ok s
    | none =>
      propagateScheduler sched fuel f.parent (s.setFrame it { f with scheduler := some sched })

/-- `GetData::await_suspend`.  No loop visits more promises than were created. -/
def awaitSuspend (s : State V) (h : Nat) : M (State V) := do
  let found ← findScheduler s (s.next + 1) (some h)
  assert found.isSome .sched
  let sched ← deref found
  let s ← propagateScheduler sched (s.next + 1) (some h) s
  assert (s.schedulers sched).toResume.isNone .toResume
  return { s with
    schedulers := Function.update s.schedulers sched
      { s.schedulers sched with toResume := some h } }

/-- `GetData::await_resume` -/
def awaitResume (s : State V) (promise : Nat) : M Int := do
  let f ← s.frame promise
  let sched ← deref f.scheduler
  return (s.schedulers sched).resumeValue

end GetData

/-! ### `Async` -/

namespace Async

/-- `Async::await_suspend` -/
def awaitSuspend (s : State V) (self hOther : Nat) : M (State V) := do
  let promise ← s.frame self
  assert promise.parent.isNone .parent
  let s := s.setFrame self
    { promise with parent := some hOther, parentHandle := some hOther, selfHandle := some self }
  let other ← s.frame hOther
  assert other.child.isNone .child
  return s.setFrame hOther { other with child := some self }

/-- `Async::await_resume` -/
def awaitResume (s : State V) (self : Nat) : M (V × State V) := do
  let promise ← s.frame self
  let parent ← deref promise.parent
  let other ← s.frame parent
  let v ← deref promise.value
  return (v, s.setFrame parent { other with child := none })

end Async

namespace State

/-- `return_value` -/
def returnValue (s : State V) (p : Nat) (v : V) : M (State V) := do
  let f ← s.frame p
  match f.kind with
  | .async => assert f.value.isNone .optReturnValue
  | .asyncResult => .ok ()
  return s.setFrame p { f with value := some v }

/-- `final_suspend`: an `Async` transfers control to its parent. -/
def finalSuspend (s : State V) (p : Nat) : M (State V) := do
  let f ← s.frame p
  let s := s.setFrame p { f with point := .final }
  match f.kind, f.parentHandle with
  | .async, some parent => return { s with control := .resume parent }
  | _, _ => return { s with control := .caller }

/-- The coroutine of `p` is suspended or goes on. -/
def setPoint (s : State V) (p : Nat) (point : Point V) : M (State V) := do
  let f ← s.frame p
  return s.setFrame p { f with point }

/-- The body of `p` up to its next suspension. -/
def runBody (s : State V) (p : Nat) : Prog V → M (State V)
  | .ret v => do
    let s ← s.returnValue p v
    s.finalSuspend p
  | .getData k => do
    let s ← s.setPoint p (.getData k)
    let s ← GetData.awaitSuspend s p
    return { s with control := .caller }
  | .call body k => do
    let child := s.next
    let s := s.create { kind := .async, point := .initial body }
    let s ← s.setPoint p (.awaiting child true k)
    let s ← Async.awaitSuspend s child p
    return { s with control := .resume child }

/-- `h.resume()`, or a symmetric transfer to `h`. -/
def resume (s : State V) (p : Nat) : M (State V) := do
  let f ← s.frame p
  match f.point with
  | .initial body =>
    let s ← s.setPoint p .running
    return { s with control := .run p body }
  | .getData k =>
    let d ← GetData.awaitResume s p
    let s ← s.setPoint p .running
    return { s with control := .run p (k d) }
  | .awaiting self temporary k =>
    let (v, s) ← Async.awaitResume s self
    let s := if temporary then s.destroy self else s
    let s ← s.setPoint p .running
    return { s with control := .run p (k v) }
  | .running => .error .undefined
  | .final => .error .undefined

/-- `spawn_task(scheduler, task)`; its own coroutine is the frame `s.next`, whose
body is `co_return co_await task`. -/
def spawnTask (s : State V) (scheduler task : Nat) : M (State V) := do
  let s ← setScheduler scheduler (s.next + 1) task s
  let self := s.next
  let s := s.create { kind := .asyncResult, point := .awaiting task false .ret }
  let s ← Async.awaitSuspend s task self
  return { s with control := .resume task }

def step (s : State V) : M (State V) :=
  match s.control with
  | .spawn scheduler task => s.spawnTask scheduler task
  | .run p body => s.runBody p body
  | .resume p => s.resume p
  | .caller => .error .idle

/-- `Scheduler::resumeWithData`, up to the `resume` of the handle. -/
def resumeWithData (s : State V) (scheduler : Nat) (j : Int) : M (State V) := do
  let h ← deref (s.schedulers scheduler).toResume
  return { s with
    schedulers := Function.update s.schedulers scheduler { toResume := none, resumeValue := j }
    control := .resume h }

/-- `AsyncResult::result` -/
def result (s : State V) (self : Nat) : M V := do
  let f ← s.frame self
  assert f.value.isSome .result
  deref f.value

/-- A program as its caller creates it: the frame `0` of its outermost `Async`,
about to be given to `spawn_task`. -/
def init (scheduler : Nat) (body : Prog V) : State V where
  frames := Function.update (fun _ => none) 0 (some { kind := .async, point := .initial body })
  next := 1
  schedulers := fun _ => {}
  control := .spawn scheduler 0

end State

/-- The caller of the program has control. -/
def State.atCaller (s : State V) : Bool :=
  match s.control with
  | .caller => true
  | _ => false

theorem State.atCaller_iff {s : State V} : s.atCaller = true ↔ s.control = .caller := by
  unfold State.atCaller
  split <;> simp_all

/-- The frame of the `AsyncResult` that `spawn_task` returns. -/
def asyncResult : Nat := 1

/-- `resumeWithData`, where the caller has control and a coroutine is pending. -/
def State.feed (scheduler : Nat) (s : State V) (j : Int) : Option (State V) :=
  match s.control with
  | .caller => (s.resumeWithData scheduler j).toOption
  | _ => none

/-- The coroutines as a machine of their caller. -/
def machine (scheduler : Nat) : Driven (State V) Int where
  step s := s.step.toOption
  feed := State.feed scheduler
  step_of_feed := by
    intro s d s' h
    unfold State.feed at h
    split at h
    · rename_i hc
      rw [State.step, hc]
      rfl
    · exact absurd h (by simp)

end Cpp20Examples.Nested
