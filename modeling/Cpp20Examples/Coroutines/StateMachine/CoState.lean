import Cpp20Examples.Lib.Coroutine
import Cpp20Examples.Lib.System

/-!
# Two coroutine state machines

The `CoState` of `recursion` and that of `crsm` let a coroutine `co_await` a fresh
one, and both keep a `nextHandle` in the promise.

* In `recursion` it points down, from the caller to the awaited coroutine;
  `co_await` and the end of a coroutine give control back to the caller of
  `nextStep`, which looks for the deepest unfinished coroutine and resumes it.
* In `crsm` it points up, from the awaited coroutine to its caller; `co_await`
  starts the awaited coroutine, whose final suspension resumes its caller, so one
  call of `start` runs everything.

One step of `nextStep` or `start` is one access to a handle or one instruction of
the coroutine that runs.
-/

namespace Cpp20Examples.StateMachine

open Lib Lib.Coroutine

/-- `co_await` on a `CoState` gives nothing. -/
abbrev Nothing (_ : Unit) : Type := Unit

abbrev CoInstr (ε C : Type) := Instr ε Unit Unit Nothing C

abbrev CoState (ε C : Type) := State ε Unit Unit (Option Handle) Nothing C

abbrev CoFrame (C : Type) := Frame Unit (Option Handle) Nothing C

abbrev CoHeap (C : Type) := Heap Unit (Option Handle) Nothing C

/-- `recursion`: the promise is `nextHandle`, set in the caller. -/
def recursionDesign : Design Unit Unit (Option Handle) Nothing where
  promise _ := none
  awaitSuspend hnd _ p _ := (p, some hnd, none)
  returnValue _ _ p := p
  finalSuspend _ := none
  awaitResume _ _ := some ()

/-- `crsm`: the promise is `nextHandle`, set in the awaited coroutine; `FinalAwaiter`
resumes it. -/
def crsmDesign : Design Unit Unit (Option Handle) Nothing where
  promise _ := none
  awaitSuspend hnd caller _ q := (some caller, q, some hnd)
  returnValue _ _ p := p
  finalSuspend p := p
  awaitResume _ _ := some ()

/-- One call of `nextStep` or `start`: whether it resumed a coroutine, and what it
returned. -/
structure Call where
  resumed : Bool
  returned : Bool
  deriving DecidableEq

/-- Where the program is: in front of the next call, in the loop of `nextStep` with
`innerHdl`, or inside the resumed coroutine. -/
inductive Place
  | caller
  | walking (innerHdl : Handle)
  | inside

/-- The machine is the coroutine 0; its calls are newest first. -/
structure Machine (ε C : Type) where
  co : CoState ε C
  place : Place
  calls : List Call

variable {ε C : Type}

namespace Machine

/-- A destroyed frame was touched. -/
def fail (m : Machine ε C) : Machine ε C :=
  { m with co := { m.co with failed := some .destroyed } }

/-- `if (!hnd || hnd.done()) return false;` -/
def enter (m go : Machine ε C) : Machine ε C :=
  match m.co.heap.get 0 with
  | none => m.fail
  | some f => if f.done then { m with calls := ⟨false, false⟩ :: m.calls } else go

/-- `resume()` -/
def resume (m : Machine ε C) (h : Handle) : Machine ε C :=
  { m with co := { m.co with control := some h }, place := .inside }

/-- `return !hnd.done();` -/
def leave (m : Machine ε C) : Machine ε C :=
  match m.co.heap.get 0 with
  | none => m.fail
  | some f => { m with place := .caller, calls := ⟨true, !f.done⟩ :: m.calls }

/-- One round of the loop of `nextStep`. -/
def walk (m : Machine ε C) (innerHdl : Handle) : Machine ε C :=
  match m.co.heap.get innerHdl with
  | none => m.fail
  | some f =>
    match f.promise with
    | none => m.resume innerHdl
    | some nextHandle =>
      match m.co.heap.get nextHandle with
      | none => m.fail
      | some f' => if f'.done then m.resume innerHdl else { m with place := .walking nextHandle }

/-- The coroutine that was resumed runs until control is back. -/
def runInside (next : C → CoInstr ε C) (D : Design Unit Unit (Option Handle) Nothing)
    (m : Machine ε C) : Machine ε C :=
  match step next D m.co with
  | some co => { m with co }
  | none => m.leave

/-- The machine of a coroutine that has just been called. -/
def call (D : Design Unit Unit (Option Handle) Nothing) (c : C) : Machine ε C :=
  ⟨State.call D () c, .caller, []⟩

end Machine

/-- Repeated calls of `recursion`'s `nextStep`. -/
def nextStep (next : C → CoInstr ε C) (m : Machine ε C) : Option (Machine ε C) :=
  if m.co.failed.isSome then none
  else some <|
    match m.place with
    | .caller => m.enter { m with place := .walking 0 }
    | .walking innerHdl => m.walk innerHdl
    | .inside => m.runInside next recursionDesign

/-- `while (machine.nextStep())` -/
def whileNextStep (next : C → CoInstr ε C) (m : Machine ε C) : Option (Machine ε C) :=
  match m.place, m.calls with
  | .caller, ⟨_, false⟩ :: _ => none
  | _, _ => nextStep next m

/-- Repeated calls of `crsm`'s `start`. -/
def start (next : C → CoInstr ε C) (m : Machine ε C) : Option (Machine ε C) :=
  if m.co.failed.isSome then none
  else
    match m.place with
    | .caller => some (m.enter (m.resume 0))
    | .walking _ => none
    | .inside => some (m.runInside next crsmDesign)

/-- The runs of `nextStep`; nothing is to be chosen in a step. -/
def system (next : C → CoInstr ε C) (c : C) : System (Machine ε C) Unit where
  init := .call recursionDesign c
  step m _ := nextStep next m

/-- The steps of the loop are steps of the calls. -/
theorem nextStep_of_while {next : C → CoInstr ε C} (m m' : Machine ε C)
    (h : whileNextStep next m = some m') : nextStep next m = some m' := by
  unfold whileNextStep at h
  split at h
  · exact absurd h (by simp)
  · exact h

end Cpp20Examples.StateMachine
