import Cpp20Examples.Lib.Container
import Cpp20Examples.Lib.System
import Mathlib.Logic.Function.Basic

/-!
# The timed scheduler

`utils/cooperative_tasks_with_asynchrony`: a coroutine that awaits a time point puts
itself into a priority queue with that time, and `run` resumes the entry with the
least time and handle, sleeping until it is due.

A step of the system takes place at a time `now`, not before the step before it: that
is what `std::chrono::system_clock` shows when the step reads it, and when
`sleep_until` returns.  Handles are compared by their addresses, of which nothing is
assumed.
-/

namespace Cpp20Examples.Asynchrony

open Lib

abbrev Handle := Nat

abbrev TimePoint := Int

/-- `timed_coroutine` -/
abbrev Entry := TimePoint × Handle

/-- What is left of a coroutine; what it does with the clock is what it awaits. -/
inductive Coro
  | done
  | now (rest : TimePoint → Coro)
  | await (time : TimePoint) (rest : Coro)
  | detach (child rest : Coro)

/-- `time_` is that of the awaitable, or of the `enqueue` in `detach`. -/
inductive Point
  | suspended (time_ : TimePoint) (rest : Coro)
  | running
  | final

/-- Where the thread is: in `main` with coroutines to detach, at the loop condition of
`run`, in `sleep_until`, behind the `if`, in `active.resume()`, or behind it. -/
inductive Place
  | main (coros : List Coro)
  | loop
  | sleeping (time : TimePoint)
  | due
  | running (active : Handle) (p : Coro)
  | resumed (active : Handle)
  | returned
  | failed

/-- `created` coroutines so far; their handles are the numbers below it.  The lists are
newest first: what was passed to `enqueue`, what was resumed, what was destroyed. -/
structure State (K : Type) where
  pending_coroutines_ : K
  created : Nat
  frames : Handle → Option Point
  place : Place
  clock : TimePoint
  requests : List Entry
  resumptions : List Entry
  destroyed : List Handle

/-- `std::greater<>` on entries. -/
def greater (address : Handle → Nat) (a b : Entry) : Bool :=
  b.1 < a.1 || (b.1 == a.1 && address b.2 < address a.2)

variable {K : Type} {address : Handle → Nat} (c : PriorityQueue K Entry (greater address))

namespace State

/-- `Scheduler::enqueue` -/
def enqueue (handle : Handle) (time : TimePoint) (rest : Coro) (s : State K) : State K :=
  { s with
    pending_coroutines_ := c.push (time, handle) s.pending_coroutines_
    frames := Function.update s.frames handle (some (.suspended time rest))
    requests := (time, handle) :: s.requests }

/-- `Task::detach` on a coroutine that has just been called. -/
def detach (child : Coro) (now : TimePoint) (s : State K) : State K :=
  { s.enqueue c s.created now child with created := s.created + 1 }

/-- The coroutine `active` runs one instruction. -/
def instr (now : TimePoint) (active : Handle) (p : Coro) (s : State K) : State K :=
  match p with
  | .done =>
    { s with frames := Function.update s.frames active (some .final), place := .resumed active }
  | .now rest => { s with place := .running active (rest now) }
  | .await time rest => { s.enqueue c active time rest with place := .resumed active }
  | .detach child rest => { s.detach c child now with place := .running active rest }

/-- `pop()` and `active.resume()`; a coroutine that is not suspended cannot be resumed. -/
def resume (top : Entry) (s : State K) : State K :=
  match s.frames top.2 with
  | some (.suspended _ rest) =>
    { s with
      pending_coroutines_ := c.pop s.pending_coroutines_
      frames := Function.update s.frames top.2 (some .running)
      place := .running top.2 rest
      resumptions := top :: s.resumptions }
  | _ => { s with place := .failed }

/-- `if (active.done()) active.destroy();` -/
def settle (active : Handle) (s : State K) : State K :=
  match s.frames active with
  | none => { s with place := .failed }
  | some .final =>
    { s with
      frames := Function.update s.frames active none
      destroyed := active :: s.destroyed
      place := .loop }
  | some _ => { s with place := .loop }

end State

/-- A step at the time `now`. -/
def step (s : State K) (now : TimePoint) : Option (State K) :=
  if now < s.clock then none
  else
    let s := { s with clock := now }
    match s.place with
    | .main [] => some { s with place := .loop }
    | .main (coro :: coros) => some { s.detach c coro now with place := .main coros }
    | .loop =>
      if c.empty s.pending_coroutines_ then some { s with place := .returned }
      else
        match c.top s.pending_coroutines_ with
        | none => some { s with place := .failed }
        | some top => some { s with place := if now < top.1 then .sleeping top.1 else .due }
    | .sleeping time => if now < time then none else some { s with place := .due }
    | .due =>
      match c.top s.pending_coroutines_ with
      | none => some { s with place := .failed }
      | some top => some (s.resume c top)
    | .running active p => some (s.instr c now active p)
    | .resumed active => some (s.settle active)
    | .returned => none
    | .failed => none

/-- `main` detaches the coroutines and calls `run`. -/
def system (coros : List Coro) (start : TimePoint) : System (State K) TimePoint where
  init := ⟨c.new, 0, fun _ => none, .main coros, start, [], [], []⟩
  step := step c

end Cpp20Examples.Asynchrony
