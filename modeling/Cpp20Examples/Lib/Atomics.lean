import Cpp20Examples.Lib.System

/-!
# Threads of atomic operations

A thread runs a list of operations on a shared memory `σ`.  One step of the
system is one operation of one thread, so the memory is sequentially consistent.
An operation is done, or `blocked` until the memory allows it (the wait of an
atomic, the acquire of a semaphore), or outside its domain: the system is then at
`fault` and stops.  `loop p body` is `while (p) body`, its test one step of its
own.

The state keeps the `history` of the operations, newest first, with the threads
that did them.
-/

namespace Lib.Atomics

/-- What an operation does. -/
inductive Outcome (σ : Type)
  | done (m : σ)
  | blocked
  | fault

inductive Instr (ι σ : Type)
  | op (o : ι)
  | loop (p : σ → Bool) (body : List (Instr ι σ))

abbrev Code (ι σ : Type) := List (Instr ι σ)

structure State (ι σ : Type) where
  data : σ
  threads : List (Code ι σ)
  history : List (Nat × ι) := []
  fault : Bool := false

variable {ι σ : Type} (sem : ι → σ → Outcome σ)

def stepCode (s : State ι σ) (t : Nat) : Code ι σ → Option (State ι σ)
  | [] => none
  | .op o :: c =>
    match sem o s.data with
    | .done m =>
      some { s with data := m, threads := s.threads.set t c, history := (t, o) :: s.history }
    | .blocked => none
    | .fault => some { s with fault := true }
  | .loop p body :: c =>
    some { s with threads := s.threads.set t (if p s.data then body ++ .loop p body :: c else c) }

def step (s : State ι σ) (t : Nat) : Option (State ι σ) :=
  if s.fault then none else s.threads[t]?.bind (stepCode sem s t)

/-- The system of the threads `threads` on the memory `data`; an action is the
number of the thread that moves. -/
def system (data : σ) (threads : List (Code ι σ)) : System (State ι σ) Nat where
  init := { data, threads }
  step := step sem

/-- Thread `t` can take a step. -/
def CanRun (s : State ι σ) (t : Nat) : Prop := ∃ s', step sem s t = some s'

end Lib.Atomics
