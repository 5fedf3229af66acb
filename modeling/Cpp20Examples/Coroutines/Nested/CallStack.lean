import Cpp20Examples.Lib.Driven

/-!
# Async programs and their call stack

A body of an `Async` returns, awaits an int of the scheduler, or awaits a fresh
child: a `Prog`.  `co_await GetCallStack{}` resumes its own coroutine at once and
changes nothing, so it has no case of its own.  `Prog.eval` is the plain recursive
evaluation.

`CallStack` is what the linked promises of `nested` are for: the body of the
innermost coroutine over the continuations of its callers, suspended where the
body awaits an int.  It does not say where the continuations are kept.

* `drive_eval`: a body that runs over any continuations returns the value of its
  evaluation to them, and has read the ints of the evaluation.
* `drive_spawn`: the same of a spawned program.
-/

namespace Cpp20Examples.Nested

open Lib

/-- The body of an `Async`; `V` holds the results of all the coroutines. -/
inductive Prog (V : Type)
  /-- `co_return v;` -/
  | ret (v : V)
  /-- `co_await GetData{}`, and what follows with the int -/
  | getData (k : Int → Prog V)
  /-- `co_await` of a fresh `Async`, and what follows with its result -/
  | call (child : Prog V) (k : V → Prog V)

variable {V : Type}

/-- The plain evaluation, which reads `data i`, `data (i + 1)`, …: the result, and
the index of the first int that is not read. -/
def Prog.eval (data : Nat → Int) : Prog V → Nat → V × Nat
  | .ret v, i => (v, i)
  | .getData k, i => (k (data i)).eval data (i + 1)
  | .call child k, i => (k (child.eval data i).1).eval data (child.eval data i).2

/-! ### The call stack -/

/-- What the innermost coroutine does. -/
inductive Mode (V : Type)
  /-- the program is about to be spawned -/
  | spawn (body : Prog V)
  /-- the coroutine exists and has not begun -/
  | start (body : Prog V)
  | run (body : Prog V)
  /-- it waits for an int; the caller of the program has control -/
  | suspended (k : Int → Prog V)
  /-- it is about to go on with an int -/
  | resumed (k : Int → Prog V) (d : Int)
  /-- it has completed, and its parent is about to go on -/
  | returned (v : V)
  /-- the outermost body has completed, and so will the result of the program -/
  | finish (v : V)
  | done (v : V)

structure CallStack (V : Type) where
  mode : Mode V
  conts : List (V → Prog V) := []

namespace CallStack

def step : CallStack V → Option (CallStack V)
  | ⟨.spawn body, ks⟩ => some ⟨.start body, ks⟩
  | ⟨.start body, ks⟩ => some ⟨.run body, ks⟩
  | ⟨.run (.ret v), ks⟩ => some ⟨.returned v, ks⟩
  | ⟨.run (.getData k), ks⟩ => some ⟨.suspended k, ks⟩
  | ⟨.run (.call child k), ks⟩ => some ⟨.start child, k :: ks⟩
  | ⟨.suspended _, _⟩ => none
  | ⟨.resumed k d, ks⟩ => some ⟨.run (k d), ks⟩
  | ⟨.returned v, k :: ks⟩ => some ⟨.run (k v), ks⟩
  | ⟨.returned v, []⟩ => some ⟨.finish v, []⟩
  | ⟨.finish v, ks⟩ => some ⟨.done v, ks⟩
  | ⟨.done _, _⟩ => none

def feed : CallStack V → Int → Option (CallStack V)
  | ⟨.suspended k, ks⟩, d => some ⟨.resumed k d, ks⟩
  | _, _ => none

/-- The call stack as a machine of its caller. -/
def machine : Driven (CallStack V) Int where
  step := step
  feed := feed
  step_of_feed := by
    rintro ⟨mode, ks⟩ d s' h
    cases mode <;> first | rfl | exact absurd h (by simp [feed])

/-- **A body returns its evaluation to its continuations.** -/
theorem drive_eval (data : Nat → Int) (body : Prog V) (ks : List (V → Prog V)) (i : Nat) :
    Relation.ReflTransGen (machine.Drive data) (⟨.run body, ks⟩, i)
      (⟨.returned (body.eval data i).1, ks⟩, (body.eval data i).2) := by
  induction body generalizing ks i with
  | ret v => exact .single (.step rfl)
  | getData k ih =>
    have hsuspend : machine.Drive data (⟨.run (.getData k), ks⟩, i) (⟨.suspended k, ks⟩, i) :=
      .step rfl
    have hdatum : machine.Drive data (⟨.suspended k, ks⟩, i) (⟨.resumed k (data i), ks⟩, i + 1) :=
      .feed rfl
    have hresume : machine.Drive data (⟨.resumed k (data i), ks⟩, i + 1)
        (⟨.run (k (data i)), ks⟩, i + 1) := .step rfl
    exact .head hsuspend (.head hdatum (.head hresume (ih (data i) ks (i + 1))))
  | call child k ihc ihk =>
    have hcall : machine.Drive data (⟨.run (.call child k), ks⟩, i) (⟨.start child, k :: ks⟩, i) :=
      .step rfl
    have hstart : machine.Drive data (⟨.start child, k :: ks⟩, i) (⟨.run child, k :: ks⟩, i) :=
      .step rfl
    have hreturn : machine.Drive data
        (⟨.returned (child.eval data i).1, k :: ks⟩, (child.eval data i).2)
        (⟨.run (k (child.eval data i).1), ks⟩, (child.eval data i).2) := .step rfl
    have hchild := (ihc (k :: ks) i).tail hreturn
    exact .head hcall (.head hstart (hchild.trans (ihk _ ks _)))

theorem drive_spawn (data : Nat → Int) (body : Prog V) :
    Relation.ReflTransGen (machine.Drive data) (⟨.spawn body, []⟩, 0)
      (⟨.done (body.eval data 0).1, []⟩, (body.eval data 0).2) := by
  have hspawn : machine.Drive data (⟨.spawn body, []⟩, 0) (⟨.start body, []⟩, 0) := .step rfl
  have hstart : machine.Drive data (⟨.start body, []⟩, 0) (⟨.run body, []⟩, 0) := .step rfl
  have hreturn : machine.Drive data (⟨.returned (body.eval data 0).1, []⟩, (body.eval data 0).2)
      (⟨.finish (body.eval data 0).1, []⟩, (body.eval data 0).2) := .step rfl
  have hfinish : machine.Drive data (⟨.finish (body.eval data 0).1, []⟩, (body.eval data 0).2)
      (⟨.done (body.eval data 0).1, []⟩, (body.eval data 0).2) := .step rfl
  exact .head hspawn (.head hstart (((drive_eval data body [] 0).tail hreturn).tail hfinish))

end CallStack

end Cpp20Examples.Nested
