import Cpp20Examples.Lib.Generator
import Mathlib.Tactic.Common

/-!
# A suspended and an unsuspended loop

`co_yield_suspended_loop` keeps the last yielded value in the promise, and its `main` resumes
the coroutine between two reads of it.  In `co_yield_unsuspended_loop` a `co_yield` goes on at
once, so the whole body runs in the call and leaves its values in a queue, which `main` drains.

* `Unsuspended.reports`: the second program reports the values of every body.
* `Suspended.delivers`: so does the first one when there are values.
* `loops_agree_iff`: without values, it does not.
-/

namespace Cpp20Examples.YieldLoops

open Lib Lib.Generator

/-! ### The suspended loop -/

namespace Suspended

structure Promise where
  returnedValue : Int32 := 0
  yieldedValue : Int32 := 0
  deriving DecidableEq

/-- `unhandled_exception` aborts. -/
def promiseType : Design Int32 Int32 Promise where
  promise := {}
  eager := true
  yieldValue p value := { p with yieldedValue := value }
  returnValue p value := { p with returnedValue := value }
  unhandledException _ := none

section Definitions

variable {C : Type}

/-- `handle.resume(); return handle.done();` -/
def resume (next : Code Int32 Int32 C) (task : Frame Promise C) :
    Option (Bool × Frame Promise C) :=
  (promiseType.resume next task).map fun task' => (task'.done, task')

/-- `do { use(task.get_yielded_value()); } while (!task.resume());` -/
def loop (next : Code Int32 Int32 C) : Loop (Frame Promise C) Int32 :=
  doWhile (fun task => some task.promise.yieldedValue) fun task =>
    (resume next task).map fun r => (!r.1, r.2)

end Definitions

end Suspended

/-! ### The unsuspended loop -/

namespace Unsuspended

/-- `mYieldedValues` is a queue. -/
structure Promise where
  returnedValue : Int32 := 0
  yieldedValues : List Int32 := []
  deriving DecidableEq

/-- `unhandled_exception` aborts. -/
def promiseType : Design Int32 Int32 Promise where
  promise := {}
  eager := true
  yieldValue p value := { p with yieldedValues := p.yieldedValues ++ [value] }
  returnValue p value := { p with returnedValue := value }
  unhandledException _ := none

/-- Where the program is: in the body, which runs in the call, in one of the loops of `main`
with what was reported, or at its end. -/
inductive State (C : Type)
  | body (p : Promise) (c : C)
  | copy (task : Frame Promise C)
  | drain (task : Frame Promise C) (yieldedValues reported : List Int32)
  | finished (reported : List Int32) (returned : Int32)
  | undefined

section Definitions

variable {C : Type}

/-- The call suspends at the end of the body only, as the awaiters of the initial suspension and
of `co_yield` are `suspend_never`. -/
def step (next : Code Int32 Int32 C) : State C → Option (State C)
  | .body p c =>
    match next c with
    | some (.coYield value rest) => some (.body (promiseType.yieldValue p value) rest)
    | some (.ends ending) =>
      match promiseType.finish p ending with
      | some p' => some (.copy ⟨p', .final⟩)
      | none => some .undefined
    | none => some .undefined
  | .copy task =>
    if !task.done then some (.copy task) else some (.drain task task.promise.yieldedValues [])
  | .drain task (value :: values) reported => some (.drain task values (reported ++ [value]))
  | .drain task [] reported => some (.finished reported task.promise.returnedValue)
  | .finished .. | .undefined => none

end Definitions

end Unsuspended

/-! ### What should hold -/

section Agreement

variable {C : Type} {next : Code Int32 Int32 C} {c : C} {vs : List Int32} {returned : Int32}

/-- **The programs agree**: they report the yielded values, in order, and the returned one, and
nothing in them is undefined. -/
structure Agree (next : Code Int32 Int32 C) (c : C) (vs : List Int32) (returned : Int32) :
    Prop where
  suspended : Delivers (Suspended.loop next) (Suspended.promiseType.call next c) vs
    fun task => task.promise.returnedValue = returned
  unsuspended : Steps (Unsuspended.step next) (.body Unsuspended.promiseType.promise c)
    (.finished vs returned)

/-! ### What the programs report -/

theorem Unsuspended.body_steps (h : Produces next (.coReturn returned) c vs) (p : Promise) :
    Steps (step next) (.body p c) (.copy ⟨⟨returned, p.yieldedValues ++ vs⟩, .final⟩) := by
  induction h generalizing p with
  | ends hnext =>
    apply Steps.single
    rw [step, hnext, List.append_nil]
    rfl
  | @coYield c rest v vs hnext _ ih =>
    have hstep : step next (.body p c) = some (.body (promiseType.yieldValue p v) rest) := by
      rw [step, hnext]
    have hrest := ih (promiseType.yieldValue p v)
    rw [show (promiseType.yieldValue p v).yieldedValues = p.yieldedValues ++ [v] from rfl,
      List.append_assoc] at hrest
    exact .head hstep hrest

theorem Unsuspended.drain_steps (task : Frame Promise C) (values reported : List Int32) :
    Steps (step next) (.drain task values reported)
      (.finished (reported ++ values) task.promise.returnedValue) := by
  induction values generalizing reported with
  | nil =>
    rw [List.append_nil]
    exact .single rfl
  | cons value values ih =>
    have hrest := ih (reported ++ [value])
    rw [List.append_assoc] at hrest
    exact .head rfl hrest

/-- **The unsuspended program reports all values**, also when there are none. -/
theorem Unsuspended.reports (h : Produces next (.coReturn returned) c vs) :
    Steps (step next) (.body promiseType.promise c) (.finished vs returned) :=
  (body_steps h _).trans (.head rfl (drain_steps _ _ []))

theorem Suspended.called (h : Produces next (.coReturn returned) c vs) :
    ∃ task, promiseType.call next c = some task ∧
      Landed promiseType next (.coReturn returned) (fun p => some p.yieldedValue) vs task :=
  call_landed rfl (fun _ _ => rfl) (fun _ => rfl) h

/-- **The suspended program reports all values when there are some.** -/
theorem Suspended.delivers {v : Int32} (h : Produces next (.coReturn returned) c (v :: vs)) :
    Delivers (loop next) (promiseType.call next c) (v :: vs)
      fun task => task.promise.returnedValue = returned := by
  have hloop : Delivers (loop next) (promiseType.call next c) (v :: vs)
      (promiseType.Ended (.coReturn returned)) := by
    refine .of_doWhile (fun _ _ => rfl) (fun _ => rfl) ?_ (called h)
    intro task _
    rw [resume, Option.map_map]
    rfl
  refine hloop.mono ?_
  rintro task ⟨-, p, hp⟩
  rw [← Option.some.inj hp]
  rfl

/-- Without values, the loop resumes the coroutine at its final suspend point. -/
theorem Suspended.undefined (h : Produces next (.coReturn returned) c []) :
    Steps (loop next).step (Loop.enter (promiseType.call next c)) .undefined := by
  obtain ⟨task, hcall, hended⟩ := called h
  rw [hcall]
  apply Steps.single
  rw [Loop.enter, Loop.step, loop, doWhile, Option.bind_some, resume, resume_final hended.1]
  rfl

/-- **The programs agree exactly when the body yields something.** -/
theorem loops_agree_iff (h : Produces next (.coReturn returned) c vs) :
    Agree next c vs returned ↔ vs ≠ [] := by
  constructor
  · rintro hagree rfl
    exact hagree.suspended.safe _ (Suspended.undefined h) rfl
  · intro hne
    obtain ⟨v, vs, rfl⟩ := List.exists_cons_of_ne_nil hne
    exact ⟨Suspended.delivers h, Unsuspended.reports h⟩

/-- The body of the programs. -/
theorem loops_agree_iff_three : Agree (yielding (.coReturn 42)) [1, 2, 3] [1, 2, 3] 42 :=
  (loops_agree_iff (produces_yielding (.coReturn 42) [1, 2, 3])).mpr (by decide)

/-- A body that yields nothing, and returns 42. -/
theorem final_resumed : ¬Agree (yielding (.coReturn 42)) [] [] 42 := by
  intro hagree
  have hread : Steps (Suspended.loop (yielding (.coReturn 42))).step
      (Loop.enter (Suspended.promiseType.call (yielding (.coReturn 42)) [])) .undefined :=
    .single rfl
  exact hagree.suspended.safe _ hread rfl

end Agreement

end Cpp20Examples.YieldLoops
