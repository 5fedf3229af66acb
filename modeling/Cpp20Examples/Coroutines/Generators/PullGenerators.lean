import Cpp20Examples.Coroutines.Generators.Designs

/-!
# Generators that are pulled

`generator<T>` of `coroutines/generator` and `Generator<int>` of `infiniteDataStream`: `next`
resumes the coroutine, and says whether it has come to another value.

* `calls_eq`: the calls of a `next` that resumes, for every number of calls.
* `next_safe_iff`: they are safe up to the one that finds the end.
* `exhausted_calls`: those of `exhausted`, which asks `done` first, always are.
-/

namespace Cpp20Examples.Generators

open Lib Lib.Generator

/-! ### The program -/

section Pull

variable {ν P C : Type}

/-- `coroutine.resume(), !coroutine.done()` -/
def pull (D : Design ν Unit P) (next : Code ν Unit C) (f : Frame P C) :
    Option (Bool × Frame P C) :=
  (D.resume next f).map fun f' => (!f'.done, f')

end Pull

namespace PullGenerator

/-- The promise of `generator<T>`; `current_value` is not set before the first `co_yield`. -/
structure Promise (T : Type) where
  currentValue : Option T := none

/-- An exception terminates the program.  A body that falls off its end is at the final suspend
point. -/
def promiseType (T : Type) : Design T Unit (Promise T) where
  promise := {}
  eager := false
  yieldValue _ value := ⟨some value⟩
  returnValue p _ := p
  unhandledException _ := none

/-- `generator<T>`, with its handle. -/
abbrev Handle (T C : Type) := Option (Frame (Promise T) C)

section Definitions

variable {T C : Type}

/-- `return coroutine ? (coroutine.resume(), !coroutine.done()) : false;` -/
def next (code : Code T Unit C) : Handle T C → Option (Bool × Handle T C)
  | some f => (pull (promiseType T) code f).map fun r => (r.1, some r.2)
  | none => some (false, none)

def value (g : Handle T C) : Option T := g.bind fun f => f.promise.currentValue

end Definitions

end PullGenerator

namespace InfiniteDataStream

/-- The promise of `Generator<int>`; `current_value` is not set before the first `co_yield`. -/
structure Promise where
  currentValue : Option Int32 := none

/-- An exception ends the program, with `std::exit(1)`. -/
def promiseType : Design Int32 Unit Promise where
  promise := {}
  eager := false
  yieldValue _ value := ⟨some value⟩
  returnValue p _ := p
  unhandledException _ := none

section Definitions

variable {C : Type}

/-- `coro.resume(); return not coro.done();` -/
def next (code : Code Int32 Unit C) : Frame Promise C → Option (Bool × Frame Promise C) :=
  pull promiseType code

def getValue (g : Frame Promise C) : Option Int32 := g.promise.currentValue

end Definitions

end InfiniteDataStream

/-! ### What should hold -/

section Calls

variable {F ν : Type}

/-- What calls of `next` give: the value, where it returns true. -/
def calls (next : F → Option (Bool × F)) (value : F → Option ν) : Nat → F → Option (List (Option ν))
  | 0, _ => some []
  | k + 1, g =>
    (next g).bind fun r =>
      (if r.1 then (value r.2).map some else some none).bind fun v =>
        (calls next value k r.2).map (v :: ·)

/-- **Safe calls.**  No call is undefined; those that return true give the values, in order,
and all later ones return false. -/
def Safe (next : F → Option (Bool × F)) (value : F → Option ν) (start : Option F) (vs : List ν)
    (k : Nat) : Prop :=
  start.bind (calls next value k) = some ((List.range k).map fun i => vs[i]?)

end Calls

/-! ### The calls -/

section Pulling

variable {ν P C : Type} {D : Design ν Unit P} {code : Code ν Unit C} {read : P → Option ν}
  {f : Frame P C} {vs : List ν}

theorem range_map_cons (v : ν) (vs : List ν) (k : Nat) :
    (List.range (k + 1)).map (fun i => (v :: vs)[i]?) =
      some v :: (List.range k).map fun i => vs[i]? := by
  rw [List.range_succ_eq_map, List.map_cons, List.map_map]
  rfl

theorem calls_final (h : f.point = .final) (k : Nat) :
    calls (pull D code) (fun f => read f.promise) (k + 1) f = none := by
  rw [calls, pull, resume_final h]
  rfl

/-- **All calls of a `next` that resumes.**  They are defined up to the one that finds the
end. -/
theorem calls_eq (hread : ∀ p v, read (D.yieldValue p v) = some v)
    (hf : Before code (.coReturn ()) vs f) (k : Nat) :
    calls (pull D code) (fun f => read f.promise) k f =
      if k ≤ vs.length + 1 then some ((List.range k).map fun i => vs[i]?) else none := by
  induction vs generalizing f k with
  | nil =>
    cases k with
    | zero => rfl
    | succ k =>
      obtain ⟨f', hresume, hfinal⟩ := resume_landed hread (fun _ => rfl) hf
      rw [calls, pull, hresume, Option.map_some, Option.bind_some, hfinal.done_nil]
      -- this call has found the end, and no other one is defined
      cases k with
      | zero => rfl
      | succ k =>
        rw [calls_final hfinal.1, if_neg (by simp)]
        rfl
  | cons v vs ih =>
    cases k with
    | zero => rfl
    | succ k =>
      obtain ⟨f', hresume, hlanded⟩ := resume_landed hread (fun _ => rfl) hf
      rw [calls, pull, hresume, Option.map_some, Option.bind_some, hlanded.done_cons]
      dsimp only
      rw [hlanded.1, ih hlanded.2, range_map_cons, List.length_cons]
      by_cases hk : k ≤ vs.length + 1
      · rw [if_pos hk, if_pos (Nat.succ_le_succ hk)]
        rfl
      · rw [if_neg hk, if_neg (fun hk' => hk (Nat.le_of_succ_le_succ hk'))]
        rfl

/-- The test of the handle in `generator<T>::next` never fails. -/
theorem calls_some {T : Type} {code : Code T Unit C} {f : Frame (PullGenerator.Promise T) C}
    (k : Nat) :
    calls (PullGenerator.next code) PullGenerator.value k (some f) =
      calls (pull (PullGenerator.promiseType T) code) (fun f => f.promise.currentValue) k f := by
  induction k generalizing f with
  | zero => rfl
  | succ k ih =>
    rw [calls, calls, PullGenerator.next]
    cases pull (PullGenerator.promiseType T) code f with
    | none => rfl
    | some r =>
      rw [Option.map_some, Option.bind_some, Option.bind_some]
      dsimp only
      rw [ih]
      rfl

end Pulling

section Safety

variable {T C C' : Type} {code : Code T Unit C} {c : C} {L : List T} {code' : Code Int32 Unit C'}
  {c' : C'} {L' : List Int32}

theorem PullGenerator.safe_iff (h : Produces code (.coReturn ()) c L) (k : Nat) :
    Safe (PullGenerator.next code) PullGenerator.value
      (((PullGenerator.promiseType T).call code c).map some) L k ↔ k ≤ L.length + 1 := by
  obtain ⟨f, hcall, hbefore⟩ := call_before (D := PullGenerator.promiseType T) rfl h
  rw [Safe, hcall, Option.map_some, Option.bind_some, calls_some, calls_eq (fun _ _ => rfl) hbefore]
  simp

theorem InfiniteDataStream.safe_iff (h : Produces code' (.coReturn ()) c' L') (k : Nat) :
    Safe (InfiniteDataStream.next code') InfiniteDataStream.getValue
      (InfiniteDataStream.promiseType.call code' c') L' k ↔ k ≤ L'.length + 1 := by
  obtain ⟨f, hcall, hbefore⟩ := call_before (D := InfiniteDataStream.promiseType) rfl h
  have hread : ∀ p v, (InfiniteDataStream.promiseType.yieldValue p v).currentValue = some v :=
    fun _ _ => rfl
  have hcalls : calls (InfiniteDataStream.next code') InfiniteDataStream.getValue k f =
      if k ≤ L'.length + 1 then some ((List.range k).map fun i => L'[i]?) else none :=
    calls_eq hread hbefore k
  rw [Safe, hcall, Option.bind_some, hcalls]
  simp

/-- **The calls that are safe**: one for each value, and one that finds the end.  The next one
resumes a coroutine at its final suspend point. -/
theorem next_safe_iff (h : Produces code (.coReturn ()) c L)
    (h' : Produces code' (.coReturn ()) c' L') (k : Nat) :
    (Safe (PullGenerator.next code) PullGenerator.value
      (((PullGenerator.promiseType T).call code c).map some) L k ↔ k ≤ L.length + 1) ∧
    (Safe (InfiniteDataStream.next code') InfiniteDataStream.getValue
      (InfiniteDataStream.promiseType.call code' c') L' k ↔ k ≤ L'.length + 1) :=
  ⟨PullGenerator.safe_iff h k, InfiniteDataStream.safe_iff h' k⟩

/-- Two values, and no value: three calls. -/
theorem next_safe_iff_two :
    Safe (PullGenerator.next (yielding (.coReturn ()))) PullGenerator.value
      (((PullGenerator.promiseType Nat).call (yielding (.coReturn ())) [5, 7]).map some) [5, 7] 3 ∧
    ¬Safe (InfiniteDataStream.next (yielding (.coReturn ()))) InfiniteDataStream.getValue
      (InfiniteDataStream.promiseType.call (yielding (.coReturn ())) []) [] 3 :=
  have h := next_safe_iff (produces_yielding (.coReturn ()) [5, 7])
    (produces_yielding (.coReturn ()) []) 3
  ⟨h.1.mpr (by decide), fun hsafe => absurd (h.2.mp hsafe) (by decide)⟩

/-- The second call on a generator without values resumes it at its final suspend point. -/
theorem next_resumes_final :
    ¬Safe (PullGenerator.next (yielding (.coReturn ()))) PullGenerator.value
      (((PullGenerator.promiseType Nat).call (yielding (.coReturn ())) []).map some) [] 2 ∧
    ¬Safe (InfiniteDataStream.next (yielding (.coReturn ()))) InfiniteDataStream.getValue
      (InfiniteDataStream.promiseType.call (yielding (.coReturn ())) []) [] 2 := by
  constructor
  · intro h
    cases h
  · intro h
    cases h

/-! ### A test before the resumption -/

/-- `not x.exhausted()` -/
def notExhausted (code : Code T Unit C) (f : Frame (GeneratorPromise T) C) :
    Option (Bool × Frame (GeneratorPromise T) C) :=
  (Generator.exhausted code f).map fun r => (!r.1, r.2)

/-- At the end `exhausted` does not resume. -/
theorem exhausted_final {f : Frame (GeneratorPromise T) C} (h : f.point = .final) (k : Nat) :
    calls (notExhausted code) Generator.get k f =
      some ((List.range k).map fun i => ([] : List T)[i]?) := by
  have hdone : f.done = true := by rw [Frame.done, h]
  induction k with
  | zero => rfl
  | succ k ih =>
    rw [calls, notExhausted, Generator.exhausted, if_pos hdone, Option.map_some, Option.map_some,
      Option.bind_some, hdone]
    dsimp only
    rw [ih, List.range_succ_eq_map, List.map_cons, List.map_map]
    rfl

theorem notExhausted_before {f : Frame (GeneratorPromise T) C}
    (h : Before code (.coReturn ()) L f) : ∃ f', notExhausted code f = some (!f'.done, f') ∧
      Landed (generatorPromise T) code (.coReturn ()) GeneratorPromise.result L f' := by
  obtain ⟨f', hresume, hlanded⟩ := resume_landed (D := generatorPromise T) result_yieldValue
    generatorPromise_finish h
  refine ⟨f', ?_, hlanded⟩
  rw [notExhausted, Generator.exhausted, if_neg (by rw [h.done]; decide), hresume]
  rfl

/-- **`exhausted` is safe** for every number of calls. -/
theorem exhausted_calls (h : Produces code (.coReturn ()) c L) (k : Nat) :
    Safe (notExhausted code) Generator.get ((generatorPromise T).call code c) L k := by
  obtain ⟨f, hcall, hbefore⟩ := call_before (D := generatorPromise T) rfl h
  rw [Safe, hcall, Option.bind_some]
  clear hcall h
  induction L generalizing f k with
  | nil =>
    cases k with
    | zero => rfl
    | succ k =>
      obtain ⟨f', hresume, hfinal⟩ := notExhausted_before hbefore
      rw [calls, hresume, Option.bind_some, hfinal.done_nil]
      dsimp only
      rw [exhausted_final hfinal.1, List.range_succ_eq_map, List.map_cons, List.map_map]
      rfl
  | cons v vs ih =>
    cases k with
    | zero => rfl
    | succ k =>
      obtain ⟨f', hresume, hlanded⟩ := notExhausted_before hbefore
      rw [calls, hresume, Option.bind_some, hlanded.done_cons]
      dsimp only
      rw [Generator.get, hlanded.1, ih k f' hlanded.2, range_map_cons]
      rfl

end Safety

end Cpp20Examples.Generators
