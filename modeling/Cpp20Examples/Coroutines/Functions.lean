import Mathlib.Tactic.Common

/-!
# Eager and lazy functions

`Function<T>` of `utils/function` and `LazyFunction<T>` of `utils/lazy_function`: coroutines
that are converted to their result.  The first one runs in the call, the second one in the
first conversion.

* `Function.conversions_eq`: each conversion has the outcome of the body.
* `LazyFunction.conversions_eq`: each conversion has the value that was returned, and is
  undefined after an exception.
* `same_outcome_iff`: when both have the outcome of the body.
-/

namespace Cpp20Examples.Functions

/-- The body of a coroutine: effects, and then a `co_return` or an exception. -/
inductive Body (ε T χ : Type)
  | effect (e : ε) (rest : Body ε T χ)
  | coReturn (result : T)
  | throw (exception : χ)

namespace Body

variable {ε T χ : Type}

def effects : Body ε T χ → List ε
  | effect e rest => e :: rest.effects
  | coReturn _ | throw _ => []

def outcome : Body ε T χ → Except χ T
  | effect _ rest => rest.outcome
  | coReturn result => .ok result
  | throw exception => .error exception

end Body

/-- What a promise `P` does with the outcome of its body. -/
structure Promise (T χ P : Type) where
  promise : P
  returnValue : P → T → P
  unhandledException : P → χ → P

section Definitions

variable {ε T χ P : Type}

/-- The promise for an outcome. -/
def Promise.settle (D : Promise T χ P) (p : P) : Except χ T → P
  | .ok result => D.returnValue p result
  | .error exception => D.unhandledException p exception

/-- The body runs to the final suspend point. -/
def Promise.run (D : Promise T χ P) : Body ε T χ → P → List ε → P × List ε
  | .effect e rest, p, performed => run D rest p (performed ++ [e])
  | .coReturn result, p, performed => (D.returnValue p result, performed)
  | .throw exception, p, performed => (D.unhandledException p exception, performed)

/-- `k` conversions, `none` where one reads a result that was never set. -/
def conversions {F : Type} (convert : F → Option (Except χ T × F)) :
    Nat → F → Option (List (Except χ T) × F)
  | 0, f => some ([], f)
  | k + 1, f =>
    (convert f).bind fun r => (conversions convert k r.2).map fun rs => (r.1 :: rs.1, rs.2)

end Definitions

/-! ### `Function` -/

/-- `result_` is not set before `co_return`. -/
structure FunctionPromise (T χ : Type) where
  result : Option T := none
  exception : Option χ := none

def functionPromise (T χ : Type) : Promise T χ (FunctionPromise T χ) where
  promise := {}
  returnValue p result := { p with result := some result }
  unhandledException p exception := { p with exception := some exception }

/-- A `Function`, with the effects of its body; it is at its final suspend point. -/
structure Function (ε T χ : Type) where
  promise : FunctionPromise T χ
  performed : List ε

namespace Function

variable {ε T χ : Type}

/-- The call runs the body. -/
def call (body : Body ε T χ) : Function ε T χ :=
  let r := (functionPromise T χ).run body (functionPromise T χ).promise []
  ⟨r.1, r.2⟩

/-- `operator T` -/
def operatorT (f : Function ε T χ) : Option (Except χ T × Function ε T χ) :=
  match f.promise.exception with
  | some exception => some (.error exception, f)
  | none => f.promise.result.map fun result => (.ok result, f)

end Function

/-! ### `LazyFunction` -/

/-- `result_` is not set before `co_return`. -/
structure LazyFunctionPromise (T : Type) where
  result : Option T := none

/-- `unhandled_exception` does nothing. -/
def lazyFunctionPromise (T χ : Type) : Promise T χ (LazyFunctionPromise T) where
  promise := {}
  returnValue p result := { p with result := some result }
  unhandledException p _ := p

/-- A `LazyFunction`, with the effects of its body, which is suspended at its start, or (`none`)
at its final suspend point. -/
structure LazyFunction (ε T χ : Type) where
  promise : LazyFunctionPromise T
  suspended : Option (Body ε T χ)
  performed : List ε

namespace LazyFunction

variable {ε T χ : Type}

def call (body : Body ε T χ) : LazyFunction ε T χ :=
  ⟨(lazyFunctionPromise T χ).promise, some body, []⟩

/-- `if (not handle_.done()) handle_.resume();` -/
def ensureRun (f : LazyFunction ε T χ) : LazyFunction ε T χ :=
  match f.suspended with
  | some body =>
    let r := (lazyFunctionPromise T χ).run body f.promise f.performed
    ⟨r.1, none, r.2⟩
  | none => f

/-- `get` -/
def get (f : LazyFunction ε T χ) : Option (Except χ T × LazyFunction ε T χ) :=
  f.ensureRun.promise.result.map fun result => (.ok result, f.ensureRun)

end LazyFunction

/-! ### What should hold -/

section Outcomes

variable {ε T χ P F : Type} {body : Body ε T χ} {k : Nat}

/-- **Both report the outcome of the body** in each of `k` conversions: its value, or its
exception.  No result is read that was not set. -/
structure SameOutcome (body : Body ε T χ) (k : Nat) : Prop where
  function : (conversions Function.operatorT k (Function.call body)).map Prod.fst =
    some (List.replicate k body.outcome)
  lazyFunction : (conversions LazyFunction.get k (LazyFunction.call body)).map Prod.fst =
    some (List.replicate k body.outcome)

/-! ### The conversions -/

theorem Promise.run_eq (D : Promise T χ P) (p : P) (performed : List ε) :
    D.run body p performed = (D.settle p body.outcome, performed ++ body.effects) := by
  induction body generalizing performed with
  | effect e rest ih =>
    rw [Promise.run, ih, Body.outcome, Body.effects, List.append_assoc]
    rfl
  | coReturn result =>
    rw [Body.effects, List.append_nil]
    rfl
  | throw exception =>
    rw [Body.effects, List.append_nil]
    rfl

theorem conversions_of_fixed {convert : F → Option (Except χ T × F)} {f : F} {r : Except χ T}
    (h : convert f = some (r, f)) (k : Nat) :
    conversions convert k f = some (List.replicate k r, f) := by
  induction k with
  | zero => rfl
  | succ k ih =>
    rw [conversions, h, Option.bind_some]
    dsimp only
    rw [ih, Option.map_some, List.replicate_succ]

/-- **Each conversion of a `Function` has the outcome of its body**, which has run once. -/
theorem Function.conversions_eq (body : Body ε T χ) (k : Nat) :
    conversions Function.operatorT k (Function.call body) =
      some (List.replicate k body.outcome,
        ⟨(functionPromise T χ).settle {} body.outcome, body.effects⟩) := by
  have hcall : Function.call body =
      ⟨(functionPromise T χ).settle {} body.outcome, body.effects⟩ := by
    rw [Function.call, Promise.run_eq, List.nil_append]
    rfl
  rw [hcall]
  apply conversions_of_fixed
  rw [Function.operatorT]
  cases body.outcome <;> rfl

theorem LazyFunction.ensureRun_call (body : Body ε T χ) : (LazyFunction.call body).ensureRun =
    ⟨(lazyFunctionPromise T χ).settle {} body.outcome, none, body.effects⟩ := by
  rw [LazyFunction.call, LazyFunction.ensureRun]
  dsimp only
  rw [Promise.run_eq, List.nil_append]
  rfl

theorem LazyFunction.conversions_succ (body : Body ε T χ) (k : Nat) :
    conversions LazyFunction.get (k + 1) (LazyFunction.call body) =
      conversions LazyFunction.get (k + 1) (LazyFunction.call body).ensureRun := by
  have hget : LazyFunction.get (LazyFunction.call body) =
      LazyFunction.get (LazyFunction.call body).ensureRun := by
    rw [LazyFunction.get, LazyFunction.get, LazyFunction.ensureRun_call]
    rfl
  rw [conversions, conversions, hget]

/-- **Each conversion of a `LazyFunction`** has the value that its body returned; one whose
body has thrown reads a result that was never set. -/
theorem LazyFunction.conversions_eq (body : Body ε T χ) (k : Nat) :
    (conversions LazyFunction.get (k + 1) (LazyFunction.call body)).map Prod.fst =
      match body.outcome with
      | .ok result => some (List.replicate (k + 1) (.ok result))
      | .error _ => none := by
  rw [conversions_succ, ensureRun_call]
  cases houtcome : body.outcome with
  | ok result =>
    rw [conversions_of_fixed (r := .ok result) rfl]
    rfl
  | error exception => rfl

/-- **Both have the outcome of the body** exactly when it returns, or there is no
conversion. -/
theorem same_outcome_iff (body : Body ε T χ) (k : Nat) :
    SameOutcome body k ↔ (∃ result, body.outcome = .ok result) ∨ k = 0 := by
  have hfunction : (conversions Function.operatorT k (Function.call body)).map Prod.fst =
      some (List.replicate k body.outcome) := by
    rw [Function.conversions_eq]
    rfl
  cases k with
  | zero => exact ⟨fun _ => .inr rfl, fun _ => ⟨hfunction, rfl⟩⟩
  | succ k =>
    have hlazy := LazyFunction.conversions_eq body k
    constructor
    · intro hsame
      left
      cases houtcome : body.outcome with
      | ok result => exact ⟨result, rfl⟩
      | error exception =>
        rw [houtcome, hsame.lazyFunction] at hlazy
        cases hlazy
    · rintro (⟨result, houtcome⟩ | hzero)
      · refine ⟨hfunction, ?_⟩
        rw [hlazy, houtcome]
      · cases hzero

/-- A body that throws: the `LazyFunction` reads a result that was never set. -/
theorem exception_lost : ¬∀ (body : Body String Int String) (k : Nat), SameOutcome body k := by
  intro hsame
  have hlazy := (hsame (.effect "Running..." (.throw "Error")) 1).lazyFunction
  cases hlazy

end Outcomes

end Cpp20Examples.Functions
