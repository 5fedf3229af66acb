import Cpp20Examples.Coroutines.StateMachine.CallTree
import Cpp20Examples.Lib.Arith

/-!
# The programs of the two state machines

`fun1`, `fun2` and `fun3` of `recursion` and `state1`, `state2` and `state3` of `crsm` await
each other with smaller arguments, but the first one starts the third one anew with 7, and
`fun2` awaits two coroutines.  So a measure over function and argument is needed: the first
function counts twice its argument and 10, the second one more than that, and the third
function just its argument.

* `terminates_of_measure`: functions whose calls make a measure less, and do not overflow.
* `Recursion.calls_less`, `Crsm.calls_less`: the calls of the two programs.
* `machines_terminate`: the loop of `nextStep` and the call of `start` end, for every argument.
-/

namespace Cpp20Examples.StateMachine

open Lib Lib.Coroutine Lib.Arith

/-! ### The programs -/

/-- What a coroutine prints, and the mark of an operation that overflows. -/
inductive Output
  | print (text : String) (num : Option Int32)
  | overflow
  deriving DecidableEq

/-- The functions of each program. -/
inductive Fun
  | one
  | two
  | three

/-- The argument of a call is `none` where it overflows. -/
inductive Stmt
  | print (text : String) (num : Option Int32)
  | coAwait (f : Fun) (num : Option Int32)

/-- What a coroutine does next that has these statements left.  Behind an overflow nothing is
said, so the mark is all that follows. -/
def Stmt.next (functions : Fun → Int32 → List Stmt) : List Stmt → CoInstr Output (List Stmt)
  | [] => .coReturn ()
  | .print text num :: rest => .effect (.print text num) rest
  | .coAwait f (some num) :: rest => .await () (functions f num) fun _ => rest
  | .coAwait f none :: rest => .effect .overflow (.coAwait f none :: rest)

namespace Recursion

def fun1 (num : Int32) : List Stmt :=
  [.print " State 1 " num] ++
  (if 3 < num then [.coAwait .two (subInt num 3)] else [.coAwait .three (some 7)]) ++
  [.print "State 1: END" none]

def fun2 (num : Int32) : List Stmt :=
  [.print "State 2 " num, .coAwait .one (subInt num 2), .print "State 2 again ..." none,
    .coAwait .three num, .print "State 2: END" none]

def fun3 (num : Int32) : List Stmt :=
  [.print "State 3 " num] ++
  (if 0 < num then [.coAwait .three (subInt num 2)] else []) ++
  [.print "State 3 END" none]

def functions : Fun → Int32 → List Stmt
  | .one => fun1
  | .two => fun2
  | .three => fun3

end Recursion

namespace Crsm

def state1 (num : Int32) : List Stmt :=
  [.print "State 1 " num] ++
  if 3 < num then [.coAwait .two (subInt num 3)] else [.coAwait .three (some 7)]

def state2 (num : Int32) : List Stmt := [.print "State 2 " num, .coAwait .one (subInt num 2)]

def state3 (num : Int32) : List Stmt :=
  [.print "State 3 " num] ++ if 0 < num then [.coAwait .three (subInt num 2)] else []

def functions : Fun → Int32 → List Stmt
  | .one => state1
  | .two => state2
  | .three => state3

end Crsm

/-! ### Termination by a measure -/

section Measure

variable {functions : Fun → Int32 → List Stmt}

/-- The statements unfold to finitely many coroutines, and none of them overflows. -/
def Terminates (functions : Fun → Int32 → List Stmt) (ss : List Stmt) : Prop :=
  ∃ t : CallTree Output, Unfolds (Stmt.next functions) ss t.body ∧ .overflow ∉ t.effects

theorem terminates_of_calls {ss : List Stmt}
    (h : ∀ f num, .coAwait f num ∈ ss → ∃ n, num = some n ∧ Terminates functions (functions f n)) :
    Terminates functions ss := by
  induction ss with
  | nil => exact ⟨.done, .coReturn rfl, by simp [CallTree.effects]⟩
  | cons s ss ih =>
    obtain ⟨t, hunfolds, hno⟩ := ih fun f num hmem => h f num (.tail s hmem)
    cases s with
    | print text num =>
      refine ⟨.effect (.print text num) t, .effect rfl hunfolds, ?_⟩
      simpa [CallTree.effects] using hno
    | coAwait f num =>
      obtain ⟨n, rfl, t', hunfolds', hno'⟩ := h f num (.head ss)
      refine ⟨.call t' t, .await rfl hunfolds' fun _ => hunfolds, ?_⟩
      simp [CallTree.effects, hno, hno']

/-- **Functions whose calls make a measure less terminate** where their arguments are `ok`. -/
theorem terminates_of_measure {μ : Fun → Int32 → Nat} {ok : Fun → Int32 → Prop}
    (hless : ∀ f n, ok f n → ∀ g num, .coAwait g num ∈ functions f n →
      ∃ m, num = some m ∧ ok g m ∧ μ g m < μ f n) (f : Fun) (n : Int32) (h : ok f n) :
    Terminates functions (functions f n) := by
  induction hk : μ f n using Nat.strongRecOn generalizing f n with
  | ind k ih =>
    apply terminates_of_calls
    intro g num hmem
    obtain ⟨m, rfl, hok, hlt⟩ := hless f n h g num hmem
    exact ⟨m, rfl, ih (μ g m) (hk ▸ hlt) g m hok rfl⟩

end Measure

/-! ### The calls of the programs -/

/-- The measure of a call. -/
def weight : Fun → Int32 → Nat
  | .one, num => 2 * num.toInt.toNat + 10
  | .two, num => 2 * num.toInt.toNat + 11
  | .three, num => num.toInt.toNat

/-- The second function is called with positive numbers. -/
def Called : Fun → Int32 → Prop
  | .two, num => 0 < num.toInt
  | _, _ => True

/-- A call that the function `f` makes with the argument `n`. -/
def Less (f : Fun) (n : Int32) (g : Fun) (num : Option Int32) : Prop :=
  ∃ m, num = some m ∧ Called g m ∧ weight g m < weight f n

section Calls

variable {num : Int32}

theorem exists_sub (n k : Int32) (hk : 0 ≤ k.toInt) (h : -2 ^ 31 + k.toInt ≤ n.toInt) :
    ∃ m, subInt n k = some m ∧ m.toInt = n.toInt - k.toInt := by
  have hlt := n.toInt_lt
  exact exists_intOf (fits_int_iff.mpr (by omega))

theorem less_one_two (h : 3 < num) : Less .one num .two (subInt num 3) := by
  have hthree : (3 : Int32).toInt = 3 := rfl
  have hnum : 3 < num.toInt := Int32.lt_iff_toInt_lt.mp h
  obtain ⟨m, hm, hvalue⟩ := exists_sub num 3 (by omega) (by omega)
  refine ⟨m, hm, ?_, ?_⟩
  · rw [Called]
    omega
  · rw [weight, weight]
    omega

theorem less_one_three : Less .one num .three (some 7) := by
  refine ⟨7, rfl, trivial, ?_⟩
  rw [weight, weight]
  have hseven : (7 : Int32).toInt = 7 := rfl
  omega

theorem less_two_one (h : Called .two num) : Less .two num .one (subInt num 2) := by
  have htwo : (2 : Int32).toInt = 2 := rfl
  rw [Called] at h
  obtain ⟨m, hm, hvalue⟩ := exists_sub num 2 (by omega) (by omega)
  refine ⟨m, hm, trivial, ?_⟩
  rw [weight, weight]
  omega

theorem less_two_three : Less .two num .three (some num) := by
  refine ⟨num, rfl, trivial, ?_⟩
  rw [weight, weight]
  omega

theorem less_three_three (h : 0 < num) : Less .three num .three (subInt num 2) := by
  have htwo : (2 : Int32).toInt = 2 := rfl
  have hnum : 0 < num.toInt := Int32.lt_iff_toInt_lt.mp h
  obtain ⟨m, hm, hvalue⟩ := exists_sub num 2 (by omega) (by omega)
  refine ⟨m, hm, trivial, ?_⟩
  rw [weight, weight]
  omega

theorem Recursion.calls_less (f : Fun) (n : Int32) (h : Called f n) (g : Fun)
    (num : Option Int32) (hmem : .coAwait g num ∈ Recursion.functions f n) : Less f n g num := by
  cases f with
  | one =>
    by_cases hn : 3 < n
    · have hcall : g = .two ∧ num = subInt n 3 := by simpa [functions, fun1, hn] using hmem
      obtain ⟨rfl, rfl⟩ := hcall
      exact less_one_two hn
    · have hcall : g = .three ∧ num = some 7 := by simpa [functions, fun1, hn] using hmem
      obtain ⟨rfl, rfl⟩ := hcall
      exact less_one_three
  | two =>
    have hcall : (g = .one ∧ num = subInt n 2) ∨ (g = .three ∧ num = some n) := by
      simpa [functions, fun2] using hmem
    rcases hcall with ⟨rfl, rfl⟩ | ⟨rfl, rfl⟩
    · exact less_two_one h
    · exact less_two_three
  | three =>
    by_cases hn : 0 < n
    · have hcall : g = .three ∧ num = subInt n 2 := by simpa [functions, fun3, hn] using hmem
      obtain ⟨rfl, rfl⟩ := hcall
      exact less_three_three hn
    · simp [functions, fun3, hn] at hmem

theorem Crsm.calls_less (f : Fun) (n : Int32) (h : Called f n) (g : Fun)
    (num : Option Int32) (hmem : .coAwait g num ∈ Crsm.functions f n) : Less f n g num := by
  cases f with
  | one =>
    by_cases hn : 3 < n
    · have hcall : g = .two ∧ num = subInt n 3 := by simpa [functions, state1, hn] using hmem
      obtain ⟨rfl, rfl⟩ := hcall
      exact less_one_two hn
    · have hcall : g = .three ∧ num = some 7 := by simpa [functions, state1, hn] using hmem
      obtain ⟨rfl, rfl⟩ := hcall
      exact less_one_three
  | two =>
    have hcall : g = .one ∧ num = subInt n 2 := by simpa [functions, state2] using hmem
    obtain ⟨rfl, rfl⟩ := hcall
    exact less_two_one h
  | three =>
    by_cases hn : 0 < n
    · have hcall : g = .three ∧ num = subInt n 2 := by simpa [functions, state3, hn] using hmem
      obtain ⟨rfl, rfl⟩ := hcall
      exact less_three_three hn
    · simp [functions, state3, hn] at hmem

end Calls

/-! ### The runs of the programs -/

section Runs

variable {ε C : Type} {next : C → CoInstr ε C} {m m' : Machine ε C} {num : Int32}

theorem events_enter {go : Machine ε C} (h : m.co.events <:+ go.co.events) :
    m.co.events <:+ (m.enter go).co.events := by
  unfold Machine.enter
  split
  · exact List.suffix_refl _
  · split
    · exact List.suffix_refl _
    · exact h

theorem events_walk (h : Handle) : (m.walk h).co.events = m.co.events := by
  unfold Machine.walk
  split
  · rfl
  · split
    · rfl
    · split
      · rfl
      · split <;> rfl

theorem events_runInside (D : Design Unit Unit (Option Handle) Nothing) :
    m.co.events <:+ (m.runInside next D).co.events := by
  unfold Machine.runInside
  split
  · rename_i co hco
    obtain ⟨new, hnew⟩ := events_step hco
    exact ⟨new, hnew.symm⟩
  · unfold Machine.leave
    split <;> exact List.suffix_refl _

theorem events_while (h : whileNextStep next m = some m') : m.co.events <:+ m'.co.events := by
  have h := nextStep_of_while m m' h
  unfold nextStep at h
  split at h
  · cases h
  · cases h
    split
    · exact events_enter (List.suffix_refl _)
    · exact ⟨[], (events_walk _).symm⟩
    · exact events_runInside recursionDesign

theorem events_start (h : start next m = some m') : m.co.events <:+ m'.co.events := by
  unfold start at h
  split at h
  · cases h
  · split at h
    · cases h
      exact events_enter (List.suffix_refl _)
    · cases h
    · cases h
      exact events_runInside crsmDesign

/-- What no step undoes, no run does. -/
theorem events_steps {f : Machine ε C → Option (Machine ε C)}
    (hf : ∀ m m', f m = some m' → m.co.events <:+ m'.co.events) (h : Steps f m m') :
    m.co.events <:+ m'.co.events :=
  h.invariant (I := fun m' => m.co.events <:+ m'.co.events)
    (fun _ _ hm hst => hm.trans (hf _ _ hst)) (List.suffix_refl _)

/-- Where nothing has overflowed at the end, nothing had overflowed before. -/
theorem not_overflow {m m' : Machine Output (List Stmt)} (h : m.co.events <:+ m'.co.events)
    (hno : .overflow ∉ effectsOf m'.co.events) : .effect .overflow ∉ m.co.events :=
  fun hmem => hno (mem_effectsOf.mpr (h.subset hmem))

/-- **The state machines terminate for every argument.**  The loop of `nextStep` and the call
of `start` end with all coroutines finished that were created, and no argument overflows on
the way. -/
theorem machines_terminate (num : Int32) :
    (∃ m calls, Steps (whileNextStep (Stmt.next Recursion.functions))
        (.call recursionDesign (Recursion.fun1 num)) m ∧
      whileNextStep (Stmt.next Recursion.functions) m = none ∧ m.place = .caller ∧
      m.calls = ⟨true, false⟩ :: calls ∧ m.co.failed = none ∧
      AllFinished 0 m.co.fresh m.co.events ∧
      ∀ m', Steps (whileNextStep (Stmt.next Recursion.functions))
          (.call recursionDesign (Recursion.fun1 num)) m' →
        .effect .overflow ∉ m'.co.events) ∧
    (∃ m, Steps (start (Stmt.next Crsm.functions)) (.call crsmDesign (Crsm.state1 num)) m ∧
      m.place = .caller ∧ m.calls = [⟨true, false⟩] ∧ m.co.failed = none ∧
      AllFinished 0 m.co.fresh m.co.events ∧
      ∀ m', Steps (start (Stmt.next Crsm.functions)) (.call crsmDesign (Crsm.state1 num)) m' →
        Steps (start (Stmt.next Crsm.functions)) m' m → .effect .overflow ∉ m'.co.events) := by
  constructor
  · obtain ⟨t, hunfolds, hno⟩ := terminates_of_measure Recursion.calls_less .one num trivial
    obtain ⟨f, n, es, hsteps, hf, hes, hfinished⟩ := while_unfolds t hunfolds
    have hstop : whileNextStep (Stmt.next Recursion.functions)
        ⟨⟨[(0, f)], n, none, es, none⟩, .caller, ⟨true, false⟩ :: resumes t.stops⟩ = none := rfl
    refine ⟨_, _, hsteps, hstop, rfl, rfl, rfl, hfinished, ?_⟩
    intro m' hm'
    have hlast := events_steps (fun _ _ => events_while) (hsteps.of_stopped hstop hm')
    refine not_overflow hlast ?_
    rwa [hes]
  · obtain ⟨t, hunfolds, hno⟩ := terminates_of_measure Crsm.calls_less .one num trivial
    obtain ⟨f, n, es, hsteps, hes, hfinished⟩ := start_unfolds t hunfolds
    refine ⟨_, hsteps, rfl, rfl, rfl, hfinished, ?_⟩
    intro m' _ hm'
    refine not_overflow (events_steps (fun _ _ => events_start) hm') ?_
    rwa [hes]

end Runs

end Cpp20Examples.StateMachine
