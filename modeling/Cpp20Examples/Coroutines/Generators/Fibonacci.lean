import Cpp20Examples.Lib.Generator
import Cpp20Examples.Lib.Arith
import Mathlib.Data.Nat.Fib.Basic

/-!
# The Fibonacci generators

`co_yield_alloc_heap`, `co_yield_alloc_stack` and `co_yield_alloc_pmr` place the frame of one
and the same body `f` in different memory; that there is room for the frame is assumed.  A
round of its loop computes the next number before it yields the current one.

* `produces_loop`: the values of the rounds that are left.
* `fits_of_produces`: the number behind the last value is computed too.
* `yields_iff`: the numbers of repetitions for which `f` is defined.
-/

namespace Cpp20Examples.Generators.CoYieldAlloc

open Lib Lib.Generator Lib.Arith

/-! ### The program -/

structure Promise where
  yieldedValue : Int32 := 0
  deriving DecidableEq

/-- `unhandled_exception` aborts. -/
def promiseType : Design Int32 Unit Promise where
  promise := {}
  eager := false
  yieldValue _ aValue := ⟨aValue⟩
  returnValue p _ := p
  unhandledException _ := none

section Definitions

variable {C : Type}

def getYieldedValue (task : Frame Promise C) : Int32 := task.promise.yieldedValue

/-- `handle.resume(); return handle.done();` -/
def resume (next : Code Int32 Unit C) (task : Frame Promise C) :
    Option (Bool × Frame Promise C) :=
  (promiseType.resume next task).map fun task' => (task'.done, task')

/-- `while (!task.resume()) use(task.get_yielded_value())` -/
def loop (next : Code Int32 Unit C) : Loop (Frame Promise C) Int32 :=
  whileLoop (fun task => (resume next task).map fun r => (!r.1, r.2))
    (fun task => some (getYieldedValue task)) some

end Definitions

/-- Where the body goes on: at its start, or at the test of its loop. -/
inductive At
  | start
  | test (repetitions a b : Int32)

/-- `while (repetitions-- > 0) { co_yield (a = std::exchange(b, a + b)) + extra; }`, behind
`co_yield a`. -/
def body (repetitions extra : Int32) : Code Int32 Unit At
  | .start => some (.coYield 0 (.test repetitions 0 1))
  | .test repetitions a b =>
    (subInt repetitions 1).bind fun left =>
      if 0 < repetitions then
        (addInt a b).bind fun sum =>
          (addInt b extra).map fun value => .coYield value (.test left b sum)
      else some (.ends (.coReturn ()))

/-- `f` of `co_yield_alloc_heap` -/
def AllocHeap.f (repetitions extra : Int32) : Code Int32 Unit At := body repetitions extra

/-- `f` of `co_yield_alloc_stack`; its third argument is for `operator new` only. -/
def AllocStack.f (repetitions extra : Int32) : Code Int32 Unit At := body repetitions extra

/-- `f` of `co_yield_alloc_pmr` -/
def AllocPmr.f (repetitions extra : Int32) : Code Int32 Unit At := body repetitions extra

/-! ### What should hold -/

/-- **The loop of `main` uses** `0, F(1) + extra, ..., F(repetitions) + extra` and ends; no
operation in it is undefined. -/
def Yields (f : Int32 → Int32 → Code Int32 Unit At) (repetitions extra : Int32) : Prop :=
  ∃ values : List Int32,
    values.map Int32.toInt =
      0 :: (List.range repetitions.toInt.toNat).map
        (fun i : Nat => (Nat.fib (i + 1) : Int) + extra.toInt) ∧
    Delivers (loop (f repetitions extra)) (promiseType.call (f repetitions extra) .start) values
      fun task => task.done = true

/-! ### The rounds of the loop -/

section Rounds

variable {repetitions extra left a b : Int32} {k n : Nat} {ending : Ending Unit}
  {values : List Int32}

theorem lt_iff_toInt_pos : 0 < left ↔ 0 < left.toInt := Int32.lt_iff_toInt_lt

theorem body_ends (hle : left.toInt ≤ 0) (hlow : -2 ^ 31 < left.toInt) :
    body repetitions extra (.test left a b) = some (.ends (.coReturn ())) := by
  have hfits : fits 32 (left.toInt - 1) = true := fits_int_iff.mpr (by omega)
  obtain ⟨left', hleft, -⟩ := exists_intOf hfits
  have hsub : subInt left 1 = some left' := hleft
  rw [body, hsub, Option.bind_some, if_neg (by rw [lt_iff_toInt_pos]; omega)]

/-- A round yields the next number, and has computed the one behind it. -/
theorem body_round (hpos : 0 < left.toInt) (hsum : fits 32 (a.toInt + b.toInt) = true)
    (hvalue : fits 32 (b.toInt + extra.toInt) = true) :
    ∃ left' sum value : Int32, left'.toInt = left.toInt - 1 ∧
      sum.toInt = a.toInt + b.toInt ∧ value.toInt = b.toInt + extra.toInt ∧
      body repetitions extra (.test left a b) = some (.coYield value (.test left' b sum)) := by
  have hlt := left.toInt_lt
  have hfits : fits 32 (left.toInt - 1) = true := fits_int_iff.mpr (by omega)
  obtain ⟨left', hleft, hleft'⟩ := exists_intOf hfits
  obtain ⟨sum, hsum, hsum'⟩ := exists_intOf hsum
  obtain ⟨value, hvalue, hvalue'⟩ := exists_intOf hvalue
  have hsub : subInt left 1 = some left' := hleft
  refine ⟨left', sum, value, hleft', hsum', hvalue', ?_⟩
  rw [body, hsub, Option.bind_some, if_pos (lt_iff_toInt_pos.mpr hpos), addInt, hsum,
    Option.bind_some, addInt, hvalue, Option.map_some]

theorem of_body_round {value : Int32} {rest : At} (hpos : 0 < left.toInt)
    (h : body repetitions extra (.test left a b) = some (.coYield value rest)) :
    ∃ left' sum : Int32, left'.toInt = left.toInt - 1 ∧ sum.toInt = a.toInt + b.toInt ∧
      rest = .test left' b sum := by
  obtain ⟨left', hleft, h⟩ := Option.bind_eq_some_iff.mp h
  rw [if_pos (lt_iff_toInt_pos.mpr hpos)] at h
  obtain ⟨sum, hsum, h⟩ := Option.bind_eq_some_iff.mp h
  obtain ⟨value', -, h⟩ := Option.map_eq_some_iff.mp h
  cases h
  exact ⟨left', sum, subInt_eq_some_iff.mp hleft, addInt_eq_some_iff.mp hsum, rfl⟩

theorem fib_add (k : Nat) : (Nat.fib k : Int) + Nat.fib (k + 1) = Nat.fib (k + 1 + 1) := by
  have hfib : Nat.fib (k + 1 + 1) = Nat.fib k + Nat.fib (k + 1) := Nat.fib_add_two
  rw [hfib, Nat.cast_add]

theorem fits_fib {m n : Nat} (hle : m ≤ n) (h : fits 32 (Nat.fib n) = true) :
    fits 32 (Nat.fib m) = true := by
  have hmono := Nat.fib_mono hle
  have hlt := (fits_int_iff.mp h).2
  exact fits_int_iff.mpr (by omega)

theorem range_map_fib (k n : Nat) (extra : Int) :
    (List.range (n + 1)).map (fun j : Nat => (Nat.fib (k + j + 1) : Int) + extra) =
      ((Nat.fib (k + 1) : Int) + extra) ::
        (List.range n).map fun j : Nat => (Nat.fib (k + 1 + j + 1) : Int) + extra := by
  have hindex : ∀ j, k + j.succ + 1 = k + 1 + j + 1 := by omega
  rw [List.range_succ_eq_map, List.map_cons, List.map_map, Nat.add_zero]
  simp only [Function.comp_def, hindex]

/-- **The values of the rounds that are left**, behind the `k`-th number. -/
theorem produces_loop (hleft : left.toInt = n) (ha : a.toInt = Nat.fib k)
    (hb : b.toInt = Nat.fib (k + 1)) (hlimit : fits 32 (Nat.fib (k + n + 1)) = true)
    (hfits : ∀ j : Nat, j < n → fits 32 (Nat.fib (k + j + 1) + extra.toInt) = true) :
    ∃ values : List Int32,
      values.map Int32.toInt =
        (List.range n).map (fun j : Nat => (Nat.fib (k + j + 1) : Int) + extra.toInt) ∧
      Produces (body repetitions extra) (.coReturn ()) (.test left a b) values := by
  induction n generalizing k left a b with
  | zero => exact ⟨[], rfl, .ends (body_ends (by omega) (by omega))⟩
  | succ n ih =>
    have hsum : fits 32 (a.toInt + b.toInt) = true := by
      rw [ha, hb, fib_add]
      exact fits_fib (by omega) hlimit
    have hvalue : fits 32 (b.toInt + extra.toInt) = true := by
      rw [hb]
      exact hfits 0 (Nat.succ_pos n)
    have hpos : 0 < left.toInt := by omega
    obtain ⟨left', sum, value, hleft', hsum', hvalue', hround⟩ := @body_round repetitions extra
      left a b hpos hsum hvalue
    have hindex : ∀ j, k + 1 + j + 1 = k + (j + 1) + 1 := by omega
    have hcount : left'.toInt = n := by omega
    have hnext : sum.toInt = Nat.fib (k + 1 + 1) := by rw [hsum', ha, hb, fib_add]
    have hrest : ∀ j : Nat, j < n → fits 32 (Nat.fib (k + 1 + j + 1) + extra.toInt) = true := by
      intro j hj
      rw [hindex j]
      exact hfits (j + 1) (Nat.succ_lt_succ hj)
    obtain ⟨values, hvalues, hproduces⟩ := ih hcount hb hnext
      (fits_fib (Nat.le_of_eq (hindex n)) hlimit) hrest
    refine ⟨value :: values, ?_, .coYield hround hproduces⟩
    rw [List.map_cons, hvalues, hvalue', hb, range_map_fib]

/-- **The number behind the last value** is computed too. -/
theorem fits_of_produces (hleft : left.toInt = n) (ha : a.toInt = Nat.fib k)
    (hb : b.toInt = Nat.fib (k + 1))
    (h : Produces (body repetitions extra) ending (.test left a b) values) :
    fits 32 (Nat.fib (k + n + 1)) = true := by
  induction n generalizing k left a b values with
  | zero =>
    rw [Nat.add_zero, ← hb]
    exact fits_toInt b
  | succ n ih =>
    have hpos : 0 < left.toInt := by omega
    cases h with
    | ends hnext =>
      obtain ⟨left', -, hnext⟩ := Option.bind_eq_some_iff.mp hnext
      rw [if_pos (lt_iff_toInt_pos.mpr hpos)] at hnext
      obtain ⟨sum, -, hnext⟩ := Option.bind_eq_some_iff.mp hnext
      obtain ⟨value, -, hnext⟩ := Option.map_eq_some_iff.mp hnext
      cases hnext
    | coYield hnext hrest =>
      obtain ⟨left', sum, hleft', hsum, rfl⟩ := of_body_round hpos hnext
      have hlast := ih (k := k + 1) (by omega) hb (by rw [hsum, ha, hb, fib_add]) hrest
      rwa [show k + 1 + n + 1 = k + (n + 1) + 1 by omega] at hlast

/-- The smallest `int` cannot be counted down. -/
theorem lt_of_produces (h : Produces (body repetitions extra) ending (.test left a b) values) :
    -2 ^ 31 < left.toInt := by
  have hsub : ∃ left', subInt left 1 = some left' := by
    cases h with
    | ends hnext => exact (Option.bind_eq_some_iff.mp hnext).imp fun _ => And.left
    | coYield hnext _ => exact (Option.bind_eq_some_iff.mp hnext).imp fun _ => And.left
  obtain ⟨left', hleft⟩ := hsub
  have hvalue : left'.toInt = left.toInt - 1 := subInt_eq_some_iff.mp hleft
  have hlow := left'.le_toInt
  omega

end Rounds

/-! ### The loop of `main` -/

section Main

variable {repetitions extra : Int32}

theorem fits_fib_iff {n : Nat} : fits 32 (Nat.fib (n + 1)) = true ↔ n ≤ 45 := by
  have hfits : fits 32 (Nat.fib 46) = true := by decide +kernel
  have hlarge : fits 32 (Nat.fib 47) = false := by decide +kernel
  constructor
  · intro h
    by_contra hn
    have hfib := fits_fib (show 47 ≤ n + 1 by omega) h
    rw [hlarge] at hfib
    cases hfib
  · intro hn
    exact fits_fib (by omega) hfits

theorem loop_test {C : Type} {next : Code Int32 Unit C} (task : Frame Promise C) :
    ((resume next task).map fun r => (!r.1, r.2)) =
      (promiseType.resume next task).map fun task' => (!task'.done, task') := by
  rw [resume, Option.map_map]
  rfl

theorem yields_of_produces {values : List Int32}
    (hvalues : values.map Int32.toInt = (List.range repetitions.toInt.toNat).map
      (fun i : Nat => (Nat.fib (i + 1) : Int) + extra.toInt))
    (h : Produces (body repetitions extra) (.coReturn ()) (.test repetitions 0 1) values) :
    Yields body repetitions extra := by
  refine ⟨0 :: values, ?_, ?_⟩
  · rw [List.map_cons, hvalues]
    rfl
  · have hbody : Produces (body repetitions extra) (.coReturn ()) .start (0 :: values) :=
      .coYield rfl h
    have hdelivers := @Delivers.of_before _ _ _ _ promiseType _ _ (fun p => some p.yieldedValue) _ _
      _ (fun _ _ => rfl) (fun _ => rfl) (fun task _ => loop_test task)
      (call_before (D := promiseType) rfl hbody)
    exact hdelivers.mono fun _ => Design.Ended.done

theorem of_yields (h : Yields body repetitions extra) :
    -2 ^ 31 < repetitions.toInt ∧ repetitions.toInt ≤ 45 := by
  obtain ⟨values, -, hdelivers⟩ := h
  have hproduces : ∃ ending ws, Produces (body repetitions extra) ending .start ws := by
    exact @Ends.produces _ _ _ _ promiseType _ (fun p => some p.yieldedValue) _ _ _ _ rfl
      (fun task _ => loop_test task) hdelivers.ends
  obtain ⟨ending, ws, hproduces⟩ := hproduces
  cases hproduces with
  | ends hnext => cases hnext
  | coYield hnext hrest =>
    cases hnext
    refine ⟨lt_of_produces hrest, ?_⟩
    by_cases hle : repetitions.toInt ≤ 0
    · omega
    · have hnat : repetitions.toInt = repetitions.toInt.toNat := by omega
      have hfits := fits_of_produces (k := 0) hnat rfl rfl hrest
      rw [Nat.zero_add] at hfits
      have hle := fits_fib_iff.mp hfits
      omega

/-- **The Fibonacci generators overflow before their output** does: they yield it exactly for
up to 45 repetitions, and the smallest `int` cannot be counted down. -/
theorem yields_iff (hfits : ∀ k : Nat, 1 ≤ k → (k : Int) ≤ repetitions.toInt →
      fits 32 (Nat.fib k) = true ∧ fits 32 (Nat.fib k + extra.toInt) = true) :
    ∀ f ∈ [AllocHeap.f, AllocStack.f, AllocPmr.f],
      Yields f repetitions extra ↔ -2 ^ 31 < repetitions.toInt ∧ repetitions.toInt ≤ 45 := by
  have hbody : Yields body repetitions extra ↔
      -2 ^ 31 < repetitions.toInt ∧ repetitions.toInt ≤ 45 := by
    refine ⟨of_yields, ?_⟩
    rintro ⟨hlow, hhigh⟩
    by_cases hle : repetitions.toInt ≤ 0
    · apply yields_of_produces _ (.ends (body_ends hle hlow))
      rw [Int.toNat_of_nonpos hle]
      rfl
    · have hnat : repetitions.toInt = repetitions.toInt.toNat := by omega
      have hlimit : fits 32 (Nat.fib (0 + repetitions.toInt.toNat + 1)) = true := by
        rw [Nat.zero_add]
        exact fits_fib_iff.mpr (by omega)
      have hsums : ∀ j : Nat, j < repetitions.toInt.toNat →
          fits 32 (Nat.fib (0 + j + 1) + extra.toInt) = true := by
        intro j hj
        rw [Nat.zero_add]
        exact (hfits (j + 1) (by omega) (by omega)).2
      obtain ⟨values, hvalues, hproduces⟩ := @produces_loop repetitions extra repetitions 0 1 0 _
        hnat rfl rfl hlimit hsums
      refine yields_of_produces ?_ hproduces
      rw [hvalues]
      simp only [Nat.zero_add]
  intro f hf
  simp only [List.mem_cons, List.not_mem_nil, or_false] at hf
  rcases hf with rfl | rfl | rfl <;> exact hbody

end Main

/-- The call of `main`. -/
theorem yields_iff_five : Yields AllocPmr.f 5 1 := by
  have hfits : ∀ k : Nat, k < 6 →
      fits 32 (Nat.fib k) = true ∧ fits 32 (Nat.fib k + (1 : Int32).toInt) = true := by decide
  have hfive : (5 : Int32).toInt = 5 := rfl
  refine (yields_iff (fun k _ hk => hfits k (by omega)) AllocPmr.f (by simp)).mpr ?_
  decide

/-- All of `F(1), ..., F(46)` fit, but the round that yields `F(46)` computes `F(47)`. -/
theorem next_number_overflows : ¬∀ repetitions extra : Int32,
    (∀ k : Nat, 1 ≤ k → (k : Int) ≤ repetitions.toInt →
      fits 32 (Nat.fib k) = true ∧ fits 32 (Nat.fib k + extra.toInt) = true) →
    ∀ f ∈ [AllocHeap.f, AllocStack.f, AllocPmr.f], Yields f repetitions extra := by
  intro h
  have hvalue : (46 : Int32).toInt = 46 := rfl
  have hzero : (0 : Int32).toInt = 0 := rfl
  have hyields : Yields body 46 0 := by
    refine h 46 0 ?_ AllocHeap.f (by simp)
    intro k hk hle
    have hfits : fits 32 (Nat.fib k) = true := fits_fib (n := 45 + 1) (by omega) (by
      exact fits_fib_iff.mpr (by omega))
    rw [hzero, Int.add_zero]
    exact ⟨hfits, hfits⟩
  have hbound := (of_yields hyields).2
  omega

end Cpp20Examples.Generators.CoYieldAlloc
