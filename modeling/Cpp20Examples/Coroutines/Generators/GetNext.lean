import Cpp20Examples.Coroutines.Generators.PullGenerators
import Cpp20Examples.Lib.Arith
import Mathlib.Tactic.Ring

/-!
# `getNext` of `infiniteDataStream`

The body of the stream has two variables: the value that it yields, and the counter `i` of
its `for` loop, which nothing reads.  Both are counted up when the coroutine is resumed
behind its `co_yield`, so the first call of `next` counts neither.

* `calls_yielded`: what the calls behind the first one give.
* `calls_overflow`: the counter overflows, whatever the values are.
* `getNext_iff`: the stream is as long as its values allow, up to `2 ^ 31` of them.
-/

namespace Cpp20Examples.Generators.InfiniteDataStream

open Lib Lib.Generator Lib.Arith

/-- Where `getNext` goes on: at its start, or behind its `co_yield`. -/
inductive At
  | start
  | yielded (value i : Int32)

/-- `for (int i = 0;; ++i) { co_yield value; value += step; }`, behind `auto value = start`. -/
def getNext (start : optParam Int32 0) (step : optParam Int32 1) : Code Int32 Unit At
  | .start => some (.coYield start (.yielded start 0))
  | .yielded value i =>
    (addInt value step).bind fun value =>
      (addInt i 1).map fun i => .coYield value (.yielded value i)

/-- What `k` calls of `next` on the stream give. -/
def stream (start step : Int32) (k : Nat) : Option (List (Option Int32)) :=
  (promiseType.call (getNext start step) .start).bind (calls (next (getNext start step)) getValue k)

/-- The first value is `start`, and the others are those behind a first call. -/
theorem stream_succ (start step : Int32) (k : Nat) :
    stream start step (k + 1) =
      (calls (next (getNext start step)) getValue k
        ⟨⟨some start⟩, .suspended (.yielded start 0)⟩).map (some start :: ·) := rfl

section Behind

variable {start step value i : Int32} {p : Promise}

theorem next_yielded {value' i' : Int32} (hvalue : value'.toInt = value.toInt + step.toInt)
    (hi : i'.toInt = i.toInt + 1) :
    next (getNext start step) ⟨p, .suspended (.yielded value i)⟩ =
      some (true, ⟨⟨some value'⟩, .suspended (.yielded value' i')⟩) := by
  have hnext : getNext start step (.yielded value i) =
      some (.coYield value' (.yielded value' i')) := by
    rw [getNext, addInt_eq_some_iff.mpr hvalue, Option.bind_some, addInt_eq_some_iff.mpr hi,
      Option.map_some]
  rw [next, pull, Design.resume]
  dsimp only
  rw [hnext]
  rfl

theorem next_undefined {c : At} (hnext : getNext start step c = none) :
    next (getNext start step) ⟨p, .suspended c⟩ = none := by
  rw [next, pull, Design.resume]
  dsimp only
  rw [hnext]
  rfl

theorem next_overflow (hi : i.toInt + 1 = 2 ^ 31) :
    next (getNext start step) ⟨p, .suspended (.yielded value i)⟩ = none := by
  have hadd : addInt i 1 = none := by
    apply intOf_eq_none
    rw [show (1 : Int32).toInt = 1 from rfl, hi]
    rfl
  apply next_undefined
  rw [getNext, hadd]
  cases addInt value step <;> rfl

theorem add_step (value step : Int) (j : Nat) :
    value + ((j + 1 : Nat) + 1) * step = value + step + (j + 1) * step := by
  push_cast
  ring

theorem range_map_succ (value step : Int) (k : Nat) :
    (List.range (k + 1)).map (fun j : Nat => value + (j + 1) * step) =
      (value + step) :: (List.range k).map fun j : Nat => value + step + (j + 1) * step := by
  rw [List.range_succ_eq_map, List.map_cons, List.map_map]
  congr 1
  · simp
  · exact List.map_congr_left fun j _ => add_step value step j

/-- **The calls behind the first one**, as long as the counter is not at its maximum. -/
theorem calls_yielded {k : Nat}
    (hfits : ∀ j : Nat, j < k → fits 32 (value.toInt + (j + 1) * step.toInt) = true)
    (hi : i.toInt + k < 2 ^ 31) :
    ∃ values : List Int32,
      values.map Int32.toInt =
        (List.range k).map (fun j : Nat => value.toInt + (j + 1) * step.toInt) ∧
      calls (next (getNext start step)) getValue k ⟨p, .suspended (.yielded value i)⟩ =
        some (values.map some) := by
  induction k generalizing value i p with
  | zero => exact ⟨[], rfl, rfl⟩
  | succ k ih =>
    have hlow := i.le_toInt
    have hfirst : fits 32 (value.toInt + step.toInt) = true := by
      simpa using hfits 0 (Nat.succ_pos k)
    obtain ⟨value', -, hvalue⟩ := exists_intOf hfirst
    obtain ⟨i', -, hi'⟩ := exists_intOf (x := i.toInt + 1) (fits_int_iff.mpr (by omega))
    have hrest : ∀ j : Nat, j < k → fits 32 (value'.toInt + (j + 1) * step.toInt) = true := by
      intro j hj
      rw [hvalue, ← add_step]
      exact hfits (j + 1) (Nat.succ_lt_succ hj)
    have hi'' : i'.toInt + k < 2 ^ 31 := by omega
    obtain ⟨values, hvalues, hcalls⟩ := ih (p := ⟨some value'⟩) hrest hi''
    refine ⟨value' :: values, ?_, ?_⟩
    · rw [range_map_succ, List.map_cons, hvalues, hvalue]
    · rw [calls, next_yielded hvalue hi', Option.bind_some, if_pos rfl, getValue, Option.map_some,
        Option.bind_some, hcalls]
      rfl

/-- **The counter overflows** in the call that counts it beyond its maximum, if none before
has been undefined. -/
theorem calls_overflow {k : Nat} (hi : 2 ^ 31 ≤ i.toInt + k) :
    calls (next (getNext start step)) getValue k ⟨p, .suspended (.yielded value i)⟩ = none := by
  induction k generalizing value i p with
  | zero =>
    have hlt := i.toInt_lt
    omega
  | succ k ih =>
    rw [calls]
    by_cases hmax : i.toInt + 1 = 2 ^ 31
    · rw [next_overflow hmax]
      rfl
    · have hlow := i.le_toInt
      have hlt := i.toInt_lt
      obtain ⟨i', -, hi'⟩ := exists_intOf (x := i.toInt + 1) (fits_int_iff.mpr (by omega))
      by_cases hvalue : fits 32 (value.toInt + step.toInt) = true
      · obtain ⟨value', -, hvalue'⟩ := exists_intOf hvalue
        rw [next_yielded hvalue' hi', Option.bind_some, if_pos rfl, getValue, Option.map_some,
          Option.bind_some, ih (by omega)]
        rfl
      · rw [next_undefined]
        · rfl
        · rw [getNext, addInt, intOf_eq_none (eq_false_of_ne_true hvalue)]
          rfl

end Behind

/-- **The stream is as long as its values allow** for up to `2 ^ 31` calls of `next`; the next
one counts `i` beyond its maximum, also where the values stay in range. -/
theorem getNext_iff {start step : Int32} {k : Nat}
    (hfits : ∀ i : Nat, i < k → fits 32 (start.toInt + i * step.toInt) = true) :
    (∃ values : List Int32,
      values.map Int32.toInt = (List.range k).map (fun i : Nat => start.toInt + i * step.toInt) ∧
      stream start step k = some (values.map some)) ↔ k ≤ 2 ^ 31 := by
  cases k with
  | zero => exact ⟨fun _ => Nat.zero_le _, fun _ => ⟨[], rfl, rfl⟩⟩
  | succ k =>
    have hzero : (0 : Int32).toInt = 0 := rfl
    rw [stream_succ]
    constructor
    · rintro ⟨values, -, hstream⟩
      by_contra hk
      rw [calls_overflow (by omega)] at hstream
      cases hstream
    · intro hk
      have hlimit : (0 : Int32).toInt + k < 2 ^ 31 := by omega
      obtain ⟨values, hvalues, hcalls⟩ := @calls_yielded start step start 0 ⟨some start⟩ k
        (fun j hj => hfits (j + 1) (Nat.succ_lt_succ hj)) hlimit
      refine ⟨start :: values, ?_, ?_⟩
      · rw [List.map_cons, hvalues, List.range_succ_eq_map, List.map_cons, List.map_map]
        simp [Function.comp_def]
      · rw [hcalls]
        rfl

/-- Three values of a stream that counts down. -/
theorem getNext_iff_three : ∃ values : List Int32,
    values.map Int32.toInt = [5, 3, 1] ∧ stream 5 (-2) 3 = some (values.map some) :=
  (@getNext_iff 5 (-2) 3 (by decide)).mpr (by decide)

/-- The stream `0, 0, 0, ...`: every value fits, but the counter overflows. -/
theorem counter_overflows : ¬∀ (start step : Int32) (k : Nat), 1 ≤ k →
    (∀ i : Nat, i < k → fits 32 (start.toInt + i * step.toInt) = true) →
    ∃ values : List Int32,
      values.map Int32.toInt = (List.range k).map (fun i : Nat => start.toInt + i * step.toInt) ∧
      stream start step k = some (values.map some) := by
  intro h
  have hzero : (0 : Int32).toInt = 0 := rfl
  obtain ⟨values, -, hstream⟩ := h 0 0 (2 ^ 31 + 1) (by omega) (by
    intro i _
    rw [hzero, Int.mul_zero]
    rfl)
  rw [stream_succ, calls_overflow (by rw [hzero]; omega)] at hstream
  cases hstream

end Cpp20Examples.Generators.InfiniteDataStream
