import Cpp20Examples.Lib.Threads
import Mathlib.Data.BitVec
import Mathlib.Tactic.Ring

/-!
# Summing up a vector in chunks

The functions `sumUp` of `synchronizationWithAtomic`, `synchronizationWithFetchAdd`,
`synchronizationWithLock`, `localVariable`, `localVariableAtomic` and
`threadLocalSummation`.  Each loops over a chunk of `val`.  They add to the shared `sum`
each element, or a `tmpSum` at the end; they do it in one atomic step, or by a read and a
write inside a mutex; and `tmpSum` is a local variable, or one of the thread.
-/

namespace Cpp20Examples.Summation

open Lib Lib.Threads

/-- `unsigned long long` -/
abbrev ULL := BitVec 64

/-- The conversion of an `int`. -/
def toULL (x : Int32) : ULL := BitVec.ofInt 64 x.toInt

/-- The chunk `[beg, end)` of a call of `sumUp`. -/
structure Chunk where
  beg : Nat
  end_ : Nat
  deriving DecidableEq

/-- What distinguishes the functions. -/
structure SumUp where
  /-- `sum` is added to in the loop, and not behind it. -/
  perElement : Bool
  /-- `sum` is protected by a mutex, and not an atomic. -/
  locked : Bool
  /-- `tmpSum` is `thread_local`, and not a variable of the function. -/
  threadLocal : Bool
  deriving DecidableEq

def synchronizationWithAtomic : SumUp := ⟨true, false, false⟩

def synchronizationWithFetchAdd : SumUp := ⟨true, false, false⟩

def synchronizationWithLock : SumUp := ⟨true, true, false⟩

def localVariable : SumUp := ⟨false, true, false⟩

def localVariableAtomic : SumUp := ⟨false, false, false⟩

def threadLocalSummation : SumUp := ⟨false, false, true⟩

structure Shared where
  sum : ULL := 0
  myMutex : Option Nat := none
  deriving DecidableEq

/-- Where a thread is in the call `call`: in front of the test `it < end`, in front of
`sum += x`, or between its steps inside the mutex. -/
inductive Point
  | outside
  | loop (call : Chunk) (it : Nat)
  | add (call : Chunk) (it : Nat) (x : ULL)
  | load (call : Chunk) (it : Nat) (x : ULL)
  | store (call : Chunk) (it : Nat) (x old : ULL)
  | unlock (call : Chunk) (it : Nat)
  deriving DecidableEq

/-- A thread that has `calls` calls still to make; `added` is what each of its calls has
added to `sum`, newest first. -/
structure Worker where
  calls : List Chunk
  point : Point := .outside
  tmpSum : ULL := 0
  added : List (Chunk × ULL) := []
  deriving DecidableEq

/-- Behind `sum += x` the loop goes on, or the call returns. -/
def Point.resume (f : SumUp) (call : Chunk) (it : Nat) : Point :=
  if f.perElement then .loop call it else .outside

/-- A step of `sumUp`. -/
def sumUp (f : SumUp) (val : List Int32) (t : Nat) (d : Shared) (w : Worker) :
    Option (Shared × Worker) :=
  match w.point with
  | .outside =>
    match w.calls with
    | [] => none
    | call :: calls =>
      some (d, { w with
        calls := calls
        point := .loop call call.beg
        tmpSum := if f.threadLocal then w.tmpSum else 0 })
  | .loop call it =>
    if it < call.end_ then
      match val[it]? with
      | none => none -- out of bounds
      | some x =>
        if f.perElement then some (d, { w with point := .add call (it + 1) (toULL x) })
        else some (d, { w with point := .loop call (it + 1), tmpSum := w.tmpSum + toULL x })
    else if f.perElement then some (d, { w with point := .outside })
    else some (d, { w with point := .add call it w.tmpSum })
  | .add call it x =>
    if f.locked then
      if d.myMutex = none then
        some ({ d with myMutex := some t }, { w with point := .load call it x })
      else none
    else some ({ d with sum := d.sum + x },
      { w with point := .resume f call it, added := (call, x) :: w.added })
  | .load call it x => some (d, { w with point := .store call it x d.sum })
  | .store call it x old =>
    some ({ d with sum := old + x },
      { w with point := .unlock call it, added := (call, x) :: w.added })
  | .unlock call it => some ({ d with myMutex := none }, { w with point := .resume f call it })

/-- Threads that make these calls each. -/
def system (f : SumUp) (val : List Int32) (calls : List (List Chunk)) :
    System (State Shared Worker) Nat :=
  Threads.system (sumUp f val) {} (calls.map fun chunks => { calls := chunks })

/-! ### What a step does -/

/-- The steps of `sumUp`, with their conditions. -/
inductive Step (f : SumUp) (val : List Int32) (t : Nat) :
    Shared → Worker → Shared → Worker → Prop
  | call {d call calls tmpSum added} :
      Step f val t d ⟨call :: calls, .outside, tmpSum, added⟩ d
        ⟨calls, .loop call call.beg, if f.threadLocal then tmpSum else 0, added⟩
  | element {d call it x calls tmpSum added} :
      f.perElement = true → it < call.end_ → val[it]? = some x →
      Step f val t d ⟨calls, .loop call it, tmpSum, added⟩ d
        ⟨calls, .add call (it + 1) (toULL x), tmpSum, added⟩
  | accumulate {d call it x calls tmpSum added} :
      f.perElement = false → it < call.end_ → val[it]? = some x →
      Step f val t d ⟨calls, .loop call it, tmpSum, added⟩ d
        ⟨calls, .loop call (it + 1), tmpSum + toULL x, added⟩
  | leave {d call it calls tmpSum added} : f.perElement = true → call.end_ ≤ it →
      Step f val t d ⟨calls, .loop call it, tmpSum, added⟩ d ⟨calls, .outside, tmpSum, added⟩
  | publish {d call it calls tmpSum added} : f.perElement = false → call.end_ ≤ it →
      Step f val t d ⟨calls, .loop call it, tmpSum, added⟩ d
        ⟨calls, .add call it tmpSum, tmpSum, added⟩
  | fetchAdd {d call it x calls tmpSum added} : f.locked = false →
      Step f val t d ⟨calls, .add call it x, tmpSum, added⟩ { d with sum := d.sum + x }
        ⟨calls, .resume f call it, tmpSum, (call, x) :: added⟩
  | lock {d call it x calls tmpSum added} : f.locked = true → d.myMutex = none →
      Step f val t d ⟨calls, .add call it x, tmpSum, added⟩ { d with myMutex := some t }
        ⟨calls, .load call it x, tmpSum, added⟩
  | load {d call it x calls tmpSum added} :
      Step f val t d ⟨calls, .load call it x, tmpSum, added⟩ d
        ⟨calls, .store call it x d.sum, tmpSum, added⟩
  | store {d call it x old calls tmpSum added} :
      Step f val t d ⟨calls, .store call it x old, tmpSum, added⟩ { d with sum := old + x }
        ⟨calls, .unlock call it, tmpSum, (call, x) :: added⟩
  | unlock {d call it calls tmpSum added} :
      Step f val t d ⟨calls, .unlock call it, tmpSum, added⟩ { d with myMutex := none }
        ⟨calls, .resume f call it, tmpSum, added⟩

variable {f : SumUp} {val : List Int32} {t : Nat} {d d' : Shared} {w w' : Worker}

theorem step_of_sumUp (h : sumUp f val t d w = some (d', w')) : Step f val t d w d' w' := by
  obtain ⟨calls, p, tmpSum, added⟩ := w
  cases p with
  | outside =>
    cases calls with
    | nil => cases h
    | cons c calls => cases h; exact .call
  | loop c it =>
    simp only [sumUp] at h
    split at h
    · rename_i hlt
      split at h
      · cases h
      · rename_i x hx
        split at h
        · rename_i hper; cases h; exact .element hper hlt hx
        · rename_i hper; cases h; exact .accumulate (eq_false_of_ne_true hper) hlt hx
    · rename_i hle
      split at h
      · rename_i hper; cases h; exact .leave hper (Nat.le_of_not_lt hle)
      · rename_i hper; cases h; exact .publish (eq_false_of_ne_true hper) (Nat.le_of_not_lt hle)
  | add c it x =>
    simp only [sumUp] at h
    split at h
    · rename_i hlocked
      obtain ⟨hfree, h⟩ := Option.ite_none_right_eq_some.mp h
      cases h
      exact .lock hlocked hfree
    · rename_i hlocked; cases h; exact .fetchAdd (eq_false_of_ne_true hlocked)
  | load c it x => cases h; exact .load
  | store c it x old => cases h; exact .store
  | unlock c it => cases h; exact .unlock

/-! ### Chunks -/

/-- The sum of the elements from `it` on in a chunk. -/
def sumFrom (val : List Int32) (call : Chunk) (it : Nat) : ULL :=
  (((val.take call.end_).drop it).map toULL).sum

def chunkSum (val : List Int32) (call : Chunk) : ULL := sumFrom val call call.beg

/-- The sum that the program computes sequentially. -/
def total (val : List Int32) : ULL := BitVec.ofInt 64 (val.map Int32.toInt).sum

/-- The contiguous chunks of these lengths, from `beg` on. -/
def chunks (beg : Nat) : List Nat → List Chunk
  | [] => []
  | l :: lengths => ⟨beg, beg + l⟩ :: chunks (beg + l) lengths

theorem sumFrom_of_lt {call : Chunk} {it : Nat} (h : it < call.end_) {x : Int32}
    (hx : val[it]? = some x) : sumFrom val call it = toULL x + sumFrom val call (it + 1) := by
  obtain ⟨hlt, rfl⟩ := List.getElem?_eq_some_iff.mp hx
  have htake : it < (val.take call.end_).length := by
    rw [List.length_take]
    omega
  rw [sumFrom, List.drop_eq_getElem_cons htake, List.map_cons, List.sum_cons, List.getElem_take]
  rfl

theorem sumFrom_of_le {call : Chunk} {it : Nat} (h : call.end_ ≤ it) : sumFrom val call it = 0 := by
  rw [sumFrom, List.drop_eq_nil_of_le (by rw [List.length_take]; omega)]
  rfl

theorem sum_toULL (l : List Int32) : (l.map toULL).sum = total l := by
  induction l with
  | nil => rfl
  | cons x l ih =>
    rw [List.map_cons, List.sum_cons, ih, total, total, List.map_cons, List.sum_cons,
      BitVec.ofInt_add]
    rfl

/-- **The chunks have the sum of the vector.** -/
theorem sum_chunks {lengths : List Nat} {beg : Nat} (h : beg + lengths.sum = val.length) :
    ((chunks beg lengths).map (chunkSum val)).sum = ((val.drop beg).map toULL).sum := by
  induction lengths generalizing beg with
  | nil =>
    rw [List.drop_eq_nil_of_le (by simpa using h.ge)]
    rfl
  | cons l lengths ih =>
    rw [List.sum_cons, ← Nat.add_assoc] at h
    have hsplit : val.drop beg = (val.take (beg + l)).drop beg ++ val.drop (beg + l) := by
      rw [← List.drop_append_of_le_length (by rw [List.length_take]; omega), List.take_append_drop]
    rw [chunks, List.map_cons, List.sum_cons, ih h, hsplit, List.map_append, List.sum_append]
    rfl

theorem end_le_of_mem_chunks {lengths : List Nat} {beg : Nat} {c : Chunk}
    (hc : c ∈ chunks beg lengths) : c.end_ ≤ beg + lengths.sum := by
  induction lengths generalizing beg with
  | nil => cases hc
  | cons l lengths ih =>
    rw [List.sum_cons]
    rcases List.mem_cons.mp hc with rfl | hc
    · exact Nat.add_le_add_left (Nat.le_add_right ..) _
    · have := ih hc
      omega

end Cpp20Examples.Summation
