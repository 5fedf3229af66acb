import Cpp20Examples.Lib.Arith
import Cpp20Examples.Lib.System
import Mathlib.Algebra.BigOperators.Group.List.Basic
import Mathlib.Tactic.Linarith
import Mathlib.Tactic.Ring

/-!
# Sums in packaged tasks

`packagedTask`: `main` puts packaged tasks into a deque, and starts a detached thread for
each, with the next range.  A task adds up its range in a `long long` and returns it as an
`int`; `main` adds up the results of the futures, as `int`s.

* `inv`: where `main` and the threads are, in every interleaving.
* `terminates`, `goesOn`: the runs are bounded, and go on to the sum.
* `futures_exact_iff`: the futures and the sum are exact when they, and all bounds that are
  computed, are of type `int`.
-/

namespace Cpp20Examples.PackagedTask

open Lib Lib.Arith

/-! ### The program -/

/-- The conversion of a `long long` to `int`. -/
def toInt (x : Int) : Int := x.bmod (2 ^ 32)

/-- A thread in its task: in the loop of `SumUp`, or with its future ready. -/
inductive Thread
  | loop (i end_ sum : Int)
  | ready (result : Int)
  | undefined
  deriving DecidableEq

/-- `main`: in the loop over `allTasks`, of which `queued` are left, in front of the `get`s,
or with the `sum`. -/
inductive Main
  | loop (queued : Nat) (begin_ end_ : Int)
  | get
  | printed (sum : Int)
  | undefined
  deriving DecidableEq

structure Machine where
  main : Main
  threads : List Thread := []
  deriving DecidableEq

inductive Act
  | main
  | thread (t : Nat)
  deriving DecidableEq

/-- A step of `SumUp::operator()`; signed overflow is undefined. -/
def sumUp : Thread → Option Thread
  | .loop i end_ sum =>
    if i < end_ then
      if fits 64 (sum + i) && fits 32 (i + 1) then some (.loop (i + 1) end_ (sum + i))
      else some .undefined
    else some (.ready (toInt sum))
  | .ready _ | .undefined => none

def Thread.result : Thread → Option Int
  | .ready result => some result
  | .loop .. | .undefined => none

/-- A step of `main`.  `get` waits for its future, so all of them return when all futures are
ready. -/
def main (increment : Int) (m : Machine) : Option Machine :=
  match m.main with
  | .loop 0 _ _ => some { m with main := .get }
  | .loop (queued + 1) begin_ end_ =>
    some {
      main := if fits 32 (end_ + increment) then .loop queued end_ (end_ + increment)
        else .undefined
      threads := m.threads ++ [.loop begin_ end_ 0] }
  | .get =>
    (m.threads.mapM Thread.result).map fun results =>
      { m with
        main := match sumWithin (fits 32) 0 results with
          | some sum => .printed sum
          | none => .undefined }
  | .printed _ | .undefined => none

def step (increment : Int) (m : Machine) : Act → Option Machine
  | .main => main increment m
  | .thread t =>
    m.threads[t]?.bind fun th =>
      (sumUp th).map fun th' => { m with threads := m.threads.set t th' }

/-- The program with `k` tasks in `allTasks`. -/
def system (begin_ increment : Int) (k : Nat) : System Machine Act where
  init :=
    { main := if fits 32 (begin_ + increment) then .loop k begin_ (begin_ + increment)
        else .undefined }
  step := step increment

/-! ### What should hold -/

/-- The total of the integers in `[lo, hi)`. -/
def total (lo hi : Int) : Int := ((List.range (hi - lo).toNat).map fun n : Nat => lo + n).sum

/-- The bounds of the ranges. -/
def bound (begin_ increment : Int) (j : Nat) : Int := begin_ + j * increment

/-- The total of the range of a task. -/
def rangeTotal (begin_ increment : Int) (j : Nat) : Int :=
  total (bound begin_ increment j) (bound begin_ increment (j + 1))

/-- The ranges are given by values of type `int`. -/
structure InRange (begin_ increment : Int) (k : Nat) : Prop where
  nonneg : 0 ≤ increment
  first : fits 32 begin_ = true
  last : fits 32 (bound begin_ increment k) = true

/-- What should hold in every interleaving.  A future that is ready has the total of its
range.  The runs are bounded, and go on until `main` has printed the total of all ranges; then
all futures are ready. -/
structure Exact (begin_ increment : Int) (k : Nat) : Prop where
  future : ∀ m, (system begin_ increment k).Reachable m → ∀ j result,
    m.threads[j]? = some (.ready result) → result = rangeTotal begin_ increment j
  ends : ∃ n, ∀ as m, (system begin_ increment k).run (system begin_ increment k).init as = some m →
    as.length ≤ n
  goesOn : ∀ m, (system begin_ increment k).Reachable m →
    (∃ sum, m.main = .printed sum) ∨ ∃ a m', (system begin_ increment k).step m a = some m'
  sum : ∀ m, (system begin_ increment k).Reachable m → ∀ sum, m.main = .printed sum →
    sum = total begin_ (bound begin_ increment k) ∧
      m.threads = (List.range k).map fun j => .ready (rangeTotal begin_ increment j)

/-! ### The totals -/

theorem total_self (lo : Int) : total lo lo = 0 := by simp [total]

theorem total_succ {lo hi : Int} (h : lo ≤ hi) : total lo (hi + 1) = total lo hi + hi := by
  have hlen : (hi + 1 - lo).toNat = (hi - lo).toNat + 1 := by omega
  have hlast : lo + ((hi - lo).toNat : Int) = hi := by omega
  rw [total, hlen, List.range_succ, List.map_append, List.sum_append, List.map_singleton,
    List.sum_singleton, hlast]
  rfl

theorem total_append {lo mid hi : Int} (hlo : lo ≤ mid) (hhi : mid ≤ hi) :
    total lo mid + total mid hi = total lo hi := by
  induction hi, hhi using Int.leInduction with
  | base => rw [total_self, Int.add_zero]
  | succ hi hhi ih => rw [total_succ hhi, total_succ (hlo.trans hhi), ← ih, Int.add_assoc]

theorem total_bounds {lo hi : Int} (hlo : -2 ^ 31 ≤ lo) (h : lo ≤ hi) (hhi : hi ≤ 2 ^ 31) :
    -((hi - lo) * 2 ^ 31) ≤ total lo hi ∧ total lo hi ≤ (hi - lo) * (2 ^ 31 - 1) := by
  induction hi, h using Int.leInduction with
  | base => simp [total_self]
  | succ hi h ih =>
    obtain ⟨hmin, hmax⟩ := ih (by omega)
    rw [total_succ h]
    constructor <;> linarith

/-- **The `long long` of `SumUp` does not overflow.** -/
theorem fits_total {lo hi : Int} (hlo : -2 ^ 31 ≤ lo) (h : lo ≤ hi) (hhi : hi < 2 ^ 31) :
    fits 64 (total lo hi) = true := by
  obtain ⟨hmin, hmax⟩ := total_bounds hlo h (Int.le_of_lt hhi)
  exact fits_longLong_iff.mpr ⟨by linarith, by linarith⟩

theorem fits_toInt (x : Int) : fits 32 (toInt x) = true := by
  have hle := Int.le_bmod (x := x) (m := 2 ^ 32) (by decide)
  have hlt := Int.bmod_lt (x := x) (m := 2 ^ 32) (by decide)
  exact fits_int_iff.mpr ⟨hle, hlt⟩

theorem toInt_eq_iff {x : Int} : toInt x = x ↔ fits 32 x = true := by
  constructor
  · intro h
    rw [← h]
    exact fits_toInt x
  · intro h
    obtain ⟨hle, hlt⟩ := fits_int_iff.mp h
    exact Int.bmod_eq_of_le (by omega) (by omega)

section Bounds

variable {begin_ increment : Int} {k j l : Nat}

theorem bound_zero : bound begin_ increment 0 = begin_ := by simp [bound]

theorem bound_succ : bound begin_ increment (j + 1) = bound begin_ increment j + increment := by
  rw [bound, bound]
  push_cast
  ring

theorem InRange.mono (h : InRange begin_ increment k) (hjl : j ≤ l) :
    bound begin_ increment j ≤ bound begin_ increment l := by
  have hnonneg := h.nonneg
  have hjl : (j : Int) ≤ l := by exact_mod_cast hjl
  rw [bound, bound]
  nlinarith

theorem InRange.bounds (h : InRange begin_ increment k) (hj : j ≤ k) :
    -2 ^ 31 ≤ bound begin_ increment j ∧ bound begin_ increment j < 2 ^ 31 := by
  have hfirst := (fits_int_iff.mp h.first).1
  have hlast := (fits_int_iff.mp h.last).2
  have hlo := h.mono (Nat.zero_le j)
  have hhi := h.mono hj
  rw [bound_zero] at hlo
  exact ⟨hfirst.trans hlo, hhi.trans_lt hlast⟩

theorem InRange.sum_rangeTotal (h : InRange begin_ increment k) (j : Nat) :
    ((List.range j).map (rangeTotal begin_ increment)).sum =
      total begin_ (bound begin_ increment j) := by
  induction j with
  | zero => rw [bound_zero, total_self]; rfl
  | succ j ih =>
    have hlo := h.mono (Nat.zero_le j)
    rw [bound_zero] at hlo
    rw [List.range_succ, List.map_append, List.sum_append, ih, List.map_singleton,
      List.sum_singleton, rangeTotal, total_append hlo (h.mono (Nat.le_succ j))]

end Bounds

/-! ### Where everybody is -/

section Runs

variable {begin_ increment : Int} {k : Nat} {m m' : Machine} {a : Act}

/-- What a thread has added up of its range. -/
def Thread.At (begin_ increment : Int) (j : Nat) : Thread → Prop
  | .loop i end_ sum => bound begin_ increment j ≤ i ∧ i ≤ end_ ∧
      end_ = bound begin_ increment (j + 1) ∧ sum = total (bound begin_ increment j) i
  | .ready result => result = toInt (rangeTotal begin_ increment j)
  | .undefined => False

/-- What the futures give. -/
def results (begin_ increment : Int) (k : Nat) : List Int :=
  (List.range k).map fun j => toInt (rangeTotal begin_ increment j)

/-- `end` is computed once more than it is used. -/
def EndFits (begin_ increment : Int) (k : Nat) : Prop :=
  fits 32 (bound begin_ increment (k + 1)) = true

/-- Where `main` is when it has started these threads. -/
def Main.At (begin_ increment : Int) (k : Nat) (threads : List Thread) : Main → Prop
  | .loop queued b e => threads.length + queued = k ∧
      b = bound begin_ increment threads.length ∧
      e = bound begin_ increment (threads.length + 1) ∧ fits 32 e = true
  | .get => threads.length = k ∧ EndFits begin_ increment k
  | .printed sum => threads = (results begin_ increment k).map Thread.ready ∧
      EndFits begin_ increment k ∧
      sumWithin (fits 32) 0 (results begin_ increment k) = some sum
  | .undefined => ¬(EndFits begin_ increment k ∧
      (sumWithin (fits 32) 0 (results begin_ increment k)).isSome = true)

/-- **The invariant** of all interleavings. -/
structure Inv (begin_ increment : Int) (k : Nat) (m : Machine) : Prop where
  main : m.main.At begin_ increment k m.threads
  threads : ∀ (j : Nat) (th : Thread), m.threads[j]? = some th → th.At begin_ increment j
  length_le : m.threads.length ≤ k

/-- An `end` that overflows is that of the last range at the latest. -/
theorem not_endFits (h : InRange begin_ increment k) {j : Nat} (hj : j ≤ k + 1)
    (hfits : fits 32 (bound begin_ increment j) = false) : ¬EndFits begin_ increment k := by
  intro hend
  have hle := h.mono hj
  have hlo := h.mono (Nat.zero_le j)
  rw [bound_zero] at hlo
  have hfirst := (fits_int_iff.mp h.first).1
  have hlast := (fits_int_iff.mp hend).2
  have hin : fits 32 (bound begin_ increment j) = true :=
    fits_int_iff.mpr ⟨hfirst.trans hlo, hle.trans_lt hlast⟩
  exact absurd (hfits.symm.trans hin) (by decide)

theorem Thread.At.step (h : InRange begin_ increment k) {j : Nat} {th th' : Thread} (hj : j < k)
    (hth : th.At begin_ increment j) (hst : sumUp th = some th') :
    th'.At begin_ increment j := by
  cases th with
  | loop i end_ sum =>
    obtain ⟨hlo, hhi, rfl, rfl⟩ := hth
    rw [sumUp] at hst
    split at hst
    · -- a sum of a part of the range is in the range of `long long`
      rename_i hlt
      have hbounds := h.bounds (Nat.le_of_lt hj)
      have hbounds' := h.bounds (j := j + 1) hj
      have hsum : fits 64 (total (bound begin_ increment j) i + i) = true := by
        rw [← total_succ hlo]
        exact fits_total hbounds.1 (by omega) (by omega)
      have hnext : fits 32 (i + 1) = true := fits_int_iff.mpr ⟨by omega, by omega⟩
      rw [if_pos (by rw [hsum, hnext]; rfl)] at hst
      cases hst
      exact ⟨by omega, hlt, rfl, (total_succ hlo).symm⟩
    · rename_i hge
      obtain rfl : i = bound begin_ increment (j + 1) := by omega
      cases hst
      rfl
  | ready => cases hst
  | undefined => cases hst

theorem ready_of_results {threads : List Thread} {rs : List Int}
    (h : threads.map Thread.result = rs.map some) : threads = rs.map Thread.ready := by
  induction threads generalizing rs with
  | nil =>
    cases rs with
    | nil => rfl
    | cons r rs => cases h
  | cons th threads ih =>
    cases rs with
    | nil => cases h
    | cons r rs =>
      obtain ⟨hfirst, hrest⟩ := List.cons.inj h
      rw [List.map_cons, ← ih hrest]
      cases th with
      | ready result => rw [Option.some.inj hfirst]
      | loop => cases hfirst
      | undefined => cases hfirst

/-- The futures that are ready give the totals, as values of type `int`. -/
theorem Inv.results_eq (hm : Inv begin_ increment k m) (hlen : m.threads.length = k)
    {rs : List Int} (hrs : m.threads.mapM Thread.result = some rs) :
    rs = results begin_ increment k ∧ m.threads = rs.map Thread.ready := by
  have hthreads := ready_of_results (mapM_eq_some_iff.mp hrs)
  have hlen : rs.length = k := by rwa [hthreads, List.length_map] at hlen
  have hresults : rs.length = (results begin_ increment k).length := by
    rw [results, List.length_map, List.length_range, hlen]
  refine ⟨List.ext_getElem hresults fun j hj _ => ?_, hthreads⟩
  have hready : m.threads[j]? = some (.ready rs[j]) := by
    rw [hthreads, List.getElem?_map, List.getElem?_eq_getElem hj]
    rfl
  have hat : rs[j] = toInt (rangeTotal begin_ increment j) := hm.threads j _ hready
  rw [hat]
  simp [results]

theorem Inv.push (hm : Inv begin_ increment k m) (h : InRange begin_ increment k)
    {queued : Nat} {b e : Int} (hmain : m.main = .loop (queued + 1) b e) :
    (∀ (j : Nat) (th : Thread), (m.threads ++ [Thread.loop b e 0])[j]? = some th →
      th.At begin_ increment j) ∧
    m.threads.length + 1 ≤ k := by
  have hat := hm.main
  rw [hmain] at hat
  obtain ⟨hlen, rfl, rfl, -⟩ := hat
  refine ⟨?_, by omega⟩
  intro j th hth
  rw [List.getElem?_append] at hth
  split at hth
  · exact hm.threads j th hth
  · rename_i hge
    obtain ⟨hlt, rfl⟩ := List.getElem?_eq_some_iff.mp hth
    obtain rfl : j = m.threads.length := by
      rw [List.length_singleton] at hlt
      omega
    rw [List.getElem_singleton]
    exact ⟨Int.le_refl _, h.mono (Nat.le_succ _), rfl, (total_self _).symm⟩

theorem Inv.main_step (hm : Inv begin_ increment k m) (h : InRange begin_ increment k)
    (hst : PackagedTask.main increment m = some m') : Inv begin_ increment k m' := by
  have hat := hm.main
  rw [PackagedTask.main] at hst
  split at hst
  · -- the deque is empty
    rename_i b e hmain
    cases hst
    rw [hmain] at hat
    obtain ⟨hlen, -, rfl, hfits⟩ := hat
    obtain rfl : m.threads.length = k := hlen
    exact ⟨⟨rfl, hfits⟩, hm.threads, Nat.le_refl _⟩
  · -- a thread is started, and the next bounds are computed
    rename_i queued b e hmain
    cases hst
    obtain ⟨hthreads, hle⟩ := hm.push h hmain
    refine ⟨?_, hthreads, by simpa using hle⟩
    rw [hmain] at hat
    obtain ⟨hlen, rfl, rfl, -⟩ := hat
    rw [← bound_succ]
    dsimp only
    split
    · rename_i hfits
      have hlength : (m.threads ++ [Thread.loop (bound begin_ increment m.threads.length)
          (bound begin_ increment (m.threads.length + 1)) 0]).length = m.threads.length + 1 := by
        simp
      refine ⟨?_, ?_, ?_, hfits⟩
      · omega
      · rw [hlength]
      · rw [hlength]
    · rename_i hfits
      intro hboth
      exact not_endFits h (by omega) (eq_false_of_ne_true hfits) hboth.1
  · -- all futures are ready
    rename_i hmain
    obtain ⟨rs, hrs, rfl⟩ := Option.map_eq_some_iff.mp hst
    rw [hmain] at hat
    obtain ⟨hlen, hend⟩ := hat
    obtain ⟨rfl, hthreads⟩ := hm.results_eq hlen hrs
    refine ⟨?_, hm.threads, hm.length_le⟩
    dsimp only
    split
    · rename_i sum hsum
      exact ⟨hthreads, hend, hsum⟩
    · rename_i hnone
      rintro ⟨-, hsome⟩
      rw [hnone] at hsome
      cases hsome
  · cases hst
  · cases hst

theorem Inv.thread_step (hm : Inv begin_ increment k m) (h : InRange begin_ increment k) {t : Nat}
    {th th' : Thread} (hth : m.threads[t]? = some th) (hst : sumUp th = some th') :
    Inv begin_ increment k { m with threads := m.threads.set t th' } := by
  have hlt := (List.getElem?_eq_some_iff.mp hth).1
  refine ⟨?_, ?_, ?_⟩
  · have hat := hm.main
    cases hmain : m.main with
    | loop queued b e =>
      rw [hmain] at hat
      simpa [Main.At] using hat
    | get =>
      rw [hmain] at hat
      simpa [Main.At] using hat
    | printed sum =>
      -- all futures are ready, so no thread takes a step
      rw [hmain] at hat
      obtain ⟨hthreads, -, -⟩ := hat
      rw [hthreads] at hth
      obtain ⟨r, -, rfl⟩ := List.mem_map.mp (List.mem_of_getElem? hth)
      cases hst
    | undefined =>
      rw [hmain] at hat
      exact hat
  · intro j th'' hj
    rcases getElem?_set_cases hj with ⟨rfl, rfl⟩ | ⟨-, hj⟩
    · exact (hm.threads j th hth).step h (Nat.lt_of_lt_of_le hlt hm.length_le) hst
    · exact hm.threads j th'' hj
  · rw [List.length_set]
    exact hm.length_le

theorem inv_init (h : InRange begin_ increment k) :
    Inv begin_ increment k (system begin_ increment k).init := by
  refine ⟨?_, ?_, Nat.zero_le _⟩
  · rw [system]
    dsimp only
    have hone : begin_ + increment = bound begin_ increment 1 := by
      rw [bound_succ, bound_zero]
    split
    · rename_i hfits
      exact ⟨Nat.zero_add k, bound_zero.symm, hone, hfits⟩
    · rename_i hfits
      intro hboth
      rw [hone] at hfits
      exact not_endFits h (by omega) (eq_false_of_ne_true hfits) hboth.1
  · intro j th hth
    cases hth

theorem inv (h : InRange begin_ increment k) (hm : (system begin_ increment k).Reachable m) :
    Inv begin_ increment k m := by
  refine hm.invariant (I := Inv begin_ increment k) (inv_init h) ?_
  intro m a m' hm _ hst
  cases a with
  | main => exact hm.main_step h hst
  | thread t =>
    obtain ⟨th, hth, hst⟩ := Option.bind_eq_some_iff.mp hst
    obtain ⟨th', hth', rfl⟩ := Option.map_eq_some_iff.mp hst
    exact hm.thread_step h hth hth'

/-! ### The end -/

/-- What a thread has left to do. -/
def Thread.left : Thread → Nat
  | .loop i end_ _ => (end_ - i).toNat + 1
  | .ready _ | .undefined => 0

/-- What `main` has left to do, with the threads that it has yet to start. -/
def Main.left (increment : Int) : Main → Nat
  | .loop queued _ _ => queued * (increment.toNat + 2) + 2
  | .get => 1
  | .printed _ | .undefined => 0

def Machine.left (increment : Int) (m : Machine) : Nat :=
  m.main.left increment + (m.threads.map Thread.left).sum

theorem sumUp_left {th th' : Thread} (hst : sumUp th = some th') : th'.left < th.left := by
  cases th with
  | loop i end_ sum =>
    rw [sumUp] at hst
    split at hst
    · split at hst
      · cases hst
        rw [Thread.left, Thread.left]
        omega
      · cases hst
        exact Nat.succ_pos _
    · cases hst
      exact Nat.succ_pos _
  | ready => cases hst
  | undefined => cases hst

theorem Inv.main_left (hm : Inv begin_ increment k m)
    (hst : PackagedTask.main increment m = some m') : m'.left increment < m.left increment := by
  have hat := hm.main
  rw [PackagedTask.main] at hst
  rw [Machine.left, Machine.left]
  split at hst
  · rename_i hmain
    cases hst
    rw [hmain, Main.left, Main.left]
    dsimp only
    omega
  · rename_i queued b e hmain
    cases hst
    rw [hmain] at hat
    obtain ⟨-, rfl, rfl, -⟩ := hat
    have hwidth : bound begin_ increment (m.threads.length + 1) -
        bound begin_ increment m.threads.length = increment := by
      rw [bound_succ]
      omega
    have hnew : ∀ x : Main, x.left increment ≤ queued * (increment.toNat + 2) + 2 →
        x.left increment + ((m.threads ++ [Thread.loop (bound begin_ increment m.threads.length)
          (bound begin_ increment (m.threads.length + 1)) 0]).map Thread.left).sum <
        (queued + 1) * (increment.toNat + 2) + 2 + (m.threads.map Thread.left).sum := by
      intro x hx
      rw [List.map_append, List.sum_append, List.map_singleton, List.sum_singleton, Thread.left,
        hwidth, Nat.add_mul]
      omega
    rw [hmain]
    apply hnew
    split
    · exact Nat.le_refl _
    · exact Nat.zero_le _
  · rename_i hmain
    obtain ⟨rs, -, rfl⟩ := Option.map_eq_some_iff.mp hst
    rw [hmain]
    dsimp only
    split <;> · rw [Main.left, Main.left]; omega
  · cases hst
  · cases hst

/-- **Each step gets nearer to the end.** -/
theorem step_left (h : InRange begin_ increment k) (hm : (system begin_ increment k).Reachable m)
    (hst : (system begin_ increment k).step m a = some m') :
    m'.left increment < m.left increment := by
  cases a with
  | main => exact (inv h hm).main_left hst
  | thread t =>
    obtain ⟨th, hth, hst⟩ := Option.bind_eq_some_iff.mp hst
    obtain ⟨th', hth', rfl⟩ := Option.map_eq_some_iff.mp hst
    obtain ⟨r, hr, hset⟩ := exists_rest Thread.left hth
    have hlt := sumUp_left hth'
    rw [Machine.left, Machine.left, hr, hset]
    dsimp only
    omega

theorem terminates (h : InRange begin_ increment k) :
    ∃ n, ∀ as m, (system begin_ increment k).run (system begin_ increment k).init as = some m →
      as.length ≤ n :=
  ⟨_, fun _ _ hrun => System.Reachable.run_length_le
    (fun _ _ _ hm hst => step_left h hm hst) .init hrun⟩

/-- A thread goes on until its future is ready. -/
theorem Thread.At.goesOn {j : Nat} {th : Thread} (hth : th.At begin_ increment j) :
    th.result.isSome = true ∨ (sumUp th).isSome = true := by
  cases th with
  | loop i end_ sum =>
    right
    rw [sumUp]
    split
    · split <;> rfl
    · rfl
  | ready => exact .inl rfl
  | undefined => exact hth.elim

/-- **The runs go on** until `main` has the sum, or has computed something that is not of type
`int`. -/
theorem goesOn (h : InRange begin_ increment k) (hm : (system begin_ increment k).Reachable m) :
    ((∃ sum, m.main = .printed sum) ∨ m.main = .undefined) ∨
      ∃ a m', (system begin_ increment k).step m a = some m' := by
  have hinv := inv h hm
  have hgoes : (PackagedTask.main increment m).isSome = true →
      ∃ a m', (system begin_ increment k).step m a = some m' :=
    fun hsome => ⟨.main, Option.isSome_iff_exists.mp hsome⟩
  by_cases hready : ∀ th ∈ m.threads, th.result.isSome = true
  · cases hmain : m.main with
    | loop queued b e =>
      right
      apply hgoes
      rw [PackagedTask.main, hmain]
      cases queued <;> rfl
    | get =>
      right
      apply hgoes
      obtain ⟨rs, hrs⟩ := Option.isSome_iff_exists.mp (mapM_isSome hready)
      rw [PackagedTask.main, hmain]
      dsimp only
      rw [hrs]
      rfl
    | printed sum => exact .inl (.inl ⟨sum, rfl⟩)
    | undefined => exact .inl (.inr rfl)
  · right
    push Not at hready
    obtain ⟨th, hth, hnone⟩ := hready
    obtain ⟨t, ht⟩ := List.mem_iff_getElem?.mp hth
    rcases (hinv.threads t th ht).goesOn with hsome | hsome
    · exact absurd hsome (by simpa using hnone)
    · obtain ⟨th', hst⟩ := Option.isSome_iff_exists.mp hsome
      exact ⟨.thread t, { m with threads := m.threads.set t th' }, by
        simp [system, step, ht, hst]⟩

end Runs

/-! ### When the sums are exact -/

section Exactness

variable {begin_ increment : Int} {k : Nat}

/-- All that is computed is of type `int`: the bounds with the one that is not used, the total
of each range, and the totals of the first ranges. -/
structure OfTypeInt (begin_ increment : Int) (k : Nat) : Prop where
  ends : EndFits begin_ increment k
  ranges : ∀ j < k, fits 32 (rangeTotal begin_ increment j) = true
  totals : ∀ j < k, fits 32 (total begin_ (bound begin_ increment (j + 1))) = true

/-- The futures are exact when the totals are of type `int`. -/
theorem results_exact_iff : results begin_ increment k =
    (List.range k).map (rangeTotal begin_ increment) ↔
      ∀ j < k, fits 32 (rangeTotal begin_ increment j) = true := by
  rw [results, List.map_inj_left]
  constructor
  · intro h j hj
    exact toInt_eq_iff.mp (h j (List.mem_range.mpr hj))
  · intro h j hj
    exact toInt_eq_iff.mpr (h j (List.mem_range.mp hj))

/-- The additions of `main`, when the futures are exact. -/
theorem InRange.sumWithin_eq_some_iff (h : InRange begin_ increment k) {sum : Int} :
    sumWithin (fits 32) 0 ((List.range k).map (rangeTotal begin_ increment)) = some sum ↔
      (∀ j < k, fits 32 (total begin_ (bound begin_ increment (j + 1))) = true) ∧
      sum = total begin_ (bound begin_ increment k) := by
  rw [Arith.sumWithin_eq_some_iff, List.length_map, List.length_range, Int.zero_add,
    h.sum_rangeTotal]
  refine and_congr ?_ Iff.rfl
  refine forall₂_congr fun j hj => ?_
  rw [← List.map_take, List.take_range, Nat.min_eq_left hj, h.sum_rangeTotal, Int.zero_add]

/-- **The futures and their sum are exact** exactly when all that is computed is of type
`int`. -/
theorem futures_exact_iff (h : InRange begin_ increment k) :
    Exact begin_ increment k ↔ OfTypeInt begin_ increment k := by
  constructor
  · -- a run to the end has computed everything
    intro hexact
    obtain ⟨n, hn⟩ := hexact.ends
    obtain ⟨m, hm, sum, hmain⟩ := System.Reachable.exists_end hexact.goesOn .init hn
    obtain ⟨-, hthreads⟩ := hexact.sum m hm sum hmain
    have hat := (inv h hm).main
    rw [hmain] at hat
    obtain ⟨hready, hend, hsum⟩ := hat
    have hresults : results begin_ increment k =
        (List.range k).map (rangeTotal begin_ increment) := by
      have hmap : (results begin_ increment k).map Thread.ready =
          ((List.range k).map (rangeTotal begin_ increment)).map Thread.ready := by
        rw [← hready, hthreads, List.map_map]
        rfl
      exact List.map_injective_iff.mpr (fun _ _ => Thread.ready.inj) hmap
    rw [hresults] at hsum
    exact ⟨hend, results_exact_iff.mp hresults, (h.sumWithin_eq_some_iff.mp hsum).1⟩
  · intro hint
    have hresults := results_exact_iff.mpr hint.ranges
    have hsum := h.sumWithin_eq_some_iff.mpr ⟨hint.totals, rfl⟩
    refine ⟨?_, terminates h, ?_, ?_⟩
    · intro m hm j result hj
      have hlt := (List.getElem?_eq_some_iff.mp hj).1
      have hat := (inv h hm).threads j _ hj
      exact hat.trans (toInt_eq_iff.mpr (hint.ranges j (hlt.trans_le (inv h hm).length_le)))
    · intro m hm
      rcases goesOn h hm with (hprinted | hundefined) | hgoes
      · exact .inl hprinted
      · have hat := (inv h hm).main
        rw [hundefined] at hat
        refine absurd ⟨hint.ends, ?_⟩ hat
        rw [hresults, hsum]
        rfl
      · exact .inr hgoes
    · intro m hm sum hmain
      have hat := (inv h hm).main
      rw [hmain] at hat
      obtain ⟨hready, -, hprinted⟩ := hat
      rw [hresults] at hready hprinted
      refine ⟨(h.sumWithin_eq_some_iff.mp hprinted).2, ?_⟩
      rw [hready, List.map_map]
      rfl

/-- Two tasks, with `1, 2` and `3, 4`. -/
theorem futures_exact_iff_two : Exact 1 2 2 :=
  (futures_exact_iff ⟨by decide, by decide, by decide⟩).mpr ⟨rfl, by decide, by decide⟩

/-- The total of two great integers is not of type `int`: the future has another one. -/
theorem result_narrowed : InRange 2000000000 2 1 ∧ ¬Exact 2000000000 2 1 := by
  have hin : InRange 2000000000 2 1 := ⟨by decide, by decide, by decide⟩
  refine ⟨hin, ?_⟩
  intro hexact
  obtain ⟨m, hm, hready⟩ := System.exists_reachable (M := system 2000000000 2 1)
    (p := fun m => m.threads[0]? == some (.ready (-294967295)))
    [.main, .thread 0, .thread 0, .thread 0] (by decide)
  have hresult := hexact.future m hm 0 (-294967295) (by simpa using hready)
  exact absurd hresult (by decide)

end Exactness

end Cpp20Examples.PackagedTask
