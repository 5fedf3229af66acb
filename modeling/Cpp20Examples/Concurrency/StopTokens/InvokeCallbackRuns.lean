import Cpp20Examples.Concurrency.StopTokens.InvokeCallback
import Mathlib.Algebra.BigOperators.Group.Finset.Basic

/-!
# The runs of `invokeCallback`

* `callback_safe`: no callback reads a dead counter, the runs are bounded, and none gets stuck.
-/

namespace Cpp20Examples.InvokeCallback

open Lib

variable {n i : Nat} {m m' : Machine} {k c : Nat → Nat} {w : Worker} {st : Status} {kᵢ cᵢ v : Nat}

theorem inv_init (n : Nat) : Inv n (system n).init (fun _ => 0) (fun _ => 0) := by
  refine ⟨.start (Nat.zero_le n), ?_, fun _ _ => rfl, rfl, nofun, List.Pairwise.nil, rfl⟩
  intro i _
  show WorkerInv (if i < 0 then .started else .unborn) _ _ _
  rw [if_neg (Nat.not_lt_zero i)]
  exact ⟨StopState.wf_init, rfl, .unborn⟩

theorem inv (hm : (system n).Reachable m) : ∃ k c, Inv n m k c := by
  refine hm.invariant (I := fun m => ∃ k c, Inv n m k c) ⟨_, _, inv_init n⟩ ?_
  rintro m a m' ⟨k, c, h⟩ - hst
  cases a with
  | main => exact h.main_step hst
  | thread i =>
    obtain ⟨hi, hst⟩ := Option.ite_none_right_eq_some.mp hst
    exact h.func hi hst

/-! ### No deadlock -/

/-- A thread of which a stop was requested can go on until its end. -/
theorem func_isSome (h : WorkerInv .requested (m.workers i) kᵢ cᵢ)
    (hend : (m.workers i).place ≠ .ended) : (func m i).isSome = true := by
  obtain ⟨hunborn, hph⟩ := h.place.of_requested
  rw [func]
  cases hp : (m.workers i).place with
  | unborn => exact absurd hp hunborn
  | ended => exact absurd hp hend
  | callBack | invoke | test =>
    simp only
    split <;> rfl
  | destroyCallBack =>
    simp only [Option.isSome_map, StopState.destruct_isSome_iff]
    intro hexec
    rw [hph] at hexec
    cases hexec
  | _ => rfl

theorem main_isSome (hm : ∀ i, m.main ≠ .join i) (hend : m.main ≠ .ended) :
    (main n m).isSome = true := by
  rw [main]
  cases hmain : m.main with
  | join i => exact absurd hmain (hm i)
  | ended => exact absurd hmain hend
  | start | callbacks | execute =>
    simp only
    split <;> rfl
  | requestStop =>
    simp only
    split
    · split <;> rfl
    · split <;> rfl

theorem Inv.progress (h : Inv n m k c) :
    m.main = .ended ∨ ∃ a m', (system n).step m a = some m' := by
  have hmove : (main n m).isSome = true → ∃ a m', (system n).step m a = some m' := by
    intro hsome
    obtain ⟨m', hst⟩ := Option.isSome_iff_exists.mp hsome
    exact ⟨.main, m', hst⟩
  by_cases hend : m.main = .ended
  · exact .inl hend
  · right
    by_cases hjoin : ∃ i, m.main = .join i
    · obtain ⟨i, hmain⟩ := hjoin
      have hok := h.ok
      rw [hmain] at hok
      cases hok with
      | join hi =>
        by_cases hp : (m.workers i).place = .ended
        · apply hmove
          rw [main, hmain]
          simp only [hp, if_true, Option.isSome_some]
        · obtain ⟨m', hst⟩ := Option.isSome_iff_exists.mp
            (func_isSome (h.worker_of_printed (by rw [hmain]; rfl) i hi) hp)
          exact ⟨.thread i, m', (if_pos hi).trans hst⟩
    · exact hmove (main_isSome (not_exists.mp hjoin) hend)

/-! ### Bounded runs -/

/-- What the thread and its callback have left to do. -/
def Worker.left (w : Worker) : Nat :=
  8 * w.stop.callbacks.length + match w.place with
    | .unborn => 50
    | .counter => 45
    | .callBack => 40
    | .invoke k => 30 - k
    | .test => 3 + 2 * (10 - w.counter.getD 10)
    | .increment => 2 + 2 * (10 - w.counter.getD 10)
    | .destroyCallBack => 2
    | .destroyCounter => 1
    | .ended => 0

/-- What `main` has left to do, without the registered callbacks. -/
def Main.left (n : Nat) : Main → Nat
  | start i => 40 * n + 24 + (n - i)
  | requestStop i dtor => 20 * (n - i) + 2 + if dtor = true then 0 else 20 * n + 20
  | callbacks i dtor => 20 * (n - i) - 10 + if dtor = true then 0 else 20 * n + 20
  | execute i dtor k => 20 * (n - i) - 3 - k + if dtor = true then 0 else 20 * n + 20
  | join i => 20 * (n - i) - 15
  | ended => 0

def Machine.left (n : Nat) (m : Machine) : Nat :=
  ∑ i ∈ Finset.range n, (m.workers i).left + m.main.left n

theorem sum_update (hi : i < n) (workers : Nat → Worker) (w : Worker) :
    ∑ j ∈ Finset.range n, (Function.update workers i w j).left + (workers i).left =
      ∑ j ∈ Finset.range n, (workers j).left + w.left := by
  have hmem := Finset.mem_range.mpr hi
  have hrest : ∑ j ∈ (Finset.range n).erase i, (Function.update workers i w j).left =
      ∑ j ∈ (Finset.range n).erase i, (workers j).left := by
    refine Finset.sum_congr rfl fun j hj => ?_
    rw [Function.update_of_ne (Finset.ne_of_mem_erase hj)]
  rw [← Finset.add_sum_erase _ _ hmem, ← Finset.add_sum_erase _ (fun j => (workers j).left) hmem,
    hrest, Function.update_self]
  omega

theorem func_left (h : WorkerInv st (m.workers i) kᵢ cᵢ) (hst : func m i = some m') :
    ∃ w, m'.workers = Function.update m.workers i w ∧ m'.main = m.main ∧
      w.left < (m.workers i).left := by
  cases h.func_cases hst with
  | counter hp | invoked hp | destroyCounter hp =>
    refine ⟨_, rfl, rfl, ?_⟩
    simp only [Worker.left, hp]
    omega
  | callBack hp hcon =>
    obtain ⟨-, heq⟩ := Option.ite_none_left_eq_some.mp hcon
    cases heq
    refine ⟨_, rfl, rfl, ?_⟩
    simp only [Worker.left, hp, List.length_cons]
    omega
  | invoke hp hj =>
    refine ⟨_, rfl, rfl, ?_⟩
    simp only [Worker.left, hp]
    omega
  | returned hp =>
    have hplace := h.place
    rw [hp] at hplace
    obtain ⟨-, -, -, hv, -⟩ := hplace.of_invoke
    refine ⟨_, rfl, rfl, ?_⟩
    simp only [Worker.left, hp, hv, Option.getD_some]
    omega
  | test hp hv hlt =>
    refine ⟨_, rfl, rfl, ?_⟩
    simp only [Worker.left, hp, hv]
    omega
  | leave hp hv =>
    refine ⟨_, rfl, rfl, ?_⟩
    simp only [Worker.left, hp, hv]
    omega
  | increment hp hv hlt =>
    refine ⟨_, rfl, rfl, ?_⟩
    simp only [Worker.left, hp, hv, Option.getD_some]
    omega
  | @destroyCallBack stop hp hdes =>
    obtain ⟨-, heq⟩ := Option.ite_none_left_eq_some.mp hdes
    have hlen : stop.callbacks.length ≤ (m.workers i).stop.callbacks.length := by
      cases heq
      exact List.length_erase_le
    refine ⟨_, rfl, rfl, ?_⟩
    simp only [Worker.left, hp]
    omega

theorem func_machine_left (h : Inv n m k c) (hi : i < n) (hst : func m i = some m') :
    m'.left n < m.left n := by
  obtain ⟨w, hworkers, hmain, hlt⟩ := func_left (h.worker i hi) hst
  have hsum := sum_update hi m.workers w
  rw [Machine.left, Machine.left, hworkers, hmain]
  omega

theorem left_lt (hi : i < n) {mn : Main} {d : Nat}
    (hw : w.left + d ≤ (m.workers i).left) (hmain : mn.left n < m.main.left n + d) :
    Machine.left n { m.set i w with main := mn } < m.left n := by
  have hsum := sum_update hi m.workers w
  show ∑ j ∈ Finset.range n, (Function.update m.workers i w j).left + mn.left n < _
  rw [Machine.left]
  omega

theorem left_main_lt {out : List (Nat × Piece)} {mn : Main}
    (hmain : mn.left n < m.main.left n) :
    Machine.left n { m with main := mn, out := out } < m.left n := by
  rw [Machine.left, Machine.left]
  exact Nat.add_lt_add_left hmain _

/-- `main` has less to do, or takes a callback. -/
theorem main_left (h : Inv n m k c) (hst : main n m = some m') : m'.left n < m.left n := by
  cases h.main_cases hst with
  | start hmain hi =>
    have hp := (h.worker_start hmain hi).place.of_unborn
    refine left_lt (d := 5) hi ?_ ?_
    · simp only [Worker.left, hp]
      omega
    · simp only [hmain, Main.left]
      omega
  | requestStop hmain hi | finish hmain hi =>
    refine left_lt (d := 0) hi (Nat.le_refl _) ?_
    simp only [hmain, Main.left]
    omega
  | @take i stop hmain hi htake =>
    obtain ⟨⟨hmem, -⟩, heq⟩ := Option.ite_none_right_eq_some.mp htake
    cases heq
    have hlen := List.length_erase_of_mem hmem
    have hpos := List.length_pos_of_mem hmem
    refine left_lt (d := 8) hi ?_ ?_
    · simp only [Worker.left, hlen]
      omega
    · simp only [hmain, Main.left]
      omega
  | started hmain | newline hmain | destroy hmain | ended hmain | returned hmain | execute hmain
  | join hmain =>
    refine left_main_lt ?_
    simp only [hmain, Main.left, Bool.false_eq_true, if_false, if_true]
    omega

theorem length_le (hm : (system n).Reachable m) {as : List Act}
    (hrun : (system n).run m as = some m') : as.length ≤ m.left n := by
  refine hm.run_length_le ?_ hrun
  intro m a m' hm hst
  obtain ⟨k, c, h⟩ := inv hm
  cases a with
  | main => exact main_left h hst
  | thread i =>
    obtain ⟨hi, hst⟩ := Option.ite_none_right_eq_some.mp hst
    exact func_machine_left h hi hst

/-- **The callbacks of `invokeCallback`.**  No callback reads a counter that has been destroyed.
The runs are bounded, and go on until `main` has joined all threads. -/
theorem callback_safe (n : Nat) :
    (∀ m, (system n).Reachable m →
      m.dangling = false ∧ (m.main = .ended ∨ ∃ a m', (system n).step m a = some m')) ∧
    ∀ as m, (system n).run (system n).init as = some m → as.length ≤ 91 * n + 24 := by
  constructor
  · intro m hm
    obtain ⟨k, c, h⟩ := inv hm
    exact ⟨h.safe, h.progress⟩
  · intro as m hrun
    have hinit : (system n).init.left n = 91 * n + 24 := by
      show ∑ _i ∈ Finset.range n, 50 + (40 * n + 24 + (n - 0)) = _
      rw [Finset.sum_const_nat (m := 50) fun _ _ => rfl, Finset.card_range]
      omega
    rw [← hinit]
    exact length_le .init hrun

end Cpp20Examples.InvokeCallback
