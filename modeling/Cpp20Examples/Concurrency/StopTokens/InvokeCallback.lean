import Cpp20Examples.Lib.StopState
import Cpp20Examples.Lib.System
import Mathlib.Algebra.BigOperators.Group.Finset.Basic

/-!
# Callbacks of stop requests

`invokeCallback`: each thread has a counter and registers a callback that writes it.  `main`
requests a stop of one thread after the other, and so executes the callbacks; a thread that comes
too late executes its callback itself.

* `Inv`: workers and output, from the place of `main`.
* `callback_safe`: no callback reads a dead counter, the runs are bounded, and none gets stuck.
* `Printed`: the outputs, and `Inv.printed`: those of the complete runs.
-/

namespace Cpp20Examples.InvokeCallback

open Lib

/-! ### The program -/

/-- What the callback inserts into `std::cout`. -/
inductive Piece
  | threadId
  | id
  | counterText
  | counter (c : Nat)
  | newline
  deriving DecidableEq

/-- Where a thread is in `func`; with `invoke k` it executes its callback in the constructor of
`callBack`, and has made `k` insertions. -/
inductive Place
  | unborn
  | counter
  | callBack
  | invoke (k : Nat)
  | test
  | increment
  | destroyCallBack
  | destroyCounter
  | ended
  deriving DecidableEq

/-- A thread, its counter while it lives, and its stop state. -/
structure Worker where
  place : Place := .unborn
  counter : Option Nat := none
  stop : StopState Unit := {}

/-- Where `main` is; `dtor` is true in the destructors of the `std::jthread`s. -/
inductive Main
  | start (i : Nat)
  | requestStop (i : Nat) (dtor : Bool)
  | callbacks (i : Nat) (dtor : Bool)
  | execute (i : Nat) (dtor : Bool) (k : Nat)
  | join (i : Nat)
  | ended
  deriving DecidableEq

/-- `out` has a thread for each piece of its callback, and `n` for the last line break of `main`. -/
structure Machine where
  workers : Nat → Worker := fun _ => {}
  main : Main := .start 0
  out : List (Nat × Piece) := []
  dangling : Bool := false

def Machine.set (m : Machine) (i : Nat) (w : Worker) : Machine :=
  { m with workers := Function.update m.workers i w }

/-- The insertion `k` of the callback; a dead counter has no value. -/
def insertion (w : Worker) : Nat → Option Piece
  | 0 => some .threadId
  | 1 => some .id
  | 2 => some .counterText
  | 3 => w.counter.map .counter
  | _ => some .newline

/-- The callback of the thread `i`, from its insertion `k` to the next one. -/
def Machine.insert (m : Machine) (i k : Nat) : Machine :=
  match insertion (m.workers i) k with
  | some piece => { m with out := m.out ++ [(i, piece)] }
  | none => { m with dangling := true }

/-- A step of the thread `i`. -/
def func (m : Machine) (i : Nat) : Option Machine :=
  let w := m.workers i
  match w.place with
  | .unborn => none
  | .counter => some (m.set i { w with counter := some 0, place := .callBack })
  | .callBack =>
    match w.stop.construct () with
    | some stop => some (m.set i { w with stop, place := .test })
    | none => some (m.set i { w with place := .invoke 0 })
  | .invoke k =>
    if k < 5 then some ((m.insert i k).set i { w with place := .invoke (k + 1) })
    else some (m.set i { w with place := .test })
  | .test =>
    if w.counter.any (· < 10) = true then some (m.set i { w with place := .increment })
    else some (m.set i { w with place := .destroyCallBack })
  | .increment => some (m.set i { w with counter := w.counter.map (· + 1), place := .test })
  | .destroyCallBack =>
    (w.stop.destruct ()).map fun stop => m.set i { w with stop, place := .destroyCounter }
  | .destroyCounter => some (m.set i { w with counter := none, place := .ended })
  | .ended => none

/-- `request_stop` has returned. -/
def Main.returned (i : Nat) (dtor : Bool) : Main :=
  if dtor = true then .join i else .requestStop (i + 1) false

/-- A step of `main`, behind its first line break. -/
def main (n : Nat) (m : Machine) : Option Machine :=
  match m.main with
  | .start i =>
    if i < n then
      some { m.set i { m.workers i with place := .counter } with main := .start (i + 1) }
    else some { m with main := .requestStop 0 false }
  | .requestStop i dtor =>
    let w := m.workers i
    if i < n then
      -- only the first request of a stop executes callbacks
      if w.stop.stopRequested = true then some { m with main := .returned i dtor }
      else
        some { m.set i { w with stop := w.stop.requestStop } with main := .callbacks i dtor }
    else if dtor = true then some { m with main := .ended }
    else some { m with out := m.out ++ [(n, .newline)], main := .requestStop 0 true }
  | .callbacks i dtor =>
    let w := m.workers i
    match w.stop.take () with
    | some stop => some { m.set i { w with stop } with main := .execute i dtor 0 }
    | none => some { m with main := .returned i dtor }
  | .execute i dtor k =>
    let w := m.workers i
    if k < 5 then some { m.insert i k with main := .execute i dtor (k + 1) }
    else some { m.set i { w with stop := w.stop.finish } with main := .callbacks i dtor }
  | .join i =>
    if (m.workers i).place = .ended then some { m with main := .requestStop (i + 1) true }
    else none
  | .ended => none

inductive Act
  | main
  | thread (i : Nat)

/-- `main` with `n` threads. -/
def system (n : Nat) : System Machine Act where
  init := {}
  step m
    | .main => main n m
    | .thread i => if i < n then func m i else none

/-! ### The invariant -/

/-- What `main` has done for a thread. -/
inductive Status
  | unborn
  | started
  | pending
  | executing (k : Nat)
  | requested
  deriving DecidableEq

namespace Main

def status : Main → Nat → Status
  | start p, i => if i < p then .started else .unborn
  | requestStop p false, i => if i < p then .requested else .started
  | callbacks p _, i => if i < p then .requested else if i = p then .pending else .started
  | execute p _ k, i => if i < p then .requested else if i = p then .executing k else .started
  | _, _ => .requested

/-- The last line break was written. -/
def printed : Main → Bool
  | requestStop _ dtor => dtor
  | join _ | ended => true
  | _ => false

/-- The places that `main` gets to. -/
inductive Ok (n : Nat) : Main → Prop
  | start {p} (h : p ≤ n) : Ok n (.start p)
  | requestStop {p} (dtor) (h : p ≤ n) : Ok n (.requestStop p dtor)
  | callbacks {p} (h : p < n) : Ok n (.callbacks p false)
  | execute {p k} (h : p < n) (hk : k ≤ 5) : Ok n (.execute p false k)
  | join {p} (h : p < n) : Ok n (.join p)
  | ended : Ok n .ended

end Main

/-- A stop of the thread was requested. -/
def Status.stopRequested : Status → Bool
  | unborn | started => false
  | _ => true

/-- The thread was started, and `main` does not execute its callback. -/
def Status.idle : Status → Bool
  | unborn | executing _ => false
  | _ => true

/-- Between the constructor and the destructor of `callBack`, with the value of the counter. -/
inductive Looping : Place → Nat → Prop
  | test {v} (h : v ≤ 10) : Looping .test v
  | increment {v} (h : v < 10) : Looping .increment v
  | destroyCallBack {v} (h : v ≤ 10) : Looping .destroyCallBack v

theorem Looping.le {p : Place} {v : Nat} (h : Looping p v) : v ≤ 10 := by
  cases h with
  | test h | destroyCallBack h => exact h
  | increment h => exact Nat.le_of_lt h

/-- Behind the constructor of `callBack`. -/
inductive Behind : Place → Option Nat → Prop
  | looping {p v} (h : Looping p v) : Behind p (some v)
  | destroyCounter {v} : Behind .destroyCounter (some v)
  | ended : Behind .ended none

/-- A thread of which `k` pieces were written, with the value `c` if this was read. -/
inductive At : Status → Place → Option Nat → StopState.Phase → Nat → Nat → Prop
  | unborn : At .unborn .unborn none .outside 0 0
  | fresh {st} (hst : st.idle = true) : At st .counter none .outside 0 0
  | callBack {st} (hst : st.idle = true) : At st .callBack (some 0) .outside 0 0
  | invoke {st k} (hst : st.idle = true) (hreq : st.stopRequested = true) (hk : k ≤ 5) :
      At st (.invoke k) (some 0) .outside k 0
  | registered {st p v} (hst : st = .started ∨ st = .pending) (h : Looping p v) :
      At st p (some v) .registered 0 0
  | executing {k p v c} (h : Looping p v) (hk : k ≤ 5) (hc : c ≤ 10) (hread : k ≤ 3 → c = 0) :
      At (.executing k) p (some v) .executing k c
  | never {st p o} (hst : st.idle = true) (h : Behind p o) : At st p o .outside 0 0
  | whole {st p o c} (hst : st.idle = true) (hreq : st.stopRequested = true) (h : Behind p o)
      (hc : c ≤ 10) : At st p o .outside 5 c

structure WorkerInv (st : Status) (w : Worker) (k c : Nat) : Prop where
  wf : w.stop.Wf
  requested : w.stop.stopRequested = st.stopRequested
  place : At st w.place w.counter (w.stop.phase ()) k c

/-- The pieces of one thread. -/
def written (out : List (Nat × Piece)) (i : Nat) : List Piece :=
  (out.filter fun e => e.1 == i).map Prod.snd

/-- What a callback inserts that reads `c`. -/
def line (c : Nat) : List Piece := [.threadId, .id, .counterText, .counter c, .newline]

/-- A piece that follows one of a later thread is of a callback that has read 0. -/
def InOrder (c : Nat → Nat) (out : List (Nat × Piece)) : Prop :=
  out.Pairwise fun e e' => e'.1 < e.1 → c e'.1 = 0

structure Inv (n : Nat) (m : Machine) (k c : Nat → Nat) : Prop where
  ok : m.main.Ok n
  worker : ∀ i < n, WorkerInv (m.main.status i) (m.workers i) (k i) (c i)
  lines : ∀ i < n, written m.out i = (line (c i)).take (k i)
  newline : written m.out n = if m.main.printed = true then [Piece.newline] else []
  index : ∀ e ∈ m.out, e.1 ≤ n
  order : InOrder c m.out
  safe : m.dangling = false

variable {n i : Nat} {m m' : Machine} {mn : Main} {k c : Nat → Nat} {w : Worker} {st : Status}
  {p : Place} {o : Option Nat} {ph : StopState.Phase} {kᵢ cᵢ v : Nat}

/-! ### What a step keeps -/

/-- A step that writes nothing. -/
theorem Inv.move (h : Inv n m k c) {workers : Nat → Worker} (hmain : mn.Ok n)
    (hprinted : mn.printed = m.main.printed)
    (hworkers : ∀ j < n, WorkerInv (mn.status j) (workers j) (k j) (c j)) :
    Inv n { m with workers, main := mn } k c := by
  refine ⟨hmain, hworkers, h.lines, ?_, h.index, h.order, h.safe⟩
  show written m.out n = if mn.printed = true then _ else _
  rw [hprinted]
  exact h.newline

theorem Inv.move_set (h : Inv n m k c) (hmain : mn.Ok n) (hprinted : mn.printed = m.main.printed)
    (hothers : ∀ j < n, j ≠ i → mn.status j = m.main.status j)
    (hw : WorkerInv (mn.status i) w (k i) (c i)) : Inv n { m.set i w with main := mn } k c := by
  refine h.move hmain hprinted ?_
  intro j hj
  show WorkerInv _ (Function.update m.workers i w j) _ _
  by_cases hji : j = i
  · subst hji
    rw [Function.update_self]
    exact hw
  · rw [Function.update_of_ne hji, hothers j hj hji]
    exact h.worker j hj

theorem Inv.set (h : Inv n m k c) (hw : WorkerInv (m.main.status i) w (k i) (c i)) :
    Inv n (m.set i w) k c := h.move_set h.ok rfl (fun _ _ _ => rfl) hw

theorem written_append (out : List (Nat × Piece)) (j : Nat) (x : Piece) (i : Nat) :
    written (out ++ [(j, x)]) i = if j = i then written out i ++ [x] else written out i := by
  rw [written, List.filter_append, List.map_append]
  by_cases hji : j = i
  · simp [hji, written]
  · simp [hji, written]

theorem mem_written {out : List (Nat × Piece)} {e : Nat × Piece} (he : e ∈ out) :
    e.2 ∈ written out e.1 :=
  List.mem_map.mpr ⟨e, List.mem_filter.mpr ⟨he, beq_self_eq_true _⟩, rfl⟩

theorem InOrder.append {out : List (Nat × Piece)} (h : InOrder c out) {x : Piece}
    (hi : (∀ e ∈ out, e.1 ≤ i) ∨ c i = 0) : InOrder c (out ++ [(i, x)]) := by
  rw [InOrder, List.pairwise_append]
  refine ⟨h, List.pairwise_singleton .., ?_⟩
  rintro e he e' he' hlt
  obtain rfl := List.mem_singleton.mp he'
  rcases hi with hle | hzero
  · exact absurd hlt (Nat.not_lt.mpr (hle e he))
  · exact hzero

theorem InOrder.update {out : List (Nat × Piece)} (h : InOrder c out)
    (hi : (∀ e ∈ out, e.1 ≤ i) ∨ cᵢ = 0) : InOrder (Function.update c i cᵢ) out := by
  refine List.Pairwise.imp_of_mem ?_ h
  intro e e' he _ horder hlt
  by_cases hei : e'.1 = i
  · rw [hei, Function.update_self]
    rcases hi with hle | hzero
    · exact absurd (hei ▸ hlt) (Nat.not_lt.mpr (hle e he))
    · exact hzero
  · rw [Function.update_of_ne hei]
    exact horder hlt

/-- **A callback inserts its next piece.** -/
theorem Inv.insert (h : Inv n m k c) (hi : i < n) (x : Piece) (cᵢ : Nat)
    {workers : Nat → Worker} (hmain : mn.Ok n) (hprinted : mn.printed = m.main.printed)
    (hothers : ∀ j < n, j ≠ i → WorkerInv (mn.status j) (workers j) (k j) (c j))
    (hw : WorkerInv (mn.status i) (workers i) (k i + 1) cᵢ)
    (hx : (line cᵢ)[k i]? = some x) (hsame : (line cᵢ).take (k i) = (line (c i)).take (k i))
    (horder : (∀ e ∈ m.out, e.1 ≤ i) ∨ cᵢ = 0) :
    Inv n { m with workers, main := mn, out := m.out ++ [(i, x)] }
      (Function.update k i (k i + 1)) (Function.update c i cᵢ) := by
  refine ⟨hmain, ?_, ?_, ?_, ?_, ?_, h.safe⟩
  · intro j hj
    by_cases hji : j = i
    · subst hji
      rw [Function.update_self, Function.update_self]
      exact hw
    · rw [Function.update_of_ne hji, Function.update_of_ne hji]
      exact hothers j hj hji
  · intro j hj
    show written (m.out ++ [(i, x)]) j = _
    rw [written_append]
    by_cases hji : j = i
    · subst hji
      rw [if_pos rfl, Function.update_self, Function.update_self, List.take_add_one, hx, hsame,
        h.lines j hj]
      rfl
    · rw [if_neg (Ne.symm hji), Function.update_of_ne hji, Function.update_of_ne hji]
      exact h.lines j hj
  · show written (m.out ++ [(i, x)]) n = if mn.printed = true then _ else _
    rw [written_append, if_neg (Nat.ne_of_lt hi), hprinted]
    exact h.newline
  · intro e he
    rcases List.mem_append.mp he with he | he
    · exact h.index e he
    · obtain rfl := List.mem_singleton.mp he
      exact Nat.le_of_lt hi
  · refine (h.order.update horder).append ?_
    rw [Function.update_self]
    exact horder

/-! ### Steps of a thread -/

theorem At.loop {p' : Place} {v' : Nat} (h : At st p (some v) ph kᵢ cᵢ) (hp : Looping p v)
    (hp' : Looping p' v') : At st p' (some v') ph kᵢ cᵢ := by
  cases h with
  | callBack => cases hp
  | invoke => cases hp
  | registered hst => exact .registered hst hp'
  | executing _ hk hc hread => exact .executing hp' hk hc hread
  | never hst => exact .never hst (.looping hp')
  | whole hst hreq _ hc => exact .whole hst hreq (.looping hp') hc

theorem At.looping (h : At st p o ph kᵢ cᵢ)
    (hp : p = .test ∨ p = .increment ∨ p = .destroyCallBack) : ∃ v, o = some v ∧ Looping p v := by
  cases h with
  | unborn => simp at hp
  | fresh => simp at hp
  | callBack => simp at hp
  | invoke => simp at hp
  | registered _ h => exact ⟨_, rfl, h⟩
  | executing h => exact ⟨_, rfl, h⟩
  | never _ h | whole _ _ h =>
    cases h with
    | looping h => exact ⟨_, rfl, h⟩
    | destroyCounter => simp at hp
    | ended => simp at hp

theorem insertion_eq {j : Nat} (hj : j < 5) (hw : w.counter = some v) :
    insertion w j = (line v)[j]? := by
  match j, hj with
  | 0, _ | 1, _ | 2, _ | 4, _ => rfl
  | 3, _ =>
    show w.counter.map Piece.counter = _
    rw [hw]
    rfl

theorem WorkerInv.loop (h : WorkerInv st w kᵢ cᵢ) {p' : Place} {v' : Nat}
    (hv : w.counter = some v) (hp : Looping w.place v) (hp' : Looping p' v') :
    WorkerInv st { w with counter := some v', place := p' } kᵢ cᵢ := by
  refine ⟨h.wf, h.requested, ?_⟩
  have hplace := h.place
  rw [hv] at hplace
  exact hplace.loop hp hp'

theorem At.of_counter (h : At st .counter o ph kᵢ cᵢ) :
    st.idle = true ∧ o = none ∧ ph = .outside ∧ kᵢ = 0 ∧ cᵢ = 0 := by
  cases h with
  | fresh hst => exact ⟨hst, rfl, rfl, rfl, rfl⟩
  | registered _ h => cases h
  | executing h => cases h
  | never _ h | whole _ _ h =>
    cases h with
    | looping h => cases h

theorem At.of_callBack (h : At st .callBack o ph kᵢ cᵢ) :
    st.idle = true ∧ o = some 0 ∧ ph = .outside ∧ kᵢ = 0 ∧ cᵢ = 0 := by
  cases h with
  | callBack hst => exact ⟨hst, rfl, rfl, rfl, rfl⟩
  | registered _ h => cases h
  | executing h => cases h
  | never _ h | whole _ _ h =>
    cases h with
    | looping h => cases h

theorem At.of_invoke {j : Nat} (h : At st (.invoke j) o ph kᵢ cᵢ) :
    st.idle = true ∧ st.stopRequested = true ∧ j ≤ 5 ∧ o = some 0 ∧ ph = .outside ∧ kᵢ = j ∧
      cᵢ = 0 := by
  cases h with
  | invoke hst hreq hk => exact ⟨hst, hreq, hk, rfl, rfl, rfl, rfl⟩
  | registered _ h => cases h
  | executing h => cases h
  | never _ h | whole _ _ h =>
    cases h with
    | looping h => cases h

theorem At.destroyCounter (h : At st .destroyCounter o ph kᵢ cᵢ) :
    At st .ended none ph kᵢ cᵢ := by
  cases h with
  | registered _ h => cases h
  | executing h => cases h
  | never hst _ => exact .never hst .ended
  | whole hst hreq _ hc => exact .whole hst hreq .ended hc

/-- **The constructor of the callback** registers it when no stop was requested. -/
theorem WorkerInv.construct (h : WorkerInv st w kᵢ cᵢ) (hp : w.place = .callBack)
    {stop : StopState Unit} (hcon : w.stop.construct () = some stop) :
    WorkerInv st { w with stop, place := .test } kᵢ cᵢ := by
  have hplace := h.place
  rw [hp] at hplace
  obtain ⟨hst, ho, hph, rfl, rfl⟩ := hplace.of_callBack
  obtain ⟨hwf, hreq, hreq', hphase⟩ := h.wf.construct hph hcon
  have hst' := h.requested.symm.trans hreq
  refine ⟨hwf, hreq'.trans hst'.symm, ?_⟩
  show At st .test w.counter (stop.phase ()) 0 0
  rw [ho, hphase, Function.update_self]
  refine .registered (.inl ?_) (.test (Nat.zero_le 10))
  cases st with
  | started => rfl
  | unborn => cases hst
  | _ => cases hst'

/-- Else the constructor executes the callback. -/
theorem WorkerInv.invoked (h : WorkerInv st w kᵢ cᵢ) (hp : w.place = .callBack)
    (hcon : w.stop.construct () = none) : WorkerInv st { w with place := .invoke 0 } kᵢ cᵢ := by
  have hplace := h.place
  rw [hp] at hplace
  obtain ⟨hst, ho, hph, rfl, rfl⟩ := hplace.of_callBack
  have hreq := StopState.construct_eq_none_iff.mp hcon
  refine ⟨h.wf, h.requested, ?_⟩
  show At st (.invoke 0) w.counter (w.stop.phase ()) 0 0
  rw [ho, hph]
  exact .invoke hst (h.requested.symm.trans hreq) (Nat.zero_le 5)

/-- **The destructor of the callback** waits while `main` executes it. -/
theorem WorkerInv.destruct (h : WorkerInv st w kᵢ cᵢ) (hp : w.place = .destroyCallBack)
    {stop : StopState Unit} (hdes : w.stop.destruct () = some stop) :
    WorkerInv st { w with stop, place := .destroyCounter } kᵢ cᵢ := by
  obtain ⟨hwf, hreq, hexec, hphase⟩ := h.wf.destruct hdes
  obtain ⟨v, hv, -⟩ := h.place.looping (.inr (.inr hp))
  refine ⟨hwf, hreq.trans h.requested, ?_⟩
  show At st .destroyCounter w.counter (stop.phase ()) kᵢ cᵢ
  have hplace := h.place
  rw [hp, hv] at hplace
  rw [hv, hphase, Function.update_self]
  generalize w.stop.phase () = ph at hplace hexec
  cases hplace with
  | registered hst =>
    refine .never ?_ .destroyCounter
    rcases hst with rfl | rfl <;> rfl
  | executing => exact absurd rfl hexec
  | never hst => exact .never hst .destroyCounter
  | whole hst hreq _ hc => exact .whole hst hreq .destroyCounter hc

/-- What a step of the thread `i` does. -/
inductive FuncStep (m : Machine) (i : Nat) : Machine → Prop
  | counter (hp : (m.workers i).place = .counter) :
      FuncStep m i (m.set i { m.workers i with counter := some 0, place := .callBack })
  | callBack {stop : StopState Unit} (hp : (m.workers i).place = .callBack)
      (hcon : (m.workers i).stop.construct () = some stop) :
      FuncStep m i (m.set i { m.workers i with stop, place := .test })
  | invoked (hp : (m.workers i).place = .callBack)
      (hcon : (m.workers i).stop.construct () = none) :
      FuncStep m i (m.set i { m.workers i with place := .invoke 0 })
  | invoke {j : Nat} {x : Piece} (hp : (m.workers i).place = .invoke j) (hj : j < 5)
      (hx : (line 0)[j]? = some x) :
      FuncStep m i { m.set i { m.workers i with place := .invoke (j + 1) } with
        out := m.out ++ [(i, x)] }
  | returned (hp : (m.workers i).place = .invoke 5) :
      FuncStep m i (m.set i { m.workers i with place := .test })
  | test {v : Nat} (hp : (m.workers i).place = .test) (hv : (m.workers i).counter = some v)
      (hlt : v < 10) : FuncStep m i (m.set i { m.workers i with place := .increment })
  | leave {v : Nat} (hp : (m.workers i).place = .test) (hv : (m.workers i).counter = some v)
      (hle : v ≤ 10) : FuncStep m i (m.set i { m.workers i with place := .destroyCallBack })
  | increment {v : Nat} (hp : (m.workers i).place = .increment)
      (hv : (m.workers i).counter = some v) (hlt : v < 10) :
      FuncStep m i (m.set i { m.workers i with counter := some (v + 1), place := .test })
  | destroyCallBack {stop : StopState Unit} (hp : (m.workers i).place = .destroyCallBack)
      (hdes : (m.workers i).stop.destruct () = some stop) :
      FuncStep m i (m.set i { m.workers i with stop, place := .destroyCounter })
  | destroyCounter (hp : (m.workers i).place = .destroyCounter) :
      FuncStep m i (m.set i { m.workers i with counter := none, place := .ended })

theorem WorkerInv.func_cases (h : WorkerInv st (m.workers i) kᵢ cᵢ) (hst : func m i = some m') :
    FuncStep m i m' := by
  have hplace := h.place
  rw [func] at hst
  cases hp : (m.workers i).place with
  | unborn | ended => simp [hp] at hst
  | counter =>
    simp only [hp] at hst
    cases hst
    exact .counter hp
  | callBack =>
    simp only [hp] at hst
    split at hst
    · rename_i stop hcon
      cases hst
      exact .callBack hp hcon
    · rename_i hcon
      cases hst
      exact .invoked hp hcon
  | invoke j =>
    rw [hp] at hplace
    obtain ⟨-, -, hj, hv, -⟩ := hplace.of_invoke
    simp only [hp] at hst
    split at hst
    · rename_i hlt
      obtain ⟨x, hx⟩ : ∃ x, (line 0)[j]? = some x := ⟨_, List.getElem?_eq_getElem hlt⟩
      simp only [Machine.insert, insertion_eq hlt hv, hx] at hst
      cases hst
      exact .invoke hp hlt hx
    · obtain rfl : j = 5 := by omega
      cases hst
      exact .returned hp
  | test =>
    obtain ⟨v, hv, hloop⟩ := hplace.looping (.inl hp)
    simp only [hp] at hst
    split at hst
    · rename_i hlt
      rw [hv, Option.any_some, decide_eq_true_eq] at hlt
      cases hst
      exact .test hp hv hlt
    · cases hst
      exact .leave hp hv hloop.le
  | increment =>
    obtain ⟨v, hv, hloop⟩ := hplace.looping (.inr (.inl hp))
    rw [hp] at hloop
    simp only [hp, hv, Option.map_some] at hst
    cases hst
    cases hloop with
    | increment hlt => exact .increment hp hv hlt
  | destroyCallBack =>
    simp only [hp] at hst
    obtain ⟨stop, hdes, rfl⟩ := Option.map_eq_some_iff.mp hst
    exact .destroyCallBack hp hdes
  | destroyCounter =>
    simp only [hp] at hst
    cases hst
    exact .destroyCounter hp

theorem Inv.func (h : Inv n m k c) (hi : i < n) (hst : func m i = some m') :
    ∃ k' c', Inv n m' k' c' := by
  have hw := h.worker i hi
  have hplace := hw.place
  cases hw.func_cases hst with
  | counter hp =>
    rw [hp] at hplace
    obtain ⟨hidle, -, hph, hk, hc⟩ := hplace.of_counter
    refine ⟨k, c, h.set ⟨hw.wf, hw.requested, ?_⟩⟩
    show At _ .callBack (some 0) ((m.workers i).stop.phase ()) _ _
    rw [hph, hk, hc]
    exact .callBack hidle
  | callBack hp hcon => exact ⟨k, c, h.set (hw.construct hp hcon)⟩
  | invoked hp hcon => exact ⟨k, c, h.set (hw.invoked hp hcon)⟩
  | @invoke j x hp hlt hx =>
    rw [hp] at hplace
    obtain ⟨hidle, hreq, hj, ho, hph, hk, hc⟩ := hplace.of_invoke
    refine ⟨_, _, h.insert hi x 0 h.ok rfl ?_ ?_ ?_ ?_ (.inr rfl)⟩
    · intro l hl hli
      show WorkerInv _ (Function.update m.workers i _ l) _ _
      rw [Function.update_of_ne hli]
      exact h.worker l hl
    · show WorkerInv _ (Function.update m.workers i _ i) _ _
      rw [Function.update_self]
      refine ⟨hw.wf, hw.requested, ?_⟩
      show At _ (.invoke (j + 1)) (m.workers i).counter ((m.workers i).stop.phase ()) _ 0
      rw [ho, hph, hk]
      exact .invoke hidle hreq hlt
    · rw [hk]
      exact hx
    · rw [hc]
  | returned hp =>
    rw [hp] at hplace
    obtain ⟨hidle, hreq, -, ho, hph, hk, hc⟩ := hplace.of_invoke
    refine ⟨k, c, h.set ⟨hw.wf, hw.requested, ?_⟩⟩
    show At _ .test (m.workers i).counter ((m.workers i).stop.phase ()) _ _
    rw [ho, hph, hk, hc]
    exact .whole hidle hreq (.looping (.test (Nat.zero_le 10))) (Nat.zero_le 10)
  | test hp hv hlt =>
    have hw' := hw.loop hv (hp ▸ .test (Nat.le_of_lt hlt)) (.increment hlt)
    rw [← hv] at hw'
    exact ⟨k, c, h.set hw'⟩
  | leave hp hv hle =>
    have hw' := hw.loop hv (hp ▸ .test hle) (.destroyCallBack hle)
    rw [← hv] at hw'
    exact ⟨k, c, h.set hw'⟩
  | increment hp hv hlt =>
    exact ⟨k, c, h.set (hw.loop hv (hp ▸ .increment hlt) (.test hlt))⟩
  | destroyCallBack hp hdes => exact ⟨k, c, h.set (hw.destruct hp hdes)⟩
  | destroyCounter hp =>
    rw [hp] at hplace
    exact ⟨k, c, h.set ⟨hw.wf, hw.requested, hplace.destroyCounter⟩⟩

/-! ### Steps of `main` -/

theorem At.of_unborn (h : At .unborn p o ph kᵢ cᵢ) : p = .unborn := by
  cases h with
  | unborn => rfl
  | fresh hst | callBack hst | never hst | invoke hst | whole hst => cases hst
  | registered hst => simp at hst

theorem At.start (h : At .unborn p o ph kᵢ cᵢ) : At .started .counter o ph kᵢ cᵢ := by
  cases h with
  | unborn => exact .fresh rfl
  | fresh hst | callBack hst | never hst | invoke hst | whole hst => cases hst
  | registered hst => simp at hst

theorem At.requestStop (h : At .started p o ph kᵢ cᵢ) : At .pending p o ph kᵢ cᵢ := by
  cases h with
  | fresh => exact .fresh rfl
  | callBack => exact .callBack rfl
  | invoke _ hreq | whole _ hreq => cases hreq
  | registered _ h => exact .registered (.inr rfl) h
  | never _ h => exact .never rfl h

theorem At.take (h : At .pending p o .registered kᵢ cᵢ) :
    At (.executing 0) p o .executing kᵢ cᵢ := by
  cases h with
  | registered _ h => exact .executing h (Nat.zero_le 5) (Nat.zero_le 10) fun _ => rfl

theorem At.of_executing {j : Nat} (h : At (.executing j) p o ph kᵢ cᵢ) :
    ph = .executing ∧ kᵢ = j ∧ cᵢ ≤ 10 ∧ (j ≤ 3 → cᵢ = 0) ∧ ∃ v, o = some v ∧ Looping p v := by
  cases h with
  | executing h _ hc hread => exact ⟨rfl, rfl, hc, hread, _, rfl, h⟩
  | fresh hst | callBack hst | never hst | invoke hst | whole hst => cases hst
  | registered hst => simp at hst

theorem At.finish (h : At (.executing 5) p o ph kᵢ cᵢ) : At .pending p o .outside kᵢ cᵢ := by
  obtain ⟨-, rfl, hc, -, v, rfl, hloop⟩ := h.of_executing
  exact .whole rfl rfl (.looping hloop) hc

/-- `request_stop` returns when no callback is registered. -/
theorem At.returned (h : At .pending p o ph kᵢ cᵢ) (hph : ph ≠ .registered) :
    At .requested p o ph kᵢ cᵢ := by
  cases h with
  | fresh => exact .fresh rfl
  | callBack => exact .callBack rfl
  | invoke _ _ hk => exact .invoke rfl rfl hk
  | registered => exact absurd rfl hph
  | never _ h => exact .never rfl h
  | whole _ _ h hc => exact .whole rfl rfl h hc

/-- A callback is not registered when its `request_stop` has returned. -/
theorem At.of_requested (h : At .requested p o ph kᵢ cᵢ) : p ≠ .unborn ∧ ph = .outside := by
  cases h with
  | registered hst => simp at hst
  | never _ h | whole _ _ h =>
    cases h with
    | looping h => cases h <;> exact ⟨nofun, rfl⟩
    | _ => exact ⟨nofun, rfl⟩
  | _ => exact ⟨nofun, rfl⟩

theorem At.eq_zero (h : At st p o ph kᵢ cᵢ) (hst : st.stopRequested = false) : kᵢ = 0 := by
  cases h with
  | executing => cases hst
  | invoke _ hreq | whole _ hreq =>
    rw [hst] at hreq
    cases hreq
  | _ => rfl

theorem WorkerInv.take (h : WorkerInv .pending w kᵢ cᵢ) {stop : StopState Unit}
    (htake : w.stop.take () = some stop) : WorkerInv (.executing 0) { w with stop } kᵢ cᵢ := by
  obtain ⟨hwf, hreq, hphase, hupdate⟩ := h.wf.take h.requested htake
  refine ⟨hwf, hreq, ?_⟩
  show At (.executing 0) w.place w.counter (stop.phase ()) kᵢ cᵢ
  rw [hupdate, Function.update_self]
  have hplace := h.place
  rw [hphase] at hplace
  exact hplace.take

theorem WorkerInv.returned (h : WorkerInv .pending w kᵢ cᵢ) (htake : w.stop.take () = none) :
    WorkerInv .requested w kᵢ cᵢ := by
  refine ⟨h.wf, h.requested, h.place.returned ?_⟩
  intro hreg
  have hnone : w.stop.executing = none := by
    cases hexec : w.stop.executing with
    | none => rfl
    | some u =>
      rw [StopState.phase_eq_executing_iff.mpr hexec] at hreg
      cases hreg
  have hsome := StopState.take_isSome h.wf hnone hreg
  rw [htake] at hsome
  cases hsome

/-- What `main` has not come to is not written. -/
theorem Inv.le_of_execute {dtor : Bool} {j : Nat} (h : Inv n m k c)
    (hmain : m.main = .execute i dtor j) : ∀ e ∈ m.out, e.1 ≤ i := by
  intro e he
  have hwritten := mem_written he
  by_contra hlt
  rcases Nat.lt_or_eq_of_le (h.index e he) with hen | hen
  · have hst : (m.main.status e.1).stopRequested = false := by
      rw [hmain, Main.status, if_neg (by omega), if_neg (by omega)]
      rfl
    rw [h.lines _ hen, (h.worker _ hen).place.eq_zero hst] at hwritten
    cases hwritten
  · rw [hen, h.newline, hmain] at hwritten
    cases hwritten

/-- Behind the last line break, all stops were requested. -/
theorem Main.status_of_printed (h : mn.printed = true) (i : Nat) : mn.status i = .requested := by
  cases mn with
  | requestStop j dtor =>
    cases dtor with
    | true => rfl
    | false => cases h
  | join | ended => rfl
  | _ => cases h

theorem Inv.worker_of_printed (h : Inv n m k c) (hprinted : m.main.printed = true) (j : Nat)
    (hj : j < n) : WorkerInv .requested (m.workers j) (k j) (c j) := by
  have hw := h.worker j hj
  rw [Main.status_of_printed hprinted] at hw
  exact hw

theorem Inv.last (h : Inv n m k c) (hmain : m.main = .requestStop n false) :
    Inv n { m with out := m.out ++ [(n, .newline)], main := .requestStop 0 true } k c := by
  refine ⟨.requestStop true (Nat.zero_le n), ?_, ?_, ?_, ?_, h.order.append (.inl h.index), h.safe⟩
  · intro j hj
    have hw := h.worker j hj
    rw [hmain, Main.status, if_pos hj] at hw
    exact hw
  · intro j hj
    show written (m.out ++ [(n, .newline)]) j = _
    rw [written_append, if_neg (Nat.ne_of_gt hj)]
    exact h.lines j hj
  · show written (m.out ++ [(n, .newline)]) n = _
    rw [written_append, if_pos rfl, h.newline, hmain]
    rfl
  · intro e he
    rcases List.mem_append.mp he with he | he
    · exact h.index e he
    · obtain rfl := List.mem_singleton.mp he
      exact Nat.le_refl n

/-- What a step of `main` does. -/
inductive MainStep (n : Nat) (m : Machine) : Machine → Prop
  | start {i : Nat} (hmain : m.main = .start i) (hi : i < n) :
      MainStep n m { m.set i { m.workers i with place := .counter } with main := .start (i + 1) }
  | started (hmain : m.main = .start n) : MainStep n m { m with main := .requestStop 0 false }
  | requestStop {i : Nat} (hmain : m.main = .requestStop i false) (hi : i < n) :
      MainStep n m { m.set i { m.workers i with stop := (m.workers i).stop.requestStop } with
        main := .callbacks i false }
  | newline (hmain : m.main = .requestStop n false) :
      MainStep n m { m with out := m.out ++ [(n, .newline)], main := .requestStop 0 true }
  | destroy {i : Nat} (hmain : m.main = .requestStop i true) (hi : i < n) :
      MainStep n m { m with main := .join i }
  | ended (hmain : m.main = .requestStop n true) : MainStep n m { m with main := .ended }
  | take {i : Nat} {stop : StopState Unit} (hmain : m.main = .callbacks i false) (hi : i < n)
      (htake : (m.workers i).stop.take () = some stop) :
      MainStep n m { m.set i { m.workers i with stop } with main := .execute i false 0 }
  | returned {i : Nat} (hmain : m.main = .callbacks i false) (hi : i < n)
      (htake : (m.workers i).stop.take () = none) :
      MainStep n m { m with main := .requestStop (i + 1) false }
  | execute {i j v : Nat} {x : Piece} (hmain : m.main = .execute i false j) (hi : i < n)
      (hj : j < 5) (hv : (m.workers i).counter = some v) (hx : (line v)[j]? = some x) :
      MainStep n m { m with main := .execute i false (j + 1), out := m.out ++ [(i, x)] }
  | finish {i : Nat} (hmain : m.main = .execute i false 5) (hi : i < n) :
      MainStep n m { m.set i { m.workers i with stop := (m.workers i).stop.finish } with
        main := .callbacks i false }
  | join {i : Nat} (hmain : m.main = .join i) (hi : i < n) (hend : (m.workers i).place = .ended) :
      MainStep n m { m with main := .requestStop (i + 1) true }

theorem Inv.worker_start (h : Inv n m k c) (hmain : m.main = .start i) (hi : i < n) :
    WorkerInv .unborn (m.workers i) (k i) (c i) := by
  have hw := h.worker i hi
  rwa [hmain, Main.status, if_neg (Nat.lt_irrefl i)] at hw

theorem Inv.worker_requestStop (h : Inv n m k c) (hmain : m.main = .requestStop i false)
    (hi : i < n) : WorkerInv .started (m.workers i) (k i) (c i) := by
  have hw := h.worker i hi
  rwa [hmain, Main.status, if_neg (Nat.lt_irrefl i)] at hw

theorem Inv.worker_callbacks {dtor : Bool} (h : Inv n m k c) (hmain : m.main = .callbacks i dtor)
    (hi : i < n) : WorkerInv .pending (m.workers i) (k i) (c i) := by
  have hw := h.worker i hi
  rwa [hmain, Main.status, if_neg (Nat.lt_irrefl i), if_pos rfl] at hw

theorem Inv.worker_execute {dtor : Bool} {j : Nat} (h : Inv n m k c)
    (hmain : m.main = .execute i dtor j) (hi : i < n) :
    WorkerInv (.executing j) (m.workers i) (k i) (c i) := by
  have hw := h.worker i hi
  rwa [hmain, Main.status, if_neg (Nat.lt_irrefl i), if_pos rfl] at hw

theorem Inv.main_cases (h : Inv n m k c) (hst : InvokeCallback.main n m = some m') :
    MainStep n m m' := by
  have hok := h.ok
  rw [InvokeCallback.main] at hst
  generalize hmain : m.main = mn at hok
  cases hok with
  | @start i hi =>
    simp only [hmain] at hst
    split at hst
    · rename_i hlt
      cases hst
      exact .start hmain hlt
    · obtain rfl : i = n := by omega
      cases hst
      exact .started hmain
  | @requestStop i dtor hi =>
    cases dtor with
    | false =>
      simp only [hmain] at hst
      split at hst
      · rename_i hlt
        have hreq := (h.worker_requestStop hmain hlt).requested
        rw [if_neg (ne_true_of_eq_false hreq)] at hst
        cases hst
        exact .requestStop hmain hlt
      · obtain rfl : i = n := by omega
        rw [if_neg Bool.false_ne_true] at hst
        cases hst
        exact .newline hmain
    | true =>
      simp only [hmain] at hst
      split at hst
      · rename_i hlt
        have hworkers := h.worker_of_printed (by rw [hmain]; rfl)
        have hreq : (m.workers i).stop.stopRequested = true := (hworkers i hlt).requested
        rw [if_pos hreq] at hst
        cases hst
        exact .destroy hmain hlt
      · obtain rfl : i = n := by omega
        rw [if_pos trivial] at hst
        cases hst
        exact .ended hmain
  | @callbacks i hi =>
    simp only [hmain] at hst
    split at hst
    · rename_i stop htake
      cases hst
      exact .take hmain hi htake
    · rename_i htake
      cases hst
      exact .returned hmain hi htake
  | @execute i j hi hj =>
    simp only [hmain] at hst
    obtain ⟨-, -, -, -, v, hv, -⟩ := (h.worker_execute hmain hi).place.of_executing
    split at hst
    · rename_i hlt
      obtain ⟨x, hx⟩ : ∃ x, (line v)[j]? = some x := ⟨_, List.getElem?_eq_getElem hlt⟩
      simp only [Machine.insert, insertion_eq hlt hv, hx] at hst
      cases hst
      exact .execute hmain hi hlt hv hx
    · obtain rfl : j = 5 := by omega
      cases hst
      exact .finish hmain hi
  | @join i hi =>
    simp only [hmain] at hst
    obtain ⟨hend, hst⟩ := Option.ite_none_right_eq_some.mp hst
    cases hst
    exact .join hmain hi hend
  | ended => simp [hmain] at hst

theorem Inv.main_step (h : Inv n m k c) (hst : InvokeCallback.main n m = some m') :
    ∃ k' c', Inv n m' k' c' := by
  cases h.main_cases hst with
  | @start i hmain hi =>
    have hw := h.worker_start hmain hi
    refine ⟨k, c, h.move_set (.start hi) (by rw [hmain]; rfl) ?_ ?_⟩
    · intro j hj hji
      rw [hmain, Main.status, Main.status]
      by_cases hlt : j < i
      · rw [if_pos hlt, if_pos (by omega)]
      · rw [if_neg hlt, if_neg (by omega)]
    · rw [Main.status, if_pos (Nat.lt_succ_self i)]
      exact ⟨hw.wf, hw.requested, hw.place.start⟩
  | started hmain =>
    refine ⟨k, c, h.move (.requestStop false (Nat.zero_le n)) (by rw [hmain]; rfl) ?_⟩
    intro j hj
    have hw := h.worker j hj
    rw [hmain, Main.status, if_pos hj] at hw
    rw [Main.status, if_neg (Nat.not_lt_zero j)]
    exact hw
  | @requestStop i hmain hi =>
    have hw := h.worker_requestStop hmain hi
    refine ⟨k, c, h.move_set (.callbacks hi) (by rw [hmain]; rfl) ?_ ?_⟩
    · intro j hj hji
      rw [hmain, Main.status, Main.status, if_neg hji]
    · rw [Main.status, if_neg (Nat.lt_irrefl i), if_pos rfl]
      exact ⟨hw.wf.requestStop, rfl, hw.place.requestStop⟩
  | newline hmain => exact ⟨k, c, h.last hmain⟩
  | destroy hmain hi =>
    exact ⟨k, c, h.move (.join hi) (by rw [hmain]; rfl) (h.worker_of_printed (by rw [hmain]; rfl))⟩
  | ended hmain =>
    exact ⟨k, c, h.move .ended (by rw [hmain]; rfl) (h.worker_of_printed (by rw [hmain]; rfl))⟩
  | @take i stop hmain hi htake =>
    refine ⟨k, c, h.move_set (.execute hi (Nat.zero_le 5)) (by rw [hmain]; rfl) ?_ ?_⟩
    · intro j hj hji
      rw [hmain, Main.status, Main.status, if_neg hji, if_neg hji]
    · rw [Main.status, if_neg (Nat.lt_irrefl i), if_pos rfl]
      exact (h.worker_callbacks hmain hi).take htake
  | @returned i hmain hi htake =>
    refine ⟨k, c, h.move (.requestStop false hi) (by rw [hmain]; rfl) ?_⟩
    intro j hj
    by_cases hji : j = i
    · subst hji
      rw [Main.status, if_pos (Nat.lt_succ_self j)]
      exact (h.worker_callbacks hmain hi).returned htake
    · have hwj := h.worker j hj
      rw [hmain, Main.status, if_neg hji] at hwj
      rw [Main.status]
      by_cases hlt : j < i
      · rw [if_pos hlt] at hwj
        rw [if_pos (by omega)]
        exact hwj
      · rw [if_neg hlt] at hwj
        rw [if_neg (by omega)]
        exact hwj
  | @execute i j v x hmain hi hlt hv hx =>
    have hw := h.worker_execute hmain hi
    obtain ⟨hph, hk, hc, hread, v', hv', hloop⟩ := hw.place.of_executing
    obtain rfl : v = v' := Option.some.inj (hv.symm.trans hv')
    -- the value is read at the insertion 3
    obtain ⟨cᵢ, hx', hsame, hc', hread'⟩ : ∃ cᵢ, (line cᵢ)[j]? = some x ∧
        (line cᵢ).take j = (line (c i)).take j ∧ cᵢ ≤ 10 ∧ (j + 1 ≤ 3 → cᵢ = 0) := by
      match j, hlt with
      | 0, _ | 1, _ | 2, _ => exact ⟨c i, hx, rfl, hc, fun _ => hread (by omega)⟩
      | 3, _ => exact ⟨v, hx, rfl, hloop.le, nofun⟩
      | 4, _ => exact ⟨c i, hx, rfl, hc, nofun⟩
    refine ⟨_, _, h.insert hi x cᵢ (.execute hi hlt) (by rw [hmain]; rfl) ?_ ?_ ?_ ?_
      (.inl (h.le_of_execute hmain))⟩
    · intro l hl hli
      have hwl := h.worker l hl
      rw [hmain, Main.status, if_neg hli] at hwl
      rw [Main.status, if_neg hli]
      exact hwl
    · rw [Main.status, if_neg (Nat.lt_irrefl i), if_pos rfl, hk]
      refine ⟨hw.wf, hw.requested, ?_⟩
      rw [hph, hv]
      exact .executing hloop hlt hc' hread'
    · rw [hk]
      exact hx'
    · rw [hk]
      exact hsame
  | @finish i hmain hi =>
    have hw := h.worker_execute hmain hi
    obtain ⟨hph, -⟩ := hw.place.of_executing
    obtain ⟨hwf, hphase⟩ := hw.wf.finish hph
    refine ⟨k, c, h.move_set (.callbacks hi) (by rw [hmain]; rfl) ?_ ?_⟩
    · intro l hl hli
      rw [hmain, Main.status, Main.status, if_neg hli, if_neg hli]
    · rw [Main.status, if_neg (Nat.lt_irrefl i), if_pos rfl]
      refine ⟨hwf, hw.requested, ?_⟩
      show At .pending _ _ ((m.workers i).stop.finish.phase ()) _ _
      rw [hphase, Function.update_self]
      exact hw.place.finish
  | join hmain hi =>
    exact ⟨k, c, h.move (.requestStop true hi) (by rw [hmain]; rfl)
      (h.worker_of_printed (by rw [hmain]; rfl))⟩

end Cpp20Examples.InvokeCallback
