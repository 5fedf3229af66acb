import Cpp20Examples.Concurrency.StopTokens.InvokeCallbackRuns

/-!
# The outputs of `invokeCallback`

* `Printed`: at most one line of each thread, and the last line break of `main`.
* `Inv.printed`: the complete runs print nothing else.
* `Stage`: a run that has inserted the first pieces of such an output; `Stage.next` inserts one
  more piece.
* `callbacks_print`: the outputs of the complete runs.
-/

namespace Cpp20Examples.InvokeCallback

open Lib

/-- The output has at most one line of each thread, with the value `c i`.  A thread with a value
other than 0 has written its line while `main` requested its stop: what follows is not before
that. -/
structure Printed (n : Nat) (c : Nat → Nat) (out : List (Nat × Piece)) : Prop where
  value : ∀ i < n, c i ≤ 10
  lines : ∀ i < n, written out i = [] ∨ written out i = line (c i)
  newline : written out n = [Piece.newline]
  index : ∀ e ∈ out, e.1 ≤ n
  order : InOrder c out

variable {n i p : Nat} {m m' : Machine} {k c : Nat → Nat} {w : Worker} {st : Status} {kᵢ cᵢ v : Nat}
  {x : Piece} {rest out : List (Nat × Piece)}

/-! ### The complete runs -/

/-- The threads that `main` has joined. -/
def Main.joined (n : Nat) : Main → Nat
  | requestStop i true => i
  | join i => i
  | ended => n
  | _ => 0

theorem joined_of_not_printed (h : Inv n m k c) (hst : main n m = some m')
    (hp : m.main.printed = false) : m'.main.joined n = 0 := by
  cases h.main_cases hst with
  | destroy hmain | ended hmain | join hmain =>
    rw [hmain] at hp
    cases hp
  | _ => rfl

/-- Behind its last line break `main` joins one thread after the other. -/
theorem step_of_printed (h : Inv n m k c) (hst : main n m = some m')
    (hp : m.main.printed = true) : m'.main.printed = true ∧ m'.workers = m.workers ∧
      m'.out = m.out ∧ (m'.main.joined n = m.main.joined n ∨ ∃ i, m.main = .join i ∧
        (m.workers i).place = .ended ∧ m'.main.joined n = i + 1) := by
  cases h.main_cases hst with
  | destroy hmain | ended hmain => exact ⟨rfl, rfl, rfl, .inl (by rw [hmain]; rfl)⟩
  | join hmain hi hend => exact ⟨rfl, rfl, rfl, .inr ⟨_, hmain, hend, rfl⟩⟩
  | start hmain | started hmain | requestStop hmain | newline hmain | take hmain
  | returned hmain | execute hmain | finish hmain =>
    rw [hmain] at hp
    cases hp

theorem joined (hm : (system n).Reachable m) :
    ∀ i < m.main.joined n, (m.workers i).place = .ended := by
  induction hm with
  | init => exact fun i hi => absurd hi (Nat.not_lt_zero i)
  | @step m m' a hm _ hst ih =>
    obtain ⟨k, c, h⟩ := inv hm
    intro i hi
    cases a with
    | main =>
      by_cases hp : m.main.printed = true
      · obtain ⟨-, hworkers, -, hjoined⟩ := step_of_printed h hst hp
        rw [hworkers]
        rcases hjoined with heq | ⟨j, hmain, hend, heq⟩
        · exact ih i (heq ▸ hi)
        · by_cases hij : i = j
          · rw [hij]
            exact hend
          · apply ih
            rw [hmain]
            show i < j
            omega
      · rw [joined_of_not_printed h hst (eq_false_of_ne_true hp)] at hi
        exact absurd hi (Nat.not_lt_zero i)
    | thread j =>
      obtain ⟨hj, hst⟩ := Option.ite_none_right_eq_some.mp hst
      obtain ⟨w, hworkers, hmain, hlt⟩ := func_left (h.worker j hj) hst
      have hend := ih i (hmain ▸ hi)
      have hne : i ≠ j := by
        rintro rfl
        simp [func, hend] at hst
      rw [hworkers, Function.update_of_ne hne]
      exact hend

theorem At.value_le {p : Place} {o : Option Nat} {ph : StopState.Phase} (h : At st p o ph kᵢ cᵢ) :
    cᵢ ≤ 10 := by
  cases h with
  | executing _ _ hc | whole _ _ _ hc => exact hc
  | _ => exact Nat.zero_le 10

/-- The callback of a thread that has ended was executed once, or never. -/
theorem At.of_ended {o : Option Nat} {ph : StopState.Phase} (h : At st .ended o ph kᵢ cᵢ) :
    kᵢ = 0 ∨ kᵢ = 5 := by
  cases h with
  | registered _ h | executing h => cases h
  | never => exact .inl rfl
  | whole => exact .inr rfl

/-- **What the complete runs print.** -/
theorem printed_of_ended (hm : (system n).Reachable m) (hend : m.main = .ended) :
    ∃ c, Printed n c m.out := by
  obtain ⟨k, c, h⟩ := inv hm
  refine ⟨c, fun i hi => (h.worker i hi).place.value_le, ?_, ?_, h.index, h.order⟩
  · intro i hi
    have hplace := (h.worker i hi).place
    rw [joined hm i (by rw [hend]; exact hi)] at hplace
    rw [h.lines i hi]
    rcases hplace.of_ended with hk | hk
    · left
      rw [hk]
      rfl
    · right
      rw [hk]
      rfl
  · rw [h.newline, hend]
    rfl

/-! ### Pieces of runs -/

/-- A thread in front of its counter. -/
def Worker.fresh : Worker := { place := .counter }

/-- A thread in its loop, with its callback registered. -/
def Worker.looping (v : Nat) : Worker :=
  { place := .test, counter := some v, stop := { callbacks := [()] } }

/-- A thread that has ended before a stop was requested. -/
def Worker.over : Worker := { place := .ended }

theorem thread_reachable (hm : (system n).Reachable m) (hi : i < n) (m' : Machine)
    (hst : func m i = some m') : (system n).Reachable m' :=
  .step (a := .thread i) hm trivial ((if_pos hi).trans hst)

theorem main_reachable (hm : (system n).Reachable m) (m' : Machine)
    (hst : main n m = some m') : (system n).Reachable m' := .step (a := .main) hm trivial hst

theorem set_workers (m : Machine) (i : Nat) (w : Worker) : (m.set i w).workers i = w :=
  Function.update_self ..

theorem set_set (m : Machine) (i : Nat) (w w' : Worker) : (m.set i w).set i w' = m.set i w' := by
  simp [Machine.set]

theorem set_reachable {w : Worker} (hm : (system n).Reachable (m.set i w)) (hi : i < n)
    (w' : Worker) (hst : func (m.set i w) i = some ((m.set i w).set i w')) :
    (system n).Reachable (m.set i w') := by
  have h := thread_reachable hm hi _ hst
  rw [set_set] at h
  exact h

theorem reachable_looping (hi : i < n) (hm : (system n).Reachable m) (hw : m.workers i = .fresh)
    (hv : v ≤ 10) : (system n).Reachable (m.set i (.looping v)) := by
  induction v with
  | zero =>
    have h₁ := thread_reachable hm hi (m.set i ⟨.callBack, some 0, {}⟩)
      (by simp [func, hw, Worker.fresh])
    exact set_reachable h₁ hi (.looping 0)
      (by simp [func, set_workers, StopState.construct, Worker.looping])
  | succ v ih =>
    have hm := ih (by omega)
    have hlt : v < 10 := hv
    have h₁ := set_reachable hm hi { Worker.looping v with place := .increment }
      (by simp [func, set_workers, Worker.looping, hlt])
    exact set_reachable h₁ hi (.looping (v + 1)) (by simp [func, set_workers, Worker.looping])

/-- A thread runs to its end before a stop was requested. -/
theorem reachable_over (hi : i < n) (hm : (system n).Reachable m) (hw : m.workers i = .fresh) :
    (system n).Reachable (m.set i .over) := by
  have h₀ := reachable_looping hi hm hw (Nat.le_refl 10)
  have h₁ := set_reachable h₀ hi { Worker.looping 10 with place := .destroyCallBack }
    (by simp [func, set_workers, Worker.looping])
  have h₂ := set_reachable h₁ hi ⟨.destroyCounter, some 10, {}⟩
    (by simp [func, set_workers, Worker.looping, StopState.destruct])
  exact set_reachable h₂ hi .over (by simp [func, set_workers, Worker.over])

theorem reachable_started (hp : p ≤ n) : (system n).Reachable
    { workers := fun j => if j < p then .fresh else {}, main := .start p } := by
  induction p with
  | zero => exact .init
  | succ p ih =>
    have hlt : p < n := hp
    have h := main_reachable (ih (Nat.le_of_succ_le hp)) _ (if_pos hlt)
    have hworkers : Function.update (fun j => if j < p then Worker.fresh else {}) p
        { (if p < p then Worker.fresh else {} : Worker) with place := .counter } =
        fun j => if j < p + 1 then Worker.fresh else {} := by
      funext j
      by_cases hj : j = p
      · subst hj
        rw [Function.update_self, if_neg (Nat.lt_irrefl j), if_pos (Nat.lt_succ_self j)]
        rfl
      · rw [Function.update_of_ne hj]
        by_cases hlt : j < p
        · rw [if_pos hlt, if_pos (by omega)]
        · rw [if_neg hlt, if_neg (by omega)]
    rw [Machine.set] at h
    simp only [hworkers] at h
    exact h

/-- The threads that write nothing have ended before the first stop is requested. -/
theorem reachable_ready (out : List (Nat × Piece)) (hp : p ≤ n) : (system n).Reachable
    { workers := fun j =>
        if j < p ∧ written out j = [] then .over else if j < n then .fresh else {}
      main := .requestStop 0 false } := by
  induction p with
  | zero =>
    have h := main_reachable (reachable_started (Nat.le_refl n)) _ (if_neg (Nat.lt_irrefl n))
    simpa using h
  | succ p ih =>
    have hm := ih (Nat.le_of_succ_le hp)
    by_cases hwritten : written out p = []
    · have hlt : p < n := hp
      have h := reachable_over hp hm (by simp [hlt])
      have hworkers : Function.update (fun j => if j < p ∧ written out j = [] then Worker.over
          else if j < n then Worker.fresh else {}) p .over =
          fun j => if j < p + 1 ∧ written out j = [] then Worker.over
            else if j < n then Worker.fresh else {} := by
        funext j
        by_cases hj : j = p
        · subst hj
          rw [Function.update_self, if_pos ⟨Nat.lt_succ_self j, hwritten⟩]
        · rw [Function.update_of_ne hj]
          have hiff : j < p ∧ written out j = [] ↔ j < p + 1 ∧ written out j = [] := by
            constructor
            · rintro ⟨hlt, h⟩
              exact ⟨by omega, h⟩
            · rintro ⟨hlt, h⟩
              exact ⟨by omega, h⟩
          simp only [hiff]
      rw [Machine.set] at h
      simp only [hworkers] at h
      exact h
    · have hiff : ∀ j, j < p ∧ written out j = [] ↔ j < p + 1 ∧ written out j = [] := by
        intro j
        constructor
        · rintro ⟨hlt, h⟩
          exact ⟨by omega, h⟩
        · rintro ⟨hlt, h⟩
          refine ⟨?_, h⟩
          have hne : j ≠ p := by
            rintro rfl
            exact hwritten h
          omega
      simp only [hiff] at hm
      exact hm

/-! ### Stages of a run -/

/-- Behind its pieces, a thread goes on in its loop, or to its end. -/
def Place.silent : Place → Bool
  | invoke k => 5 ≤ k
  | test | increment | destroyCallBack | destroyCounter | ended => true
  | _ => false

/-- The callback will not be executed any more. -/
structure Worker.Quiet (w : Worker) : Prop where
  silent : w.place.silent = true
  outside : w.stop.phase () = .outside

/-- The pieces that a thread with the value `c` has left, and where it is: a thread whose value is 0
comes too late and executes its callback itself, for any other one `main` does. -/
inductive Left (c : Nat) (st : Status) (w : Worker) : List Piece → Prop
  | quiet (h : w.Quiet) : Left c st w []
  | late (hc : c = 0) (hp : w.place = .counter) : Left c st w (line 0)
  | invoke {j : Nat} (hc : c = 0) (hj : j < 5) (hp : w.place = .invoke j) :
      Left c st w ((line 0).drop j)
  | early (hc : c ≠ 0) (hst : st = .started) (hw : w = .fresh) : Left c st w (line c)
  | executing {j : Nat} (hc : c ≠ 0) (hj : j < 5) (hst : st = .executing j) (hp : w.place = .test)
      (ho : w.counter = some c) : Left c st w ((line c).drop j)

/-- A run that has `rest` of its output left. -/
structure Stage (n : Nat) (c : Nat → Nat) (rest : List (Nat × Piece)) (m : Machine) : Prop where
  reachable : (system n).Reachable m
  running : (∃ p ≤ n, m.main = .requestStop p false) ∨
    (∃ p < n, ∃ k < 5, m.main = .execute p false k) ∨ m.main.printed = true
  newline : written rest n = if m.main.printed = true then [] else [Piece.newline]
  worker : ∀ i < n, Left (c i) (m.main.status i) (m.workers i) (written rest i)

theorem written_cons (x : Piece) (rest : List (Nat × Piece)) (i j : Nat) :
    written ((i, x) :: rest) j = if i = j then x :: written rest j else written rest j := by
  rw [written, List.filter_cons]
  by_cases hij : i = j
  · simp [hij, written]
  · simp [hij, written]

theorem drop_line_ne {k : Nat} (hk : k < 5) (v : Nat) : (line v).drop k ≠ [] := by
  intro h
  have hlen := congrArg List.length h
  rw [List.length_drop] at hlen
  have h5 : (line v).length = 5 := rfl
  rw [h5, List.length_nil] at hlen
  omega

theorem Left.quiet_of_nil (h : Left cᵢ st w []) : w.Quiet := by
  generalize hl : ([] : List Piece) = l at h
  cases h with
  | quiet h => exact h
  | late | early => cases hl
  | invoke _ hk | executing _ hk => exact absurd hl.symm (drop_line_ne hk _)

theorem Left.of_executing {j : Nat} {l : List Piece} (h : Left cᵢ (.executing j) w l)
    {c' : Nat} (hw : WorkerInv (.executing j) w kᵢ c') :
    cᵢ ≠ 0 ∧ j < 5 ∧ l = (line cᵢ).drop j ∧ w.place = .test ∧ w.counter = some cᵢ := by
  obtain ⟨hph, -, -, -, v, -, hloop⟩ := hw.place.of_executing
  cases h with
  | quiet h =>
    rw [h.outside] at hph
    cases hph
  | late _ hp | invoke _ _ hp =>
    rw [hp] at hloop
    cases hloop
  | early _ hst => cases hst
  | executing hc hk hst hp ho =>
    cases hst
    exact ⟨hc, hk, rfl, hp, ho⟩

/-- No callback is registered but the one that `main` executes next. -/
theorem Left.not_registered {l : List Piece} (h : Left cᵢ st w l) {c' : Nat}
    (hw : WorkerInv st w kᵢ c') : w.stop.phase () ≠ .registered := by
  intro hreg
  have hplace := hw.place
  cases h with
  | quiet h =>
    rw [h.outside] at hreg
    cases hreg
  | late _ hp =>
    rw [hp] at hplace
    obtain ⟨-, -, hph, -⟩ := hplace.of_counter
    rw [hph] at hreg
    cases hreg
  | invoke _ _ hp =>
    rw [hp] at hplace
    obtain ⟨-, -, -, -, hph, -⟩ := hplace.of_invoke
    rw [hph] at hreg
    cases hreg
  | early _ _ hw =>
    rw [hw] at hreg
    cases hreg
  | executing _ _ hst =>
    rw [hst] at hplace
    obtain ⟨hph, -⟩ := hplace.of_executing
    rw [hph] at hreg
    cases hreg

theorem Stage.of_step (h : Stage n c ((i, x) :: rest) m) (hi : i < n)
    (hreachable : (system n).Reachable m')
    (hmain : (∃ p ≤ n, m'.main = .requestStop p false) ∨
      (∃ p < n, ∃ k < 5, m'.main = .execute p false k) ∨ m'.main.printed = true)
    (hprinted : m'.main.printed = m.main.printed)
    (hothers : ∀ j < n, j ≠ i → m'.workers j = m.workers j ∧
      m'.main.status j = m.main.status j)
    (hleft : Left (c i) (m'.main.status i) (m'.workers i) (written rest i)) :
    Stage n c rest m' := by
  refine ⟨hreachable, hmain, ?_, ?_⟩
  · have hnewline := h.newline
    rw [written_cons, if_neg (Nat.ne_of_lt hi)] at hnewline
    rw [hnewline, hprinted]
  · intro j hj
    by_cases hji : j = i
    · subst hji
      exact hleft
    · obtain ⟨hworkers, hstatus⟩ := hothers j hj hji
      have hleft := h.worker j hj
      rw [written_cons, if_neg (Ne.symm hji)] at hleft
      rw [hworkers, hstatus]
      exact hleft

theorem Stage.left (h : Stage n c ((i, x) :: rest) m) (hi : i < n) :
    Left (c i) (m.main.status i) (m.workers i) (x :: written rest i) := by
  have hleft := h.worker i hi
  rw [written_cons, if_pos rfl] at hleft
  exact hleft

/-- From a piece of a later thread on, a thread with a value other than 0 has nothing left. -/
theorem InOrder.written_eq_nil (h : InOrder c ((i, x) :: rest)) (hp : p < i) (hc : c p ≠ 0) :
    written ((i, x) :: rest) p = [] := by
  rw [written_cons, if_neg (Nat.ne_of_gt hp), written, List.map_eq_nil_iff,
    List.filter_eq_nil_iff]
  intro e he heq
  obtain rfl := beq_iff_eq.mp heq
  exact hc ((List.pairwise_cons.mp h).1 e he hp)

/-- The callback that `main` executes has pieces left, so that the next piece is not of a later
thread. -/
theorem Stage.le_of_execute {j : Nat} (h : Stage n c ((i, x) :: rest) m)
    (horder : InOrder c ((i, x) :: rest)) (hp : p < n) (hmain : m.main = .execute p false j) :
    c p ≠ 0 ∧ i ≤ p := by
  obtain ⟨k, c', hinv⟩ := inv h.reachable
  have hst : m.main.status p = .executing j := by
    rw [hmain, Main.status, if_neg (Nat.lt_irrefl p), if_pos rfl]
  have hleft := h.worker p hp
  have hw := hinv.worker p hp
  rw [hst] at hleft hw
  obtain ⟨hc, hj, hl, -⟩ := hleft.of_executing hw
  refine ⟨hc, ?_⟩
  by_contra hlt
  rw [horder.written_eq_nil (Nat.lt_of_not_le hlt) hc] at hl
  exact drop_line_ne hj _ hl.symm

/-! ### Requests without a callback -/

theorem take_eq_none {stop : StopState Unit} (h : stop.Wf) (hph : stop.phase () ≠ .registered) :
    stop.take () = none := by
  rw [StopState.take, if_neg]
  rintro ⟨hmem, -⟩
  exact hph ((StopState.phase_eq_registered_iff h).mpr hmem)

theorem reachable_requested (hm : (system n).Reachable m) (hmain : m.main = .requestStop p false)
    (hp : p < n) (hph : (m.workers p).stop.phase () ≠ .registered) :
    (system n).Reachable
      { m.set p { m.workers p with stop := (m.workers p).stop.requestStop } with
        main := .requestStop (p + 1) false } := by
  obtain ⟨k, c, h⟩ := inv hm
  have hw := h.worker p hp
  rw [hmain, Main.status, if_neg (Nat.lt_irrefl p)] at hw
  have h₁ := main_reachable hm
    { m.set p { m.workers p with stop := (m.workers p).stop.requestStop } with
      main := .callbacks p false } ?_
  · refine main_reachable h₁ _ ?_
    rw [main]
    simp only [set_workers, take_eq_none hw.wf.requestStop hph, Main.returned, Bool.false_eq_true,
      if_false]
  · rw [main]
    simp only [hmain, if_pos hp, if_neg (ne_true_of_eq_false hw.requested)]

/-- A thread that has only had its stop requested. -/
structure Worker.Same (w w' : Worker) : Prop where
  place : w'.place = w.place
  counter : w'.counter = w.counter
  phase : w'.stop.phase () = w.stop.phase ()

/-- `main` requests the stops of the threads in front of `q`. -/
theorem exists_requested (hm : (system n).Reachable m) (hmain : m.main = .requestStop p false)
    (hph : ∀ j < n, (m.workers j).stop.phase () ≠ .registered) {q : Nat} (hpq : p ≤ q)
    (hq : q ≤ n) : ∃ m', (system n).Reachable m' ∧ m'.main = .requestStop q false ∧
      m'.out = m.out ∧ (∀ j, q ≤ j → m'.workers j = m.workers j) ∧
      ∀ j, (m.workers j).Same (m'.workers j) := by
  induction q, hpq using Nat.le_induction with
  | base => exact ⟨m, hm, hmain, rfl, fun _ _ => rfl, fun _ => ⟨rfl, rfl, rfl⟩⟩
  | succ q hpq ih =>
    obtain ⟨m₁, hm₁, hmain₁, hout, hlater, hsame⟩ := ih (Nat.le_of_succ_le hq)
    have hph₁ : (m₁.workers q).stop.phase () ≠ .registered := by
      rw [(hsame q).phase]
      exact hph q hq
    refine ⟨_, reachable_requested hm₁ hmain₁ hq hph₁, rfl, hout, ?_, ?_⟩
    · intro j hj
      show Function.update m₁.workers q _ j = _
      rw [Function.update_of_ne (by omega)]
      exact hlater j (Nat.le_of_succ_le hj)
    · intro j
      show (m.workers j).Same (Function.update m₁.workers q _ j)
      by_cases hjq : j = q
      · subst hjq
        rw [Function.update_self]
        exact ⟨(hsame j).place, (hsame j).counter, (hsame j).phase⟩
      · rw [Function.update_of_ne hjq]
        exact hsame j

theorem Left.same {st' : Status} {w' : Worker} {l : List Piece} (h : Left cᵢ st w l)
    (hsame : w.Same w') (hst : ∀ j, st ≠ .executing j)
    (hearly : cᵢ ≠ 0 → l ≠ [] → st' = .started ∧ w' = w) : Left cᵢ st' w' l := by
  cases h with
  | quiet h => exact .quiet ⟨hsame.place ▸ h.silent, hsame.phase.trans h.outside⟩
  | late hc hp => exact .late hc (hsame.place.trans hp)
  | invoke hc hj hp => exact .invoke hc hj (hsame.place.trans hp)
  | early hc hst' hw =>
    obtain ⟨hst₁, hw₁⟩ := hearly hc nofun
    exact .early hc hst₁ (hw₁.trans hw)
  | executing _ _ hst' => exact absurd hst' (hst _)

theorem Stage.advance (h : Stage n c rest m) (hmain : m.main = .requestStop p false) {q : Nat}
    (hpq : p ≤ q) (hq : q ≤ n) (hearly : ∀ j < q, c j ≠ 0 → written rest j = []) :
    ∃ m', Stage n c rest m' ∧ m'.main = .requestStop q false ∧ m'.out = m.out := by
  obtain ⟨k, c', hinv⟩ := inv h.reachable
  have hph : ∀ j < n, (m.workers j).stop.phase () ≠ .registered := by
    intro j hj
    exact (h.worker j hj).not_registered (hinv.worker j hj)
  obtain ⟨m', hm', hmain', hout, hlater, hsame⟩ := exists_requested h.reachable hmain hph hpq hq
  refine ⟨m', ⟨hm', .inl ⟨q, hq, hmain'⟩, ?_, ?_⟩, hmain', hout⟩
  · rw [h.newline, hmain, hmain']
    rfl
  · intro j hj
    refine (h.worker j hj).same (hsame j) ?_ ?_
    · intro l hst
      rw [hmain, Main.status] at hst
      split at hst <;> cases hst
    · intro hc hne
      have hqj : q ≤ j := by
        by_contra hlt
        exact hne (hearly j (Nat.lt_of_not_le hlt) hc)
      rw [hmain', Main.status, if_neg (Nat.not_lt.mpr hqj)]
      exact ⟨rfl, hlater j hqj⟩

/-! ### The next piece -/

theorem drop_eq_cons {l r : List Piece} {j : Nat} (h : x :: r = l.drop j) :
    l[j]? = some x ∧ r = l.drop (j + 1) := by
  constructor
  · rw [← List.head?_drop, ← h]
    rfl
  · rw [← List.tail_drop, ← h]
    rfl

theorem func_invoke {j : Nat} (hp : (m.workers i).place = .invoke j)
    (ho : (m.workers i).counter = some v) (hj : j < 5) (hx : (line v)[j]? = some x) :
    func m i = some { m.set i { m.workers i with place := .invoke (j + 1) } with
      out := m.out ++ [(i, x)] } := by
  simp only [func, hp, if_pos hj, Machine.insert, insertion_eq hj ho, hx]
  rfl

theorem main_execute {j : Nat} (hmain : m.main = .execute i false j)
    (ho : (m.workers i).counter = some v) (hj : j < 5) (hx : (line v)[j]? = some x) :
    main n m = some { m with main := .execute i false (j + 1), out := m.out ++ [(i, x)] } := by
  simp only [main, hmain, if_pos hj, Machine.insert, insertion_eq hj ho, hx]

/-- A thread that executes its callback itself. -/
theorem Stage.invoke {j : Nat} (h : Stage n c ((i, x) :: rest) m) (hi : i < n) (hc : c i = 0)
    (hj : j < 5) (hp : (m.workers i).place = .invoke j)
    (hl : x :: written rest i = (line 0).drop j) :
    ∃ m', Stage n c rest m' ∧ m'.out = m.out ++ [(i, x)] := by
  obtain ⟨k, c', hinv⟩ := inv h.reachable
  have hplace := (hinv.worker i hi).place
  rw [hp] at hplace
  obtain ⟨-, -, -, ho, hph, -⟩ := hplace.of_invoke
  obtain ⟨hx, hrest⟩ := drop_eq_cons hl
  have h₁ := thread_reachable h.reachable hi _ (func_invoke hp ho hj hx)
  refine ⟨_, h.of_step hi h₁ h.running rfl ?_ ?_, rfl⟩
  · intro l _ hli
    exact ⟨Function.update_of_ne hli .., rfl⟩
  · show Left _ _ (Function.update m.workers i _ i) _
    rw [Function.update_self, hrest]
    by_cases hj5 : j + 1 < 5
    · exact .invoke hc hj5 rfl
    · obtain rfl : j = 4 := by omega
      exact .quiet ⟨rfl, hph⟩

/-- A thread that comes too late. -/
theorem Stage.requested (h : Stage n c ((i, x) :: rest) m) (horder : InOrder c ((i, x) :: rest))
    (hi : i < n) (hc : c i = 0) : ∃ m', Stage n c ((i, x) :: rest) m' ∧ m'.out = m.out ∧
      m'.main.status i = .requested := by
  rcases h.running with ⟨p, hp, hmain⟩ | ⟨p, hp, j, -, hmain⟩ | hprinted
  · by_cases hip : i < p
    · exact ⟨m, h, rfl, by rw [hmain, Main.status, if_pos hip]⟩
    · have hearly : ∀ l < i + 1, c l ≠ 0 → written ((i, x) :: rest) l = [] := by
        intro l hl hcl
        have hne : l ≠ i := by
          rintro rfl
          exact hcl hc
        exact horder.written_eq_nil (by omega) hcl
      obtain ⟨m', h', hmain', hout⟩ := h.advance hmain (by omega) hi hearly
      exact ⟨m', h', hout, by rw [hmain', Main.status, if_pos (Nat.lt_succ_self i)]⟩
  · obtain ⟨hcp, hle⟩ := h.le_of_execute horder hp hmain
    have hne : i ≠ p := by
      rintro rfl
      exact hcp hc
    have hip : i < p := by omega
    exact ⟨m, h, rfl, by rw [hmain, Main.status, if_pos hip]⟩
  · exact ⟨m, h, rfl, Main.status_of_printed hprinted i⟩

theorem Stage.late (h : Stage n c ((i, x) :: rest) m) (hi : i < n) (hc : c i = 0)
    (hst : m.main.status i = .requested) (hp : (m.workers i).place = .counter)
    (hl : x :: written rest i = line 0) :
    ∃ m', Stage n c rest m' ∧ m'.out = m.out ++ [(i, x)] := by
  obtain ⟨k, c', hinv⟩ := inv h.reachable
  have hw := hinv.worker i hi
  rw [hst] at hw
  have hplace := hw.place
  rw [hp] at hplace
  obtain ⟨-, ho, hph, -⟩ := hplace.of_counter
  have hcon : (m.workers i).stop.construct () = none :=
    StopState.construct_eq_none_iff.mpr hw.requested
  have h₁ := thread_reachable h.reachable hi
    (m.set i { m.workers i with place := .callBack, counter := some 0 }) (by simp only [func, hp])
  have h₂ := set_reachable h₁ hi { m.workers i with place := .invoke 0, counter := some 0 }
    (by simp only [func, set_workers, hcon])
  have h' : Stage n c ((i, x) :: rest)
      (m.set i { m.workers i with place := .invoke 0, counter := some 0 }) := by
    refine ⟨h₂, h.running, h.newline, ?_⟩
    intro j hj
    by_cases hji : j = i
    · subst hji
      rw [set_workers, written_cons, if_pos rfl, hl, hc]
      exact .invoke (j := 0) rfl (by omega) rfl
    · show Left _ _ (Function.update m.workers i _ j) _
      rw [Function.update_of_ne hji]
      exact h.worker j hj
  exact h'.invoke hi hc (Nat.zero_lt_succ 4) (by rw [set_workers]) hl

theorem Stage.execute {j : Nat} (h : Stage n c ((i, x) :: rest) m) (hi : i < n) (hc : c i ≠ 0)
    (hj : j < 5) (hmain : m.main = .execute i false j) (hp : (m.workers i).place = .test)
    (ho : (m.workers i).counter = some (c i)) (hl : x :: written rest i = (line (c i)).drop j) :
    ∃ m', Stage n c rest m' ∧ m'.out = m.out ++ [(i, x)] := by
  obtain ⟨k, c', hinv⟩ := inv h.reachable
  have hw := hinv.worker i hi
  rw [hmain, Main.status, if_neg (Nat.lt_irrefl i), if_pos rfl] at hw
  obtain ⟨hph, -⟩ := hw.place.of_executing
  obtain ⟨hx, hrest⟩ := drop_eq_cons hl
  have h₁ := main_reachable h.reachable _ (main_execute hmain ho hj hx)
  by_cases hj5 : j + 1 < 5
  · refine ⟨_, h.of_step hi h₁ (.inr (.inl ⟨i, hi, j + 1, hj5, rfl⟩)) ?_ ?_ ?_, rfl⟩
    · rw [hmain]
      rfl
    · intro l _ hli
      refine ⟨rfl, ?_⟩
      rw [hmain, Main.status, Main.status, if_neg hli, if_neg hli]
    · rw [hrest]
      refine .executing hc hj5 ?_ hp ho
      rw [Main.status, if_neg (Nat.lt_irrefl i), if_pos rfl]
  · -- the callback returns, and no other one is registered
    obtain rfl : j = 4 := by omega
    obtain ⟨hwf, hphase⟩ := hw.wf.finish hph
    have hph' : (m.workers i).stop.finish.phase () = .outside := by
      rw [hphase, Function.update_self]
    have h₂ := main_reachable (n := n) h₁
      { m.set i { m.workers i with stop := (m.workers i).stop.finish } with
        main := .callbacks i false, out := m.out ++ [(i, x)] } rfl
    have h₃ := main_reachable (n := n) h₂
      { m.set i { m.workers i with stop := (m.workers i).stop.finish } with
        main := .requestStop (i + 1) false, out := m.out ++ [(i, x)] } ?_
    · refine ⟨_, h.of_step hi h₃ (.inl ⟨i + 1, hi, rfl⟩) ?_ ?_ ?_, rfl⟩
      · rw [hmain]
        rfl
      · intro l _ hli
        refine ⟨Function.update_of_ne hli .., ?_⟩
        rw [hmain, Main.status, Main.status, if_neg hli]
        by_cases hlt : l < i
        · rw [if_pos hlt, if_pos (by omega)]
        · rw [if_neg hlt, if_neg (by omega)]
      · show Left _ _ (Function.update m.workers i _ i) _
        rw [Function.update_self, hrest]
        refine .quiet ⟨?_, hph'⟩
        show (m.workers i).place.silent = true
        rw [hp]
        rfl
    · have hnone : (m.workers i).stop.finish.take () = none := by
        apply take_eq_none hwf
        intro hreg
        rw [hph'] at hreg
        cases hreg
      simp only [main, Machine.set, Function.update_self, hnone, Main.returned, Bool.false_eq_true,
        if_false]

theorem Left.early_of {l : List Piece} (h : Left cᵢ .started w (x :: l)) (hc : cᵢ ≠ 0) :
    w = .fresh := by
  generalize hl : x :: l = l' at h
  cases h with
  | quiet => cases hl
  | late hc' | invoke hc' => exact absurd hc' hc
  | early _ _ hw => exact hw
  | executing _ _ hst => cases hst

theorem Stage.early (h : Stage n c ((i, x) :: rest) m) (horder : InOrder c ((i, x) :: rest))
    (hi : i < n) (hc : c i ≠ 0) (hle : c i ≤ 10) (hst : m.main.status i = .started)
    (hl : x :: written rest i = line (c i)) :
    ∃ m', Stage n c rest m' ∧ m'.out = m.out ++ [(i, x)] := by
  rcases h.running with ⟨p, hp, hmain⟩ | ⟨p, hp, j, -, hmain⟩ | hprinted
  · have hpi : p ≤ i := by
      by_contra hlt
      rw [hmain, Main.status, if_pos (Nat.lt_of_not_le hlt)] at hst
      cases hst
    obtain ⟨m₁, h₁, hmain₁, hout⟩ := h.advance hmain hpi (Nat.le_of_lt hi)
      fun l => horder.written_eq_nil
    have hst₁ : m₁.main.status i = .started := by
      rw [hmain₁, Main.status, if_neg (Nat.lt_irrefl i)]
    have hleft := h₁.left hi
    rw [hst₁] at hleft
    have hfresh := hleft.early_of hc
    have hr₁ := reachable_looping hi h₁.reachable hfresh hle
    have hr₂ := main_reachable hr₁
      { m₁.set i { Worker.looping (c i) with
          stop := { stopRequested := true, callbacks := [()] } } with
        main := .callbacks i false } ?_
    · have hr₃ := main_reachable (n := n) hr₂
        { m₁.set i { Worker.looping (c i) with
            stop := { stopRequested := true, executing := some () } } with
          main := .execute i false 0 } ?_
      · have h₃ : Stage n c ((i, x) :: rest) { m₁.set i { Worker.looping (c i) with
            stop := { stopRequested := true, executing := some () } } with
              main := .execute i false 0 } := by
          refine ⟨hr₃, .inr (.inl ⟨i, hi, 0, Nat.zero_lt_succ 4, rfl⟩), ?_, ?_⟩
          · rw [h₁.newline, hmain₁]
            rfl
          · intro l hln
            by_cases hli : l = i
            · subst hli
              show Left _ _ ((m₁.set l _).workers l) _
              rw [set_workers, written_cons, if_pos rfl, hl, Main.status,
                if_neg (Nat.lt_irrefl l), if_pos rfl]
              exact .executing (j := 0) hc (by omega) rfl rfl rfl
            · have hleft := h₁.worker l hln
              show Left _ _ (Function.update m₁.workers i _ l) _
              rw [hmain₁, Main.status] at hleft
              rw [Function.update_of_ne hli, Main.status, if_neg hli]
              exact hleft
        obtain ⟨m', h', hout'⟩ := h₃.execute hi hc (Nat.zero_lt_succ 4) rfl
          (by rw [set_workers]; rfl) (by rw [set_workers]; rfl) hl
        exact ⟨m', h', hout'.trans (congrArg (· ++ [(i, x)]) hout)⟩
      · simp [main, Machine.set, StopState.take]
    · rw [main]
      simp [Machine.set, hmain₁, hi, Worker.looping, StopState.requestStop]
  · -- `main` cannot be at a callback in front of this one
    obtain ⟨-, hle⟩ := h.le_of_execute horder hp hmain
    rw [hmain, Main.status] at hst
    split at hst
    · cases hst
    · split at hst
      · cases hst
      · omega
  · rw [Main.status_of_printed hprinted] at hst
    cases hst

theorem Stage.last (h : Stage n c ((n, x) :: rest) m) (horder : InOrder c ((n, x) :: rest)) :
    ∃ m', Stage n c rest m' ∧ m'.out = m.out ++ [(n, x)] := by
  have hnewline := h.newline
  rw [written_cons, if_pos rfl] at hnewline
  have hprinted : m.main.printed = false := by
    by_contra hp
    rw [if_pos (eq_true_of_ne_false hp)] at hnewline
    cases hnewline
  rw [if_neg (ne_true_of_eq_false hprinted)] at hnewline
  obtain ⟨rfl, hrest⟩ := List.cons.inj hnewline
  rcases h.running with ⟨p, hp, hmain⟩ | ⟨p, hp, j, -, hmain⟩ | hp
  · obtain ⟨m₁, h₁, hmain₁, hout⟩ := h.advance hmain hp (Nat.le_refl n)
      fun l => horder.written_eq_nil
    have hr := main_reachable h₁.reachable
      { m₁ with out := m₁.out ++ [(n, .newline)], main := .requestStop 0 true } ?_
    · refine ⟨_, ⟨hr, .inr (.inr rfl), hrest, ?_⟩, congrArg (· ++ [(n, Piece.newline)]) hout⟩
      intro l hl
      have hleft := h₁.worker l hl
      rw [hmain₁, Main.status, if_pos hl, written_cons, if_neg (Nat.ne_of_gt hl)] at hleft
      exact hleft
    · simp only [main, hmain₁, if_neg (Nat.lt_irrefl n), if_neg Bool.false_ne_true]
  · obtain ⟨-, hle⟩ := h.le_of_execute horder hp hmain
    omega
  · rw [hprinted] at hp
    cases hp

theorem Stage.main_of_executing {j : Nat} (h : Stage n c rest m)
    (hst : m.main.status i = .executing j) : m.main = .execute i false j := by
  rcases h.running with ⟨p, -, hmain⟩ | ⟨p, -, k, -, hmain⟩ | hprinted
  · rw [hmain, Main.status] at hst
    split at hst <;> cases hst
  · rw [hmain, Main.status] at hst
    split at hst
    · cases hst
    · split at hst
      · rename_i hip
        cases hst
        rw [hmain, hip]
      · cases hst
  · rw [Main.status_of_printed hprinted] at hst
    cases hst

/-- **One more piece.** -/
theorem Stage.next (h : Stage n c ((i, x) :: rest) m) (horder : InOrder c ((i, x) :: rest))
    (hvalue : ∀ i < n, c i ≤ 10) (hi : i ≤ n) :
    ∃ m', Stage n c rest m' ∧ m'.out = m.out ++ [(i, x)] := by
  rcases Nat.lt_or_eq_of_le hi with hlt | rfl
  · have hleft := h.left hlt
    generalize hl : x :: written rest i = l at hleft
    cases hleft with
    | quiet => cases hl
    | late hc =>
      obtain ⟨m₁, h₁, hout, hst⟩ := h.requested horder hlt hc
      rw [← hout]
      have hleft₁ := h₁.left hlt
      generalize hl₁ : x :: written rest i = l₁ at hleft₁
      cases hleft₁ with
      | quiet => cases hl₁
      | late _ hp => exact h₁.late hlt hc hst hp hl
      | invoke _ hj hp => exact h₁.invoke hlt hc hj hp hl₁
      | early hc' | executing hc' => exact absurd hc hc'
    | invoke hc hj hp => exact h.invoke hlt hc hj hp hl
    | early hc hst => exact h.early horder hlt hc (hvalue i hlt) hst hl
    | executing hc hj hst hp ho => exact h.execute hlt hc hj (h.main_of_executing hst) hp ho hl
  · exact h.last horder

/-! ### All outputs -/

theorem stage_ready (h : Printed n c out) : Stage n c out
    { workers := fun j => if j < n ∧ written out j = [] then .over else if j < n then .fresh else {}
      main := .requestStop 0 false } := by
  refine ⟨reachable_ready out (Nat.le_refl n), .inl ⟨0, Nat.zero_le n, rfl⟩, h.newline, ?_⟩
  intro i hi
  show Left _ (if i < 0 then .requested else .started)
    (if i < n ∧ written out i = [] then _ else _) _
  rw [if_neg (Nat.not_lt_zero i)]
  rcases h.lines i hi with hnil | hline
  · rw [if_pos ⟨hi, hnil⟩, hnil]
    exact .quiet ⟨rfl, rfl⟩
  · have hnot : ¬(i < n ∧ written out i = []) := by
      rintro ⟨-, hnil⟩
      rw [hnil] at hline
      cases hline
    rw [if_neg hnot, if_pos hi, hline]
    by_cases hc : c i = 0
    · rw [hc]
      exact .late rfl rfl
    · exact .early hc rfl rfl

theorem Stage.run (h : Stage n c rest m) (horder : InOrder c rest) (hvalue : ∀ i < n, c i ≤ 10)
    (hindex : ∀ e ∈ rest, e.1 ≤ n) : ∃ m', Stage n c [] m' ∧ m'.out = m.out ++ rest := by
  induction rest generalizing m with
  | nil => exact ⟨m, h, (List.append_nil _).symm⟩
  | cons e rest ih =>
    obtain ⟨i, x⟩ := e
    obtain ⟨m₁, h₁, hout₁⟩ := h.next horder hvalue (hindex _ List.mem_cons_self)
    obtain ⟨m', h', hout⟩ := ih h₁ (List.pairwise_cons.mp horder).2
      fun e he => hindex e (List.mem_cons_of_mem _ he)
    refine ⟨m', h', ?_⟩
    rw [hout, hout₁, List.append_assoc, List.singleton_append]

theorem func_quiet (h : WorkerInv st (m.workers i) kᵢ cᵢ) (hq : (m.workers i).Quiet)
    (hst : func m i = some m') : m'.out = m.out ∧ m'.main = m.main ∧
      ∃ w, w.Quiet ∧ m'.workers = Function.update m.workers i w := by
  obtain ⟨hsilent, hph⟩ := hq
  cases h.func_cases hst with
  | counter hp | callBack hp | invoked hp =>
    rw [hp] at hsilent
    cases hsilent
  | invoke hp hj =>
    rw [hp] at hsilent
    exact absurd hj (Nat.not_lt.mpr (of_decide_eq_true hsilent))
  | destroyCallBack hp hdes =>
    obtain ⟨-, -, -, hphase⟩ := h.wf.destruct hdes
    refine ⟨rfl, rfl, _, ⟨rfl, ?_⟩, rfl⟩
    show StopState.phase _ () = _
    rw [hphase, Function.update_self]
  | _ =>
    refine ⟨rfl, rfl, _, ?_, rfl⟩
    exact ⟨rfl, hph⟩

theorem Stage.exists_ended (h : Stage n c [] m) :
    ∃ m', (system n).Reachable m' ∧ m'.main = .ended ∧ m'.out = m.out := by
  have hprinted : m.main.printed = true := by
    by_contra hp
    have hnewline := h.newline
    rw [if_neg hp] at hnewline
    cases hnewline
  obtain ⟨as, m', hrun, hend⟩ := h.reachable.leads_end (P := fun m => m.main = .ended)
    (fun m hm => by
      obtain ⟨k, c, h⟩ := inv hm
      exact h.progress)
    (fun as m' => length_le h.reachable)
  refine ⟨m', h.reachable.run hrun, hend, ?_⟩
  refine (h.reachable.run_invariant (I := fun m₁ => m₁.main.printed = true ∧ m₁.out = m.out ∧
    ∀ i < n, (m₁.workers i).Quiet) ?_ hrun ⟨hprinted, rfl, fun i hi =>
      (h.worker i hi).quiet_of_nil⟩).2.1
  rintro m₁ a m₂ hm₁ ⟨hprinted, hout, hquiet⟩ hst
  obtain ⟨k, c, hinv⟩ := inv hm₁
  cases a with
  | main =>
    obtain ⟨hprinted', hworkers, hout', -⟩ := step_of_printed hinv hst hprinted
    refine ⟨hprinted', hout'.trans hout, ?_⟩
    rw [hworkers]
    exact hquiet
  | thread i =>
    obtain ⟨hi, hst⟩ := Option.ite_none_right_eq_some.mp hst
    obtain ⟨hout', hmain, w, hw, hworkers⟩ := func_quiet (hinv.worker i hi) (hquiet i hi) hst
    refine ⟨hmain ▸ hprinted, hout'.trans hout, ?_⟩
    intro j hj
    rw [hworkers]
    by_cases hji : j = i
    · subst hji
      rw [Function.update_self]
      exact hw
    · rw [Function.update_of_ne hji]
      exact hquiet j hj

/-- **The outputs of `invokeCallback`.**  Behind its first line break, the complete runs print at
most one line of each thread, with any values up to 10, piece by piece in any order in which
nothing of a thread follows a later thread or the last line break, unless its value is 0. -/
theorem callbacks_print (n : Nat) (out : List (Nat × Piece)) :
    (∃ m, (system n).Reachable m ∧ m.main = .ended ∧ m.out = out) ↔ ∃ c, Printed n c out := by
  constructor
  · rintro ⟨m, hm, hend, rfl⟩
    exact printed_of_ended hm hend
  · rintro ⟨c, h⟩
    obtain ⟨m₁, h₁, hout₁⟩ := (stage_ready h).run h.order h.value h.index
    obtain ⟨m, hm, hend, hout⟩ := h₁.exists_ended
    exact ⟨m, hm, hend, hout.trans hout₁⟩

end Cpp20Examples.InvokeCallback
