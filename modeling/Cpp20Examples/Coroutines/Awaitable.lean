import Cpp20Examples.Lib.Transfer

/-!
# Awaitable coroutines

`utils/awaitable_coroutines`: to `co_await` an `AwaitableTask` or an
`AwaitableFunction` starts the child, and the child's final suspend point passes
control back.  `run_until_completion` resumes the root until it is done.

The promises have no `await_transform`, so any body may also
`co_await std::suspend_always{}`.  That gives control back to
`run_until_completion`, which resumes the *root*: when it is a descendant that is
suspended, the root goes past its `co_await` of a child that has not finished,
reads a result that may never have been set, and destroys the child
(`waits_fails`).

* `runs_to_completion`: where only the root's own body suspends, the run ends
  with every child waited for.
* `resumed_too_early`: everywhere else the root is resumed past such a child.
* `waits_iff`: the two together.
-/

namespace Cpp20Examples.Awaitable

open Lib Lib.Coroutine

inductive Kind
  | AwaitableTask
  | AwaitableFunction
  deriving DecidableEq

/-- What `await_resume` gives: nothing for a task. -/
def Awaited (T : Type) : Kind → Type
  | .AwaitableTask => Unit
  | .AwaitableFunction => T

/-- `promise_type`; `continuation_` is `none` where it is `std::noop_coroutine()`, and
`result_` is `none` until `return_value` sets it. -/
structure Promise (T : Type) where
  continuation_ : Option Handle := none
  result_ : Option T := none

/-- The body of a coroutine; the value that a task co_returns is not stored. -/
abbrev CoBody (ε T : Type) := Body ε Kind T (Awaited T)

/-- What `co_await` gives when the child co_returns `v`. -/
def awaited {T : Type} : (k : Kind) → T → Awaited T k
  | .AwaitableTask, _ => ()
  | .AwaitableFunction, v => v

/-- `return_void` and `return_value`. -/
def returnValue {T : Type} : Kind → T → Promise T → Promise T
  | .AwaitableTask, _, p => p
  | .AwaitableFunction, v, p => { p with result_ := some v }

def awaitResume {T : Type} : (k : Kind) → Promise T → Option (Awaited T k)
  | .AwaitableTask, _ => some ()
  | .AwaitableFunction, p => p.result_

def design (T : Type) : Design Kind T (Promise T) (Awaited T) where
  promise _ := {}
  awaitSuspend child caller p q := ({ p with continuation_ := some caller }, q, some child)
  returnValue := returnValue
  finalSuspend p := p.continuation_
  awaitResume := awaitResume

abbrev CoState (ε T : Type) := State ε Kind T (Promise T) (Awaited T) (CoBody ε T)

abbrev CoHeap (ε T : Type) := Heap Kind (Promise T) (Awaited T) (CoBody ε T)

abbrev CoFrame (ε T : Type) := Frame Kind (Promise T) (Awaited T) (CoBody ε T)

/-- `run_until_completion` on the root, the coroutine 0: a resumed coroutine runs until
control comes back; then the root is resumed again, or destroyed when it is done. -/
def runUntilCompletion {ε T : Type} (s : CoState ε T) : Option (CoState ε T) :=
  if s.failed.isSome then none
  else
    match s.control with
    | some _ => step Body.next (design T) s
    | none =>
      match s.heap.get 0 with
      | none => none
      | some f =>
        if f.done then some (s.destroy 0) else some { s with control := some 0 }

/-- `co_await std::suspend_always{}` stands in the body itself only, not below it. -/
def OnlyRootSuspends {ε T : Type} : CoBody ε T → Prop
  | .coReturn _ => True
  | .effect _ rest => OnlyRootSuspends rest
  | .suspend rest => OnlyRootSuspends rest
  | .await k child rest =>
    child.Quiet awaited ∧ OnlyRootSuspends (rest (awaited k (child.result awaited)))

variable {ε T : Type}

theorem symmetric (T : Type) : Symmetric (design T) awaited where
  caller _ _ _ _ := rfl
  transfer _ _ _ _ := rfl
  resumes _ _ k _ _ := by cases k <;> rfl
  observes _ _ k _ _ := by cases k <;> rfl

theorem step_runUntilCompletion (s t : CoState ε T) (h : step Body.next (design T) s = some t) :
    runUntilCompletion s = some t := by
  obtain ⟨hf, c, hc⟩ := running_of_step h
  simp [runUntilCompletion, hf, hc, h]

theorem events_runUntilCompletion {s t : CoState ε T} (h : runUntilCompletion s = some t) :
    ∃ new, t.events = new ++ s.events := by
  unfold runUntilCompletion at h
  split at h
  · exact absurd h (by simp)
  · split at h
    · exact events_step h
    · split at h
      · exact absurd h (by simp)
      · split at h <;> obtain rfl := Option.some.inj h
        · exact ⟨_, rfl⟩
        · exact ⟨[], rfl⟩

theorem events_grow {s t : CoState ε T} (h : Steps runUntilCompletion s t) :
    ∃ new, t.events = new ++ s.events := by
  refine h.invariant (I := fun t => ∃ new, t.events = new ++ s.events) ?_ ⟨[], rfl⟩
  rintro t u ⟨new, hnew⟩ hstep
  obtain ⟨new', hnew'⟩ := events_runUntilCompletion hstep
  exact ⟨new' ++ new, by rw [hnew', hnew, List.append_assoc]⟩

theorem resume_root {H : CoHeap ε T} {n : Handle}
    {es : List (Event ε Kind T (Awaited T))} {f : CoFrame ε T}
    (hget : H.get 0 = some f) (hf : f.done = false) :
    runUntilCompletion ⟨H, n, none, es, none⟩ = some ⟨H, n, some 0, es, none⟩ := by
  simp [runUntilCompletion, hget, hf]

/-- The root gets past its `co_await` of a child below which nothing is suspended. -/
theorem root_awaits (k : Kind) {k' : Kind} {child : CoBody ε T}
    (rest : Awaited T k' → CoBody ε T) (hchild : child.Quiet awaited) {n : Handle}
    (es : List (Event ε Kind T (Awaited T))) (hn : 0 < n) :
    ∃ n' es', Steps runUntilCompletion
      ⟨[(0, ⟨k, {}, .body (.await k' child rest)⟩)], n, some 0, es, none⟩
      ⟨[(0, ⟨k, {}, .body (rest (awaited k' (child.result awaited)))⟩)], n', some 0,
        .destroyed n :: .passed n k' (some (awaited k' (child.result awaited))) :: es', none⟩ ∧
      Ran awaited child n (n + 1) n' es es' := by
  obtain ⟨n', es', hsteps, hran⟩ := (symmetric T).runs hchild
    [(0, ⟨k, {}, .awaiting n k' rest⟩)] k' _ es (Nat.lt_succ_self n)
  refine ⟨n', es', .mono step_runUntilCompletion ?_, hran⟩
  exact (symmetric T).awaits rfl hn hran.fresh hsteps

/-- **Where only the root's body suspends, the run ends** and every child was waited for. -/
theorem runs_to_completion {b : CoBody ε T} (hb : OnlyRootSuspends b) (k : Kind) {n : Handle}
    (es : List (Event ε Kind T (Awaited T))) (hn : 0 < n) (hes : Sound awaited es) :
    ∃ n' es', Steps runUntilCompletion ⟨[(0, ⟨k, {}, .body b⟩)], n, some 0, es, none⟩
      ⟨[], n', none, es', none⟩ ∧ Sound awaited es' := by
  induction b generalizing n es with
  | coReturn v =>
    have hend : runUntilCompletion (⟨[(0, ⟨k, returnValue k v {}, .final⟩)], n, none,
        .finished 0 v :: es, none⟩ : CoState ε T) =
        some ⟨[], n, none, .destroyed 0 :: .finished 0 v :: es, none⟩ := by
      simp [runUntilCompletion, Frame.done, State.destroy, destroy_of_final hn]
    have hret := step_runUntilCompletion ⟨[(0, ⟨k, {}, .body (.coReturn v)⟩)], n, some 0, es, none⟩
      _ (step_coReturn rfl)
    have hcont : (design T).finalSuspend ((design T).returnValue k v {}) = none := by
      cases k <;> rfl
    rw [hcont] at hret
    exact ⟨n, _, .head hret (.single hend), ⟨v, .head _⟩, hes⟩
  | effect e rest ih =>
    obtain ⟨n', es', hsteps, hsound⟩ := ih hb (.effect e :: es) hn hes
    exact ⟨n', es', .head (step_runUntilCompletion _ _ (step_effect rfl)) hsteps, hsound⟩
  | suspend rest ih =>
    obtain ⟨n', es', hsteps, hsound⟩ := ih hb es hn hes
    exact ⟨n', es', .head (step_runUntilCompletion _ _ (step_suspend rfl))
      (.head (resume_root Heap.get_cons_self rfl) hsteps), hsound⟩
  | await k' child rest _ ihr =>
    obtain ⟨n₁, es₁, hsteps₁, hran⟩ := root_awaits k rest hb.1 es hn
    have hfin := hran.finished
    have hes₁ : Sound awaited (.destroyed n :: .passed n k' (some (awaited k' _)) :: es₁) :=
      ⟨⟨_, .tail _ hfin⟩, ⟨_, hfin, rfl⟩, hran.sound hes⟩
    obtain ⟨n₂, es₂, hsteps₂, hsound⟩ := ihr _ hb.2 _ (Nat.zero_lt_of_lt hran.fresh) hes₁
    exact ⟨n₂, es₂, hsteps₁.trans hsteps₂, hsound⟩

theorem not_sound_pass {s : CoState ε T} {f g : CoFrame ε T} {c : Handle}
    {k : Kind} {rest : Awaited T k → CoBody ε T} (hg : s.heap.get c = some g)
    (hfin : ∀ v, .finished c v ∉ s.events) :
    ¬ Sound awaited (Coroutine.pass (design T) s 0 f c k rest).events := by
  intro hs
  rw [Coroutine.pass, hg] at hs
  cases hr : (design T).awaitResume k g.promise with
  | none =>
    simp only [hr] at hs
    obtain ⟨⟨v, hv, -⟩, -⟩ := hs
    exact hfin v hv
  | some r =>
    simp only [hr] at hs
    obtain ⟨⟨v, hv, -⟩, -⟩ := hs.of_append
    exact hfin v hv

/-- **Everywhere else the root is resumed too early.** -/
theorem resumed_too_early {b : CoBody ε T} (hb : ¬ OnlyRootSuspends b) (k : Kind) {n : Handle}
    (es : List (Event ε Kind T (Awaited T))) (hn : 0 < n)
    (hes : ∀ c v, .finished c v ∈ es → c < n) :
    ∃ s, Steps runUntilCompletion ⟨[(0, ⟨k, {}, .body b⟩)], n, some 0, es, none⟩ s ∧
      ¬ Sound awaited s.events := by
  induction b generalizing n es with
  | coReturn => exact absurd trivial hb
  | effect e rest ih =>
    obtain ⟨s, hsteps, hs⟩ := ih hb (.effect e :: es) hn fun c v hc => hes c v (by simpa using hc)
    exact ⟨s, .head (step_runUntilCompletion _ _ (step_effect rfl)) hsteps, hs⟩
  | suspend rest ih =>
    obtain ⟨s, hsteps, hs⟩ := ih hb es hn hes
    exact ⟨s, .head (step_runUntilCompletion _ _ (step_suspend rfl))
      (.head (resume_root Heap.get_cons_self rfl) hsteps), hs⟩
  | await k' child rest _ ihr =>
    by_cases hchild : child.Quiet awaited
    · obtain ⟨n₁, es₁, hsteps₁, hran⟩ := root_awaits k rest hchild es hn
      have hes₁ : ∀ c v, .finished c v ∈ es₁ → c < n₁ := hran.below (Nat.lt_succ_self n)
        fun c v hc => Nat.lt_succ_of_lt (hes c v hc)
      obtain ⟨s, hsteps₂, hs⟩ := ihr _ (fun hrest => hb ⟨hchild, hrest⟩)
        (.destroyed n :: .passed n k' (some _) :: es₁) (Nat.zero_lt_of_lt hran.fresh)
        fun c v hc => hes₁ c v (by simpa using hc)
      exact ⟨s, hsteps₁.trans hsteps₂, hs⟩
    · -- a descendant is suspended; the root, resumed, goes past its unfinished child
      obtain ⟨above, f, n', es', hsteps, habove, hfin⟩ := (symmetric T).parks hchild
        [(0, ⟨k, {}, .awaiting n k' rest⟩)] k' _ es (Nat.lt_succ_self n)
      let s : CoState ε T := ⟨above ++ [(n, f), (0, ⟨k, {}, .awaiting n k' rest⟩)], n', some 0, es',
        none⟩
      have hroot : s.heap.get 0 = some ⟨k, {}, .awaiting n k' rest⟩ :=
        (Heap.get_append fun q hq => Nat.zero_lt_of_lt (habove q hq)).trans
          ((Heap.get_cons_ne (Nat.ne_of_gt hn)).trans Heap.get_cons_self)
      have hstep : step Body.next (design T) s =
          some (Coroutine.pass (design T) s 0 ⟨k, {}, .awaiting n k' rest⟩ n k' rest) := by
        simp [step, s, stepFrame] at hroot ⊢
        rw [hroot]
      have hunfinished : ∀ v, .finished n v ∉ s.events := by
        intro v hv
        rcases hfin n v hv with hv | hv
        · exact absurd (hes n v hv) (Nat.lt_irrefl n)
        · exact absurd hv (Nat.not_succ_le_self n)
      have hchild : s.heap.get n = some f := (Heap.get_append habove).trans Heap.get_cons_self
      refine ⟨Coroutine.pass (design T) s 0 ⟨k, {}, .awaiting n k' rest⟩ n k' rest, ?_,
        not_sound_pass hchild hunfinished⟩
      have hawait : Body.next (.await k' child rest : CoBody ε T) = .await k' child rest := rfl
      have hpark := Steps.mono step_runUntilCompletion
        (.head ((symmetric T).step_await [] hawait (h := 0)) hsteps)
      exact (hpark.tail (resume_root hroot rfl)).tail (step_runUntilCompletion _ _ hstep)

theorem first_resume (k : Kind) (b : CoBody ε T) :
    runUntilCompletion (State.call (design T) k b) =
      some ⟨[(0, ⟨k, {}, .body b⟩)], 1, some 0, [], none⟩ :=
  resume_root Heap.get_cons_self rfl

/-- **A parent resumes behind its child, with the child's value, and no frame is
destroyed unfinished, exactly where only the root's own body suspends.** -/
theorem waits_iff (k : Kind) (b : CoBody ε T) :
    (∀ s, Steps runUntilCompletion (State.call (design T) k b) s → Sound awaited s.events) ↔
      OnlyRootSuspends b := by
  constructor
  · intro h
    by_contra hb
    obtain ⟨s, hsteps, hs⟩ := resumed_too_early hb k [] Nat.zero_lt_one
      fun _ _ hc => absurd hc (by simp)
    exact hs (h s (.head (first_resume k b) hsteps))
  · intro hb s hs
    obtain ⟨n, es, hsteps, hsound⟩ := runs_to_completion hb k [] Nat.zero_lt_one trivial
    -- the machine has stopped, so every state comes before
    have hend := Steps.of_stopped (.head (first_resume k b) hsteps) rfl hs
    obtain ⟨new, hnew⟩ := events_grow hend
    have hnew : es = new ++ s.events := hnew
    rw [hnew] at hsound
    exact hsound.of_append

/-! ### The programs of `main` -/

/-- `child_func` -/
def childFunc : CoBody Int Int := .coReturn 42

/-- `other_parent` with any child in the place of `child_func`; it prints the value. -/
def otherParent (child : CoBody Int Int) : CoBody Int Int :=
  .await .AwaitableFunction child fun v => .effect v (.coReturn 0)

example : effectsOf (runFor runUntilCompletion 8
    (State.call (design Int) .AwaitableTask (otherParent childFunc))).events = [42] := rfl

/-- **A child that is suspended before its `co_return 42` is not waited for**: the
parent, resumed, reads a result that was never set. -/
theorem waits_fails :
    ¬ ∀ (k : Kind) (b : CoBody Int Int) (s : CoState Int Int),
      Steps runUntilCompletion (State.call (design Int) k b) s → Sound awaited s.events := by
  intro h
  let s : CoState Int Int := .call (design Int) .AwaitableTask (otherParent (.suspend childFunc))
  have hpassed : (runFor runUntilCompletion 5 s).events = [.passed 1 .AwaitableFunction none] := rfl
  have hs := h _ _ _ (steps_runFor 5 s)
  rw [hpassed] at hs
  obtain ⟨⟨v, hv, -⟩, -⟩ := hs
  exact absurd hv (by simp)

end Cpp20Examples.Awaitable
