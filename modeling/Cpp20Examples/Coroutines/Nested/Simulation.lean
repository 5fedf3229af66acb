import Cpp20Examples.Coroutines.Nested.Chain

/-!
# The coroutines refine the call stack

`Represents` says which states of the coroutines stand for which call stacks.
Each mode of the call stack has its own lemma here, which runs the coroutines to
the next point and gives the call stack that they stand for then; none of the
operations fails.  `simulation` puts them together.
-/

namespace Cpp20Examples.Nested

open Lib

variable {V : Type}

/-- The scheduler has no coroutine to resume. -/
def Quiet (sched : Nat) (s : State V) : Prop := (s.schedulers sched).toResume = none

/-- The states of the coroutines that stand for a call stack. -/
inductive Represents (sched root : Nat) (s : State V) : CallStack V → Prop
  | spawn {task : Nat} {body : Prog V} :
      s.frames = Function.update (fun _ => none) task
        (some { kind := .async, point := .initial body }) → task < s.next → s.next = root →
      s.control = .spawn sched task → Quiet sched s → Represents sched root s ⟨.spawn body, []⟩
  | start {top : Nat} {ps : List Nat} {ks : List (V → Prog V)} {body : Prog V} :
      Stack sched root top ps ks none (.initial body) s → s.control = .resume top →
      Quiet sched s → Represents sched root s ⟨.start body, ks⟩
  | run {top : Nat} {ps : List Nat} {ks : List (V → Prog V)} {body : Prog V} :
      Stack sched root top ps ks none .running s → s.control = .run top body →
      Quiet sched s → Represents sched root s ⟨.run body, ks⟩
  | suspended {top : Nat} {ps : List Nat} {ks : List (V → Prog V)} {k : Int → Prog V} :
      Stack sched root top ps ks none (.getData k) s →
      (∀ p ∈ top :: ps, schedulerOf s.frames p = some sched) → s.control = .caller →
      (s.schedulers sched).toResume = some top → Represents sched root s ⟨.suspended k, ks⟩
  | resumed {top : Nat} {ps : List Nat} {ks : List (V → Prog V)} {k : Int → Prog V} {d : Int} :
      Stack sched root top ps ks none (.getData k) s →
      schedulerOf s.frames top = some sched → s.control = .resume top → Quiet sched s →
      (s.schedulers sched).resumeValue = d → Represents sched root s ⟨.resumed k d, ks⟩
  | returned {top : Nat} {ps : List Nat} {ks : List (V → Prog V)} {v : V} :
      Stack sched root top ps ks (some v) .final s → s.control = .resume (parentOf root ps) →
      Quiet sched s → Represents sched root s ⟨.returned v, ks⟩
  | finish {v : V} :
      s.frames root = some { kind := .asyncResult, point := .running } →
      (∀ p f, s.frames p = some f → p = root ∨ f.point = .final) →
      s.control = .run root (.ret v) → Quiet sched s → Represents sched root s ⟨.finish v, []⟩
  | done {v : V} :
      s.frames root = some { kind := .asyncResult, value := some v, point := .final } →
      (∀ p f, s.frames p = some f → f.point = .final) →
      s.control = .caller → Quiet sched s → Represents sched root s ⟨.done v, []⟩

section Steps

variable {sched root top : Nat} {ps : List Nat} {ks : List (V → Prog V)} {s : State V}

theorem step_start {body : Prog V} (h : Stack sched root top ps ks none (.initial body) s)
    (hc : s.control = .resume top) (hq : Quiet sched s) :
    ∃ s', s.step = .ok s' ∧ Represents sched root s' ⟨.run body, ks⟩ := by
  obtain ⟨own, hf⟩ := h.innermost
  let g : Frame V := .linked top (parentOf root ps) none own none .running
  refine ⟨{ s.setFrame top g with control := .run top body }, ?_,
    .run ((h.setTop hf none .running).congr rfl rfl) rfl hq⟩
  rw [State.step, hc]
  show s.resume top = _
  rw [State.resume, frame_eq hf, bind_ok]
  show (s.setPoint top .running >>= fun s => pure { s with control := .run top body }) = _
  rw [setPoint_eq hf]
  rfl

theorem step_resumed {k : Int → Prog V} (h : Stack sched root top ps ks none (.getData k) s)
    (hs : schedulerOf s.frames top = some sched) (hc : s.control = .resume top)
    (hq : Quiet sched s) :
    ∃ s', s.step = .ok s' ∧
      Represents sched root s' ⟨.run (k (s.schedulers sched).resumeValue), ks⟩ := by
  obtain ⟨own, hf⟩ := h.innermost
  let g : Frame V := .linked top (parentOf root ps) none own none .running
  let body := k (s.schedulers sched).resumeValue
  refine ⟨{ s.setFrame top g with control := .run top body }, ?_,
    .run ((h.setTop hf none .running).congr rfl rfl) rfl hq⟩
  rw [schedulerOf, hf, Option.bind_some] at hs
  have hdata := awaitResume_getData hf hs
  rw [State.step, hc]
  show s.resume top = _
  rw [State.resume, frame_eq hf, bind_ok]
  show (GetData.awaitResume s top >>= fun d =>
    s.setPoint top .running >>= fun s => pure { s with control := .run top (k d) }) = _
  rw [hdata, bind_ok, setPoint_eq hf]
  rfl

/-- `co_return` in an `Async`. -/
theorem step_ret {v : V} (h : Stack sched root top ps ks none .running s)
    (hc : s.control = .run top (.ret v)) (hq : Quiet sched s) :
    ∃ s', s.step = .ok s' ∧ Represents sched root s' ⟨.returned v, ks⟩ := by
  obtain ⟨own, hf⟩ := h.innermost
  let g : Frame V := .linked top (parentOf root ps) none own (some v) .final
  refine ⟨{ s.setFrame top g with control := .resume (parentOf root ps) }, ?_,
    .returned ((h.setTop hf (some v) .final).congr rfl rfl) rfl hq⟩
  rw [State.step, hc]
  show (s.returnValue top v >>= fun s => s.finalSuspend top) = _
  rw [returnValue_eq hf rfl, bind_ok]
  rw [finalSuspend_async (Function.update_self ..) rfl rfl]
  simp only [setFrame_setFrame]
  rfl

/-- `co_await GetData{}`: the innermost coroutine is registered. -/
theorem step_getData {k : Int → Prog V} (h : Stack sched root top ps ks none .running s)
    (hc : s.control = .run top (.getData k)) (hq : Quiet sched s) :
    ∃ s', s.step = .ok s' ∧ Represents sched root s' ⟨.suspended k, ks⟩ := by
  obtain ⟨own, hf⟩ := h.innermost
  have hset := h.setTop hf none (.getData k)
  let t := s.setFrame top (.linked top (parentOf root ps) none own none (.getData k))
  have hsuspend := awaitSuspend_getData hset.linked.parentLinks hset.scheduled
    (List.nodup_cons.mp hset.nodup).2 (fun p hp => hset.lt p (List.mem_cons_of_mem _ hp)) hq
  refine ⟨{ t with
    frames := fill sched (top :: ps) t.frames
    schedulers := Function.update t.schedulers sched
      { t.schedulers sched with toResume := some top }
    control := .caller }, ?_, .suspended (hset.filled.1.congr rfl rfl) hset.filled.2 rfl ?_⟩
  · rw [State.step, hc]
    show (s.setPoint top (.getData k) >>= fun s => GetData.awaitSuspend s top >>= fun s =>
      pure { s with control := .caller }) = _
    rw [setPoint_eq hf, bind_ok]
    show (GetData.awaitSuspend t top >>= _) = _
    rw [hsuspend]
    rfl
  · show (Function.update t.schedulers sched _ sched).toResume = some top
    rw [Function.update_self]

/-- `co_await` of a fresh child: its frame is linked and pushed. -/
theorem step_call {child : Prog V} {k : V → Prog V} (h : Stack sched root top ps ks none .running s)
    (hc : s.control = .run top (.call child k)) (hq : Quiet sched s) :
    ∃ s', s.step = .ok s' ∧ Represents sched root s' ⟨.start child, k :: ks⟩ := by
  obtain ⟨own, hf⟩ := h.innermost
  have hne : top ≠ s.next := Nat.ne_of_lt (h.lt top (by simp))
  let f : Frame V := { kind := .async, point := .initial child }
  let g : Frame V := .linked top (parentOf root ps) none own none (.awaiting s.next true k)
  let f' : Frame V := .linked s.next top none none none (.initial child)
  let g' : Frame V := { g with child := some s.next }
  let t := (s.create f).setFrame top g
  have hcreate : (s.create f).frames top
      = some (.linked top (parentOf root ps) none own none .running) := by
    show Function.update s.frames s.next (some f) top = _
    rw [Function.update_of_ne hne, hf]
  have htop : t.frames top = some g := Function.update_self ..
  have hchild : t.frames s.next = some f := by
    show Function.update (Function.update s.frames s.next (some f)) top (some g) s.next = _
    rw [Function.update_of_ne hne.symm, Function.update_self]
  refine ⟨{ (t.setFrame s.next f').setFrame top g' with control := .resume s.next }, ?_,
    .start (h.push hf rfl ?_ (Function.update_self ..) ?_) rfl hq⟩
  · rw [State.step, hc]
    show ((s.create f).setPoint top (.awaiting s.next true k) >>= fun t =>
      Async.awaitSuspend t s.next top >>= fun t => pure { t with control := .resume s.next }) = _
    rw [setPoint_eq hcreate, bind_ok]
    show (Async.awaitSuspend t s.next top >>= _) = _
    rw [awaitSuspend_eq hchild rfl htop rfl hne]
    rfl
  · show Function.update (Function.update t.frames s.next (some f')) top (some g') s.next = _
    rw [Function.update_of_ne hne.symm, Function.update_self]
  · intro p hp hpt
    show Function.update (Function.update (Function.update (Function.update s.frames s.next _)
      top _) s.next _) top _ p = _
    simp only [Function.update_of_ne hp, Function.update_of_ne hpt]

/-- The return of a child: its frame is unlinked and destroyed. -/
theorem step_returned {v : V} {k : V → Prog V}
    (h : Stack sched root top ps (k :: ks) (some v) .final s)
    (hc : s.control = .resume (parentOf root ps)) (hq : Quiet sched s) :
    ∃ s', s.step = .ok s' ∧ Represents sched root s' ⟨.run (k v), ks⟩ := by
  obtain ⟨own, hf⟩ := h.innermost
  cases h.awaits with
  | @call _ caller ps _ _ own' hcaller ha =>
    have hne : caller ≠ top := by
      have hn := h.nodup
      simp only [List.nodup_cons, List.mem_cons, not_or] at hn
      exact Ne.symm hn.2.1.1
    let g : Frame V := .linked caller (parentOf root ps) none own' none (.awaiting top true k)
    let g' : Frame V := .linked caller (parentOf root ps) none own' none .running
    let t := (s.setFrame caller g).destroy top
    have hgone : t.frames caller = some g := by
      show Function.update (Function.update s.frames caller (some g)) top none caller = _
      rw [Function.update_of_ne hne, Function.update_self]
    refine ⟨{ t.setFrame caller g' with control := .run caller (k v) }, ?_,
      .run (h.pop hcaller ha rfl ?_ (Function.update_self ..) ?_) rfl hq⟩
    · rw [State.step, hc]
      show s.resume caller = _
      rw [State.resume, frame_eq hcaller, bind_ok]
      show (Async.awaitResume s top >>= _) = _
      rw [awaitResume_eq hf rfl rfl hcaller, bind_ok]
      show (t.setPoint caller .running >>= _) = _
      rw [setPoint_eq hgone]
      rfl
    · show Function.update (Function.update (Function.update s.frames caller _) top none)
        caller _ top = none
      rw [Function.update_of_ne hne.symm, Function.update_self]
    · intro p hp hpc
      show Function.update (Function.update (Function.update s.frames caller _) top none)
        caller _ p = _
      simp only [Function.update_of_ne hp, Function.update_of_ne hpc]

/-- The return of the task to `spawn_task`. -/
theorem step_returned_root {v : V} (h : Stack sched root top ps [] (some v) .final s)
    (hc : s.control = .resume (parentOf root ps)) (hq : Quiet sched s) :
    ∃ s', s.step = .ok s' ∧ Represents sched root s' ⟨.finish v, []⟩ := by
  obtain ⟨own, hf⟩ := h.innermost
  cases h.awaits with
  | root hroot =>
    let g : Frame V := { kind := .asyncResult, point := .awaiting top false .ret }
    let g' : Frame V := { kind := .asyncResult, point := .running }
    let t := s.setFrame root g
    have hunlinked : t.frames root = some g := Function.update_self ..
    refine ⟨{ t.setFrame root g' with control := .run root (.ret v) }, ?_,
      .finish (Function.update_self ..) ?_ rfl hq⟩
    · rw [State.step, hc]
      show s.resume root = _
      rw [State.resume, frame_eq hroot, bind_ok]
      show (Async.awaitResume s top >>= _) = _
      rw [awaitResume_eq hf rfl rfl hroot, bind_ok]
      show (t.setPoint root .running >>= _) = _
      rw [setPoint_eq hunlinked]
      rfl
    · intro p f hp
      by_cases he : p = root
      · exact .inl he
      · have hold : Function.update (Function.update s.frames root _) root _ p = some f := hp
        rw [Function.update_of_ne he, Function.update_of_ne he] at hold
        have hmem := h.only p f hold
        simp only [List.mem_cons, he, false_or, List.not_mem_nil, or_false] at hmem
        rw [hmem, hf] at hold
        exact .inr (Option.some.inj hold ▸ rfl)

theorem step_finish {v : V}
    (hr : s.frames root = some { kind := .asyncResult, point := .running })
    (hall : ∀ p f, s.frames p = some f → p = root ∨ f.point = .final)
    (hc : s.control = .run root (.ret v)) (hq : Quiet sched s) :
    ∃ s', s.step = .ok s' ∧ Represents sched root s' ⟨.done v, []⟩ := by
  let g : Frame V := { kind := .asyncResult, value := some v, point := .final }
  refine ⟨{ s.setFrame root g with control := .caller }, ?_,
    .done (Function.update_self ..) ?_ rfl hq⟩
  · rw [State.step, hc]
    show (s.returnValue root v >>= fun s => s.finalSuspend root) = _
    rw [returnValue_eq hr rfl, bind_ok]
    rw [finalSuspend_asyncResult (Function.update_self ..) rfl]
    simp only [setFrame_setFrame]
    rfl
  · intro p f hp
    by_cases he : p = root
    · subst he
      have hp : Function.update s.frames p (some g) p = some f := hp
      rw [Function.update_self] at hp
      exact Option.some.inj hp ▸ rfl
    · have hp : Function.update s.frames root (some g) p = some f := hp
      rw [Function.update_of_ne he] at hp
      exact (hall p f hp).resolve_left he

theorem step_spawn {task : Nat} {body : Prog V}
    (hf : s.frames = Function.update (fun _ => none) task
      (some { kind := .async, point := .initial body }))
    (hlt : task < s.next) (hroot : s.next = root) (hc : s.control = .spawn sched task)
    (hq : Quiet sched s) :
    ∃ s', s.step = .ok s' ∧ Represents sched root s' ⟨.start body, []⟩ := by
  subst hroot
  have hne : s.next ≠ task := Nat.ne_of_gt hlt
  have htask : s.frames task = some { kind := .async, point := .initial body } := by
    rw [hf, Function.update_self]
  let f : Frame V := { kind := .async, scheduler := some sched, point := .initial body }
  let g : Frame V := { kind := .asyncResult, point := .awaiting task false .ret }
  let f' : Frame V := .linked task s.next none (some sched) none (.initial body)
  let t := (s.setFrame task f).create g
  have hset : setScheduler sched (s.next + 1) task s = .ok (s.setFrame task f) := by
    rw [setScheduler, frame_eq htask]
    rfl
  have ht : t.frames task = some f := by
    show Function.update (Function.update s.frames task (some f)) s.next (some g) task = _
    rw [Function.update_of_ne hne.symm, Function.update_self]
  have hr : t.frames s.next = some g := Function.update_self ..
  let u := (t.setFrame task f').setFrame s.next (.root task)
  have hut : u.frames task = some f' := by
    show Function.update (Function.update t.frames task (some f')) s.next _ task = _
    rw [Function.update_of_ne hne.symm, Function.update_self]
  refine ⟨{ u with control := .resume task }, ?_, .start ⟨⟨_, hut⟩, .root (Function.update_self ..),
    .held (by simp) ?_, ?_, ?_, ?_⟩ rfl hq⟩
  · rw [State.step, hc]
    show (setScheduler sched (s.next + 1) task s >>= fun s =>
      Async.awaitSuspend (s.create g) task s.next >>= fun s =>
        pure { s with control := .resume task }) = _
    rw [hset, bind_ok]
    show (Async.awaitSuspend t task s.next >>= _) = _
    rw [awaitSuspend_eq ht rfl hr rfl hne]
    rfl
  · intro p hp
    obtain rfl : p = task := by simpa using hp
    show schedulerOf u.frames p = _
    rw [schedulerOf, hut]
    rfl
  · simp [hne]
  · intro p hp
    show p < s.next + 1
    simp only [List.mem_cons, List.not_mem_nil, or_false] at hp
    omega
  · intro p x hp
    by_cases he : p = s.next
    · simp [he]
    · by_cases het : p = task
      · simp [het]
      · have hold : Function.update (Function.update (Function.update (Function.update s.frames
          task _) s.next _) task _) s.next _ p = some x := hp
        simp [he, het, hf] at hold

end Steps

/-- **The coroutines refine the call stack**: where the call stack takes a step,
so do the coroutines, and no operation fails. -/
theorem step_represents {sched root : Nat} {s : State V} {c c' : CallStack V}
    (h : Represents sched root s c) (hst : c.step = some c') :
    ∃ s', s.step = .ok s' ∧ Represents sched root s' c' := by
  cases h with
  | spawn hf hlt hroot hc hq =>
    obtain rfl := Option.some.inj hst
    exact step_spawn hf hlt hroot hc hq
  | start h hc hq =>
    obtain rfl := Option.some.inj hst
    exact step_start h hc hq
  | @run top ps ks body h hc hq =>
    cases body with
    | ret v =>
      obtain rfl := Option.some.inj hst
      exact step_ret h hc hq
    | getData k =>
      obtain rfl := Option.some.inj hst
      exact step_getData h hc hq
    | call child k =>
      obtain rfl := Option.some.inj hst
      exact step_call h hc hq
  | suspended h _ hc hr => exact absurd hst (by simp [CallStack.step])
  | resumed h hs hc hq hd =>
    subst hd
    obtain rfl := Option.some.inj hst
    exact step_resumed h hs hc hq
  | @returned top ps ks v h hc hq =>
    cases ks with
    | nil =>
      obtain rfl := Option.some.inj hst
      exact step_returned_root h hc hq
    | cons k ks =>
      obtain rfl := Option.some.inj hst
      exact step_returned h hc hq
  | finish hr hall hc hq =>
    obtain rfl := Option.some.inj hst
    exact step_finish hr hall hc hq
  | done hr hall hc hq => exact absurd hst (by simp [CallStack.step])

theorem feed_represents {sched root : Nat} {s : State V} {c c' : CallStack V} {d : Int}
    (h : Represents sched root s c) (hst : c.feed d = some c') :
    ∃ s', s.feed sched d = some s' ∧ Represents sched root s' c' := by
  cases h with
  | @suspended top ps ks k h hall hc hr =>
    obtain rfl := Option.some.inj hst
    refine ⟨{ s with
      schedulers := Function.update s.schedulers sched { toResume := none, resumeValue := d }
      control := .resume top }, ?_, .resumed (h.congr rfl rfl) (hall top (by simp)) rfl ?_ ?_⟩
    · simp only [State.feed, hc, State.resumeWithData, hr]
      rfl
    · show (Function.update s.schedulers sched _ sched).toResume = none
      rw [Function.update_self]
    · show (Function.update s.schedulers sched _ sched).resumeValue = d
      rw [Function.update_self]
  | _ => exact absurd hst (by simp [CallStack.feed])

theorem represents_init (sched : Nat) (body : Prog V) :
    Represents sched asyncResult (State.init sched body) ⟨.spawn body, []⟩ :=
  .spawn rfl Nat.zero_lt_one rfl rfl rfl

theorem simulation (V : Type) (sched root : Nat) :
    Driven.Simulation (machine (V := V) sched) CallStack.machine (Represents sched root) where
  step := by
    intro s c c' h hst
    obtain ⟨s', hs, hr⟩ := step_represents h hst
    refine ⟨s', ?_, hr⟩
    show s.step.toOption = some s'
    rw [hs]
    rfl
  feed := feed_represents

end Cpp20Examples.Nested
