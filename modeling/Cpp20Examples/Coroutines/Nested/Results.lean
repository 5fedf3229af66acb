import Cpp20Examples.Coroutines.Nested.Simulation
import Mathlib.Data.List.Chain
import Mathlib.Data.List.Nodup

/-!
# What the coroutines of `nested` compute, and how they are linked

* `session_eval`: a caller who spawns a program and feeds it an int at each
  suspension gets the value of the plain evaluation on these ints.
* `call_stack`: in every reachable state no assertion fails; while the caller has
  control the live promises are one chain (`CallChain`) that has the scheduler,
  and the innermost coroutine is the one to resume; and where a coroutine awaits
  an int the promises that have the scheduler are the outermost ones.
-/

namespace Cpp20Examples.Nested

open Lib

variable {V : Type}

/-! ### The states at the caller -/

theorem step_of_none {sched root : Nat} {s : State V} {c : CallStack V}
    (h : Represents sched root s c) (hc : c.step = none) : s.control = .caller := by
  cases h with
  | suspended _ _ hctl _ => exact hctl
  | done _ _ hctl _ => exact hctl
  | @run _ _ _ body _ _ _ => cases body <;> exact absurd hc (by simp [CallStack.step])
  | @returned _ _ ks _ _ _ _ => cases ks <;> exact absurd hc (by simp [CallStack.step])
  | _ => exact absurd hc (by simp [CallStack.step])

theorem feed_of_none {sched root : Nat} {s : State V} {c : CallStack V} {d : Int}
    (h : Represents sched root s c) (hc : c.feed d = none) : s.feed sched d = none := by
  cases h with
  | suspended _ _ _ _ => exact absurd hc (by simp [CallStack.feed])
  | done _ _ hctl hq =>
    have hq : (s.schedulers sched).toResume = none := hq
    simp only [State.feed, hctl, State.resumeWithData, hq]
    rfl
  | spawn _ _ _ hctl _ => simp only [State.feed, hctl]
  | start _ hctl _ => simp only [State.feed, hctl]
  | run _ hctl _ => simp only [State.feed, hctl]
  | resumed _ _ hctl _ _ => simp only [State.feed, hctl]
  | returned _ hctl _ => simp only [State.feed, hctl]
  | finish _ _ hctl _ => simp only [State.feed, hctl]

/-- **Every reachable state stands for a reachable call stack.** -/
theorem reachable_represents {sched : Nat} {prog : Prog V} {s : State V}
    (hs : ((machine sched).system (State.init sched prog)).Reachable s) :
    ∃ c, (CallStack.machine.system ⟨.spawn prog, []⟩).Reachable c ∧
      Represents sched asyncResult s c := by
  refine (simulation V sched asyncResult).reachable (fun h hn => ?_) (fun h hn => feed_of_none h hn)
    (represents_init sched prog) hs
  show Except.toOption (State.step _) = none
  rw [State.step, step_of_none h hn]
  rfl

/-! ### The program of `main` -/

def innerFunction (i : Int) : Prog Int := .getData fun additionalData => .ret (i + additionalData)

def innerReady : Prog Int := .ret 3

def middleFunction (i : Int) : Prog Int :=
  .call (innerFunction i) fun ii => .call innerReady fun r => .ret (ii * r)

def outerFunction (i : Int) : Prog Int := .call (middleFunction i) fun res => .ret (res + 3)

/-! ### The value of a session -/

theorem result_of_feed {sched : Nat} {s : State V} {c : CallStack V} {d : Int}
    (h : Represents sched asyncResult s c) (hf : (s.feed sched d).isSome = true) :
    s.control = .caller ∧ (s.schedulers sched).toResume ≠ none ∧
      s.result asyncResult = .error .result := by
  cases hn : c.feed d with
  | none =>
    rw [feed_of_none h hn] at hf
    exact absurd hf (by simp)
  | some c' =>
    cases h with
    | suspended h _ hctl hr =>
      obtain ⟨task, hroot⟩ := h.awaits.root_frame
      refine ⟨hctl, by rw [hr]; simp, ?_⟩
      rw [State.result, frame_eq hroot]
      rfl
    | _ => exact absurd hn (by simp [CallStack.feed])

/-- **A session computes the plain evaluation.**  A program is spawned, and fed an
int at each of its suspensions: before each int a coroutine is pending and there
is no result, and behind the last one nothing is pending and the result is the
value of the recursive evaluation, which reads the same ints. -/
theorem session_eval (sched : Nat) (prog : Prog V) (data : Nat → Int) :
    ∃ fuel₀, ∀ fuel, fuel₀ ≤ fuel →
      (∃ s,
        (machine sched).session data fuel (State.init sched prog) (prog.eval data 0).2 = some s ∧
        s.control = .caller ∧ (s.schedulers sched).toResume = none ∧
        s.result asyncResult = .ok (prog.eval data 0).1) ∧
      ∀ i, i < (prog.eval data 0).2 →
        ∃ s, (machine sched).session data fuel (State.init sched prog) i = some s ∧
          s.control = .caller ∧ (s.schedulers sched).toResume ≠ none ∧
          s.result asyncResult = .error .result := by
  obtain ⟨t, hdrive, ht⟩ := (simulation V sched asyncResult).drive (represents_init sched prog)
    (CallStack.drive_spawn data prog)
  cases ht with
  | done hroot _ hctl hq =>
    have hidle : (machine sched).step t = none := by
      show t.step.toOption = none
      rw [State.step, hctl]
      rfl
    obtain ⟨fuel₀, hfuel⟩ := Driven.exists_session hdrive hidle
    refine ⟨fuel₀, fun fuel hle => ⟨⟨t, (hfuel fuel hle).1, hctl, hq, ?_⟩, ?_⟩⟩
    · rw [State.result, frame_eq hroot]
      rfl
    · intro i hi
      obtain ⟨u, hu, hfeed⟩ := (hfuel fuel hle).2 i hi
      obtain ⟨c, _, hc⟩ := reachable_represents (Driven.reachable_session hu)
      exact ⟨u, hu, result_of_feed hc hfeed⟩

/-- `main` resumes with `2`, and the result is `42`. -/
theorem session_eval_main :
    ∃ fuel s, (machine 0).session (fun _ => 2) fuel (State.init 0 (outerFunction 11)) 1 = some s ∧
      s.control = .caller ∧ s.result asyncResult = .ok 42 := by
  obtain ⟨fuel, h⟩ := session_eval 0 (outerFunction 11) fun _ => 2
  obtain ⟨⟨s, hs, hctl, _, hr⟩, _⟩ := h fuel (Nat.le_refl fuel)
  exact ⟨fuel, s, hs, hctl, hr⟩

/-! ### The chain of the live promises -/

def State.parent (s : State V) (p : Nat) : Option Nat := (s.frames p).bind Frame.parent

def State.child (s : State V) (p : Nat) : Option Nat := (s.frames p).bind Frame.child

/-- The coroutine of a frame has begun and has not completed. -/
def State.Live (s : State V) (p : Nat) : Prop :=
  ∃ f, s.frames p = some f ∧ (∀ body, f.point ≠ .initial body) ∧ f.point ≠ .final

/-- The live promises are one chain, from the `AsyncResult` to the innermost
coroutine; `below` are the promises below the `AsyncResult`. -/
structure CallChain (s : State V) (below : List Nat) : Prop where
  result : ∃ f, s.frames asyncResult = some f ∧ f.kind = .asyncResult
  nodup : (asyncResult :: below).Nodup
  live : ∀ p, p ∈ asyncResult :: below ↔ s.Live p
  linked : (asyncResult :: below).IsChain fun p c => s.child p = some c ∧ s.parent c = some p
  child_iff : ∀ p ∈ asyncResult :: below, ∀ c ∈ asyncResult :: below,
    s.child p = some c ↔ s.parent c = some p

theorem exists_next {α : Type} {R : α → α → Prop} {l : List α} (h : l.IsChain R) {x : α}
    (hx : x ∈ l) : l.getLast? = some x ∨ ∃ y ∈ l, R x y := by
  induction l with
  | nil => exact absurd hx (by simp)
  | cons a l ih =>
    cases l with
    | nil =>
      obtain rfl := List.mem_singleton.mp hx
      exact .inl rfl
    | cons b l =>
      obtain ⟨hab, hl⟩ := List.isChain_cons_cons.mp h
      rcases List.mem_cons.mp hx with rfl | hx
      · exact .inr ⟨b, by simp, hab⟩
      · rcases ih hl hx with hlast | ⟨y, hy, hR⟩
        · exact .inl (by simpa using hlast)
        · exact .inr ⟨y, List.mem_cons_of_mem _ hy, hR⟩

theorem exists_previous {α : Type} {R : α → α → Prop} {l : List α} (h : l.IsChain R) {x : α}
    (hx : x ∈ l) : l.head? = some x ∨ ∃ y ∈ l, R y x := by
  have hr : l.reverse.IsChain fun a b => R b a := List.isChain_reverse.mpr h
  rcases exists_next hr (List.mem_reverse.mpr hx) with hlast | ⟨y, hy, hR⟩
  · exact .inl (by simpa using hlast)
  · exact .inr ⟨y, List.mem_reverse.mp hy, hR⟩

theorem Awaits.isChain {s : State V} {root c : Nat} {ps : List Nat} {ks : List (V → Prog V)}
    (h : Awaits s.frames root c ps ks) (hc : s.parent c = some (Nested.parentOf root ps)) :
    (c :: (ps ++ [root])).IsChain fun c p => s.child p = some c ∧ s.parent c = some p := by
  induction h with
  | root hr =>
    refine List.isChain_cons_cons.mpr ⟨⟨?_, hc⟩, List.isChain_singleton _⟩
    rw [State.child, hr]
    rfl
  | call hp _ ih =>
    refine List.isChain_cons_cons.mpr ⟨⟨?_, hc⟩, ih ?_⟩
    · rw [State.child, hp]
      rfl
    · rw [State.parent, hp]
      rfl

theorem Awaits.live {s : State V} {root c : Nat} {ps : List Nat} {ks : List (V → Prog V)}
    (h : Awaits s.frames root c ps ks) : ∀ p ∈ root :: ps, s.Live p := by
  induction h with
  | root hr =>
    intro p hp
    obtain rfl : p = root := by simpa using hp
    exact ⟨_, hr, by simp [Frame.root], by simp [Frame.root]⟩
  | @call c q ps k ks own hq _ ih =>
    intro p hp
    by_cases he : p = q
    · subst he
      exact ⟨_, hq, by simp [Frame.linked], by simp [Frame.linked]⟩
    · apply ih p
      simpa [he] using hp

/-- **The call stack in the heap is a chain**, while its innermost coroutine runs
or is suspended. -/
theorem Stack.callChain {sched top : Nat} {ps : List Nat} {ks : List (V → Prog V)}
    {value : Option V} {point : Point V} {s : State V}
    (h : Stack sched asyncResult top ps ks value point s)
    (hi : ∀ body, point ≠ .initial body) (hf : point ≠ .final) :
    CallChain s (top :: ps).reverse := by
  obtain ⟨own, htop⟩ := h.innermost
  obtain ⟨task, hroot⟩ := h.awaits.root_frame
  have hchain : (asyncResult :: (top :: ps).reverse).IsChain
      fun p c => s.child p = some c ∧ s.parent c = some p := by
    have hrev := h.awaits.isChain (by rw [State.parent, htop]; rfl)
    rw [← List.isChain_reverse] at hrev
    simpa using hrev
  have hmem : ∀ p, p ∈ asyncResult :: (top :: ps).reverse ↔ p ∈ asyncResult :: top :: ps := by
    intro p
    rw [List.mem_cons, List.mem_reverse, ← List.mem_cons]
  have hsplit : asyncResult :: (top :: ps).reverse = asyncResult :: ps.reverse ++ [top] := by
    rw [List.reverse_cons, List.cons_append]
  refine ⟨⟨_, hroot, rfl⟩, ?_, fun p => ⟨?_, ?_⟩, hchain, ?_⟩
  · have hn := h.nodup
    rw [List.nodup_cons] at hn ⊢
    exact ⟨fun hm => hn.1 (List.mem_reverse.mp hm), List.nodup_reverse.mpr hn.2⟩
  · intro hp
    by_cases he : p = top
    · subst he
      exact ⟨_, htop, hi, hf⟩
    · apply h.awaits.live p
      have hp := (hmem p).mp hp
      simp only [List.mem_cons, he, false_or] at hp ⊢
      exact hp
  · rintro ⟨f, hp, _⟩
    exact (hmem p).mpr (h.only p f hp)
  · intro p hp c hc
    constructor
    · intro hpc
      rcases exists_next hchain hp with hlast | ⟨y, _, hy, hyp⟩
      · -- the last promise is the innermost one, which has no child
        rw [hsplit, List.getLast?_concat] at hlast
        obtain rfl := Option.some.inj hlast
        rw [State.child, htop] at hpc
        exact absurd hpc (by simp [Frame.linked])
      · obtain rfl := Option.some.inj (hy.symm.trans hpc)
        exact hyp
    · intro hcp
      rcases exists_previous hchain hc with hfirst | ⟨y, _, hy, hyp⟩
      · obtain rfl : asyncResult = c := by simpa using hfirst
        rw [State.parent, hroot] at hcp
        exact absurd hcp (by simp [Frame.root])
      · obtain rfl := Option.some.inj (hyp.symm.trans hcp)
        exact hy

theorem Scheduled.split {frames : Nat → Option (Frame V)} {sched : Nat} {ps : List Nat}
    (h : Scheduled frames sched ps) : ∃ fresh held, ps = fresh ++ held ∧ held ≠ [] ∧
      (∀ p ∈ held, schedulerOf frames p = some sched) ∧
      ∀ p ∈ fresh, schedulerOf frames p = none := by
  induction h with
  | @held ps hne hall => exact ⟨[], ps, rfl, hne, hall, by simp⟩
  | @fresh p ps hn _ ih =>
    obtain ⟨fresh, held, rfl, hne, hall, hnone⟩ := ih
    refine ⟨p :: fresh, held, rfl, hne, hall, ?_⟩
    intro q hq
    rcases List.mem_cons.mp hq with rfl | hq
    · exact hn
    · exact hnone q hq

/-- Where a coroutine has control, no assertion fails. -/
theorem exists_step {sched : Nat} {s : State V} {c : CallStack V}
    (h : Represents sched asyncResult s c) (hne : s.control ≠ .caller) :
    ∃ s', s.step = .ok s' := by
  cases hn : c.step with
  | none => exact absurd (step_of_none h hn) hne
  | some c' =>
    obtain ⟨s', hstep, _⟩ := step_represents h hn
    exact ⟨s', hstep⟩

theorem chain_of_caller {sched : Nat} {s : State V} {c : CallStack V}
    (h : Represents sched asyncResult s c) (hctl : s.control = .caller)
    (hres : (s.result asyncResult).toOption = none) :
    ∃ below, CallChain s below ∧ below ≠ [] ∧
      (∀ p ∈ below, schedulerOf s.frames p = some sched) ∧
      (s.schedulers sched).toResume = below.getLast? := by
  cases h with
  | @suspended top ps ks k h hall _ hr =>
    refine ⟨(top :: ps).reverse, h.callChain (by simp) (by simp), by simp, ?_, ?_⟩
    · intro p hp
      exact hall p (List.mem_reverse.mp hp)
    · rw [hr, List.reverse_cons, List.getLast?_concat]
  | done hroot _ _ _ =>
    rw [State.result, frame_eq hroot] at hres
    exact absurd hres (by simp [Except.toOption])
  | spawn _ _ _ h _ => exact absurd (h.symm.trans hctl) (by simp)
  | start _ h _ => exact absurd (h.symm.trans hctl) (by simp)
  | run _ h _ => exact absurd (h.symm.trans hctl) (by simp)
  | resumed _ _ h _ _ => exact absurd (h.symm.trans hctl) (by simp)
  | returned _ h _ => exact absurd (h.symm.trans hctl) (by simp)
  | finish _ _ h _ => exact absurd (h.symm.trans hctl) (by simp)

theorem chain_of_getData {sched p : Nat} {k : Int → Prog V} {s : State V} {c : CallStack V}
    (h : Represents sched asyncResult s c) (hctl : s.control = .run p (.getData k)) :
    ∃ held fresh, CallChain s (held ++ fresh) ∧ (held ++ fresh).getLast? = some p ∧ held ≠ [] ∧
      (∀ q ∈ held, schedulerOf s.frames q = some sched) ∧
      ∀ q ∈ fresh, schedulerOf s.frames q = none := by
  cases h with
  | @run top ps ks body h hrun _ =>
    obtain ⟨rfl, _⟩ : top = p ∧ body = .getData k := by simpa using hrun.symm.trans hctl
    obtain ⟨fresh, held, hsplit, hne, hheld, hfresh⟩ := h.scheduled.split
    have hchain : held.reverse ++ fresh.reverse = (top :: ps).reverse := by
      rw [← List.reverse_append, ← hsplit]
    refine ⟨held.reverse, fresh.reverse, ?_, ?_, by simpa using hne, ?_, ?_⟩
    · rw [hchain]
      exact h.callChain (by simp) (by simp)
    · rw [hchain, List.reverse_cons, List.getLast?_concat]
    · intro q hq
      exact hheld q (List.mem_reverse.mp hq)
    · intro q hq
      exact hfresh q (List.mem_reverse.mp hq)
  | spawn _ _ _ h _ => exact absurd (h.symm.trans hctl) (by simp)
  | start _ h _ => exact absurd (h.symm.trans hctl) (by simp)
  | suspended _ _ h _ => exact absurd (h.symm.trans hctl) (by simp)
  | resumed _ _ h _ _ => exact absurd (h.symm.trans hctl) (by simp)
  | returned _ h _ => exact absurd (h.symm.trans hctl) (by simp)
  | finish _ _ h _ => exact absurd (h.symm.trans hctl) (by simp)
  | done _ _ h _ => exact absurd (h.symm.trans hctl) (by simp)

/-- **The invariant of the async call stack.**  In every reachable state of a
spawned program:

* no assertion fails, and nothing else does, in the next step;
* when the caller has control and there is no result, the live promises are one
  chain, all below the `AsyncResult` have the scheduler, and the coroutine to
  resume is the innermost one;
* when a coroutine is about to await an int, it is the innermost one of the chain,
  and the promises that have the scheduler are the outer ones, the task among
  them. -/
theorem call_stack (sched : Nat) (prog : Prog V) {s : State V}
    (hs : ((machine sched).system (State.init sched prog)).Reachable s) :
    (s.control ≠ .caller → ∃ s', s.step = .ok s') ∧
    (s.control = .caller → (s.result asyncResult).toOption = none →
      ∃ below, CallChain s below ∧ below ≠ [] ∧
        (∀ p ∈ below, schedulerOf s.frames p = some sched) ∧
        (s.schedulers sched).toResume = below.getLast?) ∧
    ∀ p k, s.control = .run p (.getData k) →
      ∃ held fresh, CallChain s (held ++ fresh) ∧ (held ++ fresh).getLast? = some p ∧ held ≠ [] ∧
        (∀ q ∈ held, schedulerOf s.frames q = some sched) ∧
        ∀ q ∈ fresh, schedulerOf s.frames q = none := by
  obtain ⟨c, _, hc⟩ := reachable_represents hs
  refine ⟨exists_step hc, chain_of_caller hc, ?_⟩
  intro p k hctl
  exact chain_of_getData hc hctl

/-- The suspension of `main`: three functions below the `AsyncResult`. -/
theorem call_stack_main :
    ∃ s, ((machine 0).system (State.init 0 (outerFunction 11))).Reachable s ∧
      (s.schedulers 0).toResume = some 3 ∧
      ∃ below, CallChain s below ∧ below.getLast? = some 3 := by
  obtain ⟨s, hs, hp⟩ := System.exists_reachable
    (M := (machine 0).system (State.init 0 (outerFunction 11)))
    (p := fun s => s.atCaller && (s.schedulers 0).toResume == some 3 &&
      (s.result asyncResult).toOption.isNone)
    (List.replicate 7 .step) (by decide)
  simp only [Bool.and_eq_true, State.atCaller_iff, beq_iff_eq, Option.isNone_iff_eq_none] at hp
  obtain ⟨⟨hctl, hr⟩, hres⟩ := hp
  obtain ⟨below, hchain, _, _, hlast⟩ := (call_stack 0 (outerFunction 11) hs).2.1 hctl hres
  exact ⟨s, hs, hr, below, hchain, hlast ▸ hr⟩

end Cpp20Examples.Nested
