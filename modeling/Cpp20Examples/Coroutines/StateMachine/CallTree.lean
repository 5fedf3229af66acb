import Cpp20Examples.Coroutines.StateMachine.Stepping
import Cpp20Examples.Lib.Transfer

/-!
# The two state machines agree

A `CallTree` is a coroutine whose body is a finite list of effects and `co_await`s
of fresh coroutines of the same kind.  `while (machine.nextStep())` on
`recursion`'s `CoState` and one call of `start` on `crsm`'s both execute its effects
in the order of plain depth-first calls.

With `N` coroutines in the tree `nextStep` resumes one in its first `2 N - 1` calls:
each coroutine is resumed in front of its body, and each but the root once more in
its caller, when it has finished.

* `steps_unfolds`: the calls of `nextStep` in which a coroutine and those below it run, for
  every program that unfolds to the tree.
* `nextStep_agrees_start`: the two state machines on a tree.
-/

namespace Cpp20Examples.StateMachine

open Lib Lib.Coroutine

/-- The body of a coroutine, and those of the coroutines it awaits. -/
inductive CallTree (ε : Type)
  | done
  | effect (e : ε) (rest : CallTree ε)
  | call (child rest : CallTree ε)

namespace CallTree

variable {ε : Type}

def body : CallTree ε → Body ε Unit Unit Nothing
  | .done => .coReturn ()
  | .effect e rest => .effect e rest.body
  | .call child rest => .await () child.body fun _ => rest.body

/-- The number of coroutines. -/
def size : CallTree ε → Nat
  | .done => 1
  | .effect _ rest => rest.size
  | .call child rest => child.size + rest.size

/-- The effects of plain depth-first calls. -/
def effects : CallTree ε → List ε
  | .done => []
  | .effect e rest => e :: rest.effects
  | .call child rest => child.effects ++ rest.effects

/-- The calls of `nextStep` that return while the coroutine and those below it run:
the children are resumed in front of their bodies, and their callers behind them. -/
def stops : CallTree ε → Nat
  | .done => 0
  | .effect _ rest => rest.stops
  | .call child rest => rest.stops + (1 + child.stops + 1)

theorem stops_eq (t : CallTree ε) : t.stops + 2 = 2 * t.size := by
  induction t with
  | done => rfl
  | effect _ _ ih => exact ih
  | call child rest ihc ihr =>
    simp only [stops, size]
    omega

theorem quiet (t : CallTree ε) : t.body.Quiet fun _ _ => () := by
  induction t with
  | done => trivial
  | effect _ _ ih => exact ih
  | call _ _ ihc ihr => exact ⟨ihc, ihr⟩

theorem effects_body (t : CallTree ε) : t.body.effects (fun _ _ => ()) = t.effects := by
  induction t with
  | done => rfl
  | effect e rest ih => rw [body, Body.effects, ih, effects]
  | call child rest ihc ihr => rw [body, Body.effects, ihc, ihr, effects]

end CallTree

variable {ε : Type}

/-! ### `recursion` -/

/-- `j` calls of `nextStep` that return `true`. -/
def resumes (j : Nat) : List Call := List.replicate j ⟨true, true⟩

theorem resumes_append (i j : Nat) : resumes i ++ resumes j = resumes (i + j) :=
  List.replicate_append_replicate

section Recursion

variable {C : Type} {next : C → CoInstr ε C} {H : CoHeap C} {h h' n : Handle} {f f' : CoFrame C}
  {c : C} {es : List (Event ε Unit Unit Nothing)} {calls : List Call}

theorem while_inside {s t : CoState ε C} (h : step next recursionDesign s = some t) :
    whileNextStep next ⟨s, .inside, calls⟩ = some ⟨t, .inside, calls⟩ := by
  simp [whileNextStep, nextStep, Machine.runInside, (running_of_step h).1, h]

theorem steps_fresh (hc : Chain ((h, ⟨(), none, .body c⟩) :: H)) :
    Steps (whileNextStep next)
      ⟨⟨(h, ⟨(), none, .body c⟩) :: H, n, none, es, none⟩, .inside, calls⟩
      ⟨⟨(h, ⟨(), none, .body c⟩) :: H, n, some h, es, none⟩, .inside, resumes 1 ++ calls⟩ := by
  have hdone : Frame.done (⟨(), none, .body c⟩ : CoFrame C) = true → H ≠ [] := by
    simp [Frame.done]
  have hc' : Chain ([] ++ (h, ⟨(), none, .body c⟩) :: H) := hc
  exact ((steps_again next hc hdone).trans (climbs next hc' rfl)).tail (nextStep_last next)

theorem steps_caller (hc : Chain ((h, f) :: (h', f') :: H)) (hf : f.done = true) :
    Steps (whileNextStep next) ⟨⟨(h, f) :: (h', f') :: H, n, none, es, none⟩, .inside, calls⟩
      ⟨⟨(h, f) :: (h', f') :: H, n, some h', es, none⟩, .inside, resumes 1 ++ calls⟩ := by
  have hc' : Chain ([(h, f)] ++ (h', f') :: H) := hc
  have hf' : f'.done = false := by
    obtain ⟨rest, rfl⟩ := hc.awaits
    rfl
  exact ((steps_again next hc (by simp)).trans (climbs next hc' hf')).tail
    (nextStep_stop next hc hf)

end Recursion

/-- **A coroutine that is resumed runs to its end, in as many calls as its tree
says**, and so do all coroutines that it creates. -/
theorem steps_unfolds {C : Type} {next : C → CoInstr ε C} (t : CallTree ε) {b : C}
    (hu : Unfolds next b t.body) {H : CoHeap C} {h n : Handle} {p : Option Handle}
    {es : List (Event ε Unit Unit Nothing)} {calls : List Call}
    (hc : Chain ((h, ⟨(), p, .body b⟩) :: H)) (hn : h < n) :
    ∃ q n' es', Steps (whileNextStep next)
      ⟨⟨(h, ⟨(), p, .body b⟩) :: H, n, some h, es, none⟩, .inside, calls⟩
      ⟨⟨(h, ⟨(), q, .final⟩) :: H, n', none, es', none⟩, .inside, resumes t.stops ++ calls⟩ ∧
      n ≤ n' ∧ effectsOf es' = effectsOf es ++ t.effects ∧ es <:+ es' ∧ .finished h () ∈ es' ∧
      AllFinished n n' es' := by
  induction t generalizing b H h n p es calls with
  | done =>
    cases hu with
    | coReturn hnext =>
      refine ⟨p, n, .finished h () :: es, .single (while_inside (step_coReturn hnext)),
        Nat.le_refl n, ?_, List.suffix_cons _ es, .head _, ?_⟩
      · rw [effectsOf, CallTree.effects, List.append_nil]
      · intro g hg hg'
        exact absurd hg' (Nat.not_lt.mpr hg)
  | effect e rest ih =>
    cases hu with
    | effect hnext hrest =>
      obtain ⟨q, n', es', hsteps, hle, hes, hsuffix, hself, hfinished⟩ :=
        ih hrest (hc.replace ⟨(), p, .body _⟩) hn
      refine ⟨q, n', es', .head (while_inside (step_effect hnext)) hsteps, hle, ?_,
        (List.suffix_cons _ es).trans hsuffix, hself, hfinished⟩
      rw [hes, effectsOf, CallTree.effects, List.append_assoc]
      rfl
  | call child rest ihc ihr =>
    cases hu with
    | @await _ child' _ rest' _ _ hnext hchild hrest =>
      -- `h` awaits the child, the next call resumes the child, which runs to its end
      have hawait : whileNextStep next
          ⟨⟨(h, ⟨(), p, .body b⟩) :: H, n, some h, es, none⟩, .inside, calls⟩ = some
          ⟨⟨(n, ⟨(), none, .body child'⟩) :: (h, ⟨(), some n, .awaiting n () rest'⟩) :: H, n + 1,
            none, es, none⟩, .inside, calls⟩ := while_inside (step_await hnext)
      have hup : Chain ((n, ⟨(), none, .body child'⟩) ::
          (h, ⟨(), some n, .awaiting n () rest'⟩) :: H) := .cons _ hn (hc.replace _)
      obtain ⟨q₁, n₁, es₁, hsteps₁, hle₁, hes₁, hsuffix₁, hself₁, hfinished₁⟩ :=
        @ihc _ hchild _ _ _ _ es (resumes 1 ++ calls) hup (Nat.lt_succ_self n)
      -- the call behind that resumes `h`, which goes past its `co_await`
      have hpass : whileNextStep next
          ⟨⟨(n, ⟨(), q₁, .final⟩) :: (h, ⟨(), some n, .awaiting n () rest'⟩) :: H, n₁,
            some h, es₁, none⟩, .inside,
            resumes 1 ++ (resumes child.stops ++ (resumes 1 ++ calls))⟩ =
          some ⟨⟨(h, ⟨(), some n, .body (rest' ())⟩) :: H, n₁, some h,
            .destroyed n :: .passed n () (some ()) :: es₁, none⟩, .inside,
            resumes 1 ++ (resumes child.stops ++ (resumes 1 ++ calls))⟩ :=
        while_inside (step_pass (Nat.ne_of_gt hn) (Nat.zero_lt_of_lt hle₁) rfl)
      obtain ⟨q₂, n₂, es₂, hsteps₂, hle₂, hes₂, hsuffix₂, hself₂, hfinished₂⟩ :=
        @ihr _ (hrest ()) _ _ _ (some n) (.destroyed n :: .passed n () (some ()) :: es₁) _
          (hc.replace _) (Nat.lt_trans hn hle₁)
      have hcalls : resumes rest.stops ++
          (resumes 1 ++ (resumes child.stops ++ (resumes 1 ++ calls))) =
            resumes (CallTree.call child rest).stops ++ calls := by
        simp only [← List.append_assoc, resumes_append, CallTree.stops, Nat.add_assoc]
      have hsuffix : es₁ <:+ es₂ :=
        ((List.suffix_cons _ es₁).trans (List.suffix_cons _ _)).trans hsuffix₂
      refine ⟨q₂, n₂, es₂, ?_, Nat.le_trans (Nat.le_of_succ_le hle₁) hle₂, ?_,
        hsuffix₁.trans hsuffix, hself₂, .await hself₁ hfinished₁ hsuffix hfinished₂⟩
      · rw [← hcalls]
        exact .head hawait ((steps_fresh hup).trans (hsteps₁.trans
          ((steps_caller (hup.replace _) rfl).trans (.head hpass hsteps₂))))
      · rw [hes₂, effectsOf, effectsOf, hes₁, CallTree.effects, List.append_assoc]

/-- The loop ends when the root has finished, and with it all coroutines. -/
theorem while_unfolds {C : Type} {next : C → CoInstr ε C} (t : CallTree ε) {b : C}
    (hu : Unfolds next b t.body) : ∃ f n es,
    Steps (whileNextStep next) (.call recursionDesign b)
      ⟨⟨[(0, f)], n, none, es, none⟩, .caller, ⟨true, false⟩ :: resumes t.stops⟩ ∧
      f.done = true ∧ effectsOf es = t.effects ∧ AllFinished 0 n es := by
  have hc : Chain [((0 : Handle), (⟨(), none, .body b⟩ : CoFrame C))] := .root _
  have henter : whileNextStep next (.call recursionDesign b) =
      some ⟨⟨[(0, ⟨(), none, .body b⟩)], 1, none, [], none⟩, .walking 0, []⟩ := rfl
  have hlast : whileNextStep next
      ⟨⟨[(0, ⟨(), none, .body b⟩)], 1, none, [], none⟩, .walking 0, []⟩ =
      some ⟨⟨[(0, ⟨(), none, .body b⟩)], 1, some 0, [], none⟩, .inside, []⟩ := rfl
  obtain ⟨q, n, es, hsteps, -, hes, -, hself, hfinished⟩ :=
    @steps_unfolds ε C next t b hu _ _ _ _ [] [] hc Nat.zero_lt_one
  rw [List.append_nil] at hsteps
  refine ⟨⟨(), q, .final⟩, n, es, .head henter (.head hlast (hsteps.tail rfl)), rfl, hes, ?_⟩
  intro g _ hg
  rcases Nat.eq_zero_or_pos g with rfl | hpos
  · exact ⟨(), hself⟩
  · exact hfinished g hpos hg

theorem nextStep_done {C : Type} (next : C → CoInstr ε C) {f : CoFrame C} (hf : f.done = true)
    (n : Handle) (es : List (Event ε Unit Unit Nothing)) (calls : List Call) (k : Nat) :
    Steps (nextStep next) ⟨⟨[(0, f)], n, none, es, none⟩, .caller, calls⟩
      ⟨⟨[(0, f)], n, none, es, none⟩, .caller, List.replicate k ⟨false, false⟩ ++ calls⟩ := by
  induction k with
  | zero => exact .refl _
  | succ k ih =>
    apply ih.tail
    simp [nextStep, Machine.enter, hf, List.replicate_succ]

/-! ### `crsm` -/

theorem symmetric_crsmDesign : Symmetric crsmDesign fun _ _ => () where
  caller _ _ _ _ := rfl
  transfer _ _ _ _ := rfl
  resumes _ _ _ _ _ := rfl
  observes _ _ _ _ _ := rfl

theorem start_inside {C : Type} {next : C → CoInstr ε C} {s t : CoState ε C} {calls : List Call}
    (h : step next crsmDesign s = some t) :
    start next ⟨s, .inside, calls⟩ = some ⟨t, .inside, calls⟩ := by
  simp [start, Machine.runInside, (running_of_step h).1, h]

theorem start_unfolds {C : Type} {next : C → CoInstr ε C} (t : CallTree ε) {b : C}
    (hu : Unfolds next b t.body) : ∃ f n es,
    Steps (start next) (.call crsmDesign b)
      ⟨⟨[(0, f)], n, none, es, none⟩, .caller, [⟨true, false⟩]⟩ ∧ effectsOf es = t.effects ∧
      AllFinished 0 n es := by
  obtain ⟨n, es, hsteps, hran, -, hfinished⟩ :=
    symmetric_crsmDesign.runs_unfolds hu t.quiet [] () none
      ([] : List (Event ε Unit Unit Nothing)) Nat.zero_lt_one
  have heff := hran.effects
  rw [t.effects_body] at heff
  have hinside := hsteps.lift (fun s => (⟨s, .inside, []⟩ : Machine ε _))
    fun s t h => start_inside h
  have henter : start next (.call crsmDesign b) =
      some ⟨⟨[(0, ⟨(), none, .body b⟩)], 1, some 0, [], none⟩, .inside, []⟩ := rfl
  refine ⟨⟨(), none, .final⟩, n, es, .head henter (hinside.tail rfl), heff, ?_⟩
  intro g _ hg
  rcases Nat.eq_zero_or_pos g with rfl | hpos
  · exact ⟨_, hran.finished⟩
  · exact hfinished g hpos hg

/-! ### Both -/

/-- **The state machine that is stepped and the one that transfers control execute the
same effects**, those of plain depth-first calls.  With `N` coroutines,
`while (machine.nextStep())` makes `2 N - 1` calls, each of which resumes a
coroutine, and only the last returns `false`; every later call returns `false` and
changes nothing.  `start` returns `false`. -/
theorem nextStep_agrees_start (t : CallTree ε) :
    (∃ m, Steps (whileNextStep Body.next) (.call recursionDesign t.body) m ∧
      whileNextStep Body.next m = none ∧ m.place = .caller ∧ m.co.failed = none ∧
      m.calls = ⟨true, false⟩ :: List.replicate (2 * t.size - 2) ⟨true, true⟩ ∧
      effectsOf m.co.events = t.effects ∧
      ∀ k, Steps (nextStep Body.next) m
        { m with calls := List.replicate k ⟨false, false⟩ ++ m.calls }) ∧
    (∃ m, Steps (start Body.next) (.call crsmDesign t.body) m ∧ m.place = .caller ∧
      m.co.failed = none ∧ m.calls = [⟨true, false⟩] ∧ effectsOf m.co.events = t.effects) := by
  constructor
  · obtain ⟨f, n, es, hsteps, hf, hes, -⟩ := while_unfolds t t.body.unfolds
    have hstops : t.stops = 2 * t.size - 2 := by
      have h := t.stops_eq
      omega
    rw [hstops] at hsteps
    exact ⟨_, hsteps, rfl, rfl, rfl, rfl, hes, nextStep_done Body.next hf n es _⟩
  · obtain ⟨f, n, es, hsteps, hes, -⟩ := start_unfolds t t.body.unfolds
    exact ⟨_, hsteps, rfl, rfl, rfl, hes⟩

end Cpp20Examples.StateMachine
