import Cpp20Examples.Coroutines.StateMachine.CoState
import Mathlib.Data.List.Induction

/-!
# `nextStep` on the chain of coroutines

The coroutines of `recursion` that are alive form a chain: each one but the last
is suspended in the `co_await` of the next, to which its `nextHandle` points
(`Chain`).  `nextStep` walks up the chain and resumes its last coroutine, or the
one below it when the last has finished.

The last coroutine has a stale `nextHandle` once it has gone past a `co_await`:
the awaited coroutine is destroyed.  Nobody looks at it before the next
`co_await` or the end of the body, unless the coroutine is suspended by
`std::suspend_always` in between.

* `Good`, `good_step`: the invariant of the runs without such a suspension.
* `never_stale`: in these runs no handle that `nextStep` touches is stale.
* `stale_of_suspend`: behind any such suspension it touches one.
-/

namespace Cpp20Examples.StateMachine

open Lib Lib.Coroutine

variable {ε C : Type}

/-! ### The chain -/

/-- The coroutines alive, the last one first; the root is the coroutine 0. -/
inductive Chain : CoHeap C → Prop
  | root (f : CoFrame C) : Chain [(0, f)]
  | cons {h h' : Handle} {rest : Unit → C} {H : CoHeap C} (f : CoFrame C) : h' < h →
      Chain ((h', ⟨(), some h, .awaiting h () rest⟩) :: H) →
      Chain ((h, f) :: (h', ⟨(), some h, .awaiting h () rest⟩) :: H)

namespace Chain

variable {h h' : Handle} {f f' : CoFrame C} {H above : CoHeap C}

theorem replace (hc : Chain ((h, f) :: H)) (f' : CoFrame C) : Chain ((h, f') :: H) := by
  cases hc with
  | root => exact .root f'
  | cons _ hlt hc => exact .cons f' hlt hc

theorem lt (hc : Chain ((h, f) :: H)) : ∀ q ∈ H, q.1 < h := by
  generalize hG : (h, f) :: H = G at hc
  induction hc generalizing h f H with
  | root => cases hG; exact fun q hq => absurd hq (by simp)
  | cons _ hlt _ ih =>
    cases hG
    intro q hq
    rcases List.mem_cons.mp hq with rfl | hq
    · exact hlt
    · exact Nat.lt_trans (ih rfl q hq) hlt

/-- A coroutine with one above it is suspended in its `co_await`. -/
theorem awaits (hc : Chain ((h', f') :: (h, f) :: H)) :
    ∃ rest, f = ⟨(), some h', .awaiting h' () rest⟩ := by
  cases hc with
  | cons => exact ⟨_, rfl⟩

theorem tail (hc : Chain ((h', f') :: (h, f) :: H)) : Chain ((h, f) :: H) := by
  cases hc with
  | cons _ _ hc => exact hc

/-- The part of a chain below some of its coroutines. -/
theorem lower (hc : Chain (above ++ (h, f) :: H)) : Chain ((h, f) :: H) := by
  induction above with
  | nil => exact hc
  | cons q above ih =>
    generalize hG : above ++ (h, f) :: H = G at ih
    rw [List.cons_append, hG] at hc
    cases hc with
    | root => exact absurd hG (by simp)
    | cons _ _ hc => exact ih hc

theorem split (hc : Chain (above ++ (h', f') :: (h, f) :: H)) :
    ∃ rest, f = ⟨(), some h', .awaiting h' () rest⟩ ∧ Chain ((h', f') :: (h, f) :: H) :=
  hc.lower.awaits.imp fun _ hf => ⟨hf, hc.lower⟩

theorem above_lt (hc : Chain (above ++ (h, f) :: H)) : ∀ q ∈ above, h < q.1 := by
  intro q hq
  obtain ⟨a, b, rfl⟩ := List.append_of_mem hq
  rw [List.append_assoc] at hc
  exact hc.lower.lt (h, f) (by simp)

theorem get (hc : Chain (above ++ (h, f) :: H)) :
    Heap.get (above ++ (h, f) :: H) h = some f :=
  (Heap.get_append hc.above_lt).trans Heap.get_cons_self

theorem get_below (hc : Chain (above ++ (h, f) :: (h', f') :: H)) :
    Heap.get (above ++ (h, f) :: (h', f') :: H) h' = some f' := by
  rw [List.append_cons] at hc ⊢
  exact hc.get

theorem last_of_done (hc : Chain (above ++ (h, f) :: H)) (hf : f.done = true) : above = [] := by
  induction above using List.reverseRecOn with
  | nil => rfl
  | append_singleton above q _ =>
    rw [List.append_assoc] at hc
    obtain ⟨rest, rfl, -⟩ := hc.split
    exact absurd hf (by simp [Frame.done])

/-- The root is alive, and done only when it is alone. -/
theorem exists_root (hc : Chain H) :
    ∃ above f, H = above ++ [(0, f)] ∧ (f.done = true → above = []) := by
  induction hc with
  | root f => exact ⟨[], f, rfl, fun _ => rfl⟩
  | @cons h h' rest H f _ _ ih =>
    obtain ⟨above, f₀, heq, hdone⟩ := ih
    refine ⟨(h, f) :: above, f₀, by rw [heq]; rfl, ?_⟩
    intro hd
    obtain rfl := hdone hd
    cases heq
    exact absurd hd (by simp [Frame.done])

end Chain

/-- Control is with the caller of `nextStep`: the last coroutine has finished, or is in
front of its body with no `nextHandle`. -/
inductive Resting : CoHeap C → Handle → Prop
  | final {h n : Handle} {f : CoFrame C} {H : CoHeap C} : Chain ((h, f) :: H) → h < n →
      f.done = true → Resting ((h, f) :: H) n
  | body {h n : Handle} {c : C} {H : CoHeap C} : Chain ((h, ⟨(), none, .body c⟩) :: H) → h < n →
      Resting ((h, ⟨(), none, .body c⟩) :: H) n

theorem Resting.chain {H : CoHeap C} {n : Handle} (h : Resting H n) : Chain H := by
  cases h with
  | final hc => exact hc
  | body hc => exact hc

/-! ### The way up from the root -/

section Climb

variable (next : C → CoInstr ε C) {H above : CoHeap C} {h h' n : Handle} {f f' : CoFrame C} {c : C}
  {es : List (Event ε Unit Unit Nothing)} {calls : List Call}

/-- A round of the loop goes to the coroutine above that is not done. -/
theorem nextStep_climb (hc : Chain (above ++ (h, f) :: (h', f') :: H)) (hf : f.done = false) :
    nextStep next ⟨⟨above ++ (h, f) :: (h', f') :: H, n, none, es, none⟩, .walking h', calls⟩ =
      some ⟨⟨above ++ (h, f) :: (h', f') :: H, n, none, es, none⟩, .walking h, calls⟩ := by
  obtain ⟨rest, rfl, -⟩ := hc.split
  simp [nextStep, Machine.walk, hc.get, hc.get_below, hf]

/-- It stops at the coroutine below one that is done. -/
theorem nextStep_stop (hc : Chain ((h, f) :: (h', f') :: H)) (hf : f.done = true) :
    nextStep next ⟨⟨(h, f) :: (h', f') :: H, n, none, es, none⟩, .walking h', calls⟩ =
      some ⟨⟨(h, f) :: (h', f') :: H, n, some h', es, none⟩, .inside, calls⟩ := by
  obtain ⟨rest, rfl⟩ := hc.awaits
  have hne : h ≠ h' := Nat.ne_of_gt (hc.lt _ (.head _))
  simp [nextStep, Machine.walk, Machine.resume, Heap.get_cons_ne hne, hf]

theorem nextStep_last :
    nextStep next ⟨⟨(h, ⟨(), none, .body c⟩) :: H, n, none, es, none⟩, .walking h, calls⟩ =
      some ⟨⟨(h, ⟨(), none, .body c⟩) :: H, n, some h, es, none⟩, .inside, calls⟩ := by
  simp [nextStep, Machine.walk, Machine.resume]

/-- **The loop gets to each coroutine that is not done.** -/
theorem climbs (hc : Chain (above ++ (h, f) :: H)) (hf : f.done = false) :
    Steps (whileNextStep next) ⟨⟨above ++ (h, f) :: H, n, none, es, none⟩, .walking 0, calls⟩
      ⟨⟨above ++ (h, f) :: H, n, none, es, none⟩, .walking h, calls⟩ := by
  generalize hG : (h, f) :: H = G at hc
  have hlow : Chain G := by
    rw [← hG] at hc ⊢
    exact hc.lower
  induction hlow generalizing above h f H with
  | root =>
    cases hG
    exact .refl _
  | @cons g g' rest G f₁ hlt hlow ih =>
    obtain ⟨⟨rfl, rfl⟩, rfl⟩ : (h = g ∧ f = f₁) ∧
        H = (g', ⟨(), some g, .awaiting g () rest⟩) :: G := by
      simpa using hG
    rw [List.append_cons] at hc
    have hbelow := ih rfl rfl hc
    rw [← List.append_cons] at hbelow hc
    exact hbelow.tail (nextStep_climb next hc hf)

theorem steps_again (hc : Chain ((h, f) :: H)) (hf : f.done = true → H ≠ []) :
    Steps (whileNextStep next) ⟨⟨(h, f) :: H, n, none, es, none⟩, .inside, calls⟩
      ⟨⟨(h, f) :: H, n, none, es, none⟩, .walking 0, ⟨true, true⟩ :: calls⟩ := by
  obtain ⟨above, f₀, hH, hdone⟩ := hc.exists_root
  have hget : Heap.get ((h, f) :: H) 0 = some f₀ := by
    rw [hH] at hc ⊢
    exact hc.get
  have hf₀ : f₀.done = false := by
    rw [Bool.eq_false_iff]
    intro hd
    obtain rfl := hdone hd
    cases hH
    exact hf hd rfl
  refine .head (t := ⟨⟨(h, f) :: H, n, none, es, none⟩, .caller, ⟨true, true⟩ :: calls⟩) ?_
    (.single ?_)
  · simp [whileNextStep, nextStep, Machine.runInside, step, Machine.leave, hget, hf₀]
  · simp [whileNextStep, nextStep, Machine.enter, hget, hf₀]

end Climb

/-! ### The invariant -/

/-- The running coroutine is in front of `co_await std::suspend_always{}`, behind a
`co_await` of a `CoState`. -/
def lateSuspend (next : C → CoInstr ε C) (m : Machine ε C) : Bool :=
  match m.place, m.co.control.bind m.co.heap.get with
  | .inside, some ⟨_, some _, .body c⟩ =>
    match next c with
    | .suspend _ => true
    | _ => false
  | _, _ => false

/-- In `running`, `p` may be the handle of a coroutine that is destroyed, newer than the
one that runs; in `passing`, the coroutine goes past the `co_await` of one that is
done. -/
inductive Good : Machine ε C → Prop
  | caller {H : CoHeap C} {n : Handle} {es calls} :
      Resting H n → Good ⟨⟨H, n, none, es, none⟩, .caller, calls⟩
  | walking {above H : CoHeap C} {i n : Handle} {f : CoFrame C} {es calls} :
      Resting (above ++ (i, f) :: H) n → f.done = false →
      Good ⟨⟨above ++ (i, f) :: H, n, none, es, none⟩, .walking i, calls⟩
  | running {H : CoHeap C} {h n : Handle} {p : Option Handle} {c : C} {es calls} :
      Chain ((h, ⟨(), p, .body c⟩) :: H) → h < n → (∀ g ∈ p, h < g) →
      Good ⟨⟨(h, ⟨(), p, .body c⟩) :: H, n, some h, es, none⟩, .inside, calls⟩
  | passing {H : CoHeap C} {c h n : Handle} {q : Option Handle} {f : CoFrame C} {es calls} :
      Chain ((c, ⟨(), q, .final⟩) :: (h, f) :: H) → c < n →
      Good ⟨⟨(c, ⟨(), q, .final⟩) :: (h, f) :: H, n, some h, es, none⟩, .inside, calls⟩
  | back {H : CoHeap C} {n : Handle} {es calls} :
      Resting H n → Good ⟨⟨H, n, none, es, none⟩, .inside, calls⟩

theorem Good.failed {m : Machine ε C} (h : Good m) : m.co.failed = none := by
  cases h <;> rfl

section Step

variable {next : C → CoInstr ε C} {H above : CoHeap C} {h i n : Handle} {f : CoFrame C}
  {p : Option Handle} {c : C} {es : List (Event ε Unit Unit Nothing)} {calls : List Call}
  {m : Machine ε C}

theorem good_enter (hH : Resting H n)
    (hst : nextStep next ⟨⟨H, n, none, es, none⟩, .caller, calls⟩ = some m) : Good m := by
  obtain ⟨above, f, rfl, -⟩ := hH.chain.exists_root
  have hget := hH.chain.get
  cases hf : f.done with
  | true =>
    simp only [nextStep, Machine.enter, hget, hf, Option.isSome_none, Bool.false_eq_true, if_false,
      if_true, Option.some.injEq] at hst
    exact hst ▸ .caller hH
  | false =>
    simp only [nextStep, Machine.enter, hget, hf, Option.isSome_none, Bool.false_eq_true, if_false,
      Option.some.injEq] at hst
    exact hst ▸ .walking hH hf

theorem good_leave (hH : Resting H n)
    (hst : nextStep next ⟨⟨H, n, none, es, none⟩, .inside, calls⟩ = some m) : Good m := by
  obtain ⟨above, f, rfl, -⟩ := hH.chain.exists_root
  simp only [nextStep, Machine.runInside, step, Machine.leave, hH.chain.get, Option.isSome_none,
    Bool.false_eq_true, if_false, Option.map_none, Option.some.injEq] at hst
  exact hst ▸ .caller hH

theorem good_walk (hH : Resting (above ++ (i, f) :: H) n) (hf : f.done = false)
    (hst : nextStep next ⟨⟨above ++ (i, f) :: H, n, none, es, none⟩, .walking i, calls⟩ = some m) :
    Good m := by
  rcases List.eq_nil_or_concat above with rfl | ⟨above, ⟨j, g⟩, rfl⟩
  · -- the last coroutine: it is in front of its body
    cases hH with
    | final _ _ hdone => exact absurd hdone (by simp [hf])
    | body hc hn =>
      rw [List.nil_append, nextStep_last next] at hst
      exact Option.some.inj hst ▸ .running hc hn (by simp)
  · simp only [List.concat_eq_append, List.append_assoc, List.singleton_append] at hH hst
    have hc := hH.chain
    cases hg : g.done with
    | true =>
      obtain rfl := hc.last_of_done hg
      rw [List.nil_append, nextStep_stop next hc hg] at hst
      cases hH with
      | final _ hn =>
        obtain ⟨k, q, pt⟩ := g
        obtain rfl := Frame.done_iff.mp hg
        exact Option.some.inj hst ▸ .passing hc hn
      | body => exact absurd hg (by simp [Frame.done])
    | false =>
      rw [nextStep_climb next hc hg] at hst
      exact Option.some.inj hst ▸ .walking hH hg

theorem good_run (hc : Chain ((h, ⟨(), p, .body c⟩) :: H)) (hn : h < n) (hp : ∀ g ∈ p, h < g)
    (hok : lateSuspend next
      ⟨⟨(h, ⟨(), p, .body c⟩) :: H, n, some h, es, none⟩, .inside, calls⟩ = false)
    (hst : nextStep next ⟨⟨(h, ⟨(), p, .body c⟩) :: H, n, some h, es, none⟩, .inside, calls⟩ =
      some m) : Good m := by
  simp only [nextStep, Machine.runInside, Option.isSome_none, Bool.false_eq_true, if_false] at hst
  cases hb : next c with
  | effect e rest =>
    rw [step_effect hb] at hst
    exact Option.some.inj hst ▸ .running (hc.replace _) hn hp
  | suspend rest =>
    rw [step_suspend hb] at hst
    cases p with
    | none => exact Option.some.inj hst ▸ .back (.body (hc.replace _) hn)
    | some g => exact absurd hok (by simp [lateSuspend, hb])
  | await k child rest =>
    rw [step_await hb] at hst
    exact Option.some.inj hst ▸ .back (.body (.cons _ hn (hc.replace _)) (Nat.lt_succ_self n))
  | coReturn v =>
    rw [step_coReturn hb] at hst
    exact Option.some.inj hst ▸ .back (.final (hc.replace _) hn rfl)

theorem good_pass {q : Option Handle} {d : Handle}
    (hc : Chain ((d, ⟨(), q, .final⟩) :: (h, f) :: H)) (hn : d < n)
    (hst : nextStep next
      ⟨⟨(d, ⟨(), q, .final⟩) :: (h, f) :: H, n, some h, es, none⟩, .inside, calls⟩ = some m) :
    Good m := by
  obtain ⟨rest, rfl⟩ := hc.awaits
  have hlt : h < d := hc.lt _ (.head _)
  simp only [nextStep, Machine.runInside, Option.isSome_none, Bool.false_eq_true, if_false] at hst
  rw [step_pass (Nat.ne_of_gt hlt) (Nat.zero_lt_of_lt hn) rfl] at hst
  refine Option.some.inj hst ▸ .running ?_ (Nat.lt_trans hlt hn) (by simpa using hlt)
  exact hc.tail.replace _

end Step

/-- **A step keeps the invariant, unless it is such a suspension.** -/
theorem good_step {next : C → CoInstr ε C} {m m' : Machine ε C} (hm : Good m)
    (hok : lateSuspend next m = false) (hst : nextStep next m = some m') : Good m' := by
  cases hm with
  | caller hH => exact good_enter hH hst
  | walking hH hf => exact good_walk hH hf hst
  | running hc hn hp => exact good_run hc hn hp hok hst
  | passing hc hn => exact good_pass hc hn hst
  | back hH => exact good_leave hH hst

theorem good_call (c : C) : Good (Machine.call recursionDesign c : Machine ε C) :=
  .caller (.body (.root _) Nat.zero_lt_one)

/-! ### Behind such a suspension -/

/-- The next call of `nextStep` gets to a `nextHandle` that is destroyed. -/
theorem fails_of_stale {next : C → CoInstr ε C} {H : CoHeap C} {h g n : Handle} {c : C}
    {es : List (Event ε Unit Unit Nothing)} {calls : List Call}
    (hc : Chain ((h, ⟨(), some g, .body c⟩) :: H)) (hg : h < g) :
    Steps (nextStep next)
      ⟨⟨(h, ⟨(), some g, .body c⟩) :: H, n, none, es, none⟩, .inside, calls⟩
      ⟨⟨(h, ⟨(), some g, .body c⟩) :: H, n, none, es, some .destroyed⟩, .walking h,
        ⟨true, true⟩ :: calls⟩ := by
  have hstale : Heap.get ((h, ⟨(), some g, .body c⟩) :: H) g = none := by
    apply Heap.get_eq_none
    intro q hq
    rcases List.mem_cons.mp hq with rfl | hq
    · exact Nat.ne_of_lt hg
    · exact Nat.ne_of_lt (Nat.lt_trans (hc.lt q hq) hg)
  have hc' : Chain ([] ++ (h, ⟨(), some g, .body c⟩) :: H) := hc
  have hdone : Frame.done (⟨(), some g, .body c⟩ : CoFrame C) = true → H ≠ [] := by
    simp [Frame.done]
  refine ((Steps.trans (steps_again next hc hdone) (climbs next hc' rfl)).mono
    nextStep_of_while).tail ?_
  simp [nextStep, Machine.walk, Machine.fail, hstale]

/-- **Every such suspension makes `nextStep` touch a destroyed coroutine.** -/
theorem stale_of_suspend {next : C → CoInstr ε C} {m : Machine ε C} (hm : Good m)
    (hlate : lateSuspend next m = true) :
    ∃ m', Steps (nextStep next) m m' ∧ m'.co.failed = some .destroyed := by
  cases hm with
  | @running H h n p c es calls hc hn hp =>
    cases p with
    | none => exact absurd hlate (by simp [lateSuspend])
    | some g =>
      cases hb : next c with
      | suspend rest =>
        have hst : nextStep next
            ⟨⟨(h, ⟨(), some g, .body c⟩) :: H, n, some h, es, none⟩, .inside, calls⟩ =
            some ⟨⟨(h, ⟨(), some g, .body rest⟩) :: H, n, none, es, none⟩, .inside, calls⟩ := by
          simp [nextStep, Machine.runInside, step_suspend hb]
        exact ⟨_, .head hst (fails_of_stale (hc.replace _) (hp g rfl)), rfl⟩
      | effect => exact absurd hlate (by simp [lateSuspend, hb])
      | await => exact absurd hlate (by simp [lateSuspend, hb])
      | coReturn => exact absurd hlate (by simp [lateSuspend, hb])
  | @passing H c h n q f es calls hc hn =>
    obtain ⟨rest, rfl⟩ := hc.awaits
    have hlt : h < c := hc.lt _ (.head _)
    exact absurd hlate (by simp [lateSuspend, Heap.get_cons_ne (Nat.ne_of_gt hlt)])
  | caller => exact absurd hlate (by simp [lateSuspend])
  | walking => exact absurd hlate (by simp [lateSuspend])
  | back => exact absurd hlate (by simp [lateSuspend])

/-! ### No stale `nextHandle` -/

/-- **In every run without such a suspension, `nextStep` touches no destroyed coroutine
and resumes none that is done**; behind every such suspension it touches one. -/
theorem never_stale (next : C → CoInstr ε C) (c : C) :
    (∀ m, (system next c).ReachableBy (fun m _ => lateSuspend next m = false) m →
      m.co.failed = none) ∧
    (∀ m, (system next c).ReachableBy (fun m _ => lateSuspend next m = false) m →
      lateSuspend next m = true →
      ∃ m', Steps (nextStep next) m m' ∧ m'.co.failed = some .destroyed) := by
  have hgood : ∀ m, (system next c).ReachableBy (fun m _ => lateSuspend next m = false) m →
      Good m := fun m hm =>
    hm.invariant (good_call c) fun _ _ _ hs hok hst => good_step hs hok hst
  exact ⟨fun m hm => (hgood m hm).failed, fun m hm => stale_of_suspend (hgood m hm)⟩

/-- A body that is suspended behind its `co_await`. -/
def awaitThenSuspend : Body Unit Unit Unit Nothing :=
  .await () (.coReturn ()) fun _ => .suspend (.coReturn ())

/-- A body that is suspended in front of its `co_await`. -/
def suspendThenAwait : Body Unit Unit Unit Nothing :=
  .suspend (.await () (.coReturn ()) fun _ => .coReturn ())

theorem stale_nextHandle :
    ¬ ∀ m, (system Body.next awaitThenSuspend).Reachable m → m.co.failed = none := by
  intro h
  obtain ⟨m, hm, hf⟩ := System.exists_reachable (M := system Body.next awaitThenSuspend)
    (p := fun m => m.co.failed == some .destroyed) (List.replicate 16 ()) (by rfl)
  simp [h m hm] at hf

theorem never_stale_suspendThenAwait : ∃ m : Machine Unit (Body Unit Unit Unit Nothing),
    (system Body.next suspendThenAwait).ReachableBy (fun m _ => lateSuspend Body.next m = false) m ∧
      m.calls.length = 4 ∧ m.co.failed = none := by
  obtain ⟨m, hm, hcalls⟩ := System.exists_reachableBy (M := system Body.next suspendThenAwait)
    (fun m _ => !lateSuspend Body.next m) (p := fun m => m.calls.length == 4)
    (List.replicate 18 ()) (by rfl) (by rfl)
  have hm : (system Body.next suspendThenAwait).ReachableBy
      (fun m _ => lateSuspend Body.next m = false) m := hm.mono (by simp)
  exact ⟨m, hm, by simpa using hcalls, (never_stale Body.next suspendThenAwait).1 m hm⟩

end Cpp20Examples.StateMachine
