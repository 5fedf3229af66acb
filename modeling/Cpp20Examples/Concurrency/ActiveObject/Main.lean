import Cpp20Examples.Concurrency.ActiveObject.Servant

/-!
# `activeObject`, from the clients to the numbers that `main` prints

* `good_of_reachable`: the invariant of `Servant` holds in every interleaving.
* `exists_canRun`: until `run` returns, a thread can move.
* `activeObject_correct`: `run` returns, the tasks that were enqueued before it began are
  then executed, and `main` splits their results into primes and other numbers.
-/

namespace Cpp20Examples.ActiveObject

open Lib Lib.Monitor

/-- The servant has ended, and so `run` returns. -/
def Returned (s : AState) : Prop := ∃ th, s.threads[0]? = some th ∧ th.code = []

/-- `fut.get()` on all futures; `none` where one of them would wait. -/
def futResults (clients : List (List Int)) (d : Shared) : Option (List (Bool × Int)) :=
  (allJobs clients).mapM fun j => d.futures j.future

/-! ### The start -/

theorem balanced_program (jobs : List Job) : Balanced false (program jobs) := by
  apply Balanced.flatten
  intro c hc
  obtain ⟨j, -, rfl⟩ := List.mem_map.mp hc
  simp [enqueueTask]

theorem balanced_run : Balanced false run := by
  simp [run, isEmpty, loop, dequeueTask]

theorem ownership_init (clients : List (List Int)) :
    Ownership (system clients).init.owner (system clients).init.threads := by
  refine ownership ?_ (System.ReachableBy.init : (system clients).Reachable _)
  intro th hth
  rcases List.mem_cons.mp hth with rfl | hth
  · exact ⟨rfl, balanced_run⟩
  · obtain ⟨c, hc, rfl⟩ := List.mem_mapIdx.mp hth
    exact ⟨rfl, balanced_program _⟩

theorem map_mapIdx {α β γ : Type} (f : Nat → α → β) (g : β → γ) (l : List α) :
    (l.mapIdx f).map g = l.mapIdx fun k a => g (f k a) :=
  List.ext_getElem (by simp) fun k _ _ => by simp

theorem total_owes (clients : List (List Int)) (x : Job) :
    total (owes x) (system clients).init.threads = (allJobs clients).count x := by
  have hservant : owes x ⟨run, .running, ()⟩ = 0 := pushes_servant x .begin
  have hclients : ((clients.mapIdx fun c is =>
      (⟨program (jobsOf c is), .running, ()⟩ : AThread)).map (owes x)) =
      (clients.mapIdx jobsOf).map (List.count x) := by
    simp only [map_mapIdx, owes, pushes_program]
  rw [allJobs, List.count_flatten, ← hclients, ← Nat.zero_add (List.sum _), ← hservant]
  exact List.sum_cons

theorem good_init (clients : List (List Int)) :
    ∃ n, Good clients n (system clients).init := by
  refine ⟨bound .begin (system clients).init, ownership_init clients, rfl, ?_, ?_, ?_, ?_⟩
  · exact ⟨rfl, List.nodup_nil, by simp [system, Monitor.system], List.prefix_refl _,
      by simp [system, Monitor.system], fun _ _ => rfl⟩
  · exact ⟨.begin, rfl, rfl, Nat.le_refl _⟩
  · intro t th hth
    obtain ⟨c, hc, rfl⟩ := List.mem_mapIdx.mp (List.mem_of_getElem? hth)
    exact ⟨rfl, _, .inl rfl⟩
  · intro x
    rw [total_owes]
    exact Nat.zero_add _

section Reachable

variable {clients : List (List Int)} {s s' : AState}

theorem good_of_reachable (hrange : InRange clients) (hs : (system clients).Reachable s) :
    ∃ n, Good clients n s := by
  refine hs.invariant (I := fun s => ∃ n, Good clients n s) (good_init clients)
    ?_
  intro s a s' hg _ hst
  obtain ⟨n, hg⟩ := hg
  obtain ⟨m, -, hg'⟩ := good_step hrange hg hst
  exact ⟨m, hg'⟩

theorem length_le (hrange : InRange clients) {n : Nat} (hg : Good clients n s) {as : List Act}
    (hrun : (system clients).run s as = some s') : as.length ≤ n := by
  refine System.length_le_of_bound (B := Good clients) ?_ hg hrun
  intro n s a s' hg hst
  exact good_step hrange hg hst

/-! ### Some thread can move -/

theorem canRun_of_instr {n t : Nat} {c : ACode} {v : Unit} (hg : Good clients n s)
    (hth : s.threads[t]? = some ⟨c, .running, v⟩) (h : (instr sem s t 0 v c).isSome = true) :
    CanRun sem s t := by
  apply canRun_of_isSome (w := 0)
  simpa [Monitor.step, hg.safe, hth, stepThread] using h

theorem isSome_exec {t w : Nat} {v : Unit} (o : Op) (c : ACode) :
    (instr sem s t w v (.exec o :: c)).isSome = true := by
  simp only [instr]
  split <;> rfl

theorem isSome_unlock {t w : Nat} {v : Unit} (c : ACode) :
    (instr sem s t w v (.unlock :: c)).isSome = true := by
  simp only [instr]
  split <;> rfl

/-- While the mutex is free, the servant can move; else its owner can. -/
theorem exists_canRun {n : Nat} (hg : Good clients n s)
    (howner : ∀ u, s.owner = some u → u < s.threads.length) (hrun : ¬ Returned s) :
    ∃ t, CanRun sem s t := by
  obtain ⟨ph, hph, -⟩ := hg.servant
  have hself := hg.own 0 _ hph
  cases ho : s.owner with
  | none =>
    refine ⟨0, canRun_of_instr hg hph ?_⟩
    cases ph with
    | ended => exact absurd ⟨_, hph, rfl⟩ hrun
    | begin | readEmpty | dequeue | execute => exact isSome_exec _ _
    | unlockEmpty | unlockDequeue => exact isSome_unlock _
    | lockEmpty | lockDequeue => simp [Phase.code, isEmpty, dequeueTask, instr, ho]
    | test => rfl
  | some u =>
    have hu := howner u ho
    have hth := List.getElem?_eq_getElem hu
    have hin := hg.own u _ hth
    cases u with
    | zero =>
      -- the servant is inside a section
      refine ⟨0, canRun_of_instr hg hph ?_⟩
      simp only [Holds, ho, decide_true] at hself
      cases ph with
      | begin | readEmpty | dequeue | execute => exact isSome_exec _ _
      | unlockEmpty | unlockDequeue => exact isSome_unlock _
      | test => rfl
      | ended => exact absurd hself (by simp [Phase.code])
      | lockEmpty | lockDequeue => exact absurd hself (by simp [Phase.code, isEmpty, dequeueTask])
    | succ t =>
      -- a client is
      obtain ⟨hstatus, jobs, hcode⟩ := hg.clients_at t _ hth
      generalize s.threads[t + 1] = th at hth hin hstatus hcode
      obtain ⟨c, st, v⟩ := th
      obtain rfl : st = .running := hstatus
      refine ⟨t + 1, canRun_of_instr hg hth ?_⟩
      simp only [Holds, ho, decide_true] at hin
      rcases hcode with rfl | ⟨j, rfl⟩ | rfl
      · cases (balanced_program jobs).unique hin
      · exact isSome_exec _ _
      · exact isSome_unlock _

/-! ### The results -/

/-- When `run` returns, all that was enqueued before it began is executed. -/
theorem Good.executed {n : Nat} (hg : Good clients n s) (hret : Returned s) :
    s.data.begun <+: s.data.executed := by
  obtain ⟨ph, hph, hknows, -⟩ := hg.servant
  obtain ⟨th, hth, hcode⟩ := hret
  obtain rfl := Option.some.inj (hph.symm.trans hth)
  cases ph with
  | ended => exact hknows
  | _ => cases hcode

theorem mapM_of_forall {α β : Type} {f : α → Option β} {g : α → β} {l : List α}
    (h : ∀ a ∈ l, f a = some (g a)) : l.mapM f = some (l.map g) := by
  induction l with
  | nil => rfl
  | cons a l ih =>
    rw [List.mapM_cons, h a (List.mem_cons_self ..), ih fun b hb => h b (List.mem_cons_of_mem a hb)]
    rfl

theorem map_i_allJobs (clients : List (List Int)) :
    (allJobs clients).map (fun j => j.i) = clients.flatten := by
  have hnumbers : ∀ {α : Type} (l : List α), l.mapIdx (fun _ a => a) = l := fun l =>
    List.ext_getElem (by simp) fun k _ _ => by simp
  have hclient : ∀ (c : Nat) (is : List Int), (jobsOf c is).map (fun j => j.i) = is := by
    intro c is
    simp only [jobsOf, map_mapIdx, hnumbers]
  simp only [allJobs, List.map_flatten, map_mapIdx, hclient, hnumbers]

theorem futResults_eq {d : Shared}
    (h : ∀ j ∈ allJobs clients, d.futures j.future = some (value j.i)) :
    futResults clients d = some (clients.flatten.map value) := by
  rw [futResults, mapM_of_forall (g := fun j => value j.i) h, ← map_i_allJobs, List.map_map]
  rfl

/-- **The active object.**  In every interleaving of the clients and the servant: no
operation is outside its domain, so `front()` is not taken of an empty list; the tasks are
executed in the order of the list, each once; and `run` returns, because the threads have
finitely many steps left and one of them can move.  Then the tasks that were enqueued
before `run` began are executed, and when these are all, `main` splits the numbers. -/
theorem activeObject_correct (hrange : InRange clients) (hs : (system clients).Reachable s) :
    s.fault = false ∧
    s.data.pushed = s.data.executed ++ s.data.myTask.toList ++ s.data.activationList ∧
    s.data.pushed.Nodup ∧
    (∃ n, ∀ as s', (system clients).run s as = some s' → as.length ≤ n) ∧
    (Returned s ∨ ∃ t, CanRun sem s t) ∧
    (Returned s → ∀ j ∈ s.data.begun, s.data.futures j.future = some (value j.i)) ∧
    (Returned s → (∀ j ∈ allJobs clients, j ∈ s.data.begun) →
      ∃ results, futResults clients s.data = some results ∧
        (split results).2.Pairwise (· ≤ ·) ∧
        (split results).2.Perm (clients.flatten.filter fun i => i.toNat.Prime) ∧
        (split results).1.Pairwise (· ≤ ·) ∧
        (split results).1.Perm (clients.flatten.filter fun i => ¬ i.toNat.Prime)) := by
  obtain ⟨n, hg⟩ := good_of_reachable hrange hs
  have hbegun : Returned s → ∀ j ∈ s.data.begun, s.data.futures j.future = some (value j.i) :=
    fun hret j hj => hg.books.fulfilled j ((hg.executed hret).subset hj)
  refine ⟨hg.safe, hg.books.order, hg.books.nodup, ⟨n, fun as s' => length_le hrange hg⟩,
    or_iff_not_imp_left.mpr (exists_canRun hg (owner_lt hs)), hbegun, ?_⟩
  intro hret hall
  have hresults := futResults_eq fun j hj => hbegun hret j (hall j hj)
  obtain ⟨hno, hnop, hyes, hyesp⟩ := split_results (fun i => i.toNat.Prime) clients.flatten
  refine ⟨_, hresults, hyes, hyesp, hno, ?_⟩
  simp only [decide_not]
  exact hnop

end Reachable

/-- Two clients enqueue one number each, then `run` executes both tasks. -/
theorem activeObject_correct_primes :
    ∃ s, (system [[1000003], [1000002]]).Reachable s ∧ s.fault = false ∧
      s.data.executed = allJobs [[1000003], [1000002]] ∧
      ∃ results, futResults [[1000003], [1000002]] s.data = some results ∧
        (split results).2.Perm ([1000003, 1000002].filter fun i : Int => i.toNat.Prime) := by
  obtain ⟨s, hs, hp⟩ := System.exists_reachable (M := system [[1000003], [1000002]])
    (p := fun s => s.threads[0]?.any (fun th => th.code.isEmpty) &&
      decide (s.data.begun = allJobs [[1000003], [1000002]] ∧
        s.data.executed = allJobs [[1000003], [1000002]]))
    ((List.replicate 3 1 ++ List.replicate 3 2 ++ List.replicate 21 0).map fun t => .run t 0)
    (by decide +kernel)
  simp only [Bool.and_eq_true, decide_eq_true_eq, Option.any_eq_true, List.isEmpty_iff] at hp
  obtain ⟨hret, hbegun, hexecuted⟩ := hp
  have hrange : InRange [[1000003], [1000002]] := by simp [InRange]
  obtain ⟨hfault, -, -, -, -, -, hmain⟩ := activeObject_correct hrange hs
  obtain ⟨results, hresults, -, hprimes, -⟩ := hmain hret fun j hj => hbegun ▸ hj
  exact ⟨s, hs, hfault, hexecuted, results, hresults, hprimes⟩

end Cpp20Examples.ActiveObject
