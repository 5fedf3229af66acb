import Cpp20Examples.Concurrency.Queues.Fifo

/-!
# `monitorObject`: the gap between the test and the removal

`ThreadSafeQueue::get` tests the queue in `wait`, which gives the mutex back, and
locks it again to remove a value.  Several consumers may pass the test for one
value: then a removal finds the queue empty (`get_removes_from_empty`).

What a consumer needs is a value that no other consumer past its test will take.
`testsSpare` says that a test is passed only in such a state, and in the runs
that meet it at every step the queue is as safe as the ones that hold their lock
(`get_safe`): the consumers past their test are never more than the values.
-/

namespace Cpp20Examples.Queues

open Lib Lib.Monitor

variable {α β ℓ : Type}

/-- One for a consumer between its passed test and its removal. -/
def committed (th : QThread α β ℓ) : Nat :=
  match th.code with
  | .unlock :: .lock :: .exec .front :: _ => 1
  | .lock :: .exec .front :: _ => 1
  | .exec .front :: _ => 1
  | .exec .pop :: _ => 1
  | _ => 0

/-- A consumer at the test of its wait. -/
def atTest (th : QThread α β ℓ) : Bool :=
  (th.status = .running || th.status = .retesting) &&
    match th.code with
    | .wait _ _ :: _ => true
    | _ => false

/-- A consumer passes its test only while there are more values than consumers
past theirs. -/
def testsSpare (s : QState α β ℓ) : Act → Bool
  | .run t _ =>
    match s.threads[t]? with
    | some th => !atTest th || s.data.contents.isEmpty ||
        decide (total committed s.threads < s.data.contents.length)
    | none => true
  | .spurious _ => true

/-! ### The count of the consumers past their test -/

def Client.committed (c : Client α β ℓ) : Nat :=
  match c.phase with
  | .gapUnlock | .gapLock | .front | .pop => 1
  | _ => 0

theorem committed_thread (c : Client α β ℓ) :
    Queues.committed (c.thread true) = c.committed := by
  obtain ⟨q, calls, v⟩ := c
  have hcalls : Queues.committed (⟨(methods true).program calls, .running, v⟩ : QThread α β ℓ) = 0 ∧
      Queues.committed
        (⟨.unlock :: (methods true).program calls, .running, v⟩ : QThread α β ℓ) = 0 := by
    cases calls with
    | nil => exact ⟨rfl, rfl⟩
    | cons k calls => cases k <;> exact ⟨rfl, rfl⟩
  cases q with
  | idle => exact hcalls.1
  | popUnlock => exact hcalls.2
  | _ => rfl

theorem total_committed (q : PState α β ℓ) :
    total Queues.committed (q.state true).threads = total Client.committed q.clients := by
  simp [total, PState.state, Function.comp_def, committed_thread]

/-- The invariant of the runs whose tests are spare. -/
structure Spare (q : PState α β ℓ) : Prop extends History q where
  safe : q.fault = false
  spare : total Client.committed q.clients ≤ q.data.contents.length

theorem lt_of_testsSpare {q : PState α β ℓ} {t w : Nat} {st : Status Unit}
    {calls : List (Call α β ℓ)} {v : Vars α ℓ}
    (hc : q.clients[t]? = some ⟨.test st, calls, v⟩) (hst : st = .running ∨ st = .retesting)
    (hne : q.data.contents ≠ []) (hok : testsSpare (q.state true) (.run t w) = true) :
    total Client.committed q.clients < q.data.contents.length := by
  have hth : (q.state true).threads[t]? = some (Client.thread true ⟨.test st, calls, v⟩) := by
    simp [PState.state, hc]
  have hat : atTest (Client.thread true ⟨.test st, calls, v⟩) = true := by
    rcases hst with rfl | rfl <;> rfl
  simp only [testsSpare, hth, hat, Bool.not_true, Bool.false_or, Bool.or_eq_true,
    List.isEmpty_iff, decide_eq_true_eq, total_committed] at hok
  exact hok.resolve_left hne

theorem Spare.set {q : PState α β ℓ} (h : Spare q) {t : Nat} {c : Client α β ℓ}
    (hc : q.clients[t]? = some c) (d : Client α β ℓ) (hle : d.committed ≤ c.committed) :
    total Client.committed (q.clients.set t d) ≤ q.data.contents.length := by
  have htot := total_set Client.committed hc d
  have := h.spare
  omega

/-- **A step with spare tests keeps a value for every consumer past its test.** -/
theorem spare_step {q q' : PState α β ℓ} {a : Act} (h : Spare q)
    (ho : Ownership (q.state true).owner (q.state true).threads)
    (hok : testsSpare (q.state true) a = true) (hst : Step true q a q') : Spare q' := by
  refine ⟨history_step h.toHistory ho hst, ?_, ?_⟩
  · cases hst with
    | @fault t w c hc hph hd =>
      -- the consumer itself is committed, so the queue is not empty
      have hle := le_total Client.committed hc
      have hone : c.committed = 1 := by
        rcases hph with hph | hph <;> simp only [Client.committed, hph]
      have := h.spare
      rw [hd, List.length_nil] at this
      omega
    | _ => exact h.safe
  · cases hst with
    | addLock hc _ => exact h.set hc _ (by simp [Client.committed])
    | removeLock hc _ => exact h.set hc _ (by simp [Client.committed])
    | other hc => exact h.set hc _ (by simp [Client.committed])
    | @push t w number calls v hc =>
      have := h.set hc ⟨.pushUnlock, calls, v⟩ (by simp [Client.committed])
      simp only [List.length_append, PState.set_clients]
      omega
    | pushUnlock hc => exact h.set hc _ (by simp [Client.committed])
    | @notify t w calls calls' v v' hc hw =>
      have hset := h.set hc ⟨.idle, calls, v⟩ (by simp [Client.committed])
      have htot := total_set Client.committed (sleeper_set hc hw ⟨.idle, calls, v⟩)
        ⟨.test .woken, calls', v'⟩
      simp only [Client.committed] at htot
      simp only [PState.set_data, PState.set_clients]
      omega
    | notifyNone hc _ => exact h.set hc _ (by simp [Client.committed])
    | @pass t w st calls v hc hs hne =>
      have hlt := lt_of_testsSpare hc hs hne hok
      have htot := total_set Client.committed hc ⟨.gapUnlock, calls, v⟩
      simp only [Client.committed] at htot
      simp only [Phase.passed, if_true, PState.set_data, PState.set_clients]
      omega
    | sleep hc _ _ => exact h.set hc _ (by simp [Client.committed])
    | retest hc _ => exact h.set hc _ (by simp [Client.committed])
    | gapUnlock hc => exact h.set hc _ (by simp [Client.committed])
    | gapLock hc _ => exact h.set hc _ (by simp [Client.committed])
    | front hc _ => exact h.set hc _ (by simp [Client.committed])
    | @pop t w x xs calls v hc hd =>
      have htot := total_set Client.committed hc ⟨.popUnlock, calls, v⟩
      have := h.spare
      simp only [Client.committed] at htot
      simp only [hd, List.length_cons] at this
      simp only [PState.set_clients]
      omega
    | fault hc _ _ => exact h.spare
    | popUnlock hc => exact h.set hc _ (by simp [Client.committed])
    | spurious hc => exact h.set hc _ (by simp [Client.committed])

theorem spare_start (rest : β) (clients : List (ℓ × List (Call α β ℓ))) :
    Spare (PState.start rest clients) := by
  refine ⟨history_start rest clients, rfl, ?_⟩
  rw [total_eq_zero]
  · exact Nat.zero_le _
  · intro c hm
    obtain ⟨_, _, rfl⟩ := List.mem_map.mp hm
    rfl

/-- **`get` is safe when its tests are spare.**  In every run of which each test
is passed only while there are more values than consumers past their test, no
removal is made from an empty queue, and the values that the removals return,
followed by the contents, are the values added. -/
theorem get_safe (d : LockReleasing) (rest : β) (clients : List (ℓ × List (Call α β ℓ)))
    {s : QState α β ℓ}
    (hs : (d.methods.system rest clients).ReachableBy (fun s a => testsSpare s a) s) :
    s.fault = false ∧ s.data.removed ++ s.data.contents = s.data.added := by
  rw [d.methods_eq] at hs
  obtain ⟨q, hq, -, rfl⟩ := reachable_phases (spare_start rest clients)
    (fun q a q' h ho hok hst => spare_step h ho hok hst) hs
  exact ⟨hq.safe, hq.order⟩

/-- Two values and two consumers, who both pass their test before they remove. -/
theorem get_safe_two :
    ∃ s : QState Nat Unit Unit,
      (LockReleasing.monitorObject.methods.system ()
        [((), [.add fun _ => 5, .add fun _ => 6]), ((), [.remove]), ((), [.remove])]).ReachableBy
        (fun s a => testsSpare s a) s ∧
      s.data.removed = [5, 6] ∧
      s.fault = false ∧ s.data.removed ++ s.data.contents = s.data.added := by
  obtain ⟨s, hs, hp⟩ := System.exists_reachableBy
    (M := LockReleasing.monitorObject.methods.system ()
      [((), [.add fun _ => (5 : Nat), .add fun _ => 6]), ((), [.remove]), ((), [.remove])])
    (p := fun s => s.data.removed == [5, 6]) testsSpare
    (List.replicate 8 (.run 0 0) ++ List.replicate 3 (.run 1 0) ++ List.replicate 3 (.run 2 0) ++
      List.replicate 4 (.run 1 0) ++ List.replicate 4 (.run 2 0)) (by decide) (by decide)
  exact ⟨s, hs, by simpa using hp, get_safe .monitorObject () _ hs⟩

/-- **Two consumers pass their test for one value**, and the second removal finds
the queue empty.  No critical section is interrupted. -/
theorem get_removes_from_empty :
    ¬ ∀ (clients : List (Unit × List (Call Nat Unit Unit))) (s : QState Nat Unit Unit),
      (LockReleasing.monitorObject.methods.system () clients).ReachableBy
        (fun s a => Uninterrupted s a) s → s.fault = false := by
  intro h
  obtain ⟨s, hs, hp⟩ := System.exists_reachableBy
    (M := LockReleasing.monitorObject.methods.system ()
      [((), [.add fun _ => (5 : Nat)]), ((), [.remove]), ((), [.remove])])
    (p := fun s => s.fault) Uninterrupted
    (List.replicate 4 (.run 0 0) ++ List.replicate 3 (.run 1 0) ++ List.replicate 3 (.run 2 0) ++
      List.replicate 4 (.run 1 0) ++ List.replicate 2 (.run 2 0)) (by decide) (by decide)
  exact absurd (h _ s hs) (by simp [hp])

end Cpp20Examples.Queues
