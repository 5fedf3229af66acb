import Cpp20Examples.Concurrency.Queues.Phases

/-!
# No lost wake-up

The notification of a push is sent behind the unlock, so other threads push,
take and fall asleep between the two.  What keeps the sleepers safe is a count:
while a consumer sleeps, there are no more values than threads that are about to
deal with one (`Client.credit`), which are the producers between their push and
their notification, the consumers that were woken, and the one that has passed
its test.  A value comes with its producer, a notification turns its producer
into a woken consumer, and a woken consumer either takes a value or finds none.

`LostWakeup` is the state in which a value and a sleeper are left to themselves.
`no_lost_wakeup` says of the queues that hold their lock over the removal that it
is not reached while the mutex is free; while the mutex is owned, its owner is
then about to remove the value.
-/

namespace Cpp20Examples.Queues

open Lib Lib.Monitor

variable {α β ℓ : Type}

/-! ### The state with a lost wake-up -/

/-- A producer between its push and its notification. -/
def owesNotify (th : QThread α β ℓ) : Bool :=
  match th.code with
  | .unlock :: .notifyOne _ :: _ => true
  | .notifyOne _ :: _ => true
  | _ => false

/-- A consumer that was woken and has not tested again. -/
def notRetested (th : QThread α β ℓ) : Bool :=
  th.status = .woken || th.status = .retesting

/-- A consumer that has passed its test and has not removed its value yet. -/
def midRemoval (th : QThread α β ℓ) : Bool :=
  match th.code with
  | .exec .front :: _ => true
  | .exec .pop :: _ => true
  | _ => false

/-- A value is there, a consumer sleeps, and no thread is on its way to wake it
or to test again. -/
structure LostWakeup (s : QState α β ℓ) : Prop where
  nonempty : s.data.contents ≠ []
  asleep : ∃ th ∈ s.threads, th.status = .asleep ()
  noNotify : ∀ th ∈ s.threads, owesNotify th = false
  noRetest : ∀ th ∈ s.threads, notRetested th = false

/-! ### The count -/

/-- One for a client that will deal with a value. -/
def Client.credit (c : Client α β ℓ) : Nat :=
  match c.phase with
  | .pushUnlock | .notify | .test .woken | .test .retesting | .front | .pop => 1
  | _ => 0

/-- A client sleeps in the wait. -/
def Sleeper (clients : List (Client α β ℓ)) : Prop :=
  ∃ c ∈ clients, c.phase = .test (.asleep ())

/-- While a client sleeps, every value has a client that will deal with it. -/
def Covered (q : PState α β ℓ) : Prop :=
  Sleeper q.clients → q.data.contents.length ≤ total Client.credit q.clients

theorem Sleeper.of_set {clients : List (Client α β ℓ)} {t : Nat} {c : Client α β ℓ}
    (h : Sleeper (clients.set t c)) (hc : c.phase ≠ .test (.asleep ())) : Sleeper clients := by
  obtain ⟨d, hd, hp⟩ := h
  rcases List.mem_or_eq_of_mem_set hd with hd | rfl
  · exact ⟨d, hd, hp⟩
  · exact absurd hp hc

theorem Covered.set {q : PState α β ℓ} (h : Covered q) {t : Nat} {c : Client α β ℓ}
    (hc : q.clients[t]? = some c) {c' : Client α β ℓ} (hp : c'.phase ≠ .test (.asleep ()))
    (hle : c.credit ≤ c'.credit) : Sleeper (q.clients.set t c') →
      q.data.contents.length ≤ total Client.credit (q.clients.set t c') := by
  intro hs
  have hlen := h (hs.of_set hp)
  have htot := total_set Client.credit hc c'
  omega

/-- **Every step keeps the values covered while a client sleeps.** -/
theorem covered_step {q q' : PState α β ℓ} {a : Act} (h : Covered q)
    (hst : Step false q a q') : Covered q' := by
  cases hst with
  | addLock hc _ => exact h.set hc (by simp) (by simp [Client.credit])
  | removeLock hc _ => exact h.set hc (by simp) (by simp [Client.credit])
  | other hc => exact h.set hc (by simp) (by simp [Client.credit])
  | @push t w number calls v hc =>
    intro hs
    have hlen := h (hs.of_set (by simp))
    have htot := total_set Client.credit hc ⟨.pushUnlock, calls, v⟩
    simp only [Client.credit] at htot
    simp only [List.length_append, List.length_singleton, PState.set_clients]
    omega
  | pushUnlock hc => exact h.set hc (by simp) (by simp [Client.credit])
  | @notify t w calls calls' v v' hc hw =>
    intro _
    have hlen := h ⟨_, List.mem_of_getElem? hw, rfl⟩
    have htot := total_set Client.credit hc ⟨.idle, calls, v⟩
    have htot' := total_set Client.credit (sleeper_set hc hw ⟨.idle, calls, v⟩)
      ⟨.test .woken, calls', v'⟩
    simp only [Client.credit] at htot htot'
    simp only [PState.set_data, PState.set_clients]
    omega
  | notifyNone hc hnone =>
    intro hs
    obtain ⟨c, hc, hp⟩ := hs.of_set (by simp)
    exact absurd hp (hnone c hc)
  | pass hc hst _ =>
    apply h.set hc (by simp [Phase.passed])
    rcases hst with rfl | rfl <;> simp [Client.credit, Phase.passed]
  | sleep hc _ he => exact fun _ => by simp [he]
  | retest hc _ => exact h.set hc (by simp) (by simp [Client.credit])
  | gapUnlock hc => exact h.set hc (by simp) (by simp [Client.credit])
  | gapLock hc _ => exact h.set hc (by simp) (by simp [Client.credit])
  | front hc _ => exact h.set hc (by simp) (by simp [Client.credit])
  | @pop t w x xs calls v hc hd =>
    intro hs
    have hlen := h (hs.of_set (by simp))
    have htot := total_set Client.credit hc ⟨.popUnlock, calls, v⟩
    simp only [Client.credit] at htot
    simp only [hd, List.length_cons] at hlen
    simp only [PState.set_clients]
    omega
  | fault hc _ _ => exact h
  | popUnlock hc => exact h.set hc (by simp) (by simp [Client.credit])
  | spurious hc => exact h.set hc (by simp) (by simp [Client.credit])

theorem covered_start (rest : β) (clients : List (ℓ × List (Call α β ℓ))) :
    Covered (PState.start rest clients) := fun _ => Nat.zero_le _

theorem credit_thread {c : Client α β ℓ} (h : 0 < c.credit) :
    owesNotify (c.thread false) = true ∨ notRetested (c.thread false) = true ∨
      midRemoval (c.thread false) = true := by
  obtain ⟨q, calls, v⟩ := c
  cases q with
  | pushUnlock => exact .inl rfl
  | notify => exact .inl rfl
  | front => exact .inr (.inr rfl)
  | pop => exact .inr (.inr rfl)
  | test st =>
    cases st with
    | woken => exact .inr (.inl rfl)
    | retesting => exact .inr (.inl rfl)
    | running => exact absurd h (by simp [Client.credit])
    | asleep cv => exact absurd h (by simp [Client.credit])
  | _ => exact absurd h (by simp [Client.credit])

theorem exists_credit {clients : List (Client α β ℓ)} (h : 0 < total Client.credit clients) :
    ∃ c ∈ clients, 0 < c.credit := by
  by_contra hno
  push Not at hno
  have := total_eq_zero (w := Client.credit) fun c hc => Nat.le_zero.mp (hno c hc)
  omega

theorem phase_of_midRemoval {c : Client α β ℓ} (h : midRemoval (c.thread false) = true) :
    c.phase = .front ∨ c.phase = .pop := by
  obtain ⟨q, calls, v⟩ := c
  cases q with
  | front => exact .inl rfl
  | pop => exact .inr rfl
  | idle => cases calls with
    | nil => exact absurd h (by simp [midRemoval, Client.thread, Phase.code, Methods.program])
    | cons k calls => cases k <;> exact absurd h (by
        simp [midRemoval, Client.thread, Phase.code, Methods.program, Methods.call, Queues.methods,
          threadSafeQueue, ThreadSafeQueue.addNumber, ThreadSafeQueue.makeLockWithNotify,
          ThreadSafeQueue.removeNumber, ThreadSafeQueue.makeLockWithWait])
  | _ => exact absurd h (by simp [midRemoval, Client.thread, Phase.code])

theorem owner_of_midRemoval {q : PState α β ℓ}
    (ho : Ownership (q.state false).owner (q.state false).threads) {t : Nat} {c : Client α β ℓ}
    (hc : q.clients[t]? = some c) (hm : midRemoval (c.thread false) = true) :
    q.owner = some t := by
  rcases phase_of_midRemoval hm with hp | hp <;>
    exact owner_eq ho hc (by rw [hp]; rfl) (by rw [hp]; exact .inl rfl)

/-- Only in front of a removal, by the owner of the mutex, is nobody on the way. -/
theorem owner_of_lostWakeup {q : PState α β ℓ} (hcov : Covered q)
    (ho : Ownership (q.state false).owner (q.state false).threads)
    (hl : LostWakeup (q.state false)) :
    ∃ t th, (q.state false).threads[t]? = some th ∧ (q.state false).owner = some t ∧
      midRemoval th = true := by
  have hthreads : ∀ c ∈ q.clients, c.thread false ∈ (q.state false).threads := by
    intro c hc
    exact List.mem_map_of_mem hc
  have hsleeper : Sleeper q.clients := by
    obtain ⟨th, hth, hst⟩ := hl.asleep
    obtain ⟨c, hc, rfl⟩ := List.mem_map.mp hth
    exact ⟨c, hc, (sleepsOn_thread false c).mp (by simpa [Thread.sleepsOn] using hst)⟩
  have hpos : 0 < total Client.credit q.clients :=
    lt_of_lt_of_le (List.length_pos_of_ne_nil hl.nonempty) (hcov hsleeper)
  obtain ⟨c, hc, hcredit⟩ := exists_credit hpos
  have hm : midRemoval (c.thread false) = true := by
    rcases credit_thread hcredit with h | h | h
    · exact absurd h (by simp [hl.noNotify _ (hthreads c hc)])
    · exact absurd h (by simp [hl.noRetest _ (hthreads c hc)])
    · exact h
  obtain ⟨t, ht⟩ := List.mem_iff_getElem?.mp hc
  exact ⟨t, c.thread false, by simp [PState.state, ht], owner_of_midRemoval ho ht hm, hm⟩

/-- **No wake-up is lost.**  In every reachable state of a queue that holds its
lock over the removal: between the critical sections no wake-up is lost, and
inside one the only values that no thread is on its way to are those that the
owner of the mutex is about to remove. -/
theorem no_lost_wakeup (d : LockHolding) (rest : β) (clients : List (ℓ × List (Call α β ℓ)))
    {s : QState α β ℓ} (hs : (d.methods.system rest clients).Reachable s) :
    (s.owner = none → ¬ LostWakeup s) ∧
      (LostWakeup s →
        ∃ t th, s.threads[t]? = some th ∧ s.owner = some t ∧ midRemoval th = true) := by
  rw [d.methods_eq] at hs
  obtain ⟨q, hcov, ho, rfl⟩ := reachable_phases (covered_start rest clients)
    (fun q a q' h _ _ hst => covered_step h hst) hs
  refine ⟨?_, owner_of_lostWakeup hcov ho⟩
  intro hnone hl
  obtain ⟨t, th, _, hown, _⟩ := owner_of_lostWakeup hcov ho hl
  exact absurd (hnone.symm.trans hown) (by simp)

/-- A consumer sleeps, and a producer has unlocked behind its push. -/
theorem no_lost_wakeup_pending :
    ∃ s : QState Nat Unit Unit,
      (LockHolding.threadSafeQueue.methods.system ()
        [((), [.remove]), ((), [.add fun _ => 7])]).Reachable s ∧
      s.data.contents = [7] ∧ s.owner = none ∧ ¬ LostWakeup s := by
  obtain ⟨s, hs, hp⟩ := System.exists_reachable
    (M := LockHolding.threadSafeQueue.methods.system ()
      [((), [.remove]), ((), [.add fun _ => (7 : Nat)])])
    (p := fun s => s.data.contents == [7] && s.owner == none)
    [.run 0 0, .run 0 0, .run 1 0, .run 1 0, .run 1 0] (by decide)
  simp only [Bool.and_eq_true, beq_iff_eq] at hp
  exact ⟨s, hs, hp.1, hp.2, (no_lost_wakeup .threadSafeQueue () _ hs).1 hp.2⟩

/-- A woken consumer has passed its test, and another one still sleeps: the value
is there until the removal, under the same lock. -/
theorem lost_wakeup_mid_removal :
    ¬ ∀ (clients : List (Unit × List (Call Nat Unit Unit))) (s : QState Nat Unit Unit),
      (LockHolding.threadSafeQueue.methods.system () clients).Reachable s → ¬ LostWakeup s := by
  intro h
  obtain ⟨s, hs, hp⟩ := System.exists_reachable
    (M := LockHolding.threadSafeQueue.methods.system ()
      [((), [.remove]), ((), [.remove]), ((), [.add fun _ => (7 : Nat)])])
    (p := fun s => !s.data.contents.isEmpty && s.threads.any (Thread.sleepsOn ()) &&
      s.threads.all fun th => !owesNotify th && !notRetested th)
    (List.replicate 2 (.run 0 0) ++ List.replicate 2 (.run 1 0) ++ List.replicate 4 (.run 2 0) ++
      List.replicate 2 (.run 0 0)) (by decide)
  simp only [Bool.and_eq_true, Bool.not_eq_true', List.isEmpty_eq_false_iff, List.any_eq_true,
    List.all_eq_true, Thread.sleepsOn, decide_eq_true_eq] at hp
  obtain ⟨⟨hne, hsl⟩, hth⟩ := hp
  exact h _ s hs ⟨hne, hsl, fun th hm => (hth th hm).1, fun th hm => (hth th hm).2⟩

end Cpp20Examples.Queues
