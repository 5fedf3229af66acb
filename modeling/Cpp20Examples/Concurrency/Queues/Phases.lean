import Cpp20Examples.Concurrency.Queues.Programs

/-!
# The phases of a queue's client

A thread of a queue program is between two calls or at one place of one method:
a `Client` is this `Phase` with the calls that are left.  `Client.thread` writes
the thread out, and `Step` says what a step does to the phases.  `simulation`:
every step of the threads is a step of the phases, for the three designs that
hold their lock and for `monitorObject`, which differ only in what follows the
test (`gap`).

Every property of the reachable states of the queues is proved on the phases,
by `reachable_phases`.
-/

namespace Cpp20Examples.Queues

open Lib Lib.Monitor

variable {α β ℓ : Type}

/-- Where a thread is in a method of a queue. -/
inductive Phase (α ℓ : Type)
  /-- between two calls -/
  | idle
  | push (number : ℓ → α)
  | pushUnlock
  | notify
  /-- at the test of the wait, or suspended in it -/
  | test (status : Status Unit)
  /-- the end of `wait` in `monitorObject`, with a passed test -/
  | gapUnlock
  /-- between `wait` and the removal in `monitorObject` -/
  | gapLock
  | front
  | pop
  | popUnlock

structure Client (α β ℓ : Type) where
  phase : Phase α ℓ
  calls : List (Call α β ℓ)
  vars : Vars α ℓ

/-- The methods with the mutex held over the removal (`gap = false`), or given
up behind the test (`gap = true`). -/
def methods (gap : Bool) : Methods α β ℓ := if gap then monitorObject else threadSafeQueue

theorem LockHolding.methods_eq (d : LockHolding) :
    (d.methods : Methods α β ℓ) = Queues.methods false := by
  cases d <;> rfl

theorem LockReleasing.methods_eq (d : LockReleasing) :
    (d.methods : Methods α β ℓ) = Queues.methods true := by
  cases d <;> rfl

/-- What is left of the current call. -/
def Phase.code (gap : Bool) : Phase α ℓ → QCode α β ℓ
  | idle => []
  | push number => [.exec (.push number), .unlock, .notifyOne ()]
  | pushUnlock => [.unlock, .notifyOne ()]
  | notify => [.notifyOne ()]
  | test _ => .wait () notEmpty ::
      if gap then [.unlock, .lock, .exec .front, .exec .pop, .unlock]
      else [.exec .front, .exec .pop, .unlock]
  | gapUnlock => [.unlock, .lock, .exec .front, .exec .pop, .unlock]
  | gapLock => [.lock, .exec .front, .exec .pop, .unlock]
  | front => [.exec .front, .exec .pop, .unlock]
  | pop => [.exec .pop, .unlock]
  | popUnlock => [.unlock]

def Phase.status : Phase α ℓ → Status Unit
  | test st => st
  | _ => .running

/-- The phase behind a passed test. -/
def Phase.passed (gap : Bool) : Phase α ℓ := if gap then .gapUnlock else .front

def Client.thread (gap : Bool) (c : Client α β ℓ) : QThread α β ℓ :=
  ⟨c.phase.code gap ++ (methods gap).program c.calls, c.phase.status, c.vars⟩

/-- The state of a queue with its threads as clients. -/
structure PState (α β ℓ : Type) where
  data : Memory α β
  owner : Option Nat := none
  clients : List (Client α β ℓ)
  fault : Bool := false

def PState.set (q : PState α β ℓ) (t : Nat) (c : Client α β ℓ) : PState α β ℓ :=
  { q with clients := q.clients.set t c }

@[simp] theorem PState.set_data (q : PState α β ℓ) (t : Nat) (c : Client α β ℓ) :
    (q.set t c).data = q.data := rfl
@[simp] theorem PState.set_owner (q : PState α β ℓ) (t : Nat) (c : Client α β ℓ) :
    (q.set t c).owner = q.owner := rfl
@[simp] theorem PState.set_clients (q : PState α β ℓ) (t : Nat) (c : Client α β ℓ) :
    (q.set t c).clients = q.clients.set t c := rfl
@[simp] theorem PState.set_fault (q : PState α β ℓ) (t : Nat) (c : Client α β ℓ) :
    (q.set t c).fault = q.fault := rfl

/-- The threads written out. -/
def PState.state (gap : Bool) (q : PState α β ℓ) : QState α β ℓ :=
  ⟨q.data, q.owner, q.clients.map (Client.thread gap), q.fault⟩

theorem PState.state_set (gap : Bool) (q : PState α β ℓ) (t : Nat) (c : Client α β ℓ) :
    (q.state gap).set t (c.thread gap) = (q.set t c).state gap := by
  simp [PState.state, State.set, PState.set, List.map_set]

/-- One step on the phases. -/
inductive Step (gap : Bool) (q : PState α β ℓ) : Act → PState α β ℓ → Prop
  | addLock {t w : Nat} {number : ℓ → α} {calls : List (Call α β ℓ)} {v : Vars α ℓ} :
      q.clients[t]? = some ⟨.idle, .add number :: calls, v⟩ → q.owner = none →
      Step gap q (.run t w) { q.set t ⟨.push number, calls, v⟩ with owner := some t }
  | removeLock {t w : Nat} {calls : List (Call α β ℓ)} {v : Vars α ℓ} :
      q.clients[t]? = some ⟨.idle, .remove :: calls, v⟩ → q.owner = none →
      Step gap q (.run t w) { q.set t ⟨.test .running, calls, v⟩ with owner := some t }
  | other {t w : Nat} {f : β → Vars α ℓ → β × Vars α ℓ} {calls : List (Call α β ℓ)}
      {v : Vars α ℓ} : q.clients[t]? = some ⟨.idle, .other f :: calls, v⟩ →
      Step gap q (.run t w) { q.set t ⟨.idle, calls, (f q.data.rest v).2⟩ with
        data := { q.data with rest := (f q.data.rest v).1 } }
  | push {t w : Nat} {number : ℓ → α} {calls : List (Call α β ℓ)} {v : Vars α ℓ} :
      q.clients[t]? = some ⟨.push number, calls, v⟩ →
      Step gap q (.run t w) { q.set t ⟨.pushUnlock, calls, v⟩ with
        data := { q.data with
          contents := q.data.contents ++ [number v.vars]
          added := q.data.added ++ [number v.vars] } }
  | pushUnlock {t w : Nat} {calls : List (Call α β ℓ)} {v : Vars α ℓ} :
      q.clients[t]? = some ⟨.pushUnlock, calls, v⟩ →
      Step gap q (.run t w) { q.set t ⟨.notify, calls, v⟩ with owner := none }
  | notify {t w : Nat} {calls calls' : List (Call α β ℓ)} {v v' : Vars α ℓ} :
      q.clients[t]? = some ⟨.notify, calls, v⟩ →
      q.clients[w]? = some ⟨.test (.asleep ()), calls', v'⟩ →
      Step gap q (.run t w) ((q.set t ⟨.idle, calls, v⟩).set w ⟨.test .woken, calls', v'⟩)
  | notifyNone {t w : Nat} {calls : List (Call α β ℓ)} {v : Vars α ℓ} :
      q.clients[t]? = some ⟨.notify, calls, v⟩ →
      (∀ c ∈ q.clients, c.phase ≠ .test (.asleep ())) →
      Step gap q (.run t w) (q.set t ⟨.idle, calls, v⟩)
  | pass {t w : Nat} {st : Status Unit} {calls : List (Call α β ℓ)} {v : Vars α ℓ} :
      q.clients[t]? = some ⟨.test st, calls, v⟩ → st = .running ∨ st = .retesting →
      q.data.contents ≠ [] → Step gap q (.run t w) (q.set t ⟨.passed gap, calls, v⟩)
  | sleep {t w : Nat} {st : Status Unit} {calls : List (Call α β ℓ)} {v : Vars α ℓ} :
      q.clients[t]? = some ⟨.test st, calls, v⟩ → st = .running ∨ st = .retesting →
      q.data.contents = [] →
      Step gap q (.run t w) { q.set t ⟨.test (.asleep ()), calls, v⟩ with owner := none }
  | retest {t w : Nat} {calls : List (Call α β ℓ)} {v : Vars α ℓ} :
      q.clients[t]? = some ⟨.test .woken, calls, v⟩ → q.owner = none →
      Step gap q (.run t w) { q.set t ⟨.test .retesting, calls, v⟩ with owner := some t }
  | gapUnlock {t w : Nat} {calls : List (Call α β ℓ)} {v : Vars α ℓ} :
      q.clients[t]? = some ⟨.gapUnlock, calls, v⟩ →
      Step gap q (.run t w) { q.set t ⟨.gapLock, calls, v⟩ with owner := none }
  | gapLock {t w : Nat} {calls : List (Call α β ℓ)} {v : Vars α ℓ} :
      q.clients[t]? = some ⟨.gapLock, calls, v⟩ → q.owner = none →
      Step gap q (.run t w) { q.set t ⟨.front, calls, v⟩ with owner := some t }
  | front {t w : Nat} {x : α} {xs : List α} {calls : List (Call α β ℓ)} {v : Vars α ℓ} :
      q.clients[t]? = some ⟨.front, calls, v⟩ → q.data.contents = x :: xs →
      Step gap q (.run t w) (q.set t ⟨.pop, calls, { v with number := some x }⟩)
  | pop {t w : Nat} {x : α} {xs : List α} {calls : List (Call α β ℓ)} {v : Vars α ℓ} :
      q.clients[t]? = some ⟨.pop, calls, v⟩ → q.data.contents = x :: xs →
      Step gap q (.run t w) { q.set t ⟨.popUnlock, calls, v⟩ with
        data := { q.data with
          contents := xs, removed := q.data.removed ++ v.number.toList } }
  /-- `front` or `pop` of an empty queue -/
  | fault {t w : Nat} {c : Client α β ℓ} : q.clients[t]? = some c →
      c.phase = .front ∨ c.phase = .pop → q.data.contents = [] →
      Step gap q (.run t w) { q with fault := true }
  | popUnlock {t w : Nat} {calls : List (Call α β ℓ)} {v : Vars α ℓ} :
      q.clients[t]? = some ⟨.popUnlock, calls, v⟩ →
      Step gap q (.run t w) { q.set t ⟨.idle, calls, v⟩ with owner := none }
  | spurious {t : Nat} {calls : List (Call α β ℓ)} {v : Vars α ℓ} :
      q.clients[t]? = some ⟨.test (.asleep ()), calls, v⟩ →
      Step gap q (.spurious t) (q.set t ⟨.test .woken, calls, v⟩)

theorem sleeper_set {clients : List (Client α β ℓ)} {t w : Nat} {calls calls' : List (Call α β ℓ)}
    {v v' : Vars α ℓ} (hc : clients[t]? = some ⟨.notify, calls, v⟩)
    (hw : clients[w]? = some ⟨.test (.asleep ()), calls', v'⟩) (c : Client α β ℓ) :
    (clients.set t c)[w]? = some ⟨.test (.asleep ()), calls', v'⟩ := by
  have hne : t ≠ w := by
    rintro rfl
    simp [hc] at hw
  rwa [List.getElem?_set_ne hne]

/-! ### Ownership of the mutex -/

/-- The phase is inside a critical section. -/
def Phase.inside : Phase α ℓ → Bool
  | .push _ | .pushUnlock | .test _ | .gapUnlock | .front | .pop | .popUnlock => true
  | .idle | .notify | .gapLock => false

theorem balanced_call (gap : Bool) (k : Call α β ℓ) : Balanced false ((methods gap).call k) := by
  cases gap <;> cases k <;>
    simp [methods, Methods.call, monitorObject, MonitorObject.add, MonitorObject.get,
      MonitorObject.wait, threadSafeQueue, ThreadSafeQueue.addNumber,
      ThreadSafeQueue.removeNumber, ThreadSafeQueue.makeLockWithNotify,
      ThreadSafeQueue.makeLockWithWait, ThreadSafeQueue.unlockAndNotify]

theorem balanced_program (gap : Bool) (calls : List (Call α β ℓ)) :
    Balanced false ((methods gap).program calls) := by
  rw [Methods.program, List.flatMap_def]
  exact Balanced.flatten (by simpa using fun k _ => balanced_call gap k)

theorem balanced_thread (gap : Bool) (c : Client α β ℓ) :
    Balanced c.phase.inside (c.thread gap).code := by
  obtain ⟨q, calls, v⟩ := c
  have hp := balanced_program gap calls
  cases q <;> cases gap <;> simpa [Client.thread, Phase.code, Phase.inside] using hp

/-- **The owner of the mutex** is the client inside a section, unless it is
suspended in the wait. -/
theorem owner_eq {gap : Bool} {q : PState α β ℓ}
    (ho : Ownership (q.state gap).owner (q.state gap).threads) {t : Nat} {c : Client α β ℓ}
    (hc : q.clients[t]? = some c) (hin : c.phase.inside = true)
    (hs : c.phase.status = .running ∨ c.phase.status = .retesting) : q.owner = some t := by
  have hth : (q.state gap).threads[t]? = some (c.thread gap) := by
    simp [PState.state, hc]
  have hb := ho t _ hth
  have hst : (c.thread gap).status = c.phase.status := rfl
  have hb : Balanced (decide (q.owner = some t)) (c.thread gap).code := by
    unfold Holds at hb
    rcases hs with hs | hs <;> rw [hst, hs] at hb <;> exact hb
  have := hb.unique (balanced_thread gap c)
  simpa [hin] using this

/-! ### The threads refine the phases -/

section Simulation

variable {gap : Bool} {q : PState α β ℓ} {t w : Nat} {s' : QState α β ℓ}

attribute [local simp] Client.thread Phase.code Phase.status Phase.passed PState.state State.set
  PState.set List.map_set instr sem

theorem simulation_idle {calls : List (Call α β ℓ)} {v : Vars α ℓ}
    (hc : q.clients[t]? = some ⟨.idle, calls, v⟩)
    (h : instr sem (q.state gap) t w v ((methods gap).program calls) = some s') :
    ∃ q', Step gap q (.run t w) q' ∧ q'.state gap = s' := by
  cases calls with
  | nil => exact absurd h (by simp [Methods.program])
  | cons k calls =>
    have hp : (methods gap).program (k :: calls)
        = (methods gap).call k ++ (methods gap).program calls := rfl
    rw [hp] at h
    cases k with
    | add number =>
      have hk : (methods gap).call (.add number : Call α β ℓ)
          = .lock :: Phase.code gap (.push number) := by cases gap <;> rfl
      rw [hk] at h
      simp only [List.cons_append, instr, Option.ite_none_right_eq_some] at h
      obtain ⟨ho, h⟩ := h
      obtain rfl := Option.some.inj h
      exact ⟨_, .addLock hc ho, by simp⟩
    | remove =>
      have hk : (methods gap).call (.remove : Call α β ℓ)
          = .lock :: Phase.code gap (.test .running) := by cases gap <;> rfl
      rw [hk] at h
      simp only [List.cons_append, instr, Option.ite_none_right_eq_some] at h
      obtain ⟨ho, h⟩ := h
      obtain rfl := Option.some.inj h
      exact ⟨_, .removeLock hc ho, by simp⟩
    | other f =>
      simp only [Methods.call, List.cons_append, List.nil_append, instr, sem] at h
      obtain rfl := Option.some.inj h
      exact ⟨_, .other hc, by simp⟩

theorem sleepsOn_thread (gap : Bool) (c : Client α β ℓ) :
    (c.thread gap).sleepsOn () = true ↔ c.phase = .test (.asleep ()) := by
  rw [Thread.sleepsOn, decide_eq_true_eq]
  obtain ⟨q, calls, v⟩ := c
  cases q <;> simp

theorem simulation_notify {calls : List (Call α β ℓ)} {v : Vars α ℓ}
    (hc : q.clients[t]? = some ⟨.notify, calls, v⟩)
    (h : Monitor.notify () (q.state gap) t w (Client.thread gap ⟨.idle, calls, v⟩) = some s') :
    ∃ q', Step gap q (.run t w) q' ∧ q'.state gap = s' := by
  rcases notify_cases h with ⟨sleeper, hw, hsl, rfl⟩ | ⟨hnone, rfl⟩
  · simp only [PState.state, List.getElem?_map, Option.map_eq_some_iff] at hw
    obtain ⟨⟨ph, calls', v'⟩, hw, rfl⟩ := hw
    obtain rfl := (sleepsOn_thread gap _).mp hsl
    exact ⟨_, .notify hc hw, by simp⟩
  · refine ⟨_, .notifyNone hc ?_, by rw [PState.state_set]⟩
    intro c hmem hph
    have hsl := (sleepsOn_thread gap c).mpr hph
    rw [hnone _ (List.mem_map_of_mem hmem)] at hsl
    exact absurd hsl (by simp)

theorem simulation_test {st : Status Unit} {calls : List (Call α β ℓ)} {v : Vars α ℓ}
    (hc : q.clients[t]? = some ⟨.test st, calls, v⟩)
    (hown : Holds (q.state gap).owner t (Client.thread gap ⟨.test st, calls, v⟩))
    (h : stepThread sem (q.state gap) t w (Client.thread gap ⟨.test st, calls, v⟩) = some s') :
    ∃ q', Step gap q (.run t w) q' ∧ q'.state gap = s' := by
  rcases stepThread_wait hown h with ⟨rfl, hnone, rfl⟩ | ⟨hs, hp, rfl⟩ | ⟨hs, hp, rfl⟩
  · exact ⟨_, .retest hc hnone, by simp⟩
  · have hne : q.data.contents ≠ [] := by simpa [notEmpty] using hp
    exact ⟨_, .pass hc hs hne, by cases gap <;> simp⟩
  · have he : q.data.contents = [] := by simpa [notEmpty] using hp
    exact ⟨_, .sleep hc hs he, by simp⟩

theorem simulation_thread {c : Client α β ℓ} (hc : q.clients[t]? = some c)
    (ho : Ownership (q.state gap).owner (q.state gap).threads)
    (h : stepThread sem (q.state gap) t w (c.thread gap) = some s') :
    ∃ q', Step gap q (.run t w) q' ∧ q'.state gap = s' := by
  have hown : Holds (q.state gap).owner t (c.thread gap) := ho t _ (by rw [PState.state]; simp [hc])
  obtain ⟨ph, calls, v⟩ := c
  cases ph with
  | idle => exact simulation_idle hc (by simpa [stepThread] using h)
  | notify => exact simulation_notify hc h
  | push number =>
    obtain rfl := Option.some.inj h
    exact ⟨_, .push hc, by simp⟩
  | pushUnlock =>
    obtain rfl := stepThread_unlock hown h
    exact ⟨_, .pushUnlock hc, by simp⟩
  | test st => exact simulation_test hc hown h
  | gapUnlock =>
    obtain rfl := stepThread_unlock hown h
    exact ⟨_, .gapUnlock hc, by simp⟩
  | gapLock =>
    simp only [stepThread, Client.thread, Phase.status, Phase.code, List.cons_append, instr,
      Option.ite_none_right_eq_some] at h
    obtain ⟨hnone, h⟩ := h
    obtain rfl := Option.some.inj h
    exact ⟨_, .gapLock hc hnone, by simp⟩
  | front =>
    cases hd : q.data.contents with
    | nil =>
      simp [stepThread, hd] at h
      exact ⟨_, .fault hc (.inl rfl) hd, by simpa using h⟩
    | cons x xs =>
      simp [stepThread, hd] at h
      exact ⟨_, .front hc hd, by simpa using h⟩
  | pop =>
    cases hd : q.data.contents with
    | nil =>
      simp [stepThread, hd] at h
      exact ⟨_, .fault hc (.inr rfl) hd, by simpa using h⟩
    | cons x xs =>
      simp [stepThread, hd] at h
      exact ⟨_, .pop hc hd, by simpa using h⟩
  | popUnlock =>
    obtain rfl := stepThread_unlock hown h
    exact ⟨_, .popUnlock hc, by simp⟩

/-- **Every step of the threads is a step of the phases.** -/
theorem simulation {a : Act} (ho : Ownership (q.state gap).owner (q.state gap).threads)
    (h : step sem (q.state gap) a = some s') : ∃ q', Step gap q a q' ∧ q'.state gap = s' := by
  unfold step at h
  split at h
  · exact absurd h (by simp)
  · cases a with
    | run t w =>
      obtain ⟨th, hth, h⟩ := Option.bind_eq_some_iff.mp h
      simp only [PState.state, List.getElem?_map, Option.map_eq_some_iff] at hth
      obtain ⟨c, hc, rfl⟩ := hth
      exact simulation_thread hc ho h
    | spurious t =>
      obtain ⟨th, hth, h⟩ := Option.bind_eq_some_iff.mp h
      simp only [PState.state, List.getElem?_map, Option.map_eq_some_iff] at hth
      obtain ⟨⟨ph, calls, v⟩, hc, rfl⟩ := hth
      cases ph with
      | test st =>
        cases st with
        | asleep cv =>
          obtain rfl := Option.some.inj h
          exact ⟨_, .spurious hc, by simp⟩
        | woken => exact absurd h (by simp [wake])
        | running => exact absurd h (by simp [wake])
        | retesting => exact absurd h (by simp [wake])
      | _ => exact absurd h (by simp [wake])

end Simulation

/-- The clients before their first call. -/
def PState.start (rest : β) (clients : List (ℓ × List (Call α β ℓ))) : PState α β ℓ :=
  { data := { rest }, clients := clients.map fun c => ⟨.idle, c.2, { vars := c.1 }⟩ }

/-- **The reachable states of the queues**: each is a state of the phases with
what their steps keep. -/
theorem reachable_phases {gap : Bool} {rest : β} {clients : List (ℓ × List (Call α β ℓ))}
    {ok : QState α β ℓ → Act → Prop} {I : PState α β ℓ → Prop} (hI0 : I (.start rest clients))
    (hI : ∀ q a q', I q → Ownership (q.state gap).owner (q.state gap).threads →
      ok (q.state gap) a → Step gap q a q' → I q')
    {s : QState α β ℓ} (hs : ((methods gap).system rest clients).ReachableBy ok s) :
    ∃ q, I q ∧ Ownership (q.state gap).owner (q.state gap).threads ∧ q.state gap = s := by
  have hown : ∀ s, ((methods gap).system rest clients).ReachableBy ok s →
      Ownership s.owner s.threads := by
    refine fun s h => ownership ?_ h
    intro th hth
    obtain ⟨c, _, rfl⟩ := List.mem_map.mp hth
    exact ⟨rfl, balanced_program gap c.2⟩
  have hstart : (PState.start rest clients).state gap
      = ((methods gap).system rest clients).init := by
    simp [PState.state, PState.start, Methods.system, Monitor.system, Client.thread, Phase.code,
      Phase.status]
  obtain ⟨q, hq, rfl⟩ := hs.refine (PState.state gap) hown
    (fun q a s' ho h => simulation ho h) hstart hI0 hI
  exact ⟨q, hq, hown _ hs, rfl⟩

end Cpp20Examples.Queues
