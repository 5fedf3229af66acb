import Cpp20Examples.Concurrency.Queues.Fifo
import Cpp20Examples.Lib.Arith
import Mathlib.Tactic.Ring

/-!
# The `main` of `threadSafeQueue.cpp`

`n` threads run `sharedSum += queue.removeNumber()`, and `n` threads run
`queue.addNumber(++sharedCounter)`.  When all have ended, `sharedSum` is the sum
of `1, …, n`.  The numbers are `int`, whose sums wrap around; nothing depends on
that, so `R` is any type with such sums.

The proof is an accounting of the reachable states (`Accounts`): the numbers
drawn from the counter are in the queue's history or in the hands of an adder,
the sum and the numbers in the hands of the removers are what was removed, and
each thread that has not yet drawn, added or removed is still counted.  When all
threads have ended the hands are empty, and the history is first in, first out.
-/

namespace Cpp20Examples.Queues

open Lib Lib.Monitor Lib.Arith
open scoped Lib.Arith.Wrapping

variable {R : Type}

/-- `sharedSum` and `sharedCounter`. -/
structure Shared (R : Type) where
  sharedSum : R
  sharedCounter : R
  deriving DecidableEq

variable [AddCommMonoidWithOne R]

def Shared.start : Shared R := ⟨0, 0⟩

/-- `++sharedCounter`, the argument of a call. -/
def increment (b : Shared R) (v : Vars R R) : Shared R × Vars R R :=
  ({ b with sharedCounter := b.sharedCounter + 1 }, { v with vars := b.sharedCounter + 1 })

/-- `sharedSum +=` the result of a call. -/
def addToSum (b : Shared R) (v : Vars R R) : Shared R × Vars R R :=
  ({ b with sharedSum := b.sharedSum + v.number.getD 0 }, v)

abbrev MainCall (R : Type) := Call R (Shared R) R

def removerCalls : List (MainCall R) := [.remove, .other addToSum]

def adderCalls : List (MainCall R) := [.other increment, .add id]

/-- `n` removers and `n` adders. -/
def mainClients (R : Type) [AddCommMonoidWithOne R] (n : Nat) : List (R × List (MainCall R)) :=
  List.replicate n (0, removerCalls) ++ List.replicate n (0, adderCalls)

abbrev MainClient (R : Type) := Client R (Shared R) R

/-! ### The places of the two kinds of threads -/

/-- A remover or an adder at one of its places. -/
inductive MainPlace : MainClient R → Prop
  | remover {v : Vars R R} : v.number = none → MainPlace ⟨.idle, removerCalls, v⟩
  | testing {st : Status Unit} {v : Vars R R} : MainPlace ⟨.test st, [.other addToSum], v⟩
  | front {v : Vars R R} : MainPlace ⟨.front, [.other addToSum], v⟩
  | pop {v : Vars R R} : MainPlace ⟨.pop, [.other addToSum], v⟩
  | popUnlock {v : Vars R R} : MainPlace ⟨.popUnlock, [.other addToSum], v⟩
  | summing {v : Vars R R} : MainPlace ⟨.idle, [.other addToSum], v⟩
  | adder {v : Vars R R} : MainPlace ⟨.idle, adderCalls, v⟩
  | adding {v : Vars R R} : MainPlace ⟨.idle, [.add id], v⟩
  | push {v : Vars R R} : MainPlace ⟨.push id, [], v⟩
  | pushUnlock {v : Vars R R} : MainPlace ⟨.pushUnlock, [], v⟩
  | notify {v : Vars R R} : MainPlace ⟨.notify, [], v⟩
  | ended {v : Vars R R} : MainPlace ⟨.idle, [], v⟩

/-- The number that an adder has drawn and not added. -/
def drawn (c : MainClient R) : R :=
  match c.phase, c.calls with
  | .idle, [.add _] => c.vars.vars
  | .push _, _ => c.vars.vars
  | _, _ => 0

/-- The number that a remover has removed and not summed. -/
def inHand (c : MainClient R) : R :=
  match c.phase, c.calls with
  | .popUnlock, _ => c.vars.number.getD 0
  | .idle, [.other _] => c.vars.number.getD 0
  | _, _ => 0

/-- An adder that has not drawn. -/
def toDraw (c : MainClient R) : Nat :=
  match c.phase, c.calls with
  | .idle, [.other _, .add _] => 1
  | _, _ => 0

/-- An adder that has not added. -/
def toAdd (c : MainClient R) : Nat :=
  match c.phase, c.calls with
  | .idle, [.other _, .add _] => 1
  | .idle, [.add _] => 1
  | .push _, _ => 1
  | _, _ => 0

/-- A remover that has not removed. -/
def toRemove (c : MainClient R) : Nat :=
  match c.phase, c.calls with
  | .idle, [.remove, .other _] => 1
  | .test _, _ => 1
  | .front, _ => 1
  | .pop, _ => 1
  | _, _ => 0

/-- The accounts of a memory and the clients, `n` removers and `n` adders, when `k` numbers
were drawn. -/
structure Accounts (n k : Nat) (m : Memory R (Shared R)) (clients : List (MainClient R)) :
    Prop where
  places : ∀ c ∈ clients, MainPlace c
  counter : m.rest.sharedCounter = k
  drawn : m.added.sum + total drawn clients = (k * (k + 1) / 2 : Nat)
  inHand : m.rest.sharedSum + total inHand clients = m.removed.sum
  toDraw : k + total toDraw clients = n
  toAdd : m.added.length + total toAdd clients = n
  toRemove : m.removed.length + total toRemove clients = n

variable {n k t : Nat} {m : Memory R (Shared R)} {clients : List (MainClient R)} {v : Vars R R}

theorem Accounts.set (h : Accounts n k m clients) {c c' : MainClient R}
    (hc : clients[t]? = some c) (hp : MainPlace c') (h1 : Queues.drawn c' = Queues.drawn c)
    (h2 : Queues.inHand c' = Queues.inHand c) (h3 : Queues.toDraw c' = Queues.toDraw c)
    (h4 : Queues.toAdd c' = Queues.toAdd c) (h5 : Queues.toRemove c' = Queues.toRemove c) :
    Accounts n k m (clients.set t c') := by
  refine ⟨forall_mem_set h.places hp t, h.counter, ?_, ?_, ?_, ?_, ?_⟩
  · rw [total_set_of_eq hc h1]; exact h.drawn
  · rw [total_set_of_eq hc h2]; exact h.inHand
  · rw [total_set_of_eq hc h3]; exact h.toDraw
  · rw [total_set_of_eq hc h4]; exact h.toAdd
  · rw [total_set_of_eq hc h5]; exact h.toRemove

/-- `sharedSum += …`: the number goes from the hand to the sum. -/
theorem Accounts.sum (h : Accounts n k m clients)
    (hc : clients[t]? = some ⟨.idle, [.other addToSum], v⟩) :
    Accounts n k { m with rest := (addToSum m.rest v).1 } (clients.set t ⟨.idle, [], v⟩) := by
  have hsame := fun {M : Type} [AddCommMonoid M] (w : MainClient R → M) =>
    total_set_of_eq (w := w) (y := ⟨.idle, [], v⟩) hc
  refine ⟨forall_mem_set h.places .ended t, h.counter, ?_, ?_, ?_, ?_, ?_⟩
  · rw [hsame Queues.drawn rfl]; exact h.drawn
  · have hset := total_set Queues.inHand hc ⟨.idle, [], v⟩
    have hhand := h.inHand
    simp only [Queues.inHand, addToSum, add_zero] at hset hhand ⊢
    rw [add_assoc, add_comm (v.number.getD 0), hset, hhand]
  · rw [hsame Queues.toDraw rfl]; exact h.toDraw
  · rw [hsame Queues.toAdd rfl]; exact h.toAdd
  · rw [hsame Queues.toRemove rfl]; exact h.toRemove

theorem triangle_succ (k : Nat) : (k + 1) * (k + 1 + 1) / 2 = k * (k + 1) / 2 + (k + 1) := by
  have hsplit : (k + 1) * (k + 1 + 1) = k * (k + 1) + (k + 1) * 2 := by ring
  rw [hsplit, Nat.add_mul_div_right _ _ (by decide)]

/-- `++sharedCounter`: the next number is drawn. -/
theorem Accounts.draw (h : Accounts n k m clients)
    (hc : clients[t]? = some ⟨.idle, adderCalls, v⟩) :
    Accounts n (k + 1) { m with rest := (increment m.rest v).1 }
      (clients.set t ⟨.idle, [.add id], (increment m.rest v).2⟩) := by
  have hcounter : m.rest.sharedCounter + 1 = ((k + 1 : Nat) : R) := by
    rw [h.counter, Nat.cast_add_one]
  have hsame := fun {M : Type} [AddCommMonoid M] (w : MainClient R → M) =>
    total_set_of_eq (w := w) (y := ⟨.idle, [.add id], (increment m.rest v).2⟩) hc
  refine ⟨forall_mem_set h.places .adding t, hcounter, ?_, ?_, ?_, ?_, ?_⟩
  · have hset := total_set Queues.drawn hc ⟨.idle, [.add id], (increment m.rest v).2⟩
    have hdrawn := h.drawn
    simp only [Queues.drawn, adderCalls, increment, add_zero] at hset hdrawn ⊢
    rw [hset, hcounter, ← add_assoc, hdrawn, triangle_succ, Nat.cast_add (k * (k + 1) / 2)]
  · rw [hsame Queues.inHand rfl]; exact h.inHand
  · have hset := total_set Queues.toDraw hc ⟨.idle, [.add id], (increment m.rest v).2⟩
    have hdraw := h.toDraw
    simp only [Queues.toDraw, adderCalls, increment] at hset hdraw ⊢
    omega
  · rw [hsame Queues.toAdd rfl]; exact h.toAdd
  · rw [hsame Queues.toRemove rfl]; exact h.toRemove

/-- `push_back(number)`: the number drawn is added. -/
theorem Accounts.push (h : Accounts n k m clients)
    (hc : clients[t]? = some ⟨.push id, [], v⟩) (contents : List R) :
    Accounts n k { m with contents := contents, added := m.added ++ [v.vars] }
      (clients.set t ⟨.pushUnlock, [], v⟩) := by
  have hsame := fun {M : Type} [AddCommMonoid M] (w : MainClient R → M) =>
    total_set_of_eq (w := w) (y := ⟨.pushUnlock, [], v⟩) hc
  refine ⟨forall_mem_set h.places .pushUnlock t, h.counter, ?_, ?_, ?_, ?_, ?_⟩
  · have hset := total_set Queues.drawn hc ⟨.pushUnlock, [], v⟩
    have hdrawn := h.drawn
    simp only [Queues.drawn, List.sum_append, List.sum_singleton, add_zero] at hset hdrawn ⊢
    rw [add_assoc, add_comm v.vars, hset, hdrawn]
  · rw [hsame Queues.inHand rfl]; exact h.inHand
  · rw [hsame Queues.toDraw rfl]; exact h.toDraw
  · have hset := total_set Queues.toAdd hc ⟨.pushUnlock, [], v⟩
    have hadd := h.toAdd
    simp only [Queues.toAdd, List.length_append, List.length_singleton] at hset hadd ⊢
    omega
  · rw [hsame Queues.toRemove rfl]; exact h.toRemove

/-- `pop_front()`: the number read is removed, and in hand. -/
theorem Accounts.pop (h : Accounts n k m clients) {x : R} (hx : v.number = some x)
    (hc : clients[t]? = some ⟨.pop, [.other addToSum], v⟩) (contents : List R) :
    Accounts n k { m with contents := contents, removed := m.removed ++ v.number.toList }
      (clients.set t ⟨.popUnlock, [.other addToSum], v⟩) := by
  have hsame := fun {M : Type} [AddCommMonoid M] (w : MainClient R → M) =>
    total_set_of_eq (w := w) (y := ⟨.popUnlock, [.other addToSum], v⟩) hc
  refine ⟨forall_mem_set h.places .popUnlock t, h.counter, ?_, ?_, ?_, ?_, ?_⟩
  · rw [hsame Queues.drawn rfl]; exact h.drawn
  · have hset := total_set Queues.inHand hc ⟨.popUnlock, [.other addToSum], v⟩
    have hhand := h.inHand
    simp only [Queues.inHand, hx, Option.toList_some, Option.getD_some, List.sum_append,
      List.sum_singleton, add_zero] at hset hhand ⊢
    rw [hset, ← add_assoc, hhand]
  · rw [hsame Queues.toDraw rfl]; exact h.toDraw
  · rw [hsame Queues.toAdd rfl]; exact h.toAdd
  · have hset := total_set Queues.toRemove hc ⟨.popUnlock, [.other addToSum], v⟩
    have hremove := h.toRemove
    simp only [Queues.toRemove, hx, Option.toList_some, List.length_append,
      List.length_singleton] at hset hremove ⊢
    omega

theorem accounts_step {q q' : PState R (Shared R) R} {a : Act}
    (h : Accounts n k q.data q.clients) (hq : Locked q) (hst : Step false q a q') :
    ∃ k', Accounts n k' q'.data q'.clients := by
  have place : ∀ {t c}, q.clients[t]? = some c → MainPlace c :=
    fun hc => h.places _ (List.mem_of_getElem? hc)
  cases hst with
  | addLock hc _ => cases place hc; exact ⟨k, h.set hc .push rfl rfl rfl rfl rfl⟩
  | removeLock hc _ => cases place hc; exact ⟨k, h.set hc .testing rfl rfl rfl rfl rfl⟩
  | other hc =>
    cases place hc with
    | summing => exact ⟨k, h.sum hc⟩
    | adder => exact ⟨k + 1, h.draw hc⟩
  | push hc => cases place hc; exact ⟨k, h.push hc _⟩
  | pushUnlock hc => cases place hc; exact ⟨k, h.set hc .notify rfl rfl rfl rfl rfl⟩
  | @notify t w calls calls' v v' hc hw =>
    have hw' := sleeper_set hc hw ⟨.idle, [], v⟩
    cases place hw
    cases place hc
    exact ⟨k, (h.set hc .ended rfl rfl rfl rfl rfl).set hw' .testing rfl rfl rfl rfl rfl⟩
  | notifyNone hc _ => cases place hc; exact ⟨k, h.set hc .ended rfl rfl rfl rfl rfl⟩
  | pass hc _ _ => cases place hc; exact ⟨k, h.set hc .front rfl rfl rfl rfl rfl⟩
  | sleep hc _ _ => cases place hc; exact ⟨k, h.set hc .testing rfl rfl rfl rfl rfl⟩
  | retest hc _ => cases place hc; exact ⟨k, h.set hc .testing rfl rfl rfl rfl rfl⟩
  | gapUnlock hc => cases place hc
  | gapLock hc _ => cases place hc
  | front hc _ => cases place hc; exact ⟨k, h.set hc .pop rfl rfl rfl rfl rfl⟩
  | pop hc hd =>
    obtain ⟨x, xs, _, hx⟩ := hq.head _ (List.mem_of_getElem? hc) rfl
    cases place hc
    exact ⟨k, h.pop hx hc _⟩
  | fault hc _ _ => exact ⟨k, h⟩
  | popUnlock hc => cases place hc; exact ⟨k, h.set hc .summing rfl rfl rfl rfl rfl⟩
  | spurious hc => cases place hc; exact ⟨k, h.set hc .testing rfl rfl rfl rfl rfl⟩

theorem accounts_start (n : Nat) :
    Accounts n 0 { rest := Shared.start }
      (PState.start Shared.start (mainClients R n)).clients := by
  have hclients : (PState.start (Shared.start : Shared R) (mainClients R n)).clients
      = List.replicate n ⟨.idle, removerCalls, { vars := 0 }⟩
        ++ List.replicate n ⟨.idle, adderCalls, { vars := 0 }⟩ := by
    simp [PState.start, mainClients]
  have htotal : ∀ {M : Type} [AddCommMonoid M] (w : MainClient R → M),
      total w (PState.start Shared.start (mainClients R n)).clients
        = n • w ⟨.idle, removerCalls, { vars := 0 }⟩
          + n • w ⟨.idle, adderCalls, { vars := 0 }⟩ := by
    intro M _ w
    rw [hclients, total_append, total_replicate, total_replicate]
  have hsum : (Shared.start : Shared R).sharedSum = 0 := rfl
  refine ⟨?_, Nat.cast_zero.symm, ?_, ?_, ?_, ?_, ?_⟩
  · intro c hm
    rw [hclients, List.mem_append] at hm
    rcases hm with hm | hm <;> obtain rfl := (List.mem_replicate.mp hm).2
    · exact .remover rfl
    · exact .adder
  · simp [htotal, drawn, removerCalls, adderCalls]
  · simp [htotal, inHand, removerCalls, adderCalls, hsum]
  · simp [htotal, toDraw, removerCalls, adderCalls]
  · simp [htotal, toAdd, removerCalls, adderCalls]
  · simp [htotal, toRemove, removerCalls, adderCalls]

theorem sum_of_ended {q : PState R (Shared R) R} (h : Accounts n k q.data q.clients)
    (hq : History q) (hend : ∀ c ∈ q.clients, (c.thread false).code = []) :
    q.data.rest.sharedSum = (n * (n + 1) / 2 : Nat) := by
  have hended : ∀ c ∈ q.clients, c.phase = .idle ∧ c.calls = [] := by
    intro c hc
    have he := hend c hc
    cases h.places c hc <;> first | exact ⟨rfl, rfl⟩ | exact absurd he (by simp [Client.thread,
      Phase.code, removerCalls, adderCalls, Methods.program, Methods.call, methods,
      threadSafeQueue, ThreadSafeQueue.addNumber, ThreadSafeQueue.makeLockWithNotify,
      ThreadSafeQueue.removeNumber, ThreadSafeQueue.makeLockWithWait])
  have hzero : ∀ {M : Type} [AddCommMonoid M] (w : MainClient R → M),
      (∀ v, w ⟨.idle, [], v⟩ = 0) → total w q.clients = 0 := by
    intro M _ w hw
    apply total_eq_zero
    intro c hc
    obtain ⟨ph, calls, v⟩ := c
    obtain ⟨rfl, rfl⟩ := hended _ hc
    exact hw v
  have hcounter := h.toDraw
  have hadded := h.toAdd
  have hremoved := h.toRemove
  have hdrawn := h.drawn
  have hsum := h.inHand
  rw [hzero _ fun _ => rfl, add_zero] at hcounter hadded hremoved hdrawn hsum
  -- as many values were removed as added, so the queue is empty
  have hlen := congrArg List.length hq.order
  rw [List.length_append, hremoved, hadded] at hlen
  have hempty : q.data.contents = [] := List.length_eq_zero_iff.mp (by omega)
  have horder := hq.order
  rw [hempty, List.append_nil] at horder
  rw [hsum, horder, hdrawn, hcounter]

/-- The sum at the end of `main`, with a queue that holds its lock. -/
theorem main_sum (d : LockHolding) {s : QState R (Shared R) R}
    (hs : (d.methods.system Shared.start (mainClients R n)).Reachable s)
    (hend : ∀ th ∈ s.threads, th.code = []) :
    s.data.rest.sharedSum = (n * (n + 1) / 2 : Nat) := by
  rw [d.methods_eq] at hs
  obtain ⟨q, ⟨hq, k, hacc⟩, -, rfl⟩ := reachable_phases
    (I := fun q => Locked q ∧ ∃ k, Accounts n k q.data q.clients)
    ⟨locked_start Shared.start (mainClients R n), 0, accounts_start n⟩
    (fun q a q' h ho _ hst => by
      obtain ⟨hq, k, hacc⟩ := h
      exact ⟨locked_step hq ho hst, accounts_step hacc hq hst⟩) hs
  exact sum_of_ended hacc hq.toHistory fun c hc => hend _ (List.mem_map_of_mem hc)

theorem triangle_lt {n : Nat} (h : n ≤ 65535) : n * (n + 1) / 2 < 2 ^ 31 := by
  have hmul : n * (n + 1) ≤ 65535 * 65536 := Nat.mul_le_mul h (by omega)
  omega

/-- **The lock-holding queues refine an atomic queue**: for any threads and any
interleaving no removal is made from an empty queue and the values come out in
the order in which they went in; and the sum at the end of `main` is that of the
numbers added, in exact integers and in any type of numbers.  That of `int` is
exact for up to 65535 threads. -/
theorem refines_fifo (d : LockHolding) :
    (∀ (α β ℓ : Type) (rest : β) (clients : List (ℓ × List (Call α β ℓ))) (s : QState α β ℓ),
      (d.methods.system rest clients).Reachable s →
        (AtomicFifo.system α).Reachable s.data.atomic ∧ s.fault = false ∧
          s.data.removed ++ s.data.contents = s.data.added) ∧
    (∀ (R : Type) [AddCommMonoidWithOne R] (n : Nat) (s : QState R (Shared R) R),
      (d.methods.system Shared.start (mainClients R n)).Reachable s →
      (∀ th ∈ s.threads, th.code = []) → s.data.rest.sharedSum = (n * (n + 1) / 2 : Nat)) ∧
    ∀ (n : Nat) (s : QState Int32 (Shared Int32) Int32), n ≤ 65535 →
      (d.methods.system Shared.start (mainClients Int32 n)).Reachable s →
      (∀ th ∈ s.threads, th.code = []) → s.data.rest.sharedSum.toInt = (n * (n + 1) / 2 : Nat) := by
  refine ⟨fun _ _ _ rest clients _ hs => fifo d rest clients hs,
    fun _ _ _ _ hs hend => main_sum d hs hend, ?_⟩
  intro n s hn hs hend
  rw [main_sum d hs hend]
  exact Wrapping.toInt_natCast (triangle_lt hn)

/-- Two removers and two adders; the first remover sleeps until a value is there. -/
theorem refines_fifo_two :
    ∃ s : QState Int32 (Shared Int32) Int32,
      (LockHolding.threadSafeQueue.methods.system Shared.start (mainClients Int32 2)).Reachable s ∧
      (∀ th ∈ s.threads, th.code = []) ∧ s.fault = false ∧ s.data.rest.sharedSum.toInt = 3 := by
  obtain ⟨s, hs, hp⟩ := System.exists_reachable
    (M := LockHolding.threadSafeQueue.methods.system Shared.start (mainClients Int32 2))
    (p := fun s => s.threads.all fun th => th.code.isEmpty)
    (List.replicate 2 (.run 0 0) ++ List.replicate 5 (.run 2 0) ++ List.replicate 5 (.run 3 0) ++
      List.replicate 6 (.run 1 0) ++ List.replicate 6 (.run 0 0)) (by decide)
  have hend : ∀ th ∈ s.threads, th.code = [] := by simpa using hp
  have hq := refines_fifo .threadSafeQueue
  exact ⟨s, hs, hend, (hq.1 _ _ _ _ _ s hs).2.1, hq.2.2 2 s (by decide) hs hend⟩

end Cpp20Examples.Queues
