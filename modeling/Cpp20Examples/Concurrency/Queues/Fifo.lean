import Cpp20Examples.Concurrency.Queues.Phases

/-!
# The queues are first in, first out

`History`: what was removed, followed by the contents, is what was added, and a
client between `front` and `pop` has read the value that `pop` takes away.  It
holds of all the queues (`history_step`), since only the owner of the mutex is
between `front` and `pop`.

A queue that holds its lock from the test to the removal is never empty there,
so neither `front` nor `pop` is executed on an empty queue (`locked_step`), and
the queue refines one whose `add` and `remove` are single steps (`AtomicFifo`):
each step of a thread is a step of the atomic queue or leaves it alone
(`atomic_step`).
-/

namespace Cpp20Examples.Queues

open Lib Lib.Monitor

variable {α β ℓ : Type}

/-- A client between `front` and `pop` has read the first value. -/
def HasRead (contents : List α) (c : Client α β ℓ) : Prop :=
  c.phase = .pop → ∃ x xs, contents = x :: xs ∧ c.vars.number = some x

/-- The order of the queue, and the value that a removal has read. -/
structure History (q : PState α β ℓ) : Prop where
  order : q.data.removed ++ q.data.contents = q.data.added
  head : ∀ c ∈ q.clients, HasRead q.data.contents c

theorem inside_unique {gap : Bool} {q : PState α β ℓ}
    (ho : Ownership (q.state gap).owner (q.state gap).threads) {t u : Nat} {c d : Client α β ℓ}
    (hc : q.clients[t]? = some c) (hd : q.clients[u]? = some d)
    (hcin : c.phase.inside = true) (hcs : c.phase.status = .running)
    (hdin : d.phase.inside = true) (hds : d.phase.status = .running) : u = t := by
  have h1 := owner_eq ho hc hcin (.inl hcs)
  have h2 := owner_eq ho hd hdin (.inl hds)
  exact Option.some.inj (h2.symm.trans h1)

/-- **Every step of every queue keeps the order of the values.** -/
theorem history_step {gap : Bool} {q q' : PState α β ℓ} {a : Act} (h : History q)
    (ho : Ownership (q.state gap).owner (q.state gap).threads) (hst : Step gap q a q') :
    History q' := by
  have hset : ∀ (t : Nat) (c : Client α β ℓ), c.phase ≠ .pop →
      ∀ c' ∈ q.clients.set t c, HasRead q.data.contents c' :=
    fun t c hc => forall_mem_set h.head (fun hp => absurd hp hc) t
  cases hst with
  | addLock hc _ => exact ⟨h.order, hset _ _ (by simp)⟩
  | removeLock hc _ => exact ⟨h.order, hset _ _ (by simp)⟩
  | other hc => exact ⟨h.order, hset _ _ (by simp)⟩
  | @push t w number calls v hc =>
    refine ⟨by simp [← h.order], ?_⟩
    intro c hm hp
    obtain ⟨x, xs, hx, hn⟩ := hset _ _ (by simp) c hm hp
    exact ⟨x, xs ++ [number v.vars], by simp [hx], hn⟩
  | pushUnlock hc => exact ⟨h.order, hset _ _ (by simp)⟩
  | notify hc hw =>
    exact ⟨h.order, forall_mem_set (hset _ _ (by simp)) (fun hp => absurd hp (by simp)) _⟩
  | notifyNone hc _ => exact ⟨h.order, hset _ _ (by simp)⟩
  | pass hc _ _ => exact ⟨h.order, hset _ _ (by cases gap <;> simp [Phase.passed])⟩
  | sleep hc _ _ => exact ⟨h.order, hset _ _ (by simp)⟩
  | retest hc _ => exact ⟨h.order, hset _ _ (by simp)⟩
  | gapUnlock hc => exact ⟨h.order, hset _ _ (by simp)⟩
  | gapLock hc _ => exact ⟨h.order, hset _ _ (by simp)⟩
  | front hc hd => exact ⟨h.order, forall_mem_set h.head (fun _ => ⟨_, _, hd, rfl⟩) _⟩
  | @pop t w x xs calls v hc hd =>
    obtain ⟨y, ys, hy, hn⟩ := h.head _ (List.mem_of_getElem? hc) rfl
    obtain ⟨rfl, rfl⟩ := List.cons.inj (hd.symm.trans hy)
    have hn : v.number = some x := hn
    refine ⟨by simp [← h.order, hd, hn], ?_⟩
    intro c hm hp
    -- the mutex excludes a second client at `pop`
    obtain ⟨u, hu⟩ := List.mem_iff_getElem?.mp hm
    rcases getElem?_set_cases hu with ⟨rfl, rfl⟩ | ⟨hne, hu⟩
    · exact absurd hp (by simp)
    · exact absurd (inside_unique ho hc hu rfl rfl (by rw [hp]; rfl) (by rw [hp]; rfl)) hne
  | fault hc _ _ => exact ⟨h.order, h.head⟩
  | popUnlock hc => exact ⟨h.order, hset _ _ (by simp)⟩
  | spurious hc => exact ⟨h.order, hset _ _ (by simp)⟩

theorem history_start (rest : β) (clients : List (ℓ × List (Call α β ℓ))) :
    History (PState.start rest clients) :=
  ⟨rfl, fun c hm hp => by
    obtain ⟨_, _, rfl⟩ := List.mem_map.mp hm
    exact absurd hp (by simp)⟩

/-! ### The queues that hold their lock -/

/-- What the test has left a client with: it does not give the mutex up, and the
queue is not empty in front of a removal. -/
def Ready (contents : List α) (c : Client α β ℓ) : Prop :=
  c.phase ≠ .gapUnlock ∧ c.phase ≠ .gapLock ∧ (c.phase = .front → contents ≠ [])

/-- The invariant of a queue that holds its lock over the removal. -/
structure Locked (q : PState α β ℓ) : Prop extends History q where
  safe : q.fault = false
  ready : ∀ c ∈ q.clients, Ready q.data.contents c

theorem ready_step {q q' : PState α β ℓ} {a : Act} (h : Locked q)
    (ho : Ownership (q.state false).owner (q.state false).threads) (hst : Step false q a q') :
    ∀ c ∈ q'.clients, Ready q'.data.contents c := by
  have hset : ∀ (t : Nat) (c : Client α β ℓ), Ready q.data.contents c →
      ∀ c' ∈ q.clients.set t c, Ready q.data.contents c' :=
    fun t c hc => forall_mem_set h.ready hc t
  cases hst with
  | addLock hc _ => exact hset _ _ (by simp [Ready])
  | removeLock hc _ => exact hset _ _ (by simp [Ready])
  | other hc => exact hset _ _ (by simp [Ready])
  | push hc =>
    intro c hm
    have hr := hset _ _ (by simp [Ready]) c hm
    exact ⟨hr.1, hr.2.1, fun _ => by simp⟩
  | pushUnlock hc => exact hset _ _ (by simp [Ready])
  | notify hc hw => exact forall_mem_set (hset _ _ (by simp [Ready])) (by simp [Ready]) _
  | notifyNone hc _ => exact hset _ _ (by simp [Ready])
  | pass hc _ hne => exact hset _ _ (by simpa [Ready, Phase.passed] using hne)
  | sleep hc _ _ => exact hset _ _ (by simp [Ready])
  | retest hc _ => exact hset _ _ (by simp [Ready])
  | gapUnlock hc => exact absurd rfl (h.ready _ (List.mem_of_getElem? hc)).1
  | gapLock hc _ => exact absurd rfl (h.ready _ (List.mem_of_getElem? hc)).2.1
  | front hc hd => exact hset _ _ (by simp [Ready])
  | pop hc hd =>
    intro c hm
    -- the mutex excludes a second client in front of its removal
    obtain ⟨u, hu⟩ := List.mem_iff_getElem?.mp hm
    rcases getElem?_set_cases hu with ⟨rfl, rfl⟩ | ⟨hne, hu⟩
    · simp [Ready]
    · have hr := h.ready c (List.mem_of_getElem? hu)
      refine ⟨hr.1, hr.2.1, ?_⟩
      intro hp
      exact absurd (inside_unique ho hc hu rfl rfl (by rw [hp]; rfl) (by rw [hp]; rfl)) hne
  | fault hc _ _ => exact h.ready
  | popUnlock hc => exact hset _ _ (by simp [Ready])
  | spurious hc => exact hset _ _ (by simp [Ready])

/-- **A queue that holds its lock is not empty at a removal.** -/
theorem locked_step {q q' : PState α β ℓ} {a : Act} (h : Locked q)
    (ho : Ownership (q.state false).owner (q.state false).threads) (hst : Step false q a q') :
    Locked q' := by
  refine ⟨history_step h.toHistory ho hst, ?_, ready_step h ho hst⟩
  cases hst with
  | fault hc hph hd =>
    have hm := List.mem_of_getElem? hc
    rcases hph with hph | hph
    · exact absurd hd ((h.ready _ hm).2.2 hph)
    · obtain ⟨x, xs, hx, _⟩ := h.head _ hm hph
      exact absurd (hd.symm.trans hx) (by simp)
  | _ => exact h.safe

theorem locked_start (rest : β) (clients : List (ℓ × List (Call α β ℓ))) :
    Locked (PState.start rest clients) :=
  ⟨history_start rest clients, rfl, fun c hm => by
    obtain ⟨_, _, rfl⟩ := List.mem_map.mp hm
    simp [Ready]⟩

/-! ### The atomic queue -/

/-- A queue with its history. -/
structure AtomicFifo (α : Type) where
  contents : List α := []
  added : List α := []
  removed : List α := []

inductive AtomicFifo.Act (α : Type)
  | add (x : α)
  | remove

/-- `add` and `remove` as single steps; a removal waits for a value. -/
def AtomicFifo.system (α : Type) : System (AtomicFifo α) (AtomicFifo.Act α) where
  init := {}
  step q
    | .add x => some { q with contents := q.contents ++ [x], added := q.added ++ [x] }
    | .remove =>
      match q.contents with
      | [] => none
      | x :: xs => some { q with contents := xs, removed := q.removed ++ [x] }

/-- The atomic queue that a memory holds. -/
def Memory.atomic (m : Memory α β) : AtomicFifo α := ⟨m.contents, m.added, m.removed⟩

/-- **A step of a thread is a step of the atomic queue, or leaves it alone.** -/
theorem atomic_step {q q' : PState α β ℓ} {a : Act} (h : Locked q) (hst : Step false q a q') :
    q'.data.atomic = q.data.atomic ∨
      ∃ b, (AtomicFifo.system α).step q.data.atomic b = some q'.data.atomic := by
  cases hst with
  | push hc => exact .inr ⟨.add _, rfl⟩
  | @pop t w x xs calls v hc hd =>
    obtain ⟨y, ys, hy, hn⟩ := h.head _ (List.mem_of_getElem? hc) rfl
    obtain ⟨rfl, rfl⟩ := List.cons.inj (hd.symm.trans hy)
    have hn : v.number = some x := hn
    exact .inr ⟨.remove, by simp [AtomicFifo.system, Memory.atomic, hd, hn]⟩
  | _ => exact .inl rfl

/-- The invariant of a queue that refines the atomic one. -/
structure Refines (q : PState α β ℓ) : Prop extends Locked q where
  atomic : (AtomicFifo.system α).Reachable q.data.atomic

theorem refines_step {q q' : PState α β ℓ} {a : Act} (h : Refines q)
    (ho : Ownership (q.state false).owner (q.state false).threads) (hst : Step false q a q') :
    Refines q' := by
  refine ⟨locked_step h.toLocked ho hst, ?_⟩
  rcases atomic_step h.toLocked hst with he | ⟨b, hb⟩
  · rw [he]
    exact h.atomic
  · exact .step h.atomic trivial hb

theorem refines_start (rest : β) (clients : List (ℓ × List (Call α β ℓ))) :
    Refines (PState.start rest clients) :=
  ⟨locked_start rest clients, .init⟩

/-- **First in, first out.**  In every reachable state of a queue that holds its
lock, the memory is one of the atomic queue, no removal was made from an empty
queue, and the values removed so far, followed by the contents, are the values
added so far. -/
theorem fifo (d : LockHolding) (rest : β) (clients : List (ℓ × List (Call α β ℓ)))
    {s : QState α β ℓ} (hs : (d.methods.system rest clients).Reachable s) :
    (AtomicFifo.system α).Reachable s.data.atomic ∧ s.fault = false ∧
      s.data.removed ++ s.data.contents = s.data.added := by
  rw [d.methods_eq] at hs
  obtain ⟨q, hq, -, rfl⟩ := reachable_phases (refines_start rest clients)
    (fun q a q' h ho _ hst => refines_step h ho hst) hs
  exact ⟨hq.atomic, hq.safe, hq.order⟩

end Cpp20Examples.Queues
