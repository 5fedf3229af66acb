import Cpp20Examples.Lib.System
import Mathlib.Algebra.GroupWithZero.Nat
import Mathlib.Order.Lattice
import Mathlib.Order.BoundedOrder.Lattice
import Mathlib.Order.Nat
import Mathlib.Logic.Function.Basic

/-!
# A memory with memory orders

A memory that is not sequentially consistent.  An atomic object has the messages
of its modification order, and a load may read any one that is not older than what
its thread knows; other objects have one value, and two accesses of them that are
not ordered are a data race, where the behaviour of the program ends.

What a thread knows is its `View`: a place in the modification order of each atomic
object, and the number of the accesses to other objects that each thread has made.
A release leaves it with the message that it writes, and an acquire takes it from
the message that it reads; a read-modify-write passes on what it finds in the
message that it reads, and nothing comes between the two.  A message takes the
room `(lo, hi]` in the modification order, so that a store may still be placed in
front of others, where its thread does not know them.

A consume takes what it finds for dependent reads only.  The one mutex, and the
end of a thread that is joined, pass a view on as well.

No load sees a store that is behind it in its own thread, or that depends on it:
the programs below have none where the standard would allow that.
-/

namespace Lib.WeakMemory

/-- `std::memory_order` -/
inductive Order
  | relaxed
  | consume
  | acquire
  | release
  | acqRel
  deriving DecidableEq

def Order.acquires : Order → Bool
  | .acquire | .acqRel => true
  | _ => false

def Order.releases : Order → Bool
  | .release | .acqRel => true
  | _ => false

/-- What is known: of an atomic object a place in its modification order, of a thread
how many accesses to other objects it has made. -/
abbrev View (A : Type) := A ⊕ Nat → Nat

/-- A message of an atomic object, with its room in the modification order. -/
structure Message (A V : Type) where
  value : V
  lo : Nat := 0
  hi : Nat := 0
  view : View A := ⊥

/-- An access of a thread to an object that is not atomic. -/
structure Access where
  thread : Nat
  time : Nat
  writes : Bool

structure Cell (W : Type) where
  value : W
  accesses : List Access := []

structure Memory (A N V W : Type) where
  history : A → List (Message A V)
  cells : N → Cell W
  /-- who owns the mutex -/
  owner : Option Nat := none
  /-- what was known when the mutex was unlocked -/
  released : View A := ⊥
  /-- what was known at the ends of threads -/
  ended : Nat → Option (View A) := fun _ => none
  raced : Bool := false

structure Thread (A ℓ : Type) where
  place : ℓ
  view : View A := ⊥
  /-- what reads may rely on that depend on a consume -/
  dependency : View A := ⊥

/-- What a thread does next, and where it goes on. -/
inductive Op (A N V W ℓ : Type)
  | load (o : Order) (a : A) (k : V → ℓ)
  | store (o : Order) (a : A) (v : V) (k : ℓ)
  | update (o : Order) (a : A) (f : V → V) (k : V → ℓ)
  | read (x : N) (dependent : Bool) (k : W → ℓ)
  | write (x : N) (f : W → W) (k : ℓ)
  | lock (k : ℓ)
  | unlock (k : ℓ)
  | exit (k : ℓ)
  | join (u : Nat) (k : ℓ)
  | stop

/-- Who moves: with the number of the message that is read, and the room of the
message that is written. -/
structure Act where
  thread : Nat
  message : Nat := 0
  lo : Nat := 0
  hi : Nat := 0

structure State (A N V W ℓ : Type) where
  memory : Memory A N V W
  threads : List (Thread A ℓ)

variable {A N V W ℓ : Type}

/-- The message has nothing of the room `(lo, hi]`. -/
def Message.Apart (m : Message A V) (lo hi : Nat) : Prop := m.hi ≤ lo ∨ hi ≤ m.lo

instance (m : Message A V) (lo hi : Nat) : Decidable (m.Apart lo hi) :=
  inferInstanceAs (Decidable (_ ∨ _))

/-- The view knows the accesses of a list. -/
def View.Knows (v : View A) (es : List Access) : Prop := ∀ e ∈ es, e.time ≤ v (.inr e.thread)

instance (v : View A) (es : List Access) : Decidable (v.Knows es) :=
  inferInstanceAs (Decidable (∀ e ∈ es, _))

/-- One more access of thread `t`. -/
def View.tick (v : View A) (t : Nat) : View A
  | .inl a => v (.inl a)
  | .inr u => if u = t then v (.inr u) + 1 else v (.inr u)

/-- What a read may rely on. -/
def Thread.seen (th : Thread A ℓ) (dependent : Bool) : View A :=
  if dependent then th.view ⊔ th.dependency else th.view

section Semantics

variable [DecidableEq A] [DecidableEq N]

/-- The place `n` in the modification order of `a`. -/
def View.upTo (a : A) (n : Nat) : View A
  | .inl b => if b = a then n else 0
  | .inr _ => 0

/-- One more message of `a`. -/
def Memory.post (m : Memory A N V W) (a : A) (msg : Message A V) : Memory A N V W :=
  { m with history := Function.update m.history a (msg :: m.history a) }

/-- One more access to `x`. -/
def Memory.access (m : Memory A N V W) (x : N) (w : W) (e : Access) : Memory A N V W :=
  { m with cells := Function.update m.cells x ⟨w, e :: (m.cells x).accesses⟩ }

/-- What thread `t` makes of the memory and its own state. -/
def perform (m : Memory A N V W) (th : Thread A ℓ) (c : Act) :
    Op A N V W ℓ → Option (Memory A N V W × Thread A ℓ)
  | .load o a k =>
    (m.history a)[c.message]?.bind fun msg =>
      if th.view (.inl a) ≤ msg.hi then
        some (m,
          { place := k msg.value
            view := th.view ⊔ .upTo a msg.hi ⊔ (if o.acquires then msg.view else ⊥)
            dependency := th.dependency ⊔ (if o = .consume then msg.view else ⊥) })
      else none
  | .store o a v k =>
    if th.view (.inl a) ≤ c.lo ∧ c.lo < c.hi ∧ ∀ msg ∈ m.history a, msg.Apart c.lo c.hi then
      let view := th.view ⊔ .upTo a c.hi
      some (m.post a ⟨v, c.lo, c.hi, if o.releases then view else .upTo a c.hi⟩,
        { th with place := k, view })
    else none
  | .update o a f k =>
    (m.history a)[c.message]?.bind fun msg =>
      if th.view (.inl a) ≤ msg.hi ∧ msg.hi < c.hi ∧
          ∀ msg' ∈ m.history a, msg'.Apart msg.hi c.hi then
        let view := th.view ⊔ .upTo a c.hi ⊔ (if o.acquires then msg.view else ⊥)
        some (m.post a ⟨f msg.value, msg.hi, c.hi,
            msg.view ⊔ (if o.releases then view else .upTo a c.hi)⟩,
          { th with place := k msg.value, view })
      else none
  | .read x dependent k =>
    if (th.seen dependent).Knows ((m.cells x).accesses.filter Access.writes) then
      some (m.access x (m.cells x).value ⟨c.thread, th.view (.inr c.thread) + 1, false⟩,
        { th with place := k (m.cells x).value, view := th.view.tick c.thread })
    else some ({ m with raced := true }, th)
  | .write x f k =>
    if th.view.Knows (m.cells x).accesses then
      some (m.access x (f (m.cells x).value) ⟨c.thread, th.view (.inr c.thread) + 1, true⟩,
        { th with place := k, view := th.view.tick c.thread })
    else some ({ m with raced := true }, th)
  | .lock k =>
    if m.owner = none then
      some ({ m with owner := some c.thread }, { th with place := k, view := th.view ⊔ m.released })
    else none
  | .unlock k =>
    if m.owner = some c.thread then
      some ({ m with owner := none, released := th.view }, { th with place := k })
    else none
  | .exit k =>
    some ({ m with ended := Function.update m.ended c.thread (some th.view) },
      { th with place := k })
  | .join u k => (m.ended u).map fun v => (m, { th with place := k, view := th.view ⊔ v })
  | .stop => none

/-- The system of threads that start at `places`; the next operation of thread `t` at a
place is `op t` of it.  It stops at a data race. -/
def system (op : Nat → ℓ → Op A N V W ℓ) (m : Memory A N V W) (places : List ℓ) :
    System (State A N V W ℓ) Act where
  init := ⟨m, places.map fun p => { place := p }⟩
  step s c :=
    if s.memory.raced then none
    else s.threads[c.thread]?.bind fun th =>
      (perform s.memory th c (op c.thread th.place)).map fun r =>
        ⟨r.1, s.threads.set c.thread r.2⟩

end Semantics

/-! ### Views -/

section Views

variable {v w : View A} {t u : Nat} {es : List Access}

@[simp] theorem View.tick_inl (v : View A) (t : Nat) (a : A) : v.tick t (.inl a) = v (.inl a) := rfl

@[simp] theorem View.tick_self (v : View A) (t : Nat) : v.tick t (.inr t) = v (.inr t) + 1 :=
  if_pos rfl

theorem View.tick_of_ne (v : View A) (h : u ≠ t) : v.tick t (.inr u) = v (.inr u) := if_neg h

theorem View.le_tick (v : View A) (t : Nat) : v ≤ v.tick t := by
  rintro (a | u)
  · exact Nat.le_refl _
  · by_cases h : u = t
    · rw [h, tick_self]
      exact Nat.le_succ _
    · exact Nat.le_of_eq (v.tick_of_ne h).symm

@[simp] theorem View.upTo_self [DecidableEq A] (a : A) (n : Nat) : View.upTo a n (.inl a) = n :=
  if_pos rfl

@[simp] theorem View.upTo_inr [DecidableEq A] (a : A) (n t : Nat) :
    View.upTo a n (.inr t) = 0 := rfl

theorem View.Knows.mono (h : v.Knows es) (hle : v ≤ w) : w.Knows es :=
  fun e he => Nat.le_trans (h e he) (hle _)

theorem View.Knows.filter (h : v.Knows es) (p : Access → Bool) : v.Knows (es.filter p) :=
  fun e he => h e (List.mem_filter.mp he).1

theorem View.Knows.tick (h : v.Knows es) (t : Nat) (writes : Bool) :
    (v.tick t).Knows (⟨t, v (.inr t) + 1, writes⟩ :: es) := by
  intro e he
  rcases List.mem_cons.mp he with rfl | he
  · exact Nat.le_of_eq (v.tick_self t).symm
  · exact Nat.le_trans (h e he) (v.le_tick t _)

end Views

/-! ### What the operations do -/

/-- Nothing fits between a message and the one that was attached to it. -/
theorem Message.Apart.false_of_attached {msg : Message A V} {lo hi : Nat}
    (h : msg.Apart lo hi) (hlo : msg.lo = lo) (hmsg : msg.lo < msg.hi) (hlt : lo < hi) : False := by
  rcases h with h | h <;> omega

@[simp] theorem post_history_self [DecidableEq A] (m : Memory A N V W) (a : A)
    (msg : Message A V) : (m.post a msg).history a = msg :: m.history a := Function.update_self ..

theorem post_history_of_ne [DecidableEq A] (m : Memory A N V W) {a b : A} (h : b ≠ a)
    (msg : Message A V) : (m.post a msg).history b = m.history b := Function.update_of_ne h ..

@[simp] theorem access_cells_self [DecidableEq N] (m : Memory A N V W) (x : N) (w : W)
    (e : Access) : (m.access x w e).cells x = ⟨w, e :: (m.cells x).accesses⟩ :=
  Function.update_self ..

theorem access_cells_of_ne [DecidableEq N] (m : Memory A N V W) {x y : N} (h : y ≠ x) (w : W)
    (e : Access) : (m.access x w e).cells y = m.cells y := Function.update_of_ne h ..

theorem mem_accesses_access [DecidableEq N] (m : Memory A N V W) (x y : N) (w : W) (e : Access)
    {e' : Access} (h : e' ∈ (m.cells y).accesses) : e' ∈ ((m.access x w e).cells y).accesses := by
  by_cases hy : y = x
  · subst hy
    rw [access_cells_self]
    exact List.mem_cons_of_mem _ h
  · rw [access_cells_of_ne _ hy]
    exact h

theorem ended_cases {m : Memory A N V W} {v w : View A} {t u : Nat}
    (h : Function.update m.ended t (some v) u = some w) :
    u = t ∧ w = v ∨ u ≠ t ∧ m.ended u = some w := by
  by_cases hu : u = t
  · rw [hu, Function.update_self] at h
    exact .inl ⟨hu, (Option.some.inj h).symm⟩
  · rw [Function.update_of_ne hu] at h
    exact .inr ⟨hu, h⟩

section Cases

variable [DecidableEq A] [DecidableEq N] {m m' : Memory A N V W} {th th' : Thread A ℓ} {c : Act}
  {o : Order} {a : A} {x : N} {k : ℓ}

theorem step_cases {op : Nat → ℓ → Op A N V W ℓ} {m₀ : Memory A N V W} {places : List ℓ}
    {s s' : State A N V W ℓ} (h : (system op m₀ places).step s c = some s') :
    s.memory.raced = false ∧ ∃ th m th', s.threads[c.thread]? = some th ∧
      perform s.memory th c (op c.thread th.place) = some (m, th') ∧
      s' = ⟨m, s.threads.set c.thread th'⟩ := by
  have h : (if s.memory.raced then none else s.threads[c.thread]?.bind fun th =>
    (perform s.memory th c (op c.thread th.place)).map fun r =>
      (⟨r.1, s.threads.set c.thread r.2⟩ : State A N V W ℓ)) = some s' := h
  cases hr : s.memory.raced with
  | true => simp [hr] at h
  | false =>
    rw [hr, if_neg (by decide)] at h
    obtain ⟨th, hth, h⟩ := Option.bind_eq_some_iff.mp h
    obtain ⟨⟨m, th'⟩, hp, rfl⟩ := Option.map_eq_some_iff.mp h
    exact ⟨rfl, th, m, th', hth, hp, rfl⟩

theorem step_of_perform {op : Nat → ℓ → Op A N V W ℓ} {m₀ : Memory A N V W} {places : List ℓ}
    {s : State A N V W ℓ} (hraced : s.memory.raced = false) (hth : s.threads[c.thread]? = some th)
    {r : Memory A N V W × Thread A ℓ} (hr : perform s.memory th c (op c.thread th.place) = some r) :
    (system op m₀ places).step s c = some ⟨r.1, s.threads.set c.thread r.2⟩ := by
  show (if s.memory.raced then none else s.threads[c.thread]?.bind fun th =>
    (perform s.memory th c (op c.thread th.place)).map fun r =>
      (⟨r.1, s.threads.set c.thread r.2⟩ : State A N V W ℓ)) = _
  rw [hraced, if_neg (by decide), hth, Option.bind_some, hr, Option.map_some]

theorem load_cases {k : V → ℓ} (h : perform m th c (.load o a k) = some (m', th')) :
    ∃ msg ∈ m.history a, th.view (.inl a) ≤ msg.hi ∧ m' = m ∧ th' =
      { place := k msg.value
        view := th.view ⊔ .upTo a msg.hi ⊔ (if o.acquires then msg.view else ⊥)
        dependency := th.dependency ⊔ (if o = .consume then msg.view else ⊥) } := by
  obtain ⟨msg, hmsg, h⟩ := Option.bind_eq_some_iff.mp h
  obtain ⟨hle, h⟩ := Option.ite_none_right_eq_some.mp h
  cases h
  exact ⟨msg, List.mem_of_getElem? hmsg, hle, rfl, rfl⟩

theorem store_cases {v : V} (h : perform m th c (.store o a v k) = some (m', th')) :
    th.view (.inl a) ≤ c.lo ∧ c.lo < c.hi ∧ (∀ msg ∈ m.history a, msg.Apart c.lo c.hi) ∧
      m' = m.post a ⟨v, c.lo, c.hi,
        if o.releases then th.view ⊔ .upTo a c.hi else .upTo a c.hi⟩ ∧
      th' = { th with place := k, view := th.view ⊔ .upTo a c.hi } := by
  obtain ⟨⟨hle, hlt, hapart⟩, h⟩ := Option.ite_none_right_eq_some.mp h
  cases h
  exact ⟨hle, hlt, hapart, rfl, rfl⟩

theorem update_cases {f : V → V} {k : V → ℓ}
    (h : perform m th c (.update o a f k) = some (m', th')) :
    ∃ msg ∈ m.history a, th.view (.inl a) ≤ msg.hi ∧ msg.hi < c.hi ∧
      (∀ msg' ∈ m.history a, msg'.Apart msg.hi c.hi) ∧
      m' = m.post a ⟨f msg.value, msg.hi, c.hi, msg.view ⊔ (if o.releases then
        th.view ⊔ .upTo a c.hi ⊔ (if o.acquires then msg.view else ⊥) else .upTo a c.hi)⟩ ∧
      th' = { th with
        place := k msg.value
        view := th.view ⊔ .upTo a c.hi ⊔ (if o.acquires then msg.view else ⊥) } := by
  obtain ⟨msg, hmsg, h⟩ := Option.bind_eq_some_iff.mp h
  obtain ⟨⟨hle, hlt, hapart⟩, h⟩ := Option.ite_none_right_eq_some.mp h
  cases h
  exact ⟨msg, List.mem_of_getElem? hmsg, hle, hlt, hapart, rfl, rfl⟩

theorem read_cases {dependent : Bool} {k : W → ℓ}
    (h : perform m th c (.read x dependent k) = some (m', th')) :
    ((th.seen dependent).Knows ((m.cells x).accesses.filter Access.writes) ∧
      m' = m.access x (m.cells x).value ⟨c.thread, th.view (.inr c.thread) + 1, false⟩ ∧
      th' = { th with place := k (m.cells x).value, view := th.view.tick c.thread }) ∨
    (¬(th.seen dependent).Knows ((m.cells x).accesses.filter Access.writes) ∧
      m' = { m with raced := true } ∧ th' = th) := by
  rw [perform] at h
  split at h
  · rename_i hknows
    cases h
    exact .inl ⟨hknows, rfl, rfl⟩
  · rename_i hknows
    cases h
    exact .inr ⟨hknows, rfl, rfl⟩

theorem write_cases {f : W → W} (h : perform m th c (.write x f k) = some (m', th')) :
    (th.view.Knows (m.cells x).accesses ∧
      m' = m.access x (f (m.cells x).value) ⟨c.thread, th.view (.inr c.thread) + 1, true⟩ ∧
      th' = { th with place := k, view := th.view.tick c.thread }) ∨
    (¬th.view.Knows (m.cells x).accesses ∧ m' = { m with raced := true } ∧ th' = th) := by
  rw [perform] at h
  split at h
  · rename_i hknows
    cases h
    exact .inl ⟨hknows, rfl, rfl⟩
  · rename_i hknows
    cases h
    exact .inr ⟨hknows, rfl, rfl⟩

theorem lock_cases (h : perform m th c (.lock k) = some (m', th')) :
    m.owner = none ∧ m' = { m with owner := some c.thread } ∧
      th' = { th with place := k, view := th.view ⊔ m.released } := by
  obtain ⟨hnone, h⟩ := Option.ite_none_right_eq_some.mp h
  cases h
  exact ⟨hnone, rfl, rfl⟩

theorem unlock_cases (h : perform m th c (.unlock k) = some (m', th')) :
    m.owner = some c.thread ∧ m' = { m with owner := none, released := th.view } ∧
      th' = { th with place := k } := by
  obtain ⟨howner, h⟩ := Option.ite_none_right_eq_some.mp h
  cases h
  exact ⟨howner, rfl, rfl⟩

theorem exit_cases (h : perform m th c (.exit k) = some (m', th')) :
    m' = { m with ended := Function.update m.ended c.thread (some th.view) } ∧
      th' = { th with place := k } := by
  cases h
  exact ⟨rfl, rfl⟩

theorem join_cases {u : Nat} (h : perform m th c (.join u k) = some (m', th')) :
    ∃ v, m.ended u = some v ∧ m' = m ∧ th' = { th with place := k, view := th.view ⊔ v } := by
  obtain ⟨v, hv, h⟩ := Option.map_eq_some_iff.mp h
  cases h
  exact ⟨v, hv, rfl, rfl⟩

/-- **A thread never knows less.** -/
theorem view_le_of_perform {op : Op A N V W ℓ} (h : perform m th c op = some (m', th')) :
    th.view ≤ th'.view := by
  cases op with
  | load o a k =>
    obtain ⟨msg, -, -, -, rfl⟩ := load_cases h
    exact le_trans le_sup_left le_sup_left
  | store o a v k =>
    obtain ⟨-, -, -, -, rfl⟩ := store_cases h
    exact le_sup_left
  | update o a f k =>
    obtain ⟨msg, -, -, -, -, -, rfl⟩ := update_cases h
    exact le_trans le_sup_left le_sup_left
  | read x dependent k =>
    obtain ⟨-, -, rfl⟩ | ⟨-, -, rfl⟩ := read_cases h
    · exact th.view.le_tick _
    · exact le_rfl
  | write x f k =>
    obtain ⟨-, -, rfl⟩ | ⟨-, -, rfl⟩ := write_cases h
    · exact th.view.le_tick _
    · exact le_rfl
  | lock k =>
    obtain ⟨-, -, rfl⟩ := lock_cases h
    exact le_sup_left
  | unlock k =>
    obtain ⟨-, -, rfl⟩ := unlock_cases h
    exact le_rfl
  | exit k =>
    obtain ⟨-, rfl⟩ := exit_cases h
    exact le_rfl
  | join u k =>
    obtain ⟨v, -, -, rfl⟩ := join_cases h
    exact le_sup_left
  | stop => cases h

/-- **Each step uses up what its thread has left**, up to a data race. -/
theorem run_length_le {op : Nat → ℓ → Op A N V W ℓ} {m₀ : Memory A N V W} {places : List ℓ}
    {left : ℓ → Nat} (hleft : ∀ m (th : Thread A ℓ) c m' th',
      perform m th c (op c.thread th.place) = some (m', th') →
        left th'.place < left th.place ∨ th' = th ∧ m'.raced = true)
    {s s' : State A N V W ℓ} {cs : List Act} (h : (system op m₀ places).run s cs = some s') :
    cs.length ≤ (s.threads.map fun th => left th.place).sum + 1 := by
  refine System.length_le_of_bound (B := fun n s =>
    (s.threads.map fun th => left th.place).sum + (!s.memory.raced).toNat ≤ n) ?_
    (Nat.add_le_add_left (Bool.toNat_le _) _) h
  intro n s c s' hn hst
  obtain ⟨hraced, th, m', th', hth, hp, rfl⟩ := step_cases hst
  obtain ⟨r, hr, hset⟩ := exists_rest (fun th : Thread A ℓ => left th.place) hth
  rw [hr, hraced] at hn
  refine ⟨left th'.place + r + (!m'.raced).toNat, ?_, Nat.le_of_eq (by rw [hset])⟩
  rcases hleft _ _ _ _ _ hp with hlt | ⟨rfl, hr'⟩
  · have := Bool.toNat_le (!m'.raced)
    simp only [Bool.not_false, Bool.toNat_true] at hn
    omega
  · rw [hr']
    simp only [Bool.not_true, Bool.not_false, Bool.toNat_true, Bool.toNat_false] at hn ⊢
    omega

theorem mem_accesses_of_perform {op : Op A N V W ℓ} (h : perform m th c op = some (m', th')) {y : N}
    {e : Access} (he : e ∈ (m.cells y).accesses) : e ∈ (m'.cells y).accesses := by
  cases op with
  | load o a k =>
    obtain ⟨msg, -, -, rfl, -⟩ := load_cases h
    exact he
  | store o a v k =>
    obtain ⟨-, -, -, rfl, -⟩ := store_cases h
    exact he
  | update o a f k =>
    obtain ⟨msg, -, -, -, -, rfl, -⟩ := update_cases h
    exact he
  | read x dependent k =>
    obtain ⟨-, rfl, -⟩ | ⟨-, rfl, -⟩ := read_cases h
    · exact mem_accesses_access _ _ _ _ _ he
    · exact he
  | write x f k =>
    obtain ⟨-, rfl, -⟩ | ⟨-, rfl, -⟩ := write_cases h
    · exact mem_accesses_access _ _ _ _ _ he
    · exact he
  | lock k =>
    obtain ⟨-, rfl, -⟩ := lock_cases h
    exact he
  | unlock k =>
    obtain ⟨-, rfl, -⟩ := unlock_cases h
    exact he
  | exit k =>
    obtain ⟨rfl, -⟩ := exit_cases h
    exact he
  | join u k =>
    obtain ⟨v, -, rfl, -⟩ := join_cases h
    exact he
  | stop => cases h

theorem owner_of_perform {op : Op A N V W ℓ} (h : perform m th c op = some (m', th')) :
    m'.owner = m.owner ∨ m'.owner = none ∨ m'.owner = some c.thread := by
  cases op with
  | load o a k =>
    obtain ⟨msg, -, -, rfl, -⟩ := load_cases h
    exact .inl rfl
  | store o a v k =>
    obtain ⟨-, -, -, rfl, -⟩ := store_cases h
    exact .inl rfl
  | update o a f k =>
    obtain ⟨msg, -, -, -, -, rfl, -⟩ := update_cases h
    exact .inl rfl
  | read x dependent k =>
    obtain ⟨-, rfl, -⟩ | ⟨-, rfl, -⟩ := read_cases h
    · exact .inl rfl
    · exact .inl rfl
  | write x f k =>
    obtain ⟨-, rfl, -⟩ | ⟨-, rfl, -⟩ := write_cases h
    · exact .inl rfl
    · exact .inl rfl
  | lock k =>
    obtain ⟨-, rfl, -⟩ := lock_cases h
    exact .inr (.inr rfl)
  | unlock k =>
    obtain ⟨-, rfl, -⟩ := unlock_cases h
    exact .inr (.inl rfl)
  | exit k =>
    obtain ⟨rfl, -⟩ := exit_cases h
    exact .inl rfl
  | join u k =>
    obtain ⟨v, -, rfl, -⟩ := join_cases h
    exact .inl rfl
  | stop => cases h

theorem length_threads {op : Nat → ℓ → Op A N V W ℓ} {m₀ : Memory A N V W} {places : List ℓ}
    {s : State A N V W ℓ} (hs : (system op m₀ places).Reachable s) :
    s.threads.length = places.length := by
  refine hs.invariant (List.length_map ..) ?_ (I := fun s => s.threads.length = places.length)
  intro s c s' h _ hst
  obtain ⟨-, th, m, th', -, -, rfl⟩ := step_cases hst
  exact (List.length_set ..).trans h

theorem owner_lt {op : Nat → ℓ → Op A N V W ℓ} {m₀ : Memory A N V W} {places : List ℓ}
    (howner : m₀.owner = none) {s : State A N V W ℓ} (hs : (system op m₀ places).Reachable s)
    {t : Nat} (ht : s.memory.owner = some t) : t < s.threads.length := by
  refine hs.invariant ?_ ?_ t ht (I := fun s => ∀ t, s.memory.owner = some t → t < s.threads.length)
  · intro t ht
    exact absurd (howner.symm.trans ht) nofun
  · intro s c s' h _ hst u hu
    obtain ⟨-, th, m, th', hth, hp, rfl⟩ := step_cases hst
    rw [List.length_set]
    rcases owner_of_perform hp with ho | ho | ho
    · exact h u (ho.symm.trans hu)
    · exact absurd (ho.symm.trans hu) nofun
    · obtain rfl := Option.some.inj (ho.symm.trans hu)
      exact (List.getElem?_eq_some_iff.mp hth).1

end Cases

/-! ### The rooms of messages -/

section Rooms

variable {msgs : List (Message A V)} {msg msg' : Message A V} {lo hi : Nat}

/-- Each message has some room, and no two have the same. -/
structure Rooms (msgs : List (Message A V)) : Prop where
  lt : ∀ m ∈ msgs, m.lo < m.hi
  apart : ∀ m ∈ msgs, ∀ m' ∈ msgs, m = m' ∨ m'.Apart m.lo m.hi

/-- No message was placed right behind this one. -/
def Last (msgs : List (Message A V)) (msg : Message A V) : Prop := ∀ m ∈ msgs, m.lo ≠ msg.hi

theorem rooms_singleton (h : msg.lo < msg.hi) : Rooms [msg] := by
  constructor
  · intro m hm
    rw [List.mem_singleton.mp hm]
    exact h
  · intro m hm m' hm'
    exact .inl ((List.mem_singleton.mp hm).trans (List.mem_singleton.mp hm').symm)

theorem Message.Apart.symm (h : msg.Apart msg'.lo msg'.hi) : msg'.Apart msg.lo msg.hi := Or.symm h

theorem Rooms.cons (h : Rooms msgs) (hlt : msg.lo < msg.hi)
    (hapart : ∀ m ∈ msgs, m.Apart msg.lo msg.hi) : Rooms (msg :: msgs) := by
  constructor
  · intro m hm
    rcases List.mem_cons.mp hm with rfl | hm
    · exact hlt
    · exact h.lt m hm
  · intro m hm m' hm'
    rcases List.mem_cons.mp hm with rfl | hold
    · exact (List.mem_cons.mp hm').imp Eq.symm (hapart m')
    · rcases List.mem_cons.mp hm' with rfl | hold'
      · exact .inr (hapart m hold).symm
      · exact h.apart m hold m' hold'

/-- A place in the modification order is that of one message. -/
theorem Rooms.eq_of_hi (h : Rooms msgs) (hm : msg ∈ msgs) (hm' : msg' ∈ msgs)
    (hhi : msg.hi = msg'.hi) : msg = msg' := by
  have hlt := h.lt msg hm
  have hlt' := h.lt msg' hm'
  refine (h.apart msg hm msg' hm').resolve_right ?_
  rintro (h | h) <;> omega

/-- **A read-modify-write reads a message that is the last one where it is.** -/
theorem Rooms.last_of_apart (h : Rooms msgs) (hlt : msg.hi < hi)
    (hapart : ∀ m ∈ msgs, m.Apart msg.hi hi) : Last msgs msg := by
  intro m hm hlo
  exact (hapart m hm).false_of_attached hlo (h.lt m hm) hlt

theorem Rooms.apart_of_last (h : Rooms msgs) (hm : msg ∈ msgs) (hlast : Last msgs msg) :
    ∀ m ∈ msgs, m.Apart msg.hi (msg.hi + 1) := by
  intro m hmem
  have hlt := h.lt msg hm
  have hne := hlast m hmem
  rcases h.apart msg hm m hmem with rfl | h | h
  · exact .inl le_rfl
  · exact .inl (by omega)
  · exact .inr (by omega)

theorem exists_hi_le (msgs : List (Message A V)) (n : Nat) :
    ∃ top, n ≤ top ∧ ∀ m ∈ msgs, m.hi ≤ top := by
  induction msgs with
  | nil => exact ⟨n, le_rfl, nofun⟩
  | cons msg msgs ih =>
    obtain ⟨top, hn, htop⟩ := ih
    refine ⟨max top msg.hi, le_trans hn (Nat.le_max_left ..), ?_⟩
    intro m hm
    rcases List.mem_cons.mp hm with rfl | hm
    · exact Nat.le_max_right ..
    · exact le_trans (htop m hm) (Nat.le_max_left ..)

end Rooms

/-! ### Objects that a mutex guards -/

section Guarded

/-- The operation keeps to the mutex: the places where `holds` are those between a lock and
an unlock, and objects that are not atomic are used only there. -/
def Op.Guarded (holds : ℓ → Bool) (p : ℓ) : Op A N V W ℓ → Prop
  | .load _ _ k => ∀ v, holds (k v) = holds p
  | .store _ _ _ k => holds k = holds p
  | .update _ _ _ k => ∀ v, holds (k v) = holds p
  | .read _ _ k => holds p = true ∧ ∀ w, holds (k w) = true
  | .write _ _ k => holds p = true ∧ holds k = true
  | .lock k => holds k = true
  | .unlock k => holds k = false
  | .exit k => holds k = holds p
  | .join _ k => holds k = holds p
  | .stop => True

/-- The threads whose places hold the mutex own it. -/
def Owns (holds : Nat → ℓ → Bool) (owner : Option Nat) (threads : List (Thread A ℓ)) : Prop :=
  ∀ (t : Nat) (th : Thread A ℓ), threads[t]? = some th → (holds t th.place = true ↔ owner = some t)

/-- Who knows all accesses: the owner of the mutex, or the next one. -/
structure Guarded (holds : Nat → ℓ → Bool) (s : State A N V W ℓ) : Prop where
  raced : s.memory.raced = false
  owns : Owns holds s.memory.owner s.threads
  owner : ∀ t th, s.threads[t]? = some th → s.memory.owner = some t →
    ∀ x, th.view.Knows (s.memory.cells x).accesses
  free : s.memory.owner = none → ∀ x, s.memory.released.Knows (s.memory.cells x).accesses

section Owns

variable {holds : Nat → ℓ → Bool} {threads : List (Thread A ℓ)} {th th' : Thread A ℓ} {t : Nat}
  {owner : Option Nat}

theorem Owns.set (h : Owns holds owner threads) (hth : threads[t]? = some th)
    (hholds : holds t th'.place = holds t th.place) : Owns holds owner (threads.set t th') := by
  intro u w hw
  rcases getElem?_set_cases hw with ⟨rfl, rfl⟩ | ⟨-, hw⟩
  · rw [hholds]
    exact h u th hth
  · exact h u w hw

theorem Owns.lock (h : Owns holds none threads) (hholds : holds t th'.place = true) :
    Owns holds (some t) (threads.set t th') := by
  intro u w hw
  rcases getElem?_set_cases hw with ⟨rfl, rfl⟩ | ⟨hne, hw⟩
  · exact iff_of_true hholds rfl
  · rw [h u w hw]
    exact iff_of_false nofun fun hu => hne (Option.some.inj hu).symm

theorem Owns.unlock (h : Owns holds (some t) threads) (hholds : holds t th'.place = false) :
    Owns holds none (threads.set t th') := by
  intro u w hw
  rcases getElem?_set_cases hw with ⟨rfl, rfl⟩ | ⟨hne, hw⟩
  · exact iff_of_false (by simp [hholds]) nofun
  · rw [h u w hw]
    exact iff_of_false (fun hu => hne (Option.some.inj hu).symm) nofun

theorem Owns.eq (h : Owns holds owner threads) (hth : threads[t]? = some th) {u : Nat}
    (hu : threads[u]? = some th') (hholds : holds t th.place = true)
    (hholds' : holds u th'.place = true) : t = u :=
  Option.some.inj (((h t th hth).mp hholds).symm.trans ((h u th' hu).mp hholds'))

end Owns

variable {holds : Nat → ℓ → Bool} {s : State A N V W ℓ} {m : Memory A N V W}
  {th th' : Thread A ℓ} {t : Nat}

theorem Guarded.quiet (h : Guarded holds s) (hth : s.threads[t]? = some th)
    (hholds : holds t th'.place = holds t th.place) (hview : th.view ≤ th'.view)
    (hraced : m.raced = s.memory.raced) (howner : m.owner = s.memory.owner)
    (hreleased : m.released = s.memory.released) (hcells : m.cells = s.memory.cells) :
    Guarded holds ⟨m, s.threads.set t th'⟩ := by
  refine ⟨hraced.trans h.raced, ?_, ?_, ?_⟩
  · rw [howner]
    exact h.owns.set hth hholds
  · intro u v hv hu x
    rw [howner] at hu
    rw [hcells]
    rcases getElem?_set_cases hv with ⟨rfl, rfl⟩ | ⟨-, hv⟩
    · exact (h.owner u th hth hu x).mono hview
    · exact h.owner u v hv hu x
  · intro hfree x
    rw [howner] at hfree
    rw [hcells, hreleased]
    exact h.free hfree x

variable [DecidableEq N]

theorem Guarded.access (h : Guarded holds s) (hth : s.threads[t]? = some th)
    (hholds : holds t th.place = true) (hholds' : holds t th'.place = true)
    (hview : th'.view = th.view.tick t) (x : N) (w : W) (writes : Bool) :
    Guarded holds ⟨s.memory.access x w ⟨t, th.view (.inr t) + 1, writes⟩,
      s.threads.set t th'⟩ := by
  have howner : s.memory.owner = some t := (h.owns t th hth).mp hholds
  refine ⟨h.raced, h.owns.set hth (hholds'.trans hholds.symm), ?_, ?_⟩
  · intro u v hv hu y
    obtain rfl : t = u := Option.some.inj (howner.symm.trans hu)
    rcases getElem?_set_cases hv with ⟨-, rfl⟩ | ⟨hne, -⟩
    · rw [hview]
      by_cases hy : y = x
      · rw [hy, access_cells_self]
        exact (h.owner t th hth howner x).tick t writes
      · rw [access_cells_of_ne _ hy]
        exact (h.owner t th hth howner y).mono (th.view.le_tick t)
    · exact absurd rfl hne
  · intro hfree
    exact absurd (howner.symm.trans hfree) nofun

variable [DecidableEq A] {op : Nat → ℓ → Op A N V W ℓ} {m₀ : Memory A N V W} {places : List ℓ}

theorem Guarded.step (hop : ∀ t p, (op t p).Guarded (holds t) p) {s' : State A N V W ℓ} {c : Act}
    (h : Guarded holds s) (hst : (system op m₀ places).step s c = some s') : Guarded holds s' := by
  obtain ⟨-, th, m, th', hth, hp, rfl⟩ := step_cases hst
  have hview := view_le_of_perform hp
  have hplace := hop c.thread th.place
  cases ho : op c.thread th.place with
  | load o a k =>
    rw [ho] at hp hplace
    obtain ⟨msg, -, -, rfl, rfl⟩ := load_cases hp
    exact h.quiet hth (hplace msg.value) hview rfl rfl rfl rfl
  | store o a v k =>
    rw [ho] at hp hplace
    obtain ⟨-, -, -, rfl, rfl⟩ := store_cases hp
    exact h.quiet hth hplace hview rfl rfl rfl rfl
  | update o a f k =>
    rw [ho] at hp hplace
    obtain ⟨msg, -, -, -, -, rfl, rfl⟩ := update_cases hp
    exact h.quiet hth (hplace msg.value) hview rfl rfl rfl rfl
  | read x dependent k =>
    rw [ho] at hp hplace
    have hknows := h.owner _ _ hth ((h.owns _ _ hth).mp hplace.1) x
    obtain ⟨-, rfl, rfl⟩ | ⟨hrace, -, -⟩ := read_cases hp
    · exact h.access hth hplace.1 (hplace.2 _) rfl x _ false
    · refine absurd ((hknows.mono ?_).filter _) hrace
      rw [Thread.seen]
      split
      · exact le_sup_left
      · exact le_rfl
  | write x f k =>
    rw [ho] at hp hplace
    have hknows := h.owner _ _ hth ((h.owns _ _ hth).mp hplace.1) x
    obtain ⟨-, rfl, rfl⟩ | ⟨hrace, -, -⟩ := write_cases hp
    · exact h.access hth hplace.1 hplace.2 rfl x _ true
    · exact absurd hknows hrace
  | lock k =>
    rw [ho] at hp hplace
    obtain ⟨hfree, rfl, rfl⟩ := lock_cases hp
    have howns := h.owns
    rw [hfree] at howns
    refine ⟨h.raced, howns.lock hplace, ?_, nofun⟩
    · intro u v hv hu x
      rcases getElem?_set_cases hv with ⟨rfl, rfl⟩ | ⟨hne, -⟩
      · exact (h.free hfree x).mono le_sup_right
      · exact absurd (Option.some.inj hu).symm hne
  | unlock k =>
    rw [ho] at hp hplace
    obtain ⟨hown, rfl, rfl⟩ := unlock_cases hp
    have howns := h.owns
    rw [hown] at howns
    exact ⟨h.raced, howns.unlock hplace, nofun, fun _ => h.owner _ _ hth hown⟩
  | exit k =>
    rw [ho] at hp hplace
    obtain ⟨rfl, rfl⟩ := exit_cases hp
    exact h.quiet hth hplace hview rfl rfl rfl rfl
  | join u k =>
    rw [ho] at hp hplace
    obtain ⟨v, -, rfl, rfl⟩ := join_cases hp
    exact h.quiet hth hplace hview rfl rfl rfl rfl
  | stop =>
    rw [ho] at hp
    cases hp

/-- **Objects that are used under the mutex only are used without a race.** -/
theorem guarded (hop : ∀ t p, (op t p).Guarded (holds t) p) (hraced : m₀.raced = false)
    (howner : m₀.owner = none) (haccesses : ∀ x, (m₀.cells x).accesses = [])
    (hplaces : ∀ t, ∀ p ∈ places, holds t p = false) {s : State A N V W ℓ}
    (hs : (system op m₀ places).Reachable s) : Guarded holds s := by
  have hinit : Guarded holds (system op m₀ places).init := by
    refine ⟨hraced, ?_, ?_, ?_⟩
    · intro t th hth
      obtain ⟨p, hp, rfl⟩ := List.mem_map.mp (List.mem_of_getElem? hth)
      refine iff_of_false (by simp [hplaces t p hp]) ?_
      rw [show (system op m₀ places).init.memory.owner = none from howner]
      nofun
    · intro t th _ ht
      exact absurd (howner.symm.trans ht) nofun
    · intro _ x e he
      rw [show ((system op m₀ places).init.memory.cells x).accesses = [] from haccesses x] at he
      cases he
  exact hs.invariant hinit fun s c s' h _ hst => h.step hop hst

end Guarded

/-! ### Threads that do not synchronize -/

section Unordered

/-- The operation takes nothing from other threads. -/
def Op.Unordered : Op A N V W ℓ → Prop
  | .read _ _ _ | .write _ _ _ | .exit _ | .stop => True
  | _ => False

/-- No thread knows of accesses but its own, and no two have made accesses to one object, up
to reads. -/
structure Unordered (s : State A N V W ℓ) : Prop where
  views : ∀ (t : Nat) (th : Thread A ℓ), s.threads[t]? = some th → th.dependency = ⊥ ∧
    ∀ u, u ≠ t → th.view (.inr u) = 0
  times : ∀ x, ∀ e ∈ (s.memory.cells x).accesses, 1 ≤ e.time
  reads : ∀ x, ∀ e ∈ (s.memory.cells x).accesses, ∀ e' ∈ (s.memory.cells x).accesses,
    e.thread ≠ e'.thread → e.writes = false

variable {s s' : State A N V W ℓ} {th th' : Thread A ℓ} {t : Nat} {m : Memory A N V W} {c : Act}

theorem Unordered.quiet (h : Unordered s) (hth : s.threads[t]? = some th)
    (hcells : m.cells = s.memory.cells) (hview : th'.view = th.view)
    (hdep : th'.dependency = th.dependency) : Unordered ⟨m, s.threads.set t th'⟩ := by
  refine ⟨?_, ?_, ?_⟩
  · intro u v hv
    rcases getElem?_set_cases hv with ⟨rfl, rfl⟩ | ⟨-, hv⟩
    · rw [hview, hdep]
      exact h.views u th hth
    · exact h.views u v hv
  · rw [hcells]
    exact h.times
  · rw [hcells]
    exact h.reads

variable [DecidableEq N]

theorem Unordered.access (h : Unordered s) (hth : s.threads[t]? = some th)
    (hview : th'.view = th.view.tick t) (hdep : th'.dependency = th.dependency) (x : N) (w : W)
    (writes : Bool) (hothers : ∀ e ∈ (s.memory.cells x).accesses, e.thread ≠ t →
      e.writes = false ∧ writes = false) :
    Unordered ⟨s.memory.access x w ⟨t, th.view (.inr t) + 1, writes⟩, s.threads.set t th'⟩ := by
  refine ⟨?_, ?_, ?_⟩
  · intro u v hv
    rcases getElem?_set_cases hv with ⟨rfl, rfl⟩ | ⟨-, hv⟩
    · obtain ⟨hold, hviews⟩ := h.views u th hth
      refine ⟨hdep.trans hold, ?_⟩
      intro u' hne
      rw [hview, View.tick_of_ne _ hne]
      exact hviews u' hne
    · exact h.views u v hv
  · intro y e he
    by_cases hy : y = x
    · rw [hy, access_cells_self] at he
      rcases List.mem_cons.mp he with rfl | he
      · exact Nat.le_add_left ..
      · exact h.times x e he
    · rw [access_cells_of_ne _ hy] at he
      exact h.times y e he
  · intro y e he e' he' hne
    by_cases hy : y = x
    · rw [hy, access_cells_self] at he he'
      rcases List.mem_cons.mp he with rfl | hold
      · rcases List.mem_cons.mp he' with rfl | hold'
        · exact absurd rfl hne
        · exact (hothers e' hold' (Ne.symm hne)).2
      · rcases List.mem_cons.mp he' with rfl | hold'
        · exact (hothers e hold hne).1
        · exact h.reads x e hold e' hold' hne
    · rw [access_cells_of_ne _ hy] at he he'
      exact h.reads y e he e' he' hne

variable [DecidableEq A] {op : Nat → ℓ → Op A N V W ℓ} {m₀ : Memory A N V W} {places : List ℓ}

theorem Unordered.step (hop : ∀ t p, (op t p).Unordered) (h : Unordered s)
    (hst : (system op m₀ places).step s c = some s') (hraced : s'.memory.raced = false) :
    Unordered s' := by
  obtain ⟨-, th, m, th', hth, hp, rfl⟩ := step_cases hst
  have hplain := hop c.thread th.place
  obtain ⟨hdep, hviews⟩ := h.views c.thread th hth
  -- who knows an access of another thread would have it in its view
  have hunknown : ∀ x, ∀ e ∈ (s.memory.cells x).accesses, e.thread ≠ c.thread →
      ¬e.time ≤ th.view (.inr e.thread) := by
    intro x e he hne hle
    have htime := h.times x e he
    rw [hviews e.thread hne] at hle
    omega
  cases ho : op c.thread th.place with
  | read x dependent k =>
    rw [ho] at hp
    rcases read_cases hp with ⟨hknows, rfl, rfl⟩ | ⟨-, rfl, rfl⟩
    · refine h.access hth ?_ ?_ x _ false ?_
      · rfl
      · rfl
      · intro e he hne
        refine ⟨?_, rfl⟩
        by_contra hwrites
        apply hunknown x e he hne
        have hle := hknows e (List.mem_filter.mpr ⟨he, eq_true_of_ne_false hwrites⟩)
        have hseen : th.seen dependent = th.view := by
          rw [Thread.seen, hdep, sup_bot_eq, ite_self]
        rw [hseen] at hle
        exact hle
    · cases hraced
  | write x f k =>
    rw [ho] at hp
    rcases write_cases hp with ⟨hknows, rfl, rfl⟩ | ⟨-, rfl, rfl⟩
    · refine h.access hth ?_ ?_ x _ true ?_
      · rfl
      · rfl
      · intro e he hne
        exact absurd (hknows e he) (hunknown x e he hne)
    · cases hraced
  | exit k =>
    rw [ho] at hp
    obtain ⟨rfl, rfl⟩ := exit_cases hp
    exact h.quiet hth rfl rfl rfl
  | stop =>
    rw [ho] at hp
    cases hp
  | _ =>
    rw [ho] at hplain
    exact hplain.elim

/-- **Threads that do not synchronize race**, where one of them writes what the other uses. -/
theorem unordered (hop : ∀ t p, (op t p).Unordered) (haccesses : ∀ x, (m₀.cells x).accesses = [])
    (hs : (system op m₀ places).Reachable s) : s.memory.raced = true ∨ Unordered s := by
  refine hs.invariant ?_ ?_ (I := fun s => s.memory.raced = true ∨ Unordered s)
  · refine .inr ⟨?_, ?_, ?_⟩
    · intro t th hth
      obtain ⟨p, -, rfl⟩ := List.mem_map.mp (List.mem_of_getElem? hth)
      exact ⟨rfl, fun _ _ => rfl⟩
    · intro x e he
      rw [show ((system op m₀ places).init.memory.cells x).accesses = [] from haccesses x] at he
      cases he
    · intro x e he
      rw [show ((system op m₀ places).init.memory.cells x).accesses = [] from haccesses x] at he
      cases he
  · intro s c s' h _ hst
    have h : Unordered s := h.resolve_left (by simp [(step_cases hst).1])
    cases hraced : s'.memory.raced with
    | true => exact .inl rfl
    | false => exact .inr (h.step hop hst hraced)

end Unordered

end Lib.WeakMemory
