import Cpp20Examples.Lib.Machine
import Mathlib.Tactic.Common

/-!
# Coroutines that await each other

A coroutine runs instructions: effects, `co_await std::suspend_always{}`,
`co_await child()` on a fresh child, and `co_return`.  A program says which one
comes next; `Body` are the programs of finitely many instructions, and a program
`Unfolds` to one that does the same.  A coroutine starts suspended.  Its frame lives
on a heap until it is destroyed, the frame of an awaited child at the end of the
parent's `co_await` expression.

What a coroutine type does at its suspension points is its `Design`: what
`await_suspend` stores and to whom it passes control, what `co_return` stores, to
whom the final suspension passes control, and what `await_resume` reads.

The machine (`step`) runs the coroutine in `control`, until it passes control to
whoever resumed it (`none`).  Touching a destroyed frame, resuming a finished
coroutine and reading a value that was never set are its failures.  The `events`,
newest first, say what happened.
-/

namespace Lib.Coroutine

abbrev Handle := Nat

/-- What a coroutine does next, and the code `C` that is left: `κ` are the coroutine
types, `ν` the values that are co_returned, and awaiting a coroutine of type `k`
gives a `ρ k`. -/
inductive Instr (ε κ ν : Type) (ρ : κ → Type) (C : Type)
  | coReturn (v : ν)
  | effect (e : ε) (rest : C)
  | suspend (rest : C)
  | await (k : κ) (child : C) (rest : ρ k → C)

/-- The promises `P` of the coroutine types and what is done with them. -/
structure Design (κ ν P : Type) (ρ : κ → Type) where
  promise : κ → P
  /-- the promises of the child and of the caller, and who runs next -/
  awaitSuspend : (child caller : Handle) → P → P → P × P × Option Handle
  returnValue : κ → ν → P → P
  finalSuspend : P → Option Handle
  /-- `none` where the value was never set -/
  awaitResume : (k : κ) → P → Option (ρ k)

/-- Where a coroutine is: in front of what is left of its code, suspended in
`co_await` with its child alive, or at its final suspend point. -/
inductive Point (κ : Type) (ρ : κ → Type) (C : Type)
  | body (c : C)
  | awaiting (child : Handle) (k : κ) (rest : ρ k → C)
  | final

structure Frame (κ P : Type) (ρ : κ → Type) (C : Type) where
  kind : κ
  promise : P
  point : Point κ ρ C

/-- `passed c k r`: the parent went past its `co_await` of `c` and got `r`. -/
inductive Event (ε κ ν : Type) (ρ : κ → Type)
  | effect (e : ε)
  | finished (h : Handle) (v : ν)
  | passed (child : Handle) (k : κ) (r : Option (ρ k))
  | destroyed (h : Handle)

inductive Failure
  | destroyed
  | done
  | unset
  deriving DecidableEq

abbrev Heap (κ P : Type) (ρ : κ → Type) (C : Type) := List (Handle × Frame κ P ρ C)

structure State (ε κ ν P : Type) (ρ : κ → Type) (C : Type) where
  heap : Heap κ P ρ C
  fresh : Handle
  control : Option Handle
  events : List (Event ε κ ν ρ)
  failed : Option Failure

variable {ε κ ν P C : Type} {ρ : κ → Type}

/-- The coroutine is at its final suspend point. -/
def Frame.done (f : Frame κ P ρ C) : Bool :=
  match f.point with
  | .final => true
  | _ => false

theorem Frame.done_iff {f : Frame κ P ρ C} : f.done = true ↔ f.point = .final := by
  unfold done
  split <;> simp_all

namespace Heap

def get (H : Heap κ P ρ C) (h : Handle) : Option (Frame κ P ρ C) := H.lookup h

def set : Heap κ P ρ C → Handle → Frame κ P ρ C → Heap κ P ρ C
  | [], _, _ => []
  | (h', f') :: H, h, f => if h' = h then (h, f) :: H else (h', f') :: set H h f

def erase (H : Heap κ P ρ C) (h : Handle) : Heap κ P ρ C := H.eraseP fun p => p.1 == h

variable {H above : Heap κ P ρ C} {h h' : Handle} {f f' : Frame κ P ρ C}

@[simp] theorem get_cons_self : get ((h, f) :: H) h = some f := by simp [get]

theorem get_cons_ne (hne : h' ≠ h) : get ((h', f') :: H) h = get H h := by
  simp [get, List.lookup_cons, beq_false_of_ne (Ne.symm hne)]

theorem get_append (habove : ∀ q ∈ above, h < q.1) : get (above ++ H) h = get H h := by
  induction above with
  | nil => rfl
  | cons q above ih =>
    rw [List.cons_append, get_cons_ne (Nat.ne_of_gt (habove q (.head _)))]
    exact ih fun q hq => habove q (.tail _ hq)

theorem get_eq_none (hne : ∀ q ∈ H, q.1 ≠ h) : get H h = none := by
  induction H with
  | nil => rfl
  | cons q H ih =>
    rw [get_cons_ne (hne q (.head _))]
    exact ih fun q hq => hne q (.tail _ hq)

@[simp] theorem set_cons_self : set ((h, f) :: H) h f' = (h, f') :: H := if_pos rfl

@[simp] theorem erase_cons_self : erase ((h, f) :: H) h = H := by simp [erase]

end Heap

/-- The frame of `h` and those of the children it awaits are destroyed; `n` bounds
their number. -/
def destroy : Nat → Heap κ P ρ C → Handle → Heap κ P ρ C × List (Event ε κ ν ρ)
  | 0, H, _ => (H, [])
  | n + 1, H, h =>
    match H.get h with
    | none => (H, [])
    | some f =>
      match f.point with
      | .awaiting c _ _ =>
        ((destroy n (H.erase h) c).1, .destroyed h :: (destroy n (H.erase h) c).2)
      | _ => (H.erase h, [.destroyed h])

def State.destroy (s : State ε κ ν P ρ C) (h : Handle) : State ε κ ν P ρ C :=
  let gone : Heap κ P ρ C × List (Event ε κ ν ρ) := Coroutine.destroy s.fresh s.heap h
  { s with heap := gone.1, events := gone.2 ++ s.events }

/-- The coroutine `h` goes past its `co_await` of `c`: it reads the value, and the
child is destroyed. -/
def pass (D : Design κ ν P ρ) (s : State ε κ ν P ρ C) (h : Handle) (f : Frame κ P ρ C)
    (c : Handle) (k : κ) (rest : ρ k → C) : State ε κ ν P ρ C :=
  match s.heap.get c with
  | none => { s with failed := some .destroyed }
  | some g =>
    match D.awaitResume k g.promise with
    | none => { s with events := .passed c k none :: s.events, failed := some .unset }
    | some r =>
      let s : State ε κ ν P ρ C := { s with events := .passed c k (some r) :: s.events }
      let s := s.destroy c
      { s with heap := s.heap.set h { f with point := .body (rest r) } }

/-- One instruction of the coroutine `h`. -/
def stepInstr (D : Design κ ν P ρ) (s : State ε κ ν P ρ C) (h : Handle) (f : Frame κ P ρ C) :
    Instr ε κ ν ρ C → State ε κ ν P ρ C
  | .effect e rest =>
    { s with heap := s.heap.set h { f with point := .body rest }, events := .effect e :: s.events }
  | .suspend rest => { s with heap := s.heap.set h { f with point := .body rest }, control := none }
  | .await k child rest =>
    let (p, q, control) := D.awaitSuspend s.fresh h (D.promise k) f.promise
    { s with
      heap := (s.fresh, ⟨k, p, .body child⟩) :: s.heap.set h ⟨f.kind, q, .awaiting s.fresh k rest⟩
      fresh := s.fresh + 1
      control := control }
  | .coReturn v =>
    let p := D.returnValue f.kind v f.promise
    { s with
      heap := s.heap.set h ⟨f.kind, p, .final⟩
      control := D.finalSuspend p
      events := .finished h v :: s.events }

/-- One step of the coroutine `h`. -/
def stepFrame (next : C → Instr ε κ ν ρ C) (D : Design κ ν P ρ) (s : State ε κ ν P ρ C)
    (h : Handle) (f : Frame κ P ρ C) : State ε κ ν P ρ C :=
  match f.point with
  | .final => { s with failed := some .done }
  | .awaiting c k rest => pass D s h f c k rest
  | .body c => stepInstr D s h f (next c)

def step (next : C → Instr ε κ ν ρ C) (D : Design κ ν P ρ) (s : State ε κ ν P ρ C) :
    Option (State ε κ ν P ρ C) :=
  if s.failed.isSome then none
  else s.control.map fun h =>
    match s.heap.get h with
    | none => { s with failed := some .destroyed }
    | some f => stepFrame next D s h f

/-- A coroutine of type `k` that has just been called. -/
def State.call (D : Design κ ν P ρ) (k : κ) (c : C) : State ε κ ν P ρ C where
  heap := [(0, ⟨k, D.promise k, .body c⟩)]
  fresh := 1
  control := none
  events := []
  failed := none

theorem running_of_step {next : C → Instr ε κ ν ρ C} {D : Design κ ν P ρ} {s t : State ε κ ν P ρ C}
    (h : step next D s = some t) : s.failed.isSome = false ∧ ∃ c, s.control = some c := by
  unfold step at h
  split at h
  · exact absurd h (by simp)
  · rename_i hf
    obtain ⟨c, hc, -⟩ := Option.map_eq_some_iff.mp h
    exact ⟨eq_false_of_ne_true hf, c, hc⟩

/-! ### The steps of the coroutine on top of the heap -/

section Steps

variable {next : C → Instr ε κ ν ρ C} {D : Design κ ν P ρ} {H : Heap κ P ρ C} {h n c : Handle}
  {k k' : κ} {p q : P} {es : List (Event ε κ ν ρ)} {b : C}

theorem step_body : step next D ⟨(h, ⟨k, p, .body b⟩) :: H, n, some h, es, none⟩ =
    some (stepInstr D ⟨(h, ⟨k, p, .body b⟩) :: H, n, some h, es, none⟩ h ⟨k, p, .body b⟩
      (next b)) := by
  simp [step, stepFrame]

theorem step_effect {e : ε} {rest : C} (hb : next b = .effect e rest) :
    step next D ⟨(h, ⟨k, p, .body b⟩) :: H, n, some h, es, none⟩ =
      some ⟨(h, ⟨k, p, .body rest⟩) :: H, n, some h, .effect e :: es, none⟩ := by
  simp [step_body, hb, stepInstr]

theorem step_suspend {rest : C} (hb : next b = .suspend rest) :
    step next D ⟨(h, ⟨k, p, .body b⟩) :: H, n, some h, es, none⟩ =
      some ⟨(h, ⟨k, p, .body rest⟩) :: H, n, none, es, none⟩ := by
  simp [step_body, hb, stepInstr]

theorem step_await {child : C} {rest : ρ k' → C} (hb : next b = .await k' child rest) :
    step next D ⟨(h, ⟨k, p, .body b⟩) :: H, n, some h, es, none⟩ =
      some ⟨(n, ⟨k', (D.awaitSuspend n h (D.promise k') p).1, .body child⟩) ::
        (h, ⟨k, (D.awaitSuspend n h (D.promise k') p).2.1, .awaiting n k' rest⟩) :: H,
        n + 1, (D.awaitSuspend n h (D.promise k') p).2.2, es, none⟩ := by
  simp [step_body, hb, stepInstr]

theorem step_coReturn {v : ν} (hb : next b = .coReturn v) :
    step next D ⟨(h, ⟨k, p, .body b⟩) :: H, n, some h, es, none⟩ =
      some ⟨(h, ⟨k, D.returnValue k v p, .final⟩) :: H, n,
        D.finalSuspend (D.returnValue k v p), .finished h v :: es, none⟩ := by
  simp [step_body, hb, stepInstr]

theorem destroy_of_final {f : Frame κ P ρ C} (hn : 0 < n) (hf : f.point = .final) :
    (destroy n ((c, f) :: H) c : Heap κ P ρ C × List (Event ε κ ν ρ)) = (H, [.destroyed c]) := by
  cases n with
  | zero => exact absurd hn (Nat.lt_irrefl 0)
  | succ n => simp [destroy, hf]

/-- A parent goes past the `co_await` of a child that has finished. -/
theorem step_pass {rest : ρ k → C} {r : ρ k} (hne : c ≠ h) (hn : 0 < n)
    (hr : D.awaitResume k q = some r) :
    step next D ⟨(c, ⟨k, q, .final⟩) :: (h, ⟨k', p, .awaiting c k rest⟩) :: H, n, some h, es,
        none⟩ =
      some ⟨(h, ⟨k', p, .body (rest r)⟩) :: H, n, some h,
        .destroyed c :: .passed c k (some r) :: es, none⟩ := by
  simp only [step, Option.isSome_none, Bool.false_eq_true, if_false, Option.map_some,
    Heap.get_cons_ne hne, Heap.get_cons_self, stepFrame, pass, hr, State.destroy,
    destroy_of_final hn,
    Heap.set_cons_self, List.singleton_append]

end Steps

/-! ### Bodies of finitely many instructions -/

inductive Body (ε κ ν : Type) (ρ : κ → Type)
  | coReturn (v : ν)
  | effect (e : ε) (rest : Body ε κ ν ρ)
  | suspend (rest : Body ε κ ν ρ)
  | await (k : κ) (child : Body ε κ ν ρ) (rest : ρ k → Body ε κ ν ρ)

def Body.next : Body ε κ ν ρ → Instr ε κ ν ρ (Body ε κ ν ρ)
  | .coReturn v => .coReturn v
  | .effect e rest => .effect e rest
  | .suspend rest => .suspend rest
  | .await k child rest => .await k child rest

/-- The code runs to its end as the body says, with all coroutines that it awaits. -/
inductive Unfolds (next : C → Instr ε κ ν ρ C) : C → Body ε κ ν ρ → Prop
  | coReturn {c : C} {v : ν} : next c = .coReturn v → Unfolds next c (.coReturn v)
  | effect {c rest : C} {e : ε} {b : Body ε κ ν ρ} : next c = .effect e rest →
      Unfolds next rest b → Unfolds next c (.effect e b)
  | suspend {c rest : C} {b : Body ε κ ν ρ} : next c = .suspend rest → Unfolds next rest b →
      Unfolds next c (.suspend b)
  | await {c child : C} {k : κ} {rest : ρ k → C} {b : Body ε κ ν ρ} {b' : ρ k → Body ε κ ν ρ} :
      next c = .await k child rest → Unfolds next child b → (∀ r, Unfolds next (rest r) (b' r)) →
      Unfolds next c (.await k b b')

theorem Body.unfolds (b : Body ε κ ν ρ) : Unfolds Body.next b b := by
  induction b with
  | coReturn v => exact .coReturn rfl
  | effect e rest ih => exact .effect rfl ih
  | suspend rest ih => exact .suspend rfl ih
  | await k child rest ihChild ihRest => exact .await rfl ihChild ihRest

section Meaning

variable (value : (k : κ) → ν → ρ k)

/-- What the body co_returns when its children are waited for. -/
def Body.result : Body ε κ ν ρ → ν
  | .coReturn v => v
  | .effect _ rest => rest.result
  | .suspend rest => rest.result
  | .await k child rest => (rest (value k child.result)).result

/-- The effects in the order of plain depth-first calls. -/
def Body.effects : Body ε κ ν ρ → List ε
  | .coReturn _ => []
  | .effect e rest => e :: rest.effects
  | .suspend rest => rest.effects
  | .await k child rest => child.effects ++ (rest (value k (child.result value))).effects

/-- No `co_await std::suspend_always{}` in the body or below it. -/
def Body.Quiet : Body ε κ ν ρ → Prop
  | .coReturn _ => True
  | .effect _ rest => rest.Quiet
  | .suspend _ => False
  | .await k child rest => child.Quiet ∧ (rest (value k (child.result value))).Quiet

/-- Every parent went past its child when the child had finished, with the value that
it co_returned, and no frame was destroyed before it had finished. -/
def Sound : List (Event ε κ ν ρ) → Prop
  | [] => True
  | .effect _ :: es => Sound es
  | .finished _ _ :: es => Sound es
  | .passed c k r :: es => (∃ v, .finished c v ∈ es ∧ r = some (value k v)) ∧ Sound es
  | .destroyed h :: es => (∃ v, .finished h v ∈ es) ∧ Sound es

variable {value}

theorem Sound.tail {e : Event ε κ ν ρ} {es : List (Event ε κ ν ρ)} (h : Sound value (e :: es)) :
    Sound value es := by
  cases e with
  | effect => exact h
  | finished => exact h
  | passed => exact h.2
  | destroyed => exact h.2

theorem Sound.of_append {es es' : List (Event ε κ ν ρ)} (h : Sound value (es ++ es')) :
    Sound value es' := by
  induction es with
  | nil => exact h
  | cons e es ih => exact ih h.tail

/-- The effects among the events, oldest first. -/
def effectsOf : List (Event ε κ ν ρ) → List ε
  | [] => []
  | .effect e :: es => effectsOf es ++ [e]
  | .finished _ _ :: es => effectsOf es
  | .passed _ _ _ :: es => effectsOf es
  | .destroyed _ :: es => effectsOf es

theorem mem_effectsOf {e : ε} {es : List (Event ε κ ν ρ)} : e ∈ effectsOf es ↔ .effect e ∈ es := by
  induction es with
  | nil => simp [effectsOf]
  | cons ev es ih => cases ev <;> simp [effectsOf, ih, or_comm]

end Meaning

/-! ### The events of a run only grow -/

theorem events_pass {D : Design κ ν P ρ} {s : State ε κ ν P ρ C} {h c : Handle}
    {f : Frame κ P ρ C} {k : κ} {rest : ρ k → C} :
    ∃ new, (pass D s h f c k rest).events = new ++ s.events := by
  unfold pass
  split
  · exact ⟨[], rfl⟩
  · split
    · exact ⟨[_], rfl⟩
    · exact ⟨_, (List.append_assoc _ [_] _).symm⟩

theorem events_step {next : C → Instr ε κ ν ρ C} {D : Design κ ν P ρ} {s t : State ε κ ν P ρ C}
    (h : step next D s = some t) : ∃ new, t.events = new ++ s.events := by
  unfold step at h
  split at h
  · exact absurd h (by simp)
  · obtain ⟨c, -, rfl⟩ := Option.map_eq_some_iff.mp h
    split
    · exact ⟨[], rfl⟩
    · rename_i f _
      unfold stepFrame
      split
      · exact ⟨[], rfl⟩
      · exact events_pass
      · rename_i b _
        cases next b with
        | effect => exact ⟨[_], rfl⟩
        | suspend => exact ⟨[], rfl⟩
        | await => exact ⟨[], rfl⟩
        | coReturn => exact ⟨[_], rfl⟩

end Lib.Coroutine
