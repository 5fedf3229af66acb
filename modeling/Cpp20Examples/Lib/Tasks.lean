import Mathlib.Data.List.Count
import Mathlib.Logic.Function.Basic
import Mathlib.Tactic.Common

/-!
# Tasks that yield

A task is a coroutine that a scheduler resumes: it has effects, yields, and creates
further tasks.  It starts suspended, and when it is resumed it runs to its next
`yield` or to its end.  What a scheduler does when a task is created, and in the
`await_suspend` of a `yield`, are its `Hooks`.

* `Pool`: the tasks and the scheduler's own data.
* `Pool.run_of_alone`: what a task does that creates no other.
* `Pool.run_stops`: what each instruction keeps holds where a task stops.
-/

namespace Lib.Tasks

abbrev Handle := Nat

/-- What is left of a task; a task is created with an `L`. -/
inductive Prog (ε L : Type)
  | done
  | effect (e : ε) (rest : Prog ε L)
  | yield (rest : Prog ε L)
  | spawn (l : L) (child rest : Prog ε L)

namespace Prog

variable {ε L : Type}

/-- How often the task suspends before it finishes. -/
def yields : Prog ε L → Nat
  | .done => 0
  | .effect _ rest => rest.yields
  | .yield rest => rest.yields + 1
  | .spawn _ _ rest => rest.yields

/-- How often the task, and those that come from it, are resumed. -/
def turns : Prog ε L → Nat
  | .done => 1
  | .effect _ rest => rest.turns
  | .yield rest => rest.turns + 1
  | .spawn _ child rest => child.turns + rest.turns

/-- The task creates no other. -/
def Alone : Prog ε L → Prop
  | .done => True
  | .effect _ rest => rest.Alone
  | .yield rest => rest.Alone
  | .spawn _ _ _ => False

/-- The tasks that the task creates, the first one first. -/
def children : Prog ε L → List (Prog ε L)
  | .done => []
  | .effect _ rest => rest.children
  | .yield rest => rest.children
  | .spawn _ child rest => child :: rest.children

/-- The effects of the task, the first one first. -/
def effects : Prog ε L → List ε
  | .done => []
  | .effect e rest => e :: rest.effects
  | .yield rest => rest.effects
  | .spawn _ _ rest => rest.effects

end Prog

/-- Where a task is that has not been destroyed. -/
inductive Point (ε L : Type)
  | suspended (p : Prog ε L)
  | final

/-- The task was resumed, and destroyed right after that or not. -/
structure Turn where
  task : Handle
  destroyed : Bool
  deriving DecidableEq

/-- `created` are the tasks so far, a handle is a position in it.  The effects and the
turns are newest first. -/
structure Pool (Q ε L : Type) where
  queue : Q
  created : List (Prog ε L)
  frames : Handle → Option (Point ε L)
  effects : List ε
  turns : List Turn
  failed : Bool

structure Hooks (Q L : Type) where
  emplace : L → Handle → Q → Q
  yield : Handle → Q → Q

namespace Pool

variable {Q ε L : Type}

def new (queue : Q) : Pool Q ε L := ⟨queue, [], fun _ => none, [], [], false⟩

/-- A fresh task is given to the scheduler. -/
def emplace (k : Hooks Q L) (l : L) (p : Prog ε L) (s : Pool Q ε L) : Pool Q ε L :=
  { s with
    queue := k.emplace l s.created.length s.queue
    created := s.created ++ [p]
    frames := Function.update s.frames s.created.length (some (.suspended p)) }

def emplaceAll (k : Hooks Q L) (s : Pool Q ε L) (tasks : List (L × Prog ε L)) : Pool Q ε L :=
  tasks.foldl (fun s t => s.emplace k t.1 t.2) s

/-- The task is at its final suspend point. -/
def finish (h : Handle) (s : Pool Q ε L) : Pool Q ε L :=
  { s with frames := Function.update s.frames h (some .final) }

def suspend (k : Hooks Q L) (h : Handle) (rest : Prog ε L) (s : Pool Q ε L) : Pool Q ε L :=
  { s with
    frames := Function.update s.frames h (some (.suspended rest))
    queue := k.yield h s.queue }

/-- The task runs until it stops. -/
def run (k : Hooks Q L) (h : Handle) : Prog ε L → Pool Q ε L → Pool Q ε L
  | .done, s => s.finish h
  | .effect e rest, s => run k h rest { s with effects := e :: s.effects }
  | .yield rest, s => s.suspend k h rest
  | .spawn l child rest, s => run k h rest (s.emplace k l child)

/-- A task that is done or destroyed cannot be resumed. -/
def resume (k : Hooks Q L) (h : Handle) (s : Pool Q ε L) : Pool Q ε L :=
  match s.frames h with
  | some (.suspended p) => s.run k h p
  | _ => { s with failed := true }

def destroy (h : Handle) (s : Pool Q ε L) : Pool Q ε L :=
  { s with frames := Function.update s.frames h none }

def turnsOf (s : Pool Q ε L) (h : Handle) : List Turn := s.turns.filter fun t => t.task == h

variable {k : Hooks Q L} {h : Handle}

/-- **What each instruction keeps of a task and what it has left, holds where the task
stops.** -/
theorem run_stops {I : Prog ε L → Pool Q ε L → Prop}
    (heffect : ∀ e rest s, I (.effect e rest) s → I rest { s with effects := e :: s.effects })
    (hspawn : ∀ l child rest s, I (.spawn l child rest) s → I rest (s.emplace k l child))
    (p : Prog ε L) (s : Pool Q ε L) (hI : I p s) :
    (∃ s', I .done s' ∧ s.run k h p = s'.finish h) ∨
    (∃ rest s', I (.yield rest) s' ∧ s.run k h p = s'.suspend k h rest) := by
  induction p generalizing s with
  | done => exact .inl ⟨s, hI, rfl⟩
  | effect e rest ih => exact ih _ (heffect e rest s hI)
  | yield rest _ => exact .inr ⟨rest, s, hI, rfl⟩
  | spawn l child rest _ ih => exact ih _ (hspawn l child rest s hI)

/-- **A task that creates no other** runs to its end, or to its next `yield`. -/
theorem run_of_alone {p : Prog ε L} (hp : p.Alone) (s : Pool Q ε L) :
    (p.yields = 0 ∧
      s.run k h p = { s with effects := p.effects.reverse ++ s.effects }.finish h) ∨
    (∃ es rest, rest.Alone ∧ p.yields = rest.yields + 1 ∧ p.effects = es ++ rest.effects ∧
      s.run k h p = { s with effects := es.reverse ++ s.effects }.suspend k h rest) := by
  induction p generalizing s with
  | done => exact .inl ⟨rfl, rfl⟩
  | effect e rest ih =>
    rcases ih hp { s with effects := e :: s.effects } with ⟨hzero, hrun⟩ |
      ⟨es, rest', hrest, hyields, heffects, hrun⟩
    · refine .inl ⟨hzero, ?_⟩
      rw [run, hrun, Prog.effects, List.reverse_cons, List.append_assoc]
      rfl
    · refine .inr ⟨e :: es, rest', hrest, hyields, by rw [Prog.effects, heffects]; rfl, ?_⟩
      rw [run, hrun, List.reverse_cons, List.append_assoc]
      rfl
  | yield rest _ => exact .inr ⟨[], rest, hp, rfl, rfl, rfl⟩
  | spawn => exact absurd hp id

theorem resume_of_suspended {s : Pool Q ε L} {p : Prog ε L}
    (hframe : s.frames h = some (.suspended p)) : s.resume k h = s.run k h p := by
  rw [resume, hframe]

theorem run_failed (p : Prog ε L) (s : Pool Q ε L) : (s.run k h p).failed = s.failed := by
  induction p generalizing s with
  | done => rfl
  | effect e rest ih => exact ih _
  | yield rest _ => rfl
  | spawn l child rest _ ih => exact ih _

end Pool

end Lib.Tasks
