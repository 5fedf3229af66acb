import Cpp20Examples.Lib.Machine
import Cpp20Examples.Lib.Tasks

/-!
# Tasks that start at once

`task_scheduler`: a `Task` runs when it is created, to its first `co_await
sched.suspend()`, which puts it into the list of tasks; `final_suspend` does not suspend,
so the frame of a task that has finished is gone.  `schedule` takes the task in front out
of the list, resumes it unless it is done, and returns whether the list is not empty.

A task is its segments: `Body`.
-/

namespace Cpp20Examples.TaskScheduler

open Lib Lib.Tasks

/-- A task without further tasks: what it does before its first suspension, and behind
each suspension. -/
structure Body (ε : Type) where
  first : List ε
  rest : List (List ε)
  deriving DecidableEq

variable {ε : Type}

namespace Body

def segments (b : Body ε) : List (List ε) := b.first :: b.rest

def ofSegments : List (List ε) → Option (Body ε)
  | [] => none
  | first :: rest => some ⟨first, rest⟩

/-- What is left at the next suspension. -/
def next (b : Body ε) : Option (Body ε) := ofSegments b.rest

/-- The code behind a suspension. -/
def resumed : List (List ε) → Prog ε Unit
  | [] => .done
  | segment :: rest => .yield (segment.foldr .effect (resumed rest))

def prog (b : Body ε) : Prog ε Unit := b.first.foldr .effect (resumed b.rest)

theorem prog_eq (b : Body ε) : b.prog = b.first.foldr .effect (match b.next with
    | none => .done
    | some b' => .yield b'.prog) := by
  obtain ⟨first, rest⟩ := b
  cases rest <;> rfl

end Body

/-- `Scheduler::suspend`: `await_suspend` puts the task into the list.  The tasks create
no others. -/
def hooks : Hooks (List Handle) Unit := ⟨fun _ _ q => q, fun coro _tasks => _tasks ++ [coro]⟩

/-- `final_suspend`: the frame of a task that has finished is destroyed. -/
def finalSuspend (h : Handle) (s : Pool (List Handle) ε Unit) : Pool (List Handle) ε Unit :=
  match s.frames h with
  | some .final => s.destroy h
  | _ => s

/-- A task is created, and runs. -/
def start (s : Pool (List Handle) ε Unit) (b : Body ε) : Pool (List Handle) ε Unit :=
  finalSuspend s.created.length
    (({ s with created := s.created ++ [b.prog] } : Pool (List Handle) ε Unit).run hooks
      s.created.length b.prog)

/-- The tasks are started, one after another. -/
def started (tasks : List (Body ε)) : Pool (List Handle) ε Unit :=
  tasks.foldl start (Pool.new [])

/-- `Scheduler::schedule`, with what it returns.  The front of an empty list, and a task
whose frame is gone, cannot be used. -/
def schedule (s : Pool (List Handle) ε Unit) : Pool (List Handle) ε Unit × Bool :=
  match s.queue with
  | [] => ({ s with failed := true }, false)
  | task :: _tasks =>
    let s : Pool (List Handle) ε Unit := { s with queue := _tasks }
    let s := match s.frames task with
      | none => { s with failed := true }
      | some .final => s
      | some (.suspended _) => finalSuspend task (s.resume hooks task)
    (s, !s.queue.isEmpty)

/-- One turn of `while (scheduler.schedule())`; the flag is what the call before it has
returned. -/
def loop (s : Pool (List Handle) ε Unit × Bool) : Option (Pool (List Handle) ε Unit × Bool) :=
  if s.1.failed || !s.2 then none else some (schedule s.1)

end Cpp20Examples.TaskScheduler
