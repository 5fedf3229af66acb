import Cpp20Examples.Concurrency.Schedulers.Conservation

/-!
# Tasks that enqueue themselves

In `utils/cooperative_tasks` a coroutine that awaits `wake_up()` puts itself back into
the list of coroutines, before `resume()` returns to `run`; in `queueScheduler` the
loop puts it back, after `resume()` has returned.

When a coroutine stops, the two differ by one entry at the end of the list
(`run_hooks`), which `queueScheduler` adds at once: an iteration of the one is an
iteration of the other (`run_eq_schedule`).
-/

namespace Cpp20Examples.CooperativeTasks

open Lib Lib.Tasks Cpp20Examples.Schedulers

variable {ε : Type}

def enqueue (handle : Handle) (coroutines_ : List Handle) : List Handle := coroutines_ ++ [handle]

/-- `Task::detach`, and `await_suspend` of `WakeupAwaitable`. -/
def hooks : Hooks (List Handle) Unit := ⟨fun _ => enqueue, enqueue⟩

/-- One iteration of the loop of `run`. -/
def run (s : Pool (List Handle) ε Unit) : Option (Pool (List Handle) ε Unit) :=
  if s.failed then none
  else
    match s.queue with
    | [] => none
    | active :: coroutines_ =>
      let s := ({ s with queue := coroutines_ } : Pool (List Handle) ε Unit).resume hooks active
      some <|
        if s.failed then s
        else
          match s.frames active with
          | none => { s with failed := true }
          | some (.suspended _) => { s with turns := ⟨active, false⟩ :: s.turns }
          | some .final => { s.destroy active with turns := ⟨active, true⟩ :: s.turns }

/-- The coroutines that are detached in front of `run`. -/
def detached (tasks : List (Unit × Prog ε Unit)) : Pool (List Handle) ε Unit :=
  (Pool.new []).emplaceAll hooks tasks

/-- A coroutine stops in the same state, but it has enqueued itself when it is not done. -/
theorem run_hooks (h : Handle) (p : Prog ε Unit) (s : Pool (List Handle) ε Unit) :
    (s.run queueScheduler.hooks h p).frames h = some .final ∧
      s.run hooks h p = s.run queueScheduler.hooks h p ∨
    ∃ rest, (s.run queueScheduler.hooks h p).frames h = some (.suspended rest) ∧
      s.run hooks h p = { s.run queueScheduler.hooks h p with
        queue := enqueue h (s.run queueScheduler.hooks h p).queue } := by
  induction p generalizing s with
  | done => exact .inl ⟨Function.update_self _ _ _, rfl⟩
  | effect e rest ih => exact ih _
  | yield rest _ => exact .inr ⟨rest, Function.update_self _ _ _, rfl⟩
  | spawn l child rest _ ih => exact ih _

theorem resume_hooks (h : Handle) (s : Pool (List Handle) ε Unit) (hs : s.failed = false) :
    ((s.resume queueScheduler.hooks h).failed = true ∨
        (s.resume queueScheduler.hooks h).frames h = some .final) ∧
      s.resume hooks h = s.resume queueScheduler.hooks h ∨
    ∃ rest, (s.resume queueScheduler.hooks h).failed = false ∧
      (s.resume queueScheduler.hooks h).frames h = some (.suspended rest) ∧
      s.resume hooks h = { s.resume queueScheduler.hooks h with
        queue := enqueue h (s.resume queueScheduler.hooks h).queue } := by
  unfold Pool.resume
  split
  · rename_i p _
    rcases run_hooks h p s with ⟨hfinal, hrun⟩ | ⟨rest, hrest, hrun⟩
    · exact .inl ⟨.inr hfinal, hrun⟩
    · exact .inr ⟨rest, (Pool.run_failed p s).trans hs, hrest, hrun⟩
  · exact .inl ⟨.inl rfl, rfl⟩

/-- **An iteration of `run` is one of `schedule`.** -/
theorem run_eq_schedule (s : Pool (List Handle) ε Unit) : run s = queueScheduler.schedule s := by
  obtain ⟨queue, created, frames, effects, turns, failed⟩ := s
  cases failed with
  | true => rfl
  | false =>
    cases queue with
    | nil => rfl
    | cons active coroutines_ =>
      have hschedule : queueScheduler.schedule
          ⟨active :: coroutines_, created, frames, effects, turns, false⟩ =
          (let t := Pool.resume queueScheduler.hooks active
            ⟨coroutines_, created, frames, effects, turns, false⟩
          some (if t.failed then t else queueScheduler.settle active t)) := rfl
      have hrun : run ⟨active :: coroutines_, created, frames, effects, turns, false⟩ =
          (let t := Pool.resume hooks active
            ⟨coroutines_, created, frames, effects, turns, false⟩
          some (if t.failed then t else
            match t.frames active with
            | none => { t with failed := true }
            | some (.suspended _) => { t with turns := ⟨active, false⟩ :: t.turns }
            | some .final => { t.destroy active with turns := ⟨active, true⟩ :: t.turns })) := rfl
      rw [hschedule, hrun]
      rcases resume_hooks active ⟨coroutines_, created, frames, effects, turns, false⟩ rfl with
        ⟨hstop, heq⟩ | ⟨rest, hfailed, hrest, heq⟩
      · rw [heq]
        rcases hstop with hfailed | hfinal
        · simp only [hfailed, if_true]
        · simp only [Scheduler.settle, show queueScheduler.task active = active from rfl, hfinal]
      · rw [heq]
        simp only [Scheduler.settle, show queueScheduler.task active = active from rfl, hrest,
          hfailed, Bool.false_eq_true, if_false]
        rfl

/-- Each created task is destroyed once. -/
def DestroyedOnce (s : Pool (List Handle) ε Unit) : Prop :=
  ∀ h p, s.created[h]? = some p → s.turns.count ⟨h, true⟩ = 1

theorem destroyedOnce_of_allTurns {s : Pool (List Handle) ε Unit}
    (hs : ∀ h p, s.created[h]? = some p → s.turnsOf h = allTurns h p) : DestroyedOnce s := by
  intro h p hp
  have hcount : s.turns.count ⟨h, true⟩ = (s.turnsOf h).count ⟨h, true⟩ :=
    (List.count_filter (by simp)).symm
  rw [hcount, hs h p hp, allTurns, List.count_cons_self, List.count_replicate]
  simp

/-- **The two schedulers execute the same effects**, and each destroys every task
once. -/
theorem run_agrees_schedule (tasks : List (Unit × Prog ε Unit)) :
    ∃ s t, Steps queueScheduler.schedule (queueScheduler.emplaced tasks) s ∧
      queueScheduler.schedule s = none ∧ Steps run (detached tasks) t ∧ run t = none ∧
      s.failed = false ∧ t.failed = false ∧ t.effects = s.effects ∧ t.created = s.created ∧
      DestroyedOnce s ∧ DestroyedOnce t := by
  obtain ⟨s, hsteps, hstop, hfailed, -, -, -, -, -, hturns⟩ := conserves queueScheduler tasks
  have hsteps' : Steps run (detached tasks) s :=
    hsteps.mono fun t u h => (run_eq_schedule t).trans h
  have honce := destroyedOnce_of_allTurns hturns
  exact ⟨s, s, hsteps, hstop, hsteps', (run_eq_schedule s).trans hstop, hfailed, hfailed, rfl, rfl,
    honce, honce⟩

end Cpp20Examples.CooperativeTasks
