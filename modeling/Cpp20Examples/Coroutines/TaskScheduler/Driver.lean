import Cpp20Examples.Coroutines.TaskScheduler.RoundRobin

/-!
# The driver of `task_scheduler`

`while (scheduler.schedule())` calls `schedule` once before it knows whether a task is in
the list, and `schedule` takes the task in front without a test.

* `OnlyQueued`: a task that has not finished is in the list.
* `Between`: the list holds suspended tasks, and the flag says whether there are any.
* `drives_iff`: the driver works when a task suspends, and only then.
-/

namespace Cpp20Examples.TaskScheduler

open Lib Lib.Tasks

variable {ε : Type} {s : Pool (List Handle) ε Unit} {q : List (Job ε)} {done : List (List ε)}
  {b : Body ε} {h : Handle}

/-- The tasks that are not in the list are gone. -/
def OnlyQueued (s : Pool (List Handle) ε Unit) : Prop :=
  ∀ u point, s.frames u = some point → u ∈ s.queue

theorem frame_of_next_eq_none (hb : b.next = none) :
    (finalSuspend h (s.run hooks h b.prog)).frames h = none := by
  rw [run_prog, hb]
  have hfinal : (({ s with effects := b.first.reverse ++ s.effects } :
      Pool (List Handle) ε Unit).finish h).frames h = some .final := Function.update_self ..
  simp only [finalSuspend, hfinal]
  exact Function.update_self ..

theorem onlyQueued_turned (hothers : ∀ u point, u ≠ h → s.frames u = some point → u ∈ s.queue) :
    OnlyQueued (finalSuspend h (s.run hooks h b.prog)) := by
  intro u point hu
  have hturned := turned_finalSuspend (b := b) (h := h) (s := s)
  rw [hturned.queue]
  by_cases he : u = h
  · subst he
    cases hb : b.next with
    | none => exact absurd ((frame_of_next_eq_none hb).symm.trans hu) (by simp)
    | some b' => exact List.mem_append_right _ (by simp)
  · exact List.mem_append_left _ (hothers u point he ((hturned.others u he).symm.trans hu))

theorem onlyQueued_started (tasks : List (Body ε)) : OnlyQueued (started tasks) := by
  have hall : ∀ (tasks : List (Body ε)) (s : Pool (List Handle) ε Unit), OnlyQueued s →
      OnlyQueued (tasks.foldl start s) := by
    intro tasks
    induction tasks with
    | nil => exact fun s hs => hs
    | cons b tasks ih =>
      intro s hs
      exact ih _ (onlyQueued_turned fun u point _ hu => hs u point hu)
  exact hall tasks _ fun u point hu => by cases hu

/-- Between two calls of `schedule`, the second one of which is made if the flag is set. -/
def Between (t : Pool (List Handle) ε Unit × Bool) : Prop :=
  OnlyQueued t.1 ∧ ∃ q done, t.2 = !q.isEmpty ∧ Holds t.1 q done

theorem Between.call {t t' : Pool (List Handle) ε Unit × Bool} (ht : Between t)
    (hst : loop t = some t') :
    Between t' ∧ ∃ task rest p, t.1.queue = task :: rest ∧
      t.1.frames task = some (.suspended p) := by
  obtain ⟨s, flag⟩ := t
  obtain ⟨honly, q, done, rfl, hs⟩ := ht
  cases q with
  | nil =>
    rw [loop, if_pos (by simp)] at hst
    cases hst
  | cons j q =>
    obtain ⟨b, h⟩ := j
    have hframe : s.frames h = some (.suspended b.prog) := hs.frames _ List.mem_cons_self
    refine ⟨?_, h, q.map Prod.snd, b.prog, hs.queue, hframe⟩
    obtain ⟨s', heq, hs', hholds⟩ := loop_eq hs
    obtain rfl := Option.some.inj (heq.symm.trans hst)
    refine ⟨?_, _, _, rfl, hholds⟩
    rw [hs']
    apply onlyQueued_turned
    intro u point hne hu
    have hmem := honly u point hu
    rw [hs.queue] at hmem
    exact (List.mem_cons.mp hmem).resolve_left hne

/-- When a task suspends, the list is not empty in front of the loop. -/
theorem between_started {tasks : List (Body ε)} (h : ∃ b ∈ tasks, b.rest ≠ []) :
    Between (started tasks, true) := by
  obtain ⟨b, hb, hrest⟩ := h
  have hstart := holds_start tasks holds_new
  refine ⟨onlyQueued_started tasks, _, _, ?_, hstart⟩
  rw [List.nil_append, show (Pool.new [] : Pool (List Handle) ε Unit).created.length = 0 from rfl,
    not_empty_of_suspends hb hrest]
  rfl

theorem queue_started_eq_nil {tasks : List (Body ε)} (h : ∀ b ∈ tasks, b.rest = []) :
    (started tasks).queue = [] := by
  have hstart := (holds_start tasks holds_new).queue
  have hnone : (tasks.zipIdx 0).filterMap Job.next = [] := by
    apply List.filterMap_eq_nil_iff.mpr
    intro j hj
    rw [Job.next, Body.next, h j.1 (List.fst_mem_of_mem_zipIdx hj)]
    rfl
  rw [show (Pool.new [] : Pool (List Handle) ε Unit).created.length = 0 from rfl, hnone] at hstart
  exact hstart

/-- What the driver should do.  A call of `schedule` finds a task in the list, and its frame
is there; in the end all tasks have executed all their segments, and are gone. -/
structure Drives (tasks : List (Body ε)) : Prop where
  calls : ∀ t, Steps loop (started tasks, true) t → (loop t).isSome = true →
    ∃ task rest p, t.1.queue = task :: rest ∧ t.1.frames task = some (.suspended p)
  finishes : ∃ t, Steps loop (started tasks, true) t ∧ loop t = none ∧ t.1.failed = false ∧
    t.1.effects.reverse = (rounds tasks).flatten ∧ ∀ h, t.1.frames h = none

theorem not_drives {tasks : List (Body ε)} (h : ∀ b ∈ tasks, b.rest = []) : ¬Drives tasks := by
  intro hdrives
  have hempty := queue_started_eq_nil h
  have hrunning : (started tasks).failed = false := (holds_start tasks holds_new).running
  have hcall : (loop (started tasks, true)).isSome = true := by
    rw [loop, if_neg (by simp [hrunning])]
    rfl
  obtain ⟨task, rest, p, hqueue, -⟩ := hdrives.calls _ (.refl _) hcall
  exact absurd (hempty.symm.trans hqueue) (by simp)

/-- **The driver never takes a task out of an empty list** exactly when a task suspends. -/
theorem drives_iff (tasks : List (Body ε)) : Drives tasks ↔ ∃ b ∈ tasks, b.rest ≠ [] := by
  constructor
  · intro hdrives
    by_contra hnone
    push Not at hnone
    exact not_drives hnone hdrives
  · intro hsuspends
    have hbetween : ∀ t, Steps loop (started tasks, true) t → Between t := fun t ht =>
      ht.invariant (fun t t' h hst => (h.call hst).1) (between_started hsuspends)
    constructor
    · intro t ht hcall
      obtain ⟨t', hst⟩ := Option.isSome_iff_exists.mp hcall
      exact ((hbetween t ht).call hst).2
    · obtain ⟨t, hsteps, hflag, ht⟩ := eager_rounds hsuspends
      refine ⟨t, hsteps, ?_, ht.running, ht.effects, ?_⟩
      · rw [loop, hflag, Bool.not_false, Bool.or_true, if_pos rfl]
      · intro h
        cases hframe : t.1.frames h with
        | none => rfl
        | some point =>
          have hmem := (hbetween t hsteps).1 h point hframe
          rw [ht.queue] at hmem
          cases hmem

/-- A task that does not suspend is not in the list when `schedule` is called. -/
theorem pops_empty_list : ¬∀ tasks : List (Body String), Drives tasks := by
  intro h
  exact not_drives (by simp) (h [⟨["Hello, from task A"], []⟩])

end Cpp20Examples.TaskScheduler
