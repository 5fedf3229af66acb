import Cpp20Examples.Concurrency.Schedulers.Conservation
import Cpp20Examples.Coroutines.TaskScheduler.Schedule
import Cpp20Examples.Lib.RoundRobin

/-!
# Eager and lazy round robin

`queueScheduler` starts the tasks from its loop, and puts a task that is not done back
there; in `task_scheduler` the tasks have run to their first suspension before the loop
begins, and put themselves into the list.  A turn of either is a turn of a round robin, in
which a job is a task with what is left of it.

* `Holds`: the pool of a scheduler stands for a queue of jobs, and for the segments so far.
* `schedule_turn`, `loop_turn`: the two loops make the turns of the round robin.
* `eager_agrees_lazy`: both execute the segments in rounds.
-/

namespace Cpp20Examples.TaskScheduler

open Lib Lib.Tasks Cpp20Examples.Schedulers

variable {ε : Type}

/-! ### The jobs -/

/-- What is left of a task, and its handle. -/
abbrev Job (ε : Type) := Body ε × Handle

def Job.next (j : Job ε) : Option (Job ε) := j.1.next.map fun b => (b, j.2)

def Job.segment (j : Job ε) : List ε := j.1.first

/-- The pool stands for the queue `q`; the segments `done` were executed. -/
structure Holds (s : Pool (List Handle) ε Unit) (q : List (Job ε)) (done : List (List ε)) :
    Prop where
  running : s.failed = false
  queue : s.queue = q.map Prod.snd
  nodup : (q.map Prod.snd).Nodup
  created : ∀ j ∈ q, j.2 < s.created.length
  frames : ∀ j ∈ q, s.frames j.2 = some (.suspended j.1.prog)
  effects : s.effects.reverse = done.flatten

/-- A task has executed a segment, and is in the list again unless it is done. -/
structure Turned (b : Body ε) (h : Handle) (s s' : Pool (List Handle) ε Unit) : Prop where
  running : s'.failed = s.failed
  queue : s'.queue = s.queue ++ (b.next.map fun _ => h).toList
  created : s'.created = s.created
  others : ∀ u, u ≠ h → s'.frames u = s.frames u
  frame : ∀ b', b.next = some b' → s'.frames h = some (.suspended b'.prog)
  effects : s'.effects = b.first.reverse ++ s.effects

section Turn

variable {s s' : Pool (List Handle) ε Unit} {q : List (Job ε)} {done : List (List ε)} {b : Body ε}
  {h : Handle}

theorem Holds.pop (hs : Holds s ((b, h) :: q) done) :
    Holds { s with queue := q.map Prod.snd } q done ∧ h ∉ q.map Prod.snd := by
  obtain ⟨hnew, hnodup⟩ := List.nodup_cons.mp hs.nodup
  exact ⟨⟨hs.running, rfl, hnodup, fun j hj => hs.created j (List.mem_cons_of_mem _ hj),
    fun j hj => hs.frames j (List.mem_cons_of_mem _ hj), hs.effects⟩, hnew⟩

theorem Holds.push {done' : List (List ε)} (hs : Holds s q done) (hh : h ∉ q.map Prod.snd)
    (hrunning : s'.failed = s.failed) (hqueue : s'.queue = s.queue ++ [h])
    (hcreated : s.created.length ≤ s'.created.length) (hlt : h < s'.created.length)
    (hothers : ∀ u, u ≠ h → s'.frames u = s.frames u)
    (hframe : s'.frames h = some (.suspended b.prog))
    (heffects : s'.effects.reverse = done'.flatten) : Holds s' (q ++ [(b, h)]) done' := by
  refine ⟨hrunning.trans hs.running, by simp [hqueue, hs.queue], ?_, ?_, ?_,
    heffects⟩
  · rw [List.map_append]
    exact List.nodup_append.mpr ⟨hs.nodup, List.nodup_singleton _, fun u hu v hv he =>
      hh ((show u = h from he.trans (List.mem_singleton.mp hv)) ▸ hu)⟩
  · intro j hj
    rcases List.mem_append.mp hj with hj | hj
    · exact (hs.created j hj).trans_le hcreated
    · obtain rfl := List.mem_singleton.mp hj
      exact hlt
  · intro j hj
    rcases List.mem_append.mp hj with hj | hj
    · rw [hothers _ fun he => hh (he ▸ List.mem_map_of_mem hj), hs.frames j hj]
    · obtain rfl := List.mem_singleton.mp hj
      exact hframe

theorem Holds.turned (hs : Holds s q done) (hh : h ∉ q.map Prod.snd) (hlt : h < s.created.length)
    (ht : Turned b h s s') :
    Holds s' (q ++ (Job.next (b, h)).toList) (done ++ [Job.segment (b, h)]) := by
  have heffects : s'.effects.reverse = (done ++ [Job.segment (b, h)]).flatten := by
    rw [ht.effects, List.reverse_append, hs.effects, List.reverse_reverse]
    simp [Job.segment]
  have hqueue := ht.queue
  cases hb : b.next with
  | none =>
    have hnext : q ++ (Job.next (b, h)).toList = q := by simp [Job.next, hb]
    rw [hnext]
    refine ⟨ht.running.trans hs.running, by simpa [hb, hs.queue] using hqueue, hs.nodup,
      fun j hj => ht.created ▸ hs.created j hj, ?_, heffects⟩
    intro j hj
    rw [ht.others _ fun he => hh (he ▸ List.mem_map_of_mem hj), hs.frames j hj]
  | some b' =>
    have hnext : q ++ (Job.next (b, h)).toList = q ++ [(b', h)] := by simp [Job.next, hb]
    rw [hnext]
    exact hs.push hh ht.running (by simpa [hb] using hqueue) (by rw [ht.created])
      (ht.created ▸ hlt) ht.others (ht.frame b' hb) heffects

theorem run_segment (k : Hooks (List Handle) Unit) (segment : List ε) (p : Prog ε Unit)
    (s : Pool (List Handle) ε Unit) : s.run k h (segment.foldr .effect p) =
      ({ s with effects := segment.reverse ++ s.effects } : Pool _ _ _).run k h p := by
  induction segment generalizing s with
  | nil => rfl
  | cons e segment ih =>
    apply (ih { s with effects := e :: s.effects }).trans
    simp

theorem run_prog (k : Hooks (List Handle) Unit) (b : Body ε) (s : Pool (List Handle) ε Unit) :
    s.run k h b.prog =
      (match b.next with
      | none => ({ s with effects := b.first.reverse ++ s.effects } : Pool _ _ _).finish h
      | some b' =>
        ({ s with effects := b.first.reverse ++ s.effects } : Pool _ _ _).suspend k h b'.prog) := by
  rw [Body.prog_eq, run_segment]
  cases b.next <;> rfl

/-- A task that is done has its frame destroyed, the others are put back: in
`queueScheduler` by the loop, which also records the turn. -/
theorem settle_eq : queueScheduler.settle h (s.run queueScheduler.hooks h b.prog) =
    { finalSuspend h (s.run hooks h b.prog) with
      turns := ⟨h, b.next.isNone⟩ :: s.turns } := by
  rw [run_prog, run_prog]
  cases b.next with
  | none => simp [Scheduler.settle, finalSuspend, queueScheduler, ofContainer, Pool.finish,
      Pool.destroy]
  | some b' => simp [Scheduler.settle, finalSuspend, queueScheduler, ofContainer, Pool.suspend,
      Scheduler.hooks, hooks, Container.queue]

theorem turned_finalSuspend : Turned b h s (finalSuspend h (s.run hooks h b.prog)) := by
  rw [run_prog]
  cases hb : b.next with
  | none =>
    have hfinal : (({ s with effects := b.first.reverse ++ s.effects } :
        Pool (List Handle) ε Unit).finish h).frames h = some .final := Function.update_self ..
    simp only [finalSuspend, hfinal]
    refine ⟨rfl, by simp [hb, Pool.destroy, Pool.finish], rfl, ?_, by simp [hb], rfl⟩
    intro u hu
    simp [Pool.destroy, Pool.finish, Function.update_of_ne hu]
  | some b' =>
    have hsuspended : (({ s with effects := b.first.reverse ++ s.effects } :
        Pool (List Handle) ε Unit).suspend hooks h b'.prog).frames h =
        some (.suspended b'.prog) := Function.update_self ..
    simp only [finalSuspend, hsuspended]
    refine ⟨rfl, by simp [hb]; rfl, rfl, fun u hu => Function.update_of_ne hu ..,
      ?_, rfl⟩
    intro b'' hb''
    obtain rfl : b' = b'' := Option.some.inj (hb.symm.trans hb'')
    exact hsuspended

theorem turned_settle :
    Turned b h s (queueScheduler.settle h (s.run queueScheduler.hooks h b.prog)) := by
  obtain ⟨hrunning, hqueue, hcreated, hothers, hframe, heffects⟩ :=
    turned_finalSuspend (b := b) (h := h) (s := s)
  rw [settle_eq]
  exact ⟨hrunning, hqueue, hcreated, hothers, hframe, heffects⟩

end Turn

/-! ### The loops -/

section Loops

variable {s : Pool (List Handle) ε Unit} {q : List (Job ε)} {done : List (List ε)}

/-- **An iteration of `queueScheduler`** is a turn of the round robin. -/
theorem schedule_turn (hs : Holds s q done) {a : List (Job ε) × List (List ε)}
    (h : RoundRobin.turn Job.next Job.segment (q, done) = some a) :
    ∃ s', queueScheduler.schedule s = some s' ∧ Holds s' a.1 a.2 := by
  cases q with
  | nil => cases h
  | cons j q =>
    obtain ⟨b, h⟩ := j
    cases h
    obtain ⟨hpop, hnew⟩ := hs.pop
    have hlt : h < s.created.length := hs.created _ List.mem_cons_self
    have hempty : queueScheduler.empty s.queue = false := by rw [hs.queue]; rfl
    have htop : queueScheduler.top s.queue = some h := by rw [hs.queue]; rfl
    have hrest : queueScheduler.pop s.queue = q.map Prod.snd := by rw [hs.queue]; rfl
    have hframe : s.frames h = some (.suspended b.prog) := hs.frames _ List.mem_cons_self
    have hrunning : (({ s with queue := q.map Prod.snd } : Pool (List Handle) ε Unit).run
        queueScheduler.hooks h b.prog).failed = false := by rw [Pool.run_failed, hs.running]
    refine ⟨_, schedule_eq hs.running hempty htop hframe ?_ hrunning,
      hpop.turned hnew hlt turned_settle⟩
    rw [hrest]
    rfl

theorem loop_eq {b : Body ε} {h : Handle} (hs : Holds s ((b, h) :: q) done) :
    ∃ s', loop (s, true) = some (s', !(q ++ (Job.next (b, h)).toList).isEmpty) ∧
      s' = finalSuspend h (({ s with queue := q.map Prod.snd } :
        Pool (List Handle) ε Unit).run hooks h b.prog) ∧
      Holds s' (q ++ (Job.next (b, h)).toList) (done ++ [Job.segment (b, h)]) := by
  obtain ⟨hpop, hnew⟩ := hs.pop
  have hlt : h < s.created.length := hs.created _ List.mem_cons_self
  have hframe : s.frames h = some (.suspended b.prog) := hs.frames _ List.mem_cons_self
  have hturned := hpop.turned hnew hlt (turned_finalSuspend (b := b))
  have hflag : (finalSuspend h (({ s with queue := q.map Prod.snd } :
      Pool (List Handle) ε Unit).run hooks h b.prog)).queue.isEmpty =
      (q ++ (Job.next (b, h)).toList).isEmpty := by
    rw [hturned.queue, List.isEmpty_map]
  refine ⟨_, ?_, rfl, hturned⟩
  rw [loop, if_neg (by simp [hs.running]), schedule, hs.queue]
  simp only [List.map_cons, hframe, Pool.resume]
  rw [hflag]

/-- **A turn of the loop of `task_scheduler`** is a turn of the round robin. -/
theorem loop_turn (hs : Holds s q done) {a : List (Job ε) × List (List ε)}
    (h : RoundRobin.turn Job.next Job.segment (q, done) = some a) :
    ∃ s', loop (s, !q.isEmpty) = some (s', !a.1.isEmpty) ∧ Holds s' a.1 a.2 := by
  cases q with
  | nil => cases h
  | cons j q =>
    cases h
    obtain ⟨s', hst, -, hs'⟩ := loop_eq hs
    exact ⟨s', hst, hs'⟩

/-- **The rounds of a loop** that makes the turns of the round robin. -/
theorem schedule_rounds (hs : Holds s q done) (n : Nat) :
    ∃ s', Steps queueScheduler.schedule s s' ∧ Holds s' (q.filterMap (RoundRobin.left Job.next n))
      (done ++ (List.range n).flatMap (RoundRobin.outputs Job.next Job.segment q)) :=
  Steps.simulate (R := fun a s => Holds s a.1 a.2)
    (fun (q, done) a s hs h => by
      obtain ⟨s', hst, hs'⟩ := schedule_turn hs h
      exact ⟨s', .single hst, hs'⟩)
    (RoundRobin.rounds _ _ n) hs

theorem loop_rounds (hs : Holds s q done) (n : Nat) :
    ∃ t, Steps loop (s, !q.isEmpty) t ∧
      t.2 = !(q.filterMap (RoundRobin.left Job.next n)).isEmpty ∧
      Holds t.1 (q.filterMap (RoundRobin.left Job.next n))
        (done ++ (List.range n).flatMap (RoundRobin.outputs Job.next Job.segment q)) :=
  Steps.simulate (R := fun a (t : Pool (List Handle) ε Unit × Bool) =>
      t.2 = !a.1.isEmpty ∧ Holds t.1 a.1 a.2)
    (fun (q, done) a t ⟨hflag, hs⟩ h => by
      obtain ⟨s', hst, hs'⟩ := loop_turn hs h
      rw [← hflag] at hst
      exact ⟨(s', !a.1.isEmpty), .single hst, rfl, hs'⟩)
    (RoundRobin.rounds _ _ n) ⟨rfl, hs⟩

end Loops

/-! ### The start -/

theorem holds_new : Holds (Pool.new [] : Pool (List Handle) ε Unit) [] [] :=
  ⟨rfl, rfl, List.nodup_nil, nofun, nofun, rfl⟩

theorem Holds.fresh {s : Pool (List Handle) ε Unit} {q : List (Job ε)} {done : List (List ε)}
    (hs : Holds s q done) : s.created.length ∉ q.map Prod.snd := by
  intro hmem
  obtain ⟨j, hj, he⟩ := List.mem_map.mp hmem
  exact (hs.created j hj).ne he

theorem holds_emplaceAll (tasks : List (Body ε)) {s : Pool (List Handle) ε Unit}
    {q : List (Job ε)} {done : List (List ε)} (hs : Holds s q done) :
    Holds (s.emplaceAll queueScheduler.hooks (tasks.map fun b => ((), b.prog)))
      (q ++ tasks.zipIdx s.created.length) done := by
  induction tasks generalizing s q with
  | nil => simpa [Pool.emplaceAll] using hs
  | cons b tasks ih =>
    have hpush : Holds (s.emplace queueScheduler.hooks () b.prog)
        (q ++ [(b, s.created.length)]) done :=
      hs.push hs.fresh rfl rfl (by simp [Pool.emplace]) (by simp [Pool.emplace])
        (fun u hu => Function.update_of_ne hu ..) (Function.update_self ..) hs.effects
    have hrest := ih hpush
    rw [Pool.emplace, List.length_append, List.length_singleton, List.append_assoc] at hrest
    exact hrest

/-- In `task_scheduler` each task has executed its first segment. -/
theorem holds_start (tasks : List (Body ε)) {s : Pool (List Handle) ε Unit} {q : List (Job ε)}
    {done : List (List ε)} (hs : Holds s q done) :
    Holds (tasks.foldl start s) (q ++ (tasks.zipIdx s.created.length).filterMap Job.next)
      (done ++ (tasks.zipIdx s.created.length).map Job.segment) := by
  induction tasks generalizing s q done with
  | nil => simpa using hs
  | cons b tasks ih =>
    have hcreated : Holds ({ s with created := s.created ++ [b.prog] } :
        Pool (List Handle) ε Unit) q done :=
      ⟨hs.running, hs.queue, hs.nodup,
        fun j hj => (hs.created j hj).trans_le (by simp), hs.frames, hs.effects⟩
    have hstart : Holds (start s b) (q ++ (Job.next (b, s.created.length)).toList)
        (done ++ [Job.segment (b, s.created.length)]) :=
      hcreated.turned hs.fresh (by simp) turned_finalSuspend
    have hlength : (start s b).created.length = s.created.length + 1 := by
      rw [start, turned_finalSuspend.created, List.length_append, List.length_singleton]
    have hrest := ih hstart
    rw [hlength] at hrest
    have hqueue : (Job.next (b, s.created.length)).toList ++
        (tasks.zipIdx (s.created.length + 1)).filterMap Job.next =
        ((b :: tasks).zipIdx s.created.length).filterMap Job.next := by
      rw [List.zipIdx_cons, List.filterMap_cons]
      cases Job.next (b, s.created.length) <;> rfl
    rw [← hqueue, ← List.append_assoc]
    simpa [List.zipIdx_cons] using hrest

/-! ### The order of the segments -/

/-- The rounds that the tasks take. -/
def roundCount (tasks : List (Body ε)) : Nat :=
  (tasks.map fun b => b.segments.length).foldr max 0

/-- The segments in the order of a round robin: in the round `r` the `r`th segments of the
tasks that have one. -/
def rounds (tasks : List (Body ε)) : List (List ε) :=
  (List.range (roundCount tasks)).flatMap fun r => tasks.filterMap fun b => b.segments[r]?

theorem left_job (j : Job ε) (r : Nat) : RoundRobin.left Job.next r j =
    (Body.ofSegments (j.1.segments.drop r)).map fun b => (b, j.2) := by
  induction r with
  | zero => rfl
  | succ r ih =>
    rw [RoundRobin.left, ih, ← List.drop_drop]
    cases h : j.1.segments.drop r with
    | nil => rfl
    | cons first rest => rfl

theorem outputs_eq (tasks : List (Body ε)) (n r : Nat) :
    RoundRobin.outputs Job.next Job.segment (tasks.zipIdx n) r =
      tasks.filterMap fun b => b.segments[r]? := by
  have hsegment : ∀ j : Job ε, (RoundRobin.left Job.next r j).map Job.segment =
      j.1.segments[r]? := by
    intro j
    rw [left_job, ← List.head?_drop]
    cases j.1.segments.drop r <;> rfl
  rw [RoundRobin.outputs, List.map_filterMap]
  have hmap : tasks.filterMap (fun b => b.segments[r]?) =
      ((tasks.zipIdx n).map Prod.fst).filterMap fun b => b.segments[r]? := by
    rw [List.zipIdx_map_fst]
  rw [hmap, List.filterMap_map]
  exact congrArg (List.filterMap · _) (funext hsegment)

theorem length_le_roundCount {tasks : List (Body ε)} {b : Body ε} (hb : b ∈ tasks) :
    b.segments.length ≤ roundCount tasks := by
  induction tasks with
  | nil => cases hb
  | cons b' tasks ih =>
    rw [roundCount, List.map_cons, List.foldr_cons]
    rcases List.mem_cons.mp hb with rfl | hb
    · exact le_max_left ..
    · exact (ih hb).trans (le_max_right ..)

theorem filterMap_left_eq_nil (tasks : List (Body ε)) (n : Nat) :
    (tasks.zipIdx n).filterMap (RoundRobin.left Job.next (roundCount tasks)) = [] := by
  apply List.filterMap_eq_nil_iff.mpr
  intro j hj
  have hle := length_le_roundCount (List.fst_mem_of_mem_zipIdx hj)
  rw [left_job, List.drop_eq_nil_of_le hle]
  rfl

theorem flatMap_outputs (tasks : List (Body ε)) (n m : Nat) :
    (List.range m).flatMap (RoundRobin.outputs Job.next Job.segment (tasks.zipIdx n)) =
      (List.range m).flatMap fun r => tasks.filterMap fun b => b.segments[r]? :=
  congrArg (List.flatMap · _) (funext fun r => outputs_eq tasks n r)

theorem lazy_rounds (tasks : List (Body ε)) :
    ∃ s, Steps queueScheduler.schedule
        (queueScheduler.emplaced (tasks.map fun b => ((), b.prog))) s ∧
      Holds s [] (rounds tasks) := by
  obtain ⟨s, hsteps, hs⟩ := schedule_rounds (holds_emplaceAll tasks holds_new) (roundCount tasks)
  refine ⟨s, hsteps, ?_⟩
  rw [List.nil_append, List.nil_append, filterMap_left_eq_nil, flatMap_outputs] at hs
  exact hs

theorem not_empty_of_suspends {tasks : List (Body ε)} {b : Body ε} (hb : b ∈ tasks)
    (hrest : b.rest ≠ []) : ((tasks.zipIdx 0).filterMap Job.next).isEmpty = false := by
  obtain ⟨i, hi⟩ := List.mem_iff_getElem?.mp hb
  have hmem : (b, i) ∈ tasks.zipIdx 0 := List.mk_mem_zipIdx_iff_getElem?.mpr hi
  obtain ⟨segment, rest, hr⟩ := List.exists_cons_of_ne_nil hrest
  have hnext : Job.next (b, i) = some (⟨segment, rest⟩, i) := by
    rw [Job.next, Body.next, hr]
    rfl
  exact List.isEmpty_eq_false_iff_exists_mem.mpr ⟨_, List.mem_filterMap.mpr ⟨_, hmem, hnext⟩⟩

/-- `task_scheduler` executes them too when a task suspends: the first round before the
loop. -/
theorem eager_rounds {tasks : List (Body ε)} (h : ∃ b ∈ tasks, b.rest ≠ []) :
    ∃ t, Steps loop (started tasks, true) t ∧ t.2 = false ∧ Holds t.1 [] (rounds tasks) := by
  obtain ⟨b, hb, hrest⟩ := h
  have hpos : roundCount tasks ≠ 0 :=
    ((Nat.succ_pos _).trans_le (length_le_roundCount hb)).ne'
  obtain ⟨n, hn⟩ := Nat.exists_eq_succ_of_ne_zero hpos
  have hstart := holds_start tasks holds_new
  obtain ⟨t, hsteps, hflag, ht⟩ := loop_rounds hstart n
  have hleft : ((tasks.zipIdx 0).filterMap Job.next).filterMap (RoundRobin.left Job.next n) =
      [] := by
    rw [RoundRobin.filterMap_left_next, ← Nat.succ_eq_add_one, ← hn, filterMap_left_eq_nil]
  have hdone : (tasks.zipIdx 0).map Job.segment ++ (List.range n).flatMap
      (RoundRobin.outputs Job.next Job.segment ((tasks.zipIdx 0).filterMap Job.next)) =
      rounds tasks := by
    rw [← RoundRobin.outputs_succ, flatMap_outputs, rounds, hn]
  have hnew : (Pool.new [] : Pool (List Handle) ε Unit).created.length = 0 := rfl
  rw [hnew, List.nil_append, not_empty_of_suspends hb hrest] at hsteps
  rw [hnew, List.nil_append, hleft] at hflag
  rw [hnew, List.nil_append, List.nil_append, hleft, hdone] at ht
  exact ⟨t, hsteps, hflag, ht⟩

/-- **Eager and lazy round robin agree.**  When a task suspends, both loops end without a
failure, and what they have executed are the first segments of the tasks, in their order,
then the second ones, and so on. -/
theorem eager_agrees_lazy (tasks : List (Body ε)) (h : ∃ b ∈ tasks, b.rest ≠ []) :
    ∃ s t, Steps queueScheduler.schedule
        (queueScheduler.emplaced (tasks.map fun b => ((), b.prog))) s ∧
      queueScheduler.schedule s = none ∧ s.failed = false ∧
      Steps loop (started tasks, true) t ∧ loop t = none ∧ t.1.failed = false ∧
      s.effects.reverse = (rounds tasks).flatten ∧
      t.1.effects.reverse = (rounds tasks).flatten := by
  obtain ⟨s, hsteps, hs⟩ := lazy_rounds tasks
  obtain ⟨t, hsteps', hflag, ht⟩ := eager_rounds h
  have hempty : queueScheduler.empty s.queue = true := by rw [hs.queue]; rfl
  have hstop : loop t = none := by rw [loop, hflag, Bool.not_false, Bool.or_true, if_pos rfl]
  exact ⟨s, t, hsteps, schedule_of_empty hempty, hs.running, hsteps', hstop, ht.running,
    hs.effects, ht.effects⟩

/-- The tasks of `task_scheduler`, and one that suspends once. -/
theorem eager_agrees_lazy_three :
    ∃ t, Steps loop (started [⟨["A0"], [["A1"], ["A2"]]⟩, ⟨["B0"], [["B1"]]⟩,
        ⟨["C0"], [["C1"], ["C2"]]⟩], true) t ∧ loop t = none ∧
      t.1.effects.reverse = ["A0", "B0", "C0", "A1", "B1", "C1", "A2", "C2"] := by
  obtain ⟨-, t, -, -, -, hsteps, hstop, -, -, heffects⟩ :=
    eager_agrees_lazy [⟨["A0"], [["A1"], ["A2"]]⟩, ⟨["B0"], [["B1"]]⟩, ⟨["C0"], [["C1"], ["C2"]]⟩]
      ⟨_, List.mem_cons_self, by decide⟩
  exact ⟨t, hsteps, hstop, heffects.trans (by decide)⟩

end Cpp20Examples.TaskScheduler
