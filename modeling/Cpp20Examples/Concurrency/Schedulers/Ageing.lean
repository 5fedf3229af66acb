import Cpp20Examples.Concurrency.Schedulers.Priority
import Mathlib.Algebra.Order.Group.Abs
import Mathlib.Algebra.Order.Group.Int

/-!
# Priorities that age

The second scheduler of `priority_queueSchedulerUpdatePriority`: a task that suspends is put
back with its priority lowered by one.

* `Aged`: the priorities in the container, and how far they are apart.
* `aged_schedule`: an iteration keeps them so.
* `ages_fairly`: what holds in each iteration of the loop.
-/

namespace Cpp20Examples.Schedulers

open Lib Lib.Tasks

variable {K ε : Type} {address : Handle → Nat}

/-- `[](int a) { return a - 1; }`, without a state. -/
def ageing (a : Int) (u : Unit) : Int × Unit := (a - 1, u)

abbrev ageingScheduler (c : PriorityQueue K Job (lessAt address)) : Scheduler (K × Unit) Job Int :=
  updatePriorityScheduler c ageing ()

/-- The task has not been destroyed. -/
def Unfinished (s : Pool (K × Unit) ε Int) (h : Handle) : Prop :=
  ∃ rest, s.frames h = some (.suspended rest)

/-- A job and its task: the priority that the task was emplaced with, less its turns. -/
structure IsAged (es : List (Job × Prog ε Int)) (s : Pool (K × Unit) ε Int) (j : Job) : Prop where
  prio : ∃ e ∈ es, e.1.2 = j.2 ∧ j.1 = e.1.1 - (s.turnsOf j.2).length
  suspended : ∃ rest : Prog ε Int, rest.Alone ∧ s.frames j.2 = some (.suspended rest)

/-- **The invariant of the iterations.**  A task that has had a turn was on top then, and
has lost one since. -/
structure Aged (c : PriorityQueue K Job (lessAt address)) (es : List (Job × Prog ε Int))
    (s : Pool (K × Unit) ε Int) : Prop where
  failed : s.failed = false
  nodup : ((c.items s.queue.1).map Prod.snd).Nodup
  jobs : ∀ j ∈ c.items s.queue.1, IsAged es s j
  queued : ∀ h, Unfinished s h → ∃ j ∈ c.items s.queue.1, j.2 = h
  close : ∀ i ∈ c.items s.queue.1, ∀ j ∈ c.items s.queue.1, s.turnsOf j.2 ≠ [] → i.1 - 1 ≤ j.1

variable {c : PriorityQueue K Job (lessAt address)} {es : List (Job × Prog ε Int)}
  {s s' : Pool (K × Unit) ε Int}

/-- What is on top has the greatest priority. -/
theorem prio_le_of_top {k : K} {job : Job} (htop : c.top k = some job) :
    ∀ j ∈ c.items k, j.1 ≤ job.1 := by
  intro j hj
  have hmax := c.top_max k job htop j hj
  rw [← Bool.not_eq_true, lessAt_iff] at hmax
  omega

theorem turnsOf_cons_of_ne {h g : Handle} {b : Bool} (hturns : s'.turns = ⟨h, b⟩ :: s.turns)
    (hne : g ≠ h) : s'.turnsOf g = s.turnsOf g := by
  simp [Pool.turnsOf, hturns, Ne.symm hne]

theorem turnsOf_cons_self {h : Handle} {b : Bool} (hturns : s'.turns = ⟨h, b⟩ :: s.turns) :
    s'.turnsOf h = ⟨h, b⟩ :: s.turnsOf h := by
  simp [Pool.turnsOf, hturns]

theorem IsAged.of_ne {h : Handle} {b : Bool} {j : Job} (hj : IsAged es s j) (hne : j.2 ≠ h)
    (hturns : s'.turns = ⟨h, b⟩ :: s.turns) (hframe : s'.frames j.2 = s.frames j.2) :
    IsAged es s' j := by
  obtain ⟨e, he, hhandle, hprio⟩ := hj.prio
  refine ⟨⟨e, he, hhandle, ?_⟩, ?_⟩
  · rw [turnsOf_cons_of_ne hturns hne]
    exact hprio
  · rw [hframe]
    exact hj.suspended

/-- The jobs that stay in the container when the one on top is taken out. -/
structure Taken (c : PriorityQueue K Job (lessAt address)) (s : Pool (K × Unit) ε Int)
    (job : Job) : Prop where
  empty : c.empty s.queue.1 = false
  top : c.top s.queue.1 = some job
  items : c.items s.queue.1 = job ::ₘ c.items (c.pop s.queue.1)
  ne : ∀ j ∈ c.items (c.pop s.queue.1), j.2 ≠ job.2

theorem Aged.take (hs : Aged c es s) (he : c.empty s.queue.1 = false) :
    ∃ job, Taken c s job := by
  obtain ⟨job, htop, hitems⟩ := c.exists_top _ he
  have hnodup := hs.nodup
  rw [hitems, Multiset.map_cons, Multiset.nodup_cons] at hnodup
  refine ⟨job, he, htop, hitems, ?_⟩
  intro j hj heq
  exact hnodup.1 (heq ▸ Multiset.mem_map_of_mem _ hj)

theorem Taken.mem_of_pop {job j : Job} (h : Taken c s job)
    (hj : j ∈ c.items (c.pop s.queue.1)) : j ∈ c.items s.queue.1 := by
  rw [h.items]
  exact Multiset.mem_cons_of_mem hj

theorem Taken.mem {job : Job} (h : Taken c s job) : job ∈ c.items s.queue.1 := by
  rw [h.items]
  exact Multiset.mem_cons_self _ _

theorem Aged.finish {job : Job} {p : Prog ε Int} (hs : Aged c es s) (h : Taken c s job) :
    Aged c es (finished (ageingScheduler c) job p s) := by
  have hframes : ∀ g, g ≠ job.2 →
      (finished (ageingScheduler c) job p s).frames g = s.frames g :=
    fun g hg => Function.update_of_ne hg _ _
  have hturns : (finished (ageingScheduler c) job p s).turns = ⟨job.2, true⟩ :: s.turns := rfl
  have hnodup := hs.nodup
  rw [h.items, Multiset.map_cons, Multiset.nodup_cons] at hnodup
  refine ⟨hs.failed, hnodup.2, ?_, ?_, ?_⟩
  · intro j hj
    exact (hs.jobs j (h.mem_of_pop hj)).of_ne (h.ne j hj) rfl (hframes _ (h.ne j hj))
  · intro g hg
    have hne : g ≠ job.2 := by
      rintro rfl
      obtain ⟨rest, hrest⟩ := hg
      exact absurd ((Function.update_self _ _ _).symm.trans hrest) (by simp)
    obtain ⟨rest, hrest⟩ := hg
    obtain ⟨j, hj, rfl⟩ := hs.queued g ⟨rest, (hframes g hne).symm.trans hrest⟩
    rw [h.items, Multiset.mem_cons] at hj
    rcases hj with rfl | hj
    · exact absurd rfl hne
    · exact ⟨j, hj, rfl⟩
  · intro i hi j hj hran
    rw [turnsOf_cons_of_ne hturns (h.ne j hj)] at hran
    exact hs.close i (h.mem_of_pop hi) j (h.mem_of_pop hj) hran

/-- The task on top is put back, one lower. -/
theorem Aged.age {job : Job} {effects : List ε} {rest : Prog ε Int} (hs : Aged c es s)
    (h : Taken c s job) (hrest : rest.Alone) :
    Aged c es (putBack (ageingScheduler c) job effects rest s) := by
  have hitems : c.items (putBack (ageingScheduler c) job effects rest s).queue.1 =
      (job.1 - 1, job.2) ::ₘ c.items (c.pop s.queue.1) := c.items_push _ _
  have hframes : ∀ g, g ≠ job.2 →
      (putBack (ageingScheduler c) job effects rest s).frames g = s.frames g :=
    fun g hg => Function.update_of_ne hg _ _
  have hself : (putBack (ageingScheduler c) job effects rest s).frames job.2 =
      some (.suspended rest) := Function.update_self _ _ _
  have hturns : (putBack (ageingScheduler c) job effects rest s).turns =
      ⟨job.2, false⟩ :: s.turns := rfl
  have hle := prio_le_of_top h.top
  have hnodup := hs.nodup
  rw [h.items, Multiset.map_cons] at hnodup
  refine ⟨hs.failed, ?_, ?_, ?_, ?_⟩
  · rw [hitems, Multiset.map_cons]
    exact hnodup
  · intro j hj
    rw [hitems, Multiset.mem_cons] at hj
    rcases hj with rfl | hj
    · obtain ⟨e, he, hhandle, hprio⟩ := (hs.jobs job h.mem).prio
      refine ⟨⟨e, he, hhandle, ?_⟩, rest, hrest, hself⟩
      rw [turnsOf_cons_self hturns, List.length_cons, hprio]
      omega
    · exact (hs.jobs j (h.mem_of_pop hj)).of_ne (h.ne j hj) hturns (hframes _ (h.ne j hj))
  · intro g hg
    rw [hitems]
    by_cases hne : g = job.2
    · exact ⟨_, Multiset.mem_cons_self _ _, hne.symm⟩
    · obtain ⟨rest', hrest'⟩ := hg
      obtain ⟨j, hj, rfl⟩ := hs.queued g ⟨rest', (hframes g hne).symm.trans hrest'⟩
      rw [h.items, Multiset.mem_cons] at hj
      rcases hj with rfl | hj
      · exact absurd rfl hne
      · exact ⟨j, Multiset.mem_cons_of_mem hj, rfl⟩
  · intro i hi j hj hran
    rw [hitems, Multiset.mem_cons] at hi hj
    -- the task on top had the greatest priority, and is now one below that
    rcases hj with rfl | hj
    · rcases hi with rfl | hi
      · omega
      · have hi := hle i (h.mem_of_pop hi)
        omega
    · rw [turnsOf_cons_of_ne hturns (h.ne j hj)] at hran
      rcases hi with rfl | hi
      · have hclose := hs.close job h.mem j (h.mem_of_pop hj) hran
        omega
      · exact hs.close i (h.mem_of_pop hi) j (h.mem_of_pop hj) hran

/-- **An iteration resumes the task with the greatest priority**, and keeps the
invariant. -/
theorem aged_schedule (hs : Aged c es s) (hst : (ageingScheduler c).schedule s = some s') :
    Aged c es s' ∧ ∃ job b, job ∈ c.items s.queue.1 ∧ s'.turns = ⟨job.2, b⟩ :: s.turns ∧
      ∀ j ∈ c.items s.queue.1, j.1 ≤ job.1 := by
  have he : c.empty s.queue.1 = false := by
    by_contra hempty
    have hempty : c.empty s.queue.1 = true := by simpa using hempty
    have hnone : (ageingScheduler c).schedule s = none := schedule_of_empty hempty
    exact absurd (hnone.symm.trans hst) (by simp)
  obtain ⟨job, h⟩ := hs.take he
  obtain ⟨rest, halone, hp⟩ := (hs.jobs job h.mem).suspended
  rcases schedule_of_alone (S := ageingScheduler c) hs.failed he h.top hp halone with
    ⟨-, heq⟩ | ⟨effects, rest', hrest, -, -, heq⟩
  · obtain rfl := Option.some.inj (heq.symm.trans hst)
    exact ⟨hs.finish h, job, true, h.mem, rfl, prio_le_of_top h.top⟩
  · obtain rfl := Option.some.inj (heq.symm.trans hst)
    exact ⟨hs.age h hrest, job, false, h.mem, rfl, prio_le_of_top h.top⟩

theorem aged_emplaced {tasks : List (Int × Prog ε Int)} (halone : ∀ t ∈ tasks, t.2.Alone) :
    Aged c (entries tasks) ((ageingScheduler c).emplaced tasks) := by
  have hstart := queued_emplaced (S := ageingScheduler c) (fun q => c.items q.1) c.items_new
    (fun prio h q => c.items_push (prio, h) q.1) tasks
  have hturnsOf : ∀ h, ((ageingScheduler c).emplaced tasks).turnsOf h = [] := by
    intro h
    rw [Pool.turnsOf, hstart.turns, List.filter_nil]
  refine ⟨hstart.failed, ?_, ?_, ?_, ?_⟩
  · rw [hstart.items, Multiset.map_coe, List.map_map, Multiset.coe_nodup]
    exact nodup_entriesFrom 0 tasks
  · intro j hj
    rw [hstart.items, Multiset.mem_coe, List.mem_map] at hj
    obtain ⟨e, he, rfl⟩ := hj
    refine ⟨⟨e, he, rfl, ?_⟩, e.2, alone_entriesFrom halone he, hstart.suspended e he⟩
    rw [hturnsOf, List.length_nil]
    omega
  · intro h hh
    obtain ⟨rest, hrest⟩ := hh
    obtain ⟨e, he, heq⟩ := hstart.only h _ hrest
    refine ⟨e.1, ?_, heq⟩
    rw [hstart.items]
    exact List.mem_map_of_mem he
  · intro i _ j _ hran
    exact absurd (hturnsOf j.2) hran

/-! ### Fairness -/

/-- The priority that a task was emplaced with, less the times it was resumed. -/
def currentPrio (s : Pool (K × Unit) ε Int) (e : Job × Prog ε Int) : Int :=
  e.1.1 - (s.turnsOf e.1.2).length

/-- The job of a task that has not finished is in the container with its current priority. -/
theorem Aged.mem_items_iff (hs : Aged c es s) (hnodup : (es.map fun e => e.1.2).Nodup)
    {e : Job × Prog ε Int} (he : e ∈ es) (hunfinished : Unfinished s e.1.2) (prio : Int) :
    (prio, e.1.2) ∈ c.items s.queue.1 ↔ prio = currentPrio s e := by
  have hprio : ∀ j ∈ c.items s.queue.1, j.2 = e.1.2 → j.1 = currentPrio s e := by
    intro j hj heq
    obtain ⟨e', he', hhandle, hprio⟩ := (hs.jobs j hj).prio
    obtain rfl := List.inj_on_of_nodup_map hnodup he' he (hhandle.trans heq)
    rw [hprio, currentPrio, heq]
  constructor
  · intro hmem
    exact hprio _ hmem rfl
  · rintro rfl
    obtain ⟨j, hj, heq⟩ := hs.queued _ hunfinished
    rwa [← hprio j hj heq, ← heq]

/-- What ageing should do, between two iterations of `schedule`. -/
structure AgesFairly (c : PriorityQueue K Job (lessAt address)) (tasks : List (Int × Prog ε Int))
    (s : Pool (K × Unit) ε Int) : Prop where
  prio : ∀ e ∈ entries tasks, Unfinished s e.1.2 → ∀ prio,
    (prio, e.1.2) ∈ c.items s.queue.1 ↔ prio = currentPrio s e
  greatest : ∀ s', (ageingScheduler c).schedule s = some s' →
    ∃ e ∈ entries tasks, Unfinished s e.1.2 ∧ (∃ b, s'.turns = ⟨e.1.2, b⟩ :: s.turns) ∧
      ∀ i ∈ entries tasks, Unfinished s i.1.2 → currentPrio s i ≤ currentPrio s e
  close : ∀ i ∈ entries tasks, ∀ j ∈ entries tasks, Unfinished s i.1.2 → Unfinished s j.1.2 →
    s.turnsOf j.1.2 ≠ [] → currentPrio s i - 1 ≤ currentPrio s j
  ran : ∀ i ∈ entries tasks, ∀ j ∈ entries tasks, Unfinished s i.1.2 → Unfinished s j.1.2 →
    s.turnsOf i.1.2 ≠ [] → s.turnsOf j.1.2 ≠ [] → |currentPrio s i - currentPrio s j| ≤ 1

/-- **Ageing is fair** in every iteration: two tasks that have both run and not finished have
priorities that differ by one at most. -/
theorem ages_fairly (c : PriorityQueue K Job (lessAt address)) {tasks : List (Int × Prog ε Int)}
    (halone : ∀ t ∈ tasks, t.2.Alone) {s : Pool (K × Unit) ε Int}
    (hs : Steps (ageingScheduler c).schedule ((ageingScheduler c).emplaced tasks) s) :
    AgesFairly c tasks s := by
  have haged : Aged c (entries tasks) s :=
    hs.invariant (fun s s' hs hst => (aged_schedule hs hst).1) (aged_emplaced halone)
  have hnodup := nodup_entriesFrom 0 tasks
  have hmem : ∀ e ∈ entries tasks, Unfinished s e.1.2 →
      (currentPrio s e, e.1.2) ∈ c.items s.queue.1 := fun e he hunfinished =>
    (haged.mem_items_iff hnodup he hunfinished _).mpr rfl
  have hclose : ∀ i ∈ entries tasks, ∀ j ∈ entries tasks, Unfinished s i.1.2 →
      Unfinished s j.1.2 → s.turnsOf j.1.2 ≠ [] → currentPrio s i - 1 ≤ currentPrio s j :=
    fun i hi j hj hui huj hran => haged.close _ (hmem i hi hui) _ (hmem j hj huj) hran
  refine ⟨fun e he hunfinished => haged.mem_items_iff hnodup he hunfinished, ?_, hclose, ?_⟩
  · intro s' hst
    obtain ⟨-, job, b, hjob, hturns, hle⟩ := aged_schedule haged hst
    obtain ⟨e, he, hhandle, hprio⟩ := (haged.jobs job hjob).prio
    have hcurrent : job.1 = currentPrio s e := by rw [hprio, currentPrio, hhandle]
    obtain ⟨rest, -, hrest⟩ := (haged.jobs job hjob).suspended
    refine ⟨e, he, ⟨rest, hhandle ▸ hrest⟩, ⟨b, hhandle ▸ hturns⟩, ?_⟩
    intro i hi hui
    rw [← hcurrent]
    exact hle _ (hmem i hi hui)
  · intro i hi j hj hui huj hrani hranj
    have hij := hclose i hi j hj hui huj hranj
    have hji := hclose j hj i hi huj hui hrani
    rw [abs_le]
    omega

/-- The coroutine of `main`. -/
def ageingTask (name : String) : Prog String Int :=
  .effect (name ++ " start") (.yield
    (.effect (name ++ " execute 0") (.yield (.effect (name ++ " execute 1") (.yield
    (.effect (name ++ " execute 2") (.yield (.effect (name ++ " execute 3") (.yield (.yield
    (.effect (name ++ " finish") .done)))))))))))

def ageingTasks : List (Int × Prog String Int) :=
  [(0, ageingTask "TaskA"), (1, ageingTask "  TaskB"), (2, ageingTask "    TaskC")]

/-- `scheduler2` of `main`. -/
def scheduler2 : Scheduler (List Job × Unit) Job Int :=
  ageingScheduler (PriorityQueue.listPriorityQueue (lessAt id))

/-- Its state after eight iterations. -/
theorem ages_fairly_main : ∃ s, Steps scheduler2.schedule (scheduler2.emplaced ageingTasks) s ∧
    s.turns.map Turn.task = [1, 2, 0, 1, 2, 1, 2, 2] ∧
    AgesFairly (PriorityQueue.listPriorityQueue (lessAt id)) ageingTasks s := by
  have hsteps : Steps scheduler2.schedule (scheduler2.emplaced ageingTasks)
      (runFor scheduler2.schedule 8 (scheduler2.emplaced ageingTasks)) := steps_runFor 8 _
  refine ⟨_, hsteps, ?_, ?_⟩
  · decide +kernel
  · exact ages_fairly _ (by simp [ageingTasks, ageingTask, Prog.Alone]) hsteps

end Cpp20Examples.Schedulers
