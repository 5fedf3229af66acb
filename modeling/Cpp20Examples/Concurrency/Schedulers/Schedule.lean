import Cpp20Examples.Lib.Container
import Cpp20Examples.Lib.Machine
import Cpp20Examples.Lib.Tasks
import Mathlib.Algebra.BigOperators.Group.Multiset.Basic

/-!
# The schedulers that own their tasks

`queueScheduler`, `stackScheduler`, `priority_queueSchedulerComperator` and
`priority_queueSchedulerUpdatePriority` share one loop: `schedule` takes a job out of
the container, resumes its task, and puts the job back or destroys the task.  They
differ in the container, and in what is put back.

A step of `schedule` is one iteration of the loop.
-/

namespace Cpp20Examples.Schedulers

open Lib Lib.Tasks

/-- `Q` is the container with what `schedule` keeps besides, and a task is emplaced
with an `L`.  The specifications say which tasks are in the container. -/
structure Scheduler (Q J L : Type) where
  new : Q
  empty : Q → Bool
  top : Q → Option J
  pop : Q → Q
  emplace : L → Handle → Q → Q
  /-- the `push` behind `resume()` -/
  push : J → Q → Q
  task : J → Handle
  tasks : Q → Multiset Handle
  tasks_new : tasks new = 0
  empty_iff : ∀ q, empty q = true ↔ tasks q = 0
  exists_top : ∀ q, empty q = false → ∃ j, top q = some j ∧ tasks q = task j ::ₘ tasks (pop q)
  tasks_emplace : ∀ l h q, tasks (emplace l h q) = h ::ₘ tasks q
  tasks_push : ∀ j q, tasks (push j q) = task j ::ₘ tasks q

variable {Q J L ε K U : Type}

namespace Scheduler

/-- `co_await sch.suspend()` leaves the container as it is. -/
def hooks (S : Scheduler Q J L) : Hooks Q L := ⟨S.emplace, fun _ q => q⟩

/-- The tasks that are emplaced in front of `schedule`. -/
def emplaced (S : Scheduler Q J L) (tasks : List (L × Prog ε L)) : Pool Q ε L :=
  (Pool.new S.new).emplaceAll S.hooks tasks

/-- What follows `task.resume()` in the loop. -/
def settle (S : Scheduler Q J L) (job : J) (s : Pool Q ε L) : Pool Q ε L :=
  match s.frames (S.task job) with
  | none => { s with failed := true }
  | some (.suspended _) =>
    { s with queue := S.push job s.queue, turns := ⟨S.task job, false⟩ :: s.turns }
  | some .final => { s.destroy (S.task job) with turns := ⟨S.task job, true⟩ :: s.turns }

/-- One iteration of the loop of `schedule`. -/
def schedule (S : Scheduler Q J L) (s : Pool Q ε L) : Option (Pool Q ε L) :=
  if s.failed || S.empty s.queue then none
  else
    match S.top s.queue with
    | none => some { s with failed := true }
    | some job =>
      let s := ({ s with queue := S.pop s.queue } : Pool Q ε L).resume S.hooks (S.task job)
      some (if s.failed then s else S.settle job s)

end Scheduler

/-- A scheduler whose jobs are the handles. -/
def ofContainer (c : Container K Handle) : Scheduler K Handle Unit where
  new := c.new
  empty := c.empty
  top := c.top
  pop := c.pop
  emplace _ h q := c.push h q
  push := c.push
  task h := h
  tasks := c.items
  tasks_new := c.items_new
  empty_iff := c.empty_iff
  exists_top := c.exists_top
  tasks_emplace _ := c.items_push
  tasks_push := c.items_push

def queueScheduler : Scheduler (List Handle) Handle Unit := ofContainer (Container.queue Handle)

def stackScheduler : Scheduler (List Handle) Handle Unit := ofContainer (Container.stack Handle)

abbrev Job := Int × Handle

/-- `std::ranges::less` on jobs -/
def less (a b : Job) : Bool := a.1 < b.1 || (a.1 == b.1 && a.2 < b.2)

instance : IsStrictOrder Job fun a b => less a b = true where
  irrefl a := by simp [less]
  trans a b c := by
    simp only [less, Bool.or_eq_true, Bool.and_eq_true, decide_eq_true_eq, beq_iff_eq]
    rintro (h | ⟨h, h'⟩) (g | ⟨g, g'⟩)
    · exact .inl (h.trans g)
    · exact .inl (g ▸ h)
    · exact .inl (h ▸ g)
    · exact .inr ⟨h.trans g, Nat.lt_trans h' g'⟩

theorem exists_top_job (c : Container K Job) (q : K) (hq : c.empty q = false) :
    ∃ j, c.top q = some j ∧
      (c.items q).map Prod.snd = j.2 ::ₘ (c.items (c.pop q)).map Prod.snd := by
  obtain ⟨j, hj, hitems⟩ := c.exists_top q hq
  exact ⟨j, hj, by rw [hitems, Multiset.map_cons]⟩

/-- `priority_queueSchedulerComperator` -/
def comparatorScheduler {comp : Job → Job → Bool} (c : PriorityQueue K Job comp) :
    Scheduler K Job Int where
  new := c.new
  empty := c.empty
  top := c.top
  pop := c.pop
  emplace prio h q := c.push (prio, h) q
  push := c.push
  task := Prod.snd
  tasks q := (c.items q).map Prod.snd
  tasks_new := by rw [c.items_new, Multiset.map_zero]
  empty_iff q := by rw [c.empty_iff, Multiset.map_eq_zero]
  exists_top := exists_top_job c.toContainer
  tasks_emplace prio h q := by rw [c.items_push, Multiset.map_cons]
  tasks_push j q := by rw [c.items_push, Multiset.map_cons]

/-- `priority_queueSchedulerUpdatePriority`; `upd` is a function object, with a state
`U`. -/
def updatePriorityScheduler {comp : Job → Job → Bool} (c : PriorityQueue K Job comp)
    (upd : Int → U → Int × U) (u : U) : Scheduler (K × U) Job Int where
  new := (c.new, u)
  empty q := c.empty q.1
  top q := c.top q.1
  pop q := (c.pop q.1, q.2)
  emplace prio h q := (c.push (prio, h) q.1, q.2)
  push j q := (c.push ((upd j.1 q.2).1, j.2) q.1, (upd j.1 q.2).2)
  task := Prod.snd
  tasks q := (c.items q.1).map Prod.snd
  tasks_new := by rw [c.items_new, Multiset.map_zero]
  empty_iff q := by rw [c.empty_iff, Multiset.map_eq_zero]
  exists_top q := exists_top_job c.toContainer q.1
  tasks_emplace prio h q := by rw [c.items_push, Multiset.map_cons]
  tasks_push j q := by rw [c.items_push, Multiset.map_cons]

end Cpp20Examples.Schedulers
