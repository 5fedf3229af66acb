import Cpp20Examples.Concurrency.Schedulers.Schedule
import Mathlib.Data.List.Basic

/-!
# The order of `stackScheduler`

`schedule` takes a task off the stack, resumes it, and pushes it again behind `resume()` when
it is not done: then it lies on top of the tasks that it has emplaced meanwhile.  So a task is
resumed until it is done, and the tasks that it has emplaced are on top of the stack then, the
last one above the others.

* `forest`: the tasks, by who emplaces whom; `traversal`: depth first, the last child first.
* `own_run`: a task runs to its end, with no other one in between.
* `descends`: the tasks that it emplaces follow, with all that come from them.
* `schedule_traverses`: the trace of `schedule` is the traversal of the forest.
-/

namespace Cpp20Examples.Schedulers

open Lib Lib.Tasks

variable {ε : Type}

/-! ### The forest -/

/-- A task with its program, and the tasks that it emplaces, the first one first. -/
inductive SpawnTree (ε : Type)
  | node (task : Handle) (p : Prog ε Unit) (children : List (SpawnTree ε))

/-- The trees of the tasks that `p` emplaces, which have the handles from `first` on.  Handles
are given in the order of creation: `next` is that of the first task that one of these tasks
creates, and the one behind the last such task comes with the trees. -/
def forest : Prog ε Unit → Nat → Nat → List (SpawnTree ε) × Nat
  | .done, _, next => ([], next)
  | .effect _ rest, first, next => forest rest first next
  | .yield rest, first, next => forest rest first next
  | .spawn _ child rest, first, next =>
    let later := forest rest (first + 1) next
    let below := forest child later.2 (later.2 + child.children.length)
    (.node first child below.1 :: later.1, below.2)

mutual

/-- A task is visited before those that it emplaces. -/
def SpawnTree.traversal : SpawnTree ε → List (Handle × Prog ε Unit)
  | .node task p children => (task, p) :: traversal children

/-- Depth first, the last child first. -/
def traversal : List (SpawnTree ε) → List (Handle × Prog ε Unit)
  | [] => []
  | t :: ts => traversal ts ++ t.traversal

end

/-- What is emplaced in front of `schedule`, as the program of `main`. -/
def emplacing : List (Unit × Prog ε Unit) → Prog ε Unit
  | [] => .done
  | t :: tasks => .spawn t.1 t.2 (emplacing tasks)

/-- The tasks that are emplaced in front of `schedule`, with all that come from them. -/
def spawnForest (tasks : List (Unit × Prog ε Unit)) : List (SpawnTree ε) :=
  (forest (emplacing tasks) 0 tasks.length).1

/-- The turns of a task, from its first to its last. -/
def completeRun (v : Handle × Prog ε Unit) : List Turn :=
  List.replicate v.2.yields ⟨v.1, false⟩ ++ [⟨v.1, true⟩]

/-! ### The run of one task -/

section Run

variable {h : Nat} {p rest child : Prog ε Unit} {s s' : Pool (List Handle) ε Unit}

/-- From `s` on, the task `h` has run `p` to its end. -/
structure Ran (h : Nat) (p : Prog ε Unit) (s s' : Pool (List Handle) ε Unit) : Prop where
  failed : s'.failed = false
  queue : s'.queue = (List.range' s.created.length p.children.length).reverse ++ s.queue
  created : s'.created = s.created ++ p.children
  children : ∀ (i : Nat) c, p.children[i]? = some c →
    s'.frames (s.created.length + i) = some (.suspended c)
  others : ∀ g : Nat, g < s.created.length → g ≠ h → s'.frames g = s.frames g
  turns : s'.turns.reverse = s.turns.reverse ++ completeRun (h, p)
  effects : s'.effects.reverse = s.effects.reverse ++ p.effects

/-- The first one of the tasks that a task emplaces. -/
theorem Ran.spawn (hlt : h < s.created.length)
    (hr : Ran h rest (s.emplace stackScheduler.hooks () child) s') :
    Ran h (.spawn () child rest) s s' := by
  have hlength : (s.emplace stackScheduler.hooks () child).created.length =
      s.created.length + 1 := List.length_append
  obtain ⟨hfailed, hqueue, hcreated, hchildren, hothers, hturns, heffects⟩ := hr
  rw [hlength] at hqueue hchildren hothers
  refine ⟨hfailed, ?_, ?_, ?_, ?_, hturns, heffects⟩
  · rw [hqueue, Prog.children, List.length_cons, List.range'_succ, List.reverse_cons,
      List.append_assoc]
    rfl
  · rw [hcreated, Prog.children]
    exact List.append_assoc _ _ _
  · intro i c hc
    cases i with
    | zero =>
      obtain rfl := Option.some.inj hc
      rw [Nat.add_zero, hothers _ (Nat.lt_succ_self _) (Nat.ne_of_gt hlt)]
      exact Function.update_self _ _ _
    | succ i =>
      rw [show s.created.length + i.succ = s.created.length + 1 + i by omega]
      exact hchildren i c hc
  · intro g hg hne
    rw [hothers g (Nat.lt_succ_of_lt hg) hne]
    exact Function.update_of_ne (Nat.ne_of_lt hg) _ _

theorem schedule_cons {q : List Handle} (hfailed : s.failed = false) (hqueue : s.queue = h :: q)
    (hframe : s.frames h = some (.suspended p)) :
    stackScheduler.schedule s =
      some (stackScheduler.settle h (({ s with queue := q } : Pool (List Handle) ε Unit).run
        stackScheduler.hooks h p)) := by
  obtain ⟨_, created, frames, effects, turns, _⟩ := s
  dsimp only at hfailed hqueue hframe
  subst hfailed hqueue
  have hresume : Pool.resume stackScheduler.hooks h ⟨q, created, frames, effects, turns, false⟩ =
      Pool.run stackScheduler.hooks h p ⟨q, created, frames, effects, turns, false⟩ :=
    Pool.resume_of_suspended hframe
  show some (if (Pool.resume stackScheduler.hooks h
    ⟨q, created, frames, effects, turns, false⟩).failed then _ else _) = _
  rw [hresume, Pool.run_failed, if_neg Bool.false_ne_true]
  exact congrArg (fun t => some (stackScheduler.settle h t)) hresume

/-- **A task runs to its end**, with no other one in between.  Behind a `yield` it lies on top
of what it has emplaced. -/
theorem own_run (p : Prog ε Unit) (s : Pool (List Handle) ε Unit) (hlt : h < s.created.length)
    (hfailed : s.failed = false) :
    ∃ s', Steps stackScheduler.schedule
      (stackScheduler.settle h (s.run stackScheduler.hooks h p)) s' ∧ Ran h p s s' := by
  induction p generalizing s with
  | done =>
    have hsettle : stackScheduler.settle h (s.finish h) =
        { (s.finish h).destroy h with turns := ⟨h, true⟩ :: s.turns } := by
      have hframe : (s.finish h).frames h = some .final := Function.update_self _ _ _
      rw [Scheduler.settle]
      simp only [stackScheduler, ofContainer, hframe]
      rfl
    refine ⟨_, .refl _, ?_⟩
    rw [Pool.run, hsettle]
    refine ⟨hfailed, rfl, (List.append_nil _).symm, ?_, ?_, ?_, (List.append_nil _).symm⟩
    · intro i c hc
      cases hc
    · intro g _ hne
      show Function.update (Function.update s.frames h _) h none g = s.frames g
      rw [Function.update_of_ne hne, Function.update_of_ne hne]
    · exact List.reverse_cons
  | effect e rest ih =>
    obtain ⟨s', hsteps, hr⟩ := ih { s with effects := e :: s.effects } hlt hfailed
    refine ⟨s', hsteps, hr.failed, hr.queue, hr.created, hr.children, hr.others, hr.turns, ?_⟩
    rw [hr.effects, List.reverse_cons, List.append_assoc]
    rfl
  | yield rest ih =>
    have hframe : (s.suspend stackScheduler.hooks h rest).frames h = some (.suspended rest) :=
      Function.update_self _ _ _
    have hsettle : stackScheduler.settle h (s.suspend stackScheduler.hooks h rest) =
        { s.suspend stackScheduler.hooks h rest with
          queue := h :: s.queue, turns := ⟨h, false⟩ :: s.turns } := by
      rw [Scheduler.settle]
      simp only [stackScheduler, ofContainer] at hframe ⊢
      rw [hframe]
      rfl
    obtain ⟨s', hsteps, hr⟩ := ih { s.suspend stackScheduler.hooks h rest with
      queue := s.queue, turns := ⟨h, false⟩ :: s.turns } hlt hfailed
    have hstep : stackScheduler.schedule (stackScheduler.settle h
        (s.suspend stackScheduler.hooks h rest)) = some (stackScheduler.settle h
          (({ s.suspend stackScheduler.hooks h rest with
              queue := s.queue, turns := ⟨h, false⟩ :: s.turns } :
            Pool (List Handle) ε Unit).run stackScheduler.hooks h rest)) := by
      rw [hsettle]
      exact schedule_cons hfailed rfl hframe
    refine ⟨s', .head hstep hsteps, hr.failed, hr.queue, hr.created, hr.children, ?_, ?_,
      hr.effects⟩
    · intro g hg hne
      rw [hr.others g hg hne]
      exact Function.update_of_ne hne _ _
    · rw [hr.turns, List.reverse_cons, List.append_assoc]
      rfl
  | spawn l child rest _ ih =>
    have hlt' : h < (s.emplace stackScheduler.hooks l child).created.length := by
      rw [show (s.emplace stackScheduler.hooks l child).created.length = s.created.length + 1 from
        List.length_append]
      exact Nat.lt_succ_of_lt hlt
    obtain ⟨s', hsteps, hr⟩ := ih (s.emplace stackScheduler.hooks l child) hlt' hfailed
    exact ⟨s', hsteps, hr.spawn hlt⟩

end Run

/-! ### The tasks that a task emplaces -/

section Descent

variable {p rest child : Prog ε Unit} {s s' s₁ s₂ : Pool (List Handle) ε Unit} {first : Nat}

/-- From `s` on, these tasks have run to their ends, one after another. -/
structure Visited (vs : List (Handle × Prog ε Unit)) (s s' : Pool (List Handle) ε Unit) :
    Prop where
  failed : s'.failed = false
  created : s.created <+: s'.created
  programs : ∀ v ∈ vs, s'.created[v.1]? = some v.2
  turns : s'.turns.reverse = s.turns.reverse ++ vs.flatMap completeRun
  effects : s'.effects.reverse = s.effects.reverse ++ vs.flatMap fun v => v.2.effects

theorem getElem?_of_created {l l' : List (Prog ε Unit)} (h : l <+: l') {i : Nat}
    (hi : l[i]? = some p) : l'[i]? = some p := by
  obtain ⟨t, rfl⟩ := h
  rwa [List.getElem?_append_left (List.getElem?_eq_some_iff.mp hi).1]

theorem Visited.trans {vs vs' : List (Handle × Prog ε Unit)} (h : Visited vs s s₁)
    (h' : Visited vs' s₁ s') : Visited (vs ++ vs') s s' := by
  refine ⟨h'.failed, h.created.trans h'.created, ?_, ?_, ?_⟩
  · intro v hv
    rcases List.mem_append.mp hv with hv | hv
    · exact getElem?_of_created h'.created (h.programs v hv)
    · exact h'.programs v hv
  · rw [h'.turns, h.turns, List.append_assoc, List.flatMap_append]
  · rw [h'.effects, h.effects, List.append_assoc, List.flatMap_append]

/-- The tasks that `p` emplaces are on top of the stack, the last one above the others. -/
structure Pending (p : Prog ε Unit) (first : Nat) (q : List Handle)
    (s : Pool (List Handle) ε Unit) : Prop where
  failed : s.failed = false
  queue : s.queue = (List.range' first p.children.length).reverse ++ q
  tasks : ∀ (i : Nat) c, p.children[i]? = some c →
    s.frames (first + i) = some (.suspended c) ∧ s.created[first + i]? = some c

/-- From `s` on, these tasks have run, with all that come from them, and no other one. -/
structure Descended (p : Prog ε Unit) (first : Nat) (q : List Handle)
    (s s' : Pool (List Handle) ε Unit) : Prop where
  visited : Visited (traversal (forest p first s.created.length).1) s s'
  queue : s'.queue = q
  created : s'.created.length = (forest p first s.created.length).2
  others : ∀ g : Nat, g < s.created.length → g < first ∨ first + p.children.length ≤ g →
    s'.frames g = s.frames g

/-- A task that has run to its end is visited, and what it has emplaced is pending. -/
theorem Ran.visited {q : List Handle} (hr : Ran first child { s with queue := q } s')
    (hself : s.created[first]? = some child) :
    Visited [(first, child)] s s' ∧ Pending child s.created.length q s' := by
  have hcreated : s.created <+: s'.created := ⟨child.children, hr.created.symm⟩
  refine ⟨⟨hr.failed, hcreated, ?_, ?_, ?_⟩, hr.failed, hr.queue, ?_⟩
  · intro v hv
    obtain rfl := List.mem_singleton.mp hv
    exact getElem?_of_created hcreated hself
  · rw [List.flatMap_singleton]
    exact hr.turns
  · rw [List.flatMap_singleton]
    exact hr.effects
  · intro i c hc
    refine ⟨hr.children i c hc, ?_⟩
    rw [hr.created, List.getElem?_append_right (Nat.le_add_right _ _), Nat.add_sub_cancel_left]
    exact hc

/-- **The tasks that a task emplaces follow**, the last one first and each with all that come
from it, before what was pending. -/
theorem descends (p : Prog ε Unit) {q : List Handle} (h : Pending p first q s) :
    ∃ s', Steps stackScheduler.schedule s s' ∧ Descended p first q s s' := by
  induction p generalizing first q s with
  | done =>
    refine ⟨s, .refl s, ⟨h.failed, List.prefix_refl _, ?_, ?_, ?_⟩, h.queue, rfl, fun _ _ _ => rfl⟩
    · intro v hv
      cases hv
    · exact (List.append_nil _).symm
    · exact (List.append_nil _).symm
  | effect e rest ih =>
    obtain ⟨s', hsteps, hd⟩ := ih ⟨h.failed, h.queue, h.tasks⟩
    exact ⟨s', hsteps, hd.visited, hd.queue, hd.created, hd.others⟩
  | yield rest ih =>
    obtain ⟨s', hsteps, hd⟩ := ih ⟨h.failed, h.queue, h.tasks⟩
    exact ⟨s', hsteps, hd.visited, hd.queue, hd.created, hd.others⟩
  | spawn l child rest ihChild ihRest =>
    obtain ⟨hframe, hself⟩ := h.tasks 0 child rfl
    have hlt : first < s.created.length := (List.getElem?_eq_some_iff.mp hself).1
    -- the later ones lie above the first one
    have hrest : Pending rest (first + 1) (first :: q) s := by
      refine ⟨h.failed, ?_, ?_⟩
      · rw [h.queue, Prog.children, List.length_cons, List.range'_succ, List.reverse_cons,
          List.append_assoc]
        rfl
      · intro i c hc
        rw [show first + 1 + i = first + (i + 1) by omega]
        exact h.tasks (i + 1) c hc
    obtain ⟨s₁, hsteps₁, hd₁⟩ := ihRest hrest
    have hle : s.created.length ≤ s₁.created.length := hd₁.visited.created.length_le
    have hframe₁ : s₁.frames first = some (.suspended child) := by
      rw [hd₁.others first hlt (.inl (Nat.lt_succ_self first))]
      exact hframe
    -- it runs to its end
    obtain ⟨s₂, hsteps₂, hran⟩ := own_run child { s₁ with queue := q }
      (Nat.lt_of_lt_of_le hlt hle) hd₁.visited.failed
    obtain ⟨hvisited, hpending⟩ := hran.visited (getElem?_of_created hd₁.visited.created hself)
    -- and those that it has emplaced follow
    obtain ⟨s', hsteps', hd'⟩ := ihChild hpending
    have hlength : s₂.created.length = s₁.created.length + child.children.length := by
      rw [hran.created, List.length_append]
    have hstep := schedule_cons hd₁.visited.failed hd₁.queue hframe₁
    have hforest := hd'.visited
    have hcreated := hd'.created
    rw [hlength, hd₁.created] at hforest hcreated
    refine ⟨s', hsteps₁.trans (.head hstep (hsteps₂.trans hsteps')), ?_, hd'.queue, hcreated, ?_⟩
    · exact hd₁.visited.trans (hvisited.trans hforest)
    · intro g hg hout
      rw [Prog.children, List.length_cons] at hout
      have hg₁ : g < s₁.created.length := Nat.lt_of_lt_of_le hg hle
      rw [hd'.others g (by omega) (.inl hg₁), hran.others g hg₁ (by omega),
        ← hd₁.others g hg (by omega)]

end Descent

/-! ### The trace of `schedule` -/

section Trace

variable {s : Pool (List Handle) ε Unit} {tasks : List (Unit × Prog ε Unit)}

theorem children_emplacing (tasks : List (Unit × Prog ε Unit)) :
    (emplacing tasks).children = tasks.map Prod.snd := by
  induction tasks with
  | nil => rfl
  | cons t tasks ih => rw [emplacing, Prog.children, ih, List.map_cons]

/-- What is emplaced lies on the stack. -/
structure Emplaced (tasks : List (Unit × Prog ε Unit)) (s : Pool (List Handle) ε Unit) :
    Prop where
  failed : s.failed = false
  queue : s.queue = (List.range tasks.length).reverse
  created : s.created = tasks.map Prod.snd
  frames : ∀ (i : Nat) c, (tasks.map Prod.snd)[i]? = some c → s.frames i = some (.suspended c)
  turns : s.turns = []
  effects : s.effects = []

theorem emplaced_stack (tasks : List (Unit × Prog ε Unit)) :
    Emplaced tasks (stackScheduler.emplaced tasks) := by
  induction tasks using List.reverseRecOn with
  | nil =>
    refine ⟨rfl, rfl, rfl, ?_, rfl, rfl⟩
    intro i c hc
    cases hc
  | append_singleton tasks t ih =>
    have hlength : (stackScheduler.emplaced tasks).created.length = tasks.length := by
      rw [ih.created, List.length_map]
    have hlast : stackScheduler.emplaced (tasks ++ [t]) =
        (stackScheduler.emplaced tasks).emplace stackScheduler.hooks t.1 t.2 :=
      List.foldl_append
    rw [hlast]
    refine ⟨ih.failed, ?_, ?_, ?_, ih.turns, ih.effects⟩
    · show (stackScheduler.emplaced tasks).created.length ::
        (stackScheduler.emplaced tasks).queue = _
      rw [hlength, ih.queue, List.length_append, List.length_singleton, List.range_succ,
        List.reverse_append]
      rfl
    · show (stackScheduler.emplaced tasks).created ++ [t.2] = _
      rw [ih.created, List.map_append, List.map_singleton]
    · intro i c hc
      show Function.update (stackScheduler.emplaced tasks).frames
        (stackScheduler.emplaced tasks).created.length _ i = _
      rw [hlength]
      rw [List.map_append, List.map_singleton] at hc
      rcases Nat.lt_or_ge i tasks.length with hi | hi
      · rw [List.getElem?_append_left (by rwa [List.length_map])] at hc
        rw [Function.update_of_ne (Nat.ne_of_lt hi), ih.frames i c hc]
      · have hlt := (List.getElem?_eq_some_iff.mp hc).1
        rw [List.length_append, List.length_map, List.length_singleton] at hlt
        obtain rfl := Nat.le_antisymm (Nat.le_of_lt_succ hlt) hi
        have hprog : t.2 = c := by simpa using hc
        rw [Function.update_self, hprog]

/-- **`stackScheduler` runs tasks to completion, the last one first.**  Its trace consists of
the complete runs of the tasks in the order of the traversal: those emplaced before `schedule`
start in reverse order, and those that a task emplaces follow when it has finished, in reverse
order and each with its own descendants. -/
theorem schedule_traverses (tasks : List (Unit × Prog ε Unit)) :
    ∃ s, Steps stackScheduler.schedule (stackScheduler.emplaced tasks) s ∧
      stackScheduler.schedule s = none ∧ s.failed = false ∧ s.queue = [] ∧
      s.turns.reverse = (traversal (spawnForest tasks)).flatMap completeRun ∧
      s.effects.reverse = (traversal (spawnForest tasks)).flatMap (fun v => v.2.effects) ∧
      ∀ v ∈ traversal (spawnForest tasks), s.created[v.1]? = some v.2 := by
  obtain ⟨hfailed, hqueue, hcreated, hframes, hturns, heffects⟩ := emplaced_stack tasks
  have hlength : (stackScheduler.emplaced tasks).created.length = tasks.length := by
    rw [hcreated, List.length_map]
  have hpending : Pending (emplacing tasks) 0 [] (stackScheduler.emplaced tasks) := by
    refine ⟨hfailed, ?_, ?_⟩
    · rw [hqueue, children_emplacing, List.length_map, ← List.range_eq_range', List.append_nil]
    · intro i c hc
      rw [children_emplacing] at hc
      rw [Nat.zero_add, hcreated]
      exact ⟨hframes i c hc, hc⟩
  obtain ⟨s, hsteps, hd⟩ := descends (emplacing tasks) hpending
  have hvisited := hd.visited
  rw [hlength] at hvisited
  refine ⟨s, hsteps, ?_, hvisited.failed, hd.queue, ?_, ?_, hvisited.programs⟩
  · rw [Scheduler.schedule, hvisited.failed, hd.queue]
    rfl
  · rw [hvisited.turns, hturns]
    rfl
  · rw [hvisited.effects, heffects]
    rfl

end Trace

/-- The first task emplaces two others, the second one suspends. -/
example : (traversal (spawnForest [
    ((), .spawn () .done (.spawn () (.yield .done) (.effect 7 .done))),
    ((), .yield (.effect 8 .done))])).map Prod.fst = [1, 0, 3, 2] := rfl

end Cpp20Examples.Schedulers
