import Cpp20Examples.Concurrency.Schedulers.Schedule
import Mathlib.Algebra.GroupWithZero.Nat

/-!
# Conservation of tasks

Whatever the container, `schedule` resumes each task once more than it suspends,
destroys it right after its last resumption, and ends with an empty container.

Between two iterations a task that was created is either suspended and once in the
container, or destroyed with all its turns taken (`Waits`).  A `Weight` says how many
turns a task has left; what is left in the container and the turns taken make up a
constant.

* `Good`, `good_schedule`: the invariant of the iterations.
* `runs_to_empty`: the loop ends.
* `conserves`: what has happened then, for each scheduler.
-/

namespace Cpp20Examples.Schedulers

open Lib Lib.Tasks

variable {Q J L ε : Type}

/-- How many turns a task has left, and how many the created tasks take altogether. -/
structure Weight (ε L : Type) where
  left : Prog ε L → Nat
  total : List (Prog ε L) → Nat
  done : left .done = 1
  effect : ∀ e rest, left (.effect e rest) = left rest
  yield : ∀ rest, left (.yield rest) = left rest + 1
  spawn : ∀ l child rest created,
    left (.spawn l child rest) + total (created ++ [child]) =
      left rest + left child + total created

namespace Weight

/-- A task counts for those that come from it: the total is known from the start. -/
def ofTurns (total : Nat) : Weight ε L where
  left := Prog.turns
  total _ := total
  done := rfl
  effect _ _ := rfl
  yield _ := rfl
  spawn _ child rest _ := by rw [Prog.turns, Nat.add_comm child.turns]

/-- Each task counts for itself. -/
def ofYields : Weight ε L where
  left p := p.yields + 1
  total created := (created.map fun p => p.yields + 1).sum
  done := rfl
  effect _ _ := rfl
  yield _ := rfl
  spawn _ child rest created := by
    simp only [Prog.yields, List.map_append, List.sum_append, List.map_cons, List.map_nil,
      List.sum_cons, List.sum_nil]
    omega

end Weight

/-- What a task in the container has left. -/
def load (w : Prog ε L → Nat) (s : Pool Q ε L) (h : Handle) : Nat :=
  match s.frames h with
  | some (.suspended p) => w p
  | _ => 0

/-- The turns so far of a task `p` that has `rest` left. -/
def Told (s : Pool Q ε L) (h : Handle) (p rest : Prog ε L) : Prop :=
  ∃ m, s.turnsOf h = List.replicate m ⟨h, false⟩ ∧ p.yields = m + rest.yields

/-- All turns of a task, the last one first. -/
def allTurns (h : Handle) (p : Prog ε L) : List Turn :=
  ⟨h, true⟩ :: List.replicate p.yields ⟨h, false⟩

/-- A task that was created is suspended and in the container, or destroyed. -/
def Waits (S : Scheduler Q J L) (s : Pool Q ε L) (h : Handle) (p : Prog ε L) : Prop :=
  (h ∈ S.tasks s.queue ∧ ∃ rest, s.frames h = some (.suspended rest) ∧ Told s h p rest) ∨
  (h ∉ S.tasks s.queue ∧ s.frames h = none ∧ s.turnsOf h = allTurns h p)

/-- What holds of all tasks but the one that runs, `x`; `n` are the turns taken and those
that the tasks in the container have left. -/
structure Kept (S : Scheduler Q J L) (w : Prog ε L → Nat) (x : Option Handle) (n : Nat)
    (s : Pool Q ε L) : Prop where
  failed : s.failed = false
  nodup : (S.tasks s.queue).Nodup
  out : ∀ h ∈ x, h ∉ S.tasks s.queue ∧ h < s.created.length
  waits : ∀ h p, h ∉ x → s.created[h]? = some p → Waits S s h p
  tasks_lt : ∀ h ∈ S.tasks s.queue, h < s.created.length
  turns_lt : ∀ t ∈ s.turns, t.task < s.created.length
  sum : s.turns.length + ((S.tasks s.queue).map (load w s)).sum = n

/-- The invariant between two iterations. -/
def Good (S : Scheduler Q J L) (W : Weight ε L) (s : Pool Q ε L) : Prop :=
  Kept S W.left none (W.total s.created) s

/-- The invariant while the task `h` runs and has `p` left. -/
structure Running (S : Scheduler Q J L) (W : Weight ε L) (h : Handle) (p : Prog ε L)
    (s : Pool Q ε L) : Prop where
  self : ∃ p₀, s.created[h]? = some p₀ ∧ Told s h p₀ p
  others : ∃ n, Kept S W.left (some h) n s ∧ n + W.left p = W.total s.created

variable {S : Scheduler Q J L} {W : Weight ε L} {w : Prog ε L → Nat} {s : Pool Q ε L}
  {h h' : Handle} {p p' : Prog ε L} {x : Option Handle} {n : Nat}

/-! ### What is kept of the other tasks -/

theorem turnsOf_eq_nil (hlt : ∀ t ∈ s.turns, t.task < s.created.length)
    (hh : s.created.length ≤ h) : s.turnsOf h = [] := by
  rw [Pool.turnsOf, List.filter_eq_nil_iff]
  intro t ht
  have hne : t.task ≠ h := Nat.ne_of_lt (Nat.lt_of_lt_of_le (hlt t ht) hh)
  simpa using hne

/-- A task waits as before where its place, its frame and its turns are as before. -/
theorem Waits.congr {s' : Pool Q ε L} (hw : Waits S s h p)
    (htasks : h ∈ S.tasks s'.queue ↔ h ∈ S.tasks s.queue) (hframe : s'.frames h = s.frames h)
    (hturns : s'.turnsOf h = s.turnsOf h) : Waits S s' h p := by
  unfold Waits Told at *
  rw [htasks, hframe, hturns]
  exact hw

theorem load_sum_congr {w : Prog ε L → Nat} {s' : Pool Q ε L} {m : Multiset Handle}
    (hframes : ∀ h ∈ m, s'.frames h = s.frames h) :
    (m.map (load w s')).sum = (m.map (load w s)).sum := by
  congr 1
  apply Multiset.map_congr rfl
  intro h hh
  rw [load, load, hframes h hh]

theorem Kept.emplace (hk : Kept S w x n s) (l : L) (child : Prog ε L) :
    Kept S w x (n + w child) (s.emplace S.hooks l child) := by
  have hnew : s.created.length ∉ S.tasks s.queue := fun hmem =>
    absurd (hk.tasks_lt _ hmem) (Nat.lt_irrefl _)
  have htasks : S.tasks (s.emplace S.hooks l child).queue =
      s.created.length ::ₘ S.tasks s.queue := S.tasks_emplace _ _ _
  have hlength : (s.emplace S.hooks l child).created.length = s.created.length + 1 :=
    List.length_append
  have hframes : ∀ g, g ≠ s.created.length →
      (s.emplace S.hooks l child).frames g = s.frames g := fun g hg =>
    Function.update_of_ne hg _ _
  have hself : (s.emplace S.hooks l child).frames s.created.length = some (.suspended child) :=
    Function.update_self _ _ _
  refine ⟨hk.failed, ?_, ?_, ?_, ?_, ?_, ?_⟩
  · rw [htasks]
    exact Multiset.nodup_cons.mpr ⟨hnew, hk.nodup⟩
  · intro g hg
    obtain ⟨hout, hlt⟩ := hk.out g hg
    rw [htasks, hlength, Multiset.mem_cons, not_or]
    exact ⟨⟨Nat.ne_of_lt hlt, hout⟩, Nat.lt_succ_of_lt hlt⟩
  · intro g q hg hq
    rcases Nat.lt_or_ge g s.created.length with hlt | hge
    · -- an older task
      have hq : s.created[g]? = some q := by
        rw [← hq]
        exact (List.getElem?_append_left hlt).symm
      refine (hk.waits g q hg hq).congr ?_ (hframes g (Nat.ne_of_lt hlt)) rfl
      rw [htasks, Multiset.mem_cons, or_iff_right (Nat.ne_of_lt hlt)]
    · -- the new one
      have hlt := (List.getElem?_eq_some_iff.mp hq).1
      rw [hlength] at hlt
      obtain rfl := Nat.le_antisymm (Nat.le_of_lt_succ hlt) hge
      obtain rfl : child = q := by simpa [Pool.emplace] using hq
      refine .inl ⟨by rw [htasks]; exact Multiset.mem_cons_self _ _, child, hself, 0, ?_, ?_⟩
      · exact turnsOf_eq_nil (s := s) hk.turns_lt (Nat.le_refl _)
      · rw [Nat.zero_add]
  · intro g hg
    rw [htasks, Multiset.mem_cons] at hg
    rw [hlength]
    rcases hg with rfl | hg
    · exact Nat.lt_succ_self _
    · exact Nat.lt_succ_of_lt (hk.tasks_lt g hg)
  · intro t ht
    rw [hlength]
    exact Nat.lt_succ_of_lt (hk.turns_lt t ht)
  · have hsum := hk.sum
    have hload : load w (s.emplace S.hooks l child) s.created.length = w child := by
      rw [load, hself]
    rw [htasks, Multiset.map_cons, Multiset.sum_cons, hload,
      load_sum_congr (s := s) fun g hg => hframes g (by rintro rfl; exact hnew hg)]
    simp only [Pool.emplace]
    omega

/-! ### The task that runs -/

theorem Running.effect {e : ε} {rest : Prog ε L} (hr : Running S W h (.effect e rest) s) :
    Running S W h rest { s with effects := e :: s.effects } := by
  obtain ⟨n, hk, hn⟩ := hr.others
  rw [W.effect] at hn
  exact ⟨hr.self, n, ⟨hk.failed, hk.nodup, hk.out, hk.waits, hk.tasks_lt, hk.turns_lt, hk.sum⟩, hn⟩

theorem Running.spawn {l : L} {child rest : Prog ε L}
    (hr : Running S W h (.spawn l child rest) s) :
    Running S W h rest (s.emplace S.hooks l child) := by
  obtain ⟨p₀, hp₀, htold⟩ := hr.self
  obtain ⟨n, hk, hn⟩ := hr.others
  have hlt : h < s.created.length := (hk.out h rfl).2
  refine ⟨⟨p₀, ?_, htold⟩, n + W.left child, hk.emplace l child, ?_⟩
  · rw [← hp₀]
    exact List.getElem?_append_left hlt
  · have hspawn := W.spawn l child rest s.created
    simp only [Pool.emplace]
    omega

theorem Good.take {job : J} (hg : Good S W s)
    (hjob : S.tasks s.queue = S.task job ::ₘ S.tasks (S.pop s.queue)) :
    ∃ p, s.frames (S.task job) = some (.suspended p) ∧
      Running S W (S.task job) p { s with queue := S.pop s.queue } := by
  have hmem : S.task job ∈ S.tasks s.queue := by
    rw [hjob]
    exact Multiset.mem_cons_self _ _
  have hnodup := hg.nodup
  rw [hjob, Multiset.nodup_cons] at hnodup
  have hlt := hg.tasks_lt _ hmem
  have hcreated : s.created[S.task job]? = some s.created[S.task job] :=
    List.getElem?_eq_getElem hlt
  rcases hg.waits _ _ (by simp) hcreated with ⟨-, p, hp, htold⟩ | ⟨hout, -⟩
  · have hload : load W.left s (S.task job) = W.left p := by rw [load, hp]
    have hsum := hg.sum
    rw [hjob, Multiset.map_cons, Multiset.sum_cons, hload] at hsum
    refine ⟨p, hp, ⟨_, hcreated, htold⟩, _, ⟨hg.failed, hnodup.2, ?_, ?_, ?_, hg.turns_lt, rfl⟩, ?_⟩
    · rintro g hg
      obtain rfl := Option.some.inj hg
      exact ⟨hnodup.1, hlt⟩
    · intro g q hne hq
      have hne : g ≠ S.task job := fun heq => hne (by rw [heq]; rfl)
      refine (hg.waits g q (by simp) hq).congr ?_ rfl rfl
      rw [hjob, Multiset.mem_cons, or_iff_right hne]
    · intro g hg'
      exact hg.tasks_lt g (by rw [hjob]; exact Multiset.mem_cons_of_mem hg')
    · have hload' : ((S.tasks (S.pop s.queue)).map
          (load W.left { s with queue := S.pop s.queue })).sum =
          ((S.tasks (S.pop s.queue)).map (load W.left s)).sum := load_sum_congr fun _ _ => rfl
      simp only at hload' ⊢
      omega
  · exact absurd hmem hout

/-! ### Behind its resumption -/

/-- What a turn of the task `h` keeps of the others. -/
structure Turned (h : Handle) (b : Bool) (s s' : Pool Q ε L) : Prop where
  failed : s'.failed = s.failed
  created : s'.created = s.created
  turns : s'.turns = ⟨h, b⟩ :: s.turns
  frames : ∀ g, g ≠ h → s'.frames g = s.frames g

section Turned

variable {b : Bool} {s' : Pool Q ε L}

theorem Turned.turnsOf_self (ht : Turned h b s s') : s'.turnsOf h = ⟨h, b⟩ :: s.turnsOf h := by
  simp [Pool.turnsOf, ht.turns]

theorem Kept.others_wait (hk : Kept S w (some h) n s) (ht : Turned h b s s')
    (htasks : ∀ g, g ≠ h → (g ∈ S.tasks s'.queue ↔ g ∈ S.tasks s.queue)) {g : Handle}
    {q : Prog ε L} (hg : g ≠ h) (hq : s'.created[g]? = some q) : Waits S s' g q := by
  rw [ht.created] at hq
  apply (hk.waits g q (by simpa using Ne.symm hg) hq).congr (htasks g hg) (ht.frames g hg)
  simp [Pool.turnsOf, ht.turns, Ne.symm hg]

theorem Kept.turn_lt (hk : Kept S w (some h) n s) (ht : Turned h b s s') :
    ∀ t ∈ s'.turns, t.task < s'.created.length := by
  intro t hmem
  rw [ht.turns] at hmem
  rw [ht.created]
  rcases List.mem_cons.mp hmem with rfl | hmem
  · exact (hk.out h rfl).2
  · exact hk.turns_lt t hmem

theorem Kept.sum_turned (hk : Kept S w (some h) n s) (ht : Turned h b s s') :
    s'.turns.length + ((S.tasks s.queue).map (load w s')).sum = n + 1 := by
  have hout := (hk.out h rfl).1
  have hload := load_sum_congr (w := w) fun g (hg : g ∈ S.tasks s.queue) =>
    ht.frames g (by rintro rfl; exact hout hg)
  rw [hload, ht.turns, List.length_cons, ← hk.sum]
  omega

theorem Running.destroyed (hr : Running S W h .done s) (ht : Turned h true s s')
    (hself : s'.frames h = none) (htasks : S.tasks s'.queue = S.tasks s.queue) : Good S W s' := by
  obtain ⟨p₀, hp₀, m, hturns, hyields⟩ := hr.self
  obtain ⟨n, hk, hn⟩ := hr.others
  refine ⟨ht.failed.trans hk.failed, by rw [htasks]; exact hk.nodup, by simp, ?_, ?_,
    hk.turn_lt ht, ?_⟩
  · intro g q _ hq
    by_cases hg : g = h
    · subst hg
      obtain rfl : p₀ = q := by
        rw [ht.created, hp₀] at hq
        exact Option.some.inj hq
      rw [Prog.yields, Nat.add_zero] at hyields
      refine .inr ⟨by rw [htasks]; exact (hk.out g rfl).1, hself, ?_⟩
      rw [ht.turnsOf_self, hturns, allTurns, hyields]
    · exact hk.others_wait ht (fun _ _ => by rw [htasks]) hg hq
  · rw [htasks, ht.created]
    exact hk.tasks_lt
  · rw [htasks, hk.sum_turned ht, ht.created, ← hn, W.done]

theorem Running.pushed {rest : Prog ε L} (hr : Running S W h (.yield rest) s)
    (ht : Turned h false s s') (hself : s'.frames h = some (.suspended rest))
    (htasks : S.tasks s'.queue = h ::ₘ S.tasks s.queue) : Good S W s' := by
  obtain ⟨p₀, hp₀, m, hturns, hyields⟩ := hr.self
  obtain ⟨n, hk, hn⟩ := hr.others
  obtain ⟨hout, hlt⟩ := hk.out h rfl
  refine ⟨ht.failed.trans hk.failed, ?_, by simp, ?_, ?_, hk.turn_lt ht, ?_⟩
  · rw [htasks]
    exact Multiset.nodup_cons.mpr ⟨hout, hk.nodup⟩
  · intro g q _ hq
    by_cases hg : g = h
    · subst hg
      obtain rfl : p₀ = q := by
        rw [ht.created, hp₀] at hq
        exact Option.some.inj hq
      refine .inl ⟨by rw [htasks]; exact Multiset.mem_cons_self _ _, rest, hself, m + 1, ?_, ?_⟩
      · rw [ht.turnsOf_self, hturns, List.replicate_succ]
      · rw [hyields, Prog.yields]
        omega
    · refine hk.others_wait ht ?_ hg hq
      intro g hg
      rw [htasks, Multiset.mem_cons, or_iff_right hg]
  · intro g hg
    rw [htasks, Multiset.mem_cons] at hg
    rw [ht.created]
    rcases hg with rfl | hg
    · exact hlt
    · exact hk.tasks_lt g hg
  · have hsum := hk.sum_turned ht
    have hload : load W.left s' h = W.left rest := by rw [load, hself]
    rw [htasks, Multiset.map_cons, Multiset.sum_cons, hload, ht.created, ← hn, W.yield]
    omega

end Turned

/-! ### The loop -/

theorem schedule_eq {job : J} (hf : s.failed = false) (he : S.empty s.queue = false)
    (htop : S.top s.queue = some job) (hp : s.frames (S.task job) = some (.suspended p))
    {t : Pool Q ε L} (ht : ({ s with queue := S.pop s.queue } : Pool Q ε L).run S.hooks
      (S.task job) p = t) (htf : t.failed = false) :
    S.schedule s = some (S.settle job t) := by
  unfold Scheduler.schedule
  rw [if_neg (by simp [hf, he]), htop]
  simp only [Pool.resume, hp, ht, htf, Bool.false_eq_true, if_false]

/-- **An iteration keeps the invariant, and is one turn.** -/
theorem good_schedule (hg : Good S W s) (he : S.empty s.queue = false) :
    ∃ s', S.schedule s = some s' ∧ Good S W s' ∧ s'.turns.length = s.turns.length + 1 ∧
      s.created <+: s'.created := by
  obtain ⟨job, htop, hjob⟩ := S.exists_top s.queue he
  obtain ⟨p, hp, hr⟩ := hg.take hjob
  have hstops := Pool.run_stops (k := S.hooks) (h := S.task job)
    (I := fun p t => Running S W (S.task job) p t ∧ t.turns = s.turns ∧ s.created <+: t.created)
    (fun e rest t ht => ⟨ht.1.effect, ht.2⟩)
    (fun l child rest t ht => ⟨ht.1.spawn, ht.2.1, ht.2.2.trans (List.prefix_append _ _)⟩)
    p _ ⟨hr, rfl, List.prefix_refl _⟩
  rcases hstops with ⟨t, ⟨hr, hturns, hpre⟩, hrun⟩ | ⟨rest, t, ⟨hr, hturns, hpre⟩, hrun⟩
  · obtain ⟨n, hk, -⟩ := hr.others
    have hself : (t.finish (S.task job)).frames (S.task job) = some .final :=
      Function.update_self _ _ _
    refine ⟨_, schedule_eq hg.failed he htop hp hrun hk.failed, ?_⟩
    rw [Scheduler.settle, hself, ← hturns]
    refine ⟨hr.destroyed ⟨rfl, rfl, rfl, ?_⟩ (Function.update_self _ _ _) rfl, rfl,
      hpre⟩
    intro g hne
    exact (Function.update_of_ne hne _ _).trans (Function.update_of_ne hne _ _)
  · obtain ⟨n, hk, -⟩ := hr.others
    have hself : (t.suspend S.hooks (S.task job) rest).frames (S.task job) =
        some (.suspended rest) := Function.update_self _ _ _
    refine ⟨_, schedule_eq hg.failed he htop hp hrun hk.failed, ?_⟩
    rw [Scheduler.settle, hself, ← hturns]
    exact ⟨hr.pushed ⟨rfl, rfl, rfl, fun g hne => Function.update_of_ne hne _ _⟩ hself
      (S.tasks_push _ _), rfl, hpre⟩

theorem schedule_of_empty (he : S.empty s.queue = true) : S.schedule s = none := by
  rw [Scheduler.schedule, he, Bool.or_true, if_pos rfl]

/-- **The loop ends**, with an empty container. -/
theorem runs_to_empty {total : Nat} (s : Pool Q ε L) (hg : Good S (.ofTurns total) s) :
    ∃ s', Steps S.schedule s s' ∧ S.empty s'.queue = true := by
  cases he : S.empty s.queue with
  | true => exact ⟨s, .refl s, he⟩
  | false =>
    obtain ⟨t, hst, hg', hlen, -⟩ := good_schedule hg he
    have hle : t.turns.length ≤ total := Nat.le.intro hg'.sum
    obtain ⟨s', hsteps, he'⟩ := runs_to_empty t hg'
    exact ⟨s', .head hst hsteps, he'⟩
termination_by total - s.turns.length

theorem Good.step {s' : Pool Q ε L} (hg : Good S W s) (hst : S.schedule s = some s') :
    Good S W s' ∧ s'.turns.length = s.turns.length + 1 ∧ s.created <+: s'.created := by
  cases he : S.empty s.queue with
  | true => exact absurd (hst.symm.trans (schedule_of_empty he)) (by simp)
  | false =>
    obtain ⟨t, ht, hg'⟩ := good_schedule hg he
    obtain rfl := Option.some.inj (ht.symm.trans hst)
    exact hg'

theorem Good.steps {s' : Pool Q ε L} (hg : Good S W s) (h : Steps S.schedule s s') :
    Good S W s' ∧ s.created <+: s'.created := by
  refine h.invariant (I := fun t => Good S W t ∧ s.created <+: t.created) ?_
    ⟨hg, List.prefix_refl _⟩
  intro t t' ht hst
  obtain ⟨hg', -, hpre⟩ := ht.1.step hst
  exact ⟨hg', ht.2.trans hpre⟩

theorem Good.iterations {s' : Pool Q ε L} (hg : Good S W s) (h : Steps S.schedule s s')
    (hnone : s.turns = []) : after S.schedule s'.turns.length s = some s' := by
  obtain ⟨n, hn, hcount⟩ := h.counted (I := Good S W) (f := fun t => t.turns.length)
    (fun t t' ht hst => ⟨(ht.step hst).1, (ht.step hst).2.1⟩) hg
  rw [hnone, List.length_nil, Nat.zero_add] at hcount
  rw [hcount]
  exact hn

theorem turns_emplaceAll (k : Hooks Q L) (tasks : List (L × Prog ε L)) (s : Pool Q ε L) :
    (s.emplaceAll k tasks).turns = s.turns := by
  induction tasks generalizing s with
  | nil => rfl
  | cons t tasks ih => exact ih (s.emplace k t.1 t.2)

theorem Kept.emplaceAll (hk : Kept S w none n s) (tasks : List (L × Prog ε L)) :
    Kept S w none (n + (tasks.map fun t => w t.2).sum) (s.emplaceAll S.hooks tasks) ∧
      (s.emplaceAll S.hooks tasks).created = s.created ++ tasks.map Prod.snd := by
  induction tasks generalizing s n with
  | nil => exact ⟨hk, (List.append_nil _).symm⟩
  | cons t tasks ih =>
    obtain ⟨hk', hcreated⟩ := ih (hk.emplace t.1 t.2)
    rw [List.map_cons, List.sum_cons, ← Nat.add_assoc]
    refine ⟨hk', hcreated.trans ?_⟩
    rw [Pool.emplace, List.append_assoc]
    rfl

theorem good_emplaced (W : Weight ε L) (tasks : List (L × Prog ε L))
    (hW : W.total (tasks.map Prod.snd) = (tasks.map fun t => W.left t.2).sum) :
    Good S W (S.emplaced tasks) ∧ (S.emplaced tasks).created = tasks.map Prod.snd := by
  have hnew : Kept S W.left none 0 (Pool.new S.new : Pool Q ε L) := by
    refine ⟨rfl, ?_, by simp, by simp [Pool.new], ?_, by simp [Pool.new], ?_⟩
    · simp [Pool.new, S.tasks_new]
    · simp [Pool.new, S.tasks_new]
    · simp [Pool.new, S.tasks_new]
  obtain ⟨hk, hcreated⟩ := hnew.emplaceAll tasks
  rw [Nat.zero_add, ← hW] at hk
  have hcreated : (S.emplaced tasks).created = tasks.map Prod.snd := hcreated
  refine ⟨?_, hcreated⟩
  unfold Good
  rw [hcreated]
  exact hk

/-! ### Conservation -/

/-- `schedule` runs any tasks to an empty container.  It takes one iteration, and one turn,
for each time a created task suspends and one for each such task to finish; each is resumed
in that many turns, and destroyed in the last one.  The created tasks are those that were
emplaced in front of the loop and those that tasks emplace. -/
def Conserves (ε : Type) (S : Scheduler Q J L) : Prop :=
  ∀ tasks : List (L × Prog ε L), ∃ s, Steps S.schedule (S.emplaced tasks) s ∧
    S.schedule s = none ∧ s.failed = false ∧ S.empty s.queue = true ∧
    after S.schedule (s.created.map fun p => p.yields + 1).sum (S.emplaced tasks) = some s ∧
    tasks.map Prod.snd <+: s.created ∧
    ((∀ t ∈ tasks, t.2.Alone) → s.created = tasks.map Prod.snd) ∧
    s.turns.length = (s.created.map fun p => p.yields + 1).sum ∧
    ∀ h p, s.created[h]? = some p → s.turnsOf h = allTurns h p

theorem turns_of_alone {p : Prog ε L} (hp : p.Alone) : p.turns = p.yields + 1 := by
  induction p with
  | done => rfl
  | effect _ _ ih => exact ih hp
  | yield _ ih => rw [Prog.turns, ih hp, Prog.yields]
  | spawn => exact absurd hp id

theorem conserves (S : Scheduler Q J L) : Conserves ε S := by
  intro tasks
  obtain ⟨hturns, hcreated⟩ := good_emplaced (S := S)
    (.ofTurns (tasks.map fun t => t.2.turns).sum) tasks rfl
  have hyields := (good_emplaced (S := S) .ofYields tasks
    (by simp [Weight.ofYields, Function.comp_def])).1
  obtain ⟨s, hsteps, he⟩ := runs_to_empty _ hturns
  obtain ⟨hy, hpre⟩ := hyields.steps hsteps
  rw [hcreated] at hpre
  have hempty := (S.empty_iff s.queue).mp he
  -- nothing is left in the container, all turns are taken
  have hlen : s.turns.length = (s.created.map fun p => p.yields + 1).sum := by
    have hsum := hy.sum
    rw [hempty, Multiset.map_zero, Multiset.sum_zero, Nat.add_zero] at hsum
    exact hsum
  have hcount : after S.schedule s.turns.length (S.emplaced tasks) = some s :=
    hturns.iterations hsteps (turns_emplaceAll S.hooks tasks (Pool.new S.new))
  rw [hlen] at hcount
  refine ⟨s, hsteps, schedule_of_empty he, hy.failed, he, hcount, hpre, ?_, hlen, ?_⟩
  · intro halone
    have hsum := (hturns.steps hsteps).1.sum
    rw [hempty, Multiset.map_zero, Multiset.sum_zero, Nat.add_zero] at hsum
    obtain ⟨new, hnew⟩ := hpre
    have hsame : (tasks.map fun t => t.2.turns) = tasks.map fun t => t.2.yields + 1 :=
      List.map_congr_left fun t ht => turns_of_alone (halone t ht)
    rw [← hnew, hsum, List.map_append, List.sum_append, List.map_map] at hlen
    simp only [Weight.ofTurns, hsame, Function.comp_def] at hlen
    cases new with
    | nil => rw [← hnew, List.append_nil]
    | cons p new =>
      rw [List.map_cons, List.sum_cons] at hlen
      omega
  · intro h p hp
    rcases hy.waits h p (by simp) hp with ⟨hmem, -⟩ | ⟨-, -, hall⟩
    · exact absurd hmem (by simp [hempty])
    · exact hall

/-- **No scheduler loses a task, resumes it too often or destroys it twice.** -/
theorem schedulers_conserve (ε : Type) :
    Conserves ε queueScheduler ∧ Conserves ε stackScheduler ∧
    (∀ (K : Type) (comp : Job → Job → Bool) (c : PriorityQueue K Job comp),
      Conserves ε (comparatorScheduler c)) ∧
    (∀ (K U : Type) (comp : Job → Job → Bool) (c : PriorityQueue K Job comp)
      (upd : Int → U → Int × U) (u : U), Conserves ε (updatePriorityScheduler c upd u)) :=
  ⟨conserves _, conserves _, fun _ _ _ => conserves _, fun _ _ _ _ _ _ => conserves _⟩

/-- `createTask` -/
def createTask (name : String) : Prog String Int :=
  .effect (name ++ " start") (.yield (.effect (name ++ " execute") (.yield
    (.effect (name ++ " finish") .done))))

/-- `main`'s scheduler with the default comparator. -/
def scheduler1 : Scheduler (List Job) Job Int :=
  comparatorScheduler (PriorityQueue.listPriorityQueue less)

/-- The task with the greater priority runs first. -/
example : (runFor scheduler1.schedule 6
    (scheduler1.emplaced [(0, createTask "TaskA"), (1, createTask "TaskB")])).effects.reverse =
    ["TaskB start", "TaskB execute", "TaskB finish", "TaskA start", "TaskA execute",
      "TaskA finish"] := by
  decide

end Cpp20Examples.Schedulers
