import Cpp20Examples.Concurrency.Schedulers.Conservation

/-!
# The order of the priority schedulers

A job that is put back unchanged is on top again, so `schedule` resumes a task until it has
finished before it resumes another one.

* `schedule_of_alone`: an iteration that resumes a task which creates no other.
* `finishes_top`: a task on top runs to its end.
* `runs_in_order`: the tasks run one after the other, as the comparator orders their jobs.
-/

namespace Cpp20Examples.Schedulers

open Lib Lib.Tasks

variable {Q J L K ε : Type}

/-! ### An iteration -/

section Iteration

variable {S : Scheduler Q J L} {s : Pool Q ε L} {p : Prog ε L}

/-- The task of the job finishes. -/
def finished (S : Scheduler Q J L) (job : J) (p : Prog ε L) (s : Pool Q ε L) : Pool Q ε L :=
  { s with
    queue := S.pop s.queue
    frames := Function.update s.frames (S.task job) none
    effects := p.effects.reverse ++ s.effects
    turns := ⟨S.task job, true⟩ :: s.turns }

/-- The task of the job suspends behind the effects `es`, with `rest` left. -/
def putBack (S : Scheduler Q J L) (job : J) (es : List ε) (rest : Prog ε L) (s : Pool Q ε L) :
    Pool Q ε L :=
  { s with
    queue := S.push job (S.pop s.queue)
    frames := Function.update s.frames (S.task job) (some (.suspended rest))
    effects := es.reverse ++ s.effects
    turns := ⟨S.task job, false⟩ :: s.turns }

/-- **An iteration** finishes the task on top, or puts it back. -/
theorem schedule_of_alone {job : J} (hf : s.failed = false) (he : S.empty s.queue = false)
    (htop : S.top s.queue = some job) (hp : s.frames (S.task job) = some (.suspended p))
    (halone : p.Alone) :
    (p.yields = 0 ∧ S.schedule s = some (finished S job p s)) ∨
    (∃ es rest, rest.Alone ∧ p.yields = rest.yields + 1 ∧ p.effects = es ++ rest.effects ∧
      S.schedule s = some (putBack S job es rest s)) := by
  rcases Pool.run_of_alone (k := S.hooks) (h := S.task job) halone
      { s with queue := S.pop s.queue } with ⟨hzero, hrun⟩ |
    ⟨es, rest, hrest, hyields, heffects, hrun⟩
  · refine .inl ⟨hzero, ?_⟩
    rw [schedule_eq hf he htop hp hrun hf, Scheduler.settle]
    have hself : ∀ t : Pool Q ε L, (t.finish (S.task job)).frames (S.task job) = some .final :=
      fun t => Function.update_self _ _ _
    rw [hself]
    simp only [Pool.finish, Pool.destroy, Function.update_idem, finished]
  · refine .inr ⟨es, rest, hrest, hyields, heffects, ?_⟩
    rw [schedule_eq hf he htop hp hrun hf, Scheduler.settle]
    have hself : ∀ t : Pool Q ε L, (t.suspend S.hooks (S.task job) rest).frames (S.task job) =
        some (.suspended rest) := fun t => Function.update_self _ _ _
    rw [hself]
    rfl

end Iteration

/-! ### The tasks in front of the loop -/

/-- The jobs of some tasks, the first one of which has the handle `n`. -/
def entriesFrom (n : Handle) : List (Int × Prog ε Int) → List (Job × Prog ε Int)
  | [] => []
  | t :: tasks => ((t.1, n), t.2) :: entriesFrom (n + 1) tasks

/-- The jobs of the tasks that are emplaced in front of `schedule`. -/
def entries (tasks : List (Int × Prog ε Int)) : List (Job × Prog ε Int) := entriesFrom 0 tasks

theorem le_of_mem_entriesFrom {n : Handle} {tasks : List (Int × Prog ε Int)}
    {e : Job × Prog ε Int} (he : e ∈ entriesFrom n tasks) : n ≤ e.1.2 := by
  induction tasks generalizing n with
  | nil => cases he
  | cons t tasks ih =>
    rcases List.mem_cons.mp he with rfl | he
    · exact Nat.le_refl n
    · exact Nat.le_of_succ_le (ih he)

theorem lt_of_mem_entriesFrom {n : Handle} {tasks : List (Int × Prog ε Int)}
    {e : Job × Prog ε Int} (he : e ∈ entriesFrom n tasks) : e.1.2 < n + tasks.length := by
  induction tasks generalizing n with
  | nil => cases he
  | cons t tasks ih =>
    rw [List.length_cons, Nat.add_comm tasks.length, ← Nat.add_assoc]
    rcases List.mem_cons.mp he with rfl | he
    · exact Nat.lt_add_right _ (Nat.lt_succ_self n)
    · exact ih he

theorem lt_of_mem_entries {tasks : List (Int × Prog ε Int)} {e : Job × Prog ε Int}
    (he : e ∈ entries tasks) : e.1.2 < tasks.length := by
  have hlt := lt_of_mem_entriesFrom he
  rwa [Nat.zero_add] at hlt

theorem alone_entriesFrom {n : Handle} {tasks : List (Int × Prog ε Int)}
    (halone : ∀ t ∈ tasks, t.2.Alone) {e : Job × Prog ε Int} (he : e ∈ entriesFrom n tasks) :
    e.2.Alone := by
  induction tasks generalizing n with
  | nil => cases he
  | cons t tasks ih =>
    obtain ⟨ht, htasks⟩ := List.forall_mem_cons.mp halone
    rcases List.mem_cons.mp he with rfl | he
    · exact ht
    · exact ih htasks he

theorem nodup_entriesFrom (n : Handle) (tasks : List (Int × Prog ε Int)) :
    ((entriesFrom n tasks).map fun e => e.1.2).Nodup := by
  induction tasks generalizing n with
  | nil => exact List.nodup_nil
  | cons t tasks ih =>
    refine List.nodup_cons.mpr ⟨?_, ih (n + 1)⟩
    intro hmem
    obtain ⟨e, he, heq⟩ := List.mem_map.mp hmem
    have hle : n + 1 ≤ e.1.2 := le_of_mem_entriesFrom he
    have heq : e.1.2 = n := heq
    rw [heq] at hle
    exact Nat.not_succ_le_self n hle

/-- The state in front of the loop: the jobs are in the container, their tasks suspended. -/
structure Queued (items : Multiset Job) (es : List (Job × Prog ε Int)) (s : Pool Q ε Int) :
    Prop where
  items : items = es.map Prod.fst
  suspended : ∀ e ∈ es, s.frames e.1.2 = some (.suspended e.2)
  only : ∀ h point, s.frames h = some point → ∃ e ∈ es, e.1.2 = h
  lt : ∀ e ∈ es, e.1.2 < s.created.length
  failed : s.failed = false
  effects : s.effects = []
  turns : s.turns = []

section Emplaced

variable {S : Scheduler Q Job Int} {items : Q → Multiset Job} {s : Pool Q ε Int}
  {es : List (Job × Prog ε Int)}

theorem Queued.emplace (hemplace : ∀ prio h q, items (S.emplace prio h q) = (prio, h) ::ₘ items q)
    (hs : Queued (items s.queue) es s) (prio : Int) (p : Prog ε Int) :
    Queued (items (s.emplace S.hooks prio p).queue) (es ++ [((prio, s.created.length), p)])
      (s.emplace S.hooks prio p) := by
  have hlength : (s.emplace S.hooks prio p).created.length = s.created.length + 1 :=
    List.length_append
  refine ⟨?_, ?_, ?_, ?_, hs.failed, hs.effects,
    hs.turns⟩
  · show items (S.emplace prio s.created.length s.queue) = _
    rw [hemplace, hs.items, List.map_append, ← Multiset.coe_add, add_comm]
    rfl
  · intro e he
    rcases List.mem_append.mp he with he | he
    · exact (Function.update_of_ne (Nat.ne_of_lt (hs.lt e he)) _ _).trans (hs.suspended e he)
    · obtain rfl := List.mem_singleton.mp he
      exact Function.update_self _ _ _
  · intro h point hpoint
    by_cases hh : h = s.created.length
    · exact ⟨_, List.mem_append_right _ List.mem_cons_self, hh.symm⟩
    · obtain ⟨e, he, heq⟩ :=
        hs.only h point ((Function.update_of_ne hh _ _).symm.trans hpoint)
      exact ⟨e, List.mem_append_left _ he, heq⟩
  · intro e he
    rw [hlength]
    rcases List.mem_append.mp he with he | he
    · exact Nat.lt_succ_of_lt (hs.lt e he)
    · obtain rfl := List.mem_singleton.mp he
      exact Nat.lt_succ_self _

theorem Queued.emplaceAll
    (hemplace : ∀ prio h q, items (S.emplace prio h q) = (prio, h) ::ₘ items q)
    (tasks : List (Int × Prog ε Int)) (hs : Queued (items s.queue) es s) :
    Queued (items (s.emplaceAll S.hooks tasks).queue)
      (es ++ entriesFrom s.created.length tasks) (s.emplaceAll S.hooks tasks) := by
  induction tasks generalizing s es with
  | nil =>
    rw [entriesFrom, List.append_nil]
    exact hs
  | cons t tasks ih =>
    have hrest := ih (hs.emplace hemplace t.1 t.2)
    have hlength : (s.emplace S.hooks t.1 t.2).created.length = s.created.length + 1 :=
      List.length_append
    rw [hlength, List.append_assoc] at hrest
    exact hrest

theorem queued_emplaced (items : Q → Multiset Job) (hnew : items S.new = 0)
    (hemplace : ∀ prio h q, items (S.emplace prio h q) = (prio, h) ::ₘ items q)
    (tasks : List (Int × Prog ε Int)) :
    Queued (items (S.emplaced tasks).queue) (entries tasks) (S.emplaced tasks) := by
  have hstart : Queued (items S.new) [] (Pool.new S.new : Pool Q ε Int) :=
    ⟨hnew, by simp, by simp [Pool.new], by simp, rfl, rfl, rfl⟩
  exact Queued.emplaceAll (s := Pool.new S.new) hemplace tasks hstart

end Emplaced

/-! ### One task after the other -/

/-- A strict total order on some jobs. -/
structure StrictTotalOn (comp : Job → Job → Bool) (jobs : List Job) : Prop where
  irrefl : ∀ a ∈ jobs, comp a a = false
  trans : ∀ a ∈ jobs, ∀ b ∈ jobs, ∀ c ∈ jobs,
    comp a b = true → comp b c = true → comp a c = true
  total : ∀ a ∈ jobs, ∀ b ∈ jobs, a ≠ b → comp a b = true ∨ comp b a = true

section Order

variable {comp : Job → Job → Bool} {c : PriorityQueue K Job comp} {s : Pool K ε Int}

theorem top_eq {k : K} {job : Job} {rest : Multiset Job} (hitems : c.items k = job ::ₘ rest)
    (hbefore : ∀ j ∈ rest, comp j job = true) :
    c.empty k = false ∧ c.top k = some job ∧ c.items (c.pop k) = rest := by
  have he : c.empty k = false := by
    by_contra hempty
    have hzero := (c.empty_iff k).mp (by simpa using hempty)
    exact Multiset.cons_ne_zero (hitems.symm.trans hzero)
  obtain ⟨j, htop, hpop⟩ := c.exists_top k he
  have hmem : j ∈ job ::ₘ rest := by
    rw [← hitems, hpop]
    exact Multiset.mem_cons_self _ _
  have hmax := c.top_max k j htop job (by rw [hitems]; exact Multiset.mem_cons_self _ _)
  rcases Multiset.mem_cons.mp hmem with rfl | hrest
  · exact ⟨he, htop, ((Multiset.cons_inj_right j).mp (hitems.symm.trans hpop)).symm⟩
  · exact absurd (hbefore j hrest) (by simp [hmax])

/-- **A task on top runs to its end**, with all its effects and turns. -/
theorem finishes_top {job : Job} {p : Prog ε Int} {rest : Multiset Job} (halone : p.Alone)
    (hf : s.failed = false) (hitems : c.items s.queue = job ::ₘ rest)
    (hbefore : ∀ j ∈ rest, comp j job = true) (hp : s.frames job.2 = some (.suspended p)) :
    ∃ s', Steps (comparatorScheduler c).schedule s s' ∧ s'.failed = false ∧
      c.items s'.queue = rest ∧ (∀ h, h ≠ job.2 → s'.frames h = s.frames h) ∧
      s'.effects = p.effects.reverse ++ s.effects ∧ s'.turns = allTurns job.2 p ++ s.turns := by
  obtain ⟨n, hn⟩ : ∃ n, p.yields = n := ⟨_, rfl⟩
  induction n generalizing p s with
  | zero =>
    obtain ⟨he, htop, hpop⟩ := top_eq hitems hbefore
    rcases schedule_of_alone (S := comparatorScheduler c) hf he htop hp halone with
      ⟨-, hst⟩ | ⟨_, rest', _, hyields, _⟩
    · refine ⟨_, .single hst, hf, hpop, fun h hne => Function.update_of_ne hne _ _, rfl, ?_⟩
      rw [allTurns, hn]
      rfl
    · omega
  | succ n ih =>
    obtain ⟨he, htop, hpop⟩ := top_eq hitems hbefore
    rcases schedule_of_alone (S := comparatorScheduler c) hf he htop hp halone with
      ⟨hzero, -⟩ | ⟨es, rest', hrest, hyields, heffects, hst⟩
    · omega
    · -- the job is put back unchanged, so it is on top again
      have hagain : c.items (c.push job (c.pop s.queue)) = job ::ₘ rest := by
        rw [c.items_push, hpop]
      obtain ⟨s', hsteps, hf', hitems', hframes, heffects', hturns⟩ :=
        ih (s := putBack (comparatorScheduler c) job es rest' s) hrest hf hagain
          (Function.update_self _ _ _) (by omega)
      refine ⟨s', .head hst hsteps, hf', hitems', ?_, ?_, ?_⟩
      · intro h hne
        rw [hframes h hne]
        exact Function.update_of_ne hne _ _
      · rw [heffects', heffects, List.reverse_append, List.append_assoc]
        rfl
      · have hall : allTurns job.2 p = allTurns job.2 rest' ++ [⟨job.2, false⟩] := by
          rw [allTurns, hyields, List.replicate_succ']
          rfl
        rw [hturns, hall, List.append_assoc]
        rfl

/-- From `s` to `s'` the tasks `order` run one after the other: the effects and the turns are
those of the first one, and then those of the next one. -/
structure RunsOneByOne (c : PriorityQueue K Job comp) (order : List (Job × Prog ε Int))
    (s s' : Pool K ε Int) : Prop where
  steps : Steps (comparatorScheduler c).schedule s s'
  failed : s'.failed = false
  empty : c.empty s'.queue = true
  effects : s'.effects.reverse = s.effects.reverse ++ order.flatMap fun e => e.2.effects
  turns : s'.turns.reverse =
    s.turns.reverse ++ order.flatMap fun e => (allTurns e.1.2 e.2).reverse

theorem before_of_top {k : K} {job : Job} {jobs : List Job} (htop : c.top k = some job)
    (hitems : c.items k = (job :: jobs : List Job)) (hnodup : (job :: jobs).Nodup)
    (htotal : StrictTotalOn comp (job :: jobs)) : ∀ j ∈ jobs, comp j job = true := by
  intro j hj
  have hne : job ≠ j := by
    rintro rfl
    exact (List.nodup_cons.mp hnodup).1 hj
  have hmax := c.top_max k job htop j (by rw [hitems]; exact List.mem_cons_of_mem _ hj)
  rcases htotal.total job List.mem_cons_self j (List.mem_cons_of_mem _ hj) hne with hlt | hlt
  · exact absurd hlt (by simp [hmax])
  · exact hlt

theorem StrictTotalOn.perm {jobs jobs' : List Job} (h : StrictTotalOn comp jobs)
    (hperm : jobs.Perm jobs') : StrictTotalOn comp jobs' := by
  have hmem : ∀ {a}, a ∈ jobs' → a ∈ jobs := fun ha => hperm.mem_iff.mpr ha
  exact ⟨fun a ha => h.irrefl a (hmem ha),
    fun a ha b hb c hc => h.trans a (hmem ha) b (hmem hb) c (hmem hc),
    fun a ha b hb => h.total a (hmem ha) b (hmem hb)⟩

theorem StrictTotalOn.tail {job : Job} {jobs : List Job} (h : StrictTotalOn comp (job :: jobs)) :
    StrictTotalOn comp jobs := by
  have hmem : ∀ {a}, a ∈ jobs → a ∈ job :: jobs := fun ha => List.mem_cons_of_mem _ ha
  exact ⟨fun a ha => h.irrefl a (hmem ha),
    fun a ha b hb c hc => h.trans a (hmem ha) b (hmem hb) c (hmem hc),
    fun a ha b hb => h.total a (hmem ha) b (hmem hb)⟩

theorem exists_top_entry {k : K} {es : List (Job × Prog ε Int)}
    (hitems : c.items k = (es.map Prod.fst : List Job)) (hne : es ≠ []) :
    ∃ e rest, es.Perm (e :: rest) ∧ c.top k = some e.1 := by
  have he : c.empty k = false := by
    by_contra hempty
    have hzero := (c.empty_iff k).mp (by simpa using hempty)
    rw [hitems, Multiset.coe_eq_zero, List.map_eq_nil_iff] at hzero
    exact hne hzero
  obtain ⟨job, htop, hpop⟩ := c.exists_top k he
  have hmem : job ∈ c.items k := by
    rw [hpop]
    exact Multiset.mem_cons_self _ _
  rw [hitems, Multiset.mem_coe, List.mem_map] at hmem
  obtain ⟨e, hmem, rfl⟩ := hmem
  obtain ⟨l, l', rfl⟩ := List.append_of_mem hmem
  exact ⟨e, l ++ l', List.perm_middle, htop⟩

/-- **The tasks run one after the other**, from the greatest job to the least. -/
theorem runs_in_order {es : List (Job × Prog ε Int)} (halone : ∀ e ∈ es, e.2.Alone)
    (hnodup : (es.map fun e => e.1.2).Nodup) (htotal : StrictTotalOn comp (es.map Prod.fst))
    (hf : s.failed = false) (hitems : c.items s.queue = (es.map Prod.fst : List Job))
    (hsuspended : ∀ e ∈ es, s.frames e.1.2 = some (.suspended e.2)) :
    ∃ (order : List (Job × Prog ε Int)) (s' : Pool K ε Int), order.Perm es ∧
      order.Pairwise (fun a b => comp b.1 a.1 = true) ∧ RunsOneByOne c order s s' := by
  obtain ⟨n, hn⟩ : ∃ n, es.length = n := ⟨_, rfl⟩
  induction n generalizing s es with
  | zero =>
    obtain rfl := List.length_eq_zero_iff.mp hn
    exact ⟨[], s, .refl [], .nil, .refl s, hf, (c.empty_iff _).mpr hitems, by simp, by simp⟩
  | succ n ih =>
    obtain ⟨e, rest, hperm, htop⟩ := exists_top_entry hitems (by rintro rfl; cases hn)
    have hmem : e ∈ es := hperm.mem_iff.mpr List.mem_cons_self
    have hrest : ∀ {x}, x ∈ rest → x ∈ es := fun hx =>
      hperm.mem_iff.mpr (List.mem_cons_of_mem _ hx)
    have hjobs : c.items s.queue = e.1 ::ₘ (rest.map Prod.fst : List Job) := by
      rw [hitems, Multiset.cons_coe]
      exact Multiset.coe_eq_coe.mpr (hperm.map Prod.fst)
    have htotal := htotal.perm (hperm.map Prod.fst)
    obtain ⟨hout, hnodup⟩ := List.nodup_cons.mp ((hperm.map fun e => e.1.2).nodup_iff.mp hnodup)
    have hne : ∀ x ∈ rest, x.1.2 ≠ e.1.2 := fun x hx heq =>
      hout (List.mem_map.mpr ⟨x, hx, heq⟩)
    have hfirst : e.1 ∉ rest.map Prod.fst := by
      intro hmem
      obtain ⟨x, hx, heq⟩ := List.mem_map.mp hmem
      exact hne x hx (congrArg Prod.snd heq)
    have hjobsNodup : (e.1 :: rest.map Prod.fst).Nodup :=
      List.nodup_cons.mpr ⟨hfirst, .of_map Prod.snd (by rwa [List.map_map])⟩
    have hbefore := before_of_top htop hjobs hjobsNodup htotal
    obtain ⟨s₁, hsteps, hf₁, hitems₁, hframes, heffects, hturns⟩ :=
      finishes_top (halone e hmem) hf hjobs hbefore (hsuspended e hmem)
    have hsuspended₁ : ∀ x ∈ rest, s₁.frames x.1.2 = some (.suspended x.2) := by
      intro x hx
      rw [hframes _ (hne x hx)]
      exact hsuspended x (hrest hx)
    have hlength : rest.length = n := by
      have hlen := hperm.length_eq
      rw [List.length_cons] at hlen
      omega
    obtain ⟨order, s', horder, hpairwise, hruns⟩ := ih (fun x hx => halone x (hrest hx)) hnodup
      htotal.tail hf₁ hitems₁ hsuspended₁ hlength
    refine ⟨e :: order, s', (horder.cons e).trans hperm.symm, ?_, hsteps.trans hruns.steps,
      hruns.failed, hruns.empty, ?_, ?_⟩
    · refine List.pairwise_cons.mpr ⟨?_, hpairwise⟩
      intro x hx
      exact hbefore x.1 (List.mem_map_of_mem (horder.mem_iff.mp hx))
    · rw [hruns.effects, heffects, List.reverse_append, List.reverse_reverse, List.flatMap_cons,
        List.append_assoc]
    · rw [hruns.turns, hturns, List.reverse_append, List.flatMap_cons, List.append_assoc]

end Order

/-! ### The comparators -/

/-- `std::ranges::less` on jobs whose handles have these addresses. -/
def lessAt (address : Handle → Nat) (a b : Job) : Bool :=
  a.1 < b.1 || (a.1 == b.1 && address a.2 < address b.2)

/-- `std::ranges::greater` -/
def greaterAt (address : Handle → Nat) (a b : Job) : Bool := lessAt address b a

theorem lessAt_iff {address : Handle → Nat} {a b : Job} :
    lessAt address a b = true ↔ a.1 < b.1 ∨ (a.1 = b.1 ∧ address a.2 < address b.2) := by
  simp [lessAt]

instance (address : Handle → Nat) : IsStrictOrder Job fun a b => lessAt address a b = true where
  irrefl a := by simp [lessAt]
  trans a b c := by
    rw [lessAt_iff, lessAt_iff, lessAt_iff]
    omega

instance (address : Handle → Nat) :
    IsStrictOrder Job fun a b => greaterAt address a b = true where
  irrefl a := by simp [greaterAt, lessAt]
  trans a b c := by
    rw [greaterAt, greaterAt, greaterAt, lessAt_iff, lessAt_iff, lessAt_iff]
    omega

theorem strictTotalOn_lessAt {address : Handle → Nat} {jobs : List Job}
    (hdistinct : ∀ a ∈ jobs, ∀ b ∈ jobs, address a.2 = address b.2 → a.2 = b.2) :
    StrictTotalOn (lessAt address) jobs := by
  refine ⟨?_, ?_, ?_⟩
  · intro a _
    simp [lessAt]
  · intro a _ b _ c _
    exact trans_of fun a b => lessAt address a b = true
  · intro a ha b hb hne
    rw [lessAt_iff, lessAt_iff]
    have haddress : a.1 = b.1 → address a.2 ≠ address b.2 := fun hprio heq =>
      hne (Prod.ext hprio (hdistinct a ha b hb heq))
    omega

theorem StrictTotalOn.swap {comp : Job → Job → Bool} {jobs : List Job}
    (h : StrictTotalOn comp jobs) : StrictTotalOn (fun a b => comp b a) jobs :=
  ⟨h.irrefl, fun a ha b hb c hc hab hbc => h.trans c hc b hb a ha hbc hab,
    fun a ha b hb hne => h.total b hb a ha hne.symm⟩

/-! ### The scheduler with a comparator -/

/-- `schedule` runs the tasks to their ends one after the other, the greatest job first. -/
def CompletesInOrder {comp : Job → Job → Bool} (c : PriorityQueue K Job comp)
    (tasks : List (Int × Prog ε Int)) : Prop :=
  ∃ (order : List (Job × Prog ε Int)) (s : Pool K ε Int), order.Perm (entries tasks) ∧
    order.Pairwise (fun a b => comp b.1 a.1 = true) ∧
    Steps (comparatorScheduler c).schedule ((comparatorScheduler c).emplaced tasks) s ∧
    (comparatorScheduler c).schedule s = none ∧ s.failed = false ∧
    s.effects.reverse = order.flatMap (fun e => e.2.effects) ∧
    s.turns.reverse = order.flatMap fun e => (allTurns e.1.2 e.2).reverse

theorem completesInOrder {comp : Job → Job → Bool} (c : PriorityQueue K Job comp)
    {tasks : List (Int × Prog ε Int)} (halone : ∀ t ∈ tasks, t.2.Alone)
    (htotal : StrictTotalOn comp ((entries tasks).map Prod.fst)) : CompletesInOrder c tasks := by
  have hstart := queued_emplaced (S := comparatorScheduler c) c.items c.items_new
    (fun prio h q => c.items_push (prio, h) q) tasks
  obtain ⟨order, s, hperm, hpairwise, hruns⟩ := runs_in_order
    (fun e he => alone_entriesFrom halone he) (nodup_entriesFrom 0 tasks) htotal hstart.failed
    hstart.items hstart.suspended
  refine ⟨order, s, hperm, hpairwise, hruns.steps, schedule_of_empty hruns.empty, hruns.failed,
    ?_, ?_⟩
  · rw [hruns.effects, hstart.effects, List.reverse_nil, List.nil_append]
  · rw [hruns.turns, hstart.turns, List.reverse_nil, List.nil_append]

/-- **The priority schedulers complete the tasks in the order of their jobs**, for each
comparator that orders them, and so for `less` and `greater` on distinct handles. -/
theorem complete_in_priority_order (tasks : List (Int × Prog ε Int))
    (halone : ∀ t ∈ tasks, t.2.Alone) :
    (∀ (K : Type) (comp : Job → Job → Bool) (c : PriorityQueue K Job comp),
      StrictTotalOn comp ((entries tasks).map Prod.fst) → CompletesInOrder c tasks) ∧
    ∀ address : Handle → Nat,
      (∀ h h', h < tasks.length → h' < tasks.length → address h = address h' → h = h') →
      (∀ (K : Type) (c : PriorityQueue K Job (lessAt address)), CompletesInOrder c tasks) ∧
      ∀ (K : Type) (c : PriorityQueue K Job (greaterAt address)), CompletesInOrder c tasks := by
  refine ⟨fun K comp c htotal => completesInOrder c halone htotal, ?_⟩
  intro address hdistinct
  have hless : StrictTotalOn (lessAt address) ((entries tasks).map Prod.fst) := by
    apply strictTotalOn_lessAt
    intro a ha b hb
    obtain ⟨x, hx, rfl⟩ := List.mem_map.mp ha
    obtain ⟨y, hy, rfl⟩ := List.mem_map.mp hb
    exact hdistinct _ _ (lt_of_mem_entries hx) (lt_of_mem_entries hy)
  exact ⟨fun K c => completesInOrder c halone hless,
    fun K c => completesInOrder c halone hless.swap⟩

/-- The tasks of `main`. -/
theorem complete_in_priority_order_main :
    CompletesInOrder (PriorityQueue.listPriorityQueue (lessAt id))
      [(0, createTask "TaskA"), (1, createTask "  TaskB")] ∧
    CompletesInOrder (PriorityQueue.listPriorityQueue (greaterAt id))
      [(0, createTask "TaskA"), (1, createTask "  TaskB")] := by
  have hboth := (complete_in_priority_order [(0, createTask "TaskA"), (1, createTask "  TaskB")]
    (by simp [createTask, Prog.Alone])).2 id fun h h' _ _ heq => heq
  exact ⟨hboth.1 _ _, hboth.2 _ _⟩

end Cpp20Examples.Schedulers
