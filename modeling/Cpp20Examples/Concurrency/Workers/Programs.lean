import Cpp20Examples.Lib.Latches
import Mathlib.Algebra.GroupWithZero.Nat

/-!
# Workers and their boss

`workers` has a latch for the end of the work, `bossWorkers` one more for the permission to go
home, and `bossWorker` promises for the prepared work with a shared future for the permission
to start.

* `Crew`: a main function with its workers; `main` is the thread 0.
* `workers`, `workersOsyncstream`, `bossWorkers`, `bossWorker`: the four programs.
* `all_finish`: none of them has a deadlock, and their runs are bounded.
-/

namespace Cpp20Examples.Workers

open Lib Lib.Latches

/-- What is waited for; `prepared` and `startWork` are promises with their futures. -/
inductive Latch
  | spawned (i : Nat)
  | workDone
  | goHome
  | prepared (i : Nat)
  | startWork
  | joined (i : Nat)
  deriving DecidableEq

abbrev Code := List (Stmt Latch Char)

/-! ### Statements -/

/-- `std::cout << s`, where other threads may write in between. -/
def print (s : String) : Code := s.toList.map fun c => .op (.put [c])

/-- `synchronizedOut(s)` -/
def synchronizedOut (s : String) : Code := [.locked (s.toList.map fun c => .put [c])]

/-- `std::osyncstream(std::cout) << s` -/
def osyncstream (s : String) : Code := [.op (.put s.toList)]

/-- `l.count_down()` and `promise.set_value()` -/
def countDown (l : Latch) : Code := [.op (.countDown l)]

/-- `l.wait()` and `future.wait()` -/
def wait (l : Latch) : Code := [.op (.wait l)]

/-! ### Programs -/

/-- What `main` does before and behind the creation of its threads, the functions of these,
and the latches as they are constructed. -/
structure Crew where
  size : Nat
  start : Code
  main : Code
  worker : Nat → Code
  declared : Latch → Nat

namespace Crew

def createThreads (c : Crew) : Code := (List.range c.size).flatMap fun i => countDown (.spawned i)

def joinThreads (c : Crew) : Code := (List.range c.size).flatMap fun i => wait (.joined i)

/-- `main`, with the creation of the threads and their `join` at the end. -/
def mainThread (c : Crew) : Code := c.start ++ c.createThreads ++ c.main ++ c.joinThreads

/-- The thread `i + 1`, from its creation to its end. -/
def thread (c : Crew) (i : Nat) : Code :=
  wait (.spawned i) ++ c.worker i ++ countDown (.joined i)

def programs (c : Crew) : List Code := c.mainThread :: (List.range c.size).map c.thread

def latches (c : Crew) : Latch → Nat
  | .spawned i | .joined i => if i < c.size then 1 else 0
  | l => c.declared l

def system (c : Crew) : System (Threads.State (Shared Latch Char) (Thread Latch Char)) Nat :=
  Latches.system c.latches c.programs

/-- The runs are bounded, and go on until all threads are at their end. -/
def Finishes (c : Crew) : Prop := ∃ n, ∀ as s, c.system.run c.system.init as = some s →
  as.length ≤ n ∧
    ((∀ v ∈ s.threads, v.finished = true) ∨ ∃ t s', c.system.step s t = some s')

end Crew

/-- `workers.cpp`, with `synchronizedOut` or `std::osyncstream` as `out`. -/
def workersWith (out : String → Code) (names : List String) : Crew where
  size := names.length
  start := print "\n"
  main := []
  worker i := out (names.getD i "" ++ ": " ++ "Work done!\n") ++ countDown .workDone ++
    wait .workDone ++ out (names.getD i "" ++ ": " ++ "See you tomorrow!\n")
  declared
    | .workDone => names.length
    | _ => 0

def workers : List String → Crew := workersWith synchronizedOut

def workersOsyncstream : List String → Crew := workersWith osyncstream

def bossWorkers (names : List String) : Crew where
  size := names.length
  start := print "\n" ++ print "BOSS: START WORKING! " ++ print "\n"
  main := wait .workDone ++ print "\n" ++ countDown .goHome ++ print "BOSS: GO HOME!" ++
    print "\n"
  worker i := synchronizedOut (names.getD i "" ++ ": " ++ "Work done!\n") ++
    countDown .workDone ++ wait .goHome ++
    synchronizedOut (names.getD i "" ++ ": " ++ "Good bye!\n")
  declared
    | .workDone => names.length
    | .goHome => 1
    | _ => 0

/-- The workers have their names, and the times that they take to prepare their work. -/
def bossWorker (workers : List (String × Nat)) : Crew where
  size := workers.length
  start := print "\n"
  main := print "BOSS: PREPARE YOUR WORK.\n " ++ print "\n" ++
    (List.range workers.length).flatMap (fun i => wait (.prepared i)) ++
    print "\nBOSS: START YOUR WORK. \n" ++ print "\n" ++ countDown .startWork
  worker i := countDown (.prepared i) ++ print (workers.getD i default).1 ++ print ": " ++
    print "Work prepared after " ++ print (toString (workers.getD i default).2) ++
    print " milliseconds." ++ print "\n" ++ wait .startWork
  declared
    | .prepared i => if i < workers.length then 1 else 0
    | .startWork => 1
    | _ => 0

/-! ### What is waited for -/

def sync (p : Code) : List (Op Latch Char) := (p.flatMap Stmt.ops).filter Op.isSync

section Sync

variable (p q : Code) (s : String) (l : Latch)

@[simp] theorem sync_nil : sync [] = [] := rfl

@[simp] theorem sync_append : sync (p ++ q) = sync p ++ sync q := by
  rw [sync, List.flatMap_append, List.filter_append]
  rfl

@[simp] theorem sync_print : sync (print s) = [] := by
  rw [sync, List.filter_eq_nil_iff]
  intro o ho
  obtain ⟨st, hst, ho⟩ := List.mem_flatMap.mp ho
  obtain ⟨c, -, rfl⟩ := List.mem_map.mp hst
  obtain rfl := List.mem_singleton.mp ho
  exact Bool.false_ne_true

@[simp] theorem sync_synchronizedOut : sync (synchronizedOut s) = [] := by
  rw [sync, List.filter_eq_nil_iff]
  intro o ho
  rw [synchronizedOut, List.flatMap_singleton] at ho
  obtain ⟨c, -, rfl⟩ := List.mem_map.mp ho
  exact Bool.false_ne_true

@[simp] theorem sync_osyncstream : sync (osyncstream s) = [] := rfl

@[simp] theorem sync_countDown : sync (countDown l) = [.countDown l] := rfl

@[simp] theorem sync_wait : sync (wait l) = [.wait l] := rfl

theorem sync_flatMap (n : Nat) (f : Nat → Code) :
    sync ((List.range n).flatMap f) = (List.range n).flatMap fun i => sync (f i) := by
  rw [sync, List.flatMap_assoc, List.filter_flatMap]
  rfl

theorem mem_sync_iff {p : Code} {o : Op Latch Char} (ho : o.isSync = true) :
    o ∈ sync p ↔ o ∈ p.flatMap Stmt.ops := by
  rw [sync, List.mem_filter, and_iff_left ho]

end Sync

@[simp] theorem sync_createThreads (c : Crew) :
    sync c.createThreads = (List.range c.size).map fun i => .countDown (.spawned i) := by
  rw [Crew.createThreads, sync_flatMap]
  exact List.flatMap_pure_eq_map ..

@[simp] theorem sync_joinThreads (c : Crew) :
    sync c.joinThreads = (List.range c.size).map fun i => .wait (.joined i) := by
  rw [Crew.joinThreads, sync_flatMap]
  exact List.flatMap_pure_eq_map ..

/-! ### The latches are counted down -/

/-- How often `l` is counted down. -/
def count (l : Latch) (p : Code) : Nat := (sync p).countP (Op.counts l)

section Count

variable (p q : Code) (s : String) (l l' : Latch)

theorem counts_eq : Thread.counts l (⟨p, none⟩ : Thread Latch Char) = count l p := by
  rw [Thread.counts, count, sync, List.countP_filter]
  apply List.countP_congr
  intro o _
  cases o <;> simp [Op.counts, Op.isSync]

@[simp] theorem count_append : count l (p ++ q) = count l p + count l q := by
  rw [count, sync_append, List.countP_append]
  rfl

@[simp] theorem count_countDown : count l (countDown l') = if l' = l then 1 else 0 := by
  rw [count, sync_countDown, List.countP_singleton]
  by_cases h : l' = l
  · rw [if_pos h, Op.counts, if_pos (beq_iff_eq.mpr h)]
  · rw [if_neg h, Op.counts, if_neg (beq_iff_eq.not.mpr h)]

@[simp] theorem count_wait : count l (wait l') = 0 := rfl

@[simp] theorem count_nil : count l [] = 0 := rfl

@[simp] theorem count_of_quiet (h : sync p = []) : count l p = 0 := by
  rw [count, h]
  rfl

theorem count_flatMap (n : Nat) (f : Nat → Code) :
    count l ((List.range n).flatMap f) = ((List.range n).map fun i => count l (f i)).sum := by
  rw [count, sync_flatMap, List.countP_flatMap]
  rfl

theorem sum_range_ite (n j : Nat) :
    ((List.range n).map fun i => if i = j then 1 else 0).sum = if j < n then 1 else 0 := by
  induction n with
  | zero => rfl
  | succ n ih =>
    rw [List.range_succ, List.map_append, List.sum_append, ih, List.map_singleton,
      List.sum_singleton]
    split <;> split <;> split <;> omega

end Count

namespace Crew

variable {c : Crew}

/-- The creation of the threads, what waits for it, and so on to their ends. -/
def ranks : Ranks Latch where
  latch
    | .spawned _ => 0
    | .workDone | .prepared _ => 1
    | .goHome | .startWork => 2
    | .joined _ => 3
  mutex := 0

/-- What is to be checked of a crew: its own latches, and what its threads wait for. -/
structure Sound (c : Crew) : Prop where
  declared : ∀ l, c.declared l = count l c.start + count l c.main +
    ((List.range c.size).map fun i => count l (c.worker i)).sum
  own : ∀ i, c.declared (.spawned i) = 0 ∧ c.declared (.joined i) = 0
  start : sync c.start = []
  main : (sync c.main).Pairwise (Op.Before ranks)
  worker : ∀ i, (sync (c.worker i)).Pairwise (Op.Before ranks)
  counts : ∀ i l, .countDown l ∈ sync (c.worker i) → 0 < ranks.latch l
  waits : ∀ i l, .wait l ∈ sync (c.worker i) → ranks.latch l < 3
  unlocked : ∀ body, .locked body ∉ c.start ++ c.main
  scopes : ∀ i body, .locked body ∈ c.worker i → ∀ l, .wait l ∉ body

theorem count_createThreads (l : Latch) : count l c.createThreads =
    ((List.range c.size).map fun i => if Latch.spawned i = l then 1 else 0).sum := by
  rw [createThreads, count_flatMap]
  simp only [count_countDown]

theorem count_joinThreads (l : Latch) : count l c.joinThreads = 0 := by
  rw [joinThreads, count_flatMap]
  apply List.sum_eq_zero
  intro k hk
  obtain ⟨i, -, rfl⟩ := List.mem_map.mp hk
  exact count_wait ..

theorem count_thread (l : Latch) (i : Nat) :
    count l (c.thread i) = count l (c.worker i) + if Latch.joined i = l then 1 else 0 := by
  rw [thread, count_append, count_append, count_wait, count_countDown, Nat.zero_add]

/-- The creation of the threads and their ends are counted down by the threads themselves. -/
theorem Sound.latches (h : c.Sound) (l : Latch) :
    c.latches l = c.declared l + count l c.createThreads +
      ((List.range c.size).map fun i => if Latch.joined i = l then 1 else 0).sum := by
  rw [count_createThreads]
  cases l with
  | spawned j =>
    simp only [Crew.latches, (h.own j).1, Latch.spawned.injEq, sum_range_ite, reduceCtorEq,
      if_false]
    simp
  | joined j =>
    simp only [Crew.latches, (h.own j).2, Latch.joined.injEq, sum_range_ite, reduceCtorEq,
      if_false]
    simp
  | _ => simp [Crew.latches]

theorem Sound.counted (h : c.Sound) : Counted c.system.init := by
  intro l
  have hsum : ((List.range c.size).map fun i => count l (c.thread i)).sum =
      ((List.range c.size).map fun i => count l (c.worker i)).sum +
        ((List.range c.size).map fun i => if Latch.joined i = l then 1 else 0).sum := by
    rw [← List.sum_map_add]
    simp only [count_thread]
  show c.latches l = ((c.programs.map fun p => (⟨p, none⟩ : Thread Latch Char)).map
    (Thread.counts l)).sum
  rw [List.map_map, programs, List.map_cons, List.sum_cons, List.map_map, h.latches, h.declared]
  have hmain : (Thread.counts l ∘ fun p => (⟨p, none⟩ : Thread Latch Char)) = count l := by
    funext p
    exact counts_eq p l
  rw [hmain]
  show _ = count l c.mainThread + ((List.range c.size).map fun i => count l (c.thread i)).sum
  rw [hsum, mainThread, count_append, count_append, count_append, count_joinThreads]
  omega

/-! ### The waits are ordered -/

theorem Sound.mainThread_ordered (h : c.Sound) :
    Ordered ranks (⟨c.mainThread, none⟩ : Thread ..) := by
  refine ⟨pairwise_before ?_, scopesOrdered_of ?_, nofun⟩
  · show (sync c.mainThread).Pairwise (Op.Before ranks)
    rw [mainThread, sync_append, sync_append, sync_append, h.start, List.nil_append]
    have hcreate : ∀ o ∈ sync c.createThreads, ∃ l, o = .countDown l := by
      intro o ho
      rw [createThreads, sync_flatMap] at ho
      obtain ⟨i, -, ho⟩ := List.mem_flatMap.mp ho
      exact ⟨_, List.mem_singleton.mp ho⟩
    have hjoin : ∀ o ∈ sync c.joinThreads, ∃ l, o = .wait l := by
      intro o ho
      rw [joinThreads, sync_flatMap] at ho
      obtain ⟨i, -, ho⟩ := List.mem_flatMap.mp ho
      exact ⟨_, List.mem_singleton.mp ho⟩
    have hfirst : ∀ o ∈ sync c.createThreads, ∀ o', Op.Before ranks o o' := by
      rintro o ho o' l l' rfl -
      obtain ⟨l₁, heq⟩ := hcreate _ ho
      cases heq
    have hlast : ∀ o, ∀ o' ∈ sync c.joinThreads, Op.Before ranks o o' := by
      rintro o o' ho l l' - rfl
      obtain ⟨l₁, heq⟩ := hjoin _ ho
      cases heq
    refine List.pairwise_append.mpr ⟨List.pairwise_append.mpr ⟨?_, h.main, ?_⟩, ?_, ?_⟩
    · exact List.pairwise_of_forall_mem_list fun o ho o' _ => hfirst o ho o'
    · exact fun o ho o' _ => hfirst o ho o'
    · exact List.pairwise_of_forall_mem_list fun o _ o' ho' => hlast o o' ho'
    · exact fun o _ o' ho' => hlast o o' ho'
  · intro body hbody
    exfalso
    simp only [mainThread, createThreads, joinThreads, List.mem_append, List.mem_flatMap] at hbody
    rcases hbody with ((hbody | ⟨i, -, hbody⟩) | hbody) | ⟨i, -, hbody⟩
    · exact h.unlocked body (List.mem_append_left _ hbody)
    · exact absurd (List.mem_singleton.mp hbody) nofun
    · exact h.unlocked body (List.mem_append_right _ hbody)
    · exact absurd (List.mem_singleton.mp hbody) nofun

theorem Sound.thread_ordered (h : c.Sound) (i : Nat) :
    Ordered ranks (⟨c.thread i, none⟩ : Thread ..) := by
  refine ⟨pairwise_before ?_, scopesOrdered_of ?_, nofun⟩
  · show (sync (c.thread i)).Pairwise (Op.Before ranks)
    rw [thread, sync_append, sync_append, sync_wait, sync_countDown]
    refine List.pairwise_append.mpr ⟨List.pairwise_cons.mpr ⟨?_, h.worker i⟩,
      List.pairwise_singleton .., ?_⟩
    · rintro o ho l l' heq rfl
      cases heq
      exact h.counts i l' ho
    · rintro o ho o' ho' l l' rfl rfl
      cases List.mem_singleton.mp ho'
      rcases List.mem_cons.mp ho with heq | ho
      · cases heq
        exact Nat.zero_lt_succ 2
      · exact h.waits i l ho
  · intro body hbody
    have hworker : .locked body ∈ c.worker i := by
      rw [thread] at hbody
      rcases List.mem_append.mp hbody with hbody | hbody
      · rcases List.mem_append.mp hbody with hbody | hbody
        · exact absurd (List.mem_singleton.mp hbody) nofun
        · exact hbody
      · exact absurd (List.mem_singleton.mp hbody) nofun
    refine ⟨fun l hl => absurd hl (h.scopes i body hworker l), ?_⟩
    intro l hl
    have hmem : .countDown l ∈ sync (c.thread i) := List.mem_filter.mpr ⟨hl, rfl⟩
    rw [thread, sync_append, sync_append, sync_wait, sync_countDown] at hmem
    rcases List.mem_append.mp hmem with hmem | hmem
    · rcases List.mem_cons.mp hmem with heq | hmem
      · cases heq
      · exact h.counts i l hmem
    · cases List.mem_singleton.mp hmem
      exact Nat.zero_lt_succ 2

theorem Sound.finishes (h : c.Sound) : c.Finishes := by
  refine ⟨(c.system.init.threads.map Thread.left).sum, ?_⟩
  intro as s hrun
  refine ⟨run_length_le hrun, ?_⟩
  have houtside : ∀ v ∈ c.system.init.threads, v.scope.isSome = false := by
    intro v hv
    obtain ⟨p, -, rfl⟩ := List.mem_map.mp hv
    rfl
  refine progress (r := ranks) h.counted ?_ rfl houtside (System.reachable_of_run as hrun)
  intro v hv
  obtain ⟨p, hp, rfl⟩ := List.mem_map.mp hv
  rcases List.mem_cons.mp hp with rfl | hp
  · exact h.mainThread_ordered
  · obtain ⟨i, -, rfl⟩ := List.mem_map.mp hp
    exact h.thread_ordered i

end Crew

/-! ### The four programs -/

theorem not_locked_print (s : String) (body : List (Op Latch Char)) :
    .locked body ∉ print s := by
  intro h
  obtain ⟨c, -, heq⟩ := List.mem_map.mp h
  cases heq

theorem wait_not_mem_of_quiet {p : Code} (hp : sync p = []) {body : List (Op Latch Char)}
    (h : .locked body ∈ p) (l : Latch) : .wait l ∉ body := by
  intro hl
  have hmem : .wait l ∈ sync p := (mem_sync_iff rfl).mpr (List.mem_flatMap.mpr ⟨_, h, hl⟩)
  rw [hp] at hmem
  cases hmem

theorem workersWith_sound {out : String → Code} (hout : ∀ s, sync (out s) = [])
    (names : List String) : (workersWith out names).Sound where
  declared l := by
    simp only [workersWith, count_append, count_countDown, count_wait, count_nil,
      count_of_quiet _ _ (sync_print _), count_of_quiet _ _ (hout _)]
    cases l <;> simp
  own i := ⟨rfl, rfl⟩
  start := sync_print _
  main := List.Pairwise.nil
  worker i := by
    simp only [workersWith, sync_append, hout, sync_countDown, sync_wait]
    simp [Op.Before]
  counts i l h := by
    simp only [workersWith, sync_append, hout, sync_countDown, sync_wait] at h
    simp at h
    subst h
    exact Nat.one_pos
  waits i l h := by
    simp only [workersWith, sync_append, hout, sync_countDown, sync_wait] at h
    simp at h
    subst h
    decide
  unlocked body h := by
    rw [workersWith, List.append_nil] at h
    exact not_locked_print _ body h
  scopes i body h l := by
    simp only [workersWith, List.mem_append] at h
    rcases h with ((h | h) | h) | h
    · exact wait_not_mem_of_quiet (hout _) h l
    · exact absurd (List.mem_singleton.mp h) nofun
    · exact absurd (List.mem_singleton.mp h) nofun
    · exact wait_not_mem_of_quiet (hout _) h l

theorem bossWorkers_sound (names : List String) : (bossWorkers names).Sound where
  declared l := by
    simp only [bossWorkers, count_append, count_countDown, count_wait,
      count_of_quiet _ _ (sync_print _), count_of_quiet _ _ (sync_synchronizedOut _)]
    cases l <;> simp
  own i := ⟨rfl, rfl⟩
  start := by simp [bossWorkers]
  main := by
    simp only [bossWorkers, sync_append, sync_print, sync_countDown, sync_wait]
    simp [Op.Before, Crew.ranks]
  worker i := by
    simp only [bossWorkers, sync_append, sync_synchronizedOut, sync_countDown, sync_wait]
    simp [Op.Before]
  counts i l h := by
    simp only [bossWorkers, sync_append, sync_synchronizedOut, sync_countDown, sync_wait] at h
    simp at h
    subst h
    exact Nat.one_pos
  waits i l h := by
    simp only [bossWorkers, sync_append, sync_synchronizedOut, sync_countDown, sync_wait] at h
    simp at h
    subst h
    decide
  unlocked body h := by
    simp [bossWorkers, not_locked_print, wait, countDown] at h
  scopes i body h l := by
    simp only [bossWorkers, List.mem_append] at h
    rcases h with ((h | h) | h) | h
    · exact wait_not_mem_of_quiet (sync_synchronizedOut _) h l
    · exact absurd (List.mem_singleton.mp h) nofun
    · exact absurd (List.mem_singleton.mp h) nofun
    · exact wait_not_mem_of_quiet (sync_synchronizedOut _) h l

theorem bossWorker_sound (workers : List (String × Nat)) : (bossWorker workers).Sound where
  declared l := by
    simp only [bossWorker, count_append, count_countDown, count_wait, count_flatMap,
      count_of_quiet _ _ (sync_print _)]
    cases l <;> simp [sum_range_ite]
  own i := ⟨rfl, rfl⟩
  start := sync_print _
  main := by
    simp only [bossWorker, sync_append, sync_print, sync_countDown, sync_flatMap, sync_wait,
      List.nil_append, List.append_nil]
    have hwait : ∀ o ∈ (List.range workers.length).flatMap (fun i => [.wait (.prepared i)]),
        ∃ i, o = (.wait (.prepared i) : Op Latch Char) := by
      intro o ho
      obtain ⟨i, -, ho⟩ := List.mem_flatMap.mp ho
      exact ⟨i, List.mem_singleton.mp ho⟩
    refine List.pairwise_append.mpr ⟨List.pairwise_of_forall_mem_list ?_,
      List.pairwise_singleton .., ?_⟩
    · rintro o - o' ho' l l' - rfl
      obtain ⟨i, heq⟩ := hwait _ ho'
      cases heq
    · rintro o ho o' ho' l l' rfl rfl
      obtain ⟨i, heq⟩ := hwait _ ho
      cases heq
      cases List.mem_singleton.mp ho'
      exact Nat.one_lt_two
  worker i := by
    simp only [bossWorker, sync_append, sync_print, sync_countDown, sync_wait]
    simp [Op.Before]
  counts i l h := by
    simp only [bossWorker, sync_append, sync_print, sync_countDown, sync_wait] at h
    simp at h
    subst h
    exact Nat.one_pos
  waits i l h := by
    simp only [bossWorker, sync_append, sync_print, sync_countDown, sync_wait] at h
    simp at h
    subst h
    decide
  unlocked body h := by
    simp [bossWorker, not_locked_print, wait, countDown] at h
  scopes i body h l := by
    simp [bossWorker, not_locked_print, wait, countDown] at h

/-- **Everybody comes to an end**: in none of the programs, for any number of workers, does a
state that is reached leave all threads waiting, and the runs are bounded. -/
theorem all_finish (names : List String) (prepared : List (String × Nat)) :
    (workers names).Finishes ∧ (workersOsyncstream names).Finishes ∧
      (bossWorkers names).Finishes ∧ (bossWorker prepared).Finishes :=
  ⟨(workersWith_sound sync_synchronizedOut names).finishes,
    (workersWith_sound sync_osyncstream names).finishes,
    (bossWorkers_sound names).finishes, (bossWorker_sound prepared).finishes⟩

end Cpp20Examples.Workers
