import Cpp20Examples.Concurrency.Workers.Runs

/-!
# The boss prepares the work

`bossWorker`: what the program prints.  The workers report that their work is prepared in front
of writing it, and nobody locks the output.

* `boss_worker_prints`: behind its first line break the program prints any interleaving of what
  the boss and each worker write.
-/

namespace Cpp20Examples.Workers.BossWorker

open Lib Lib.Latches

variable {workers : List (String × Nat)}
  {s s' : Threads.State (Shared Latch Char) (Thread Latch Char)}

/-- What a worker writes. -/
def report (worker : String × Nat) : List Char :=
  (worker.1 ++ ": " ++ "Work prepared after " ++ toString worker.2 ++ " milliseconds." ++
    "\n").toList

/-- What the boss writes behind the creation of the threads, and what the workers write. -/
def texts (workers : List (String × Nat)) : Nat → List Char
  | 0 => "BOSS: PREPARE YOUR WORK.\n \n\nBOSS: START YOUR WORK. \n\n".toList
  | i + 1 => if i < workers.length then report (workers.getD i default) else []

theorem texts_succ (i : Nat) : texts workers (i + 1) =
    if i < workers.length then report (workers.getD i default) else [] := rfl

/-- What a complete run prints. -/
def Allowed (workers : List (String × Nat)) (text : List Char) : Prop :=
  ∃ m : List (Nat × Char), (∀ t, own t m = texts workers t) ∧
    text = "\n".toList ++ m.map Prod.snd

/-- The boss behind his line break, and behind the creation of the threads. -/
def afterStart (workers : List (String × Nat)) : Code :=
  (bossWorker workers).createThreads ++ (bossWorker workers).main ++
    (bossWorker workers).joinThreads

theorem mainThread_eq :
    (bossWorker workers).mainThread = print "\n" ++ afterStart workers := by
  simp only [Crew.mainThread, afterStart, bossWorker, List.append_assoc]

theorem not_locked_thread (i : Nat) (body : List (Op Latch Char)) :
    .locked body ∉ (bossWorker workers).thread i := by
  simp [Crew.thread, bossWorker, wait, countDown, not_locked_print]

theorem text_afterStart : text (afterStart workers) = texts workers 0 := by
  have hwaits : text ((List.range workers.length).flatMap fun i => wait (.prepared i)) = [] :=
    text_flatMap _ _ fun _ => rfl
  simp only [afterStart, bossWorker, text_append, text_createThreads, text_joinThreads, text_print,
    text_countDown, hwaits]
  rfl

theorem text_thread (i : Nat) :
    text ((bossWorker workers).thread i) = report (workers.getD i default) := by
  simp only [Crew.thread, bossWorker, report, text_append, text_print, text_countDown, text_wait,
    String.toList_append, List.append_nil, List.nil_append]

theorem allowed_of_prints {text : List Char} (h : (bossWorker workers).Prints text) :
    Allowed workers text := by
  obtain ⟨s, hs, hend, rfl⟩ := h
  have h₀ := (bossWorker_sound workers).stage
  have hlen : s.threads.length = workers.length + 1 := (length_threads hs).trans h₀.length
  rw [mainThread_eq] at h₀
  obtain ⟨s₁, hs₁, hboss₁, hs⟩ := h₀.exists_at hs (getElem?_of_finished hend (by omega))
  have h₁ : Stage (bossWorker workers) (afterStart workers) 0 s₁ := by
    refine h₀.create hs₁ hboss₁ ?_ ?_
    · intro i hi
      rw [← mem_sync_iff rfl, afterStart, sync_append, sync_append, sync_createThreads]
      exact List.mem_append_left _ (List.mem_append_left _
        (List.mem_map_of_mem (List.mem_range.mpr hi)))
    · intro i
      simp [bossWorker]
  obtain ⟨m₁, hm₁, htext₁⟩ := h₀.alone h₁ (.inr not_locked_thread) hs₁
  obtain ⟨m, hm, hmem⟩ := exists_out hs
  rw [text_append, text_print] at htext₁
  refine ⟨m, ?_, ?_⟩
  · have hown : ∀ (t : Nat) (p : Code), s₁.threads[t]? = some ⟨p, none⟩ →
        own t m = Workers.text p := by
      intro t p hw
      have hlt : t < s.threads.length := by
        rw [length_threads hs]
        exact (List.getElem?_eq_some_iff.mp hw).1
      have hwritten := written hs (getElem?_of_finished hend hlt) hw
      rw [hm, own_append, List.append_assoc] at hwritten
      exact (List.append_nil _).symm.trans (List.append_cancel_left hwritten)
    intro t
    cases t with
    | zero => rw [hown 0 _ h₁.boss, text_afterStart]
    | succ i =>
      by_cases hi : i < workers.length
      · rw [hown (i + 1) _ (h₁.worker i hi), texts_succ, if_pos hi, List.drop_zero, text_thread]
      · rw [texts_succ, if_neg hi, List.eq_nil_iff_forall_not_mem]
        intro x hx
        have hlt := hmem _ (mem_own.mp hx)
        rw [h₁.length] at hlt
        exact hi (Nat.lt_of_succ_lt_succ hlt)
  · rw [hm, hm₁, List.map_append, List.map_append, List.append_cancel_right htext₁]
    rfl

/-! ### All of it is possible -/

/-- What the threads do while they write, -/
def speaking (workers : List (String × Nat)) : Nat → Code
  | 0 => print "BOSS: PREPARE YOUR WORK.\n " ++ print "\n" ++
      (List.range workers.length).flatMap (fun i => wait (.prepared i)) ++
      print "\nBOSS: START YOUR WORK. \n" ++ print "\n"
  | i + 1 => print (workers.getD i default).1 ++ print ": " ++ print "Work prepared after " ++
      print (toString (workers.getD i default).2) ++ print " milliseconds." ++ print "\n"

/-- The crew that has written everything; its workers wait for the permission to start. -/
def leaving (workers : List (String × Nat)) : Crew where
  size := workers.length
  start := []
  main := countDown .startWork
  worker _ := wait .startWork
  declared _ := 0

/-- and what is left for them then. -/
def rest (workers : List (String × Nat)) : Nat → Code
  | 0 => countDown .startWork ++ (leaving workers).joinThreads
  | i + 1 => ((leaving workers).thread i).drop 1

theorem mainThread_split : (bossWorker workers).mainThread =
    (print "\n" ++ (bossWorker workers).createThreads) ++
      (speaking workers 0 ++ rest workers 0) := by
  rw [mainThread_eq]
  simp only [afterStart, bossWorker, speaking, rest, leaving, List.append_assoc]
  rfl

theorem thread_drop (i : Nat) : ((bossWorker workers).thread i).drop 2 =
    speaking workers (i + 1) ++ rest workers (i + 1) := by
  simp only [Crew.thread, bossWorker, speaking, List.append_assoc]
  rfl

theorem thread_split (i : Nat) : ((bossWorker workers).thread i).drop 0 =
    (wait (.spawned i) ++ countDown (.prepared i)) ++ ((bossWorker workers).thread i).drop 2 := by
  rw [thread_drop]
  simp only [Crew.thread, bossWorker, speaking, List.append_assoc]
  rfl

theorem leaving_split (i : Nat) : ((leaving workers).thread i).drop 1 =
    (wait .startWork ++ countDown (.joined i)) ++ ((leaving workers).thread i).drop 3 := rfl

theorem sync_rest (i : Nat) : sync (rest workers (i + 1)) =
    [.wait .startWork, .countDown (.joined i)] := rfl

theorem sync_rest_zero : sync (rest workers 0) =
    .countDown .startWork :: sync (leaving workers).joinThreads := rfl

theorem oneAtATime_print (s : String) : OneAtATime (print s) := by
  intro st hst
  obtain ⟨c, -, rfl⟩ := List.mem_map.mp hst
  exact ⟨_, rfl, Nat.le_refl 1⟩

theorem oneAtATime_append {p q : Code} (hp : OneAtATime p) (hq : OneAtATime q) :
    OneAtATime (p ++ q) := by
  intro st hst
  exact (List.mem_append.mp hst).elim (hp st) (hq st)

theorem oneAtATime_speaking (t : Nat) : OneAtATime (speaking workers t) := by
  have hwaits : OneAtATime
      ((List.range workers.length).flatMap fun i => wait (.prepared i)) := by
    intro st hst
    obtain ⟨i, -, hst⟩ := List.mem_flatMap.mp hst
    exact ⟨_, List.mem_singleton.mp hst, Nat.zero_le 1⟩
  cases t with
  | zero =>
    exact oneAtATime_append (oneAtATime_append (oneAtATime_append (oneAtATime_append
      (oneAtATime_print _) (oneAtATime_print _)) hwaits) (oneAtATime_print _)) (oneAtATime_print _)
  | succ i =>
    exact oneAtATime_append (oneAtATime_append (oneAtATime_append (oneAtATime_append
      (oneAtATime_append (oneAtATime_print _) (oneAtATime_print _)) (oneAtATime_print _))
      (oneAtATime_print _)) (oneAtATime_print _)) (oneAtATime_print _)

theorem text_speaking (i : Nat) :
    text (speaking workers (i + 1)) = report (workers.getD i default) := by
  simp only [speaking, report, text_append, text_print, String.toList_append]

theorem text_speaking_zero : text (speaking workers 0) = texts workers 0 := by
  have hwaits : text ((List.range workers.length).flatMap fun i => wait (.prepared i)) = [] :=
    text_flatMap _ _ fun _ => rfl
  simp only [speaking, text_append, text_print, hwaits]
  rfl

theorem sync_speaking (i : Nat) : sync (speaking workers (i + 1)) = [] := by
  simp [speaking]

theorem mem_sync_speaking {o : Op Latch Char} (h : o ∈ sync (speaking workers 0)) :
    ∃ i < workers.length, o = .wait (.prepared i) := by
  simp only [speaking, sync_append, sync_print, sync_flatMap, sync_wait, List.nil_append,
    List.append_nil] at h
  obtain ⟨i, hi, h⟩ := List.mem_flatMap.mp h
  exact ⟨i, List.mem_range.mp hi, List.mem_singleton.mp h⟩

theorem countDown_not_mem {l : Latch} (hl : .countDown l ∉ sync (rest workers 0)) :
    .countDown l ∉ sync (speaking workers 0 ++ rest workers 0) := by
  rw [sync_append]
  intro hmem
  rcases List.mem_append.mp hmem with hmem | hmem
  · obtain ⟨j, -, heq⟩ := mem_sync_speaking hmem
    cases heq
  · exact hl hmem

/-- In front of their texts, with the work prepared, the threads can write in any order. -/
theorem Stage.speak (h : Stage (bossWorker workers) (speaking workers 0 ++ rest workers 0) 2 s)
    {m : List (Nat × Char)} (hm : ∀ t, own t m = texts workers t) :
    ∃ s', Runs s s' ∧ Stage (leaving workers) (rest workers 0) 1 s' ∧
      s'.data.out = s.data.out ++ m := by
  have hlength : s.threads.length = workers.length + 1 := h.length
  have hprepared : ∀ i, s.data.latches (.prepared i) = 0 := by
    intro i
    apply h.latches_eq_zero
    · exact countDown_not_mem (by simp [sync_rest_zero])
    · intro j _
      rw [thread_drop, sync_append, sync_speaking, sync_rest]
      simp
  have hat : ∀ t < s.threads.length,
      s.threads[t]? = some ⟨speaking workers t ++ rest workers t, none⟩ := by
    intro t ht
    cases t with
    | zero => exact h.boss
    | succ i =>
      have hi : i < workers.length := by omega
      rw [h.worker i hi, thread_drop]
  have hwait : ∀ t < s.threads.length, ∀ l, .wait l ∈ (speaking workers t).flatMap Stmt.ops →
      s.data.latches l = 0 := by
    intro t _ l hl
    have hsync : .wait l ∈ sync (speaking workers t) := (mem_sync_iff rfl).mpr hl
    cases t with
    | zero =>
      obtain ⟨i, -, heq⟩ := mem_sync_speaking hsync
      cases heq
      exact hprepared i
    | succ i =>
      rw [sync_speaking] at hsync
      cases hsync
  have hmem : ∀ q ∈ m, q.1 < s.threads.length := by
    intro q hq
    have hx : q.2 ∈ own q.1 m := mem_own.mpr hq
    rw [hm] at hx
    by_contra hge
    obtain ⟨i, hi⟩ := Nat.exists_eq_succ_of_ne_zero (n := q.1) (by omega)
    rw [hi, texts_succ, if_neg (by omega)] at hx
    cases hx
  have htext : ∀ t < s.threads.length, own t m = text (speaking workers t) := by
    intro t ht
    rw [hm]
    cases t with
    | zero => exact text_speaking_zero.symm
    | succ i =>
      rw [texts_succ, if_pos (by omega), text_speaking]
  obtain ⟨s', hruns, hfree, hout, hdone⟩ :=
    runs_interleaving h.counted h.free hat oneAtATime_speaking hwait hmem htext
  refine ⟨s', hruns, ⟨?_, hfree, ?_, hdone 0 (by omega), ?_⟩, hout⟩
  · exact Latches.counted h.counted (hruns.reachable .init)
  · exact (length_threads (hruns.reachable .init)).trans hlength
  · intro i hi
    have hi' : i < workers.length := hi
    exact hdone (i + 1) (by omega)

/-- The boss gives the permission, and all threads come to their ends. -/
theorem Stage.leave (h : Stage (leaving workers) (rest workers 0) 1 s) :
    ∃ s', Runs s s' ∧ s'.data.out.map Prod.snd = s.data.out.map Prod.snd ∧
      ∀ v ∈ s'.threads, v.finished = true := by
  obtain ⟨s₁, hruns₁, h₁, hout₁⟩ := h.runs_boss (by simp)
  obtain ⟨s₂, hruns₂, h₂, hout₂⟩ := h₁.runs_workers (fun _ => []) (List.Perm.refl _) leaving_split
    (fun _ => rfl) (by
      intro i hi l hl
      obtain rfl : l = .startWork := by simpa using hl
      apply h₁.latches_eq_zero
      · simp
      · intro j _
        show _ ∉ sync (rest workers (j + 1))
        simp [sync_rest])
  obtain ⟨s', hruns, hout, hfin⟩ := h₂.join fun _ => rfl
  refine ⟨s', hruns₁.trans (hruns₂.trans hruns), ?_, hfin⟩
  have hnil : (List.range (leaving workers).size).flatMap (fun _ => ([] : List Char)) = [] :=
    List.flatMap_eq_nil_iff.mpr fun _ _ => rfl
  rw [hout, hout₂, hout₁, hnil, List.append_nil, text_countDown, List.append_nil]

theorem prints_of_allowed {text : List Char} (h : Allowed workers text) :
    (bossWorker workers).Prints text := by
  obtain ⟨m, hm, rfl⟩ := h
  have h₀ := (bossWorker_sound workers).stage
  rw [mainThread_split] at h₀
  obtain ⟨s₁, hruns₁, h₁, hout₁⟩ := h₀.runs_boss (by simp)
  obtain ⟨s₂, hruns₂, h₂, hout₂⟩ := h₁.runs_workers (fun _ => []) (List.Perm.refl _) thread_split
    (fun _ => rfl) (by
      intro i hi l hl
      obtain rfl : l = .spawned i := by simpa using hl
      apply h₁.latches_eq_zero
      · exact countDown_not_mem (by simp [sync_rest_zero])
      · intro j _
        rw [thread_split, thread_drop, sync_append, sync_append, sync_append, sync_speaking,
          sync_rest]
        simp)
  obtain ⟨s₃, hruns₃, h₃, hout₃⟩ := Stage.speak h₂ hm
  obtain ⟨s', hruns, hout, hfin⟩ := Stage.leave h₃
  refine ⟨s', ?_, hfin, ?_⟩
  · exact (hruns₁.trans (hruns₂.trans (hruns₃.trans hruns))).reachable .init
  · have hnil : (List.range (bossWorker workers).size).flatMap (fun _ => ([] : List Char)) = [] :=
      List.flatMap_eq_nil_iff.mpr fun _ _ => rfl
    rw [hout, hout₃, List.map_append, hout₂, hout₁, hnil, List.append_nil, text_append,
      text_createThreads, text_print, List.append_nil]
    rfl

/-- **The output of `bossWorker`.**  Behind its line break the program prints any interleaving of
the texts of its threads, and nothing else: the permission to start can be printed in front of
the reports that it waits for. -/
theorem boss_worker_prints (workers : List (String × Nat)) (text : List Char) :
    (bossWorker workers).Prints text ↔ Allowed workers text :=
  ⟨allowed_of_prints, prints_of_allowed⟩

end Cpp20Examples.Workers.BossWorker
