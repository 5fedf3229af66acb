import Cpp20Examples.Concurrency.Workers.Runs

/-!
# The workers wait for each other

`workers.cpp`, with a mutex around the output or with `std::osyncstream`: what it prints.  The
boss only creates the threads and joins them.

* `exists_stages`: when the latch gets to zero, all workers are in front of waiting for it.
* `workers_print`: a complete run prints the two lines of all workers, each in some order.
-/

namespace Cpp20Examples.Workers.ArriveAndWait

open Lib Lib.Latches

/-- What `synchronizedOut` and `std::osyncstream` have in common. -/
structure AtOnce (out : String → Code) : Prop where
  stmt : ∀ s, ∃ a, out s = [a]
  sync : ∀ s, sync (out s) = []
  text : ∀ s, text (out s) = s.toList
  scopes : ∀ s : String, s.toList ≠ [] → (out s).flatMap Stmt.scopes = [s.toList]
  whole : (∀ s o, .op o ∈ out s → o.text = []) ∨ ∀ s body, .locked body ∉ out s

theorem synchronizedOut_atOnce : AtOnce synchronizedOut where
  stmt _ := ⟨_, rfl⟩
  sync := sync_synchronizedOut
  text := text_synchronizedOut
  scopes s _ := scopes_synchronizedOut s
  whole := .inl fun _ _ h => absurd (List.mem_singleton.mp h) nofun

theorem osyncstream_atOnce : AtOnce osyncstream where
  stmt _ := ⟨_, rfl⟩
  sync := sync_osyncstream
  text := text_osyncstream
  scopes s hs := by
    rw [osyncstream, List.flatMap_singleton]
    exact Stmt.scopes_of_ne (o := .put s.toList) hs
  whole := .inr fun _ _ h => absurd (List.mem_singleton.mp h) nofun

variable {out : String → Code} {names : List String}
  {s s' : Threads.State (Shared Latch Char) (Thread Latch Char)}

/-- The boss behind his line break. -/
def afterStart (out : String → Code) (names : List String) : Code :=
  (workersWith out names).createThreads ++ (workersWith out names).joinThreads

theorem mainThread_eq :
    (workersWith out names).mainThread = print "\n" ++ afterStart out names := by
  simp only [Crew.mainThread, afterStart, workersWith, List.append_nil, List.append_assoc]

theorem thread_eq (h : AtOnce out) (names : List String) (i : Nat) : ∃ a b,
    out (names.getD i "" ++ ": " ++ "Work done!\n") = [a] ∧
      out (names.getD i "" ++ ": " ++ "See you tomorrow!\n") = [b] ∧
      (workersWith out names).thread i = [.op (.wait (.spawned i)), a, .op (.countDown .workDone),
        .op (.wait .workDone), b, .op (.countDown (.joined i))] := by
  obtain ⟨a, ha⟩ := h.stmt (names.getD i "" ++ ": " ++ "Work done!\n")
  obtain ⟨b, hb⟩ := h.stmt (names.getD i "" ++ ": " ++ "See you tomorrow!\n")
  refine ⟨a, b, ha, hb, ?_⟩
  simp only [Crew.thread, workersWith, ha, hb]
  rfl

theorem drop_six (h : AtOnce out) (i : Nat) : ((workersWith out names).thread i).drop 6 = [] := by
  obtain ⟨a, b, -, -, heq⟩ := thread_eq h names i
  rw [heq]
  rfl

/-- The two halves of a worker's function. -/
theorem drop_zero (h : AtOnce out) (i : Nat) : ((workersWith out names).thread i).drop 0 =
    (wait (.spawned i) ++ out (names.getD i "" ++ ": " ++ "Work done!\n") ++ countDown .workDone) ++
      ((workersWith out names).thread i).drop 3 := by
  obtain ⟨a, b, ha, -, heq⟩ := thread_eq h names i
  rw [heq, ha]
  rfl

theorem drop_three (h : AtOnce out) (i : Nat) : ((workersWith out names).thread i).drop 3 =
    (wait .workDone ++ out (names.getD i "" ++ ": " ++ "See you tomorrow!\n") ++
      countDown (.joined i)) ++ ((workersWith out names).thread i).drop 6 := by
  obtain ⟨a, b, -, hb, heq⟩ := thread_eq h names i
  rw [heq, hb]
  rfl

theorem whole (h : AtOnce out) : (workersWith out names).Whole := by
  refine h.whole.imp (fun hall i o ho => ?_) fun hall i body hbody => ?_
  · simp only [Crew.thread, workersWith, List.mem_append] at ho
    rcases ho with (ho | ((ho | ho) | ho) | ho) | ho
    · cases List.mem_singleton.mp ho
      rfl
    · exact hall _ o ho
    · cases List.mem_singleton.mp ho
      rfl
    · cases List.mem_singleton.mp ho
      rfl
    · exact hall _ o ho
    · cases List.mem_singleton.mp ho
      rfl
  · simp only [Crew.thread, workersWith, List.mem_append] at hbody
    rcases hbody with (hbody | ((hbody | hbody) | hbody) | hbody) | hbody
    · cases List.mem_singleton.mp hbody
    · exact hall _ body hbody
    · cases List.mem_singleton.mp hbody
    · cases List.mem_singleton.mp hbody
    · exact hall _ body hbody
    · cases List.mem_singleton.mp hbody

theorem text_drop_afterStart (j : Nat) : text ((afterStart out names).drop j) = [] := by
  have htext : text (afterStart out names) = [] := by
    simp [afterStart]
  rw [← List.take_append_drop j (afterStart out names), text_append] at htext
  exact (List.append_eq_nil_iff.mp htext).2

theorem not_locked_afterStart (body : List (Op Latch Char)) :
    .locked body ∉ afterStart out names := by
  simp [afterStart, Crew.createThreads, Crew.joinThreads, countDown, wait]

theorem Stage.release (h : AtOnce out)
    (h₁ : Stage (workersWith out names) (afterStart out names) 0 s)
    (hs : (onwards s).Reachable s') (hzero : s'.data.latches .workDone = 0) :
    ∃ s₂ j, (onwards s).Reachable s₂ ∧
      Stage (workersWith out names) ((afterStart out names).drop j) 3 s₂ ∧
      (onwards s₂).Reachable s' := by
  by_cases hne : s.data.latches .workDone = 0
  · refine ⟨s, 0, .init, ⟨h₁.counted, h₁.free, h₁.length, h₁.boss, ?_⟩, hs⟩
    intro i hi
    exfalso
    apply h₁.counted.not_mem hne (h₁.worker i hi)
    rw [Thread.ops, drop_zero h]
    simp [countDown, Stmt.ops]
  · obtain ⟨s₂, hs₂, hzero₂, hwaits, hs⟩ := exists_release hs hne hzero
    have hlen : s₂.threads.length = names.length + 1 := (length_threads hs₂).trans h₁.length
    have hcounted := Latches.counted h₁.counted hs₂
    have hboss : ∃ j, s₂.threads[0]? = some ⟨(afterStart out names).drop j, none⟩ := by
      have hget := List.getElem?_eq_getElem (l := s₂.threads) (i := 0) (by omega)
      generalize s₂.threads[0] = v at hget
      cases Latches.at_ hs₂ h₁.boss hget with
      | outside j => exact ⟨j, hget⟩
      | inside hj n =>
        have hmem := List.mem_of_mem_drop (hj ▸ List.mem_cons_self ..)
        exact absurd hmem (not_locked_afterStart _)
    obtain ⟨j, hboss⟩ := hboss
    refine ⟨s₂, j, hs₂, h₁.reach hs₂ hboss ?_, hs⟩
    intro i hi
    have hi' : i < names.length := hi
    have hget := List.getElem?_eq_getElem (l := s₂.threads) (i := i + 1) (by omega)
    obtain ⟨a, b, -, hb, heq⟩ := thread_eq h names i
    rw [hget, at_wait heq ?_ (h₁.at_ hs₂ hi hget) (hcounted.not_mem hzero₂ hget) ?_]
    · intro hmem
      have hsync := h.sync (names.getD i "" ++ ": " ++ "See you tomorrow!\n")
      rw [hb] at hsync
      have hin : .wait .workDone ∈ sync [b] :=
        (mem_sync_iff rfl).mpr (List.mem_flatMap.mpr ⟨b, List.mem_singleton_self b, hmem⟩)
      rw [hsync] at hin
      cases hin
    · apply hwaits _ _ _ hget (h₁.worker i hi)
      rw [Thread.ops, drop_zero h, drop_three h]
      simp [wait, Stmt.ops]

/-- The creation of the threads, the moment when all work is done, and the end. -/
theorem exists_stages (h : AtOnce out) (hs : (workersWith out names).system.Reachable s)
    (hend : ∀ v ∈ s.threads, v.finished = true) :
    ∃ s₁ s₂ j, (onwards (workersWith out names).system.init).Reachable s₁ ∧
      Stage (workersWith out names) (afterStart out names) 0 s₁ ∧ (onwards s₁).Reachable s₂ ∧
      Stage (workersWith out names) ((afterStart out names).drop j) 3 s₂ ∧
      (onwards s₂).Reachable s ∧ Stage (workersWith out names) [] 6 s := by
  have h₀ := (workersWith_sound h.sync names).stage
  have h₃ := h₀.ended hs hend (drop_six h)
  rw [mainThread_eq] at h₀
  obtain ⟨s₁, hs₁, hboss₁, hs⟩ := h₀.exists_at hs h₃.boss
  have h₁ : Stage (workersWith out names) (afterStart out names) 0 s₁ := by
    refine h₀.create hs₁ hboss₁ ?_ ?_
    · intro i hi
      rw [← mem_sync_iff rfl, afterStart, sync_append, sync_createThreads]
      exact List.mem_append_left _ (List.mem_map_of_mem (List.mem_range.mpr hi))
    · intro i
      simp [workersWith, h.sync]
  obtain ⟨s₂, j, hs₂, h₂, hs⟩ := Stage.release h h₁ hs (h₃.latches_eq_zero List.not_mem_nil (by
    intro i _
    rw [drop_six h]
    exact List.not_mem_nil))
  exact ⟨s₁, s₂, j, hs₁, h₁, hs₂, h₂, hs, h₃⟩

theorem scopes_out (h : AtOnce out) (what : String) (i : Nat) :
    (out (names.getD i "" ++ ": " ++ what)).flatMap Stmt.scopes = [line names what i] :=
  h.scopes _ line_ne_nil

theorem scopes_zero (h : AtOnce out) (i : Nat) : [line names "Work done!\n" i] ++
    (((workersWith out names).thread i).drop 3).flatMap Stmt.scopes =
      (((workersWith out names).thread i).drop 0).flatMap Stmt.scopes := by
  rw [drop_zero h, List.flatMap_append, List.flatMap_append, List.flatMap_append, scopes_out h]
  rfl

theorem scopes_three (h : AtOnce out) (i : Nat) : [line names "See you tomorrow!\n" i] ++
    (((workersWith out names).thread i).drop 6).flatMap Stmt.scopes =
      (((workersWith out names).thread i).drop 3).flatMap Stmt.scopes := by
  rw [drop_three h, List.flatMap_append, List.flatMap_append, List.flatMap_append, scopes_out h]
  rfl

/-- What a complete run prints, for the workers in some orders. -/
def Allowed (names : List String) (text : List Char) : Prop :=
  ∃ works byes : List Nat, works.Perm (List.range names.length) ∧
    byes.Perm (List.range names.length) ∧
    text = "\n".toList ++ works.flatMap (line names "Work done!\n") ++
      byes.flatMap (line names "See you tomorrow!\n")

theorem allowed_of_prints (h : AtOnce out) {text : List Char}
    (hprints : (workersWith out names).Prints text) : Allowed names text := by
  obtain ⟨s, hs, hend, rfl⟩ := hprints
  obtain ⟨s₁, s₂, j, hs₁, h₁, hs₂, h₂, hs, h₃⟩ := exists_stages h hs hend
  obtain ⟨m₁, hm₁, htext₁⟩ := (workersWith_sound h.sync names).stage.alone h₁ (whole h) hs₁
  obtain ⟨m₂, xs, works, hm₂, hworks, htext₂, hinter₂⟩ := h₁.exists_order h₂ (whole h) hs₂
    (line names "Work done!\n") fun i _ => scopes_zero h i
  obtain ⟨m₃, ys, byes, hm₃, hbyes, htext₃, hinter₃⟩ := h₂.exists_order h₃ (whole h) hs
    (line names "See you tomorrow!\n") fun i _ => scopes_three h i
  have hafter : Workers.text (afterStart out names) = [] := text_drop_afterStart 0
  rw [mainThread_eq, text_append, text_print] at htext₁
  rw [text_drop_afterStart, hafter, List.append_nil] at htext₂
  rw [text_drop_afterStart, text_nil, List.append_nil] at htext₃
  subst htext₂ htext₃
  refine ⟨works, byes, hworks, hbyes, ?_⟩
  rw [hm₃, hm₂, hm₁, List.map_append, List.map_append, List.map_append,
    List.append_cancel_right htext₁, hinter₂.eq_of_nil_left, hinter₃.eq_of_nil_left]
  rfl

theorem prints_of_allowed (h : AtOnce out) {text : List Char} (hallowed : Allowed names text) :
    (workersWith out names).Prints text := by
  obtain ⟨works, byes, hworks, hbyes, rfl⟩ := hallowed
  have h₀ := (workersWith_sound h.sync names).stage
  -- the boss creates the threads
  have heq : (workersWith out names).mainThread = (print "\n" ++
      (workersWith out names).createThreads) ++ (workersWith out names).joinThreads := by
    rw [mainThread_eq, afterStart, List.append_assoc]
  rw [heq] at h₀
  obtain ⟨s₁, hruns₁, h₁, hout₁⟩ := h₀.runs_boss (by simp)
  -- the work
  obtain ⟨s₂, hruns₂, h₂, hout₂⟩ := h₁.runs_workers (line names "Work done!\n") hworks
    (drop_zero h) (fun i => by simp [h.text, line]) (by
      intro i hi l hl
      obtain rfl : l = .spawned i := by simpa [h.sync] using hl
      apply h₁.latches_eq_zero
      · simp
      · intro j _
        rw [drop_zero h, drop_three h, drop_six h]
        simp [h.sync])
  -- the goodbyes
  obtain ⟨s₃, hruns₃, h₃, hout₃⟩ := h₂.runs_workers (line names "See you tomorrow!\n") hbyes
    (drop_three h) (fun i => by simp [h.text, line]) (by
      intro i hi l hl
      obtain rfl : l = .workDone := by simpa [h.sync] using hl
      apply h₂.latches_eq_zero
      · simp
      · intro j _
        rw [drop_three h, drop_six h]
        simp [h.sync])
  obtain ⟨s', hruns, hout, hfin⟩ := h₃.join (drop_six h)
  refine ⟨s', ?_, hfin, ?_⟩
  · exact (hruns₁.trans (hruns₂.trans (hruns₃.trans hruns))).reachable .init
  · have hstart : Workers.text (print "\n" ++ (workersWith out names).createThreads) =
        "\n".toList := by
      simp
    rw [hout, hout₃, hout₂, hout₁, hstart]
    rfl

/-- **The output of `workers`.**  Both programs print exactly these texts: the lines are whole,
and all work is done in front of the first who says goodbye. -/
theorem workers_print (names : List String) (text : List Char) :
    ((workers names).Prints text ↔ Allowed names text) ∧
      ((workersOsyncstream names).Prints text ↔ Allowed names text) :=
  ⟨⟨allowed_of_prints synchronizedOut_atOnce, prints_of_allowed synchronizedOut_atOnce⟩,
    allowed_of_prints osyncstream_atOnce, prints_of_allowed osyncstream_atOnce⟩

end Cpp20Examples.Workers.ArriveAndWait
