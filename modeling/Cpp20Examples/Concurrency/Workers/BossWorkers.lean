import Cpp20Examples.Concurrency.Workers.Runs

/-!
# The boss sends the workers home

`bossWorkers`: what the program prints.  The boss writes without the mutex of the workers, and
gives the permission to go home before he says so.

* `Going`: the goodbyes, with what the boss has still to write of his last line.
* `boss_workers_prints`: a complete run prints the lines of the workers in two orders, with the
  boss's line break in between, and his last line anywhere among the goodbyes.
-/

namespace Cpp20Examples.Workers

open Lib Lib.Latches

namespace BossWorkers

variable {names : List String} {k : Nat}
  {s s' : Threads.State (Shared Latch Char) (Thread Latch Char)}

/-- The boss behind the creation of the threads, behind the end of the work, and behind his
line break. -/
def afterStart (names : List String) : Code :=
  (bossWorkers names).createThreads ++ (bossWorkers names).main ++ (bossWorkers names).joinThreads

def afterWork (names : List String) : Code :=
  print "\n" ++ countDown .goHome ++ print "BOSS: GO HOME!" ++ print "\n" ++
    (bossWorkers names).joinThreads

def afterBreak (names : List String) : Code :=
  countDown .goHome ++ print "BOSS: GO HOME!" ++ print "\n" ++ (bossWorkers names).joinThreads

theorem mainThread_eq : (bossWorkers names).mainThread =
    (bossWorkers names).start ++ afterStart names := by
  simp only [Crew.mainThread, afterStart, List.append_assoc]

theorem afterStart_eq : afterStart names =
    ((bossWorkers names).createThreads ++ wait .workDone) ++ afterWork names := by
  simp only [afterStart, afterWork, bossWorkers, List.append_assoc]

theorem afterWork_eq : afterWork names = print "\n" ++ afterBreak names := by
  simp only [afterWork, afterBreak, List.append_assoc]

theorem whole : (bossWorkers names).Whole := by
  refine .inl fun i o ho => ?_
  simp only [Crew.thread, bossWorkers, synchronizedOut, wait, countDown, List.cons_append,
    List.nil_append, List.mem_cons, Stmt.op.injEq, reduceCtorEq, List.not_mem_nil, or_false,
    false_or] at ho
  rcases ho with rfl | rfl | rfl | rfl <;> rfl

theorem thread_eq (i : Nat) : (bossWorkers names).thread i =
    [.op (.wait (.spawned i)),
      .locked ((names.getD i "" ++ ": " ++ "Work done!\n").toList.map fun c => .put [c]),
      .op (.countDown .workDone), .op (.wait .goHome),
      .locked ((names.getD i "" ++ ": " ++ "Good bye!\n").toList.map fun c => .put [c]),
      .op (.countDown (.joined i))] := rfl

theorem drop_six (i : Nat) : ((bossWorkers names).thread i).drop 6 = [] := by
  rw [thread_eq]
  rfl

theorem wait_not_mem_puts (l : Latch) (cs : List Char) :
    .wait l ∉ (Stmt.locked (cs.map fun c => .put [c]) : Stmt Latch Char).ops := by
  intro h
  obtain ⟨c, -, heq⟩ := List.mem_map.mp h
  cases heq

/-- **The work is done.**  While the boss does not give the permission to go home, all workers
wait for it. -/
theorem stage_atHome {q q' : Code} (h : Stage (bossWorkers names) q k s)
    (hk : ∀ i, .wait .goHome ∈ (((bossWorkers names).thread i).drop k).flatMap Stmt.ops)
    (hs : (onwards s).Reachable s') (hboss : s'.threads[0]? = some ⟨q', none⟩)
    (hdone : s'.data.latches .workDone = 0)
    (hhome : .countDown .goHome ∈ q'.flatMap Stmt.ops) : Stage (bossWorkers names) q' 3 s' := by
  refine h.reach hs hboss ?_
  have hcounted := Latches.counted h.counted hs
  have hnot : s'.data.latches .goHome ≠ 0 := by
    intro hzero
    exact hcounted.not_mem hzero hboss hhome
  intro i hi
  have hlt : i + 1 < s'.threads.length := by
    rw [length_threads hs, h.length]
    omega
  have hget := List.getElem?_eq_getElem hlt
  rcases released hs hget (h.worker i hi) (hk i) with hwait | hzero
  · rw [hget, at_wait (thread_eq i) (wait_not_mem_puts _ _) (h.at_ hs hi hget)
      (hcounted.not_mem hdone hget) hwait]
  · exact absurd hzero hnot

theorem waits_start : .wait .workDone ∈ sync (afterStart names) := by
  simp [afterStart, bossWorkers]

theorem waits_work : .wait .workDone ∉ sync (afterWork names) := by
  simp [afterWork]

theorem counts_work : .countDown .goHome ∈ sync (afterWork names) := by
  simp [afterWork]

theorem counts_break : .countDown .goHome ∈ sync (afterBreak names) := by
  simp [afterBreak]

/-- The three points of the boss on the way to the end. -/
theorem exists_stages (hs : (bossWorkers names).system.Reachable s)
    (hend : ∀ v ∈ s.threads, v.finished = true) :
    ∃ s₁ s₂ s₃, (onwards (bossWorkers names).system.init).Reachable s₁ ∧
      Stage (bossWorkers names) (afterStart names) 0 s₁ ∧ (onwards s₁).Reachable s₂ ∧
      Stage (bossWorkers names) (afterWork names) 3 s₂ ∧ (onwards s₂).Reachable s₃ ∧
      Stage (bossWorkers names) (afterBreak names) 3 s₃ ∧ (onwards s₃).Reachable s ∧
      Stage (bossWorkers names) [] 6 s := by
  have h₀ := (bossWorkers_sound names).stage
  have h₄ := h₀.ended hs hend drop_six
  -- the creation of the threads
  rw [mainThread_eq] at h₀
  obtain ⟨s₁, hs₁, hboss₁, hs⟩ := h₀.exists_at hs h₄.boss
  have hstage₁ : Stage (bossWorkers names) (afterStart names) 0 s₁ := by
    refine h₀.create hs₁ hboss₁ ?_ ?_
    · intro i hi
      rw [← mem_sync_iff rfl, afterStart, sync_append, sync_append, sync_createThreads]
      exact List.mem_append_left _ (List.mem_append_left _
        (List.mem_map_of_mem (List.mem_range.mpr hi)))
    · intro i
      simp [bossWorkers]
  -- the end of the work
  have h₁ := hstage₁
  rw [afterStart_eq] at h₁
  obtain ⟨s₂, hs₂, hboss₂, hs⟩ := h₁.exists_at hs h₄.boss
  have hdone : s₂.data.latches .workDone = 0 := by
    rcases released hs₂ hboss₂ hboss₁ ((mem_sync_iff rfl).mp waits_start) with hwait | hzero
    · exact absurd ((mem_sync_iff rfl).mpr hwait) waits_work
    · exact hzero
  have hstage₂ : Stage (bossWorkers names) (afterWork names) 3 s₂ := by
    refine stage_atHome hstage₁ ?_ hs₂ hboss₂ hdone ((mem_sync_iff rfl).mp counts_work)
    intro i
    refine List.mem_flatMap.mpr ⟨.op (.wait .goHome), ?_, List.mem_singleton_self _⟩
    rw [thread_eq, List.drop_zero]
    simp
  have h₂ := hstage₂
  rw [afterWork_eq] at h₂
  obtain ⟨s₃, hs₃, hboss₃, hs⟩ := h₂.exists_at hs h₄.boss
  have hstage₃ : Stage (bossWorkers names) (afterBreak names) 3 s₃ :=
    stage_atHome hstage₂ (fun i => List.mem_cons_self ..) hs₃ hboss₃ (latches_zero hs₃ hdone)
      ((mem_sync_iff rfl).mp counts_break)
  exact ⟨s₁, s₂, s₃, hs₁, hstage₁, hs₂, hstage₂, hs₃, hstage₃, hs, h₄⟩

theorem scopes_zero (i : Nat) : (((bossWorkers names).thread i).drop 0).flatMap Stmt.scopes =
    [line names "Work done!\n" i, line names "Good bye!\n" i] := by
  rw [thread_eq]
  show [List.flatMap _ _, List.flatMap _ _] = _
  rw [flatMap_text_put, flatMap_text_put]
  rfl

theorem scopes_three (i : Nat) : (((bossWorkers names).thread i).drop 3).flatMap Stmt.scopes =
    [line names "Good bye!\n" i] := by
  rw [thread_eq]
  show [List.flatMap _ _] = _
  rw [flatMap_text_put]
  rfl

theorem scopes_six (i : Nat) :
    (((bossWorkers names).thread i).drop 6).flatMap Stmt.scopes = [] := by
  rw [thread_eq]
  rfl

theorem text_mainThread : text (bossWorkers names).mainThread =
    "\nBOSS: START WORKING! \n".toList ++ text (afterStart names) := by
  have hstart : text (bossWorkers names).start = "\nBOSS: START WORKING! \n".toList := by
    simp [bossWorkers]
  rw [mainThread_eq, text_append, hstart]

theorem text_afterStart : text (afterStart names) = text (afterWork names) := by
  rw [afterStart_eq, text_append]
  simp

theorem text_afterWork : text (afterWork names) = "\n".toList ++ text (afterBreak names) := by
  rw [afterWork_eq, text_append, text_print]

theorem text_afterBreak : text (afterBreak names) = "BOSS: GO HOME!\n".toList := by
  simp [afterBreak]

/-- What a complete run prints, for the workers in some orders. -/
def Allowed (names : List String) (text : List Char) : Prop :=
  ∃ works byes : List Nat, ∃ m, works.Perm (List.range names.length) ∧
    byes.Perm (List.range names.length) ∧
    Interleaving "BOSS: GO HOME!\n".toList (byes.flatMap (line names "Good bye!\n")) m ∧
    text = "\nBOSS: START WORKING! \n".toList ++ works.flatMap (line names "Work done!\n") ++
      "\n".toList ++ m

theorem allowed_of_prints {text : List Char} (h : (bossWorkers names).Prints text) :
    Allowed names text := by
  obtain ⟨s, hs, hend, rfl⟩ := h
  obtain ⟨s₁, s₂, s₃, hs₁, h₁, hs₂, h₂, hs₃, h₃, hs, h₄⟩ := exists_stages hs hend
  obtain ⟨m₁, hm₁, htext₁⟩ := (bossWorkers_sound names).stage.alone h₁ whole hs₁
  obtain ⟨m₂, xs, works, hm₂, hworks, htext₂, hinter₂⟩ := h₁.exists_order h₂ whole hs₂
    (line names "Work done!\n") fun i _ => by rw [scopes_zero, scopes_three]; rfl
  obtain ⟨m₃, hm₃, htext₃⟩ := h₂.alone h₃ whole hs₃
  obtain ⟨m₄, ys, byes, hm₄, hbyes, htext₄, hinter₄⟩ := h₃.exists_order h₄ whole hs
    (line names "Good bye!\n") fun i _ => by rw [scopes_three, scopes_six]; rfl
  refine ⟨works, byes, m₄.map Prod.snd, hworks, hbyes, ?_, ?_⟩
  · rw [text_nil, List.append_nil, text_afterBreak] at htext₄
    rw [← htext₄]
    exact hinter₄
  · rw [text_mainThread] at htext₁
    rw [text_afterStart] at htext₂
    rw [text_afterWork] at htext₃
    obtain rfl := List.append_left_eq_self.mp htext₂
    rw [hm₄, hm₃, hm₂, hm₁, List.map_append, List.map_append, List.map_append, List.map_append,
      List.append_cancel_right htext₁, List.append_cancel_right htext₃, hinter₂.eq_of_nil_left]
    rfl

/-! ### All of it is possible -/

/-- The goodbyes: the boss has `xs` left, the worker `inside` some of his line, and the workers
of `order` are to come. -/
structure Going (names : List String) (xs : List Char) (inside : Option (Nat × List Char))
    (order : List Nat) (s : Threads.State (Shared Latch Char) (Thread Latch Char)) : Prop where
  counted : Counted s
  home : s.data.latches .goHome = 0
  length : s.threads.length = names.length + 1
  boss : s.threads[0]? = some ⟨(xs.map fun c => .op (.put [c])) ++
    (bossWorkers names).joinThreads, none⟩
  nodup : order.Nodup
  waiting : ∀ i ∈ order, s.threads[i + 1]? = some ⟨((bossWorkers names).thread i).drop 3, none⟩
  mutex : s.data.mutex = inside.map fun p => p.1 + 1
  owner : ∀ i cs, inside = some (i, cs) → i ∉ order ∧
    s.threads[i + 1]? = some ⟨countDown (.joined i), some (cs.map fun c => .put [c])⟩
  others : ∀ i < names.length, i ∉ order → (∀ cs, inside ≠ some (i, cs)) →
    s.threads[i + 1]? = some ⟨[], none⟩

variable {xs cs : List Char} {x : Char} {i : Nat} {order : List Nat}
  {inside : Option (Nat × List Char)}

theorem Going.boss_writes (h : Going names (x :: xs) inside order s) :
    ∃ s', Left s 0 [x] ⟨(xs.map fun c => .op (.put [c])) ++ (bossWorkers names).joinThreads, none⟩
      s' ∧ Going names xs inside order s' := by
  refine ⟨_, ⟨.step h.boss rfl, rfl, rfl, fun l hl => hl⟩, ?_⟩
  have hrest : ∀ (i : Nat) (v : Thread Latch Char),
      (s.threads.set 0 v)[i + 1]? = s.threads[i + 1]? :=
    fun i _ => List.getElem?_set_ne (Nat.zero_ne_add_one i)
  refine ⟨?_, h.home, ?_, getElem?_set_of_some h.boss _, h.nodup, ?_, h.mutex, ?_, ?_⟩
  · exact Latches.counted h.counted ((Runs.step h.boss rfl).reachable .init)
  · exact List.length_set.trans h.length
  · intro i hi
    exact (hrest i _).trans (h.waiting i hi)
  · intro i cs hin
    exact ⟨(h.owner i cs hin).1, (hrest i _).trans (h.owner i cs hin).2⟩
  · intro i hi hnot hin
    exact (hrest i _).trans (h.others i hi hnot hin)

theorem Going.of_left {v : Thread Latch Char} (h : Going names xs inside order s)
    (hleft : Left s (i + 1) cs v s') {inside' : Option (Nat × List Char)} {order' : List Nat}
    (hsub : ∀ j, j ∈ order' → j ∈ order ∧ j ≠ i) (hnodup : order'.Nodup)
    (hmutex : s'.data.mutex = inside'.map fun p => p.1 + 1)
    (hinside : ∀ j ds, inside' = some (j, ds) → j = i ∧ i ∉ order' ∧
      v = ⟨countDown (.joined i), some (ds.map fun c => .put [c])⟩)
    (hothers : ∀ j < names.length, j ∉ order' → (∀ ds, inside' ≠ some (j, ds)) →
      (j = i ∧ v = ⟨[], none⟩) ∨ (j ≠ i ∧ j ∉ order ∧ ∀ ds, inside ≠ some (j, ds)))
    {w : Thread Latch Char} (hw : s.threads[i + 1]? = some w) :
    Going names xs inside' order' s' := by
  have hget := hleft.get hw
  have hrest : ∀ t : Nat, t ≠ i + 1 → s'.threads[t]? = s.threads[t]? := by
    intro t ht
    rw [hleft.threads, List.getElem?_set_ne (Ne.symm ht)]
  refine ⟨hleft.counted h.counted, hleft.zero _ h.home, ?_, ?_, hnodup, ?_, hmutex, ?_, ?_⟩
  · rw [hleft.threads, List.length_set, h.length]
  · rw [hrest 0 (Nat.zero_ne_add_one i)]
    exact h.boss
  · intro j hj
    obtain ⟨hmem, hne⟩ := hsub j hj
    rw [hrest (j + 1) (by omega)]
    exact h.waiting j hmem
  · intro j ds hin
    obtain ⟨rfl, hnot, rfl⟩ := hinside j ds hin
    exact ⟨hnot, hget⟩
  · intro j hj hnot hin
    rcases hothers j hj hnot hin with ⟨rfl, rfl⟩ | ⟨hne, hnot', hin'⟩
    · exact hget
    · rw [hrest (j + 1) (by omega)]
      exact h.others j hj hnot' hin'

theorem Going.worker_writes (h : Going names xs (some (i, x :: cs)) order s) :
    ∃ s' v, Left s (i + 1) [x] v s' ∧ Going names xs (some (i, cs)) order s' := by
  obtain ⟨hnot, hv⟩ := h.owner i _ rfl
  have hleft : Left s (i + 1) [x] ⟨countDown (.joined i), some (cs.map fun c => .put [c])⟩ _ :=
    ⟨.step hv rfl, rfl, rfl, fun l hl => hl⟩
  refine ⟨_, _, hleft, h.of_left hleft ?_ h.nodup h.mutex ?_ ?_ hv⟩
  · rintro j hj
    exact ⟨hj, fun heq => hnot (heq ▸ hj)⟩
  · intro j ds hin
    cases hin
    exact ⟨rfl, hnot, rfl⟩
  · intro j hj hnot' hin
    by_cases hij : j = i
    · subst hij
      exact absurd rfl (hin cs)
    · refine .inr ⟨hij, hnot', ?_⟩
      intro ds heq
      cases heq
      exact hij rfl

theorem Going.worker_leaves (h : Going names xs (some (i, [])) order s) :
    ∃ s' v, Left s (i + 1) [] v s' ∧ Going names xs none order s' := by
  obtain ⟨hnot, hv⟩ := h.owner i _ rfl
  obtain ⟨s₁, hunlock, hfree₁⟩ := runs_inside h.counted hv nofun
  obtain ⟨s', hcount, hfree⟩ := runs_code (p := countDown (.joined i))
    (hunlock.counted h.counted) (hunlock.get hv) hfree₁ (by
      intro l hl
      cases List.mem_singleton.mp hl)
  have hleft := hunlock.trans hcount
  refine ⟨s', _, hleft, h.of_left hleft ?_ h.nodup hfree nofun ?_ hv⟩
  · rintro j hj
    exact ⟨hj, fun heq => hnot (heq ▸ hj)⟩
  · intro j hj hnot' _
    by_cases hij : j = i
    · exact .inl ⟨hij, rfl⟩
    · refine .inr ⟨hij, hnot', ?_⟩
      intro ds heq
      cases heq
      exact hij rfl

theorem Going.worker_enters (h : Going names xs none (i :: order) s) :
    ∃ s' v, Left s (i + 1) [] v s' ∧
      Going names xs (some (i, line names "Good bye!\n" i)) order s' := by
  obtain ⟨hnot, hnodup⟩ := List.nodup_cons.mp h.nodup
  have hv := h.waiting i (List.mem_cons_self ..)
  obtain ⟨s₁, hwait, hfree₁⟩ := runs_code (p := wait .goHome)
    (q := ((bossWorkers names).thread i).drop 4) h.counted hv h.mutex (by
      intro l hl
      cases List.mem_singleton.mp hl
      exact h.home)
  have hv₁ := hwait.get hv
  have hnext : next (i + 1) s₁.data ⟨((bossWorkers names).thread i).drop 4, none⟩ =
      some ({ s₁.data with mutex := some (i + 1) }, ⟨countDown (.joined i),
        some ((line names "Good bye!\n" i).map fun c => .put [c])⟩) := if_pos hfree₁
  have hlock : Left s₁ (i + 1) [] _ _ :=
    ⟨.step hv₁ hnext, rfl, (List.append_nil _).symm, fun l hl => hl⟩
  have hleft := hwait.trans hlock
  refine ⟨_, _, hleft, h.of_left hleft ?_ hnodup rfl ?_ ?_ hv⟩
  · rintro j hj
    exact ⟨List.mem_cons_of_mem _ hj, fun heq => hnot (heq ▸ hj)⟩
  · intro j ds hin
    cases hin
    exact ⟨rfl, hnot, rfl⟩
  · intro j hj hnot' hin
    by_cases hij : j = i
    · subst hij
      exact absurd rfl (hin _)
    · refine .inr ⟨hij, ?_, nofun⟩
      intro hmem
      rcases List.mem_cons.mp hmem with heq | hmem
      · exact hij heq
      · exact hnot' hmem

theorem Going.ready {y : Char} {zs : List Char} (h : Going names xs inside order s)
    (hzs : y :: zs = (inside.elim [] fun p => p.2) ++ order.flatMap (line names "Good bye!\n")) :
    ∃ s' i cs order', Runs s s' ∧ s'.data.out = s.data.out ∧
      Going names xs (some (i, y :: cs)) order' s' ∧
      zs = cs ++ order'.flatMap (line names "Good bye!\n") := by
  have hopen : ∀ s, Going names xs none order s →
      y :: zs = order.flatMap (line names "Good bye!\n") →
      ∃ s' i cs order', Runs s s' ∧ s'.data.out = s.data.out ∧
        Going names xs (some (i, y :: cs)) order' s' ∧
        zs = cs ++ order'.flatMap (line names "Good bye!\n") := by
    intro s h hzs
    cases order with
    | nil => cases hzs
    | cons i order =>
      obtain ⟨s', v, hleft, h'⟩ := h.worker_enters
      rw [List.flatMap_cons] at hzs
      generalize hline : line names "Good bye!\n" i = ds at hzs h'
      cases ds with
      | nil => exact absurd hline line_ne_nil
      | cons d ds =>
        obtain ⟨rfl, rfl⟩ := List.cons.inj hzs
        exact ⟨s', i, ds, order, hleft.runs, hleft.out.trans (List.append_nil _), h', rfl⟩
  cases inside with
  | none => exact hopen s h hzs
  | some p =>
    obtain ⟨i, cs⟩ := p
    cases cs with
    | nil =>
      obtain ⟨s₁, v, hleft, h₁⟩ := h.worker_leaves
      obtain ⟨s', j, cs, order', hruns, hout, h', heq⟩ := hopen s₁ h₁ hzs
      refine ⟨s', j, cs, order', hleft.runs.trans hruns, hout.trans ?_, h', heq⟩
      exact hleft.out.trans (List.append_nil _)
    | cons c cs =>
      obtain ⟨rfl, rfl⟩ := List.cons.inj hzs
      exact ⟨s, i, cs, order, .refl s, rfl, h, rfl⟩

theorem Going.finish (h : Going names [] inside order s)
    (hnil : [] = (inside.elim [] fun p => p.2) ++ order.flatMap (line names "Good bye!\n")) :
    ∃ s', Runs s s' ∧ s'.data.out.map Prod.snd = s.data.out.map Prod.snd ∧
      ∀ v ∈ s'.threads, v.finished = true := by
  obtain ⟨hcs, horder⟩ := List.append_eq_nil_iff.mp hnil.symm
  obtain rfl : order = [] := by
    rw [List.eq_nil_iff_forall_not_mem]
    intro i hi
    exact line_ne_nil (List.flatMap_eq_nil_iff.mp horder i hi)
  have hall : ∀ s, Going names [] none [] s →
      Stage (bossWorkers names) (bossWorkers names).joinThreads 6 s := by
    intro s h
    refine ⟨h.counted, h.mutex, h.length, h.boss, ?_⟩
    intro i hi
    rw [drop_six]
    exact h.others i hi nofun nofun
  cases inside with
  | none => exact (hall s h).join drop_six
  | some p =>
    obtain ⟨i, cs⟩ := p
    obtain rfl : cs = [] := hcs
    obtain ⟨s₁, v, hleft, h₁⟩ := h.worker_leaves
    obtain ⟨s', hruns, hout, hfin⟩ := (hall s₁ h₁).join drop_six
    refine ⟨s', hleft.runs.trans hruns, hout.trans ?_, hfin⟩
    rw [hleft.out, List.map_nil, List.append_nil]

/-- **Any interleaving** of the boss's last line with the goodbyes is written. -/
theorem Going.interleave {zs m : List Char} (hm : Interleaving xs zs m)
    (h : Going names xs inside order s)
    (hzs : zs = (inside.elim [] fun p => p.2) ++ order.flatMap (line names "Good bye!\n")) :
    ∃ s', Runs s s' ∧ s'.data.out.map Prod.snd = s.data.out.map Prod.snd ++ m ∧
      ∀ v ∈ s'.threads, v.finished = true := by
  induction hm generalizing s inside order with
  | nil =>
    obtain ⟨s', hruns, hout, hfin⟩ := h.finish hzs
    exact ⟨s', hruns, by rw [hout, List.append_nil], hfin⟩
  | @left xs zs m x hm ih =>
    obtain ⟨s₁, hleft, h₁⟩ := h.boss_writes
    obtain ⟨s', hruns, hout, hfin⟩ := ih h₁ hzs
    refine ⟨s', hleft.runs.trans hruns, ?_, hfin⟩
    rw [hout, hleft.out, List.map_append, List.append_assoc]
    rfl
  | @right xs zs m y hm ih =>
    obtain ⟨s₁, i, cs, order', hruns₁, hout₁, h₁, hzs'⟩ := h.ready hzs
    obtain ⟨s₂, v, hleft, h₂⟩ := h₁.worker_writes
    obtain ⟨s', hruns, hout, hfin⟩ := ih h₂ hzs'
    refine ⟨s', hruns₁.trans (hleft.runs.trans hruns), ?_, hfin⟩
    rw [hout, hleft.out, hout₁, List.map_append, List.append_assoc]
    rfl

/-- The boss on his last line. -/
def lastLine (names : List String) : Code :=
  print "BOSS: GO HOME!" ++ print "\n" ++ (bossWorkers names).joinThreads

theorem lastLine_eq : lastLine names = ("BOSS: GO HOME!\n".toList.map fun c => .op (.put [c])) ++
    (bossWorkers names).joinThreads := by
  have hline : "BOSS: GO HOME!\n".toList = "BOSS: GO HOME!".toList ++ "\n".toList := rfl
  rw [hline, List.map_append]
  rfl

theorem Stage.going (h : Stage (bossWorkers names) (lastLine names) 3 s) {order : List Nat}
    (horder : order.Perm (List.range names.length)) :
    Going names "BOSS: GO HOME!\n".toList none order s := by
  have hmem : ∀ i, i ∈ order ↔ i < names.length := fun i => horder.mem_iff.trans List.mem_range
  refine ⟨h.counted, ?_, h.length, ?_, horder.nodup_iff.mpr List.nodup_range, ?_, h.free, nofun, ?_⟩
  · apply h.latches_eq_zero
    · simp [lastLine]
    · intro i _
      simp [thread_eq, sync, Stmt.ops]
  · rw [← lastLine_eq]
    exact h.boss
  · intro i hi
    exact h.worker i ((hmem i).mp hi)
  · intro i hi hnot _
    exact absurd ((hmem i).mpr hi) hnot

theorem text_work (i : Nat) :
    text (((bossWorkers names).thread i).take 3) = line names "Work done!\n" i := by
  have htake : ((bossWorkers names).thread i).take 3 = wait (.spawned i) ++
      (synchronizedOut (names.getD i "" ++ ": " ++ "Work done!\n") ++ countDown .workDone) := rfl
  rw [htake, text_append, text_append, text_synchronizedOut]
  simp [line]

theorem prints_of_allowed {text : List Char} (h : Allowed names text) :
    (bossWorkers names).Prints text := by
  obtain ⟨works, byes, m, hworks, hbyes, hm, rfl⟩ := h
  have h₀ := (bossWorkers_sound names).stage
  -- the boss creates the threads
  have heq : (bossWorkers names).mainThread =
      ((bossWorkers names).start ++ (bossWorkers names).createThreads) ++
        (wait .workDone ++ afterWork names) := by
    rw [mainThread_eq, afterStart_eq, List.append_assoc, List.append_assoc]
  rw [heq] at h₀
  obtain ⟨s₁, hruns₁, h₁, hout₁⟩ := h₀.runs_boss (by simp [bossWorkers])
  -- their work
  have hsplit : ∀ i, ((bossWorkers names).thread i).drop 0 =
      ((bossWorkers names).thread i).take 3 ++ ((bossWorkers names).thread i).drop 3 :=
    fun i => (List.take_append_drop 3 _).symm
  obtain ⟨s₂, hruns₂, h₂, hout₂⟩ := h₁.runs_workers (line names "Work done!\n") hworks hsplit
    text_work (by
      intro i hi l hl
      obtain rfl : l = .spawned i := by
        simpa [thread_eq, sync, Stmt.ops, Op.isSync] using hl
      apply h₁.latches_eq_zero
      · simp [afterWork]
      · intro j _
        simp [thread_eq, sync, Stmt.ops])
  -- the boss gives the permission
  have hafter : wait .workDone ++ afterWork names =
      (wait .workDone ++ print "\n" ++ countDown .goHome) ++ lastLine names := by
    simp only [afterWork, lastLine, List.append_assoc]
  rw [hafter] at h₂
  obtain ⟨s₃, hruns₃, h₃, hout₃⟩ := h₂.runs_boss (by
    intro l hl
    obtain rfl : l = .workDone := by simpa using hl
    apply h₂.latches_eq_zero
    · simp [lastLine]
    · intro j _
      simp [thread_eq, sync, Stmt.ops])
  obtain ⟨s', hruns, hout, hfin⟩ := (Stage.going h₃ hbyes).interleave hm rfl
  refine ⟨s', ?_, hfin, ?_⟩
  · exact (hruns₁.trans (hruns₂.trans (hruns₃.trans hruns))).reachable .init
  · have hstart : text ((bossWorkers names).start ++ (bossWorkers names).createThreads) =
        "\nBOSS: START WORKING! \n".toList := by
      simp [bossWorkers]
    have hbreak : text (wait .workDone ++ print "\n" ++ countDown .goHome) = "\n".toList := by
      simp
    rw [hout, hout₃, hout₂, hout₁, hstart, hbreak]
    rfl

/-- **The output of `bossWorkers`.**  The program prints exactly these texts: all work is done in
front of the line break of the boss, and his last line can be torn apart by the goodbyes. -/
theorem boss_workers_prints (names : List String) (text : List Char) :
    (bossWorkers names).Prints text ↔ Allowed names text :=
  ⟨allowed_of_prints, prints_of_allowed⟩

end BossWorkers

end Cpp20Examples.Workers
