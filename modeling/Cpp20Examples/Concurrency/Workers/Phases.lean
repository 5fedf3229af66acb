import Cpp20Examples.Concurrency.Workers.Programs
import Cpp20Examples.Lib.LatchScopes
import Mathlib.Data.List.Nodup
import Mathlib.Data.List.Range

/-!
# Phases of the work

Between two points of the run where the boss is in front of a statement and all workers are in
front of the same one, what is written is determined up to the order of the workers.

* `Interleaving`: two texts, each in its order.
* `exists_order`: one scope for each worker, in some order.
* `Stage`: such a point; `Stage.written`: what is written from one to the next.
-/

namespace Cpp20Examples.Workers

open Lib Lib.Latches

/-- A text that consists of two others, each in its order. -/
inductive Interleaving {α : Type} : List α → List α → List α → Prop
  | nil : Interleaving [] [] []
  | left {xs ys zs : List α} (x : α) (h : Interleaving xs ys zs) :
      Interleaving (x :: xs) ys (x :: zs)
  | right {xs ys zs : List α} (y : α) (h : Interleaving xs ys zs) :
      Interleaving xs (y :: ys) (y :: zs)

/-- What is written consists of what one thread writes, and the others. -/
theorem interleaving_own {α : Type} (t : Nat) (m : List (Nat × α)) :
    Interleaving (own t m) ((m.filter fun p => p.1 != t).map Prod.snd) (m.map Prod.snd) := by
  induction m with
  | nil => exact .nil
  | cons p m ih =>
    obtain ⟨u, x⟩ := p
    by_cases h : u = t
    · subst h
      have hfilter : ((u, x) :: m).filter (fun p => p.1 != u) = m.filter fun p => p.1 != u :=
        List.filter_cons_of_neg (by simp)
      rw [own_cons_self, hfilter]
      exact .left x ih
    · have hfilter : ((u, x) :: m).filter (fun p => p.1 != t) =
          (u, x) :: m.filter fun p => p.1 != t := List.filter_cons_of_pos (by simpa using h)
      rw [own_cons_other h, hfilter]
      exact .right x ih

theorem Interleaving.eq_of_nil_right {α : Type} {xs zs : List α} (h : Interleaving xs [] zs) :
    zs = xs := by
  generalize hys : ([] : List α) = ys at h
  induction h with
  | nil => rfl
  | left x h ih => rw [ih hys]
  | right y h ih => cases hys

theorem Interleaving.eq_of_nil_left {α : Type} {ys zs : List α} (h : Interleaving [] ys zs) :
    zs = ys := by
  generalize hxs : ([] : List α) = xs at h
  induction h with
  | nil => rfl
  | left x h ih => cases hxs
  | right y h ih => rw [ih hxs]

/-! ### The order of the workers -/

theorem mem_own {β : Type} {t : Nat} {x : β} {closed : List (Nat × β)} :
    x ∈ own t closed ↔ (t, x) ∈ closed := by
  rw [own, List.mem_map]
  constructor
  · rintro ⟨⟨u, y⟩, hp, rfl⟩
    obtain ⟨hmem, hu⟩ := List.mem_filter.mp hp
    obtain rfl := beq_iff_eq.mp hu
    exact hmem
  · intro h
    exact ⟨(t, x), List.mem_filter.mpr ⟨h, beq_self_eq_true t⟩, rfl⟩

/-- **One scope for each worker.**  They come in the order of some permutation. -/
theorem exists_order {β : Type} {closed : List (Nat × β)} {n : Nat} (f : Nat → β)
    (hmem : ∀ c ∈ closed, ∃ i < n, c.1 = i + 1)
    (hown : ∀ i < n, own (i + 1) closed = [f i]) :
    ∃ order : List Nat, order.Perm (List.range n) ∧
      closed = order.map fun i => (i + 1, f i) := by
  refine ⟨closed.map fun c => c.1 - 1, ?_, ?_⟩
  · apply List.perm_iff_count.mpr
    intro i
    have hcount : ∀ l : List (Nat × β), (∀ c ∈ l, ∃ i < n, c.1 = i + 1) →
        (l.map fun c => c.1 - 1).count i = (own (i + 1) l).length := by
      intro l hl
      induction l with
      | nil => rfl
      | cons c l ih =>
        obtain ⟨u, x⟩ := c
        obtain ⟨j, -, hj⟩ := hl _ (List.mem_cons_self ..)
        obtain rfl : u = j + 1 := hj
        have hrest := ih fun c hc => hl c (List.mem_cons_of_mem _ hc)
        rw [List.map_cons, List.count_cons, hrest]
        by_cases hij : j = i
        · subst hij
          rw [own_cons_self]
          simp
        · rw [own_cons_other (by omega)]
          simp [hij]
    rw [hcount closed hmem]
    by_cases hi : i < n
    · rw [hown i hi, List.count_eq_one_of_mem List.nodup_range (List.mem_range.mpr hi)]
      rfl
    · rw [List.count_eq_zero_of_not_mem fun h => hi (List.mem_range.mp h), List.length_eq_zero_iff,
        List.eq_nil_iff_forall_not_mem]
      intro x hx
      obtain ⟨j, hj, heq⟩ := hmem _ (mem_own.mp hx)
      have hij : i + 1 = j + 1 := heq
      omega
  · rw [List.map_map]
    symm
    rw [List.map_congr_left (g := id), List.map_id]
    rintro ⟨u, x⟩ hc
    obtain ⟨j, hj, heq⟩ := hmem _ hc
    obtain rfl : u = j + 1 := heq
    have hx := mem_own.mpr hc
    rw [hown j hj] at hx
    obtain rfl := List.mem_singleton.mp hx
    rfl

/-! ### Texts -/

/-- The line of a worker. -/
def line (names : List String) (what : String) (i : Nat) : List Char :=
  (names.getD i "" ++ ": " ++ what).toList

theorem line_ne_nil {names : List String} {what : String} {i : Nat} :
    line names what i ≠ [] := by
  rw [line, String.toList_append, String.toList_append]
  simp

/-- What a thread of this code writes. -/
def text (p : Code) : List Char := (p.flatMap Stmt.ops).flatMap Op.text

section Text

variable (p q : Code) (s : String) (l : Latch)

@[simp] theorem text_append : text (p ++ q) = text p ++ text q := by
  rw [text, List.flatMap_append, List.flatMap_append]
  rfl

@[simp] theorem text_print : text (print s) = s.toList := by
  rw [text, print]
  generalize s.toList = cs
  induction cs with
  | nil => rfl
  | cons c cs ih => exact congrArg (c :: ·) ih

@[simp] theorem text_countDown : text (countDown l) = [] := rfl

@[simp] theorem text_wait : text (wait l) = [] := rfl

@[simp] theorem text_nil : text [] = [] := rfl

theorem text_flatMap (n : Nat) (f : Nat → Code) (h : ∀ i, text (f i) = []) :
    text ((List.range n).flatMap f) = [] := by
  rw [text, List.flatMap_eq_nil_iff]
  intro o ho
  obtain ⟨st, hst, ho⟩ := List.mem_flatMap.mp ho
  obtain ⟨i, -, hst⟩ := List.mem_flatMap.mp hst
  exact List.flatMap_eq_nil_iff.mp (h i) o (List.mem_flatMap.mpr ⟨st, hst, ho⟩)

@[simp] theorem text_createThreads (c : Crew) : text c.createThreads = [] :=
  text_flatMap _ _ fun _ => rfl

@[simp] theorem text_joinThreads (c : Crew) : text c.joinThreads = [] :=
  text_flatMap _ _ fun _ => rfl

theorem flatMap_text_put (cs : List Char) :
    (cs.map fun c => (.put [c] : Op Latch Char)).flatMap Op.text = cs := by
  induction cs with
  | nil => rfl
  | cons c cs ih => exact congrArg (c :: ·) ih

@[simp] theorem text_synchronizedOut : text (synchronizedOut s) = s.toList := by
  rw [text, synchronizedOut, List.flatMap_singleton, Stmt.ops, flatMap_text_put]

@[simp] theorem text_osyncstream : text (osyncstream s) = s.toList := List.append_nil _

@[simp] theorem scopes_synchronizedOut :
    (synchronizedOut s).flatMap Stmt.scopes = [s.toList] := by
  rw [synchronizedOut, List.flatMap_singleton, Stmt.scopes, flatMap_text_put]

end Text

/-! ### Stages -/

/-- The threads from this state on. -/
abbrev onwards (s : Threads.State (Shared Latch Char) (Thread Latch Char)) :
    System (Threads.State (Shared Latch Char) (Thread Latch Char)) Nat :=
  Threads.system Latches.next s.data s.threads

section Stages

variable {c : Crew} {q q' : Code} {k k' : Nat}
  {s s' : Threads.State (Shared Latch Char) (Thread Latch Char)}

/-- The boss is in front of `q`, and the workers have the first `k` statements behind them. -/
structure Stage (c : Crew) (q : Code) (k : Nat)
    (s : Threads.State (Shared Latch Char) (Thread Latch Char)) : Prop where
  counted : Counted s
  free : s.data.mutex = none
  length : s.threads.length = c.size + 1
  boss : s.threads[0]? = some ⟨q, none⟩
  worker : ∀ i < c.size, s.threads[i + 1]? = some ⟨(c.thread i).drop k, none⟩

/-- The workers write in scopes only, or have no scopes. -/
def Crew.Whole (c : Crew) : Prop :=
  (∀ i o, .op o ∈ c.thread i → o.text = []) ∨ ∀ i body, .locked body ∉ c.thread i

theorem Stage.outside (h : Stage c q k s) : ∀ v ∈ s.threads, v.scope.isSome = false := by
  intro v hv
  obtain ⟨t, ht⟩ := List.mem_iff_getElem?.mp hv
  have hlt := (List.getElem?_eq_some_iff.mp ht).1
  cases t with
  | zero =>
    obtain rfl := Option.some.inj (h.boss.symm.trans ht)
    rfl
  | succ i =>
    have hi : i < c.size := by
      have hlength := h.length
      omega
    obtain rfl := Option.some.inj ((h.worker i hi).symm.trans ht)
    rfl

/-- **From stage to stage.**  What the boss writes between them is his; the scopes of the
workers come one after the other. -/
theorem Stage.written (h : Stage c q k s) (h' : Stage c q' k' s') (hwhole : c.Whole)
    (hs : (onwards s).Reachable s') :
    ∃ m closed, s'.data.out = s.data.out ++ m ∧
      own 0 m ++ text q' = text q ∧
      (m.filter fun p => p.1 != 0) = closed.flatMap (fun c => c.2.map fun x => (c.1, x)) ∧
      (∀ i < c.size, own (i + 1) closed ++ ((c.thread i).drop k').flatMap Stmt.scopes =
        ((c.thread i).drop k).flatMap Stmt.scopes) ∧
      ∀ p ∈ closed, ∃ i < c.size, p.1 = i + 1 := by
  have hworker : ∀ (t : Nat) (v : Thread Latch Char), (t != 0) = true → s.threads[t]? = some v →
      ∃ i, v = ⟨(c.thread i).drop k, none⟩ := by
    intro t v ht hv
    obtain ⟨i, rfl⟩ := Nat.exists_eq_succ_of_ne_zero (bne_iff_ne.mp ht)
    have hlt := (List.getElem?_eq_some_iff.mp hv).1
    have hi : i < c.size := by
      have hlength := h.length
      omega
    exact ⟨i, Option.some.inj (hv.symm.trans (h.worker i hi))⟩
  have hwrites : Whole (fun t => t != 0) s.threads := by
    refine hwhole.imp (fun hguarded t v ht hv o ho => ?_) fun hplain t v ht hv => ?_
    · obtain ⟨i, rfl⟩ := hworker t v ht hv
      exact hguarded i o (List.mem_of_mem_drop ho)
    · obtain ⟨i, rfl⟩ := hworker t v ht hv
      exact ⟨rfl, fun body hbody => hplain i body (List.mem_of_mem_drop hbody)⟩
  obtain ⟨closed, ahead, hscoped⟩ := exists_scoped h.free h.outside hwrites hs
  obtain ⟨m, hm, hfilter⟩ := hscoped.out
  refine ⟨m, closed, hm, ?_, ?_, ?_, ?_⟩
  · have hboss := Latches.written hs h'.boss h.boss
    rw [hm, own_append, List.append_assoc] at hboss
    exact List.append_cancel_left hboss
  · rw [hfilter, h'.free]
    exact List.append_nil _
  · intro i hi
    exact hscoped.scopes (i + 1) _ _ rfl (h'.worker i hi) (h.worker i hi)
  · intro p hp
    obtain ⟨hne, hlt⟩ := hscoped.members p hp
    obtain ⟨i, hi⟩ := Nat.exists_eq_succ_of_ne_zero (bne_iff_ne.mp hne)
    have hlength := h.length
    exact ⟨i, by omega, hi⟩

/-- Where no worker leaves a scope, the boss is the only one to write. -/
theorem Stage.alone (h : Stage c q k s) (h' : Stage c q' k s') (hwhole : c.Whole)
    (hs : (onwards s).Reachable s') : ∃ m, s'.data.out = s.data.out ++ m ∧
      m.map Prod.snd ++ text q' = text q := by
  obtain ⟨m, closed, hm, hboss, hothers, hworkers, hmem⟩ := h.written h' hwhole hs
  obtain rfl : closed = [] := by
    rw [List.eq_nil_iff_forall_not_mem]
    intro p hp
    obtain ⟨i, hi, heq⟩ := hmem p hp
    have hnone := List.append_left_eq_self.mp (hworkers i hi)
    have hin : p.2 ∈ own (i + 1) closed := mem_own.mpr (heq ▸ hp)
    rw [hnone] at hin
    cases hin
  refine ⟨m, hm, ?_⟩
  have hinter := interleaving_own 0 m
  rw [hothers] at hinter
  rw [hinter.eq_of_nil_right, hboss]

theorem Stage.exists_order (h : Stage c q k s) (h' : Stage c q' k' s') (hwhole : c.Whole)
    (hs : (onwards s).Reachable s') (f : Nat → List Char)
    (hf : ∀ i < c.size, [f i] ++ ((c.thread i).drop k').flatMap Stmt.scopes =
      ((c.thread i).drop k).flatMap Stmt.scopes) :
    ∃ m xs, ∃ order : List Nat, s'.data.out = s.data.out ++ m ∧ order.Perm (List.range c.size) ∧
      xs ++ text q' = text q ∧ Interleaving xs (order.flatMap f) (m.map Prod.snd) := by
  obtain ⟨m, closed, hm, hboss, hothers, hworkers, hmem⟩ := h.written h' hwhole hs
  obtain ⟨order, hperm, rfl⟩ := Workers.exists_order f hmem fun i hi =>
    List.append_cancel_right ((hworkers i hi).trans (hf i hi).symm)
  refine ⟨m, own 0 m, order, hm, hperm, hboss, ?_⟩
  have hinter := interleaving_own 0 m
  rw [hothers] at hinter
  have htext : ((order.map fun i => (i + 1, f i)).flatMap fun c => c.2.map fun x => (c.1, x)).map
      Prod.snd = order.flatMap f := by
    rw [List.map_flatMap, List.flatMap_map]
    apply List.flatMap_congr
    intro i _
    rw [List.map_map]
    exact List.map_id _
  rw [htext] at hinter
  exact hinter

theorem Stage.reach (h : Stage c q k s)
    (hs : (onwards s).Reachable s')
    (hboss : s'.threads[0]? = some ⟨q', none⟩)
    (hworker : ∀ i < c.size, s'.threads[i + 1]? = some ⟨(c.thread i).drop k', none⟩) :
    Stage c q' k' s' := by
  have hlength : s'.threads.length = c.size + 1 := (length_threads hs).trans h.length
  refine ⟨Latches.counted h.counted hs, ?_, hlength, hboss, hworker⟩
  by_contra hsome
  obtain ⟨u, howner⟩ := Option.ne_none_iff_exists'.mp hsome
  have hlt := mutex.owner_lt mutex_respected h.free hs howner
  have hget := List.getElem?_eq_getElem hlt
  have hinside := (mutex.owned mutex_respected h.free h.outside hs hget).mpr howner
  cases u with
  | zero =>
    rw [Option.some.inj (hget.symm.trans hboss)] at hinside
    cases hinside
  | succ i =>
    rw [Option.some.inj (hget.symm.trans (hworker i (by omega)))] at hinside
    cases hinside

theorem Stage.exists_at {p : Code} (h : Stage c (p ++ q) k s) (hs : (onwards s).Reachable s')
    (hboss : s'.threads[0]? = some ⟨[], none⟩) :
    ∃ s₁, (onwards s).Reachable s₁ ∧ s₁.threads[0]? = some ⟨q, none⟩ ∧
      (onwards s₁).Reachable s' := by
  cases q with
  | nil => exact ⟨s', hs, hboss, .init⟩
  | cons st q => exact Latches.exists_at hs h.boss hboss (Nat.zero_lt_succ _)

theorem getElem?_of_finished (hend : ∀ v ∈ s.threads, v.finished = true) {t : Nat}
    (ht : t < s.threads.length) : s.threads[t]? = some ⟨[], none⟩ := by
  have hget := List.getElem?_eq_getElem ht
  have hfin := hend _ (List.getElem_mem ht)
  rw [Thread.finished, Bool.and_eq_true, List.isEmpty_iff, Option.isNone_iff_eq_none] at hfin
  rw [hget, Option.some.injEq]
  generalize s.threads[t] = v at hfin
  obtain ⟨rest, scope⟩ := v
  obtain ⟨rfl, rfl⟩ := hfin
  rfl

theorem Stage.ended (h : Stage c q k s) (hs : (onwards s).Reachable s')
    (hend : ∀ v ∈ s'.threads, v.finished = true) (hk : ∀ i, (c.thread i).drop k' = []) :
    Stage c [] k' s' := by
  have hlen : s'.threads.length = c.size + 1 := (length_threads hs).trans h.length
  refine h.reach hs (getElem?_of_finished hend (by omega)) ?_
  intro i hi
  rw [hk]
  exact getElem?_of_finished hend (by omega)

theorem Stage.at_ (h : Stage c q k s) (hs : (onwards s).Reachable s')
    {i : Nat} (hi : i < c.size) {v : Thread Latch Char} (hv : s'.threads[i + 1]? = some v) :
    At (c.thread i) v := by
  have hat := Latches.at_ hs (h.worker i hi) hv
  cases hat with
  | outside j =>
    rw [List.drop_drop]
    exact .outside _
  | inside hk j =>
    rw [List.drop_drop] at hk
    exact .inside hk j

theorem at_start {i : Nat} {v : Thread Latch Char} (hat : At (c.thread i) v)
    (hworker : .wait (.spawned i) ∉ sync (c.worker i)) (hwait : .wait (.spawned i) ∈ v.ops) :
    v = ⟨(c.thread i).drop 0, none⟩ := by
  have hrest : .wait (.spawned i) ∉ sync (c.worker i ++ countDown (.joined i)) := by
    rw [sync_append, sync_countDown, List.mem_append]
    rintro (h | h)
    · exact hworker h
    · cases List.mem_singleton.mp h
  have hmem : ∀ j, .wait (.spawned i) ∉
      ((c.worker i ++ countDown (.joined i)).drop j).flatMap Stmt.ops := by
    intro j hj
    apply hrest
    obtain ⟨st, hst, ho⟩ := List.mem_flatMap.mp hj
    exact List.mem_filter.mpr ⟨List.mem_flatMap.mpr ⟨st, List.mem_of_mem_drop hst, ho⟩, rfl⟩
  cases hat with
  | outside j =>
    cases j with
    | zero => rfl
    | succ j => exact absurd hwait (hmem j)
  | @inside j body rest hj n =>
    cases j with
    | zero => cases hj
    | succ j =>
      have hops := hmem j
      have hdrop : (c.worker i ++ countDown (.joined i)).drop j = .locked body :: rest := hj
      rw [hdrop, List.flatMap_cons, List.mem_append] at hops
      exfalso
      rcases List.mem_append.mp hwait with hwait | hwait
      · exact hops (.inl (List.mem_of_mem_drop hwait))
      · exact hops (.inr hwait)

/-- **The threads are created.**  In front of that the boss is the only one to write. -/
theorem Stage.create (h : Stage c q 0 s) (hs : (onwards s).Reachable s')
    (hboss : s'.threads[0]? = some ⟨q', none⟩)
    (hcreate : ∀ i < c.size, .countDown (.spawned i) ∈ q'.flatMap Stmt.ops)
    (hworker : ∀ i, .wait (.spawned i) ∉ sync (c.worker i)) : Stage c q' 0 s' := by
  refine h.reach hs hboss ?_
  intro i hi
  have hlt : i + 1 < s'.threads.length := by
    rw [length_threads hs, h.length]
    omega
  have hget := List.getElem?_eq_getElem hlt
  have hne : s'.data.latches (.spawned i) ≠ 0 := by
    intro hzero
    exact (Latches.counted h.counted hs).not_mem hzero hboss (hcreate i hi)
  have hwait : .wait (.spawned i) ∈ (⟨(c.thread i).drop 0, none⟩ : Thread Latch Char).ops :=
    List.mem_cons_self ..
  rcases released hs hget (h.worker i hi) hwait with hmem | hzero
  · rw [hget, at_start (h.at_ hs hi hget) (hworker i) hmem]
  · exact absurd hzero hne

theorem Crew.Sound.stage (h : c.Sound) : Stage c c.mainThread 0 c.system.init := by
  refine ⟨h.counted, rfl, ?_, rfl, ?_⟩
  · show (c.programs.map _).length = _
    rw [List.length_map, Crew.programs, List.length_cons, List.length_map, List.length_range]
  · intro i hi
    show (c.programs.map _)[i + 1]? = _
    rw [Crew.programs, List.map_cons, List.getElem?_cons_succ, List.getElem?_map,
      List.getElem?_map, List.getElem?_range hi]
    rfl

/-- A worker whose work is done, and who still waits for `l`, is in front of this. -/
theorem at_wait {i : Nat} {l : Latch} {a b : Stmt Latch Char} {v : Thread Latch Char}
    (hthread : c.thread i = [.op (.wait (.spawned i)), a, .op (.countDown .workDone),
      .op (.wait l), b, .op (.countDown (.joined i))])
    (hb : .wait l ∉ b.ops) (hat : At (c.thread i) v) (hdone : .countDown .workDone ∉ v.ops)
    (hwait : .wait l ∈ v.ops) : v = ⟨(c.thread i).drop 3, none⟩ := by
  rw [hthread] at hat ⊢
  have hbehind : ∀ os : List (Op Latch Char), (∀ o ∈ os, o ∈ b.ops) →
      .wait l ∉ os ++ [.countDown (.joined i)] := by
    intro os hos hmem
    rcases List.mem_append.mp hmem with hmem | hmem
    · exact hb (hos _ hmem)
    · cases List.mem_singleton.mp hmem
  cases hat with
  | outside j =>
    match j with
    | 0 =>
      exfalso
      apply hdone
      refine List.mem_flatMap.mpr ⟨.op (.countDown .workDone), ?_, List.mem_singleton_self _⟩
      exact List.mem_cons_of_mem _ (List.mem_cons_of_mem _ (List.mem_cons_self ..))
    | 1 => exact absurd (List.mem_append_right _ (List.mem_cons_self ..)) hdone
    | 2 => exact absurd (List.mem_cons_self ..) hdone
    | 3 => rfl
    | 4 => exact absurd hwait (hbehind _ fun _ ho => ho)
    | 5 => exact absurd hwait (hbehind [] nofun)
    | j + 6 =>
      have hnil : ∀ x : List (Stmt Latch Char), x.length = 6 → x.drop (j + 6) = [] :=
        fun x hx => List.drop_eq_nil_of_le (by omega)
      rw [hnil _ rfl] at hwait
      cases hwait
  | @inside j body rest hj n =>
    match j with
    | 0 | 2 | 3 | 5 => cases hj
    | 1 =>
      cases hj
      exact absurd (List.mem_append_right _ (List.mem_cons_self ..)) hdone
    | 4 =>
      cases hj
      exact absurd hwait (hbehind _ fun _ ho => List.mem_of_mem_drop ho)
    | j + 6 =>
      rw [List.drop_eq_nil_of_le (Nat.le_add_left 6 j)] at hj
      cases hj

end Stages

/-- A complete run of the program prints this. -/
def Crew.Prints (c : Crew) (text : List Char) : Prop :=
  ∃ s, c.system.Reachable s ∧ (∀ v ∈ s.threads, v.finished = true) ∧
    s.data.out.map Prod.snd = text

end Cpp20Examples.Workers
