import Cpp20Examples.Concurrency.Workers.Phases
import Cpp20Examples.Lib.LatchRuns

/-!
# Runs of the workers

The workers take their turns in any order, and a boss who writes without the mutex writes
whenever he likes.

* `Stage.runs_boss`, `Stage.runs_workers`: the boss goes on, or all workers in a given order.
-/

namespace Cpp20Examples.Workers

open Lib Lib.Latches

variable {c : Crew} {q : Code} {k k' : Nat}
  {s s' : Threads.State (Shared Latch Char) (Thread Latch Char)}

theorem latches_eq_zero {l : Latch} (h : Counted s)
    (hnone : ∀ (t : Nat) (v : Thread Latch Char), s.threads[t]? = some v → .countDown l ∉ v.ops) :
    s.data.latches l = 0 := by
  by_contra hne
  obtain ⟨t, v, hv, hmem⟩ := h.exists_counts hne
  exact hnone t v hv hmem

theorem Stage.forall_threads (h : Stage c q k s) {P : Nat → Thread Latch Char → Prop}
    (hboss : P 0 ⟨q, none⟩) (hworker : ∀ i < c.size, P (i + 1) ⟨(c.thread i).drop k, none⟩)
    (t : Nat) (v : Thread Latch Char) (hv : s.threads[t]? = some v) : P t v := by
  have hlt := (List.getElem?_eq_some_iff.mp hv).1
  have hlength := h.length
  cases t with
  | zero =>
    obtain rfl := Option.some.inj (h.boss.symm.trans hv)
    exact hboss
  | succ i =>
    have hi : i < c.size := by omega
    obtain rfl := Option.some.inj ((h.worker i hi).symm.trans hv)
    exact hworker i hi

theorem Stage.latches_eq_zero {l : Latch} (h : Stage c q k s) (hboss : .countDown l ∉ sync q)
    (hworker : ∀ i < c.size, .countDown l ∉ sync ((c.thread i).drop k)) :
    s.data.latches l = 0 := by
  have hops : ∀ p : Code, .countDown l ∉ sync p →
      .countDown l ∉ (⟨p, none⟩ : Thread Latch Char).ops :=
    fun p hp hmem => hp ((mem_sync_iff rfl).mpr hmem)
  exact Workers.latches_eq_zero h.counted
    (h.forall_threads (hops q hboss) fun i hi => hops _ (hworker i hi))

theorem Stage.runs_boss {p : Code} (h : Stage c (p ++ q) k s)
    (hwait : ∀ l, .wait l ∈ sync p → s.data.latches l = 0) :
    ∃ s', Runs s s' ∧ Stage c q k s' ∧
      s'.data.out.map Prod.snd = s.data.out.map Prod.snd ++ text p := by
  obtain ⟨s', hleft, hfree⟩ := runs_code h.counted h.boss h.free
    (fun l hl => hwait l ((mem_sync_iff rfl).mpr hl))
  refine ⟨s', hleft.runs, h.reach (hleft.runs.reachable .init) (hleft.get h.boss) ?_, ?_⟩
  · intro i hi
    rw [hleft.threads, List.getElem?_set_ne (Nat.zero_ne_add_one i)]
    exact h.worker i hi
  · have hown : (text p).map (Prod.snd ∘ fun x => (0, x)) = text p := List.map_id _
    rw [hleft.out, List.map_append, List.map_map]
    exact congrArg _ hown

/-- All workers go on, in a given order. -/
theorem Stage.runs_workers (h : Stage c q k s) {p : Nat → Code} (f : Nat → List Char)
    {order : List Nat} (horder : order.Perm (List.range c.size))
    (hp : ∀ i, (c.thread i).drop k = p i ++ (c.thread i).drop k') (htext : ∀ i, text (p i) = f i)
    (hwait : ∀ i < c.size, ∀ l, .wait l ∈ sync (p i) → s.data.latches l = 0) :
    ∃ s', Runs s s' ∧ Stage c q k' s' ∧
      s'.data.out.map Prod.snd = s.data.out.map Prod.snd ++ order.flatMap f := by
  have hmem : ∀ i, i ∈ order ↔ i < c.size := fun i => horder.mem_iff.trans List.mem_range
  obtain ⟨s', hruns, hfree, hout, hdone, hkept, -⟩ := runs_order (u := fun i => i + 1)
    (p := p) (q := fun i => (c.thread i).drop k') (fun _ _ => Nat.succ.inj)
    (horder.nodup_iff.mpr List.nodup_range) h.counted h.free
    (fun i hi => (h.worker i ((hmem i).mp hi)).trans (by rw [hp]))
    (fun i hi l hl => hwait i ((hmem i).mp hi) l ((mem_sync_iff rfl).mpr hl))
  refine ⟨s', hruns, h.reach (hruns.reachable .init) ?_ ?_, ?_⟩
  · rw [hkept 0 fun i _ => Nat.zero_ne_add_one i]
    exact h.boss
  · intro i hi
    exact hdone i ((hmem i).mpr hi)
  · rw [hout, List.map_append, List.map_flatMap, List.append_right_inj]
    apply List.flatMap_congr
    intro i _
    rw [← htext, List.map_map]
    exact List.map_id _

theorem Stage.join (h : Stage c c.joinThreads k s) (hk : ∀ i, (c.thread i).drop k = []) :
    ∃ s', Runs s s' ∧ s'.data.out.map Prod.snd = s.data.out.map Prod.snd ∧
      ∀ v ∈ s'.threads, v.finished = true := by
  have h' : Stage c (c.joinThreads ++ []) k s := by
    rw [List.append_nil]
    exact h
  obtain ⟨s', hruns, hstage, hout⟩ := h'.runs_boss (by
    intro l hl
    apply h.latches_eq_zero
    · rw [sync_joinThreads]
      simp
    · intro i hi
      rw [hk]
      exact List.not_mem_nil)
  refine ⟨s', hruns, ?_, ?_⟩
  · rw [hout, text_joinThreads, List.append_nil]
  · intro v hv
    obtain ⟨t, ht⟩ := List.mem_iff_getElem?.mp hv
    refine hstage.forall_threads (P := fun _ v => v.finished = true) rfl ?_ t v ht
    intro i hi
    rw [hk]
    rfl

end Cpp20Examples.Workers
