import Cpp20Examples.Lib.Latches
import Mathlib.Logic.Relation

/-!
# Runs with latches

What the threads of `Lib.Latches` can do, one after the other.  The latches do not have to be
followed: they count what the threads are still to do.

* `Runs`: some run leads from one state to another.
* `runs_inside`, `runs_code`: a thread goes on while it has not to wait.
* `runs_order`: one thread after the other does so.
* `runs_interleaving`: threads that write one element at a time write in any order.
-/

namespace Lib.Latches

open Lib.Threads

variable {ι α : Type} [DecidableEq ι]

/-- Some run leads from the one state to the other. -/
def Runs : State (Shared ι α) (Thread ι α) → State (Shared ι α) (Thread ι α) → Prop :=
  Relation.ReflTransGen fun s s' => ∃ (t : Nat) (v : Thread ι α) (d : Shared ι α) (v' : Thread ι α),
    s.threads[t]? = some v ∧ next t s.data v = some (d, v') ∧ s' = ⟨d, s.threads.set t v'⟩

variable {data : Shared ι α} {threads : List (Thread ι α)} {t : Nat} {l : ι}
  {s s' s'' : State (Shared ι α) (Thread ι α)}

theorem Runs.refl (s : State (Shared ι α) (Thread ι α)) : Runs s s := Relation.ReflTransGen.refl

theorem Runs.trans (h : Runs s s') (h' : Runs s' s'') : Runs s s'' :=
  Relation.ReflTransGen.trans h h'

theorem Runs.step {v : Thread ι α} {d : Shared ι α} {v' : Thread ι α} (hv : s.threads[t]? = some v)
    (h : next t s.data v = some (d, v')) : Runs s ⟨d, s.threads.set t v'⟩ :=
  Relation.ReflTransGen.single ⟨t, v, d, v', hv, h, rfl⟩

theorem Runs.reachable (h : Runs s s') (hs : (Threads.system next data threads).Reachable s) :
    (Threads.system next data threads).Reachable s' := by
  induction h with
  | refl => exact hs
  | tail _ hst ih =>
    obtain ⟨t, v, d, v', hv, hnext, rfl⟩ := hst
    exact .step (a := t) ih trivial (by simp [Threads.system, hv, hnext])

/-- What a thread leaves behind that has done `xs` of its text, and nothing else is known. -/
structure Left (s : State (Shared ι α) (Thread ι α)) (t : Nat) (xs : List α) (v : Thread ι α)
    (s' : State (Shared ι α) (Thread ι α)) : Prop where
  runs : Runs s s'
  threads : s'.threads = s.threads.set t v
  out : s'.data.out = s.data.out ++ xs.map fun x => (t, x)
  zero : ∀ l, s.data.latches l = 0 → s'.data.latches l = 0

theorem Left.counted {xs : List α} {v : Thread ι α} (h : Left s t xs v s') (hs : Counted s) :
    Counted s' :=
  Latches.counted hs (h.runs.reachable .init)

theorem Left.trans {xs ys : List α} {v v' : Thread ι α} (h : Left s t xs v s')
    (h' : Left s' t ys v' s'') : Left s t (xs ++ ys) v' s'' := by
  refine ⟨h.runs.trans h'.runs, ?_, ?_, fun l hl => h'.zero l (h.zero l hl)⟩
  · rw [h'.threads, h.threads, List.set_set]
  · rw [h'.out, h.out, List.map_append, List.append_assoc]

theorem Left.here {v : Thread ι α} (hv : s.threads[t]? = some v) : Left s t [] v s := by
  refine ⟨.refl s, ?_, (List.append_nil _).symm, fun l hl => hl⟩
  obtain ⟨hlt, rfl⟩ := List.getElem?_eq_some_iff.mp hv
  exact (List.set_getElem_self hlt).symm

theorem Left.get {xs : List α} {v w : Thread ι α} (h : Left s t xs v s')
    (hw : s.threads[t]? = some w) : s'.threads[t]? = some v := by
  rw [h.threads]
  exact getElem?_set_of_some hw v

theorem exists_perform (h : Counted s) {v : Thread ι α} (hv : s.threads[t]? = some v) {o : Op ι α}
    (ho : o ∈ v.ops) (hwait : ∀ l, o = .wait l → s.data.latches l = 0) :
    ∃ d, s.data.perform t o = some d ∧ d.mutex = s.data.mutex ∧
      d.out = s.data.out ++ (o.text.map fun x => (t, x)) ∧
      ∀ l, s.data.latches l = 0 → d.latches l = 0 := by
  obtain ⟨d, hd⟩ := Option.isSome_iff_exists.mp (perform_isSome h hv ho hwait)
  refine ⟨d, hd, perform_mutex hd, perform_out hd, ?_⟩
  intro l hl
  have hle := perform_latches hd l
  omega

theorem runs_inside {rest : List (Stmt ι α)} {body : List (Op ι α)} (h : Counted s)
    (hv : s.threads[t]? = some ⟨rest, some body⟩)
    (hwait : ∀ l, .wait l ∈ body → s.data.latches l = 0) :
    ∃ s', Left s t (body.flatMap Op.text) ⟨rest, none⟩ s' ∧ s'.data.mutex = none := by
  induction body generalizing s with
  | nil =>
    refine ⟨_, ⟨.step hv rfl, rfl, (List.append_nil _).symm, fun l hl => hl⟩, rfl⟩
  | cons o body ih =>
    obtain ⟨d, hd, hmutex, hout, hzero⟩ := exists_perform h hv (o := o) (List.mem_cons_self ..)
      (fun l hl => hwait l (hl ▸ List.mem_cons_self ..))
    have hnext : next t s.data ⟨rest, some (o :: body)⟩ = some (d, ⟨rest, some body⟩) := by
      simp only [next, hd, Option.map_some]
    have hleft : Left s t o.text ⟨rest, some body⟩ ⟨d, s.threads.set t ⟨rest, some body⟩⟩ :=
      ⟨.step hv hnext, rfl, hout, hzero⟩
    obtain ⟨s', hleft', hfree⟩ := ih (hleft.counted h) (hleft.get hv)
      (fun l hl => hzero l (hwait l (List.mem_cons_of_mem _ hl)))
    exact ⟨s', hleft.trans hleft', hfree⟩

/-- **A thread goes on** while it has not to wait, with the mutex free for its scopes. -/
theorem runs_code {p q : List (Stmt ι α)} (h : Counted s)
    (hv : s.threads[t]? = some ⟨p ++ q, none⟩) (hfree : s.data.mutex = none)
    (hwait : ∀ l, .wait l ∈ p.flatMap Stmt.ops → s.data.latches l = 0) :
    ∃ s', Left s t ((p.flatMap Stmt.ops).flatMap Op.text) ⟨q, none⟩ s' ∧
      s'.data.mutex = none := by
  induction p generalizing s with
  | nil => exact ⟨s, .here hv, hfree⟩
  | cons st p ih =>
    rw [List.flatMap_cons, List.flatMap_append]
    rw [List.flatMap_cons] at hwait
    cases st with
    | op o =>
      obtain ⟨d, hd, hmutex, hout, hzero⟩ := exists_perform h hv (o := o) (List.mem_cons_self ..)
        (fun l hl => hwait l (hl ▸ List.mem_cons_self ..))
      have hnext : next t s.data ⟨.op o :: (p ++ q), none⟩ = some (d, ⟨p ++ q, none⟩) := by
        simp only [next, hd, Option.map_some]
      have hleft : Left s t o.text ⟨p ++ q, none⟩ ⟨d, s.threads.set t ⟨p ++ q, none⟩⟩ :=
        ⟨.step hv hnext, rfl, hout, hzero⟩
      obtain ⟨s', hleft', hfree'⟩ := ih (hleft.counted h) (hleft.get hv) (hmutex.trans hfree)
        (fun l hl => hzero l (hwait l (List.mem_append_right _ hl)))
      refine ⟨s', ?_, hfree'⟩
      show Left s t ([o].flatMap Op.text ++ _) _ _
      rw [List.flatMap_singleton]
      exact hleft.trans hleft'
    | locked body =>
      have hnext : next t s.data ⟨.locked body :: (p ++ q), none⟩ =
          some ({ s.data with mutex := some t }, ⟨p ++ q, some body⟩) := if_pos hfree
      have hlock : Left s t [] ⟨p ++ q, some body⟩ ⟨{ s.data with mutex := some t },
          s.threads.set t ⟨p ++ q, some body⟩⟩ :=
        ⟨.step hv hnext, rfl, (List.append_nil _).symm, fun l hl => hl⟩
      obtain ⟨s₁, hinside, hfree₁⟩ := runs_inside (hlock.counted h) (hlock.get hv)
        (fun l hl => hwait l (List.mem_append_left _ hl))
      have hleft := hlock.trans hinside
      obtain ⟨s', hleft', hfree'⟩ := ih (hleft.counted h) (hleft.get hv) hfree₁
        (fun l hl => hleft.zero l (hwait l (List.mem_append_right _ hl)))
      exact ⟨s', hleft.trans hleft', hfree'⟩

theorem runs_order {u : Nat → Nat} (hu : Function.Injective u) {p q : Nat → List (Stmt ι α)}
    {order : List Nat} (hnodup : order.Nodup) (h : Counted s) (hfree : s.data.mutex = none)
    (hat : ∀ i ∈ order, s.threads[u i]? = some ⟨p i ++ q i, none⟩)
    (hwait : ∀ i ∈ order, ∀ l, .wait l ∈ (p i).flatMap Stmt.ops → s.data.latches l = 0) :
    ∃ s', Runs s s' ∧ s'.data.mutex = none ∧
      s'.data.out = s.data.out ++ order.flatMap (fun i =>
        (((p i).flatMap Stmt.ops).flatMap Op.text).map fun x => (u i, x)) ∧
      (∀ i ∈ order, s'.threads[u i]? = some ⟨q i, none⟩) ∧
      (∀ t : Nat, (∀ i ∈ order, t ≠ u i) → s'.threads[t]? = s.threads[t]?) ∧
      ∀ l, s.data.latches l = 0 → s'.data.latches l = 0 := by
  induction order generalizing s with
  | nil =>
    exact ⟨s, .refl s, hfree, (List.append_nil _).symm, nofun, fun t _ => rfl, fun l hl => hl⟩
  | cons i order ih =>
    obtain ⟨hnot, hnodup⟩ := List.nodup_cons.mp hnodup
    have hi := hat i (List.mem_cons_self ..)
    obtain ⟨s₁, hleft, hfree₁⟩ := runs_code h hi hfree (hwait i (List.mem_cons_self ..))
    have hothers : ∀ t : Nat, t ≠ u i → s₁.threads[t]? = s.threads[t]? := by
      intro t ht
      rw [hleft.threads, List.getElem?_set_ne (Ne.symm ht)]
    have hne : ∀ j ∈ order, u j ≠ u i := by
      intro j hj heq
      exact hnot (hu heq ▸ hj)
    obtain ⟨s', hruns, hfree', hout, hdone, hkept, hzero⟩ := ih hnodup (hleft.counted h) hfree₁
      (fun j hj => (hothers _ (hne j hj)).trans (hat j (List.mem_cons_of_mem _ hj)))
      (fun j hj l hl => hleft.zero l (hwait j (List.mem_cons_of_mem _ hj) l hl))
    refine ⟨s', hleft.runs.trans hruns, hfree', ?_, ?_, ?_, fun l hl => hzero l (hleft.zero l hl)⟩
    · rw [hout, hleft.out, List.flatMap_cons, List.append_assoc]
    · intro j hj
      rcases List.mem_cons.mp hj with rfl | hj
      · rw [hkept (u j) fun j' hj' => (hne j' hj').symm]
        exact hleft.get hi
      · exact hdone j hj
    · intro t ht
      rw [hkept t fun j hj => ht j (List.mem_cons_of_mem _ hj),
        hothers t (ht i (List.mem_cons_self ..))]

/-! ### Interleavings -/

/-- The code has no scopes, and writes its elements one at a time. -/
def OneAtATime (p : List (Stmt ι α)) : Prop := ∀ st ∈ p, ∃ o, st = .op o ∧ o.text.length ≤ 1

omit [DecidableEq ι] in
theorem OneAtATime.exists_split {p : List (Stmt ι α)} (hp : OneAtATime p) {x : α} {xs : List α}
    (h : (p.flatMap Stmt.ops).flatMap Op.text = x :: xs) :
    ∃ a b, p = a ++ b ∧ (a.flatMap Stmt.ops).flatMap Op.text = [x] ∧
      (b.flatMap Stmt.ops).flatMap Op.text = xs := by
  induction p with
  | nil => cases h
  | cons st p ih =>
    obtain ⟨o, rfl, hlen⟩ := hp st (List.mem_cons_self ..)
    have hrest : OneAtATime p := fun st hst => hp st (List.mem_cons_of_mem _ hst)
    have hsplit : o.text ++ (p.flatMap Stmt.ops).flatMap Op.text = x :: xs := h
    cases htext : o.text with
    | nil =>
      rw [htext] at hsplit
      obtain ⟨a, b, rfl, ha, hb⟩ := ih hrest hsplit
      refine ⟨.op o :: a, b, rfl, ?_, hb⟩
      show o.text ++ (a.flatMap Stmt.ops).flatMap Op.text = [x]
      rw [htext, ha]
      rfl
    | cons y ys =>
      rw [htext] at hsplit hlen
      obtain rfl := List.eq_nil_of_length_eq_zero (Nat.le_zero.mp (Nat.le_of_succ_le_succ hlen))
      obtain ⟨rfl, rfl⟩ := List.cons.inj hsplit
      refine ⟨[.op o], p, rfl, ?_, rfl⟩
      show o.text ++ [] = [y]
      rw [htext]
      rfl

/-- **Any interleaving** of what the threads write is possible, where none has to wait. -/
theorem runs_interleaving {m : List (Nat × α)} {p r : Nat → List (Stmt ι α)} (h : Counted s)
    (hfree : s.data.mutex = none)
    (hat : ∀ t < s.threads.length, s.threads[t]? = some ⟨p t ++ r t, none⟩)
    (hone : ∀ t, OneAtATime (p t))
    (hwait : ∀ t < s.threads.length, ∀ l, .wait l ∈ (p t).flatMap Stmt.ops → s.data.latches l = 0)
    (hmem : ∀ q ∈ m, q.1 < s.threads.length)
    (htext : ∀ t < s.threads.length, own t m = ((p t).flatMap Stmt.ops).flatMap Op.text) :
    ∃ s', Runs s s' ∧ s'.data.mutex = none ∧ s'.data.out = s.data.out ++ m ∧
      ∀ t < s.threads.length, s'.threads[t]? = some ⟨r t, none⟩ := by
  induction m generalizing s p with
  | nil =>
    have hrange : ∀ t ∈ List.range s.threads.length, t < s.threads.length :=
      fun t ht => List.mem_range.mp ht
    obtain ⟨s', hruns, hfree', hout, hdone, -, -⟩ := runs_order (u := fun t => t) (fun _ _ h => h)
      List.nodup_range h hfree (fun t ht => hat t (hrange t ht)) fun t ht => hwait t (hrange t ht)
    refine ⟨s', hruns, hfree', ?_, fun t ht => hdone t (List.mem_range.mpr ht)⟩
    rw [hout, List.append_right_inj, List.flatMap_eq_nil_iff]
    intro t ht
    rw [← htext t (hrange t ht)]
    rfl
  | cons q m ih =>
    obtain ⟨t, x⟩ := q
    have hlt : t < s.threads.length := hmem (t, x) (List.mem_cons_self ..)
    have htx := htext t hlt
    rw [own_cons_self] at htx
    obtain ⟨a, b, hab, ha, hb⟩ := (hone t).exists_split htx.symm
    have hmem_ab : ∀ st, st ∈ a ∨ st ∈ b → st ∈ p t := by
      intro st hst
      rw [hab]
      exact List.mem_append.mpr hst
    have hv := hat t hlt
    rw [hab, List.append_assoc] at hv
    have hops : ∀ l, .wait l ∈ a.flatMap Stmt.ops ∨ .wait l ∈ b.flatMap Stmt.ops →
        s.data.latches l = 0 := by
      intro l hl
      apply hwait t hlt l
      rw [hab, List.flatMap_append]
      exact List.mem_append.mpr hl
    obtain ⟨s₁, hleft, hfree₁⟩ := runs_code h hv hfree fun l hl => hops l (.inl hl)
    have hlen : s₁.threads.length = s.threads.length := by
      rw [hleft.threads, List.length_set]
    have hset : ∀ {P : List (Stmt ι α) → Nat → Prop}, P b t → (∀ u, u ≠ t → P (p u) u) →
        ∀ u, P (Function.update p t b u) u := by
      intro P hPt hP u
      by_cases hu : u = t
      · subst hu
        rw [Function.update_self]
        exact hPt
      · rw [Function.update_of_ne hu]
        exact hP u hu
    obtain ⟨s', hruns, hfree', hout, hdone⟩ := ih (p := Function.update p t b) (hleft.counted h)
      hfree₁
      (by
        rw [hlen]
        refine hset (P := fun c u => u < s.threads.length →
          s₁.threads[u]? = some ⟨c ++ r u, none⟩) (fun _ => hleft.get hv) ?_
        intro u hu hlt
        rw [hleft.threads, List.getElem?_set_ne (Ne.symm hu)]
        exact hat u hlt)
      (hset (P := fun c _ => OneAtATime c) (fun st hst => hone t st (hmem_ab st (.inr hst)))
        fun u _ => hone u)
      (by
        rw [hlen]
        refine hset (P := fun c u => u < s.threads.length → ∀ l, .wait l ∈ c.flatMap Stmt.ops →
          s₁.data.latches l = 0) (fun _ l hl => hleft.zero l (hops l (.inr hl))) ?_
        intro u _ hlt l hl
        exact hleft.zero l (hwait u hlt l hl))
      (by
        intro q hq
        rw [hlen]
        exact hmem q (List.mem_cons_of_mem _ hq))
      (by
        rw [hlen]
        refine hset (P := fun c u => u < s.threads.length →
          own u m = (c.flatMap Stmt.ops).flatMap Op.text) (fun _ => hb.symm) ?_
        intro u hu hlt
        rw [← htext u hlt, own_cons_other (Ne.symm hu)])
    refine ⟨s', hleft.runs.trans hruns, hfree', ?_, fun u hu => hdone u (hlen ▸ hu)⟩
    rw [hout, hleft.out, ha, List.append_assoc]
    rfl

end Lib.Latches
