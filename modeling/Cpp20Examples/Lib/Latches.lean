import Cpp20Examples.Lib.Threads
import Mathlib.Data.List.Flatten

/-!
# Latches

Threads that write, count latches down and wait for them, with one mutex for scopes of their
programs.  The programs have no branches: each is the list of what its thread is still to do.
The creation of a thread, `join`, and a promise with its futures are latches as well.

* `Ordered`, `progress`: no deadlock where every wait is for a latch that is counted down
  behind waits for smaller ones only; the mutex is one of those that are waited for.
* `run_length_le`: the runs are bounded.
* `released`, `exists_release`: who has waited for a latch has found it at zero, and there it stays.
* `written`: what each thread has written is the beginning of its text.
* `exists_at`: a thread that is beyond a point of its program was there before.
-/

namespace Lib.Latches

open Lib.Threads

/-- A step of a thread; `put` writes its elements at once. -/
inductive Op (ι α : Type)
  | put (xs : List α)
  | countDown (l : ι)
  | wait (l : ι)

/-- A statement: an operation, or a scope in which the thread owns the mutex. -/
inductive Stmt (ι α : Type)
  | op (o : Op ι α)
  | locked (body : List (Op ι α))

/-- What a thread is still to do, and what of it is in the scope where the thread is now. -/
structure Thread (ι α : Type) where
  rest : List (Stmt ι α)
  scope : Option (List (Op ι α)) := none

/-- The counters of the latches, the owner of the mutex, and what was written by whom. -/
structure Shared (ι α : Type) where
  latches : ι → Nat
  mutex : Option Nat := none
  out : List (Nat × α) := []

variable {ι α : Type}

/-! ### Texts -/

def Stmt.ops : Stmt ι α → List (Op ι α)
  | op o => [o]
  | locked body => body

/-- What the thread is still to do. -/
def Thread.ops (v : Thread ι α) : List (Op ι α) := v.scope.getD [] ++ v.rest.flatMap Stmt.ops

def Thread.finished (v : Thread ι α) : Bool := v.rest.isEmpty && v.scope.isNone

def Op.text : Op ι α → List α
  | put xs => xs
  | _ => []

/-- What the thread is still to write. -/
def Thread.text (v : Thread ι α) : List α := v.ops.flatMap Op.text

/-- What the thread `t` has written. -/
def own (t : Nat) (out : List (Nat × α)) : List α := (out.filter fun p => p.1 == t).map Prod.snd

variable {t u : Nat}

theorem own_append {β : Type} (t : Nat) (xs ys : List (Nat × β)) :
    own t (xs ++ ys) = own t xs ++ own t ys := by
  rw [own, List.filter_append, List.map_append]
  rfl

theorem own_cons_self {β : Type} (t : Nat) (x : β) (xs : List (Nat × β)) :
    own t ((t, x) :: xs) = x :: own t xs := by
  rw [own, List.filter_cons, if_pos (beq_self_eq_true t)]
  rfl

theorem own_cons_other {β : Type} (h : u ≠ t) (x : β) (xs : List (Nat × β)) :
    own t ((u, x) :: xs) = own t xs := by
  rw [own, List.filter_cons, if_neg (beq_iff_eq.not.mpr h)]
  rfl

theorem own_self {β : Type} (t : Nat) (xs : List β) : own t (xs.map fun x => (t, x)) = xs := by
  induction xs with
  | nil => rfl
  | cons x xs ih => rw [List.map_cons, own_cons_self, ih]

theorem own_other {β : Type} (h : u ≠ t) (xs : List β) : own u (xs.map fun x => (t, x)) = [] := by
  rw [own, List.filter_eq_nil_iff.mpr, List.map_nil]
  intro p hp
  obtain ⟨x, -, rfl⟩ := List.mem_map.mp hp
  exact beq_iff_eq.not.mpr h.symm

/-! ### Orders -/

/-- The order in which the latches and the mutex are waited for. -/
structure Ranks (ι : Type) where
  latch : ι → Nat
  mutex : Nat

variable {r : Ranks ι}

def Op.Before (r : Ranks ι) (o o' : Op ι α) : Prop :=
  ∀ l l', o = .wait l → o' = .countDown l' → r.latch l < r.latch l'

/-- The waits in scopes are for less than the mutex, what is counted down from there is more. -/
def ScopesOrdered (r : Ranks ι) : List (Stmt ι α) → Prop
  | [] => True
  | .op _ :: rest => ScopesOrdered r rest
  | .locked body :: rest =>
    (∀ l, .wait l ∈ body → r.latch l < r.mutex) ∧
      (∀ l, .countDown l ∈ body ++ rest.flatMap Stmt.ops → r.mutex < r.latch l) ∧
      ScopesOrdered r rest

/-- In front of counting a latch down the thread waits for less only. -/
structure Ordered (r : Ranks ι) (v : Thread ι α) : Prop where
  ops : v.ops.Pairwise (Op.Before r)
  scopes : ScopesOrdered r v.rest
  inside : ∀ body, v.scope = some body → ∀ l, .wait l ∈ body → r.latch l < r.mutex

/-- Waiting or counting down. -/
def Op.isSync : Op ι α → Bool
  | put _ => false
  | _ => true

theorem pairwise_before {os : List (Op ι α)} (h : (os.filter Op.isSync).Pairwise (Op.Before r)) :
    os.Pairwise (Op.Before r) := by
  rw [List.pairwise_filter] at h
  refine h.imp ?_
  rintro o o' hboth l l' rfl rfl
  exact hboth rfl rfl l l' rfl rfl

/-- The mutex comes before whatever is counted down, or there are no scopes. -/
theorem scopesOrdered_of {p : List (Stmt ι α)}
    (h : ∀ body, .locked body ∈ p → (∀ l, .wait l ∈ body → r.latch l < r.mutex) ∧
      ∀ l, .countDown l ∈ p.flatMap Stmt.ops → r.mutex < r.latch l) : ScopesOrdered r p := by
  induction p with
  | nil => trivial
  | cons st p ih =>
    have hrest : ScopesOrdered r p := by
      apply ih
      intro body hbody
      obtain ⟨hwait, hcount⟩ := h body (List.mem_cons_of_mem _ hbody)
      refine ⟨hwait, fun l hl => hcount l ?_⟩
      rw [List.flatMap_cons]
      exact List.mem_append_right _ hl
    cases st with
    | op o => exact hrest
    | locked body =>
      obtain ⟨hwait, hcount⟩ := h body (List.mem_cons_self ..)
      exact ⟨hwait, hcount, hrest⟩

/-! ### Steps -/

variable [DecidableEq ι]

/-- Nothing is defined where a latch is counted down below zero. -/
def Shared.perform (t : Nat) (d : Shared ι α) : Op ι α → Option (Shared ι α)
  | .put xs => some { d with out := d.out ++ xs.map fun x => (t, x) }
  | .countDown l =>
    if d.latches l = 0 then none
    else some { d with latches := Function.update d.latches l (d.latches l - 1) }
  | .wait l => if d.latches l = 0 then some d else none

/-- A step of the thread `t`. -/
def next : Next (Shared ι α) (Thread ι α) := fun t d v =>
  match v.scope, v.rest with
  | none, [] => none
  | none, .op o :: rest => (d.perform t o).map fun d' => (d', ⟨rest, none⟩)
  | none, .locked body :: rest =>
    if d.mutex = none then some ({ d with mutex := some t }, ⟨rest, some body⟩) else none
  | some (o :: body), rest => (d.perform t o).map fun d' => (d', ⟨rest, some body⟩)
  | some [], rest => some ({ d with mutex := none }, ⟨rest, none⟩)

/-- The system of these programs. -/
def system (latches : ι → Nat) (programs : List (List (Stmt ι α))) :
    System (State (Shared ι α) (Thread ι α)) Nat :=
  Threads.system next { latches } (programs.map fun p => { rest := p })

/-- A step of a thread. -/
inductive Step (t : Nat) (d : Shared ι α) : Thread ι α → Shared ι α → Thread ι α → Prop
  | outside {o rest d'} (h : d.perform t o = some d') :
      Step t d ⟨.op o :: rest, none⟩ d' ⟨rest, none⟩
  | inside {o rest body d'} (h : d.perform t o = some d') :
      Step t d ⟨rest, some (o :: body)⟩ d' ⟨rest, some body⟩
  | lock {rest body} (hfree : d.mutex = none) :
      Step t d ⟨.locked body :: rest, none⟩ { d with mutex := some t } ⟨rest, some body⟩
  | unlock {rest} : Step t d ⟨rest, some []⟩ { d with mutex := none } ⟨rest, none⟩

theorem step_of {t : Nat} {d d' : Shared ι α} {v v' : Thread ι α}
    (h : next t d v = some (d', v')) : Step t d v d' v' := by
  obtain ⟨rest, scope⟩ := v
  cases scope with
  | none =>
    cases rest with
    | nil => cases h
    | cons st rest =>
      cases st with
      | op o =>
        obtain ⟨d₁, hd, heq⟩ := Option.map_eq_some_iff.mp h
        cases heq
        exact .outside hd
      | locked body =>
        rcases Option.ite_none_right_eq_some.mp h with ⟨hfree, heq⟩
        cases heq
        exact .lock hfree
  | some body =>
    cases body with
    | nil =>
      cases h
      exact .unlock
    | cons o body =>
      obtain ⟨d₁, hd, heq⟩ := Option.map_eq_some_iff.mp h
      cases heq
      exact .inside hd

variable {l : ι} {d d' : Shared ι α} {v v' w : Thread ι α}

theorem perform_frame {o : Op ι α} (h : d.perform t o = some d') :
    d'.mutex = d.mutex ∧ d'.out = d.out ++ o.text.map fun x => (t, x) := by
  cases o with
  | put xs =>
    cases h
    exact ⟨rfl, rfl⟩
  | countDown l =>
    obtain ⟨-, h⟩ := Option.ite_none_left_eq_some.mp h
    cases h
    exact ⟨rfl, (List.append_nil _).symm⟩
  | wait l =>
    obtain ⟨-, h⟩ := Option.ite_none_right_eq_some.mp h
    cases h
    exact ⟨rfl, (List.append_nil _).symm⟩

theorem perform_mutex {o : Op ι α} (h : d.perform t o = some d') : d'.mutex = d.mutex :=
  (perform_frame h).1

theorem perform_out {o : Op ι α} (h : d.perform t o = some d') :
    d'.out = d.out ++ o.text.map fun x => (t, x) :=
  (perform_frame h).2

/-- **A step performs the next operation**, or locks or unlocks the mutex. -/
theorem Step.ops (h : Step t d v d' v') :
    (∃ o, v.ops = o :: v'.ops ∧ d.perform t o = some d') ∨
      (v'.ops = v.ops ∧ d'.latches = d.latches ∧ d'.out = d.out) := by
  cases h with
  | outside h => exact .inl ⟨_, rfl, h⟩
  | inside h => exact .inl ⟨_, rfl, h⟩
  | lock hfree => exact .inr ⟨rfl, rfl, rfl⟩
  | unlock => exact .inr ⟨rfl, rfl, rfl⟩

/-- The mutex of the scopes. -/
def mutex : Threads.Mutex (Shared ι α) (Thread ι α) := ⟨Shared.mutex, fun v => v.scope.isSome⟩

theorem mutex_respected : (mutex (ι := ι) (α := α)).Respected next where
  step := by
    intro t d v d' v' h
    cases step_of h with
    | outside hd => exact .inl ⟨rfl, perform_mutex hd⟩
    | inside hd => exact .inl ⟨rfl, perform_mutex hd⟩
    | lock hfree => exact .inr (.inl ⟨rfl, hfree, rfl, rfl⟩)
    | unlock => exact .inr (.inr ⟨rfl, rfl, rfl⟩)

/-! ### Bounded runs -/

def Stmt.size : Stmt ι α → Nat
  | op _ => 1
  | locked body => body.length + 2

/-- The steps that the thread is still to take. -/
def Thread.left (v : Thread ι α) : Nat :=
  (match v.scope with
    | some body => body.length + 1
    | none => 0) + (v.rest.map Stmt.size).sum

theorem Step.left_lt (h : Step t d v d' v') : v'.left < v.left := by
  cases h <;> simp only [Thread.left, List.map_cons, List.sum_cons, Stmt.size, List.length_cons,
    List.length_nil] <;> omega

theorem run_length_le {data : Shared ι α} {threads : List (Thread ι α)}
    {s s' : State (Shared ι α) (Thread ι α)} {as : List Nat}
    (h : (Threads.system next data threads).run s as = some s') :
    as.length ≤ (s.threads.map Thread.left).sum :=
  Threads.run_length_le (fun _ _ _ _ _ h => (step_of h).left_lt) h

/-! ### Latches that are counted down -/

def Op.counts (l : ι) : Op ι α → Bool
  | countDown l' => l' == l
  | _ => false

/-- How often the thread is still to count `l` down. -/
def Thread.counts (l : ι) (v : Thread ι α) : Nat := v.ops.countP (Op.counts l)

/-- Each latch is counted down to zero by what the threads are still to do. -/
def Counted (s : State (Shared ι α) (Thread ι α)) : Prop :=
  ∀ l, s.data.latches l = (s.threads.map (Thread.counts l)).sum

theorem perform_latches {o : Op ι α} (h : d.perform t o = some d') (l : ι) :
    d.latches l = d'.latches l + (o.counts l).toNat := by
  cases o with
  | put xs =>
    cases h
    rfl
  | countDown l' =>
    obtain ⟨hpos, heq⟩ := Option.ite_none_left_eq_some.mp h
    cases heq
    show d.latches l = Function.update d.latches l' (d.latches l' - 1) l + (l' == l).toNat
    by_cases hl : l' = l
    · subst hl
      rw [Function.update_self, beq_self_eq_true, Bool.toNat_true]
      omega
    · rw [Function.update_of_ne (Ne.symm hl), beq_eq_false_iff_ne.mpr hl]
      rfl
  | wait l' =>
    obtain ⟨-, heq⟩ := Option.ite_none_right_eq_some.mp h
    cases heq
    rfl

theorem Step.latches (h : Step t d v d' v') (l : ι) :
    d'.latches l + v.counts l = d.latches l + v'.counts l := by
  rcases h.ops with ⟨o, hops, hd⟩ | ⟨hops, hlatches, -⟩
  · have hl := perform_latches hd l
    have hcounts : v.counts l = v'.counts l + (o.counts l).toNat := by
      rw [Thread.counts, hops, List.countP_cons, Thread.counts]
      cases o.counts l <;> rfl
    omega
  · rw [Thread.counts, Thread.counts, hops, hlatches]

section Runs

variable {data : Shared ι α} {threads : List (Thread ι α)} {s s' : State (Shared ι α) (Thread ι α)}
  {ok : State (Shared ι α) (Thread ι α) → Nat → Prop}

theorem counted (h0 : Counted ⟨data, threads⟩)
    (hs : (Threads.system next data threads).ReachableBy ok s) : Counted s := by
  intro l
  induction hs with
  | init => exact h0 l
  | @step s s' t hs hok hst ih =>
    obtain ⟨v, d, v', hv, hnext, rfl⟩ := step_cases hst
    obtain ⟨r, hr, hset⟩ := exists_rest (Thread.counts l) hv
    have hl := (step_of hnext).latches l
    rw [hset]
    rw [hr] at ih
    show d.latches l = v'.counts l + r
    omega

theorem Counted.exists_counts (h : Counted s) (hl : s.data.latches l ≠ 0) :
    ∃ (t : Nat) (v : Thread ι α), s.threads[t]? = some v ∧ .countDown l ∈ v.ops := by
  by_contra hnone
  apply hl
  rw [h l]
  apply List.sum_eq_zero
  intro c hc
  obtain ⟨v, hv, rfl⟩ := List.mem_map.mp hc
  obtain ⟨t, ht⟩ := List.mem_iff_getElem?.mp hv
  rw [Thread.counts, List.countP_eq_zero]
  intro o ho hcounts
  cases o with
  | countDown l' =>
    obtain rfl := beq_iff_eq.mp hcounts
    exact hnone ⟨t, v, ht, ho⟩
  | put xs => cases hcounts
  | wait l' => cases hcounts

theorem Counted.not_mem (h : Counted s) (hl : s.data.latches l = 0) (hv : s.threads[t]? = some v) :
    .countDown l ∉ v.ops := by
  intro hmem
  have hpos : 0 < v.counts l := List.countP_pos_iff.mpr ⟨_, hmem, beq_self_eq_true l⟩
  obtain ⟨r, hr, -⟩ := exists_rest (Thread.counts l) hv
  rw [h l, hr] at hl
  omega

theorem Step.latches_zero (h : Step t d v d' v') (hzero : d.latches l = 0) : d'.latches l = 0 := by
  rcases h.ops with ⟨o, -, hd⟩ | ⟨-, hlatches, -⟩
  · have hl := perform_latches hd l
    omega
  · rw [hlatches, hzero]

theorem latches_zero (hs : (Threads.system next data threads).ReachableBy ok s)
    (hzero : data.latches l = 0) : s.data.latches l = 0 := by
  induction hs with
  | init => exact hzero
  | step _ _ hst ih =>
    obtain ⟨v, d, v', hv, hnext, rfl⟩ := step_cases hst
    exact (step_of hnext).latches_zero ih

theorem length_threads (hs : (Threads.system next data threads).ReachableBy ok s) :
    s.threads.length = threads.length := by
  induction hs with
  | init => rfl
  | step _ _ hst ih =>
    obtain ⟨v, d, v', hv, hnext, rfl⟩ := step_cases hst
    rw [List.length_set, ih]

/-- **Released.**  A thread that has waited for a latch has found it at zero, and it is there. -/
theorem released (hs : (Threads.system next data threads).ReachableBy ok s)
    (hv : s.threads[t]? = some v) (hw : threads[t]? = some w) (hwait : .wait l ∈ w.ops) :
    .wait l ∈ v.ops ∨ s.data.latches l = 0 := by
  have hall := (Threads.invariant (I := fun _ => True)
    (L := fun t d v => ∀ w, threads[t]? = some w → .wait l ∈ w.ops →
      .wait l ∈ v.ops ∨ d.latches l = 0) trivial ?_ ?_ hs).2
  · exact hall t v hv w hw hwait
  · intro t v hv w hw hwait
    obtain rfl := Option.some.inj (hv.symm.trans hw)
    exact .inl hwait
  · intro s t v d v' _ _ _ hL _ hnext
    have hstep := step_of hnext
    refine ⟨trivial, ?_, ?_⟩
    · intro w hw hwait
      rcases hL w hw hwait with hmem | hzero
      · rcases hstep.ops with ⟨o, hops, hd⟩ | ⟨hops, -⟩
        · rw [hops] at hmem
          rcases List.mem_cons.mp hmem with rfl | hmem
          · right
            obtain ⟨hzero, heq⟩ := Option.ite_none_right_eq_some.mp hd
            cases heq
            exact hzero
          · exact .inl hmem
        · exact .inl (hops ▸ hmem)
      · exact .inr (hstep.latches_zero hzero)
    · intro u w _ _ hu w' hw' hwait
      exact (hu w' hw' hwait).imp_right hstep.latches_zero

/-- **The moment of the release.**  When a latch gets to zero, nobody has waited for it. -/
theorem exists_release (hs : (Threads.system next data threads).Reachable s)
    (hne : data.latches l ≠ 0) (hzero : s.data.latches l = 0) :
    ∃ s₁, (Threads.system next data threads).Reachable s₁ ∧ s₁.data.latches l = 0 ∧
      (∀ (t : Nat) (v w : Thread ι α), s₁.threads[t]? = some v → threads[t]? = some w →
        .wait l ∈ w.ops → .wait l ∈ v.ops) ∧
      (Threads.system next s₁.data s₁.threads).Reachable s := by
  induction hs with
  | init => exact absurd hzero hne
  | @step s s' t hs hok hst ih =>
    by_cases hl : s.data.latches l = 0
    · obtain ⟨s₁, hs₁, hzero₁, hwaits, hreach⟩ := ih hl
      exact ⟨s₁, hs₁, hzero₁, hwaits, .step hreach trivial hst⟩
    · refine ⟨s', .step hs trivial hst, hzero, ?_, .init⟩
      intro u v w hv hw hwait
      have hbefore : ∀ x : Thread ι α, s.threads[u]? = some x → .wait l ∈ x.ops :=
        fun x hx => (released hs hx hw hwait).resolve_right hl
      obtain ⟨x, d, x', hx, hnext, rfl⟩ := step_cases hst
      rcases getElem?_set_cases hv with ⟨rfl, rfl⟩ | ⟨-, hu⟩
      · rcases (step_of hnext).ops with ⟨o, hops, hd⟩ | ⟨hops, -⟩
        · have hmem := hbefore x hx
          rw [hops] at hmem
          rcases List.mem_cons.mp hmem with rfl | hmem
          · exact absurd (Option.ite_none_right_eq_some.mp hd).1 hl
          · exact hmem
        · rw [hops]
          exact hbefore x hx
      · exact hbefore v hu

end Runs

/-! ### Progress -/

theorem Step.ordered (h : Step t d v d' v') (hv : Ordered r v) : Ordered r v' := by
  have hops : v'.ops.Pairwise (Op.Before r) := by
    rcases h.ops with ⟨o, hops, -⟩ | ⟨hops, -⟩
    · have hall := hv.ops
      rw [hops] at hall
      exact hall.of_cons
    · exact hops ▸ hv.ops
  cases h with
  | outside hd => exact ⟨hops, hv.scopes, nofun⟩
  | inside hd =>
    refine ⟨hops, hv.scopes, ?_⟩
    intro body hbody l hl
    cases hbody
    exact hv.inside _ rfl l (List.mem_cons_of_mem _ hl)
  | lock hfree =>
    refine ⟨hops, hv.scopes.2.2, ?_⟩
    intro body hbody l hl
    cases hbody
    exact hv.scopes.1 l hl
  | unlock => exact ⟨hops, hv.scopes, nofun⟩

section Runs

variable {data : Shared ι α} {threads : List (Thread ι α)} {s s' : State (Shared ι α) (Thread ι α)}
  {ok : State (Shared ι α) (Thread ι α) → Nat → Prop}

theorem ordered (h0 : ∀ v ∈ threads, Ordered r v)
    (hs : (Threads.system next data threads).ReachableBy ok s) (hv : s.threads[t]? = some v) :
    Ordered r v := by
  refine (Threads.invariant (I := fun _ => True) (L := fun _ _ v => Ordered r v) trivial ?_ ?_
    hs).2 t v hv
  · intro t v hv
    exact h0 v (List.mem_of_getElem? hv)
  · intro s t v d v' _ _ _ hL _ hnext
    exact ⟨trivial, (step_of hnext).ordered hL, fun _ _ _ _ hu => hu⟩

/-- What a thread may be waiting for. -/
inductive Waits (d : Shared ι α) : Thread ι α → Prop
  | latch {l rest} (hl : d.latches l ≠ 0) : Waits d ⟨.op (.wait l) :: rest, none⟩
  | inside {l rest body} (hl : d.latches l ≠ 0) : Waits d ⟨rest, some (.wait l :: body)⟩
  | mutex {body rest u} (howner : d.mutex = some u) : Waits d ⟨.locked body :: rest, none⟩

theorem perform_isSome (h : Counted s) (hv : s.threads[t]? = some v) {o : Op ι α} (ho : o ∈ v.ops)
    (hwait : ∀ l, o = .wait l → s.data.latches l = 0) : (s.data.perform t o).isSome = true := by
  cases o with
  | put xs => rfl
  | countDown l =>
    have hl : s.data.latches l ≠ 0 := fun hl => h.not_mem hl hv ho
    rw [Shared.perform, if_neg hl]
    rfl
  | wait l =>
    rw [Shared.perform, if_pos (hwait l rfl)]
    rfl

theorem performs_or_waits (h : Counted s) (hv : s.threads[t]? = some v) {o : Op ι α}
    (ho : o ∈ v.ops) :
    (s.data.perform t o).isSome = true ∨ ∃ l, o = .wait l ∧ s.data.latches l ≠ 0 := by
  by_cases hwait : ∀ l, o = .wait l → s.data.latches l = 0
  · exact .inl (perform_isSome h hv ho hwait)
  · push Not at hwait
    exact .inr hwait

theorem finished_or_moves_or_waits (h : Counted s) (hv : s.threads[t]? = some v) :
    v.finished = true ∨ (next t s.data v).isSome = true ∨ Waits s.data v := by
  obtain ⟨rest, scope⟩ := v
  cases scope with
  | none =>
    cases rest with
    | nil => exact .inl rfl
    | cons st rest =>
      cases st with
      | op o =>
        rcases performs_or_waits h hv (List.mem_cons_self ..) with hsome | ⟨l, rfl, hl⟩
        · right
          left
          rw [next, Option.isSome_map]
          exact hsome
        · exact .inr (.inr (.latch hl))
      | locked body =>
        cases howner : s.data.mutex with
        | none =>
          right
          left
          simp only [next, howner, if_true, Option.isSome_some]
        | some u => exact .inr (.inr (.mutex howner))
  | some body =>
    cases body with
    | nil => exact .inr (.inl rfl)
    | cons o body =>
      rcases performs_or_waits h hv (List.mem_cons_self ..) with hsome | ⟨l, rfl, hl⟩
      · right
        left
        rw [next, Option.isSome_map]
        exact hsome
      · exact .inr (.inr (.inside hl))

/-- Behind whatever somebody waits for, there is a thread that can move. -/
theorem exists_step_of_rank (data : Shared ι α) (threads : List (Thread ι α)) (hcounted : Counted s)
    (hordered : ∀ (t : Nat) (v : Thread ι α), s.threads[t]? = some v → Ordered r v)
    (howned : ∀ u, s.data.mutex = some u → ∃ v : Thread ι α, s.threads[u]? = some v ∧
      v.scope.isSome = true) (k : Nat) :
    (∀ l, r.latch l = k → s.data.latches l ≠ 0 →
      ∃ t s', (Threads.system next data threads).step s t = some s') ∧
    (r.mutex = k → ∀ u, s.data.mutex = some u →
      ∃ t s', (Threads.system next data threads).step s t = some s') := by
  induction k using Nat.strongRecOn with
  | ind k ih =>
    constructor
    · rintro l rfl hl
      obtain ⟨t, v, hv, hmem⟩ := hcounted.exists_counts hl
      have hord := hordered t v hv
      rcases finished_or_moves_or_waits hcounted hv with hfin | hmoves | hwaits
      · obtain ⟨rest, scope⟩ := v
        simp only [Thread.finished, Bool.and_eq_true, List.isEmpty_iff, Option.isNone_iff_eq_none]
          at hfin
        obtain ⟨rfl, rfl⟩ := hfin
        cases hmem
      · obtain ⟨s', hst⟩ := exists_step hv hmoves
        exact ⟨t, s', hst⟩
      · cases hwaits with
        | latch hl' =>
          rcases List.mem_cons.mp hmem with heq | hmem
          · cases heq
          · have hlt := (List.pairwise_cons.mp hord.ops).1 _ hmem _ _ rfl rfl
            exact (ih _ hlt).1 _ rfl hl'
        | inside hl' =>
          rcases List.mem_cons.mp hmem with heq | hmem
          · cases heq
          · have hlt := (List.pairwise_cons.mp hord.ops).1 _ hmem _ _ rfl rfl
            exact (ih _ hlt).1 _ rfl hl'
        | mutex howner =>
          exact (ih _ (hord.scopes.2.1 l hmem)).2 rfl _ howner
    · rintro rfl u howner
      obtain ⟨v, hv, hinside⟩ := howned u howner
      have hord := hordered u v hv
      rcases finished_or_moves_or_waits hcounted hv with hfin | hmoves | hwaits
      · rw [Thread.finished, Bool.and_eq_true, Option.isNone_iff_eq_none] at hfin
        rw [hfin.2] at hinside
        cases hinside
      · obtain ⟨s', hst⟩ := exists_step hv hmoves
        exact ⟨u, s', hst⟩
      · cases hwaits with
        | latch hl' => cases hinside
        | inside hl' =>
          exact (ih _ (hord.inside _ rfl _ (List.mem_cons_self ..))).1 _ rfl hl'
        | mutex howner' => cases hinside

/-- **No deadlock.**  Until all threads have finished, one of them can move. -/
theorem progress (h0 : Counted ⟨data, threads⟩) (hordered : ∀ v ∈ threads, Ordered r v)
    (hfree : data.mutex = none) (houtside : ∀ v ∈ threads, v.scope.isSome = false)
    (hs : (Threads.system next data threads).ReachableBy ok s) :
    (∀ v ∈ s.threads, v.finished = true) ∨
      ∃ t s', (Threads.system next data threads).step s t = some s' := by
  have hcounted := counted h0 hs
  have howned : ∀ u, s.data.mutex = some u → ∃ v : Thread ι α, s.threads[u]? = some v ∧
      v.scope.isSome = true := by
    intro u howner
    have hlt := mutex.owner_lt mutex_respected hfree hs howner
    have hget := List.getElem?_eq_getElem hlt
    exact ⟨_, hget, (mutex.owned mutex_respected hfree houtside hs hget).mpr howner⟩
  have hrank := exists_step_of_rank data threads hcounted
    (fun t v hv => ordered hordered hs hv) howned
  by_cases hall : ∀ v ∈ s.threads, v.finished = true
  · exact .inl hall
  · right
    push Not at hall
    obtain ⟨v, hmem, hfin⟩ := hall
    obtain ⟨t, hv⟩ := List.mem_iff_getElem?.mp hmem
    rcases finished_or_moves_or_waits hcounted hv with hfin' | hmoves | hwaits
    · exact absurd hfin' hfin
    · obtain ⟨s', hst⟩ := exists_step hv hmoves
      exact ⟨t, s', hst⟩
    · cases hwaits with
      | latch hl => exact (hrank _).1 _ rfl hl
      | inside hl => exact (hrank _).1 _ rfl hl
      | mutex howner => exact (hrank _).2 rfl _ howner

end Runs

/-! ### What is written -/

section Runs

variable {data : Shared ι α} {threads : List (Thread ι α)} {s s' : State (Shared ι α) (Thread ι α)}
  {ok : State (Shared ι α) (Thread ι α) → Nat → Prop}

theorem Step.out (h : Step t d v d' v') :
    ∃ xs, d'.out = d.out ++ xs.map (fun x => (t, x)) ∧ v.text = xs ++ v'.text := by
  rcases h.ops with ⟨o, hops, hd⟩ | ⟨hops, -, hout⟩
  · refine ⟨o.text, perform_out hd, ?_⟩
    rw [Thread.text, hops, List.flatMap_cons, Thread.text]
  · refine ⟨[], ?_, ?_⟩
    · rw [hout, List.map_nil, List.append_nil]
    · rw [Thread.text, Thread.text, hops, List.nil_append]

theorem exists_out (hs : (Threads.system next data threads).ReachableBy ok s) :
    ∃ m, s.data.out = data.out ++ m ∧ ∀ q ∈ m, q.1 < threads.length := by
  induction hs with
  | init => exact ⟨[], (List.append_nil _).symm, nofun⟩
  | @step s s' t hs hok hst ih =>
    obtain ⟨m, hm, hlt⟩ := ih
    obtain ⟨v, d, v', hv, hnext, rfl⟩ := step_cases hst
    obtain ⟨xs, hout, -⟩ := (step_of hnext).out
    refine ⟨m ++ xs.map fun x => (t, x), ?_, ?_⟩
    · rw [hout, hm, List.append_assoc]
    · intro q hq
      rcases List.mem_append.mp hq with hq | hq
      · exact hlt q hq
      · obtain ⟨x, -, rfl⟩ := List.mem_map.mp hq
        rw [← length_threads hs]
        exact (List.getElem?_eq_some_iff.mp hv).1

/-- **Written.**  What a thread has written and is still to write is its text. -/
theorem written (hs : (Threads.system next data threads).ReachableBy ok s)
    (hv : s.threads[t]? = some v) (hw : threads[t]? = some w) :
    own t s.data.out ++ v.text = own t data.out ++ w.text := by
  have hall := (Threads.invariant (I := fun _ => True)
    (L := fun t d v => ∀ w, threads[t]? = some w →
      own t d.out ++ v.text = own t data.out ++ w.text) trivial ?_ ?_ hs).2
  · exact hall t v hv w hw
  · intro t v hv w hw
    obtain rfl := Option.some.inj (hv.symm.trans hw)
    rfl
  · intro s t v d v' _ _ _ hL _ hnext
    obtain ⟨xs, hout, htext⟩ := (step_of hnext).out
    refine ⟨trivial, ?_, ?_⟩
    · intro w hw
      rw [hout, own_append, own_self, List.append_assoc, ← htext]
      exact hL w hw
    · intro u w hne _ hu w' hw'
      rw [hout, own_append, own_other hne, List.append_nil]
      exact hu w' hw'

end Runs

/-! ### Where a thread is -/

/-- Where the thread of a program can be: in front of a statement, or in a scope. -/
inductive At (p : List (Stmt ι α)) : Thread ι α → Prop
  | outside (k : Nat) : At p ⟨p.drop k, none⟩
  | inside {k body rest} (h : p.drop k = .locked body :: rest) (j : Nat) :
      At p ⟨rest, some (body.drop j)⟩

theorem Step.at_ {p : List (Stmt ι α)} (h : Step t d v d' v') (hv : At p v) : At p v' := by
  have hdrop : ∀ {k st rest}, p.drop k = st :: rest → p.drop (k + 1) = rest := by
    intro k st rest hk
    rw [← List.drop_drop, hk, List.drop_one, List.tail_cons]
  cases hv with
  | outside k =>
    generalize hk : p.drop k = rest at h
    cases h with
    | outside hd =>
      rw [← hdrop hk]
      exact .outside _
    | lock hfree => exact .inside hk 0
  | @inside k body rest hk j =>
    generalize hj : body.drop j = left at h
    cases h with
    | @inside o rest left d' hd =>
      have hj' : body.drop (j + 1) = left := by
        rw [← List.drop_drop, hj, List.drop_one, List.tail_cons]
      rw [← hj']
      exact .inside hk _
    | unlock =>
      rw [← hdrop hk]
      exact .outside _

theorem Step.rest_length (h : Step t d v d' v') : v'.rest.length = v.rest.length ∨
    (v'.rest.length + 1 = v.rest.length ∧ v.scope = none) := by
  cases h with
  | outside hd => exact .inr ⟨rfl, rfl⟩
  | inside hd => exact .inl rfl
  | lock hfree => exact .inr ⟨rfl, rfl⟩
  | unlock => exact .inl rfl

section Runs

variable {data : Shared ι α} {threads : List (Thread ι α)} {s s' : State (Shared ι α) (Thread ι α)}
  {ok : State (Shared ι α) (Thread ι α) → Nat → Prop}

theorem at_ {p : List (Stmt ι α)} (hs : (Threads.system next data threads).ReachableBy ok s)
    (hw : threads[t]? = some ⟨p, none⟩) (hv : s.threads[t]? = some v) : At p v := by
  refine (Threads.invariant (I := fun _ => True) (L := fun u _ v => u = t → At p v) trivial ?_ ?_
    hs).2 t v hv rfl
  · rintro u v' hv' rfl
    obtain rfl := Option.some.inj (hw.symm.trans hv')
    exact .outside 0
  · intro s u v d v' _ _ _ hL _ hnext
    exact ⟨trivial, fun hu => (step_of hnext).at_ (hL hu), fun _ _ _ _ hw => hw⟩

/-- **A point on the way.**  A thread that is beyond a point of its program was there before. -/
theorem exists_at {p q : List (Stmt ι α)} (hs : (Threads.system next data threads).Reachable s)
    (hw : threads[t]? = some ⟨p ++ q, none⟩) (hv : s.threads[t]? = some v)
    (hbeyond : v.rest.length < q.length) :
    ∃ s₁, (Threads.system next data threads).Reachable s₁ ∧ s₁.threads[t]? = some ⟨q, none⟩ ∧
      (Threads.system next s₁.data s₁.threads).Reachable s := by
  induction hs generalizing v with
  | init =>
    obtain rfl := Option.some.inj (hw.symm.trans hv)
    rw [List.length_append] at hbeyond
    omega
  | @step s s' u hs hok hst ih =>
    obtain ⟨x, d, x', hx, hnext, rfl⟩ := step_cases hst
    rcases getElem?_set_cases hv with ⟨rfl, rfl⟩ | ⟨-, hv'⟩
    · by_cases hlen : x.rest.length < q.length
      · obtain ⟨s₁, hs₁, hq, hreach⟩ := ih hx hlen
        exact ⟨s₁, hs₁, hq, .step hreach trivial hst⟩
      · refine ⟨s, hs, ?_, .step .init trivial hst⟩
        rcases (step_of hnext).rest_length with hsame | ⟨hlen', hnone⟩
        · omega
        · cases at_ hs hw hx with
          | outside k =>
            rw [List.length_drop, List.length_append] at hlen hlen'
            obtain rfl : k = p.length := by omega
            rw [List.drop_left] at hx
            exact hx
          | inside hk j => cases hnone
    · obtain ⟨s₁, hs₁, hq, hreach⟩ := ih hv' hbeyond
      exact ⟨s₁, hs₁, hq, .step hreach trivial hst⟩

end Runs

end Lib.Latches
