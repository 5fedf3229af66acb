import Cpp20Examples.Lib.System
import Mathlib.Algebra.GroupWithZero.Nat

/-!
# Threads and their local states

A thread is its local state: where it is in its program, with its local variables.
`next t d v` is what the thread `t` makes of the shared data `d` and its local state
`v` in one step, or `none` when it cannot take one.  One step of the system is one
step of one thread.

* `invariant`: an invariant of the shared data with one of each thread, which the
  steps of the others do not disturb.
* `conserved`: a quantity of the shared data and the threads that no step changes.
* `run_length_le`: when each step uses up something of its thread, the runs are bounded.
* `Mutex.owned`: a mutex is owned by the thread that is inside a section.
* `Mutex.progress`: a thread can move, or all have finished.
-/

namespace Lib.Threads

structure State (σ ℓ : Type) where
  data : σ
  threads : List ℓ

abbrev Next (σ ℓ : Type) := Nat → σ → ℓ → Option (σ × ℓ)

/-- The system of the threads `threads` on the data `data`; an action is the number of
the thread that moves. -/
def system {σ ℓ : Type} (next : Next σ ℓ) (data : σ) (threads : List ℓ) :
    System (State σ ℓ) Nat where
  init := ⟨data, threads⟩
  step s t := s.threads[t]?.bind fun v =>
    (next t s.data v).map fun r => ⟨r.1, s.threads.set t r.2⟩

variable {σ ℓ : Type} {next : Next σ ℓ} {data : σ} {threads : List ℓ}
  {ok : State σ ℓ → Nat → Prop} {s s' : State σ ℓ} {t : Nat}

theorem step_cases (h : (system next data threads).step s t = some s') :
    ∃ v d v', s.threads[t]? = some v ∧ next t s.data v = some (d, v') ∧
      s' = ⟨d, s.threads.set t v'⟩ := by
  obtain ⟨v, hv, h⟩ := Option.bind_eq_some_iff.mp h
  obtain ⟨⟨d, v'⟩, hnext, rfl⟩ := Option.map_eq_some_iff.mp h
  exact ⟨v, d, v', hv, hnext, rfl⟩

/-- **Invariants of the threads.**  `I` is about the shared data, `L t` about a thread
`t`.  A thread that moves keeps `I` and its own, and the one of each other thread. -/
theorem invariant {I : σ → Prop} {L : Nat → σ → ℓ → Prop} (h0 : I data)
    (hlocal : ∀ t v, threads[t]? = some v → L t data v)
    (hstep : ∀ s t v d v', (system next data threads).ReachableBy ok s → ok s t → I s.data →
      L t s.data v → s.threads[t]? = some v → next t s.data v = some (d, v') →
      I d ∧ L t d v' ∧ ∀ u w, u ≠ t → s.threads[u]? = some w → L u s.data w → L u d w)
    (hs : (system next data threads).ReachableBy ok s) :
    I s.data ∧ ∀ t v, s.threads[t]? = some v → L t s.data v := by
  induction hs with
  | init => exact ⟨h0, hlocal⟩
  | @step s s' t hs hok hst ih =>
    obtain ⟨v, d, v', hv, hnext, rfl⟩ := step_cases hst
    obtain ⟨hI, hL, hothers⟩ := hstep s t v d v' hs hok ih.1 (ih.2 t v hv) hv hnext
    refine ⟨hI, ?_⟩
    intro u w hw
    rcases getElem?_set_cases hw with ⟨rfl, rfl⟩ | ⟨hne, hw⟩
    · exact hL
    · exact hothers u w hne hw (ih.2 u w hw)

theorem exists_step {v : ℓ} (hv : s.threads[t]? = some v) (h : (next t s.data v).isSome = true) :
    ∃ s', (system next data threads).step s t = some s' := by
  obtain ⟨r, hr⟩ := Option.isSome_iff_exists.mp h
  exact ⟨⟨r.1, s.threads.set t r.2⟩, by simp [system, hv, hr]⟩

theorem map_set_of_eq {α : Type} {f : ℓ → α} {l : List ℓ} {v v' : ℓ} (hv : l[t]? = some v)
    (hf : f v' = f v) : (l.set t v').map f = l.map f := by
  obtain ⟨hlt, rfl⟩ := List.getElem?_eq_some_iff.mp hv
  have hlt' : t < (l.map f).length := by simpa using hlt
  calc
    _ = (l.map f).set t (l.map f)[t] := by rw [List.map_set, hf, List.getElem_map]
    _ = l.map f := List.set_getElem_self hlt'

/-! ### What the threads have together -/

section Sums

variable {M : Type} [AddCommMonoid M]

/-- **What no step changes**: a quantity `f` of the shared data and `w` of each thread. -/
theorem conserved {f : σ → M} {w : ℓ → M}
    (hstep : ∀ s t v d v', (system next data threads).ReachableBy ok s → ok s t →
      s.threads[t]? = some v → next t s.data v = some (d, v') → f d + w v' = f s.data + w v)
    (hs : (system next data threads).ReachableBy ok s) :
    f s.data + (s.threads.map w).sum = f data + (threads.map w).sum := by
  induction hs with
  | init => rfl
  | @step s s' t hs hok hst ih =>
    obtain ⟨v, d, v', hv, hnext, rfl⟩ := step_cases hst
    obtain ⟨r, hr, hset⟩ := exists_rest w hv
    rw [← ih, hr, hset, ← add_assoc, hstep s t v d v' hs hok hv hnext, add_assoc]

end Sums

theorem countP_set {p : ℓ → Bool} {l : List ℓ} {v : ℓ} (hv : l[t]? = some v) (v' : ℓ) :
    (l.set t v').countP p + (p v).toNat = l.countP p + (p v').toNat := by
  have hcountP : ∀ l : List ℓ, l.countP p = (l.map fun v => (p v).toNat).sum := by
    intro l
    induction l with
    | nil => rfl
    | cons x l ih =>
      rw [List.countP_cons, List.map_cons, List.sum_cons, ih, add_comm]
      cases p x <;> rfl
  obtain ⟨r, hr, hset⟩ := exists_rest (fun v => (p v).toNat) hv
  rw [hcountP, hcountP, hr, hset]
  omega

/-- **Each step uses up what its thread has left.** -/
theorem run_length_le {left : ℓ → Nat}
    (hleft : ∀ t d v d' v', next t d v = some (d', v') → left v' < left v) {as : List Nat}
    (h : (system next data threads).run s as = some s') :
    as.length ≤ (s.threads.map left).sum := by
  refine System.length_le_of_bound (B := fun n s => (s.threads.map left).sum = n) ?_ rfl h
  rintro n s t s' rfl hst
  obtain ⟨v, d, v', hv, hnext, rfl⟩ := step_cases hst
  obtain ⟨r, hr, hset⟩ := exists_rest left hv
  have hlt := hleft _ _ _ _ _ hnext
  refine ⟨left v' + r, ?_, hset v'⟩
  rw [hr]
  omega

/-! ### A mutex -/

/-- A mutex: who owns it, and where a thread is inside a section. -/
structure Mutex (σ ℓ : Type) where
  owner : σ → Option Nat
  inside : ℓ → Bool

namespace Mutex

variable {m : Mutex σ ℓ}

/-- A step locks the mutex, unlocks it, or leaves it as it is. -/
structure Respected (m : Mutex σ ℓ) (next : Next σ ℓ) : Prop where
  step : ∀ {t d v d' v'}, next t d v = some (d', v') →
    (m.inside v' = m.inside v ∧ m.owner d' = m.owner d) ∨
    (m.inside v = false ∧ m.owner d = none ∧ m.inside v' = true ∧ m.owner d' = some t) ∨
    (m.inside v = true ∧ m.inside v' = false ∧ m.owner d' = none)

/-- **Mutual exclusion.**  The owner of the mutex is the thread inside a section. -/
theorem owned (h : m.Respected next) (h0 : m.owner data = none)
    (houtside : ∀ v ∈ threads, m.inside v = false)
    (hs : (system next data threads).ReachableBy ok s) {v : ℓ} (hv : s.threads[t]? = some v) :
    m.inside v = true ↔ m.owner s.data = some t := by
  have hinit : ∀ t v, threads[t]? = some v → (m.inside v = true ↔ m.owner data = some t) :=
    fun t v hv => by simp [houtside v (List.mem_of_getElem? hv), h0]
  refine (invariant (I := fun _ => True) (L := fun t d v => m.inside v = true ↔ m.owner d = some t)
    trivial hinit (fun s t v d v' _ _ _ hL hv hnext => ⟨trivial, ?_, ?_⟩) hs).2
    t v hv
  · rcases h.step hnext with ⟨hin, ho⟩ | ⟨-, -, hin, ho⟩ | ⟨-, hin, ho⟩
    · rw [hin, ho, hL]
    · simp [hin, ho]
    · simp [hin, ho]
  · intro u w hne _ hu
    rcases h.step hnext with ⟨-, ho⟩ | ⟨-, hnone, -, ho⟩ | ⟨hin, -, ho⟩
    · rw [hu, ho]
    · simp [hu, ho, hnone, hne.symm]
    · rw [hu, ho, hL.mp hin]
      simp [hne.symm]

theorem owner_lt (h : m.Respected next) (h0 : m.owner data = none)
    (hs : (system next data threads).ReachableBy ok s) (ho : m.owner s.data = some t) :
    t < s.threads.length := by
  induction hs generalizing t with
  | init => exact absurd (h0.symm.trans ho) (by simp)
  | @step s s' u hs _ hst ih =>
    obtain ⟨v, d, v', hv, hnext, rfl⟩ := step_cases hst
    rw [List.length_set]
    rcases h.step hnext with ⟨-, hsame⟩ | ⟨-, -, -, hlock⟩ | ⟨-, -, hnone⟩
    · exact ih (hsame.symm.trans ho)
    · obtain rfl := Option.some.inj (hlock.symm.trans ho)
      exact (List.getElem?_eq_some_iff.mp hv).1
    · exact absurd (hnone.symm.trans ho) (by simp)

/-- **Nobody waits for ever.**  A thread that has not finished can move when it is inside,
or when the mutex is free; so some thread can move until all have finished. -/
theorem progress {finished : ℓ → Bool} (h : m.Respected next) (h0 : m.owner data = none)
    (houtside : ∀ v ∈ threads, m.inside v = false)
    (hinside : ∀ v, m.inside v = true → finished v = false)
    (hs : (system next data threads).ReachableBy ok s)
    (hmoves : ∀ t v, s.threads[t]? = some v → finished v = false →
      m.inside v = true ∨ m.owner s.data = none → (next t s.data v).isSome = true) :
    (∀ v ∈ s.threads, finished v = true) ∨
      ∃ t s', (system next data threads).step s t = some s' := by
  cases ho : m.owner s.data with
  | none =>
    by_cases hall : ∀ v ∈ s.threads, finished v = true
    · exact .inl hall
    · push Not at hall
      obtain ⟨v, hv, hfin⟩ := hall
      obtain ⟨t, ht⟩ := List.mem_iff_getElem?.mp hv
      exact .inr ⟨t, exists_step ht (hmoves t v ht (eq_false_of_ne_true hfin) (.inr ho))⟩
  | some t =>
    have hv := List.getElem?_eq_getElem (owner_lt h h0 hs ho)
    have hin := (owned h h0 houtside hs hv).mpr ho
    exact .inr ⟨t, exists_step hv (hmoves t _ hv (hinside _ hin) (.inl hin))⟩

theorem exclusive (h : m.Respected next) (h0 : m.owner data = none)
    (houtside : ∀ v ∈ threads, m.inside v = false)
    (hs : (system next data threads).ReachableBy ok s) {u : Nat} {v w : ℓ}
    (hv : s.threads[t]? = some v) (hw : s.threads[u]? = some w) (hne : u ≠ t)
    (hin : m.inside v = true) : m.inside w = false := by
  have ht := (owned h h0 houtside hs hv).mp hin
  have hu := owned h h0 houtside hs hw
  rw [ht, Option.some.injEq] at hu
  exact eq_false_of_ne_true fun h => hne (hu.mp h).symm

end Mutex

end Lib.Threads
