import Cpp20Examples.Lib.Threads
import Mathlib.Logic.Function.Basic

/-!
# Two guards and `std::lock`

`uniqueLock`: by its output the locking of the two mutexes is deferred, but the guards lock them
when they are constructed.  `std::lock` gets guards that own their mutexes, and throws.

* `Inv`: who owns a mutex is in front of its second guard, or of `std::lock`.
* `exists_taken`, `Taken.stuck`: the threads take their first mutexes, and nobody gets a
  second one.
* `deadLock_ends`: nobody passes `std::lock`; the runs end with a deadlock or terminate, and
  which pairs of mutexes have a deadlock.
-/

namespace Cpp20Examples.UniqueLock

open Lib

variable {ι : Type} [DecidableEq ι]

/-! ### The program -/

/-- Where a thread is in `deadLock`; `std::lock` locks the first guard and tries the second. -/
inductive Place
  | guard1
  | guard2
  | lockFirst
  | tryLockSecond
  | body
  | ended
  deriving DecidableEq

/-- A thread in `deadLock(a, b)`, and whether its guards own their mutexes. -/
structure Thread (ι : Type) where
  a : ι
  b : ι
  place : Place := .guard1
  owns1 : Bool := false
  owns2 : Bool := false

/-- The owners of the mutexes.  An exception that leaves a thread terminates the program. -/
structure Shared (ι : Type) where
  owner : ι → Option Nat := fun _ => none
  terminated : Bool := false

/-- `std::mutex::lock`, and `try_lock` where it succeeds. -/
def Shared.lock (d : Shared ι) (t : Nat) (m : ι) : Option (Shared ι) :=
  if d.owner m = none then some { d with owner := Function.update d.owner m (some t) } else none

def Shared.unlock (d : Shared ι) (m : ι) : Shared ι :=
  { d with owner := Function.update d.owner m none }

/-- A step of `deadLock(a, b)`. -/
def next : Threads.Next (Shared ι) (Thread ι) := fun t d v =>
  if d.terminated = true then none
  else
    match v.place with
    | .guard1 => (d.lock t v.a).map fun d' => (d', { v with place := .guard2, owns1 := true })
    | .guard2 => (d.lock t v.b).map fun d' => (d', { v with place := .lockFirst, owns2 := true })
    -- `unique_lock::lock` and `try_lock` throw when the guard owns its mutex
    | .lockFirst =>
      if v.owns1 = true then some ({ d with terminated := true }, v)
      else (d.lock t v.a).map fun d' => (d', { v with place := .tryLockSecond, owns1 := true })
    | .tryLockSecond =>
      if v.owns2 = true then some ({ d with terminated := true }, v)
      else
        match d.lock t v.b with
        | some d' => some (d', { v with place := .body, owns2 := true })
        | none => some (d.unlock v.a, { v with place := .lockFirst, owns1 := false })
    | .body =>
      some ((d.unlock v.b).unlock v.a, { v with place := .ended, owns1 := false, owns2 := false })
    | .ended => none

/-- One thread for each pair of mutexes. -/
def system (pairs : List (ι × ι)) : System (Threads.State (Shared ι) (Thread ι)) Nat :=
  Threads.system next {} (pairs.map fun p => { a := p.1, b := p.2 })

/-! ### Who owns what -/

variable {pairs : List (ι × ι)} {s s' : Threads.State (Shared ι) (Thread ι)} {t k : Nat}
  {d d' : Shared ι} {v v' : Thread ι}

/-- The places that are reached. -/
inductive At : Thread ι → Prop
  | guard1 {a b} : At ⟨a, b, .guard1, false, false⟩
  | guard2 {a b} : At ⟨a, b, .guard2, true, false⟩
  | lockFirst {a b} : At ⟨a, b, .lockFirst, true, true⟩

/-- The thread has locked this mutex. -/
def Thread.Owns (v : Thread ι) (m : ι) : Prop :=
  (v.owns1 = true ∧ v.a = m) ∨ (v.owns2 = true ∧ v.b = m)

structure Inv (pairs : List (ι × ι)) (s : Threads.State (Shared ι) (Thread ι)) : Prop where
  length : s.threads.length = pairs.length
  pair : ∀ (t : Nat) (v : Thread ι), s.threads[t]? = some v → pairs[t]? = some (v.a, v.b)
  place : ∀ (t : Nat) (v : Thread ι), s.threads[t]? = some v → At v
  owner : ∀ m u, s.data.owner m = some u → ∃ v : Thread ι, s.threads[u]? = some v ∧ v.Owns m
  owned : ∀ (t : Nat) (v : Thread ι) m, s.threads[t]? = some v → v.Owns m → s.data.owner m ≠ none

/-- What a thread can do: its next guard, or the exception. -/
inductive Step (t : Nat) (d : Shared ι) : Thread ι → Shared ι → Thread ι → Prop
  | guard1 {a b} (hfree : d.owner a = none) :
      Step t d ⟨a, b, .guard1, false, false⟩ { d with owner := Function.update d.owner a (some t) }
        ⟨a, b, .guard2, true, false⟩
  | guard2 {a b} (hfree : d.owner b = none) :
      Step t d ⟨a, b, .guard2, true, false⟩ { d with owner := Function.update d.owner b (some t) }
        ⟨a, b, .lockFirst, true, true⟩
  | throw {a b} :
      Step t d ⟨a, b, .lockFirst, true, true⟩ { d with terminated := true }
        ⟨a, b, .lockFirst, true, true⟩

theorem lock_eq_some_iff {m : ι} : d.lock t m = some d' ↔
    d.owner m = none ∧ d' = { d with owner := Function.update d.owner m (some t) } := by
  rw [Shared.lock, Option.ite_none_right_eq_some, Option.some.injEq, eq_comm (a := d')]

theorem step_of (hat : At v) (h : next t d v = some (d', v')) :
    d.terminated = false ∧ Step t d v d' v' := by
  obtain ⟨hterm, h⟩ := Option.ite_none_left_eq_some.mp h
  refine ⟨eq_false_of_ne_true hterm, ?_⟩
  cases hat with
  | guard1 =>
    obtain ⟨d₁, hlock, heq⟩ := Option.map_eq_some_iff.mp h
    obtain ⟨hfree, rfl⟩ := lock_eq_some_iff.mp hlock
    cases heq
    exact .guard1 hfree
  | guard2 =>
    obtain ⟨d₁, hlock, heq⟩ := Option.map_eq_some_iff.mp h
    obtain ⟨hfree, rfl⟩ := lock_eq_some_iff.mp hlock
    cases heq
    exact .guard2 hfree
  | lockFirst =>
    cases h
    exact .throw

theorem next_of_step (hterm : d.terminated = false) (h : Step t d v d' v') :
    next t d v = some (d', v') := by
  have hne : ¬d.terminated = true := ne_true_of_eq_false hterm
  cases h with
  | guard1 hfree => simp [next, hne, lock_eq_some_iff.mpr ⟨hfree, rfl⟩]
  | guard2 hfree => simp [next, hne, lock_eq_some_iff.mpr ⟨hfree, rfl⟩]
  | throw => simp [next, hne]

theorem Step.reachable (h : Step t s.data v d v') (hs : (system pairs).Reachable s)
    (hterm : s.data.terminated = false) (hv : s.threads[t]? = some v) :
    (system pairs).Reachable ⟨d, s.threads.set t v'⟩ :=
  .step (a := t) hs trivial (by simp [system, Threads.system, hv, next_of_step hterm h])

theorem Step.pair (h : Step t d v d' v') : v'.a = v.a ∧ v'.b = v.b := by
  cases h <;> exact ⟨rfl, rfl⟩

theorem Step.at_ (h : Step t d v d' v') : At v' := by
  cases h with
  | guard1 => exact .guard2
  | guard2 => exact .lockFirst
  | throw => exact .lockFirst

/-- What a thread owns, it keeps; a mutex gets an owner when it is free. -/
theorem Step.owns (h : Step t d v d' v') : (∀ m, v.Owns m → v'.Owns m) ∧
    ((d'.owner = d.owner ∧ ∀ m, v'.Owns m → v.Owns m) ∨
      ∃ m, d.owner m = none ∧ d'.owner = Function.update d.owner m (some t) ∧ v'.Owns m ∧
        ∀ m', v'.Owns m' → v.Owns m' ∨ m' = m) := by
  cases h with
  | @guard1 a b hfree =>
    refine ⟨?_, .inr ⟨a, hfree, rfl, .inl ⟨rfl, rfl⟩, ?_⟩⟩
    · rintro m (⟨h, -⟩ | ⟨h, -⟩) <;> cases h
    · rintro m (⟨-, rfl⟩ | ⟨h, -⟩)
      · exact .inr rfl
      · cases h
  | @guard2 a b hfree =>
    refine ⟨?_, .inr ⟨b, hfree, rfl, .inr ⟨rfl, rfl⟩, ?_⟩⟩
    · rintro m (⟨-, rfl⟩ | ⟨h, -⟩)
      · exact .inl ⟨rfl, rfl⟩
      · cases h
    · rintro m (⟨-, rfl⟩ | ⟨-, rfl⟩)
      · exact .inl (.inl ⟨rfl, rfl⟩)
      · exact .inr rfl
  | throw => exact ⟨fun m hm => hm, .inl ⟨rfl, fun m hm => hm⟩⟩

theorem inv_step (h : Inv pairs s) (hv : s.threads[t]? = some v) (hstep : Step t s.data v d v') :
    Inv pairs ⟨d, s.threads.set t v'⟩ := by
  obtain ⟨hkeeps, howns⟩ := hstep.owns
  refine ⟨List.length_set.trans h.length, ?_, ?_, ?_, ?_⟩
  · intro u w hw
    rcases getElem?_set_cases hw with ⟨rfl, rfl⟩ | ⟨-, hw⟩
    · rw [hstep.pair.1, hstep.pair.2]
      exact h.pair u v hv
    · exact h.pair u w hw
  · intro u w hw
    rcases getElem?_set_cases hw with ⟨rfl, rfl⟩ | ⟨-, hw⟩
    · exact hstep.at_
    · exact h.place u w hw
  · have hkept : ∀ m u, s.data.owner m = some u →
        ∃ w : Thread ι, (s.threads.set t v')[u]? = some w ∧ w.Owns m := by
      intro m u hu
      obtain ⟨w, hw, hm⟩ := h.owner m u hu
      by_cases hut : u = t
      · subst hut
        obtain rfl := Option.some.inj (hv.symm.trans hw)
        exact ⟨v', getElem?_set_of_some hv v', hkeeps m hm⟩
      · exact ⟨w, (List.getElem?_set_ne (Ne.symm hut)).trans hw, hm⟩
    intro m u hu
    rcases howns with ⟨heq, -⟩ | ⟨m', -, heq, hm', -⟩
    · exact hkept m u (heq ▸ hu)
    · have hu' : Function.update s.data.owner m' (some t) m = some u := heq ▸ hu
      by_cases hm : m = m'
      · subst hm
        rw [Function.update_self] at hu'
        cases hu'
        exact ⟨v', getElem?_set_of_some hv v', hm'⟩
      · rw [Function.update_of_ne hm] at hu'
        exact hkept m u hu'
  · have hkept : ∀ m, s.data.owner m ≠ none → d.owner m ≠ none := by
      intro m hm
      rcases howns with ⟨heq, -⟩ | ⟨m', hfree, heq, -⟩
      · exact heq ▸ hm
      · have hne : m ≠ m' := by
          rintro rfl
          exact hm hfree
        rw [heq, Function.update_of_ne hne]
        exact hm
    intro u w m hw hm
    rcases getElem?_set_cases hw with ⟨rfl, rfl⟩ | ⟨-, hw⟩
    · rcases howns with ⟨-, hback⟩ | ⟨m', -, heq, -, hback⟩
      · exact hkept m (h.owned u v m hv (hback m hm))
      · rcases hback m hm with hm | rfl
        · exact hkept m (h.owned u v m hv hm)
        · show d.owner m ≠ none
          rw [heq, Function.update_self]
          exact nofun
    · exact hkept m (h.owned u w m hw hm)

theorem inv_init (pairs : List (ι × ι)) : Inv pairs (system pairs).init := by
  have hthreads : ∀ (t : Nat) (v : Thread ι), (system pairs).init.threads[t]? = some v →
      ∃ p, pairs[t]? = some p ∧ v = { a := p.1, b := p.2 } := by
    intro t v hv
    obtain ⟨p, hp, rfl⟩ := Option.map_eq_some_iff.mp (List.getElem?_map.symm.trans hv)
    exact ⟨p, hp, rfl⟩
  refine ⟨List.length_map _, ?_, ?_, nofun, ?_⟩
  · intro t v hv
    obtain ⟨p, hp, rfl⟩ := hthreads t v hv
    exact hp
  · intro t v hv
    obtain ⟨p, hp, rfl⟩ := hthreads t v hv
    exact .guard1
  · intro t v m hv hm
    obtain ⟨p, hp, rfl⟩ := hthreads t v hv
    rcases hm with ⟨h, -⟩ | ⟨h, -⟩ <;> cases h

theorem inv (hs : (system pairs).Reachable s) : Inv pairs s := by
  refine hs.invariant (inv_init pairs) ?_
  intro s t s' h _ hst
  obtain ⟨v, d, v', hv, hnext, rfl⟩ := Threads.step_cases hst
  exact inv_step h hv (step_of (h.place t v hv) hnext).2

/-- **Nobody passes `std::lock`.** -/
theorem not_passed (hs : (system pairs).Reachable s) (hv : v ∈ s.threads) :
    v.place ≠ .body ∧ v.place ≠ .ended := by
  obtain ⟨t, ht⟩ := List.mem_iff_getElem?.mp hv
  cases (inv hs).place t v ht <;> exact ⟨nofun, nofun⟩

/-! ### Bounded runs -/

/-- The guards that the thread has still to construct. -/
def Thread.left (v : Thread ι) : Nat :=
  match v.place with
  | .guard1 => 2
  | .guard2 => 1
  | _ => 0

/-- The guards, and the exception. -/
def left (s : Threads.State (Shared ι) (Thread ι)) : Nat :=
  (s.threads.map Thread.left).sum + if s.data.terminated = true then 0 else 1

theorem left_lt (hs : (system pairs).Reachable s) (hst : (system pairs).step s t = some s') :
    left s' < left s := by
  obtain ⟨v, d, v', hv, hnext, rfl⟩ := Threads.step_cases hst
  obtain ⟨hterm, hstep⟩ := step_of ((inv hs).place t v hv) hnext
  obtain ⟨r, hr, hset⟩ := exists_rest Thread.left hv
  rw [left, left, hr]
  show ((s.threads.set t v').map Thread.left).sum + (if d.terminated = true then 0 else 1) < _
  rw [hset, hterm]
  cases hstep with
  | guard1 => simp [Thread.left, hterm]
  | guard2 => simp [Thread.left, hterm]
  | throw => simp

theorem length_le {as : List Nat} (h : (system pairs).run (system pairs).init as = some s) :
    as.length ≤ 2 * pairs.length + 1 := by
  have hlen := System.Reachable.run_length_le (μ := left) (fun _ _ _ hs hst => left_lt hs hst)
    .init h
  have hinit : left (system pairs).init = 2 * pairs.length + 1 := by
    have hsum : ((system pairs).init.threads.map Thread.left).sum = 2 * pairs.length := by
      show ((pairs.map _).map Thread.left).sum = _
      rw [List.map_map]
      have hconst : (Thread.left ∘ fun p : ι × ι => ({ a := p.1, b := p.2 } : Thread ι)) =
          fun _ => 2 := rfl
      rw [hconst, List.map_const', List.sum_replicate_nat, Nat.mul_comm]
    rw [left, hsum]
    rfl
  exact hinit ▸ hlen

/-! ### Deadlock -/

/-- The program runs, and no thread can move. -/
def Stuck (s : Threads.State (Shared ι) (Thread ι)) : Prop :=
  s.data.terminated = false ∧
    ∀ (t : Nat) (v : Thread ι), s.threads[t]? = some v → next t s.data v = none

/-- Whose next guard is for a mutex that has an owner. -/
inductive Blocked (d : Shared ι) : Thread ι → Prop
  | guard1 {a b} (ha : d.owner a ≠ none) : Blocked d ⟨a, b, .guard1, false, false⟩
  | guard2 {a b} (hb : d.owner b ≠ none) : Blocked d ⟨a, b, .guard2, true, false⟩

theorem blocked_iff (hat : At v) (hterm : d.terminated = false) :
    next t d v = none ↔ Blocked d v := by
  have hne : ¬d.terminated = true := ne_true_of_eq_false hterm
  constructor
  · intro h
    have hstuck : ∀ d' v', ¬Step t d v d' v' := by
      intro d' v' hstep
      rw [next_of_step hterm hstep] at h
      cases h
    cases hat with
    | guard1 => exact .guard1 fun hfree => hstuck _ _ (.guard1 hfree)
    | guard2 => exact .guard2 fun hfree => hstuck _ _ (.guard2 hfree)
    | lockFirst => exact absurd .throw (hstuck _ _)
  · intro h
    cases h with
    | guard1 ha => simp [next, hne, Shared.lock, ha]
    | guard2 hb => simp [next, hne, Shared.lock, hb]

/-- In a deadlock the owner of a mutex waits for another one that has an owner. -/
theorem exists_holder (h : Inv pairs s) (hstuck : Stuck s) {m : ι} (hm : s.data.owner m ≠ none) :
    ∃ q ∈ pairs, q.1 = m ∧ s.data.owner q.2 ≠ none := by
  obtain ⟨u, hu⟩ := Option.ne_none_iff_exists'.mp hm
  obtain ⟨w, hw, howns⟩ := h.owner m u hu
  have hpair := List.mem_of_getElem? (h.pair u w hw)
  cases (blocked_iff (h.place u w hw) hstuck.1).mp (hstuck.2 u w hw) with
  | guard1 => rcases howns with ⟨h, -⟩ | ⟨h, -⟩ <;> cases h
  | guard2 hb =>
    rcases howns with ⟨-, rfl⟩ | ⟨h, -⟩
    · exact ⟨_, hpair, rfl, hb⟩
    · cases h

/-- Each first mutex is the first one of a thread whose second one is a first one, too. -/
def CanDeadlock (pairs : List (ι × ι)) : Prop :=
  ∀ p ∈ pairs, ∃ q ∈ pairs, q.1 = p.1 ∧ ∃ r ∈ pairs, r.1 = q.2

instance : Decidable (CanDeadlock pairs) :=
  inferInstanceAs (Decidable (∀ p ∈ pairs, ∃ q ∈ pairs, q.1 = p.1 ∧ ∃ r ∈ pairs, r.1 = q.2))

theorem canDeadlock_of_stuck (h : Inv pairs s) (hstuck : Stuck s) : CanDeadlock pairs := by
  intro p hp
  obtain ⟨t, ht⟩ := List.mem_iff_getElem?.mp hp
  have hlt : t < s.threads.length := by
    rw [h.length]
    exact (List.getElem?_eq_some_iff.mp ht).1
  have hv := List.getElem?_eq_getElem hlt
  generalize s.threads[t] = v at hv
  have hpair := h.pair t v hv
  rw [ht, Option.some.injEq] at hpair
  subst hpair
  cases (blocked_iff (h.place t v hv) hstuck.1).mp (hstuck.2 t v hv) with
  | guard1 ha =>
    obtain ⟨q, hq, heq, howner⟩ := exists_holder h hstuck ha
    obtain ⟨r, hr, heq', -⟩ := exists_holder h hstuck howner
    exact ⟨q, hq, heq, r, hr, heq'⟩
  | guard2 hb =>
    obtain ⟨r, hr, heq, -⟩ := exists_holder h hstuck hb
    exact ⟨_, hp, rfl, r, hr, heq⟩

/-- Of the first `k` threads those have taken their first mutexes that wait for a first one. -/
structure Taken (pairs : List (ι × ι)) (k : Nat) (s : Threads.State (Shared ι) (Thread ι)) :
    Prop where
  reachable : (system pairs).Reachable s
  running : s.data.terminated = false
  place : ∀ (t : Nat) (v : Thread ι), s.threads[t]? = some v →
    v.place = .guard1 ∨ (v.place = .guard2 ∧ ∃ r ∈ pairs, r.1 = v.b)
  owner : ∀ (t : Nat) (v : Thread ι), t < k → s.threads[t]? = some v → (∃ r ∈ pairs, r.1 = v.b) →
    s.data.owner v.a ≠ none

theorem Taken.take (h : Taken pairs k s) : ∃ s', Taken pairs (k + 1) s' := by
  have hinv := inv h.reachable
  by_cases hhere : ∃ v : Thread ι, s.threads[k]? = some v ∧ (∃ r ∈ pairs, r.1 = v.b) ∧
    s.data.owner v.a = none
  · obtain ⟨v, hv, hgood, hfree⟩ := hhere
    have hfirst : ∃ a b, v = ⟨a, b, .guard1, false, false⟩ := by
      cases hinv.place k v hv with
      | guard1 => exact ⟨_, _, rfl⟩
      | guard2 => exact absurd hfree (hinv.owned k _ _ hv (.inl ⟨rfl, rfl⟩))
      | lockFirst => exact absurd hfree (hinv.owned k _ _ hv (.inl ⟨rfl, rfl⟩))
    obtain ⟨a, b, rfl⟩ := hfirst
    have hstep : Step k s.data ⟨a, b, .guard1, false, false⟩ _ _ := .guard1 hfree
    refine ⟨_, ⟨hstep.reachable h.reachable h.running hv, h.running, ?_, ?_⟩⟩
    · intro t w hw
      rcases getElem?_set_cases hw with ⟨rfl, rfl⟩ | ⟨-, hw⟩
      · exact .inr ⟨rfl, hgood⟩
      · exact h.place t w hw
    · intro t w ht hw hgood
      rcases getElem?_set_cases hw with ⟨rfl, rfl⟩ | ⟨hne, hw⟩
      · show Function.update s.data.owner a (some t) a ≠ none
        rw [Function.update_self]
        exact nofun
      · have howner := h.owner t w (by omega) hw hgood
        show Function.update s.data.owner a (some k) w.a ≠ none
        have hne : w.a ≠ a := by
          rintro heq
          exact howner (heq ▸ hfree)
        rw [Function.update_of_ne hne]
        exact howner
  · refine ⟨s, h.reachable, h.running, h.place, ?_⟩
    intro t v ht hv hgood hfree
    by_cases htk : t = k
    · subst htk
      exact hhere ⟨v, hv, hgood, hfree⟩
    · exact h.owner t v (by omega) hv hgood hfree

theorem exists_taken (pairs : List (ι × ι)) (k : Nat) : ∃ s, Taken pairs k s := by
  induction k with
  | zero =>
    refine ⟨(system pairs).init, .init, rfl, ?_, nofun⟩
    intro t v hv
    obtain ⟨p, -, rfl⟩ := Option.map_eq_some_iff.mp (List.getElem?_map.symm.trans hv)
    exact .inl rfl
  | succ k ih =>
    obtain ⟨s, hs⟩ := ih
    exact hs.take

theorem Taken.stuck (h : Taken pairs pairs.length s) (hcan : CanDeadlock pairs) : Stuck s := by
  have hinv := inv h.reachable
  have hfirst : ∀ p ∈ pairs, s.data.owner p.1 ≠ none := by
    intro p hp
    obtain ⟨q, hq, heq, hgood⟩ := hcan p hp
    obtain ⟨t, ht⟩ := List.mem_iff_getElem?.mp hq
    have hlt := (List.getElem?_eq_some_iff.mp ht).1
    have hlt' : t < s.threads.length := by
      rw [hinv.length]
      exact hlt
    have hv := List.getElem?_eq_getElem hlt'
    generalize s.threads[t] = v at hv
    have hpair := hinv.pair t v hv
    rw [ht, Option.some.injEq] at hpair
    subst hpair
    exact heq ▸ h.owner t v hlt hv hgood
  refine ⟨h.running, ?_⟩
  intro t v hv
  have hpair := List.mem_of_getElem? (hinv.pair t v hv)
  rw [blocked_iff (hinv.place t v hv) h.running]
  have hplace := h.place t v hv
  cases hinv.place t v hv with
  | guard1 => exact .guard1 (hfirst _ hpair)
  | guard2 =>
    rcases hplace with hplace | ⟨-, r, hr, rfl⟩
    · cases hplace
    · exact .guard2 (hfirst r hr)
  | lockFirst => rcases hplace with hplace | ⟨hplace, -⟩ <;> cases hplace

/-- A thread that runs alone gets both mutexes, and `std::lock` throws. -/
theorem exists_terminated {p : ι × ι} (hne : p.1 ≠ p.2) (pairs : List (ι × ι)) :
    ∃ s, (system (p :: pairs)).Reachable s ∧ s.data.terminated = true := by
  have hlock : Function.update (fun _ => (none : Option Nat)) p.1 (some 0) p.2 = none :=
    Function.update_of_ne hne.symm ..
  have hstep₁ : Step 0 (system (p :: pairs)).init.data { a := p.1, b := p.2 } _ _ := .guard1 rfl
  have hs₁ : (system (p :: pairs)).Reachable _ := hstep₁.reachable .init rfl rfl
  have hstep₂ : Step 0 { owner := Function.update (fun _ => none) p.1 (some 0) }
      ⟨p.1, p.2, .guard2, true, false⟩ _ _ := .guard2 hlock
  have hs₂ : (system (p :: pairs)).Reachable _ := hstep₂.reachable hs₁ rfl rfl
  exact ⟨_, Step.reachable (.throw (t := 0) (a := p.1) (b := p.2)) hs₂ rfl rfl, rfl⟩

/-- **The ends of `deadLock`.**  No thread passes `std::lock`.  All runs are bounded, so that they
end with an exception, which is possible, or with a deadlock, which is possible for these pairs
only. -/
theorem deadLock_ends (pairs : List (ι × ι)) (hne : ∀ p ∈ pairs, p.1 ≠ p.2) :
    (∀ as s, (system pairs).run (system pairs).init as = some s →
      as.length ≤ 2 * pairs.length + 1 ∧
        ∀ v ∈ s.threads, v.place ≠ .body ∧ v.place ≠ .ended) ∧
    (pairs ≠ [] → ∃ s, (system pairs).Reachable s ∧ s.data.terminated = true) ∧
    ((∃ s, (system pairs).Reachable s ∧ Stuck s) ↔ CanDeadlock pairs) := by
  refine ⟨?_, ?_, ?_, ?_⟩
  · intro as s h
    exact ⟨length_le h, fun v hv => not_passed (System.reachable_of_run as h) hv⟩
  · intro hnil
    cases pairs with
    | nil => exact absurd rfl hnil
    | cons p pairs => exact exists_terminated (hne p (List.mem_cons_self ..)) pairs
  · rintro ⟨s, hs, hstuck⟩
    exact canDeadlock_of_stuck (inv hs) hstuck
  · intro hcan
    obtain ⟨s, hs⟩ := exists_taken pairs pairs.length
    exact ⟨s, hs.reachable, hs.stuck hcan⟩

/-- The threads of `main` do so in either way. -/
theorem uniqueLock_ends :
    (∃ s, (system [(0, 1), (1, 0)]).Reachable s ∧ s.data.terminated = true) ∧
      ∃ s, (system [(0, 1), (1, 0)]).Reachable s ∧ Stuck s :=
  have h := deadLock_ends [(0, 1), (1, 0)] (by decide)
  ⟨h.2.1 nofun, h.2.2.mpr (by decide)⟩

end Cpp20Examples.UniqueLock
