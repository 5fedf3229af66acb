import Cpp20Examples.Lib.Threads

/-!
# Double-checked locking

`MySingleton::getInstance` of `singletonAcquireRelease` and `singletonSequentialConsistency`,
which differ in the memory orders only: `instance` is tested, and tested again inside the
mutex.  A step is one load, store or operation on the mutex, or the `new`; the memory is
sequentially consistent.

* `Sound`, `Knows`: what holds of the shared memory, and what a thread knows at its place.
* `one_instance`: one object is allocated, and every call returns it.
-/

namespace Cpp20Examples.Singleton

open Lib Lib.Threads

/-- A `MySingleton*`: null, or the object of a `new`, by its number. -/
abbrev Ptr := Option Nat

structure Shared where
  instance_ : Ptr := none
  myMutex : Option Nat := none
  allocated : Nat := 0
  deriving DecidableEq

/-- Where a thread is in `getInstance`; `sin` is its local variable, where it is read again. -/
inductive Point
  | outside
  | load
  | lock
  | loadLocked
  | new
  | store (sin : Ptr)
  | unlock (sin : Ptr)
  | ret (sin : Ptr)
  deriving DecidableEq

/-- A thread that has `calls` calls still to make; `returned` are the results, newest
first. -/
structure Caller where
  calls : Nat
  point : Point := .outside
  returned : List Ptr := []
  deriving DecidableEq

/-- A step of `getInstance`. -/
def getInstance (t : Nat) (d : Shared) (c : Caller) : Option (Shared × Caller) :=
  match c.point with
  | .outside =>
    match c.calls with
    | 0 => none
    | calls + 1 => some (d, { c with calls := calls, point := .load })
  | .load =>
    match d.instance_ with
    | none => some (d, { c with point := .lock })
    | some p => some (d, { c with point := .ret (some p) })
  | .lock =>
    if d.myMutex = none then
      some ({ d with myMutex := some t }, { c with point := .loadLocked })
    else none
  | .loadLocked =>
    match d.instance_ with
    | none => some (d, { c with point := .new })
    | some p => some (d, { c with point := .unlock (some p) })
  | .new =>
    some ({ d with allocated := d.allocated + 1 }, { c with point := .store (some d.allocated) })
  | .store sin => some ({ d with instance_ := sin }, { c with point := .unlock sin })
  | .unlock sin => some ({ d with myMutex := none }, { c with point := .ret sin })
  | .ret sin => some (d, { c with point := .outside, returned := sin :: c.returned })

/-- Threads that make so many calls each. -/
def system (calls : List Nat) : System (State Shared Caller) Nat :=
  Threads.system getInstance {} (calls.map fun n => { calls := n })

variable {t : Nat} {d d' : Shared} {c c' : Caller}

/-- What a step does. -/
inductive Step (t : Nat) (d : Shared) : Caller → Shared → Caller → Prop
  | call {n : Nat} {returned : List Ptr} :
      Step t d ⟨n + 1, .outside, returned⟩ d ⟨n, .load, returned⟩
  | loadNull {n : Nat} {returned : List Ptr} (hnone : d.instance_ = none) :
      Step t d ⟨n, .load, returned⟩ d ⟨n, .lock, returned⟩
  | load {n p : Nat} {returned : List Ptr} (hsome : d.instance_ = some p) :
      Step t d ⟨n, .load, returned⟩ d ⟨n, .ret (some p), returned⟩
  | lock {n : Nat} {returned : List Ptr} (hfree : d.myMutex = none) :
      Step t d ⟨n, .lock, returned⟩ { d with myMutex := some t } ⟨n, .loadLocked, returned⟩
  | loadLockedNull {n : Nat} {returned : List Ptr} (hnone : d.instance_ = none) :
      Step t d ⟨n, .loadLocked, returned⟩ d ⟨n, .new, returned⟩
  | loadLocked {n p : Nat} {returned : List Ptr} (hsome : d.instance_ = some p) :
      Step t d ⟨n, .loadLocked, returned⟩ d ⟨n, .unlock (some p), returned⟩
  | new {n : Nat} {returned : List Ptr} :
      Step t d ⟨n, .new, returned⟩ { d with allocated := d.allocated + 1 }
        ⟨n, .store (some d.allocated), returned⟩
  | store {n : Nat} {sin : Ptr} {returned : List Ptr} :
      Step t d ⟨n, .store sin, returned⟩ { d with instance_ := sin } ⟨n, .unlock sin, returned⟩
  | unlock {n : Nat} {sin : Ptr} {returned : List Ptr} :
      Step t d ⟨n, .unlock sin, returned⟩ { d with myMutex := none } ⟨n, .ret sin, returned⟩
  | ret {n : Nat} {sin : Ptr} {returned : List Ptr} :
      Step t d ⟨n, .ret sin, returned⟩ d ⟨n, .outside, sin :: returned⟩

theorem step_of (h : getInstance t d c = some (d', c')) : Step t d c d' c' := by
  obtain ⟨n, p, returned⟩ := c
  cases p with
  | outside =>
    cases n <;> cases h
    exact .call
  | load =>
    simp only [getInstance] at h
    split at h <;> cases h
    · exact .loadNull ‹_›
    · exact .load ‹_›
  | lock =>
    obtain ⟨hfree, h⟩ := Option.ite_none_right_eq_some.mp h
    cases h
    exact .lock hfree
  | loadLocked =>
    simp only [getInstance] at h
    split at h <;> cases h
    · exact .loadLockedNull ‹_›
    · exact .loadLocked ‹_›
  | _ => cases h; constructor

/-! ### The mutex -/

def Point.inside : Point → Bool
  | .loadLocked | .new | .store _ | .unlock _ => true
  | _ => false

/-- `myMutex`, and the scope of `myLock`. -/
def lockGuard : Mutex Shared Caller := ⟨Shared.myMutex, fun c => c.point.inside⟩

theorem respected : lockGuard.Respected getInstance where
  step {t d c d' c'} h := by
    cases step_of h with
    | lock hfree => exact .inr (.inl ⟨rfl, hfree, rfl, rfl⟩)
    | unlock => exact .inr (.inr ⟨rfl, rfl, rfl⟩)
    | _ => exact .inl ⟨rfl, rfl⟩

/-! ### The invariant -/

/-- No object was allocated, or it is the one that `instance` points to. -/
def Settled (d : Shared) : Prop := d.instance_ = none → d.allocated = 0

structure Sound (d : Shared) : Prop where
  atMostOne : d.allocated ≤ 1
  unlocked : d.myMutex = none → Settled d
  pointsToIt : ∀ p, d.instance_ = some p → p = 0 ∧ d.allocated = 1

/-- What a thread knows at its place. -/
def Point.Knows (d : Shared) : Point → Prop
  | .outside | .load | .lock => True
  | .loadLocked => Settled d
  | .new => d.instance_ = none ∧ d.allocated = 0
  | .store sin => d.instance_ = none ∧ d.allocated = 1 ∧ sin = some 0
  | .unlock sin | .ret sin => sin ≠ none ∧ sin = d.instance_

structure Caller.Knows (d : Shared) (c : Caller) : Prop where
  point : c.point.Knows d
  returned : ∀ sin ∈ c.returned, sin ≠ none ∧ sin = d.instance_

theorem Point.Knows.of_eq {p : Point} (h : p.Knows d) (hi : d'.instance_ = d.instance_)
    (ha : d'.allocated = d.allocated) : p.Knows d' := by
  have hsame : p.Knows d' = p.Knows d := by
    cases p <;> simp only [Point.Knows, Settled, hi, ha]
  rwa [hsame]

/-- Outside the mutex a thread relies on `instance` being set once. -/
theorem Point.Knows.of_outside {p : Point} (h : p.Knows d) (hout : p.inside = false)
    (honce : ∀ q, d.instance_ = some q → d'.instance_ = some q) : p.Knows d' := by
  cases p with
  | ret sin =>
    obtain ⟨hne, rfl⟩ := h
    obtain ⟨q, hq⟩ := Option.ne_none_iff_exists'.mp hne
    exact ⟨hne, hq.trans (honce q hq).symm⟩
  | outside | load | lock => trivial
  | _ => cases hout

/-- Only a thread inside the mutex writes what the mutex protects. -/
theorem outside_step (hout : c.point.inside = false) (h : getInstance t d c = some (d', c')) :
    d'.instance_ = d.instance_ ∧ d'.allocated = d.allocated := by
  cases step_of h with
  | new | store => cases hout
  | _ => exact ⟨rfl, rfl⟩

theorem set_once (hk : c.Knows d) (h : getInstance t d c = some (d', c')) {q : Nat}
    (hq : d.instance_ = some q) : d'.instance_ = some q := by
  cases step_of h with
  | store =>
    have hnone : d.instance_ = none := hk.point.1
    cases hnone.symm.trans hq
  | _ => exact hq

theorem good_step (hs : Sound d) (hk : c.Knows d) (h : getInstance t d c = some (d', c'))
    (hown : c.point.inside = true ↔ d.myMutex = some t) : Sound d' ∧ c'.Knows d' := by
  have hret := hk.returned
  have hpoint := hk.point
  cases step_of h with
  | call | loadNull => exact ⟨hs, trivial, hret⟩
  | load hsome | loadLocked hsome => exact ⟨hs, ⟨Option.some_ne_none _, hsome.symm⟩, hret⟩
  | lock hfree => exact ⟨⟨hs.atMostOne, nofun, hs.pointsToIt⟩, hs.unlocked hfree, hret⟩
  | loadLockedNull hnone => exact ⟨hs, ⟨hnone, hpoint hnone⟩, hret⟩
  | new =>
    obtain ⟨hnone, hzero⟩ := hpoint
    have hlocked : d.myMutex = some t := hown.mp rfl
    refine ⟨⟨by simp [hzero], ?_, ?_⟩, ⟨hnone, by simp [hzero], ?_⟩, hret⟩
    · intro h
      cases hlocked.symm.trans h
    · intro p hp
      cases hnone.symm.trans hp
    · rw [hzero]
  | store =>
    obtain ⟨hnone, hone, rfl⟩ := hpoint
    refine ⟨⟨hs.atMostOne, fun _ => nofun, ?_⟩, ⟨Option.some_ne_none _, rfl⟩, ?_⟩
    · intro p hp
      cases hp
      exact ⟨rfl, hone⟩
    · intro sin hsin
      obtain ⟨hne, heq⟩ := hret sin hsin
      exact absurd (heq.trans hnone) hne
  | unlock =>
    obtain ⟨hne, rfl⟩ := hpoint
    exact ⟨⟨hs.atMostOne, fun _ hnone => absurd hnone hne, hs.pointsToIt⟩, ⟨hne, rfl⟩, hret⟩
  | ret =>
    refine ⟨hs, trivial, ?_⟩
    intro sin' hsin'
    rcases List.mem_cons.mp hsin' with rfl | hsin'
    · exact hpoint
    · exact hret sin' hsin'

/-! ### All interleavings -/

section Reachable

variable {calls : List Nat} {s s' : State Shared Caller}

theorem start {c : Caller} (hc : c ∈ calls.map fun n => ({ calls := n } : Caller)) :
    c.point = .outside ∧ c.returned = [] := by
  obtain ⟨n, -, rfl⟩ := List.mem_map.mp hc
  exact ⟨rfl, rfl⟩

theorem outside_start {c : Caller} (hc : c ∈ calls.map fun n => ({ calls := n } : Caller)) :
    lockGuard.inside c = false := by
  show c.point.inside = false
  rw [(start hc).1]
  rfl

theorem good (hs : (system calls).Reachable s) :
    Sound s.data ∧ ∀ (t : Nat) (c : Caller), s.threads[t]? = some c → c.Knows s.data := by
  have h0 : Sound {} := ⟨Nat.zero_le 1, fun _ _ => rfl, nofun⟩
  refine invariant (L := fun _ d (c : Caller) => c.Knows d) h0 ?_
    ?_ hs
  · intro t c hc
    obtain ⟨hp, hr⟩ := start (List.mem_of_getElem? hc)
    exact ⟨by rw [hp]; trivial, by simp [hr]⟩
  · intro s t c d c' hs _ hI hk hc hnext
    have hown := Mutex.owned respected rfl (fun c hc => outside_start hc) hs hc
    obtain ⟨hI', hk'⟩ := good_step hI hk hnext hown
    refine ⟨hI', hk', fun u w hne hw hkw => ⟨?_, ?_⟩⟩
    · cases hin : w.point.inside with
      | false => exact hkw.point.of_outside hin fun q hq => set_once hk hnext hq
      | true =>
        have hout := Mutex.exclusive respected rfl (fun c hc => outside_start hc) hs hw hc
          hne.symm hin
        obtain ⟨hi, ha⟩ := outside_step hout hnext
        exact hkw.point.of_eq hi ha
    · intro sin hsin
      obtain ⟨hne, rfl⟩ := hkw.returned sin hsin
      obtain ⟨q, hq⟩ := Option.ne_none_iff_exists'.mp hne
      exact ⟨hne, hq.trans (set_once hk hnext hq).symm⟩

/-! ### Every call returns -/

/-- The steps of a call that are left. -/
def Point.left : Point → Nat
  | .outside => 0
  | .load => 7
  | .lock => 6
  | .loadLocked => 5
  | .new => 4
  | .store _ => 3
  | .unlock _ => 2
  | .ret _ => 1

def Caller.left (c : Caller) : Nat := 8 * c.calls + c.point.left

def Caller.finished (c : Caller) : Bool := c.calls == 0 && c.point == .outside

/-- The calls that a thread has made, makes and has still to make. -/
def Caller.allCalls (c : Caller) : Nat :=
  c.returned.length + (if c.point = .outside then 0 else 1) + c.calls

theorem left_lt (h : getInstance t d c = some (d', c')) :
    c'.left < c.left ∧ c'.allCalls = c.allCalls := by
  cases step_of h with
  | call =>
    simp [Caller.left, Point.left, Caller.allCalls]
    omega
  | _ => simp [Caller.left, Point.left, Caller.allCalls]

theorem finished_iff {c : Caller} : c.finished = true ↔ c.calls = 0 ∧ c.point = .outside := by
  simp [Caller.finished]

theorem not_finished_of_inside {c : Caller} (hin : lockGuard.inside c = true) :
    c.finished = false := by
  apply eq_false_of_ne_true
  intro hfin
  have hpoint : c.point.inside = true := hin
  rw [(finished_iff.mp hfin).2] at hpoint
  cases hpoint

/-- A thread in a call waits for the mutex only. -/
theorem moves (t : Nat) (d : Shared) (c : Caller) (hfin : c.finished = false)
    (h : lockGuard.inside c = true ∨ lockGuard.owner d = none) :
    (getInstance t d c).isSome = true := by
  obtain ⟨n, p, returned⟩ := c
  cases p with
  | outside =>
    cases n with
    | zero => cases hfin
    | succ n => rfl
  | load | loadLocked =>
    simp only [getInstance]
    split <;> rfl
  | lock =>
    have hnone : d.myMutex = none := h.resolve_left (by simp [lockGuard, Point.inside])
    simp [getInstance, hnone]
  | _ => rfl

theorem allCalls_eq (hs : (system calls).Reachable s) :
    s.threads.map Caller.allCalls = calls := by
  refine hs.invariant (I := fun s => s.threads.map Caller.allCalls = calls) ?_ ?_
  · simp [system, Threads.system, Caller.allCalls, Function.comp_def]
  · intro s t s' ih _ hst
    obtain ⟨c, d, c', hc, hnext, rfl⟩ := step_cases hst
    exact (map_set_of_eq hc (left_lt hnext).2).trans ih

/-- **Double-checked locking creates one instance.**  At most one object is allocated;
`instance` is null or points to it, and is never changed again; every call that has
returned has returned it.  The calls all return: the threads have finitely many steps
left, and one of them can move until all have made their calls. -/
theorem one_instance (hs : (system calls).Reachable s) :
    s.data.allocated ≤ 1 ∧
    (∀ p, s.data.instance_ = some p → p + 1 = s.data.allocated) ∧
    (∀ as s' p, (system calls).run s as = some s' → s.data.instance_ = some p →
      s'.data.instance_ = some p) ∧
    (∀ c ∈ s.threads, ∀ sin ∈ c.returned, sin ≠ none ∧ sin = s.data.instance_) ∧
    (∃ n, ∀ as s', (system calls).run s as = some s' → as.length ≤ n) ∧
    (s.threads.map (fun c => c.returned.length) = calls ∨
      ∃ t s', (system calls).step s t = some s') := by
  obtain ⟨hsound, hknows⟩ := good hs
  refine ⟨hsound.atMostOne, ?_, ?_, ?_,
    ⟨_, fun as s' hrun => run_length_le (fun t d c d' c' h => (left_lt h).1) hrun⟩, ?_⟩
  · intro p hp
    obtain ⟨rfl, hone⟩ := hsound.pointsToIt p hp
    exact hone.symm
  · intro as s' p hrun hp
    refine hs.run_invariant (I := fun s => s.data.instance_ = some p)
      ?_ hrun hp
    intro s t s' hs hp hst
    obtain ⟨c, d, c', hc, hnext, rfl⟩ := step_cases hst
    exact set_once ((good hs).2 t c hc) hnext hp
  · intro c hc sin hsin
    obtain ⟨t, ht⟩ := List.mem_iff_getElem?.mp hc
    exact (hknows t c ht).returned sin hsin
  · rcases Mutex.progress respected rfl (fun c hc => outside_start hc)
      (fun c hin => not_finished_of_inside hin) hs (fun t c _ => moves t _ c) with hfin | hmove
    · refine .inl (.trans (List.map_congr_left ?_) (allCalls_eq hs))
      intro c hc
      obtain ⟨hzero, hout⟩ := finished_iff.mp (hfin c hc)
      simp [Caller.allCalls, hzero, hout]
    · exact .inr hmove

end Reachable

/-- Both threads find `instance` null; the second one finds it set inside the mutex. -/
theorem one_instance_two :
    ∃ s, (system [1, 1]).Reachable s ∧ s.data.allocated = 1 ∧ s.data.instance_ = some 0 ∧
      ∀ c ∈ s.threads, c.returned.length = 1 ∧ ∀ sin ∈ c.returned, sin = some 0 := by
  obtain ⟨s, hs, hp⟩ := System.exists_reachable (M := system [1, 1])
    (p := fun s => s.data.instance_ == some 0 && s.threads.all fun c => c.returned.length == 1)
    [0, 1, 0, 1, 0, 0, 0, 0, 0, 0, 1, 1, 1, 1] (by decide)
  obtain ⟨hinst, hret⟩ : s.data.instance_ = some 0 ∧ ∀ c ∈ s.threads, c.returned.length = 1 := by
    simpa using hp
  obtain ⟨-, hpoints, -, hreturned, -, -⟩ := one_instance hs
  refine ⟨s, hs, (hpoints 0 hinst).symm, hinst, fun c hc => ⟨hret c hc, ?_⟩⟩
  intro sin hsin
  rw [(hreturned c hc sin hsin).2, hinst]

end Cpp20Examples.Singleton
