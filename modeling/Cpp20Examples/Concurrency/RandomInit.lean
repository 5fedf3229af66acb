import Cpp20Examples.Lib.System
import Mathlib.Algebra.GroupWithZero.Nat
import Mathlib.Data.List.Nodup
import Mathlib.Data.List.Range

/-!
# `randomInit` with stop tokens

`38_threads_stop_token`: five `std::jthread`s add a random number to each element, and stop
when their stop token says so.  At the end of `randomInit` the vector of the threads is
destroyed: the destructor of each requests a stop of its thread and joins it.

* `Move`: what a step does.
* `Accounts`: what the threads have incremented.
* `values_eq`: the value of an element is made of its increments.
* `ended_of_returned`: when `randomInit` has returned, all threads have ended.
* `initialises_iff`: the runs in which each thread has incremented each element.
-/

namespace Cpp20Examples.RandomInit

open Lib

/-- Where a thread is in its loop: in front of the test of the element `k`, in front of the
increment, or at its end. -/
inductive Point
  | test (k : Nat)
  | add (k : Nat)
  | ended
  deriving DecidableEq

/-- Where `randomInit` is: in front of a `push_back`, in front of the `request_stop` of the
destructor of the next thread, or in its `join`. -/
inductive Main
  | push (i : Nat)
  | requestStop (rest : List Nat)
  | join (i : Nat) (rest : List Nat)
  deriving DecidableEq

/-- `increments` are the threads with the elements that they have incremented, newest
first; `stops` are the threads of which a stop was requested. -/
structure Machine (T : Type) where
  values : List T
  threads : List Point := []
  stops : List Nat := []
  increments : List (Nat × Nat) := []
  main : Main := .push 0
  deriving DecidableEq

inductive Act
  | main
  | thread (t : Nat)
  deriving DecidableEq

section Definitions

variable {T : Type} [Add T]

/-- A step of the lambda `init` in the thread `t`; `random t k` is the number that it draws
for the element `k`. -/
def init (random : Nat → Nat → T) (m : Machine T) (t : Nat) : Point → Option (Machine T)
  | .test k =>
    if k < m.values.length then
      if t ∈ m.stops then some { m with threads := m.threads.set t .ended }
      else some { m with threads := m.threads.set t (.add k) }
    else some { m with threads := m.threads.set t .ended }
  | .add k =>
    some { m with
      values := m.values.modify k (· + random t k)
      increments := (t, k) :: m.increments
      threads := m.threads.set t (.test (k + 1)) }
  | .ended => none

/-- A step of `randomInit`; the threads are destroyed in the order `order`. -/
def randomInit (order : List Nat) (m : Machine T) : Option (Machine T) :=
  match m.main with
  | .push i =>
    if i < 5 then some { m with threads := m.threads ++ [.test 0], main := .push (i + 1) }
    else some { m with main := .requestStop order }
  | .requestStop [] => none
  | .requestStop (i :: rest) => some { m with stops := i :: m.stops, main := .join i rest }
  | .join i rest =>
    if m.threads[i]? = some .ended then some { m with main := .requestStop rest } else none

def step (random : Nat → Nat → T) (order : List Nat) (m : Machine T) : Act → Option (Machine T)
  | .main => randomInit order m
  | .thread t => m.threads[t]?.bind (init random m t)

def system (values : List T) (random : Nat → Nat → T) (order : List Nat) :
    System (Machine T) Act where
  init := ⟨values, [], [], [], .push 0⟩
  step := step random order

/-- `randomInit` has returned. -/
def Machine.returned (m : Machine T) : Bool := decide (m.main = .requestStop [])

/-- The thread that moves does not find its stop requested. -/
def goesOn (m : Machine T) : Act → Bool
  | .main => true
  | .thread t =>
    match m.threads[t]? with
    | some (.test k) => decide (m.values.length ≤ k ∨ t ∉ m.stops)
    | _ => true

end Definitions

/-! ### The steps -/

/-- What a step does. -/
inductive Move {T : Type} [Add T] (random : Nat → Nat → T) (order : List Nat) (m : Machine T) :
    Act → Machine T → Prop
  | push {i} (hmain : m.main = .push i) (hlt : i < 5) :
      Move random order m .main { m with threads := m.threads ++ [.test 0], main := .push (i + 1) }
  | destroy {i} (hmain : m.main = .push i) (hge : 5 ≤ i) :
      Move random order m .main { m with main := .requestStop order }
  | requestStop {i rest} (hmain : m.main = .requestStop (i :: rest)) :
      Move random order m .main { m with stops := i :: m.stops, main := .join i rest }
  | join {i rest} (hmain : m.main = .join i rest) (hended : m.threads[i]? = some .ended) :
      Move random order m .main { m with main := .requestStop rest }
  | stop {t k} (hp : m.threads[t]? = some (.test k)) (hlt : k < m.values.length)
      (hstop : t ∈ m.stops) :
      Move random order m (.thread t) { m with threads := m.threads.set t .ended }
  | enter {t k} (hp : m.threads[t]? = some (.test k)) (hlt : k < m.values.length)
      (hgo : t ∉ m.stops) :
      Move random order m (.thread t) { m with threads := m.threads.set t (.add k) }
  | leave {t k} (hp : m.threads[t]? = some (.test k)) (hge : m.values.length ≤ k) :
      Move random order m (.thread t) { m with threads := m.threads.set t .ended }
  | add {t k} (hp : m.threads[t]? = some (.add k)) :
      Move random order m (.thread t)
        { m with
          values := m.values.modify k (· + random t k)
          increments := (t, k) :: m.increments
          threads := m.threads.set t (.test (k + 1)) }

variable {T : Type} {values : List T} {random : Nat → Nat → T} {order : List Nat}
  {m m' : Machine T} {a : Act} {n t : Nat}

theorem move_of_step [Add T] (hst : step random order m a = some m') :
    Move random order m a m' := by
  cases a with
  | main =>
    have hst : randomInit order m = some m' := hst
    rw [randomInit] at hst
    split at hst
    · rename_i i hmain
      split at hst
      · rename_i hlt
        cases hst
        exact .push hmain hlt
      · rename_i hge
        cases hst
        exact .destroy hmain (Nat.not_lt.mp hge)
    · cases hst
    · rename_i i rest hmain
      cases hst
      exact .requestStop hmain
    · rename_i i rest hmain
      split at hst
      · rename_i hended
        cases hst
        exact .join hmain hended
      · cases hst
  | thread t =>
    obtain ⟨p, hp, hst⟩ := Option.bind_eq_some_iff.mp hst
    cases p with
    | test k =>
      rw [init] at hst
      by_cases hlt : k < m.values.length
      · rw [if_pos hlt] at hst
        by_cases hstop : t ∈ m.stops
        · rw [if_pos hstop] at hst
          cases hst
          exact .stop hp hlt hstop
        · rw [if_neg hstop] at hst
          cases hst
          exact .enter hp hlt hstop
      · rw [if_neg hlt] at hst
        cases hst
        exact .leave hp (Nat.not_lt.mp hlt)
    | add k =>
      cases hst
      exact .add hp
    | ended => cases hst

/-! ### The increments of a thread -/

/-- What the thread `t` has incremented of `n` elements. -/
def Point.Accounts (n t : Nat) (increments : List (Nat × Nat)) : Point → Prop
  | .test k => k ≤ n ∧ ∀ j, (t, j) ∈ increments ↔ j < k
  | .add k => k < n ∧ ∀ j, (t, j) ∈ increments ↔ j < k
  | .ended => ∀ j, (t, j) ∈ increments → j < n

/-- **The accounts of the threads**: each has incremented the elements in front of its
place, once. -/
structure Accounts (n : Nat) (m : Machine T) : Prop where
  length : m.values.length = n
  nodup : m.increments.Nodup
  lt : ∀ x ∈ m.increments, x.1 < m.threads.length
  places : ∀ (t : Nat) (p : Point), m.threads[t]? = some p → p.Accounts n t m.increments

theorem Point.Accounts.cons {increments : List (Nat × Nat)} {p : Point} {x : Nat × Nat}
    (h : p.Accounts n t increments) (hx : x.1 ≠ t) : p.Accounts n t (x :: increments) := by
  have hmem : ∀ j, (t, j) ∈ x :: increments ↔ (t, j) ∈ increments := by
    intro j
    rw [List.mem_cons, or_iff_right]
    rintro rfl
    exact hx rfl
  cases p with
  | test k => exact ⟨h.1, fun j => (hmem j).trans (h.2 j)⟩
  | add k => exact ⟨h.1, fun j => (hmem j).trans (h.2 j)⟩
  | ended => exact fun j hj => h j ((hmem j).mp hj)

theorem Accounts.move {p : Point} (h : Accounts n m) (hp : p.Accounts n t m.increments) :
    Accounts n { m with threads := m.threads.set t p } := by
  refine ⟨h.length, h.nodup, ?_, ?_⟩
  · intro x hx
    rw [List.length_set]
    exact h.lt x hx
  · intro u q hq
    rcases getElem?_set_cases hq with ⟨rfl, rfl⟩ | ⟨-, hq⟩
    · exact hp
    · exact h.places u q hq

theorem Accounts.increment {k : Nat} {vs : List T} (h : Accounts n m) (hvs : vs.length = n)
    (hp : m.threads[t]? = some (.add k)) :
    Accounts n { m with
      values := vs
      increments := (t, k) :: m.increments
      threads := m.threads.set t (.test (k + 1)) } := by
  obtain ⟨hlt, hmem⟩ := h.places t _ hp
  refine ⟨hvs, ?_, ?_, ?_⟩
  · exact List.nodup_cons.mpr ⟨fun hin => Nat.lt_irrefl k ((hmem k).mp hin), h.nodup⟩
  · intro x hx
    rw [List.length_set]
    rcases List.mem_cons.mp hx with rfl | hx
    · exact (List.getElem?_eq_some_iff.mp hp).1
    · exact h.lt x hx
  · intro u q hq
    rcases getElem?_set_cases hq with ⟨rfl, rfl⟩ | ⟨hne, hq⟩
    · refine ⟨hlt, ?_⟩
      intro j
      rw [List.mem_cons, hmem j, Prod.mk.injEq, and_iff_right rfl]
      omega
    · exact (h.places u q hq).cons hne.symm

theorem Accounts.push {p : Main} (h : Accounts n m) :
    Accounts n { m with threads := m.threads ++ [.test 0], main := p } := by
  refine ⟨h.length, h.nodup, ?_, ?_⟩
  · intro x hx
    rw [List.length_append]
    exact Nat.lt_add_right _ (h.lt x hx)
  · intro u q hq
    rw [List.getElem?_append] at hq
    split at hq
    · exact h.places u q hq
    · rename_i hge
      obtain rfl := List.mem_singleton.mp (List.mem_of_getElem? hq)
      exact ⟨Nat.zero_le n, fun j => ⟨fun hin => absurd (h.lt _ hin) hge,
        fun hlt => absurd hlt (Nat.not_lt_zero j)⟩⟩

theorem accounts_step [Add T] (h : Accounts n m) (hst : Move random order m a m') :
    Accounts n m' := by
  have hended : ∀ {t k}, m.threads[t]? = some (.test k) →
      Point.ended.Accounts n t m.increments := by
    intro t k hp j hj
    obtain ⟨hle, hmem⟩ := h.places t _ hp
    exact Nat.lt_of_lt_of_le ((hmem j).mp hj) hle
  cases hst with
  | push => exact h.push
  | destroy | requestStop | join => exact ⟨h.length, h.nodup, h.lt, h.places⟩
  | stop hp | leave hp => exact h.move (hended hp)
  | enter hp hlt => exact h.move ⟨h.length ▸ hlt, (h.places _ _ hp).2⟩
  | add hp => exact h.increment ((List.length_modify ..).trans h.length) hp

theorem accounts [Add T] (hm : (system values random order).Reachable m) :
    Accounts values.length m := by
  refine hm.invariant (I := Accounts values.length) ?_ ?_
  · exact ⟨rfl, List.nodup_nil, by simp [system], by simp [system]⟩
  · intro m a m' h _ hst
    exact accounts_step h (move_of_step hst)

section Values

variable [AddCommMonoid T]

/-- What an element has received. -/
def received (random : Nat → Nat → T) (increments : List (Nat × Nat)) (k : Nat) : T :=
  ((increments.filter fun x => x.2 == k).map fun x => random x.1 x.2).sum

theorem received_cons (increments : List (Nat × Nat)) (j k : Nat) :
    received random ((t, j) :: increments) k =
      if j = k then random t j + received random increments k
      else received random increments k := by
  rw [received, List.filter_cons]
  by_cases hjk : j = k
  · rw [if_pos hjk, if_pos (by simpa using hjk), List.map_cons, List.sum_cons, received]
  · rw [if_neg hjk, if_neg (by simpa using hjk), received]

/-- **The value of an element** is the initial one with what it has received. -/
theorem values_eq (hm : (system values random order).Reachable m) (k : Nat) :
    m.values[k]? = values[k]?.map (· + received random m.increments k) := by
  refine hm.invariant
    (I := fun m => ∀ k, m.values[k]? = values[k]?.map (· + received random m.increments k))
    ?_ ?_ k
  · intro k
    have hzero : received random (system values random order).init.increments k = 0 := rfl
    simp only [hzero, add_zero, Option.map_id']
    rfl
  · intro m a m' h _ hst k
    cases move_of_step hst with
    | @add t j hp =>
      show (m.values.modify j (· + random t j))[k]? = _
      rw [List.getElem?_modify, h k, Option.map_eq_map, Option.map_map]
      refine congrFun (congrArg Option.map (funext ?_)) _
      intro v
      rw [received_cons, Function.comp_apply]
      by_cases hjk : j = k
      · rw [if_pos hjk, if_pos hjk, add_assoc, add_comm (random t j)]
      · rw [if_neg hjk, if_neg hjk]
    | _ => exact h k

end Values

/-! ### The end of `randomInit` -/

theorem ended_step [Add T] {u : Nat} (hst : Move random order m a m')
    (hu : m.threads[u]? = some .ended) : m'.threads[u]? = some .ended := by
  have hset : ∀ {t p q}, m.threads[t]? = some p → p ≠ .ended →
      (m.threads.set t q)[u]? = some .ended := by
    intro t p q hp hne
    have htu : t ≠ u := by
      rintro rfl
      exact hne (Option.some.inj (hp.symm.trans hu))
    rw [List.getElem?_set_ne htu]
    exact hu
  cases hst with
  | push =>
    show (m.threads ++ [.test 0])[u]? = _
    rw [List.getElem?_append_left (List.getElem?_eq_some_iff.mp hu).1]
    exact hu
  | destroy | requestStop | join => exact hu
  | stop hp | leave hp | enter hp => exact hset hp (by simp)
  | add hp => exact hset hp (by simp)

/-- The threads that have been joined have ended. -/
def Joins (order : List Nat) (m : Machine T) : Prop :=
  match m.main with
  | .push i => m.threads.length = i ∧ i ≤ 5
  | .requestStop rest => m.threads.length = 5 ∧
    ∃ joined, order = joined ++ rest ∧ ∀ t ∈ joined, m.threads[t]? = some .ended
  | .join i rest => m.threads.length = 5 ∧
    ∃ joined, order = joined ++ i :: rest ∧ ∀ t ∈ joined, m.threads[t]? = some .ended

theorem Joins.thread (h : Joins order m) (hmain : m'.main = m.main)
    (hlength : m'.threads.length = m.threads.length)
    (hended : ∀ u : Nat, m.threads[u]? = some Point.ended → m'.threads[u]? = some Point.ended) :
    Joins order m' := by
  rw [Joins] at h ⊢
  rw [hmain, hlength]
  split at h
  · exact h
  · obtain ⟨hfive, joined, horder, hall⟩ := h
    exact ⟨hfive, joined, horder, fun u hu => hended u (hall u hu)⟩
  · obtain ⟨hfive, joined, horder, hall⟩ := h
    exact ⟨hfive, joined, horder, fun u hu => hended u (hall u hu)⟩

theorem joins_step [Add T] (h : Joins order m) (hst : Move random order m a m') :
    Joins order m' := by
  have hended : ∀ u : Nat, m.threads[u]? = some Point.ended → m'.threads[u]? = some Point.ended :=
    fun u hu => ended_step hst hu
  have hstart := h
  rw [Joins] at hstart
  cases hst with
  | push hmain hlt =>
    rw [hmain] at hstart
    obtain ⟨hlength, -⟩ := hstart
    exact ⟨by rw [List.length_append, hlength]; rfl, hlt⟩
  | destroy hmain hge =>
    rw [hmain] at hstart
    obtain ⟨hlength, hle⟩ := hstart
    exact ⟨hlength.trans (Nat.le_antisymm hle hge), [], rfl, by simp⟩
  | requestStop hmain =>
    rw [hmain] at hstart
    exact hstart
  | @join i rest hmain hi =>
    rw [hmain] at hstart
    obtain ⟨hlength, joined, horder, hall⟩ := hstart
    refine ⟨hlength, joined ++ [i], by rw [horder, List.append_assoc]; rfl, ?_⟩
    intro t ht
    rcases List.mem_append.mp ht with ht | ht
    · exact hall t ht
    · obtain rfl := List.mem_singleton.mp ht
      exact hi
  | stop | enter | leave => exact h.thread rfl (List.length_set ..) hended
  | add => exact h.thread rfl (List.length_set ..) hended

theorem joins [Add T] (hm : (system values random order).Reachable m) : Joins order m := by
  have h0 : Joins order (system values random order).init := ⟨rfl, Nat.zero_le 5⟩
  exact hm.invariant (I := Joins order) h0 fun m a m' h _ hst => joins_step h (move_of_step hst)

/-- **When `randomInit` has returned**, its five threads have ended. -/
theorem ended_of_returned [Add T] (horder : order.Perm (List.range 5))
    (hm : (system values random order).Reachable m) (hret : m.returned = true) :
    m.threads.length = 5 ∧ ∀ t : Nat, t < 5 → m.threads[t]? = some Point.ended := by
  have hjoins := joins hm
  rw [Joins, of_decide_eq_true hret] at hjoins
  obtain ⟨hlength, joined, hjoined, hended⟩ := hjoins
  refine ⟨hlength, fun t ht => hended t ?_⟩
  rw [List.append_nil] at hjoined
  exact hjoined ▸ horder.mem_iff.mpr (List.mem_range.mpr ht)

/-! ### The runs without a stop -/

/-- A thread has ended in front of the element `k`. -/
def StoppedEarly (m : Machine T) : Prop :=
  ∃ t k : Nat, m.threads[t]? = some Point.ended ∧ k < m.values.length ∧ (t, k) ∉ m.increments

/-- What `randomInit` should have done: each of its five threads has incremented each
element once. -/
def Initialised (m : Machine T) : Prop :=
  ∀ k < m.values.length,
    ((m.increments.filter fun x => x.2 == k).map Prod.fst).Perm (List.range 5)

/-- **When no thread has stopped early**, each has incremented each element once. -/
theorem initialised_iff_not_stoppedEarly [Add T] (horder : order.Perm (List.range 5))
    (haccounts : Accounts values.length m) (hm : (system values random order).Reachable m)
    (hret : m.returned = true) : Initialised m ↔ ¬StoppedEarly m := by
  obtain ⟨hlength, hended⟩ := ended_of_returned horder hm hret
  have hmem : ∀ t k, t ∈ (m.increments.filter fun x => x.2 == k).map Prod.fst ↔
      (t, k) ∈ m.increments := fun t k => by simp
  constructor
  · rintro hinit ⟨t, k, hend, hk, hnot⟩
    have ht := (List.getElem?_eq_some_iff.mp hend).1
    rw [hlength] at ht
    exact hnot ((hmem t k).mp ((hinit k hk).mem_iff.mpr (List.mem_range.mpr ht)))
  · intro hearly k hk
    have hnodup : ((m.increments.filter fun x => x.2 == k).map Prod.fst).Nodup := by
      refine List.Nodup.map_on (fun x hx y hy heq => Prod.ext heq ?_) (haccounts.nodup.filter _)
      have hx := (List.mem_filter.mp hx).2
      have hy := (List.mem_filter.mp hy).2
      exact (eq_of_beq hx).trans (eq_of_beq hy).symm
    apply (List.perm_ext_iff_of_nodup hnodup List.nodup_range).mpr
    intro t
    rw [hmem, List.mem_range]
    constructor
    · intro hin
      exact hlength ▸ haccounts.lt (t, k) hin
    · intro ht
      by_contra hnot
      exact hearly ⟨t, k, hended t ht, hk, hnot⟩

/-- What a step changes of the values and the increments. -/
theorem increments_step [Add T] (hst : Move random order m a m') :
    m'.values.length = m.values.length ∧ (∀ x ∈ m.increments, x ∈ m'.increments) ∧
      ∀ t k, m.threads[t]? = some Point.ended → (t, k) ∈ m'.increments →
        (t, k) ∈ m.increments := by
  cases hst with
  | @add u j hp =>
    refine ⟨List.length_modify .., fun x hx => List.mem_cons_of_mem _ hx, ?_⟩
    intro t k ht hin
    rcases List.mem_cons.mp hin with heq | hin
    · obtain ⟨rfl, -⟩ := Prod.mk.inj heq
      cases hp.symm.trans ht
    · exact hin
  | _ => exact ⟨rfl, fun x hx => hx, fun t k _ hin => hin⟩

theorem StoppedEarly.step [Add T] (h : StoppedEarly m) (hst : Move random order m a m') :
    StoppedEarly m' := by
  obtain ⟨t, k, hend, hk, hnot⟩ := h
  obtain ⟨hlength, -, hsame⟩ := increments_step hst
  exact ⟨t, k, ended_step hst hend, hlength ▸ hk, fun hin => hnot (hsame t k hend hin)⟩

theorem stoppedEarly_of_not_goesOn [Add T] (h : Accounts n m) (hno : goesOn m a = false)
    (hst : Move random order m a m') : StoppedEarly m' := by
  cases hst with
  | @stop t k hp hlt hstop =>
    have ht := (List.getElem?_eq_some_iff.mp hp).1
    exact ⟨t, k, List.getElem?_set_self ht, hlt, fun hin =>
      Nat.lt_irrefl k (((h.places t _ hp).2 k).mp hin)⟩
  | enter hp hlt hgo => simp [goesOn, hp, hgo] at hno
  | leave hp hge => simp [goesOn, hp, hge] at hno
  | add hp => simp [goesOn, hp] at hno
  | push | destroy | requestStop | join => cases hno

theorem mem_of_ends [Add T] {k : Nat} (h : Accounts n m) (hok : goesOn m a = true)
    (hst : Move random order m a m') (hu : m.threads[t]? ≠ some Point.ended)
    (hend : m'.threads[t]? = some Point.ended) (hk : k < m.values.length) :
    (t, k) ∈ m'.increments := by
  cases hst with
  | push =>
    rw [List.getElem?_append] at hend
    split at hend
    · exact absurd hend hu
    · cases List.mem_singleton.mp (List.mem_of_getElem? hend)
  | destroy | requestStop | join => exact absurd hend hu
  | @stop u j hp hlt hstop =>
    have hge : m.values.length ≤ j := by simpa [goesOn, hp, hstop] using hok
    exact absurd hlt (Nat.not_lt.mpr hge)
  | enter | add =>
    rcases getElem?_set_cases hend with ⟨-, hq⟩ | ⟨-, hend⟩
    · cases hq
    · exact absurd hend hu
  | leave hp hge =>
    rcases getElem?_set_cases hend with ⟨rfl, -⟩ | ⟨-, hend⟩
    · exact ((h.places _ _ hp).2 k).mpr (Nat.lt_of_lt_of_le hk hge)
    · exact absurd hend hu

theorem not_stoppedEarly [Add T]
    (hm : (system values random order).ReachableBy (fun m a => goesOn m a) m) :
    ¬StoppedEarly m := by
  induction hm with
  | init =>
    rintro ⟨t, k, hend, -⟩
    exact absurd hend (by simp [system])
  | @step m m' a hm hok hst ih =>
    rintro ⟨t, k, hend, hk, hnot⟩
    have hmove := move_of_step hst
    obtain ⟨hlength, hkeep, -⟩ := increments_step hmove
    by_cases hu : m.threads[t]? = some Point.ended
    · exact ih ⟨t, k, hu, hlength ▸ hk, fun hin => hnot (hkeep _ hin)⟩
    · -- the thread ends in this step, behind the last element
      exact hnot (mem_of_ends (accounts hm.reachable) hok hmove hu hend (hlength ▸ hk))

/-- **`randomInit` initialises everything** in exactly those runs in which no thread finds
its stop requested: when it returns, each of the five threads has incremented each element
once. -/
theorem initialises_iff [Add T] (horder : order.Perm (List.range 5)) {as : List Act}
    (h : (system values random order).run (system values random order).init as = some m)
    (hret : m.returned = true) :
    Initialised m ↔
      (system values random order).AllOk goesOn (system values random order).init as = true := by
  have hm : (system values random order).Reachable m := System.reachable_of_run as h
  rw [initialised_iff_not_stoppedEarly horder (accounts hm) hm hret]
  have hgood : ∀ m, (system values random order).ReachableBy (fun m a => goesOn m a) m →
      ¬StoppedEarly m := fun m hm => not_stoppedEarly hm
  refine (System.allOk_iff hgood ?_ ?_ h).symm
  · intro m a m' hm hno hst
    exact stoppedEarly_of_not_goesOn (accounts hm) hno (move_of_step hst)
  · intro m a m' _ hearly hst
    exact hearly.step (move_of_step hst)

theorem values_of_initialised [AddCommMonoid T] (hm : (system values random order).Reachable m)
    (h : Initialised m) {k : Nat} (hk : k < m.values.length) :
    m.values[k]? = values[k]?.map (· + ((List.range 5).map fun t => random t k).sum) := by
  have hreceived : received random m.increments k =
      ((List.range 5).map fun t => random t k).sum := by
    rw [← ((h k hk).map fun t => random t k).sum_eq, received, List.map_map]
    refine congrArg List.sum (List.map_congr_left ?_)
    intro x hx
    rw [Function.comp_apply, eq_of_beq (List.mem_filter.mp hx).2]
  rw [values_eq hm k, hreceived]

/-- A thread adds one more than its number to two elements. -/
def twoElements : System (Machine Int) Act := system [0, 0] (fun t _ => t + 1) [0, 1, 2, 3, 4]

/-- The threads are started and run to their ends, and then they are joined. -/
def endsFirst : List Act :=
  List.replicate 6 .main ++ (List.range 5).flatMap (fun t => List.replicate 5 (.thread t)) ++
    List.replicate 10 .main

theorem initialises_iff_two :
    ∃ m, twoElements.run twoElements.init endsFirst = some m ∧ m.values = [15, 15] ∧
      Initialised m := by
  have hrun : ∃ m, twoElements.run twoElements.init endsFirst = some m ∧ m.values = [15, 15] ∧
      m.returned = true := ⟨_, rfl, by decide, by decide⟩
  obtain ⟨m, hrun, hvalues, hret⟩ := hrun
  have horder : [0, 1, 2, 3, 4].Perm (List.range 5) := by decide
  have hok : twoElements.AllOk goesOn twoElements.init endsFirst = true := by decide
  exact ⟨m, hrun, hvalues, (initialises_iff horder hrun hret).mpr hok⟩

/-- The stop of each thread is requested before its first test. -/
def stopsFirst : List Act :=
  List.replicate 6 .main ++ (List.range 5).flatMap fun t => [.main, .thread t, .main]

theorem stops_early : ¬∀ as m, twoElements.run twoElements.init as = some m →
    m.returned = true → Initialised m := by
  intro h
  have hinit := h stopsFirst _ rfl (by decide) 0 (by decide)
  exact absurd hinit.length_eq (by decide)

end Cpp20Examples.RandomInit
