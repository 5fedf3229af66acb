import Mathlib.Algebra.BigOperators.Group.List.Basic
import Mathlib.Order.Basic
import Mathlib.Tactic.Common

/-!
# Systems and their runs

A `System` is an initial state and a step function: `step s a` is the state
after the action `a`, or `none` when `a` is not enabled in `s`.  An interleaving
of several threads is a list of actions, each of which says who moves, so a
property of every interleaving is a property of every reachable state.

* `System.run`: the state after a list of actions.
* `System.ReachableBy ok`: the states of the runs all of whose steps meet a
  condition `ok` on the state before the step and the action; `System.Reachable`
  puts no condition.
* `ReachableBy.invariant`: what holds initially and is kept by every step that
  meets the condition holds in every state of these runs.
* `ReachableBy.refine`: the same over abstract states that the steps of the
  system refine.
* `Reachable.run_invariant`: what every step keeps, every run keeps.
* `Reachable.eachStep_iff`: a property of each step of a run.
* `allOk_iff`: the runs whose steps all meet a condition, by a mark that the other steps
  leave.
* `length_le_of_bound`: the runs are bounded when each step leads to a smaller bound.
* `safe_iff`: all runs are safe when all their steps meet a condition.
* `Reachable.leads_end`: bounded runs that go on until an end lead to one.
-/

namespace Lib

/-- An initial state, and what each action does where it is enabled. -/
structure System (S A : Type) where
  init : S
  step : S → A → Option S

namespace System

variable {S A Q : Type} {M : System S A}

/-- The state after the actions of a list, `none` when one is not enabled. -/
def run (M : System S A) : S → List A → Option S
  | s, [] => some s
  | s, a :: as => (M.step s a).bind fun s' => run M s' as

theorem run_append {s t : S} {as : List A} (h : M.run s as = some t) (bs : List A) :
    M.run s (as ++ bs) = M.run t bs := by
  induction as generalizing s with
  | nil =>
    obtain rfl := Option.some.inj h
    rfl
  | cons a as ih =>
    obtain ⟨s', hst, h⟩ := Option.bind_eq_some_iff.mp h
    rw [List.cons_append, run, hst]
    exact ih h

/-- The states of the runs whose steps all meet `ok`. -/
inductive ReachableBy (M : System S A) (ok : S → A → Prop) : S → Prop
  | init : ReachableBy M ok M.init
  | step {s s' : S} {a : A} : ReachableBy M ok s → ok s a → M.step s a = some s' →
      ReachableBy M ok s'

/-- The states of all runs. -/
abbrev Reachable (M : System S A) : S → Prop := ReachableBy M fun _ _ => True

namespace ReachableBy

variable {ok ok' : S → A → Prop}

theorem mono (h : ∀ s a, ok s a → ok' s a) {s : S} (hs : M.ReachableBy ok s) :
    M.ReachableBy ok' s := by
  induction hs with
  | init => exact .init
  | step _ ha hst ih => exact .step ih (h _ _ ha) hst

theorem reachable {s : S} (hs : M.ReachableBy ok s) : M.Reachable s :=
  hs.mono fun _ _ _ => trivial

/-- **An inductive invariant holds in every state of the runs.** -/
theorem invariant {I : S → Prop} (h0 : I M.init)
    (hstep : ∀ s a s', I s → ok s a → M.step s a = some s' → I s') {s : S}
    (hs : M.ReachableBy ok s) : I s := by
  induction hs with
  | init => exact h0
  | step _ ha hst ih => exact hstep _ _ _ ih ha hst

/-- **Refinement.**  `f q` is the state that the abstract state `q` stands for.
When every step from an `f q` is a step `R` of the abstract states, every
reachable state is an `f q`, with what `R` keeps of `q`.  Both premises may use a
property `J` of the reachable states. -/
theorem refine {R : Q → A → Q → Prop} {I : Q → Prop} {J : S → Prop} (f : Q → S)
    (hJ : ∀ s, M.ReachableBy ok s → J s)
    (hsim : ∀ q a s', J (f q) → M.step (f q) a = some s' → ∃ q', R q a q' ∧ f q' = s')
    {q₀ : Q} (h0 : f q₀ = M.init) (hI0 : I q₀)
    (hI : ∀ q a q', I q → J (f q) → ok (f q) a → R q a q' → I q') {s : S}
    (hs : M.ReachableBy ok s) : ∃ q, I q ∧ f q = s := by
  induction hs with
  | init => exact ⟨q₀, hI0, h0⟩
  | step hs ha hst ih =>
    obtain ⟨q, hq, rfl⟩ := ih
    obtain ⟨q', hR, rfl⟩ := hsim q _ _ (hJ _ hs) hst
    exact ⟨q', hI q _ q' hq (hJ _ hs) ha hR, rfl⟩

end ReachableBy

/-- The actions of a list all meet `ok` where they are taken. -/
def AllOk (M : System S A) (ok : S → A → Bool) : S → List A → Bool
  | _, [] => true
  | s, a :: as => ok s a && (match M.step s a with
    | some s' => AllOk M ok s' as
    | none => true)

/-- Each step of a list of actions has the property `P`. -/
def EachStep (M : System S A) (P : S → A → S → Prop) : S → List A → Prop
  | _, [] => True
  | s, a :: as => ∀ s', M.step s a = some s' → P s a s' ∧ EachStep M P s' as

theorem ReachableBy.run {ok : S → A → Bool} {s s' : S} (hs : M.ReachableBy (fun s a => ok s a) s)
    {as : List A} (hok : M.AllOk ok s as) (h : M.run s as = some s') :
    M.ReachableBy (fun s a => ok s a) s' := by
  induction as generalizing s with
  | nil => exact Option.some.inj h ▸ hs
  | cons a as ih =>
    obtain ⟨t, ht, h⟩ := Option.bind_eq_some_iff.mp h
    rw [AllOk, ht, Bool.and_eq_true] at hok
    exact ih (.step hs hok.1 ht) hok.2 h

/-- **A state found by running a list of actions.** -/
theorem exists_reachableBy (ok : S → A → Bool) {p : S → Bool} (as : List A)
    (hok : M.AllOk ok M.init as = true) (h : (M.run M.init as).any p = true) :
    ∃ s, M.ReachableBy (fun s a => ok s a) s ∧ p s = true := by
  cases hr : M.run M.init as with
  | none => simp [hr] at h
  | some s => exact ⟨s, .run .init hok hr, by simpa [hr] using h⟩

theorem Reachable.run {s s' : S} (hs : M.Reachable s) {as : List A} (h : M.run s as = some s') :
    M.Reachable s' := by
  induction as generalizing s with
  | nil => exact Option.some.inj h ▸ hs
  | cons a as ih =>
    obtain ⟨t, ht, h⟩ := Option.bind_eq_some_iff.mp h
    exact ih (.step hs trivial ht) h

theorem reachable_of_run {s : S} (as : List A) (h : M.run M.init as = some s) :
    M.Reachable s :=
  Reachable.run .init h

/-- **What every step from a reachable state keeps, every run keeps.** -/
theorem Reachable.run_invariant {I : S → Prop} {s s' : S} (hs : M.Reachable s)
    (hstep : ∀ s a s', M.Reachable s → I s → M.step s a = some s' → I s') {as : List A}
    (h : M.run s as = some s') (h0 : I s) : I s' := by
  induction as generalizing s with
  | nil => exact Option.some.inj h ▸ h0
  | cons a as ih =>
    obtain ⟨t, ht, h⟩ := Option.bind_eq_some_iff.mp h
    exact ih (.step hs trivial ht) h (hstep s a t hs h0 ht)

theorem Reachable.eachStep_iff {P : S → A → S → Prop} {ok : S → A → Bool} {s : S}
    (hs : M.Reachable s)
    (hstep : ∀ s a s', M.Reachable s → M.step s a = some s' → (P s a s' ↔ ok s a = true))
    {as : List A} (h : (M.run s as).isSome = true) :
    M.EachStep P s as ↔ M.AllOk ok s as = true := by
  induction as generalizing s with
  | nil => exact ⟨fun _ => rfl, fun _ => trivial⟩
  | cons a as ih =>
    rw [System.run] at h
    cases hst : M.step s a with
    | none =>
      rw [hst] at h
      cases h
    | some s' =>
      rw [hst] at h
      have hrest := ih (.step hs trivial hst) h
      have hfirst := hstep s a s' hs hst
      rw [AllOk, hst, Bool.and_eq_true, ← hfirst, ← hrest]
      constructor
      · intro heach
        exact heach s' hst
      · intro hboth s'' hst'
        obtain rfl := Option.some.inj (hst.symm.trans hst')
        exact hboth

theorem exists_reachable {p : S → Bool} (as : List A) (h : (M.run M.init as).any p = true) :
    ∃ s, M.Reachable s ∧ p s = true := by
  cases hr : M.run M.init as with
  | none => simp [hr] at h
  | some s => exact ⟨s, reachable_of_run as hr, by simpa [hr] using h⟩

/-- A step that does not meet `ok` leaves its mark on all states behind it. -/
theorem Reachable.bad_of_not_allOk {ok : S → A → Bool} {Bad : S → Prop} {s s' : S}
    (hs : M.Reachable s)
    (hbreak : ∀ s a s', M.Reachable s → ok s a = false → M.step s a = some s' → Bad s')
    (hkeep : ∀ s a s', M.Reachable s → Bad s → M.step s a = some s' → Bad s') {as : List A}
    (h : M.run s as = some s') (hok : M.AllOk ok s as = false) : Bad s' := by
  induction as generalizing s with
  | nil => exact absurd hok (by simp [AllOk])
  | cons a as ih =>
    obtain ⟨t, ht, h⟩ := Option.bind_eq_some_iff.mp h
    have hreach : M.Reachable t := .step hs trivial ht
    rw [AllOk, ht, Bool.and_eq_false_iff] at hok
    rcases hok with hok | hok
    · exact hreach.run_invariant hkeep h (hbreak s a t hs hok ht)
    · exact ih hreach h hok

/-- **The runs whose steps all meet `ok`** are those that end without the mark. -/
theorem allOk_iff {ok : S → A → Bool} {Bad : S → Prop}
    (hgood : ∀ s, M.ReachableBy (fun s a => ok s a) s → ¬Bad s)
    (hbreak : ∀ s a s', M.Reachable s → ok s a = false → M.step s a = some s' → Bad s')
    (hkeep : ∀ s a s', M.Reachable s → Bad s → M.step s a = some s' → Bad s') {as : List A} {s : S}
    (h : M.run M.init as = some s) : M.AllOk ok M.init as = true ↔ ¬Bad s := by
  constructor
  · intro hok
    exact hgood s (.run .init hok h)
  · intro hbad
    by_contra hok
    exact hbad (Reachable.bad_of_not_allOk .init hbreak hkeep h (eq_false_of_ne_true hok))

/-- **Bounded runs.**  Where each step leads to a smaller bound, the bound is one for the
number of steps. -/
theorem length_le_of_bound {B : Nat → S → Prop}
    (hstep : ∀ n s a s', B n s → M.step s a = some s' → ∃ m < n, B m s') {n : Nat} {s s' : S}
    (hs : B n s) {as : List A} (h : M.run s as = some s') : as.length ≤ n := by
  induction as generalizing n s with
  | nil => exact Nat.zero_le n
  | cons a as ih =>
    obtain ⟨t, ht, h⟩ := Option.bind_eq_some_iff.mp h
    obtain ⟨m, hlt, ht⟩ := hstep n s a t hs ht
    exact Nat.lt_of_le_of_lt (ih ht h) hlt

theorem Reachable.run_length_le {μ : S → Nat}
    (hstep : ∀ s a s', M.Reachable s → M.step s a = some s' → μ s' < μ s) {s s' : S}
    (hs : M.Reachable s) {as : List A} (h : M.run s as = some s') : as.length ≤ μ s := by
  refine length_le_of_bound (B := fun n s => M.Reachable s ∧ μ s = n) ?_ ⟨hs, rfl⟩ h
  rintro n s a s' ⟨hs, rfl⟩ hst
  exact ⟨μ s', hstep s a s' hs hst, .step hs trivial hst, rfl⟩

/-- Some run from `s` leads to a state with `P`. -/
def Leads (M : System S A) (s : S) (P : S → Prop) : Prop := ∃ as s', M.run s as = some s' ∧ P s'

theorem Leads.here {s : S} {P : S → Prop} (h : P s) : M.Leads s P := ⟨[], s, rfl, h⟩

theorem Leads.step {s t : S} {P : S → Prop} (a : A) (hst : M.step s a = some t)
    (h : M.Leads t P) : M.Leads s P := by
  obtain ⟨as, s', hrun, hP⟩ := h
  exact ⟨a :: as, s', by rw [run, hst]; exact hrun, hP⟩

theorem Leads.trans {s : S} {P Q : S → Prop} (hs : M.Reachable s) (h : M.Leads s P)
    (hQ : ∀ t, M.Reachable t → P t → M.Leads t Q) : M.Leads s Q := by
  obtain ⟨as, t, hrun, hP⟩ := h
  obtain ⟨bs, u, hrun', hu⟩ := hQ t (hs.run hrun) hP
  exact ⟨as ++ bs, u, (run_append hrun bs).trans hrun', hu⟩

/-- **All runs are safe** when no run has a step that does not meet `ok`, and only then, where
the first such step leads to a state that is not safe. -/
theorem safe_iff {ok : S → A → Prop} {Safe : S → Prop} (hgood : ∀ s, M.ReachableBy ok s → Safe s)
    (hbad : ∀ s a s', M.ReachableBy ok s → ¬ok s a → M.step s a = some s' →
      M.Leads s' fun s => ¬Safe s) :
    (∀ s, M.Reachable s → Safe s) ↔
      ∀ s a s', M.ReachableBy ok s → M.step s a = some s' → ok s a := by
  constructor
  · intro hsafe s a s' hs hst
    by_contra hok
    obtain ⟨as, s'', hrun, hunsafe⟩ := hbad s a s' hs hok hst
    exact hunsafe (hsafe s'' (Reachable.run (hs.reachable.step trivial hst) hrun))
  · intro hall s hs
    refine hgood s ?_
    induction hs with
    | init => exact .init
    | step _ _ hst ih => exact .step ih (hall _ _ _ ih hst) hst

/-- **A run to the end.**  When the runs from a state are bounded, and each goes on until
it is at an end, one of them leads there. -/
theorem Reachable.leads_end {P : S → Prop}
    (hprogress : ∀ s, M.Reachable s → P s ∨ ∃ a s', M.step s a = some s') {n : Nat} {s : S}
    (hs : M.Reachable s) (hbound : ∀ as s', M.run s as = some s' → as.length ≤ n) :
    M.Leads s P := by
  induction n generalizing s with
  | zero =>
    rcases hprogress s hs with hP | ⟨a, s', hst⟩
    · exact .here hP
    · have hlen := hbound [a] s' (by simp [System.run, hst])
      exact absurd hlen (by simp)
  | succ n ih =>
    rcases hprogress s hs with hP | ⟨a, s', hst⟩
    · exact .here hP
    · refine .step a hst (ih (.step hs trivial hst) ?_)
      intro as s'' hrun
      have hlen := hbound (a :: as) s'' (by simpa [System.run, hst] using hrun)
      simpa using hlen

theorem Reachable.exists_end {P : S → Prop}
    (hprogress : ∀ s, M.Reachable s → P s ∨ ∃ a s', M.step s a = some s') {n : Nat} {s : S}
    (hs : M.Reachable s) (hbound : ∀ as s', M.run s as = some s' → as.length ≤ n) :
    ∃ s', M.Reachable s' ∧ P s' := by
  obtain ⟨as, s', hrun, hP⟩ := hs.leads_end hprogress hbound
  exact ⟨s', hs.run hrun, hP⟩

end System

/-! ### Lists of which one element changes -/

theorem getElem?_set_cases {α : Type} {l : List α} {t u : Nat} {x y : α}
    (h : (l.set t y)[u]? = some x) : (u = t ∧ x = y) ∨ (u ≠ t ∧ l[u]? = some x) := by
  rw [List.getElem?_set] at h
  split at h
  · rename_i he
    split at h
    · exact .inl ⟨he.symm, (Option.some.inj h).symm⟩
    · exact absurd h (by simp)
  · rename_i he
    exact .inr ⟨Ne.symm he, h⟩

theorem getElem?_set_of_some {α : Type} {l : List α} {t : Nat} {x : α} (h : l[t]? = some x)
    (y : α) : (l.set t y)[t]? = some y :=
  List.getElem?_set_self (List.getElem?_eq_some_iff.mp h).1

/-- What the other elements have together, before and after one was changed. -/
theorem exists_rest {α M : Type} [AddCommMonoid M] (w : α → M) {l : List α} {t : Nat} {v : α}
    (h : l[t]? = some v) :
    ∃ r, (l.map w).sum = w v + r ∧ ∀ v', ((l.set t v').map w).sum = w v' + r := by
  induction l generalizing t with
  | nil => simp at h
  | cons x l ih =>
    cases t with
    | zero =>
      obtain rfl : x = v := by simpa using h
      exact ⟨(l.map w).sum, List.sum_cons, fun v' => List.sum_cons⟩
    | succ t =>
      obtain ⟨r, hr, hset⟩ := ih (by simpa using h)
      refine ⟨w x + r, ?_, ?_⟩
      · rw [List.map_cons, List.sum_cons, hr, add_left_comm]
      · intro v'
        rw [List.set_cons_succ, List.map_cons, List.sum_cons, hset, add_left_comm]

end Lib
