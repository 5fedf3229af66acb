import Mathlib.Data.List.Nodup
import Mathlib.Logic.Function.Basic

/-!
# Stop states and their callbacks

What a `stop_source`, its tokens and their `stop_callback`s share.  The thread that requests the
stop executes the callbacks, one at a time and in no particular order.  A callback that is
constructed after the request is executed by its constructor instead.  The destructor of a callback
deregisters it, and waits while another thread executes it.

* `phase`: what a stop state knows of one callback; each operation changes one phase.
* `Wf`: the invariant of the operations.
* `Wf.construct`, `Wf.take`, `Wf.finish`, `Wf.destruct`: from `outside` to `registered`, from there
  to `executing`, and back to `outside`.
-/

namespace Lib

structure StopState (ι : Type) where
  stopRequested : Bool := false
  callbacks : List ι := []
  executing : Option ι := none

namespace StopState

variable {ι : Type}

/-- `request_stop`, without the callbacks. -/
def requestStop (s : StopState ι) : StopState ι := { s with stopRequested := true }

/-- The callback that is executed returns. -/
def finish (s : StopState ι) : StopState ι := { s with executing := none }

/-- The constructor of a callback; with `none` it executes the callback itself. -/
def construct (c : ι) (s : StopState ι) : Option (StopState ι) :=
  if s.stopRequested = true then none else some { s with callbacks := c :: s.callbacks }

/-- A callback is registered once, and is not registered while it is executed. -/
structure Wf (s : StopState ι) : Prop where
  nodup : s.callbacks.Nodup
  executing : ∀ c, s.executing = some c → c ∉ s.callbacks
  requested : s.executing ≠ none → s.stopRequested = true

variable {s s' : StopState ι} {c : ι}

theorem wf_init : ({} : StopState ι).Wf := ⟨List.nodup_nil, nofun, fun h => absurd rfl h⟩

@[simp] theorem stopRequested_requestStop (s : StopState ι) :
    s.requestStop.stopRequested = true := rfl

@[simp] theorem stopRequested_finish (s : StopState ι) :
    s.finish.stopRequested = s.stopRequested := rfl

theorem Wf.requestStop (h : s.Wf) : s.requestStop.Wf := ⟨h.nodup, h.executing, fun _ => rfl⟩

theorem construct_eq_none_iff : s.construct c = none ↔ s.stopRequested = true := by
  rw [StopState.construct, ite_eq_left_iff]
  exact ⟨fun h => by_contra fun hreq => Option.some_ne_none _ (h hreq), fun h hn => absurd h hn⟩

variable [DecidableEq ι]

/-- The thread that requested the stop takes the callback `c`, to execute it. -/
def take (c : ι) (s : StopState ι) : Option (StopState ι) :=
  if c ∈ s.callbacks ∧ s.executing = none then
    some { s with callbacks := s.callbacks.erase c, executing := some c }
  else none

/-- The destructor of a callback, in a thread that does not execute it; with `none` it waits. -/
def destruct (c : ι) (s : StopState ι) : Option (StopState ι) :=
  if s.executing = some c then none else some { s with callbacks := s.callbacks.erase c }

/-- What a callback is for the stop state. -/
inductive Phase
  | outside
  | registered
  | executing
  deriving DecidableEq

def phase (s : StopState ι) (c : ι) : Phase :=
  if s.executing = some c then .executing
  else if c ∈ s.callbacks then .registered
  else .outside

@[simp] theorem phase_init (c : ι) : ({} : StopState ι).phase c = .outside := rfl

theorem phase_eq_executing_iff : s.phase c = .executing ↔ s.executing = some c := by
  rw [phase]
  split
  · rename_i h
    exact ⟨fun _ => h, fun _ => rfl⟩
  · rename_i h
    refine ⟨fun h' => ?_, fun h' => absurd h' h⟩
    split at h' <;> cases h'

theorem phase_eq_registered_iff (h : s.Wf) : s.phase c = .registered ↔ c ∈ s.callbacks := by
  rw [phase]
  split
  · rename_i hc
    exact ⟨nofun, fun hmem => absurd hmem (h.executing c hc)⟩
  · split
    · rename_i hmem
      exact ⟨fun _ => hmem, fun _ => rfl⟩
    · rename_i hmem
      exact ⟨nofun, fun hmem' => absurd hmem' hmem⟩

/-! ### The operations -/

@[simp] theorem phase_requestStop (s : StopState ι) : s.requestStop.phase = s.phase := rfl

theorem Wf.take (h : s.Wf) (hreq : s.stopRequested = true) (htake : s.take c = some s') :
    s'.Wf ∧ s'.stopRequested = true ∧ s.phase c = .registered ∧
      s'.phase = Function.update s.phase c .executing := by
  obtain ⟨⟨hmem, hnone⟩, heq⟩ := Option.ite_none_right_eq_some.mp htake
  cases heq
  refine ⟨⟨h.nodup.erase c, ?_, fun _ => hreq⟩, hreq, (phase_eq_registered_iff h).mpr hmem, ?_⟩
  · rintro d hd
    obtain rfl := Option.some.inj hd
    exact h.nodup.not_mem_erase
  · funext d
    by_cases hd : d = c
    · subst hd
      rw [Function.update_self, phase_eq_executing_iff]
    · have hne : some c ≠ some d := fun heq => hd (Option.some.inj heq).symm
      simp only [phase, Function.update_of_ne hd, if_neg hne, hnone, List.mem_erase_of_ne hd,
        reduceCtorEq, if_false]

theorem take_isSome (h : s.Wf) (hnone : s.executing = none) (hc : s.phase c = .registered) :
    (s.take c).isSome = true := by
  rw [StopState.take, if_pos ⟨(phase_eq_registered_iff h).mp hc, hnone⟩]
  rfl

theorem Wf.finish (h : s.Wf) (hc : s.phase c = .executing) :
    s.finish.Wf ∧ s.finish.phase = Function.update s.phase c .outside := by
  have hexec := phase_eq_executing_iff.mp hc
  refine ⟨⟨h.nodup, nofun, fun hne => absurd rfl hne⟩, ?_⟩
  funext d
  by_cases hd : d = c
  · subst hd
    simp [phase, StopState.finish, h.executing d hexec]
  · have hne : some c ≠ some d := fun heq => hd (Option.some.inj heq).symm
    rw [Function.update_of_ne hd, phase, phase, hexec, if_neg hne]
    rfl

/-- **A callback is registered** when no stop was requested. -/
theorem Wf.construct (h : s.Wf) (hc : s.phase c = .outside) (hcon : s.construct c = some s') :
    s'.Wf ∧ s.stopRequested = false ∧ s'.stopRequested = false ∧
      s'.phase = Function.update s.phase c .registered := by
  obtain ⟨hreq, heq⟩ := Option.ite_none_left_eq_some.mp hcon
  cases heq
  have hreq' := eq_false_of_ne_true hreq
  have hnone : s.executing = none := by
    by_contra hne
    exact hreq (h.requested hne)
  have hmem : c ∉ s.callbacks := by
    intro hmem
    rw [(phase_eq_registered_iff h).mpr hmem] at hc
    cases hc
  refine ⟨⟨List.nodup_cons.mpr ⟨hmem, h.nodup⟩, ?_, h.requested⟩, hreq', hreq', ?_⟩
  · intro d hd
    rw [hnone] at hd
    cases hd
  · funext d
    by_cases hd : d = c
    · subst hd
      simp [phase, hnone]
    · simp [phase, hd]

/-- **A callback is deregistered**, or it was executed. -/
theorem Wf.destruct (h : s.Wf) (hdes : s.destruct c = some s') :
    s'.Wf ∧ s'.stopRequested = s.stopRequested ∧ s.phase c ≠ .executing ∧
      s'.phase = Function.update s.phase c .outside := by
  obtain ⟨hexec, heq⟩ := Option.ite_none_left_eq_some.mp hdes
  cases heq
  refine ⟨⟨h.nodup.erase c, ?_, h.requested⟩, rfl, mt phase_eq_executing_iff.mp hexec, ?_⟩
  · intro d hd hmem
    exact h.executing d hd (List.mem_of_mem_erase hmem)
  · funext d
    by_cases hd : d = c
    · subst hd
      simp [phase, hexec, h.nodup.not_mem_erase]
    · simp [phase, hd, List.mem_erase_of_ne hd]

theorem destruct_isSome_iff : (s.destruct c).isSome = true ↔ s.phase c ≠ .executing := by
  rw [StopState.destruct, ne_eq, phase_eq_executing_iff]
  split
  · rename_i h
    exact ⟨nofun, fun hn => absurd h hn⟩
  · rename_i h
    exact ⟨fun _ => h, fun _ => rfl⟩

end StopState

end Lib
