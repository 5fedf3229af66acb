import Cpp20Examples.Lib.Slots

/-!
# `owning_handle`

The handle class of `cooperative_tasks`, `awaitable_coroutines` and `generator_range`.  Its
move assignment takes the frame of the other object, but does not destroy the frame that
the object has owned.

* `owners`: only a move assignment can lose a frame, that of its target.
* `destroys_once_iff`: the runs in which every frame is destroyed or detached.
-/

namespace Cpp20Examples.OwningHandle

open Lib Lib.Slots

/-- The move constructor: `handle_(std::exchange(other.handle_, nullptr))`. -/
def moveConstruct (s : State) (other : Nat) : Option State := s.moveConstruct other

/-- `operator=`: `handle_ = std::exchange(other.handle_, nullptr)`. -/
def moveAssign (s : State) (target other : Nat) : Option State :=
  (s.handle target).bind fun _ =>
    (s.handle other).map fun h => (s.store other none).store target h

/-- `detach()`: `return std::exchange(handle_, {})`. -/
def detach (s : State) (target : Nat) : Option State :=
  (s.handle target).map fun h => (s.store target none).detach h

/-- The destructor: `if (handle_ != nullptr) handle_.destroy()`. -/
def destruct (s : State) (target : Nat) : Option State := s.destruct target

/-- What is done with the objects; `construct` is from the handle of a fresh coroutine. -/
inductive Op
  | construct
  | constructNull
  | moveConstruct (other : Nat)
  | moveAssign (target other : Nat)
  | detach (target : Nat)
  | destruct (target : Nat)
  deriving DecidableEq

def step (s : State) : Op → Option State
  | .construct => some s.constructFresh
  | .constructNull => some (s.construct none)
  | .moveConstruct other => moveConstruct s other
  | .moveAssign target other => moveAssign s target other
  | .detach target => detach s target
  | .destruct target => destruct s target

def system : System State Op := ⟨{}, step⟩

/-- The target of a move assignment owns no frame, or is the other object. -/
def keepsTarget (s : State) : Op → Bool
  | .moveAssign target other => target == other || s.handle target == some none
  | _ => true

/-! ### What the operations lose -/

/-- The frame that an operation overwrites. -/
def overwritten (s : State) : Op → Option Nat
  | .moveAssign target other => if target = other then none else (s.handle target).join
  | _ => none

/-- The frame that an operation gives away. -/
def given (s : State) : Op → Option Nat
  | .detach target => (s.handle target).join
  | _ => none

variable {s s' : State}

theorem change_moveAssign (hs : Sound s) {target other : Nat}
    (h : moveAssign s target other = some s') :
    Change (overwritten s (.moveAssign target other)) none s s' := by
  obtain ⟨old, htarget, h⟩ := Option.bind_eq_some_iff.mp h
  obtain ⟨g, hother, rfl⟩ := Option.map_eq_some_iff.mp h
  refine hs.change_of_add rfl rfl ?_
  intro f
  have htaken := ledger_store hother none f
  have hstored := ledger_store (handle_store htarget hother none) g f
  rw [show owns none f = 0 from rfl] at htaken
  rw [overwritten, htarget, Option.join_some]
  omega

theorem change_detach (hs : Sound s) {target : Nat} (h : detach s target = some s') :
    Change none (given s (.detach target)) s s' := by
  obtain ⟨g, htarget, rfl⟩ := Option.map_eq_some_iff.mp h
  refine hs.change_of_add rfl (by rw [given, htarget]; rfl) ?_
  intro f
  have htaken := ledger_store htarget none f
  have hgiven := ledger_detach (s.store target none) g f
  rw [show owns none f = 0 from rfl] at htaken ⊢
  omega

theorem owners : Owners step keepsTarget overwritten given where
  change {s op s'} hs h := by
    cases op with
    | construct => cases h; exact change_constructFresh s
    | constructNull => cases h; exact change_constructNull hs
    | moveConstruct other => exact change_moveConstruct hs h
    | moveAssign target other => exact change_moveAssign hs h
    | detach target => exact change_detach hs h
    | destruct target => exact change_destruct hs h
  ok_iff {s op s'} h := by
    cases op with
    | moveAssign target other =>
      obtain ⟨old, htarget, -⟩ := Option.bind_eq_some_iff.mp h
      by_cases heq : target = other <;> simp [keepsTarget, overwritten, htarget, heq]
    | _ => exact iff_of_true rfl rfl
  handle_of_lost {s op g} hlost := by
    cases op with
    | moveAssign target other =>
      obtain ⟨-, hlost⟩ := Option.ite_none_left_eq_some.mp hlost
      exact ⟨target, Option.join_eq_some_iff.mp hlost⟩
    | _ => cases hlost

/-- **`owning_handle` destroys every frame once** exactly in the runs in which each move
assignment is onto an object without a frame or onto the object itself; no frame is ever
held twice. -/
theorem destroys_once_iff {ops : List Op} (h : system.run {} ops = some s) :
    (∀ f, s.held f ≤ 1) ∧
    (s.Empty → ((∀ f, f < s.created → f ∉ s.detached → s.destroyed.count f = 1) ↔
      system.AllOk keepsTarget {} ops = true)) := by
  have hsound := owners.sound (System.reachable_of_run ops h)
  have hiff : system.AllOk keepsTarget {} ops = true ↔ Whole s := owners.allOk_iff_whole h
  refine ⟨hsound.held_le_one, ?_⟩
  intro hempty
  rw [hiff, hsound.whole_iff]
  constructor
  · rintro honce ⟨f, hf, hzero⟩
    rw [ledger_of_empty hempty] at hzero
    have hnot : f ∉ s.detached := List.count_eq_zero.mp (by omega)
    have hone := honce f hf hnot
    omega
  · intro hlost f hf hnot
    have hwhole := hsound.whole_iff.mpr hlost f
    rw [ledger_of_empty hempty, List.count_eq_zero.mpr hnot, if_pos hf] at hwhole
    exact hwhole

/-- A frame is moved to an object without one, another one is detached. -/
def movedAndDetached : List Op :=
  [.construct, .constructNull, .moveAssign 1 0, .construct, .moveAssign 2 2, .detach 2, .destruct 0,
    .destruct 1, .destruct 2]

theorem destroys_once_iff_two :
    ∃ s, system.run {} movedAndDetached = some s ∧ s.detached = [1] ∧ s.destroyed = [0] ∧
      ∀ f, f < s.created → f ∉ s.detached → s.destroyed.count f = 1 := by
  have hend : ∃ s, system.run {} movedAndDetached = some s ∧ s.Empty ∧ s.detached = [1] ∧
      s.destroyed = [0] := ⟨_, rfl, by decide, rfl, rfl⟩
  obtain ⟨s, hrun, hempty, hdetached, hdestroyed⟩ := hend
  exact ⟨s, hrun, hdetached, hdestroyed, ((destroys_once_iff hrun).2 hempty).mpr (by decide)⟩

/-- The frame of the first object is never destroyed: the second one is moved onto it. -/
theorem leaks : ¬∀ ops s, system.run {} ops = some s → s.Empty →
    ∀ f, f < s.created → f ∉ s.detached → s.destroyed.count f = 1 := by
  intro h
  have hone := h [.construct, .construct, .moveAssign 0 1, .destruct 1, .destruct 0] _ rfl
    (by decide) 0 (by decide) (by decide)
  exact absurd hone (by decide)

end Cpp20Examples.OwningHandle
