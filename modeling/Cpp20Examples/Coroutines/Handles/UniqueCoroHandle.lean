import Cpp20Examples.Lib.Slots

/-!
# `UniqueCoroHandle`

The handle class of `co_return_custom_handle`.  The destructor is that of its base class
`ScopedCoroHandle`; the move assignment compares the two handles, and when they differ it
destroys the frame of the target and takes that of the other object.

* `owners`: no operation loses a frame.
* `destroys_once`: each frame is owned by one object until it is destroyed.
-/

namespace Cpp20Examples.UniqueCoroHandle

open Lib Lib.Slots

/-- `~ScopedCoroHandle`: `if (*this) this->destroy()`. -/
def destruct (s : State) (target : Nat) : Option State := s.destruct target

/-- The move constructor, with `std::exchange(other.asHandle(), ...)`. -/
def moveConstruct (s : State) (other : Nat) : Option State := s.moveConstruct other

/-- `operator=`: the frame of the target is destroyed, and that of the other object taken,
`if (*this != other)`. -/
def moveAssign (s : State) (target other : Nat) : Option State :=
  (s.handle target).bind fun old =>
    (s.handle other).map fun h =>
      if old ≠ h then ((s.destroy old).store other none).store target h else s

/-- What is done with the objects; `construct` is from the handle of a fresh coroutine. -/
inductive Op
  | constructNull
  | construct
  | moveConstruct (other : Nat)
  | moveAssign (target other : Nat)
  | destruct (target : Nat)
  deriving DecidableEq

def step (s : State) : Op → Option State
  | .constructNull => some (s.construct none)
  | .construct => some s.constructFresh
  | .moveConstruct other => moveConstruct s other
  | .moveAssign target other => moveAssign s target other
  | .destruct target => destruct s target

def system : System State Op := ⟨{}, step⟩

/-! ### What the operations keep -/

variable {s s' : State}

/-- Handles that differ are those of two objects. -/
theorem change_moveAssign (hs : Sound s) {target other : Nat}
    (h : moveAssign s target other = some s') : Change none none s s' := by
  obtain ⟨old, htarget, h⟩ := Option.bind_eq_some_iff.mp h
  obtain ⟨g, hother, rfl⟩ := Option.map_eq_some_iff.mp h
  by_cases hne : old ≠ g
  · have hslots : target ≠ other := by
      rintro rfl
      exact hne (Option.some.inj (htarget.symm.trans hother))
    rw [if_pos hne]
    refine hs.change_of_add rfl rfl ?_
    intro f
    have hdestroyed := ledger_destroy s old f
    have htaken := ledger_store (s := s.destroy old) hother none f
    have hstored := ledger_store (handle_store (s := s.destroy old) htarget hother none) g f
    rw [if_neg hslots] at hstored
    rw [show owns none f = 0 from rfl] at htaken ⊢
    omega
  · rw [if_neg hne]
    exact hs.change_of_add rfl rfl fun _ => rfl

/-- **No operation loses a frame**, and none is given away. -/
theorem owners : Owners step (fun _ _ => true) (fun _ _ => none) fun _ _ => none where
  change {s op s'} hs h := by
    cases op with
    | constructNull => cases h; exact change_constructNull hs
    | construct => cases h; exact change_constructFresh s
    | moveConstruct other => exact change_moveConstruct hs h
    | moveAssign target other => exact change_moveAssign hs h
    | destruct target => exact change_destruct hs h
  ok_iff _ := iff_of_true rfl rfl
  handle_of_lost hlost := by cases hlost

/-! ### All runs -/

/-- **A frame is held or destroyed**, and only once. -/
theorem held_add_destroyed (hs : system.Reachable s) (f : Nat) :
    s.held f + s.destroyed.count f = if f < s.created then 1 else 0 := by
  have hwhole := owners.whole (hs.mono fun _ _ _ => rfl) f
  rwa [State.ledger, owners.detached_eq_nil hs, List.count_nil, Nat.add_zero] at hwhole

/-- **`UniqueCoroHandle` destroys every frame once.**  A frame that is not destroyed is held
by one slot, a destroyed one by none; no frame is destroyed twice, and when all objects are
destroyed each frame has been. -/
theorem destroys_once (hs : system.Reachable s) :
    (∀ f, f < s.created → f ∉ s.destroyed → s.held f = 1) ∧
    (∀ f, f ∈ s.destroyed → s.held f = 0) ∧
    s.destroyed.Nodup ∧
    (s.Empty → ∀ f, f < s.created → s.destroyed.count f = 1) := by
  have hsum := held_add_destroyed hs
  have hle : ∀ f, s.held f + s.destroyed.count f ≤ 1 := by
    intro f
    rw [hsum f]
    split <;> omega
  refine ⟨?_, ?_, ?_, ?_⟩
  · intro f hf hnot
    have hone := hsum f
    rwa [if_pos hf, List.count_eq_zero.mpr hnot, Nat.add_zero] at hone
  · intro f hmem
    have hpos := List.count_pos_iff.mpr hmem
    have hle := hle f
    omega
  · apply List.nodup_iff_count.mpr
    intro f
    have hle := hle f
    omega
  · intro hempty f hf
    have hone := hsum f
    rwa [held_of_empty hempty, Nat.zero_add, if_pos hf] at hone

/-- The tasks of `main`: `task3` is empty, takes the frame of `task`, is moved onto itself
and then takes the frame of `task4`. -/
theorem destroys_once_main :
    ∃ s, system.Reachable s ∧ s.destroyed = [1, 0] ∧ ∀ f, f < 2 → s.destroyed.count f = 1 := by
  have hs := System.reachable_of_run (M := system) [.construct, .constructNull, .moveAssign 1 0,
    .moveAssign 1 1, .construct, .moveAssign 1 2, .destruct 2, .destruct 1, .destruct 0] rfl
  exact ⟨_, hs, rfl, (destroys_once hs).2.2.2 (by decide)⟩

end Cpp20Examples.UniqueCoroHandle
