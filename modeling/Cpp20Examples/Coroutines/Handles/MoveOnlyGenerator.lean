import Cpp20Examples.Lib.Slots

/-!
# The move-only `Generator`

The class of `coroutineGetElements`, `infiniteDataStream` and `infiniteDataStreamComments`.
Its move assignment copies the handle of the other object and then sets that handle to
null; it looks neither at the frame of the target nor at whether the two objects are one.

* `handle_moveAssign_self`: an object that is moved onto itself has no frame any more.
* `owners`: only a move assignment can lose a frame, that of its target.
* `keeps_iff`: the runs in which every frame is kept until it is destroyed.
-/

namespace Cpp20Examples.MoveOnlyGenerator

open Lib Lib.Slots

/-- `Generator(Generator&& oth) : coro(oth.coro) { oth.coro = nullptr; }`. -/
def moveConstruct (s : State) (oth : Nat) : Option State := s.moveConstruct oth

/-- `operator=(Generator&& oth)`: `coro = oth.coro; oth.coro = nullptr`. -/
def moveAssign (s : State) (target oth : Nat) : Option State :=
  (s.handle target).bind fun _ =>
    (s.handle oth).map fun h => (s.store target h).store oth none

/-- `~Generator()`: `if (coro) coro.destroy()`. -/
def destruct (s : State) (target : Nat) : Option State := s.destruct target

/-- What is done with the objects; `construct` is from the handle of a fresh coroutine. -/
inductive Op
  | construct
  | constructNull
  | moveConstruct (oth : Nat)
  | moveAssign (target oth : Nat)
  | destruct (target : Nat)
  deriving DecidableEq

def step (s : State) : Op → Option State
  | .construct => some s.constructFresh
  | .constructNull => some (s.construct none)
  | .moveConstruct oth => moveConstruct s oth
  | .moveAssign target oth => moveAssign s target oth
  | .destruct target => destruct s target

def system : System State Op := ⟨{}, step⟩

/-- The target of a move assignment holds no frame. -/
def ontoEmpty (s : State) : Op → Bool
  | .moveAssign target _ => s.handle target == some none
  | _ => true

/-- An object that is moved onto itself has the handle that it had. -/
def SelfKept (s : State) (op : Op) (s' : State) : Prop :=
  ∀ slot, op = .moveAssign slot slot → s'.handle slot = s.handle slot

/-! ### What the operations lose -/

/-- The frame that an operation loses. -/
def overwritten (s : State) : Op → Option Nat
  | .moveAssign target _ => (s.handle target).join
  | _ => none

variable {s s' : State}

/-- **An object that is moved onto itself** has no frame behind it. -/
theorem handle_moveAssign_self {slot : Nat} (h : moveAssign s slot slot = some s') :
    s'.handle slot = some none := by
  obtain ⟨old, hslot, h⟩ := Option.bind_eq_some_iff.mp h
  obtain ⟨g, hg, rfl⟩ := Option.map_eq_some_iff.mp h
  exact handle_store_self (handle_store_self hslot g) none

/-- The other object gives what it has to the target, also when it is the target; what the
target had is lost. -/
theorem change_moveAssign (hs : Sound s) {target oth : Nat}
    (h : moveAssign s target oth = some s') :
    Change (overwritten s (.moveAssign target oth)) none s s' := by
  obtain ⟨old, htarget, h⟩ := Option.bind_eq_some_iff.mp h
  obtain ⟨g, hoth, rfl⟩ := Option.map_eq_some_iff.mp h
  have hgives : (s.store target g).handle oth = some g := by
    rw [handle_store hoth htarget g, ite_self]
  refine hs.change_of_add rfl rfl ?_
  intro f
  have hstored := ledger_store htarget g f
  have htaken := ledger_store hgives none f
  rw [show owns none f = 0 from rfl] at htaken
  rw [overwritten, htarget, Option.join_some]
  omega

/-- **What an operation loses** is what it overwrites. -/
theorem owners : Owners step ontoEmpty overwritten fun _ _ => none where
  change {s op s'} hs h := by
    cases op with
    | construct => cases h; exact change_constructFresh s
    | constructNull => cases h; exact change_constructNull hs
    | moveConstruct oth => exact change_moveConstruct hs h
    | moveAssign target oth => exact change_moveAssign hs h
    | destruct target => exact change_destruct hs h
  ok_iff {s op s'} h := by
    cases op with
    | moveAssign target oth =>
      obtain ⟨old, htarget, -⟩ := Option.bind_eq_some_iff.mp h
      simp [ontoEmpty, overwritten, htarget]
    | _ => exact iff_of_true rfl rfl
  handle_of_lost {s op g} hlost := by
    cases op with
    | moveAssign target oth => exact ⟨target, Option.join_eq_some_iff.mp hlost⟩
    | _ => cases hlost

theorem selfKept_of_ontoEmpty {op : Op} (hok : ontoEmpty s op = true) (h : step s op = some s') :
    SelfKept s op s' := by
  rintro slot rfl
  have hnull : s.handle slot = some none := by simpa [ontoEmpty] using hok
  rw [handle_moveAssign_self h, hnull]

/-! ### All runs -/

theorem eachStep_selfKept {ops : List Op} (hok : system.AllOk ontoEmpty s ops = true) :
    system.EachStep SelfKept s ops := by
  induction ops generalizing s with
  | nil => exact trivial
  | cons op ops ih =>
    intro s' hst
    rw [System.AllOk, hst, Bool.and_eq_true] at hok
    exact ⟨selfKept_of_ontoEmpty hok.1 hst, ih hok.2⟩

/-- Without objects, each frame was destroyed once where none was lost. -/
theorem whole_iff_destroyed (hs : system.Reachable s) (hempty : s.Empty) :
    Whole s ↔ ∀ f, f < s.created → s.destroyed.count f = 1 := by
  have hledger : ∀ f, s.ledger f = s.destroyed.count f := by
    intro f
    rw [ledger_of_empty hempty, owners.detached_eq_nil hs, List.count_nil, Nat.add_zero]
  constructor
  · intro hwhole f hf
    rw [← hledger f, hwhole f, if_pos hf]
  · intro honce
    apply (owners.sound hs).whole_iff.mpr
    rintro ⟨f, hf, hzero⟩
    have hone := honce f hf
    rw [hledger f] at hzero
    omega

/-- **The move-only `Generator` keeps its coroutine** exactly in the runs in which each move
assignment is onto an object without a frame.  In every run no frame is held twice. -/
theorem keeps_iff {ops : List Op} (h : system.run {} ops = some s) :
    (∀ f, s.held f ≤ 1) ∧
    (system.AllOk ontoEmpty {} ops = true → system.EachStep SelfKept {} ops) ∧
    (s.Empty → ((system.EachStep SelfKept {} ops ∧
      ∀ f, f < s.created → s.destroyed.count f = 1) ↔ system.AllOk ontoEmpty {} ops = true)) := by
  have hreach : system.Reachable s := System.reachable_of_run ops h
  have hiff : system.AllOk ontoEmpty {} ops = true ↔ Whole s := owners.allOk_iff_whole h
  refine ⟨(owners.sound hreach).held_le_one, eachStep_selfKept, ?_⟩
  intro hempty
  rw [hiff, whole_iff_destroyed hreach hempty]
  constructor
  · rintro ⟨-, honce⟩
    exact honce
  · intro honce
    have hwhole := (whole_iff_destroyed hreach hempty).mpr honce
    exact ⟨eachStep_selfKept (hiff.mpr hwhole), honce⟩

/-- A frame is moved to an object without one; the object that it was taken from is moved
onto itself, and a fresh frame is moved to it. -/
def movedToEmpty : List Op :=
  [.construct, .constructNull, .moveAssign 1 0, .moveAssign 0 0, .construct, .moveAssign 0 2,
    .destruct 0, .destruct 1, .destruct 2]

theorem keeps_iff_two :
    ∃ s, system.run {} movedToEmpty = some s ∧ s.Empty ∧ s.destroyed = [0, 1] ∧
      system.EachStep SelfKept {} movedToEmpty ∧
      ∀ f, f < s.created → s.destroyed.count f = 1 := by
  have hend : ∃ s, system.run {} movedToEmpty = some s ∧ s.Empty ∧ s.destroyed = [0, 1] :=
    ⟨_, rfl, by decide, rfl⟩
  obtain ⟨s, hrun, hempty, hdestroyed⟩ := hend
  exact ⟨s, hrun, hempty, hdestroyed, ((keeps_iff hrun).2.2 hempty).mpr (by decide)⟩

/-- The object is moved onto itself: its frame is not in place any more, and never
destroyed. -/
theorem loses_its_frame : ¬∀ ops s, system.run {} ops = some s →
    system.EachStep SelfKept {} ops ∧ (∀ f, s.held f ≤ 1) ∧
      (s.Empty → ∀ f, f < s.created → s.destroyed.count f = 1) := by
  intro h
  have hone := (h [.construct, .moveAssign 0 0, .destruct 0] _ rfl).2.2 (by decide) 0 (by decide)
  exact absurd hone (by decide)

end Cpp20Examples.MoveOnlyGenerator
