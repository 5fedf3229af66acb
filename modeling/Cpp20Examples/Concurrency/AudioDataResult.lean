import Cpp20Examples.Lib.Machine
import Cpp20Examples.Lib.Slots

/-!
# The move assignment of `AudioDataResult`

`operator=` of `producerConsumer` moves the other object into a temporary one and swaps
with it.  The class has no `swap` of its own, so this is `std::swap`: a move construction
and two move assignments, the first of which is `operator=` again.

* `looping_step`: a call of `operator=` leads to another one before it returns.
* `never_transfers`: no call of it returns.
-/

namespace Cpp20Examples.AudioDataResult

open Lib Lib.Slots

/-- The calls; a move constructor makes its object in a new slot. -/
inductive Call
  | moveConstruct (other : Nat)
  | moveAssign (target other : Nat)
  | swap (a b : Nat)
  | destruct (target : Nat)
  deriving DecidableEq

/-- The objects, and the calls that are still to be made, the next one first. -/
structure Machine where
  objects : State
  calls : List Call
  deriving DecidableEq

/-- The body of `operator=`, with the destructor of `tmp` at its end. -/
def moveAssign (target other tmp : Nat) : List Call :=
  [.moveConstruct other, .swap target tmp, .destruct tmp]

/-- The body of `std::swap`. -/
def swap (a b tmp : Nat) : List Call :=
  [.moveConstruct a, .moveAssign a b, .moveAssign b tmp, .destruct tmp]

/-- One call is made, or entered. -/
def step (m : Machine) : Option Machine :=
  match m.calls with
  | [] => none
  | .moveConstruct other :: calls => (m.objects.moveConstruct other).map fun s => ⟨s, calls⟩
  | .moveAssign target other :: calls =>
    some ⟨m.objects, moveAssign target other m.objects.slots.length ++ calls⟩
  | .swap a b :: calls => some ⟨m.objects, swap a b m.objects.slots.length ++ calls⟩
  | .destruct target :: calls => (m.objects.destruct target).map fun s => ⟨s, calls⟩

/-- What `a = std::move(b)` should do: it returns, `a` owns what `b` has owned, and the
frame that `a` has owned is destroyed. -/
structure Transfers (s : State) (a b : Nat) : Prop where
  returns : ∃ s', Steps step ⟨s, [.moveAssign a b]⟩ ⟨s', []⟩ ∧ s'.handle a = s.handle b ∧
    (a ≠ b → s'.handle b = some none ∧
      ∀ f, s.handle a = some (some f) → s'.destroyed.count f = s.destroyed.count f + 1)

/-- Between two calls of `operator=`. -/
def Looping (m : Machine) : Prop :=
  match m.calls with
  | .moveAssign a b :: _ => m.objects.alive a ∧ m.objects.alive b
  | .moveConstruct b :: .swap a tmp :: _ =>
    m.objects.alive a ∧ m.objects.alive b ∧ tmp = m.objects.slots.length
  | .swap a tmp :: _ => m.objects.alive a ∧ m.objects.alive tmp
  | .moveConstruct c :: .moveAssign a b :: _ =>
    m.objects.alive c ∧ m.objects.alive a ∧ m.objects.alive b
  | _ => False

/-- **`operator=` calls itself** before it returns. -/
theorem looping_step {m : Machine} (h : Looping m) : ∃ m', step m = some m' ∧ Looping m' := by
  obtain ⟨s, calls⟩ := m
  unfold Looping at h
  split at h
  · rename_i a b rest hcalls
    obtain rfl : calls = _ := hcalls
    exact ⟨_, rfl, h.1, h.2, rfl⟩
  · rename_i b a tmp rest hcalls
    obtain rfl : calls = _ := hcalls
    obtain ⟨ha, hb, htmp⟩ := h
    obtain rfl : tmp = s.slots.length := htmp
    obtain ⟨s', hs'⟩ := exists_moveConstruct (s := s) hb
    obtain ⟨hnew, hkeep⟩ := alive_moveConstruct hs'
    have hstep : step ⟨s, .moveConstruct b :: .swap a s.slots.length :: rest⟩ =
        some ⟨s', .swap a s.slots.length :: rest⟩ := by
      show (s.moveConstruct b).map _ = _
      rw [hs', Option.map_some]
    exact ⟨_, hstep, hkeep a ha, hnew⟩
  · rename_i a tmp rest hcalls
    obtain rfl : calls = _ := hcalls
    exact ⟨_, rfl, h.1, h.1, h.2⟩
  · rename_i c a b rest hcalls
    obtain rfl : calls = _ := hcalls
    obtain ⟨hc, ha, hb⟩ := h
    obtain ⟨s', hs'⟩ := exists_moveConstruct (s := s) hc
    obtain ⟨-, hkeep⟩ := alive_moveConstruct hs'
    have hstep : step ⟨s, .moveConstruct c :: .moveAssign a b :: rest⟩ =
        some ⟨s', .moveAssign a b :: rest⟩ := by
      show (s.moveConstruct c).map _ = _
      rw [hs', Option.map_some]
    exact ⟨_, hstep, hkeep a ha, hkeep b hb⟩
  · exact absurd h id

theorem looping_after {m : Machine} (h : Looping m) (n : Nat) : ∃ m', after step n m = some m' := by
  induction n generalizing m with
  | zero => exact ⟨m, rfl⟩
  | succ n ih =>
    obtain ⟨m', hst, h'⟩ := looping_step h
    obtain ⟨m'', hafter⟩ := ih h'
    exact ⟨m'', by rw [after, hst, Option.bind_some, hafter]⟩

theorem not_transfers {s : State} {a b : Nat} (ha : s.alive a) (hb : s.alive b) :
    ¬Transfers s a b := by
  rintro ⟨s', hsteps, -⟩
  have hloop : Looping ⟨s', []⟩ := by
    refine hsteps.invariant ?_ ⟨ha, hb⟩
    intro m m' hm hst
    obtain ⟨m'', hst', hm'⟩ := looping_step hm
    obtain rfl := Option.some.inj (hst'.symm.trans hst)
    exact hm'
  exact hloop

/-- **No move assignment returns.**  Whatever the two objects own, and also when they are
one, the calls go on for ever. -/
theorem never_transfers (s : State) (a b : Nat) (ha : s.alive a) (hb : s.alive b) :
    (∀ n, ∃ m, after step n ⟨s, [.moveAssign a b]⟩ = some m) ∧ ¬Transfers s a b :=
  ⟨looping_after ⟨ha, hb⟩, not_transfers ha hb⟩

/-- An object with a frame, and one without. -/
theorem never_transfers_empty : ¬Transfers ⟨[some (some 0), some none], 1, [], []⟩ 0 1 :=
  (never_transfers _ 0 1 rfl rfl).2

/-- Two objects that own a frame each. -/
theorem not_all_transfer :
    ¬∀ s a b, State.alive s a → State.alive s b → Transfers s a b := by
  intro h
  exact not_transfers (s := ⟨[some (some 0), some (some 1)], 2, [], []⟩) (a := 0) (b := 1) rfl rfl
    (h _ _ _ rfl rfl)

end Cpp20Examples.AudioDataResult
