import Cpp20Examples.Lib.System
import Mathlib.Algebra.GroupWithZero.Nat

/-!
# Objects that own a resource

A slot is a place for an object that owns one resource or none.  Resources are numbered
in the order in which they are made; a resource is destroyed, or given away to somebody
else.

* `State.ledger`: how often a resource is held, was destroyed and was given away.
* `Change`: what an operation does to the ledger, and the resource that it loses.
* `Sound`, `Whole`: no resource is accounted for twice, and each one once.
* `Lost`: a resource that is not accounted for, and never will be.
* `Owners`: a class of such objects, by what each of its operations loses.
* `Owners.allOk_iff_whole`: the runs of its operations that lose no resource.
-/

namespace Lib.Slots

/-- No object, an object without a resource, or one with a resource. -/
abbrev Slot := Option (Option Nat)

/-- `destroyed` and `detached` are newest first. -/
structure State where
  slots : List Slot := []
  created : Nat := 0
  destroyed : List Nat := []
  detached : List Nat := []
  deriving DecidableEq

namespace State

/-- The handle of the object in a slot, if there is one. -/
def handle (s : State) (i : Nat) : Option (Option Nat) := s.slots[i]?.join

/-- The object in a slot gets another handle. -/
def store (s : State) (i : Nat) (h : Option Nat) : State :=
  { s with slots := s.slots.set i (some h) }

/-- An object is constructed in a new slot. -/
def construct (s : State) (h : Option Nat) : State := { s with slots := s.slots ++ [some h] }

/-- A resource is made, for a new object. -/
def constructFresh (s : State) : State :=
  { s.construct (some s.created) with created := s.created + 1 }

/-- The resource of a handle is destroyed, if it has one. -/
def destroy (s : State) (h : Option Nat) : State := { s with destroyed := h.toList ++ s.destroyed }

/-- The resource of a handle is given away. -/
def detach (s : State) (h : Option Nat) : State := { s with detached := h.toList ++ s.detached }

/-- The lifetime of an object ends. -/
def endLifetime (s : State) (i : Nat) : State := { s with slots := s.slots.set i none }

/-- An object is constructed with the resource of another one. -/
def moveConstruct (s : State) (other : Nat) : Option State :=
  (s.handle other).map fun h => (s.store other none).construct h

/-- An object is destroyed, with its resource if it has one. -/
def destruct (s : State) (target : Nat) : Option State :=
  (s.handle target).map fun h => (s.destroy h).endLifetime target

/-- How many slots hold a resource. -/
def held (s : State) (f : Nat) : Nat := s.slots.count (some (some f))

/-- How often a resource is accounted for. -/
def ledger (s : State) (f : Nat) : Nat := s.held f + s.destroyed.count f + s.detached.count f

end State

/-! ### The ledger -/

/-- One if the handle has the resource. -/
def owns (h : Option Nat) (f : Nat) : Nat := if h = some f then 1 else 0

theorem count_set {l : List Slot} {i : Nat} {x : Slot} (hx : l[i]? = some x) (y : Slot) (f : Nat) :
    (l.set i y).count (some (some f)) + owns x.join f =
      l.count (some (some f)) + owns y.join f := by
  have hcount : ∀ l : List Slot, l.count (some (some f)) = (l.map fun x => owns x.join f).sum := by
    intro l
    induction l with
    | nil => rfl
    | cons z l ih =>
      rw [List.count_cons, List.map_cons, List.sum_cons, ih, add_comm]
      rcases z with _ | h
      · simp [owns]
      · simp [owns, Option.join_some]
  obtain ⟨r, hr, hset⟩ := exists_rest (fun x : Slot => owns x.join f) hx
  rw [hcount, hcount, hr, hset]
  omega

theorem getElem?_of_handle {s : State} {i : Nat} {h : Option Nat} (hi : s.handle i = some h) :
    s.slots[i]? = some (some h) := by
  rw [State.handle] at hi
  cases hs : s.slots[i]? with
  | none => rw [hs] at hi; cases hi
  | some x =>
    rw [hs] at hi
    exact congrArg some hi

theorem held_store {s : State} {i : Nat} {h : Option Nat} (hi : s.handle i = some h)
    (h' : Option Nat) (f : Nat) : (s.store i h').held f + owns h f = s.held f + owns h' f :=
  count_set (getElem?_of_handle hi) (some h') f

theorem held_endLifetime {s : State} {i : Nat} {h : Option Nat} (hi : s.handle i = some h)
    (f : Nat) : (s.endLifetime i).held f + owns h f = s.held f :=
  count_set (getElem?_of_handle hi) none f

theorem held_construct (s : State) (h : Option Nat) (f : Nat) :
    (s.construct h).held f = s.held f + owns h f := by
  rw [State.held, State.construct, List.count_append, List.count_singleton]
  simp [State.held, owns]

theorem count_toList (h : Option Nat) (f : Nat) : h.toList.count f = owns h f := by
  cases h with
  | none => rfl
  | some g => simp [owns, List.count_singleton]

theorem ledger_store {s : State} {i : Nat} {h : Option Nat} (hi : s.handle i = some h)
    (h' : Option Nat) (f : Nat) : (s.store i h').ledger f + owns h f = s.ledger f + owns h' f := by
  have hheld := held_store hi h' f
  show (s.store i h').held f + s.destroyed.count f + s.detached.count f + owns h f =
    s.held f + s.destroyed.count f + s.detached.count f + owns h' f
  omega

theorem ledger_endLifetime {s : State} {i : Nat} {h : Option Nat} (hi : s.handle i = some h)
    (f : Nat) : (s.endLifetime i).ledger f + owns h f = s.ledger f := by
  have hheld := held_endLifetime hi f
  show (s.endLifetime i).held f + s.destroyed.count f + s.detached.count f + owns h f =
    s.held f + s.destroyed.count f + s.detached.count f
  omega

theorem ledger_construct (s : State) (h : Option Nat) (f : Nat) :
    (s.construct h).ledger f = s.ledger f + owns h f := by
  have hheld := held_construct s h f
  show (s.construct h).held f + s.destroyed.count f + s.detached.count f =
    s.held f + s.destroyed.count f + s.detached.count f + owns h f
  omega

theorem ledger_destroy (s : State) (h : Option Nat) (f : Nat) :
    (s.destroy h).ledger f = s.ledger f + owns h f := by
  show s.held f + (h.toList ++ s.destroyed).count f + s.detached.count f = _
  rw [List.count_append, count_toList, State.ledger]
  omega

theorem ledger_detach (s : State) (h : Option Nat) (f : Nat) :
    (s.detach h).ledger f = s.ledger f + owns h f := by
  show s.held f + s.destroyed.count f + (h.toList ++ s.detached).count f = _
  rw [List.count_append, count_toList, State.ledger]
  omega

/-! ### Handles -/

theorem handle_store_self {s : State} {i : Nat} {h : Option Nat} (hi : s.handle i = some h)
    (h' : Option Nat) : (s.store i h').handle i = some h' := by
  obtain ⟨hlt, -⟩ := List.getElem?_eq_some_iff.mp (getElem?_of_handle hi)
  simp [State.handle, State.store, hlt]

theorem handle_store_of_ne {s : State} {i j : Nat} (hne : i ≠ j) (h : Option Nat) :
    (s.store i h).handle j = s.handle j := by
  rw [State.handle, State.store, List.getElem?_set_ne hne, State.handle]

theorem handle_store {s : State} {i j : Nat} {h h' : Option Nat} (hi : s.handle i = some h)
    (hj : s.handle j = some h') (g : Option Nat) :
    (s.store j g).handle i = some (if i = j then g else h) := by
  by_cases heq : i = j
  · subst heq
    rw [if_pos rfl, handle_store_self hi]
  · rw [if_neg heq, handle_store_of_ne (Ne.symm heq), hi]

/-- There is an object in the slot. -/
def State.alive (s : State) (i : Nat) : Bool := (s.handle i).isSome

theorem alive_moveConstruct {s s' : State} {other : Nat} (h : s.moveConstruct other = some s') :
    s'.alive s.slots.length = true ∧ ∀ i, s.alive i = true → s'.alive i = true := by
  obtain ⟨g, hother, rfl⟩ := Option.map_eq_some_iff.mp h
  constructor
  · simp [State.alive, State.handle, State.construct, State.store]
  · intro i hi
    obtain ⟨k, hk⟩ := Option.isSome_iff_exists.mp hi
    have hlt : i < s.slots.length := (List.getElem?_eq_some_iff.mp (getElem?_of_handle hk)).1
    have hstored := handle_store hk hother none
    rw [State.handle] at hstored
    rw [State.alive, State.handle, State.construct, List.getElem?_append_left, hstored]
    · rfl
    · simpa [State.store] using hlt

theorem exists_moveConstruct {s : State} {other : Nat} (h : s.alive other = true) :
    ∃ s', s.moveConstruct other = some s' := by
  obtain ⟨g, hg⟩ := Option.isSome_iff_exists.mp h
  exact ⟨_, by rw [State.moveConstruct, hg, Option.map_some]⟩

/-! ### What the operations keep -/

/-- What an operation does to the ledger; `lost` is the resource that is not accounted for
behind it, and `given` the one that is given away. -/
structure Change (lost given : Option Nat) (s s' : State) : Prop where
  le : s.created ≤ s'.created
  detached : s'.detached = given.toList ++ s.detached
  old : ∀ f, f < s.created → s'.ledger f + owns lost f = s.ledger f
  new : ∀ f, s.created ≤ f → s'.ledger f = s.ledger f + if f < s'.created then 1 else 0

/-- No resource is accounted for twice. -/
def Sound (s : State) : Prop := ∀ f, s.ledger f ≤ if f < s.created then 1 else 0

/-- Each resource is accounted for. -/
def Whole (s : State) : Prop := ∀ f, s.ledger f = if f < s.created then 1 else 0

/-- A resource is not accounted for. -/
def Lost (s : State) : Prop := ∃ f, f < s.created ∧ s.ledger f = 0

section Change

variable {s s' : State} {lost given : Option Nat}

theorem Sound.change_of_add (hs : Sound s) (hc : s'.created = s.created)
    (hd : s'.detached = given.toList ++ s.detached)
    (h : ∀ f, s'.ledger f + owns lost f = s.ledger f) : Change lost given s s' where
  le := Nat.le_of_eq hc.symm
  detached := hd
  old f _ := h f
  new f hf := by
    have hle := hs f
    have hadd := h f
    rw [if_neg (by omega)] at hle ⊢
    omega

theorem change_constructNull (hs : Sound s) : Change none none s (s.construct none) :=
  hs.change_of_add rfl rfl fun f => ledger_construct s none f

theorem change_constructFresh (s : State) : Change none none s s.constructFresh := by
  have hledger : ∀ f, s.constructFresh.ledger f = s.ledger f + owns (some s.created) f :=
    ledger_construct s (some s.created)
  have hcreated : s.constructFresh.created = s.created + 1 := rfl
  refine ⟨by omega, rfl, ?_, ?_⟩
  · intro f hf
    have hne : some s.created ≠ some f := by simpa using Nat.ne_of_gt hf
    rw [hledger, owns, owns, if_neg hne, if_neg (by simp)]
    rfl
  · intro f hf
    rw [hledger, owns, hcreated]
    by_cases heq : s.created = f
    · rw [if_pos (congrArg some heq), if_pos (by omega)]
    · rw [if_neg (by simpa using heq), if_neg (by omega)]

theorem change_moveConstruct (hs : Sound s) {other : Nat} (h : s.moveConstruct other = some s') :
    Change none none s s' := by
  obtain ⟨g, hother, rfl⟩ := Option.map_eq_some_iff.mp h
  refine hs.change_of_add rfl rfl ?_
  intro f
  have htaken := ledger_store hother none f
  have hmade := ledger_construct (s.store other none) g f
  rw [show owns none f = 0 from rfl] at htaken ⊢
  omega

theorem change_destruct (hs : Sound s) {target : Nat} (h : s.destruct target = some s') :
    Change none none s s' := by
  obtain ⟨g, htarget, rfl⟩ := Option.map_eq_some_iff.mp h
  refine hs.change_of_add rfl rfl ?_
  intro f
  have hdestroyed := ledger_destroy s g f
  have hended := ledger_endLifetime (s := s.destroy g) htarget f
  rw [show owns none f = 0 from rfl]
  omega

theorem Whole.sound (h : Whole s) : Sound s := fun f => Nat.le_of_eq (h f)

theorem Sound.change (hs : Sound s) (h : Change lost given s s') : Sound s' := by
  intro f
  have hle := hs f
  by_cases hf : f < s.created
  · have hold := h.old f hf
    have hlt : f < s'.created := Nat.lt_of_lt_of_le hf h.le
    rw [if_pos hf] at hle
    rw [if_pos hlt]
    omega
  · rw [if_neg hf] at hle
    rw [h.new f (Nat.le_of_not_lt hf)]
    omega

theorem Whole.change (hs : Whole s) (h : Change none given s s') : Whole s' := by
  intro f
  by_cases hf : f < s.created
  · have hold := h.old f hf
    have hlt : f < s'.created := Nat.lt_of_lt_of_le hf h.le
    rw [hs f, if_pos hf, owns, if_neg (by simp)] at hold
    rw [if_pos hlt]
    omega
  · rw [h.new f (Nat.le_of_not_lt hf), hs f, if_neg hf, Nat.zero_add]

/-- **What is lost stays lost.** -/
theorem Lost.change (hs : Lost s) (h : Change lost given s s') : Lost s' := by
  obtain ⟨f, hf, hzero⟩ := hs
  have hold := h.old f hf
  exact ⟨f, Nat.lt_of_lt_of_le hf h.le, by omega⟩

theorem Sound.lost_of_change (hs : Sound s) {g : Nat} (hg : g < s.created)
    (h : Change (some g) given s s') : Lost s' := by
  have hle := hs g
  have hold := h.old g hg
  rw [if_pos hg] at hle
  rw [owns, if_pos rfl] at hold
  exact ⟨g, Nat.lt_of_lt_of_le hg h.le, by omega⟩

theorem Whole.not_lost (hs : Whole s) : ¬Lost s := by
  rintro ⟨f, hf, hzero⟩
  rw [hs f, if_pos hf] at hzero
  cases hzero

theorem Sound.whole_iff (hs : Sound s) : Whole s ↔ ¬Lost s := by
  constructor
  · exact Whole.not_lost
  · intro hlost f
    have hle := hs f
    by_cases hf : f < s.created
    · rw [if_pos hf] at hle ⊢
      have hne : s.ledger f ≠ 0 := fun hzero => hlost ⟨f, hf, hzero⟩
      omega
    · rw [if_neg hf] at hle ⊢
      omega

theorem Sound.held_le_one (hs : Sound s) (f : Nat) : s.held f ≤ 1 := by
  have hle := hs f
  rw [State.ledger] at hle
  split at hle <;> omega

theorem Sound.lt_of_handle (hs : Sound s) {i g : Nat} (hi : s.handle i = some (some g)) :
    g < s.created := by
  have hpos : 0 < s.held g := List.count_pos_iff.mpr (List.mem_of_getElem? (getElem?_of_handle hi))
  have hle := hs g
  by_contra hlt
  rw [if_neg hlt, State.ledger] at hle
  omega

end Change

/-! ### Classes of owners -/

/-- The operations on the objects of a class: `lost` is what each of them loses, `given` what
it gives away, and `ok` says where nothing is lost. -/
structure Owners {Op : Type} (step : State → Op → Option State) (ok : State → Op → Bool)
    (lost given : State → Op → Option Nat) : Prop where
  change : ∀ {s op s'}, Sound s → step s op = some s' → Change (lost s op) (given s op) s s'
  ok_iff : ∀ {s op s'}, step s op = some s' → (ok s op = true ↔ lost s op = none)
  handle_of_lost : ∀ {s op g}, lost s op = some g → ∃ i, s.handle i = some (some g)

namespace Owners

variable {Op : Type} {step : State → Op → Option State} {ok : State → Op → Bool}
  {lost given : State → Op → Option Nat} {s : State}

theorem sound (h : Owners step ok lost given) (hs : (System.mk {} step).Reachable s) :
    Sound s := by
  refine hs.invariant ?_ fun s op s' hs _ hst => hs.change (h.change hs hst)
  intro f
  exact Nat.zero_le _

theorem whole (h : Owners step ok lost given)
    (hs : (System.mk {} step).ReachableBy (fun s op => ok s op) s) : Whole s := by
  apply hs.invariant (fun f => rfl)
  intro s op s' hs hok hst
  have hchange := h.change hs.sound hst
  rw [(h.ok_iff hst).mp hok] at hchange
  exact hs.change hchange

/-- **The runs that lose no resource.** -/
theorem allOk_iff_whole (h : Owners step ok lost given) {ops : List Op}
    (hrun : (System.mk {} step).run {} ops = some s) :
    (System.mk {} step).AllOk ok {} ops = true ↔ Whole s := by
  rw [(h.sound (System.reachable_of_run ops hrun)).whole_iff]
  refine System.allOk_iff (fun s hs => (h.whole hs).not_lost) ?_ ?_ hrun
  · intro s op s' hs hok hst
    have hne : lost s op ≠ none := fun hnone => absurd hok (by simp [(h.ok_iff hst).mpr hnone])
    obtain ⟨g, hlost⟩ := Option.ne_none_iff_exists'.mp hne
    obtain ⟨i, hi⟩ := h.handle_of_lost hlost
    have hchange := h.change (h.sound hs) hst
    rw [hlost] at hchange
    exact (h.sound hs).lost_of_change ((h.sound hs).lt_of_handle hi) hchange
  · intro s op s' hs hlost hst
    exact hlost.change (h.change (h.sound hs) hst)

/-- A class that gives nothing away. -/
theorem detached_eq_nil (h : Owners step ok lost fun _ _ => none)
    (hs : (System.mk {} step).Reachable s) : s.detached = [] := by
  induction hs with
  | init => rfl
  | step hs _ hst ih => exact (h.change (h.sound hs) hst).detached.trans ih

end Owners

/-- No slot has an object. -/
def State.Empty (s : State) : Prop := ∀ x ∈ s.slots, x = none

instance (s : State) : Decidable s.Empty := inferInstanceAs (Decidable (∀ x ∈ s.slots, x = none))

theorem held_of_empty {s : State} (h : s.Empty) (f : Nat) : s.held f = 0 := by
  apply List.count_eq_zero.mpr
  intro hmem
  cases h _ hmem

theorem ledger_of_empty {s : State} (h : s.Empty) (f : Nat) :
    s.ledger f = s.destroyed.count f + s.detached.count f := by
  rw [State.ledger, held_of_empty h, Nat.zero_add]

end Lib.Slots
