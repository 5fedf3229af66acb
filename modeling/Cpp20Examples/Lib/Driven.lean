import Cpp20Examples.Lib.System
import Mathlib.Logic.Relation
import Mathlib.Tactic.Common

/-!
# Machines that wait for their caller

A `Driven` machine takes steps until it gives control back to its caller, who may
feed it a datum to go on.  `session` is what a caller does who feeds it the data
`data 0, data 1, …`, with fuel for each return.

* `Drive`: one step, or one datum; the second component counts the data fed.
* `exists_session`: a drive that ends in a state without a step is a session, in
  which the machine waits after each datum but the last.
* `Simulation.drive`: a drive of the abstract machine is one of the concrete one.
-/

namespace Lib

/-- `step` is `none` where the caller has control, `feed` where nothing waits. -/
structure Driven (S D : Type) where
  step : S → Option S
  feed : S → D → Option S
  step_of_feed : ∀ s d s', feed s d = some s' → step s = none

namespace Driven

variable {S T D : Type} (M : Driven S D)

/-- Steps until the caller has control. -/
def toCaller : Nat → S → S
  | 0, s => s
  | fuel + 1, s =>
    match M.step s with
    | some s' => toCaller fuel s'
    | none => s

/-- The state in which the caller has control again, after so many data. -/
def session (data : Nat → D) (fuel : Nat) (s : S) : Nat → Option S
  | 0 => some (M.toCaller fuel s)
  | i + 1 => (session data fuel s i).bind fun t => (M.feed t (data i)).map (M.toCaller fuel)

/-- One step of the machine, or one datum of the caller. -/
inductive Drive (data : Nat → D) : S × Nat → S × Nat → Prop
  | step {s s' : S} {i : Nat} : M.step s = some s' → Drive data (s, i) (s', i)
  | feed {s s' : S} {i : Nat} : M.feed s (data i) = some s' → Drive data (s, i) (s', i + 1)

variable {M}

theorem toCaller_of_step {s s' : S} (h : M.step s = some s') (fuel : Nat) :
    M.toCaller (fuel + 1) s = M.toCaller fuel s' := by
  rw [toCaller, h]

theorem toCaller_of_none {s : S} (h : M.step s = none) (fuel : Nat) : M.toCaller fuel s = s := by
  cases fuel with
  | zero => rfl
  | succ fuel => rw [toCaller, h]

/-- The states of a drive in which the caller has control: `f l` after `l` data. -/
theorem exists_returns {data : Nat → D} {p q : S × Nat}
    (h : Relation.ReflTransGen (M.Drive data) p q) (ht : M.step q.1 = none) :
    p.2 ≤ q.2 ∧ ∃ (f : Nat → S) (fuel₀ : Nat), f q.2 = q.1 ∧ ∀ fuel, fuel₀ ≤ fuel →
      M.toCaller fuel p.1 = f p.2 ∧ ∀ l, p.2 ≤ l → l < q.2 →
        ∃ s, M.feed (f l) (data l) = some s ∧ M.toCaller fuel s = f (l + 1) := by
  induction h using Relation.ReflTransGen.head_induction_on with
  | refl =>
    refine ⟨Nat.le_refl _, fun _ => q.1, 0, rfl, fun fuel _ => ⟨toCaller_of_none ht fuel, ?_⟩⟩
    intro l hl hlt
    omega
  | head hst _ ih =>
    obtain ⟨hle, f, fuel₀, hq, hf⟩ := ih
    cases hst with
    | @step s s' i hs =>
      refine ⟨hle, f, fuel₀ + 1, hq, ?_⟩
      intro fuel hfuel
      obtain ⟨m, rfl⟩ : ∃ m, fuel = m + 1 := ⟨fuel - 1, by omega⟩
      constructor
      · rw [toCaller_of_step hs]
        exact (hf m (by omega)).1
      · intro l hl hlt
        exact (hf (m + 1) (by omega)).2 l hl hlt
    | @feed s s' i hs =>
      have hne : ∀ l, i < l → Function.update f i s l = f l := by
        intro l hl
        exact Function.update_of_ne (Nat.ne_of_gt hl) s f
      have hle : i + 1 ≤ q.2 := hle
      refine ⟨Nat.le_of_succ_le hle, Function.update f i s, fuel₀, ?_, fun fuel hfuel => ⟨?_, ?_⟩⟩
      · rw [hne _ hle, hq]
      · rw [Function.update_self]
        exact toCaller_of_none (M.step_of_feed _ _ _ hs) fuel
      · intro l hl hlt
        have hl : i ≤ l := hl
        obtain ⟨h0, hrest⟩ := hf fuel hfuel
        rw [hne (l + 1) (Nat.lt_succ_of_le hl)]
        rcases Nat.eq_or_lt_of_le hl with rfl | hlt'
        · rw [Function.update_self]
          exact ⟨s', hs, h0⟩
        · rw [hne l hlt']
          exact hrest l hlt' hlt

/-- **A drive is a session.**  With enough fuel, the machine waits for a datum
before each of the `n`, and behind them it is in the last state of the drive. -/
theorem exists_session {data : Nat → D} {s t : S} {n : Nat}
    (h : Relation.ReflTransGen (M.Drive data) (s, 0) (t, n)) (ht : M.step t = none) :
    ∃ fuel₀, ∀ fuel, fuel₀ ≤ fuel → M.session data fuel s n = some t ∧
      ∀ i, i < n → ∃ u, M.session data fuel s i = some u ∧ (M.feed u (data i)).isSome := by
  obtain ⟨_, f, fuel₀, hn, hf⟩ := exists_returns h ht
  refine ⟨fuel₀, ?_⟩
  intro fuel hfuel
  obtain ⟨h0, hrest⟩ := hf fuel hfuel
  have hall : ∀ i, i ≤ n → M.session data fuel s i = some (f i) := by
    intro i hi
    induction i with
    | zero => rw [session, h0]
    | succ i ih =>
      obtain ⟨u, hu, hv⟩ := hrest i (Nat.zero_le i) hi
      rw [session, ih (by omega), Option.bind_some, hu, Option.map_some, hv]
  refine ⟨by rw [hall n (Nat.le_refl n)]; exact congrArg some hn, ?_⟩
  intro i hi
  obtain ⟨u, hu, _⟩ := hrest i (Nat.zero_le i) hi
  exact ⟨f i, hall i (Nat.le_of_lt hi), by rw [hu]; rfl⟩

/-! ### The runs of a machine -/

inductive Act (D : Type)
  | step
  | feed (d : D)

/-- A machine and a caller who may feed it any data. -/
def system (M : Driven S D) (s : S) : System S (Act D) where
  init := s
  step s
    | .step => M.step s
    | .feed d => M.feed s d

theorem reachable_toCaller {s₀ s : S} (h : (M.system s₀).Reachable s) (fuel : Nat) :
    (M.system s₀).Reachable (M.toCaller fuel s) := by
  induction fuel generalizing s with
  | zero => exact h
  | succ fuel ih =>
    cases hs : M.step s with
    | none =>
      rw [toCaller_of_none hs]
      exact h
    | some s' =>
      rw [toCaller_of_step hs]
      exact ih (.step (a := .step) h trivial hs)

theorem reachable_session {data : Nat → D} {fuel : Nat} {s t : S} {i : Nat}
    (h : M.session data fuel s i = some t) : (M.system s).Reachable t := by
  induction i generalizing t with
  | zero =>
    obtain rfl := Option.some.inj h
    exact reachable_toCaller .init fuel
  | succ i ih =>
    obtain ⟨u, hu, h⟩ := Option.bind_eq_some_iff.mp h
    obtain ⟨v, hv, rfl⟩ := Option.map_eq_some_iff.mp h
    exact reachable_toCaller (.step (a := .feed (data i)) (ih hu) trivial hv) fuel

/-- `R` relates the states of a concrete machine to those of an abstract one. -/
structure Simulation (M : Driven S D) (N : Driven T D) (R : S → T → Prop) : Prop where
  step : ∀ {s t t'}, R s t → N.step t = some t' → ∃ s', M.step s = some s' ∧ R s' t'
  feed : ∀ {s t d t'}, R s t → N.feed t d = some t' → ∃ s', M.feed s d = some s' ∧ R s' t'

theorem Simulation.drive {N : Driven T D} {R : S → T → Prop} (h : Simulation M N R)
    {data : Nat → D} {s : S} {p q : T × Nat} (hR : R s p.1)
    (hd : Relation.ReflTransGen (N.Drive data) p q) :
    ∃ s', Relation.ReflTransGen (M.Drive data) (s, p.2) (s', q.2) ∧ R s' q.1 := by
  induction hd with
  | refl => exact ⟨s, .refl, hR⟩
  | tail _ hst ih =>
    obtain ⟨u, hu, hRu⟩ := ih
    cases hst with
    | step ht =>
      obtain ⟨u', hu', hR'⟩ := h.step hRu ht
      exact ⟨u', hu.tail (.step hu'), hR'⟩
    | feed ht =>
      obtain ⟨u', hu', hR'⟩ := h.feed hRu ht
      exact ⟨u', hu.tail (.feed hu'), hR'⟩

/-- **The runs of the concrete machine are runs of the abstract one**, when it
steps only where the abstract one does. -/
theorem Simulation.reachable {N : Driven T D} {R : S → T → Prop} (h : Simulation M N R)
    (hstep : ∀ {s t}, R s t → N.step t = none → M.step s = none)
    (hfeed : ∀ {s t d}, R s t → N.feed t d = none → M.feed s d = none) {s₀ s : S} {t₀ : T}
    (h0 : R s₀ t₀) (hs : (M.system s₀).Reachable s) :
    ∃ t, (N.system t₀).Reachable t ∧ R s t := by
  apply hs.invariant (I := fun s => ∃ t, (N.system t₀).Reachable t ∧ R s t) ⟨t₀, .init, h0⟩
  rintro s a s' ⟨t, ht, hR⟩ _ hst
  cases a with
  | step =>
    have hst : M.step s = some s' := hst
    cases hn : N.step t with
    | none => exact absurd (hst.symm.trans (hstep hR hn)) (by simp)
    | some t' =>
      obtain ⟨s'', hs'', hR'⟩ := h.step hR hn
      obtain rfl := Option.some.inj (hst.symm.trans hs'')
      exact ⟨t', .step (a := .step) ht trivial hn, hR'⟩
  | feed d =>
    have hst : M.feed s d = some s' := hst
    cases hn : N.feed t d with
    | none => exact absurd (hst.symm.trans (hfeed hR hn)) (by simp)
    | some t' =>
      obtain ⟨s'', hs'', hR'⟩ := h.feed hR hn
      obtain rfl := Option.some.inj (hst.symm.trans hs'')
      exact ⟨t', .step (a := .feed d) ht trivial hn, hR'⟩

end Driven

end Lib
