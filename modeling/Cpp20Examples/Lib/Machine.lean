import Mathlib.Logic.Relation

/-!
# Deterministic machines

A machine is a function `step : S → Option S`, `none` where it has stopped.

* `Steps step s t`: the machine comes from `s` to `t`.
* `Steps.simulate`: a run of a machine is matched by a run of one that simulates it.
* `Steps.comparable`: of two states of one run, one comes from the other.
* `Steps.of_stopped`: every state of a run that stops leads to its last state.
* `Steps.exists_stopped`: a machine with a measure stops.
* `Steps.counted`: when each step raises a number by one, it counts the steps.
-/

namespace Lib

variable {S : Type} {step : S → Option S}

/-- The machine comes from `s` to `t`. -/
def Steps (step : S → Option S) : S → S → Prop := Relation.ReflTransGen fun s t => step s = some t

namespace Steps

theorem refl (s : S) : Steps step s s := Relation.ReflTransGen.refl

theorem head {s t u : S} (h : step s = some t) (ht : Steps step t u) : Steps step s u :=
  Relation.ReflTransGen.head h ht

theorem tail {s t u : S} (hs : Steps step s t) (h : step t = some u) : Steps step s u :=
  Relation.ReflTransGen.tail hs h

theorem single {s t : S} (h : step s = some t) : Steps step s t := Relation.ReflTransGen.single h

theorem trans {s t u : S} (hs : Steps step s t) (ht : Steps step t u) : Steps step s u :=
  Relation.ReflTransGen.trans hs ht

theorem mono {step' : S → Option S} (h : ∀ s t, step s = some t → step' s = some t) {s t : S}
    (hst : Steps step s t) : Steps step' s t := by
  induction hst with
  | refl => exact refl s
  | tail _ hs ih => exact ih.tail (h _ _ hs)

theorem lift {T : Type} {step' : T → Option T} (f : S → T)
    (h : ∀ s t, step s = some t → step' (f s) = some (f t)) {s t : S} (hst : Steps step s t) :
    Steps step' (f s) (f t) := by
  induction hst with
  | refl => exact refl (f s)
  | tail _ hs ih => exact ih.tail (h _ _ hs)

/-- **Simulation.**  When each step of a machine is matched by a run of another one, so is
each run. -/
theorem simulate {T : Type} {step' : T → Option T} {R : S → T → Prop}
    (h : ∀ s s' t, R s t → step s = some s' → ∃ t', Steps step' t t' ∧ R s' t') {s s' : S} {t : T}
    (hst : Steps step s s') (hR : R s t) : ∃ t', Steps step' t t' ∧ R s' t' := by
  induction hst with
  | refl => exact ⟨t, refl t, hR⟩
  | tail _ hs ih =>
    obtain ⟨t₁, ht₁, hR₁⟩ := ih
    obtain ⟨t₂, ht₂, hR₂⟩ := h _ _ _ hR₁ hs
    exact ⟨t₂, ht₁.trans ht₂, hR₂⟩

theorem invariant {I : S → Prop} (hstep : ∀ s t, I s → step s = some t → I t) {s t : S}
    (h : Steps step s t) (hs : I s) : I t := by
  induction h with
  | refl => exact hs
  | tail _ h ih => exact hstep _ _ ih h

/-- Of two states of one run, one comes from the other. -/
theorem comparable {s t u : S} (ht : Steps step s t) (hu : Steps step s u) :
    Steps step t u ∨ Steps step u t := by
  have hdet : Relator.RightUnique fun s t => step s = some t :=
    fun _ _ _ h h' => Option.some.inj (h.symm.trans h')
  exact Relation.ReflTransGen.total_of_right_unique hdet ht hu

theorem eq_of_stopped {s t : S} (hs : step s = none) (h : Steps step s t) : t = s := by
  rcases Relation.ReflTransGen.cases_head h with rfl | ⟨u, hu, -⟩
  · rfl
  · rw [hs] at hu
    exact absurd hu (by simp)

/-- **Every state of a run that stops leads to its last state.** -/
theorem of_stopped {s t u : S} (ht : Steps step s t) (hstop : step t = none)
    (hu : Steps step s u) : Steps step u t := by
  rcases ht.comparable hu with h | h
  · rw [h.eq_of_stopped hstop]
    exact refl t
  · exact h

/-- **A machine whose steps make a measure less** stops. -/
theorem exists_stopped {I : S → Prop} {μ : S → Nat}
    (hstep : ∀ s t, I s → step s = some t → I t ∧ μ t < μ s) {s : S} (hs : I s) :
    ∃ t, Steps step s t ∧ step t = none ∧ I t := by
  induction hn : μ s using Nat.strongRecOn generalizing s with
  | ind n ih =>
    cases hst : step s with
    | none => exact ⟨s, refl s, hst, hs⟩
    | some t =>
      obtain ⟨ht, hlt⟩ := hstep s t hs hst
      obtain ⟨u, hu, hstop, hI⟩ := ih (μ t) (hn ▸ hlt) ht rfl
      exact ⟨u, .head hst hu, hstop, hI⟩

end Steps

/-- The state after exactly `n` steps. -/
def after (step : S → Option S) : Nat → S → Option S
  | 0, s => some s
  | n + 1, s => (step s).bind (after step n)

/-- **A number that each step raises by one counts the steps.** -/
theorem Steps.counted {I : S → Prop} {f : S → Nat}
    (hstep : ∀ s t, I s → step s = some t → I t ∧ f t = f s + 1) {s t : S} (h : Steps step s t)
    (hs : I s) : ∃ n, after step n s = some t ∧ f t = f s + n := by
  induction h using Relation.ReflTransGen.head_induction_on with
  | refl => exact ⟨0, rfl, rfl⟩
  | head hst _ ih =>
    obtain ⟨hI, hf⟩ := hstep _ _ hs hst
    obtain ⟨n, hn, hcount⟩ := ih hI
    refine ⟨n + 1, ?_, by omega⟩
    rw [after, hst]
    exact hn

/-- The machine, run for at most `n` steps. -/
def runFor (step : S → Option S) : Nat → S → S
  | 0, s => s
  | n + 1, s =>
    match step s with
    | some t => runFor step n t
    | none => s

theorem steps_runFor (n : Nat) (s : S) : Steps step s (runFor step n s) := by
  induction n generalizing s with
  | zero => exact .refl s
  | succ n ih =>
    unfold runFor
    split
    · rename_i t ht
      exact .head ht (ih t)
    · exact .refl s

end Lib
