import Mathlib.Data.List.Sublists

/-!
# Histories and linearizability

The history of a shared object, newest event first: a call is invoked, takes effect at
one step between its invocation and its response, and responds with its result.

* `WellFormed`: the three events of a call come in this order, each once.
* `Legal`: the calls in a given order are a run of the sequential object.
* `WellFormed.linearizes`: the order in which the calls take effect is a linearization
  as soon as it is legal.
-/

namespace Lib

/-- An event of a call of `ι` with a result of `ρ`. -/
inductive Event (ι ρ : Type)
  | invoke (a : ι)
  | commit (a : ι) (r : ρ)
  | respond (a : ι) (r : ρ)

/-- The events so far, newest first. -/
abbrev History (ι ρ : Type) := List (Event ι ρ)

namespace History

variable {ι ρ S : Type}

def invoked : History ι ρ → List ι
  | [] => []
  | .invoke a :: l => a :: invoked l
  | .commit _ _ :: l | .respond _ _ :: l => invoked l

def committed : History ι ρ → List (ι × ρ)
  | [] => []
  | .commit a r :: l => (a, r) :: committed l
  | .invoke _ :: l | .respond _ _ :: l => committed l

def responded : History ι ρ → List (ι × ρ)
  | [] => []
  | .respond a r :: l => (a, r) :: responded l
  | .invoke _ :: l | .commit _ _ :: l => responded l

/-- The calls with their results, in the order in which they took effect. -/
def order (l : History ι ρ) : List (ι × ρ) := l.committed.reverse

/-- The call `a` has responded when the call `b` is invoked. -/
def Before (l : History ι ρ) (a b : ι) : Prop :=
  ∃ l₁ l₂ : History ι ρ, l = l₂ ++ .invoke b :: l₁ ∧ a ∈ l₁.responded.map Prod.fst

/-- A call is invoked, takes effect and responds with the result, in this order and once. -/
inductive WellFormed : History ι ρ → Prop
  | nil : WellFormed []
  | invoke {l : History ι ρ} {a : ι} : WellFormed l → a ∉ l.invoked → WellFormed (.invoke a :: l)
  | commit {l : History ι ρ} {a : ι} {r : ρ} : WellFormed l → a ∈ l.invoked →
      a ∉ l.committed.map Prod.fst → WellFormed (.commit a r :: l)
  | respond {l : History ι ρ} {a : ι} {r : ρ} : WellFormed l → (a, r) ∈ l.committed →
      WellFormed (.respond a r :: l)

theorem committed_append (l₂ l₁ : History ι ρ) :
    committed (l₂ ++ l₁) = l₂.committed ++ l₁.committed := by
  induction l₂ with
  | nil => rfl
  | cons e l₂ ih => cases e <;> simp [committed, ih]

theorem Before.invoked {l : History ι ρ} {a b : ι} (h : Before l a b) : b ∈ l.invoked := by
  obtain ⟨l₁, l₂, rfl, -⟩ := h
  induction l₂ with
  | nil => exact List.mem_cons_self
  | cons e l₂ ih =>
    cases e with
    | invoke a => exact List.mem_cons_of_mem _ ih
    | _ => exact ih

namespace WellFormed

variable {l l₁ l₂ : History ι ρ}

theorem of_append (h : WellFormed (l₂ ++ l₁)) : WellFormed l₁ := by
  induction l₂ with
  | nil => exact h
  | cons e l₂ ih => cases h <;> exact ih ‹_›

theorem invoked_of_committed (h : WellFormed l) {a : ι} (ha : a ∈ l.committed.map Prod.fst) :
    a ∈ l.invoked := by
  induction h with
  | nil => simp [committed] at ha
  | invoke _ _ ih => exact List.mem_cons_of_mem _ (ih ha)
  | commit _ hinv _ ih =>
    rcases List.mem_cons.mp ha with rfl | ha
    · exact hinv
    · exact ih ha
  | respond _ _ ih => exact ih ha

theorem committed_of_responded (h : WellFormed l) {x : ι × ρ} (hx : x ∈ l.responded) :
    x ∈ l.committed := by
  induction h with
  | nil => exact hx
  | invoke _ _ ih => exact ih hx
  | commit _ _ _ ih => exact List.mem_cons_of_mem _ (ih hx)
  | respond _ hcom ih =>
    rcases List.mem_cons.mp hx with rfl | hx
    · exact hcom
    · exact ih hx

theorem nodup_committed (h : WellFormed l) : (l.committed.map Prod.fst).Nodup := by
  induction h with
  | nil => exact List.nodup_nil
  | invoke _ _ ih => exact ih
  | commit _ _ hnew ih => exact List.nodup_cons.mpr ⟨hnew, ih⟩
  | respond _ _ ih => exact ih

/-- **Real time.**  A call that had responded when another was invoked took effect before. -/
theorem realTime (h : WellFormed l) {a b : ι} (hab : Before l a b)
    (hb : b ∈ l.order.map Prod.fst) : [a, b].Sublist (l.order.map Prod.fst) := by
  obtain ⟨l₁, l₂, rfl, ha⟩ := hab
  obtain ⟨x, hx, rfl⟩ := List.mem_map.mp ha
  have hl₁ : WellFormed l₁ := by
    cases h.of_append
    assumption
  have hearlier : x.1 ∈ l₁.committed.map Prod.fst :=
    List.mem_map_of_mem (hl₁.committed_of_responded hx)
  have hnew : b ∉ l₁.committed.map Prod.fst := by
    cases h.of_append with
    | invoke hl hfresh => exact fun hb => hfresh (hl.invoked_of_committed hb)
  have hsplit : (order (l₂ ++ .invoke b :: l₁)).map Prod.fst =
      (l₁.committed.map Prod.fst).reverse ++ (l₂.committed.map Prod.fst).reverse := by
    simp [order, committed_append, committed]
  rw [hsplit] at hb ⊢
  have hlater : b ∈ l₂.committed.map Prod.fst := by
    rcases List.mem_append.mp hb with hb | hb
    · exact absurd (List.mem_reverse.mp hb) hnew
    · exact List.mem_reverse.mp hb
  exact (List.singleton_sublist.mpr (List.mem_reverse.mpr hearlier)).append
    (List.singleton_sublist.mpr (List.mem_reverse.mpr hlater))

end WellFormed

/-! ### The sequential object -/

/-- The calls, made one after another from `s`, have these results and end in `s'`. -/
def Legal (apply : ι → S → S × ρ) : S → List (ι × ρ) → S → Prop
  | s, [], s' => s' = s
  | s, x :: xs, s' => x.2 = (apply x.1 s).2 ∧ Legal apply (apply x.1 s).1 xs s'

theorem Legal.concat {apply : ι → S → S × ρ} {s s' : S} {xs : List (ι × ρ)}
    (h : Legal apply s xs s') (a : ι) :
    Legal apply s (xs ++ [(a, (apply a s').2)]) (apply a s').1 := by
  induction xs generalizing s with
  | nil =>
    obtain rfl := h
    exact ⟨rfl, rfl⟩
  | cons x xs ih => exact ⟨h.1, ih h.2⟩

/-- An order of the calls that explains a history as a run of the sequential object. -/
structure Linearizes (apply : ι → S → S × ρ) (s : S) (l : History ι ρ) (xs : List (ι × ρ))
    (s' : S) : Prop where
  legal : Legal apply s xs s'
  nodup : (xs.map Prod.fst).Nodup
  responded : ∀ x ∈ l.responded, x ∈ xs
  realTime : ∀ a b, Before l a b → b ∈ xs.map Prod.fst → [a, b].Sublist (xs.map Prod.fst)

/-- **Linearization points.**  The order in which the calls took effect. -/
theorem WellFormed.linearizes {apply : ι → S → S × ρ} {s s' : S} {l : History ι ρ}
    (h : WellFormed l) (hlegal : Legal apply s l.order s') :
    Linearizes apply s l l.order s' where
  legal := hlegal
  nodup := by
    rw [order, List.map_reverse]
    exact List.nodup_reverse.mpr h.nodup_committed
  responded x hx := List.mem_reverse.mpr (h.committed_of_responded hx)
  realTime _ _ hab hb := h.realTime hab hb

end History

end Lib
