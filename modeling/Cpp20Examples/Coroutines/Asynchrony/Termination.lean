import Cpp20Examples.Coroutines.Asynchrony.Pending
import Mathlib.Logic.Hydra

/-!
# `run` returns

A coroutine may ask the clock and go on in a way that depends on it, so there is no
number of steps that it takes at most.  Each instruction replaces what is left of a
coroutine by parts of it, as in the hydra game (`Relation.CutExpand`), and the steps
between two instructions lead to the next one.

* `measure_step`: what decreases in a step.
* `terminates`: there is no infinite run.
* `scheduler_correct`: what holds in every state of every run.
-/

namespace Cpp20Examples.Asynchrony

open Lib Relation

/-- What is left of a coroutine, or of one that it detaches, behind an instruction. -/
inductive Part : Coro → Coro → Prop
  | now (rest : TimePoint → Coro) (t : TimePoint) : Part (rest t) (.now rest)
  | await (t : TimePoint) (rest : Coro) : Part rest (.await t rest)
  | child (child rest : Coro) : Part child (.detach child rest)
  | rest (child rest : Coro) : Part rest (.detach child rest)

theorem wellFounded_part : WellFounded Part := by
  refine ⟨?_⟩
  intro p
  induction p with
  | done => exact ⟨_, fun _ h => nomatch h⟩
  | now rest ih => exact ⟨_, fun _ (.now _ t) => ih t⟩
  | await t rest ih => exact ⟨_, fun _ (.await _ _) => ih⟩
  | detach child rest ihc ihr =>
    refine ⟨_, ?_⟩
    intro _ h
    cases h with
    | child => exact ihc
    | rest => exact ihr

variable {K : Type} {address : Handle → Nat} {c : PriorityQueue K Entry (greater address)}

/-- What is left of a suspended coroutine. -/
def leftOf : Option Point → Coro
  | some (.suspended _ rest) => rest
  | _ => .done

/-- What is left of the coroutines with an entry. -/
def left (s : State K) (M : Multiset Entry) : Multiset Coro := M.map fun e => leftOf (s.frames e.2)

/-- What the thread holds itself. -/
def Place.left : Place → Multiset Coro
  | .main coros => coros
  | .running _ p => {p}
  | _ => 0

/-- How far the next instruction is. -/
def Place.rank : Place → Nat
  | .main coros => coros.length + 5
  | .resumed _ => 5
  | .loop => 4
  | .sleeping _ => 3
  | .due => 2
  | .running _ _ => 1
  | .returned => 0
  | .failed => 0

def measure (c : PriorityQueue K Entry (greater address)) (s : State K) : Multiset Coro × Nat :=
  (left s (c.items s.pending_coroutines_) + s.place.left, s.place.rank)

/-- The order in which the measure decreases. -/
def Below : Multiset Coro × Nat → Multiset Coro × Nat → Prop := Prod.Lex (CutExpand Part) (· < ·)

theorem wellFounded_below : WellFounded Below :=
  wellFounded_part.cutExpand.prod_lex Nat.lt_wfRel.wf

variable {s s' : State K} {M : Multiset Entry} {h : Handle} {t now : TimePoint} {p : Coro}

theorem left_congr (hframes : ∀ e ∈ M, s'.frames e.2 = s.frames e.2) : left s' M = left s M :=
  Multiset.map_congr rfl fun e he => by rw [hframes e he]

theorem left_update {x : Option Point} (hout : h ∉ M.map Prod.snd)
    (hframes : s'.frames = Function.update s.frames h x) : left s' M = left s M := by
  apply left_congr
  intro e he
  rw [hframes, Function.update_of_ne]
  rintro rfl
  exact hout (Multiset.mem_map.mpr ⟨e, he, rfl⟩)

theorem left_enqueue (hout : h ∉ (c.items s.pending_coroutines_).map Prod.snd)
    (hpending : s'.pending_coroutines_ = c.push (t, h) s.pending_coroutines_)
    (hframes : s'.frames = Function.update s.frames h (some (.suspended t p))) :
    left s' (c.items s'.pending_coroutines_) = left s (c.items s.pending_coroutines_) + {p} := by
  have hself : s'.frames h = some (.suspended t p) := by rw [hframes, Function.update_self]
  rw [hpending, c.items_push, ← left_update hout hframes, left, Multiset.map_cons, hself, add_comm,
    Multiset.singleton_add]
  rfl

/-- A coroutine that is detached is in the container from then on. -/
theorem left_detach (hg : Good c s) (child : Coro) :
    left (s.detach c child now) (c.items (s.detach c child now).pending_coroutines_) =
      left s (c.items s.pending_coroutines_) + {child} := by
  have hnew : s.created ∉ (c.items s.pending_coroutines_).map Prod.snd :=
    hg.books.not_mem (by simp [((hg.books.book _).fresh (Nat.le_refl _)).1])
  exact left_enqueue hnew rfl rfl

/-- An instruction replaces what is left by parts of it. -/
theorem below_cut {active : Handle} (hplace : s.place = .running active p)
    (parts : Multiset Coro) (hparts : ∀ q ∈ parts, Part q p)
    (hleft : left s' (c.items s'.pending_coroutines_) + s'.place.left =
      left s (c.items s.pending_coroutines_) + parts) : Below (measure c s') (measure c s) := by
  refine Prod.Lex.left _ _ ⟨parts, p, hparts, ?_⟩
  rw [hleft, hplace, Place.left, add_right_comm]

/-- The other steps lead to the next instruction. -/
theorem below_rank (hleft : left s' (c.items s'.pending_coroutines_) + s'.place.left =
    left s (c.items s.pending_coroutines_) + s.place.left) (hlt : s'.place.rank < s.place.rank) :
    Below (measure c s') (measure c s) := by
  rw [measure, measure, hleft]
  exact Prod.Lex.right _ hlt

theorem measure_running {active : Handle} (hg : Good c s) (hplace : s.place = .running active p)
    (hclock : ¬ now < s.clock) (hst : step c s now = some s') :
    Below (measure c s') (measure c s) := by
  have hrun : s.frames active = some .running := by
    have hfits := hg.fits
    rw [Fits, hplace] at hfits
    exact hfits.1
  have hout : active ∉ (c.items s.pending_coroutines_).map Prod.snd :=
    hg.books.not_mem (by simp [hrun])
  simp only [step, hclock, if_false, hplace, Option.some.injEq] at hst
  cases p with
  | done =>
    subst hst
    apply below_cut hplace 0 (by simp)
    exact congrArg (· + 0) (left_update hout rfl)
  | now rest =>
    subst hst
    refine below_cut hplace {rest now} ?_ rfl
    intro q hq
    obtain rfl := Multiset.mem_singleton.mp hq
    exact .now rest now
  | await time rest =>
    subst hst
    refine below_cut hplace {rest} ?_ ?_
    · intro q hq
      obtain rfl := Multiset.mem_singleton.mp hq
      exact .await time q
    · apply (add_zero _).trans
      exact left_enqueue hout rfl rfl
  | detach child rest =>
    subst hst
    refine below_cut hplace {child, rest} ?_ ?_
    · intro q hq
      rcases Multiset.mem_cons.mp hq with rfl | hq
      · exact .child q rest
      · obtain rfl := Multiset.mem_singleton.mp hq
        exact .rest child q
    · exact (congrArg (· + {rest}) (left_detach hg child)).trans (add_assoc _ _ _)

/-- The coroutine that is taken out of the container is not counted there any more. -/
theorem measure_due (hg : Good c s) (hplace : s.place = .due) (hclock : ¬ now < s.clock)
    (hst : step c s now = some s') : Below (measure c s') (measure c s) := by
  obtain ⟨e, rest, -, hitems, -, hrest, hstep⟩ := step_due hg hplace hclock
  obtain rfl := Option.some.inj (hstep.symm.trans hst)
  have hnodup := hg.books.nodup
  rw [hitems, Multiset.map_cons, Multiset.nodup_cons] at hnodup
  refine below_rank ?_ (by simp [hplace, Place.rank])
  have hleft : left s (e ::ₘ c.items (c.pop s.pending_coroutines_)) =
      left s (c.items (c.pop s.pending_coroutines_)) + {rest} := by
    rw [left, Multiset.map_cons, hrest, ← Multiset.singleton_add, add_comm]
    rfl
  rw [hplace, hitems, hleft]
  refine Eq.trans ?_ (add_zero _).symm
  refine congrArg₂ (· + ·) ?_ rfl
  exact left_update hnodup.1 rfl

theorem measure_detach {coro : Coro} {coros : List Coro} (hg : Good c s)
    (hplace : s.place = .main (coro :: coros)) (hclock : ¬ now < s.clock)
    (hst : step c s now = some s') : Below (measure c s') (measure c s) := by
  simp only [step, hclock, if_false, hplace] at hst
  obtain rfl := Option.some.inj hst
  refine below_rank ?_ (by simp [hplace, Place.rank])
  rw [hplace]
  exact (congrArg (· + (coros : Multiset Coro)) (left_detach hg coro)).trans (add_assoc _ _ _)

/-- **Every step decreases the measure.** -/
theorem measure_step (hg : Good c s) (hst : step c s now = some s') :
    Below (measure c s') (measure c s) := by
  have hclock : ¬ now < s.clock := by
    intro h
    rw [step, if_pos h] at hst
    exact absurd hst (by simp)
  cases hplace : s.place with
  | running active p => exact measure_running hg hplace hclock hst
  | due => exact measure_due hg hplace hclock hst
  | main coros =>
    cases coros with
    | nil =>
      simp only [step, hclock, if_false, hplace] at hst
      obtain rfl := Option.some.inj hst
      exact below_rank (by rw [hplace]; rfl) (by simp [hplace, Place.rank])
    | cons coro coros => exact measure_detach hg hplace hclock hst
  | loop =>
    simp only [step, hclock, if_false, hplace] at hst
    split at hst
    · obtain rfl := Option.some.inj hst
      exact below_rank (by rw [hplace]; rfl) (by simp [hplace, Place.rank])
    · split at hst <;> obtain rfl := Option.some.inj hst
      · exact below_rank (by rw [hplace]; rfl) (by simp [hplace, Place.rank])
      · refine below_rank ?_ ?_
        · rw [hplace]
          split <;> rfl
        · rw [hplace]
          split <;> simp [Place.rank]
  | sleeping time =>
    simp only [step, hclock, if_false, hplace] at hst
    split at hst
    · exact absurd hst (by simp)
    · obtain rfl := Option.some.inj hst
      exact below_rank (by rw [hplace]; rfl) (by simp [hplace, Place.rank])
  | resumed active =>
    simp only [step, hclock, if_false, hplace, Option.some.injEq, State.settle] at hst
    split at hst <;> subst hst
    · exact below_rank (by rw [hplace]; rfl) (by simp [hplace, Place.rank])
    · rename_i hfinal
      have hout : active ∉ (c.items s.pending_coroutines_).map Prod.snd :=
        hg.books.not_mem (by simp [hfinal])
      refine below_rank ?_ (by simp [hplace, Place.rank])
      rw [hplace]
      exact congrArg (· + 0) (left_update hout rfl)
    · exact below_rank (by rw [hplace]; rfl) (by simp [hplace, Place.rank])
  | returned => exact absurd hst (by simp [step, hclock, hplace])
  | failed => exact absurd hst (by simp [step, hclock, hplace])

/-! ### The runs -/

theorem terminates (hg : Good c s) : Acc (fun s' s => ∃ now, step c s now = some s') s := by
  generalize hm : measure c s = m
  induction m using wellFounded_below.induction generalizing s with
  | _ m ih =>
    subst hm
    exact ⟨_, fun s' ⟨now, hst⟩ => ih _ (measure_step hg hst) (good_step hg hst) rfl⟩

/-- Until it returns, a step can be taken once it is late enough. -/
theorem exists_step (hg : Good c s) (hplace : s.place ≠ .returned) :
    ∃ t, ∀ now, t ≤ now → (step c s now).isSome = true := by
  have hfits := hg.fits
  cases hp : s.place with
  | sleeping time =>
    refine ⟨max s.clock time, ?_⟩
    intro now hnow
    obtain ⟨hclock, htime⟩ := max_le_iff.mp hnow
    simp [step, hp, Int.not_lt.mpr hclock, Int.not_lt.mpr htime]
  | returned => exact absurd hp hplace
  | failed => exact absurd hfits (by rw [Fits, hp]; exact id)
  | main coros =>
    refine ⟨s.clock, ?_⟩
    intro now hclock
    cases coros <;> simp [step, hp, Int.not_lt.mpr hclock]
  | loop =>
    refine ⟨s.clock, ?_⟩
    intro now hclock
    simp only [step, hp, Int.not_lt.mpr hclock, if_false]
    split
    · rfl
    · split <;> rfl
  | due =>
    refine ⟨s.clock, ?_⟩
    intro now hclock
    simp only [step, hp, Int.not_lt.mpr hclock, if_false]
    split <;> rfl
  | running active p =>
    exact ⟨s.clock, fun now hclock => by simp [step, hp, Int.not_lt.mpr hclock]⟩
  | resumed active =>
    exact ⟨s.clock, fun now hclock => by simp [step, hp, Int.not_lt.mpr hclock]⟩

/-- What is true in every state of a run. -/
structure Correct (c : PriorityQueue K Entry (greater address)) (s : State K) : Prop where
  /-- each suspended coroutine has one entry, with the time it asked for -/
  one_entry : ∀ h t p, s.frames h = some (.suspended t p) →
    (c.items s.pending_coroutines_).filter (fun e => e.2 = h) = {(t, h)}
  /-- at the loop condition all coroutines that live are suspended -/
  suspended : s.place = .loop → ∀ h f, s.frames h = some f → ∃ t p, f = .suspended t p
  /-- what is resumed is a least entry, and not before its time -/
  least : ∀ now s', s.place = .due → step c s now = some s' →
    ∃ e rest, s.frames e.2 = some (.suspended e.1 rest) ∧ s'.place = .running e.2 rest ∧
      s'.resumptions = e :: s.resumptions ∧ e ∈ c.items s.pending_coroutines_ ∧
      (∀ e' ∈ c.items s.pending_coroutines_, greater address e e' = false) ∧ e.1 ≤ now
  /-- what a coroutine asked for is what it is waiting for and what it was resumed for -/
  one_resumption : ∀ h,
    timesOf h s.requests = waiting (s.frames h) ++ timesOf h s.resumptions
  not_failed : s.place ≠ .failed
  no_infinite_run : Acc (fun s' s => ∃ now, step c s now = some s') s
  progress : s.place ≠ .returned → ∃ t, ∀ now, t ≤ now → (step c s now).isSome = true
  destroyed_le : ∀ h, s.destroyed.count h ≤ 1
  /-- when `run` has returned, nothing is left -/
  returned : s.place = .returned → c.items s.pending_coroutines_ = 0 ∧
    ∀ h < s.created, s.frames h = none ∧ s.destroyed.count h = 1

theorem Balanced.one_entry (hb : Balanced M s) (hf : s.frames h = some (.suspended t p)) :
    M.filter (fun e => e.2 = h) = {(t, h)} := by
  obtain ⟨M', rfl⟩ := Multiset.exists_cons_of_mem (((hb.book h).entry t).mpr ⟨p, hf⟩)
  have hnodup := hb.nodup
  rw [Multiset.map_cons, Multiset.nodup_cons] at hnodup
  have hothers : M'.filter (fun e => e.2 = h) = 0 := by
    apply Multiset.filter_eq_nil.mpr
    rintro e he rfl
    exact hnodup.1 (Multiset.mem_map.mpr ⟨e, he, rfl⟩)
  rw [Multiset.filter_cons, hothers, if_pos rfl, add_zero]

theorem Good.correct (hg : Good c s) : Correct c s where
  one_entry _ _ _ hf := hg.books.one_entry hf
  suspended hplace := by
    have hfits := hg.fits
    rw [Fits, hplace] at hfits
    exact hfits
  least now s' hplace hst := by
    have hclock : ¬ now < s.clock := by
      intro h
      rw [step, if_pos h] at hst
      exact absurd hst (by simp)
    obtain ⟨e, rest, htop, hitems, hdue, hrest, hstep⟩ := step_due hg hplace hclock
    obtain rfl := Option.some.inj (hstep.symm.trans hst)
    refine ⟨e, rest, hrest, rfl, rfl, ?_, c.top_max _ _ htop, hdue.trans (Int.not_lt.mp hclock)⟩
    rw [hitems]
    exact Multiset.mem_cons_self _ _
  one_resumption h := (hg.books.book h).requests
  not_failed hplace := by
    have hfits := hg.fits
    rw [Fits, hplace] at hfits
    exact hfits
  no_infinite_run := terminates hg
  progress := exists_step hg
  destroyed_le h := by
    by_cases hgone : h < s.created ∧ s.frames h = none
    · exact Nat.le_of_eq ((hg.books.book h).gone hgone.1 hgone.2)
    · have halive : s.created ≤ h ∨ s.frames h ≠ none := by
        rcases Nat.lt_or_ge h s.created with hlt | hge
        · exact .inr fun hnone => hgone ⟨hlt, hnone⟩
        · exact .inl hge
      rw [(hg.books.book h).alive halive]
      exact Nat.zero_le 1
  returned hplace := by
    have hfits := hg.fits
    rw [Fits, hplace] at hfits
    obtain ⟨hidle, hempty⟩ := hfits
    refine ⟨hempty, ?_⟩
    intro h hlt
    have hnone : s.frames h = none := by
      cases hf : s.frames h with
      | none => rfl
      | some f =>
        obtain ⟨t, p, rfl⟩ := hidle h f hf
        have hmem := ((hg.books.book h).entry t).mpr ⟨p, hf⟩
        exact absurd hmem (by simp [hempty])
    exact ⟨hnone, (hg.books.book h).gone hlt hnone⟩

/-- **The timed scheduler resumes each coroutine once for each time it awaits, the least
entry first and none too early**, and it returns when all are destroyed. -/
theorem scheduler_correct (c : PriorityQueue K Entry (greater address)) (coros : List Coro)
    (start : TimePoint) {s : State K} (hs : (system c coros start).Reachable s) : Correct c s :=
  (hs.invariant (good_init c coros start) fun _ _ _ hg _ hst => good_step hg hst).correct

instance (address : Handle → Nat) : IsStrictOrder Entry fun a b => greater address a b = true where
  irrefl a := by simp [greater]
  trans a b c := by
    simp only [greater, Bool.or_eq_true, Bool.and_eq_true, decide_eq_true_eq, beq_iff_eq]
    rintro (h | ⟨h, h'⟩) (g | ⟨g, g'⟩)
    · exact .inl (g.trans h)
    · exact .inl (g ▸ h)
    · exact .inl (h ▸ g)
    · exact .inr ⟨g.trans h, Nat.lt_trans g' h'⟩

/-- The coroutine of `main`, with times in milliseconds. -/
def coro : Coro := .now fun time => .await (time + 200) (.await (time + 400) .done)

/-- `main` on a clock that shows the times of the list. -/
theorem scheduler_correct_main :
    ∃ s, (system (PriorityQueue.listPriorityQueue (greater id)) [coro, coro] 0).Reachable s ∧
      s.destroyed = [1, 0] ∧ Correct (PriorityQueue.listPriorityQueue (greater id)) s := by
  obtain ⟨s, hs, hdestroyed⟩ := System.exists_reachable
    (M := system (PriorityQueue.listPriorityQueue (greater id)) [coro, coro] 0)
    (p := fun s => s.destroyed == [1, 0])
    (List.replicate 14 0 ++ List.replicate 17 1000) (by rfl)
  exact ⟨s, hs, by simpa using hdestroyed, scheduler_correct _ _ _ hs⟩

end Cpp20Examples.Asynchrony
