import Cpp20Examples.Lib.Machine
import Mathlib.Tactic.Common

/-!
# Generators and the loops that use them

A generator is a coroutine that its owner resumes to have the next value.  `Code` says what
its body does when it runs: it yields a value and is suspended, or it ends.  What the
coroutine type does with the values is its `Design`.  A `Frame` is the coroutine with its
promise; its behaviour is undefined when it is resumed at its final suspend point.

* `Produces`: the values that a body yields before it ends.
* `Landed`: a generator that shows the first of the values that are left.
* `resume_landed`, `call_landed`: a resumption shows the next value.
* `Loop`: a loop over a generator, by what one round of it does; `Loop.step` runs it.
* `Delivers`: the loop ends, has used these values, and is never undefined.
* `Delivers.of_rounds`: the rule for such loops, with an invariant for each list of values
  that are left.
* `Loop.invariant`: what the rounds keep.
* `Delivers.of_landed`, `Delivers.of_before`, `Delivers.of_doWhile`: loops that resume behind
  a read, or in their test, before or behind the read.
* `Ends.produces`: where such a loop ends, the body does.
-/

namespace Lib.Generator

/-- How a body ends. -/
inductive Ending (ρ : Type)
  | coReturn (r : ρ)
  | throw

/-- What a body does until it is suspended again, with the code that is left. -/
inductive Turn (ν ρ C : Type)
  | coYield (v : ν) (rest : C)
  | ends (ending : Ending ρ)

/-- What a body does next, `none` where its behaviour is undefined. -/
abbrev Code (ν ρ C : Type) := C → Option (Turn ν ρ C)

/-- Where a generator is suspended. -/
inductive Point (C : Type)
  | suspended (c : C)
  | final

structure Frame (P C : Type) where
  promise : P
  point : Point C

/-- `done()` of the handle. -/
def Frame.done {P C : Type} (f : Frame P C) : Bool :=
  match f.point with
  | .suspended _ => false
  | .final => true

/-- The promise `P` of a generator type, and what is done with it. -/
structure Design (ν ρ P : Type) where
  promise : P
  /-- `initial_suspend` is `suspend_never` -/
  eager : Bool
  yieldValue : P → ν → P
  returnValue : P → ρ → P
  /-- `none` where the program is ended -/
  unhandledException : P → Option P

variable {ν ρ P C : Type}

namespace Design

variable (D : Design ν ρ P)

/-- The promise of a body that has ended. -/
def finish (p : P) : Ending ρ → Option P
  | .coReturn r => some (D.returnValue p r)
  | .throw => D.unhandledException p

/-- The frame behind a turn of its body. -/
def land (p : P) : Turn ν ρ C → Option (Frame P C)
  | .coYield v rest => some ⟨D.yieldValue p v, .suspended rest⟩
  | .ends ending => (D.finish p ending).map fun p' => ⟨p', .final⟩

/-- `resume()` of the handle, undefined at the final suspend point. -/
def resume (next : Code ν ρ C) (f : Frame P C) : Option (Frame P C) :=
  match f.point with
  | .suspended c => (next c).bind (D.land f.promise)
  | .final => none

/-- The call of the coroutine. -/
def call (next : Code ν ρ C) (c : C) : Option (Frame P C) :=
  if D.eager then D.resume next ⟨D.promise, .suspended c⟩ else some ⟨D.promise, .suspended c⟩

end Design

/-- The body yields these values and ends. -/
inductive Produces (next : Code ν ρ C) (ending : Ending ρ) : C → List ν → Prop
  | ends {c : C} : next c = some (.ends ending) → Produces next ending c []
  | coYield {c rest : C} {v : ν} {vs : List ν} : next c = some (.coYield v rest) →
      Produces next ending rest vs → Produces next ending c (v :: vs)

/-- A body that yields the elements of a list. -/
def yielding (ending : Ending ρ) : Code ν ρ (List ν)
  | [] => some (.ends ending)
  | v :: vs => some (.coYield v vs)

theorem produces_yielding (ending : Ending ρ) (vs : List ν) :
    Produces (yielding ending) ending vs vs := by
  induction vs with
  | nil => exact .ends rfl
  | cons v vs ih => exact .coYield rfl ih

/-! ### Resumptions -/

/-- The generator is suspended before these values. -/
def Before (next : Code ν ρ C) (ending : Ending ρ) (vs : List ν) (f : Frame P C) : Prop :=
  ∃ c, f.point = .suspended c ∧ Produces next ending c vs

/-- The body has ended so, and the generator is at its final suspend point. -/
def Design.Ended (D : Design ν ρ P) (ending : Ending ρ) (f : Frame P C) : Prop :=
  f.point = .final ∧ ∃ p, D.finish p ending = some f.promise

/-- The first of these values can be read, and the generator is suspended before the others;
without values it has ended. -/
def Landed (D : Design ν ρ P) (next : Code ν ρ C) (ending : Ending ρ) (read : P → Option ν) :
    List ν → Frame P C → Prop
  | [], f => D.Ended ending f
  | v :: vs, f => read f.promise = some v ∧ Before next ending vs f

section Resumption

variable {D : Design ν ρ P} {next : Code ν ρ C} {ending : Ending ρ} {read : P → Option ν}
  {f : Frame P C} {c : C} {v : ν} {vs : List ν}

theorem Before.done (h : Before next ending vs f) : f.done = false := by
  obtain ⟨c, hc, -⟩ := h
  rw [Frame.done, hc]

theorem Design.Ended.done (h : D.Ended ending f) : f.done = true := by rw [Frame.done, h.1]

theorem Landed.done_nil (h : Landed D next ending read [] f) : f.done = true := Design.Ended.done h

theorem Landed.done_cons (h : Landed D next ending read (v :: vs) f) : f.done = false := h.2.done

/-- **A resumption shows the next value**, or finishes the promise. -/
theorem resume_landed (hread : ∀ p v, read (D.yieldValue p v) = some v)
    (hfinish : ∀ p, (D.finish p ending).isSome = true) (hf : Before next ending vs f) :
    ∃ f', D.resume next f = some f' ∧ Landed D next ending read vs f' := by
  obtain ⟨c, hc, hproduces⟩ := hf
  rw [Design.resume, hc]
  dsimp only
  cases hproduces with
  | ends hnext =>
    obtain ⟨p, hp⟩ := Option.isSome_iff_exists.mp (hfinish f.promise)
    refine ⟨⟨p, .final⟩, ?_, rfl, f.promise, hp⟩
    rw [hnext, Option.bind_some, Design.land, hp]
    rfl
  | @coYield _ rest v vs hnext hrest =>
    rw [hnext]
    exact ⟨⟨D.yieldValue f.promise v, .suspended rest⟩, rfl, hread _ _, rest, rfl, hrest⟩

/-- A generator that starts lazily is suspended before its values. -/
theorem call_before (hlazy : D.eager = false) (h : Produces next ending c vs) :
    ∃ f, D.call next c = some f ∧ Before next ending vs f := by
  refine ⟨⟨D.promise, .suspended c⟩, ?_, c, rfl, h⟩
  rw [Design.call, if_neg (by rw [hlazy]; decide)]

/-- A generator that starts eagerly shows its first value. -/
theorem call_landed (heager : D.eager = true) (hread : ∀ p v, read (D.yieldValue p v) = some v)
    (hfinish : ∀ p, (D.finish p ending).isSome = true) (h : Produces next ending c vs) :
    ∃ f, D.call next c = some f ∧ Landed D next ending read vs f := by
  rw [Design.call, if_pos heager]
  exact resume_landed hread hfinish ⟨c, rfl, h⟩

theorem resume_final (h : f.point = .final) : D.resume next f = none := by
  rw [Design.resume, h]

end Resumption

/-! ### Loops -/

/-- What one round of a loop uses, the generator behind it, and whether there is another
round. -/
structure Round (F ν : Type) where
  used : List ν
  generator : F
  again : Bool

/-- A loop, by its rounds; `none` where the behaviour is undefined. -/
abbrev Loop (F ν : Type) := F → Option (Round F ν)

inductive LoopState (F ν : Type)
  | running (generator : F) (used : List ν)
  | finished (generator : F) (used : List ν)
  | undefined

section Loops

variable {F : Type}

/-- `while (test) { use(read); advance; }` -/
def whileLoop (test : F → Option (Bool × F)) (read : F → Option ν) (advance : F → Option F) :
    Loop F ν := fun f =>
  (test f).bind fun r =>
    if r.1 then
      (read r.2).bind fun v => (advance r.2).map fun f' => ⟨[v], f', true⟩
    else some ⟨[], r.2, false⟩

/-- `do { use(read); } while (test);` -/
def doWhile (read : F → Option ν) (test : F → Option (Bool × F)) : Loop F ν := fun f =>
  (read f).bind fun v => (test f).map fun r => ⟨[v], r.2, r.1⟩

/-- One round. -/
def Loop.step (loop : Loop F ν) : LoopState F ν → Option (LoopState F ν)
  | .running f used =>
    match loop f with
    | some r =>
      if r.again then some (.running r.generator (used ++ r.used))
      else some (.finished r.generator (used ++ r.used))
    | none => some .undefined
  | .finished .. | .undefined => none

/-- The loop is entered with a generator, if there is one. -/
def Loop.enter : Option F → LoopState F ν
  | some f => .running f []
  | none => .undefined

variable {loop : Loop F ν} {start : Option F} {vs : List ν} {Last : F → Prop}

/-- The loop comes to an end behind these values. -/
def Ends (loop : Loop F ν) (start : Option F) (vs : List ν) (Last : F → Prop) : Prop :=
  ∃ f, Steps loop.step (Loop.enter start) (.finished f vs) ∧ Last f

/-- **The loop uses exactly these values**, one after another, and ends; nothing undefined
happens on the way. -/
structure Delivers (loop : Loop F ν) (start : Option F) (vs : List ν) (Last : F → Prop) : Prop where
  ends : Ends loop start vs Last
  safe : ∀ s, Steps loop.step (Loop.enter start) s → s ≠ .undefined

theorem Ends.delivers (h : Ends loop start vs Last) : Delivers loop start vs Last := by
  refine ⟨h, ?_⟩
  rintro s hs rfl
  obtain ⟨f, hsteps, -⟩ := h
  have hlast := Steps.of_stopped hsteps rfl hs
  cases Steps.eq_of_stopped rfl hlast

/-- **The rule for loops.**  Each round is the last one and uses all values that are left, or
uses the first of them and leads to another round. -/
theorem Delivers.of_rounds {I : List ν → F → Prop}
    (hround : ∀ vs f, I vs f → (∃ f', loop f = some ⟨vs, f', false⟩ ∧ Last f') ∨
      ∃ v vs' f', vs = v :: vs' ∧ loop f = some ⟨[v], f', true⟩ ∧ I vs' f')
    (h : ∃ f, start = some f ∧ I vs f) : Delivers loop start vs Last := by
  obtain ⟨f, rfl, hf⟩ := h
  have hlast : ∀ vs f f' used, loop f = some ⟨vs, f', false⟩ →
      Steps loop.step (.running f used) (.finished f' (used ++ vs)) := by
    intro vs f f' used hround
    apply Steps.single
    rw [Loop.step, hround]
    rfl
  have hrun : ∀ used, ∃ f', Steps loop.step (.running f used) (.finished f' (used ++ vs)) ∧
      Last f' := by
    induction vs generalizing f with
    | nil =>
      intro used
      rcases hround [] f hf with ⟨f', hround, hf'⟩ | ⟨v, vs, f', hnil, -⟩
      · exact ⟨f', hlast _ f f' used hround, hf'⟩
      · cases hnil
    | cons v vs ih =>
      intro used
      rcases hround (v :: vs) f hf with ⟨f', hround, hf'⟩ | ⟨_, _, f₁, ⟨⟩, hround, hf₁⟩
      · exact ⟨f', hlast _ f f' used hround, hf'⟩
      · obtain ⟨f', hsteps, hf'⟩ := ih f₁ hf₁ (used ++ [v])
        refine ⟨f', .head (t := .running f₁ (used ++ [v])) ?_ ?_, hf'⟩
        · rw [Loop.step, hround]
          rfl
        · rwa [List.append_assoc] at hsteps
  exact Ends.delivers (hrun [])

theorem Delivers.mono {Last' : F → Prop} (h : Delivers loop start vs Last)
    (himp : ∀ f, Last f → Last' f) : Delivers loop start vs Last' := by
  obtain ⟨f, hsteps, hlast⟩ := h.ends
  exact ⟨⟨f, hsteps, himp f hlast⟩, h.safe⟩

/-- The generator of a loop has a property. -/
def LoopState.Holds (I : F → Prop) : LoopState F ν → Prop
  | .running f _ | .finished f _ => I f
  | .undefined => True

/-- **What the rounds keep**, holds of the generator throughout the loop. -/
theorem Loop.invariant {I : F → Prop} (hround : ∀ f r, I f → loop f = some r → I r.generator)
    (hstart : ∀ f, start = some f → I f) {s : LoopState F ν}
    (hs : Steps loop.step (Loop.enter start) s) : s.Holds I := by
  refine hs.invariant ?_ ?_
  · intro s t hs hst
    cases s with
    | running f used =>
      rw [Loop.step] at hst
      split at hst
      · rename_i r hr
        split at hst <;> cases hst <;> exact hround f r hs hr
      · cases hst
        trivial
    | finished => cases hst
    | undefined => cases hst
  · cases start with
    | none => trivial
    | some f => exact hstart f rfl

theorem whileLoop_invariant {I : F → Prop} {test : F → Option (Bool × F)} {read : F → Option ν}
    {advance : F → Option F} (htest : ∀ f r, I f → test f = some r → I r.2)
    (hadvance : ∀ f f', I f → advance f = some f' → I f') (f : F) (r : Round F ν) (hf : I f)
    (h : whileLoop test read advance f = some r) : I r.generator := by
  obtain ⟨t, ht, h⟩ := Option.bind_eq_some_iff.mp h
  have hI := htest f t hf ht
  split at h
  · obtain ⟨v, -, h⟩ := Option.bind_eq_some_iff.mp h
    obtain ⟨f', hf', rfl⟩ := Option.map_eq_some_iff.mp h
    exact hadvance _ _ hI hf'
  · cases h
    exact hI

end Loops

/-- The code that a generator is suspended in has a property. -/
def Frame.CodeHolds (I : C → Prop) (f : Frame P C) : Prop := ∀ c, f.point = .suspended c → I c

/-- Each resumption leaves code in front of which a value was yielded. -/
theorem Design.resume_codeHolds {D : Design ν ρ P} {next : Code ν ρ C} {I : C → Prop}
    (hI : ∀ c v rest, next c = some (.coYield v rest) → I rest) {f f' : Frame P C}
    (h : D.resume next f = some f') : f'.CodeHolds I := by
  rw [Design.resume] at h
  split at h
  · obtain ⟨turn, hturn, hland⟩ := Option.bind_eq_some_iff.mp h
    intro c hc
    cases turn with
    | coYield v rest =>
      cases hland
      cases hc
      exact hI _ v _ hturn
    | ends ending =>
      obtain ⟨p, -, rfl⟩ := Option.map_eq_some_iff.mp hland
      cases hc
  · cases h

/-! ### Loops that drain a generator -/

section Drain

variable {D : Design ν ρ P} {next : Code ν ρ C} {ending : Ending ρ} {read : P → Option ν}
  {start : Option (Frame P C)} {v : ν} {vs : List ν}
  {test : Frame P C → Option (Bool × Frame P C)} {advance : Frame P C → Option (Frame P C)}

/-- **A loop that resumes behind each read**, and tests whether the generator is done. -/
theorem Delivers.of_landed (hread : ∀ p v, read (D.yieldValue p v) = some v)
    (hfinish : ∀ p, (D.finish p ending).isSome = true)
    (hadvance : ∀ f : Frame P C, f.done = false → advance f = D.resume next f)
    (h : ∃ f, start = some f ∧ Landed D next ending read vs f) :
    Delivers (whileLoop (fun f => some (!f.done, f)) (fun f => read f.promise) advance) start vs
      (D.Ended ending) := by
  refine .of_rounds (I := Landed D next ending read) ?_ h
  intro vs f hf
  cases vs with
  | nil =>
    refine .inl ⟨f, ?_, hf⟩
    rw [whileLoop, Option.bind_some, hf.done_nil]
    rfl
  | cons v vs =>
    obtain ⟨f', hresume, hlanded⟩ := resume_landed hread hfinish hf.2
    refine .inr ⟨v, vs, f', rfl, ?_, hlanded⟩
    rw [whileLoop, Option.bind_some, hf.done_cons]
    dsimp only
    rw [hf.1, hadvance f hf.done_cons, hresume]
    rfl

/-- **A loop whose test resumes** the generator, and that does nothing behind a read. -/
theorem Delivers.of_before (hread : ∀ p v, read (D.yieldValue p v) = some v)
    (hfinish : ∀ p, (D.finish p ending).isSome = true)
    (htest : ∀ f : Frame P C, f.done = false →
      test f = (D.resume next f).map fun f' => (!f'.done, f'))
    (h : ∃ f, start = some f ∧ Before next ending vs f) :
    Delivers (whileLoop test (fun f => read f.promise) some) start vs (D.Ended ending) := by
  refine .of_rounds (I := Before next ending) ?_ h
  intro vs f hf
  obtain ⟨f', hresume, hlanded⟩ := resume_landed hread hfinish hf
  cases vs with
  | nil =>
    refine .inl ⟨f', ?_, hlanded⟩
    rw [whileLoop, htest f hf.done, hresume, Option.map_some, Option.bind_some, hlanded.done_nil]
    rfl
  | cons v vs =>
    refine .inr ⟨v, vs, f', rfl, ?_, hlanded.2⟩
    rw [whileLoop, htest f hf.done, hresume, Option.map_some, Option.bind_some, hlanded.done_cons]
    dsimp only
    rw [hlanded.1]
    rfl

/-- **A loop that reads before its test resumes**, of a generator that shows a value. -/
theorem Delivers.of_doWhile (hread : ∀ p v, read (D.yieldValue p v) = some v)
    (hfinish : ∀ p, (D.finish p ending).isSome = true)
    (htest : ∀ f : Frame P C, f.done = false →
      test f = (D.resume next f).map fun f' => (!f'.done, f'))
    (h : ∃ f, start = some f ∧ Landed D next ending read (v :: vs) f) :
    Delivers (doWhile (fun f => read f.promise) test) start (v :: vs) (D.Ended ending) := by
  refine .of_rounds (I := fun vs f => vs ≠ [] ∧ Landed D next ending read vs f) ?_
    (h.imp fun f hf => ⟨hf.1, List.cons_ne_nil v vs, hf.2⟩)
  rintro vs f ⟨hne, hf⟩
  obtain ⟨v, vs, rfl⟩ := List.exists_cons_of_ne_nil hne
  obtain ⟨f', hresume, hlanded⟩ := resume_landed hread hfinish hf.2
  have hround : doWhile (fun f => read f.promise) test f = some ⟨[v], f', !f'.done⟩ := by
    rw [doWhile, hf.1, Option.bind_some, htest f hf.2.done, hresume]
    rfl
  cases vs with
  | nil =>
    refine .inl ⟨f', ?_, hlanded⟩
    rw [hround, hlanded.done_nil]
    rfl
  | cons w vs =>
    refine .inr ⟨v, w :: vs, f', rfl, ?_, List.cons_ne_nil w vs, hlanded⟩
    rw [hround, hlanded.done_cons]
    rfl

theorem produces_of_steps {p : P} {c : C} {used : List ν} {f : Frame P C}
    (htest : ∀ f : Frame P C, f.done = false →
      test f = (D.resume next f).map fun f' => (!f'.done, f'))
    (h : Steps (whileLoop test (fun f => read f.promise) some).step
      (.running ⟨p, .suspended c⟩ used) (.finished f vs)) :
    ∃ ending ws, Produces next ending c ws := by
  generalize hs : LoopState.running (⟨p, .suspended c⟩ : Frame P C) used = s at h
  induction h using Relation.ReflTransGen.head_induction_on generalizing p c used with
  | refl => cases hs
  | @head s t hst hrest ih =>
    subst hs
    have hround : Loop.step (whileLoop test (fun f => read f.promise) some)
        (.running ⟨p, .suspended c⟩ used) = some t := hst
    rw [Loop.step, whileLoop, htest _ rfl, Design.resume] at hround
    dsimp only at hround
    cases hnext : next c with
    | none =>
      rw [hnext] at hround
      cases hround
      cases Steps.eq_of_stopped rfl hrest
    | some turn =>
      cases turn with
      | ends ending => exact ⟨ending, [], .ends hnext⟩
      | coYield v rest =>
        rw [hnext] at hround
        cases hread : read (D.yieldValue p v) with
        | none =>
          simp only [Option.bind_some, Design.land, Option.map_some, Frame.done, hread] at hround
          cases hround
          cases Steps.eq_of_stopped rfl hrest
        | some w =>
          simp only [Option.bind_some, Design.land, Option.map_some, Frame.done, hread] at hround
          obtain ⟨ending, ws, hproduces⟩ := ih (Option.some.inj hround)
          exact ⟨ending, v :: ws, .coYield hnext hproduces⟩

/-- **A loop whose test resumes** ends only where the body does, with each turn of it
defined. -/
theorem Ends.produces {Last : Frame P C → Prop} {c : C} (hlazy : D.eager = false)
    (htest : ∀ f : Frame P C, f.done = false →
      test f = (D.resume next f).map fun f' => (!f'.done, f'))
    (h : Ends (whileLoop test (fun f => read f.promise) some) (D.call next c) vs Last) :
    ∃ ending ws, Produces next ending c ws := by
  obtain ⟨f, hsteps, -⟩ := h
  rw [Design.call, if_neg (by rw [hlazy]; decide)] at hsteps
  exact produces_of_steps htest hsteps

end Drain

end Lib.Generator
