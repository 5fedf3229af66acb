import Cpp20Examples.Coroutines.Generators.Designs

/-!
# Two generators interleaved

`interleaved` of `generator_2`: a generator that reads two inner generators in turn, until both
are finished.  It is suspended between the read of an inner generator and the resumption of it,
so the frames of both are among its locals.

* `produces_interleaved`: the values that it yields.
* `interleaved_unexhausted`: a value is read from an inner generator that is not finished.
* `interleaved_alternates`: what both loops over it use.
-/

namespace Cpp20Examples.Generators

open Lib Lib.Generator

namespace Interleaved

open Generator2

/-! ### The program -/

/-- A generator over a vector. -/
abbrev Inner := Frame Promise (List Int32)

/-- `for (const auto& e : v) { co_yield e; }` -/
def body : Code Int32 Unit (List Int32) := yielding (.coReturn ())

def lamb (v : List Int32) : Option Inner := promiseType.call body v

/-- The locals of `interleaved`, where it starts, and where it is suspended: at the `co_yield`
of a value of `x`, or of one of `y`. -/
inductive Locals
  | start (a b : List Int32)
  | atX (x y : Inner)
  | atY (x y : Inner)

/-- The `while` loop, from its test to the next `co_yield`. -/
def turn (x y : Inner) : Turn Int32 Unit Locals :=
  if !finished x || !finished y then
    if !finished x then .coYield (value x) (.atX x y)
    -- the test of the loop has found that `y` is not finished
    else .coYield (value y) (.atY x y)
  else .ends (.coReturn ())

def interleaved : Code Int32 Unit Locals
  | .start a b => (lamb a).bind fun x => (lamb b).map fun y => turn x y
  | .atX x y =>
    (resume body x).map fun x' =>
      if !finished y then .coYield (value y) (.atY x' y) else turn x' y
  | .atY x y => (resume body y).map fun y' => turn x y'

/-! ### What should hold -/

/-- One of `a` and one of `b` in turn, and then what is left of the longer one. -/
def alternated (a b : List Int32) : List Int32 :=
  (List.zipWith (fun x y => [x, y]) a b).flatten ++ a.drop b.length ++ b.drop a.length

/-- The inner generator whose value was yielded is not finished. -/
def Locals.Unexhausted : Locals → Prop
  | .start _ _ => True
  | .atX x _ => finished x = false
  | .atY _ y => finished y = false

/-- A loop over `interleaved(a, b)` uses all elements, in turn; the inner generators are read
before they are finished. -/
structure Alternates (loop : Loop (Frame Promise Locals) Int32) (a b : List Int32) : Prop where
  delivers : Delivers loop (promiseType.call interleaved (.start a b)) (alternated a b)
    fun g => g.done = true
  unexhausted : ∀ s, Steps loop.step (Loop.enter (promiseType.call interleaved (.start a b))) s →
    s.Holds (Frame.CodeHolds Locals.Unexhausted)

/-! ### The values -/

section Values

variable {v w : Int32} {a b : List Int32}

@[simp] theorem alternated_nil_left : alternated [] b = b := by simp [alternated]

@[simp] theorem alternated_nil_right : alternated a [] = a := by simp [alternated]

@[simp] theorem alternated_cons_cons :
    alternated (v :: a) (w :: b) = v :: w :: alternated a b := by simp [alternated]

theorem length_alternated : (alternated a b).length = a.length + b.length := by
  induction a generalizing b with
  | nil => simp
  | cons v a ih =>
    cases b with
    | nil => simp
    | cons w b =>
      rw [alternated_cons_cons, List.length_cons, List.length_cons, ih, List.length_cons,
        List.length_cons]
      omega

theorem sublist_alternated_left : a.Sublist (alternated a b) := by
  induction a generalizing b with
  | nil => exact List.nil_sublist _
  | cons v a ih =>
    cases b with
    | nil => simp
    | cons w b =>
      rw [alternated_cons_cons]
      exact (ih.cons w).cons_cons v

theorem sublist_alternated_right : b.Sublist (alternated a b) := by
  induction a generalizing b with
  | nil => simp
  | cons v a ih =>
    cases b with
    | nil => exact List.nil_sublist _
    | cons w b =>
      rw [alternated_cons_cons]
      exact (ih.cons_cons w).cons v

end Values

/-! ### The inner generators -/

/-- The first of these elements can be read from the inner generator. -/
abbrev Shows (vs : List Int32) (x : Inner) : Prop :=
  Landed promiseType body (.coReturn ()) (fun p => some p.val) vs x

section Inner

variable {x y : Inner} {v w : Int32} {vs ws : List Int32} {c : Locals}

theorem lamb_shows (vs : List Int32) : ∃ x, lamb vs = some x ∧ Shows vs x :=
  called (produces_yielding _ vs)

theorem finished_nil (hx : Shows [] x) : finished x = true := hx.done_nil

theorem finished_cons (hx : Shows (v :: vs) x) : finished x = false := hx.done_cons

theorem value_cons (hx : Shows (v :: vs) x) : value x = v := Option.some.inj hx.1

theorem resume_cons (hx : Shows (v :: vs) x) : ∃ x', resume body x = some x' ∧ Shows vs x' := by
  rw [resume, if_neg (by rw [finished_cons hx]; decide)]
  exact resume_landed value_yieldValue promiseType_finish hx.2

/-! ### The outer generator -/

/-- When `x` is finished, `y` is drained. -/
theorem produces_right (hx : Shows [] x) (hy : Shows ws y) (hc : interleaved c = some (turn x y)) :
    Produces interleaved (.coReturn ()) c ws := by
  induction ws generalizing y c with
  | nil =>
    apply Produces.ends
    rw [hc, turn, finished_nil hx, finished_nil hy]
    rfl
  | cons w ws ih =>
    obtain ⟨y', hresume, hy'⟩ := resume_cons hy
    have hyield : interleaved c = some (.coYield w (.atY x y)) := by
      rw [hc, turn, finished_nil hx, finished_cons hy, value_cons hy]
      rfl
    refine .coYield hyield (ih hy' ?_)
    rw [interleaved, hresume]
    rfl

theorem produces_left (hx : Shows vs x) (hy : Shows [] y) (hc : interleaved c = some (turn x y)) :
    Produces interleaved (.coReturn ()) c vs := by
  induction vs generalizing x c with
  | nil => exact produces_right hx hy hc
  | cons v vs ih =>
    obtain ⟨x', hresume, hx'⟩ := resume_cons hx
    have hyield : interleaved c = some (.coYield v (.atX x y)) := by
      rw [hc, turn, finished_cons hx, value_cons hx]
      rfl
    refine .coYield hyield (ih hx' ?_)
    rw [interleaved, hresume, finished_nil hy]
    rfl

/-- **The loop of `interleaved`** yields what the inner generators show, in turn. -/
theorem produces_interleaved (hx : Shows vs x) (hy : Shows ws y)
    (hc : interleaved c = some (turn x y)) :
    Produces interleaved (.coReturn ()) c (alternated vs ws) := by
  induction vs generalizing ws x y c with
  | nil =>
    rw [alternated_nil_left]
    exact produces_right hx hy hc
  | cons v vs ih =>
    cases ws with
    | nil =>
      rw [alternated_nil_right]
      exact produces_left hx hy hc
    | cons w ws =>
      obtain ⟨x', hresumeX, hx'⟩ := resume_cons hx
      obtain ⟨y', hresumeY, hy'⟩ := resume_cons hy
      have hyieldX : interleaved c = some (.coYield v (.atX x y)) := by
        rw [hc, turn, finished_cons hx, value_cons hx]
        rfl
      have hyieldY : interleaved (.atX x y) = some (.coYield w (.atY x' y)) := by
        rw [interleaved, hresumeX, Option.map_some, finished_cons hy, value_cons hy]
        rfl
      rw [alternated_cons_cons]
      refine .coYield hyieldX (.coYield hyieldY (ih hx' hy' ?_))
      rw [interleaved, hresumeY]
      rfl

theorem produces_start (a b : List Int32) :
    Produces interleaved (.coReturn ()) (.start a b) (alternated a b) := by
  obtain ⟨x, hlambX, hx⟩ := lamb_shows a
  obtain ⟨y, hlambY, hy⟩ := lamb_shows b
  apply produces_interleaved hx hy
  rw [interleaved, hlambX, hlambY]
  rfl

theorem turn_unexhausted {rest : Locals} (h : turn x y = .coYield v rest) : rest.Unexhausted := by
  rw [turn] at h
  split at h
  · rename_i htest
    split at h
    · rename_i hx
      cases h
      rwa [Bool.not_eq_true'] at hx
    · rename_i hx
      cases h
      rw [Bool.not_eq_true] at hx
      rwa [hx, Bool.false_or, Bool.not_eq_true'] at htest
  · cases h

/-- **Each value is read from an inner generator that is not finished.** -/
theorem interleaved_unexhausted (c : Locals) (v : Int32) (rest : Locals)
    (h : interleaved c = some (.coYield v rest)) : rest.Unexhausted := by
  cases c with
  | start a b =>
    obtain ⟨x, -, h⟩ := Option.bind_eq_some_iff.mp h
    obtain ⟨y, -, h⟩ := Option.map_eq_some_iff.mp h
    exact turn_unexhausted h
  | atX x y =>
    obtain ⟨x', -, h⟩ := Option.map_eq_some_iff.mp h
    split at h
    · rename_i hy
      cases h
      rwa [Bool.not_eq_true'] at hy
    · exact turn_unexhausted h
  | atY x y =>
    obtain ⟨y', -, h⟩ := Option.map_eq_some_iff.mp h
    exact turn_unexhausted h

end Inner

/-! ### The loops -/

/-- The generator that is called is suspended where it has read from an unfinished one. -/
theorem call_unexhausted {c : Locals} {g : Frame Promise Locals}
    (h : promiseType.call interleaved c = some g) : g.CodeHolds Locals.Unexhausted := by
  rw [Design.call, if_pos (show promiseType.eager = true from rfl)] at h
  exact Design.resume_codeHolds interleaved_unexhausted h

/-- **`interleaved` alternates and then drains**, in the loop of `main` and in that of
`UseIterator`.  Nothing is lost or repeated. -/
theorem interleaved_alternates (a b : List Int32) :
    Alternates (Generator2.loop interleaved) a b ∧
    Alternates (Generator2.rangeLoop interleaved) a b ∧
    (alternated a b).length = a.length + b.length ∧
    a.Sublist (alternated a b) ∧ b.Sublist (alternated a b) := by
  have hproduces := produces_start a b
  refine ⟨⟨Generator2.delivers hproduces, fun s hs => ?_⟩,
    ⟨Generator2.rangeDelivers hproduces, fun s hs => ?_⟩,
    length_alternated, sublist_alternated_left, sublist_alternated_right⟩
  · refine Loop.invariant (whileLoop_invariant ?_ ?_) (fun _ => call_unexhausted) hs
    · rintro g r hg ⟨⟩
      exact hg
    · intro g g' hg hresume
      rw [Generator2.resume] at hresume
      split at hresume
      · cases hresume
        exact hg
      · exact Design.resume_codeHolds interleaved_unexhausted hresume
  · refine Loop.invariant (whileLoop_invariant ?_ ?_) (fun _ => call_unexhausted) hs
    · rintro g r hg ⟨⟩
      exact hg
    · intro g g' _ hresume
      exact Design.resume_codeHolds interleaved_unexhausted hresume

end Interleaved

end Cpp20Examples.Generators
