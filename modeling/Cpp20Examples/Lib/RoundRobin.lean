import Cpp20Examples.Lib.Machine
import Mathlib.Tactic.Common

/-!
# Round robin

A queue of jobs.  In a turn the job in front gives an output, and goes to the end of the
queue with what `next` leaves of it, if anything.

* `left`: what is left of a job after so many turns.
* `rounds`: the `r`th outputs of the jobs that have one come in the order of the jobs,
  for `r = 0, 1, 2, ...`.
-/

namespace Lib.RoundRobin

variable {β α : Type}

/-- One turn, with the outputs so far. -/
def turn (next : β → Option β) (out : β → α) : List β × List α → Option (List β × List α)
  | ([], _) => none
  | (b :: q, done) => some (q ++ (next b).toList, done ++ [out b])

/-- What is left of a job after `r` turns. -/
def left (next : β → Option β) : Nat → β → Option β
  | 0, b => some b
  | r + 1, b => (left next r b).bind next

/-- The outputs of the round `r`. -/
def outputs (next : β → Option β) (out : β → α) (q : List β) (r : Nat) : List α :=
  (q.filterMap (left next r)).map out

variable {next : β → Option β} {out : β → α} {q : List β}

theorem left_succ (r : Nat) (b : β) : left next (r + 1) b = (next b).bind (left next r) := by
  induction r with
  | zero => cases h : next b <;> simp [left, h]
  | succ r ih => rw [left, ih, Option.bind_assoc]; rfl

theorem filterMap_left_next (r : Nat) :
    (q.filterMap next).filterMap (left next r) = q.filterMap (left next (r + 1)) := by
  rw [List.filterMap_filterMap]
  exact congrArg (List.filterMap · q) (funext fun b => (left_succ r b).symm)

theorem outputs_succ (n : Nat) : (List.range (n + 1)).flatMap (outputs next out q) =
    q.map out ++ (List.range n).flatMap (outputs next out (q.filterMap next)) := by
  have hzero : outputs next out q 0 = q.map out := by
    rw [outputs, show left next 0 = some from rfl, List.filterMap_some]
  have hsucc : outputs next out (q.filterMap next) = fun r => outputs next out q (r + 1) :=
    funext fun r => congrArg (List.map out) (filterMap_left_next r)
  rw [List.range_succ_eq_map, List.flatMap_cons, List.flatMap_map, hzero, hsucc]

/-- **A round**: each job in the queue has its turn. -/
theorem round (q back : List β) (done : List α) : Steps (turn next out) (q ++ back, done)
    (back ++ q.filterMap next, done ++ q.map out) := by
  induction q generalizing back done with
  | nil =>
    rw [List.nil_append, List.filterMap_nil, List.append_nil, List.map_nil, List.append_nil]
    exact .refl _
  | cons b q ih =>
    have hturn : turn next out (b :: q ++ back, done) =
        some (q ++ (back ++ (next b).toList), done ++ [out b]) := by
      simp [turn]
    have hend : back ++ (next b).toList ++ q.filterMap next = back ++ (b :: q).filterMap next := by
      cases h : next b <;> simp [h]
    refine .head hturn ?_
    simpa [hend] using ih (back ++ (next b).toList) (done ++ [out b])

theorem rounds (q : List β) (done : List α) (n : Nat) : Steps (turn next out) (q, done)
    (q.filterMap (left next n), done ++ (List.range n).flatMap (outputs next out q)) := by
  induction n with
  | zero =>
    rw [show left next 0 = some from rfl, List.filterMap_some, List.range_zero, List.flatMap_nil,
      List.append_nil]
    exact .refl _
  | succ n ih =>
    have hround : Steps (turn next out) _ _ := round (q.filterMap (left next n)) []
      (done ++ (List.range n).flatMap (outputs next out q))
    apply ih.trans
    simpa [List.range_succ, outputs, left, List.filterMap_filterMap] using hround

end Lib.RoundRobin
