import Mathlib.Data.List.Basic
import Mathlib.Tactic.Common

/-!
# Frames by doubling an escape symbol

A payload over an alphabet `α` is framed by `esc sof` on both sides, and every
`esc` inside it is doubled:

    frame p = esc sof (stuff p) esc sof.

`Contains s fs` says that a stream holds the frames of `fs`, in this order and
disjoint: it is the specification of a parser that may skip anything else.
`length_of_contains` bounds the frames by the stream, so a stream that lost a
symbol cannot hold all the frames it was made of.
-/

namespace Lib.Framing

variable {α : Type} [DecidableEq α] (esc sof : α)

/-- Every `esc` doubled. -/
def stuff : List α → List α
  | [] => []
  | b :: p => if b = esc then esc :: esc :: stuff p else b :: stuff p

def frame (p : List α) : List α := esc :: sof :: (stuff esc p ++ [esc, sof])

@[simp] theorem stuff_nil : stuff esc [] = [] := rfl

theorem stuff_append (p q : List α) : stuff esc (p ++ q) = stuff esc p ++ stuff esc q := by
  induction p with
  | nil => rfl
  | cons b p ih =>
    simp only [List.cons_append, stuff, ih]
    split <;> rfl

theorem stuff_concat_esc (p : List α) : stuff esc (p ++ [esc]) = stuff esc p ++ [esc, esc] := by
  rw [stuff_append, stuff, if_pos rfl, stuff_nil]

theorem stuff_concat_of_ne {b : α} (h : b ≠ esc) (p : List α) :
    stuff esc (p ++ [b]) = stuff esc p ++ [b] := by
  rw [stuff_append, stuff, if_neg h, stuff_nil]

/-- **The stream `s` holds the frames of `fs`**, in order, each behind the end of
the one before. -/
def Contains : List α → List (List α) → Prop
  | _, [] => True
  | s, f :: fs => ∃ gap rest, s = gap ++ frame esc sof f ++ rest ∧ Contains rest fs

variable {esc sof}

theorem Contains.append_left {s : List α} {fs : List (List α)} (h : Contains esc sof s fs)
    (pre : List α) : Contains esc sof (pre ++ s) fs := by
  cases fs with
  | nil => exact trivial
  | cons f fs =>
    obtain ⟨gap, rest, rfl, hr⟩ := h
    exact ⟨pre ++ gap, rest, by simp only [List.append_assoc], hr⟩

theorem Contains.cons {s : List α} {fs : List (List α)} (h : Contains esc sof s fs) (b : α) :
    Contains esc sof (b :: s) fs := h.append_left [b]

theorem Contains.frame {s : List α} {fs : List (List α)} (h : Contains esc sof s fs)
    (f : List α) : Contains esc sof (frame esc sof f ++ s) (f :: fs) :=
  ⟨[], s, rfl, h⟩

/-- **The frames of a stream are not longer than the stream.** -/
theorem length_of_contains {fs : List (List α)} : ∀ {s : List α}, Contains esc sof s fs →
    (fs.flatMap (Framing.frame esc sof)).length ≤ s.length := by
  induction fs with
  | nil => intro s _; exact Nat.zero_le _
  | cons f fs ih =>
    intro s h
    obtain ⟨gap, rest, rfl, hr⟩ := h
    have := ih hr
    simp only [List.flatMap_cons, List.length_append] at this ⊢
    omega

end Lib.Framing
