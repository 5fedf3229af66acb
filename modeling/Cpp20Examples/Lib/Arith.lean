import Mathlib.Algebra.BigOperators.Group.List.Basic
import Mathlib.Algebra.Order.Ring.Int
import Mathlib.Data.Nat.Cast.Defs
import Mathlib.Tactic.Common

/-!
# Machine integers

Facts about the counters of the programs: `Int32` is `int`, and its order is the
order of its values.  Where it matters whether an operation overflows, the values are
integers, and `fits` says which of them a signed type has.

* `toInt_add_of_fits`, `add_neg_of_not_fits`: a sum that wraps is exact when it fits.
* `addInt`, `subInt`: the operations of `int`, undefined where they overflow.
* `sumWithin`: a sum of which every partial sum must be in range.
* `mapM_eq_some_iff`: results all of which are there.
-/

namespace Lib.Arith

/-- The values of the signed type of `w` bits. -/
def fits (w : Nat) (x : Int) : Bool := decide (-2 ^ (w - 1) ≤ x ∧ x < 2 ^ (w - 1))

theorem fits_iff {w : Nat} {x : Int} : fits w x = true ↔ -2 ^ (w - 1) ≤ x ∧ x < 2 ^ (w - 1) :=
  decide_eq_true_iff

theorem fits_int_iff {x : Int} : fits 32 x = true ↔ -2 ^ 31 ≤ x ∧ x < 2 ^ 31 := fits_iff

theorem fits_longLong_iff {x : Int} : fits 64 x = true ↔ -2 ^ 63 ≤ x ∧ x < 2 ^ 63 := fits_iff

/-! ### Arithmetic that wraps -/

theorem nonneg_iff {x : Int32} : 0 ≤ x ↔ 0 ≤ x.toInt := Int32.le_iff_toInt_le

theorem neg_iff {x : Int32} : x < 0 ↔ x.toInt < 0 := Int32.lt_iff_toInt_lt

theorem toInt_add_of_fits {x y : Int32} (h : fits 32 (x.toInt + y.toInt) = true) :
    (x + y).toInt = x.toInt + y.toInt := by
  obtain ⟨hle, hlt⟩ := fits_int_iff.mp h
  rw [Int32.toInt_add]
  exact Int.bmod_eq_of_le (by omega) (by omega)

/-- Of two values that are not negative, the difference is exact. -/
theorem toInt_sub_of_nonneg {x y : Int32} (hx : 0 ≤ x) (hy : 0 ≤ y) :
    (x - y).toInt = x.toInt - y.toInt := by
  have hlt := x.toInt_lt
  have hlt' := y.toInt_lt
  rw [nonneg_iff] at hx hy
  rw [Int32.toInt_sub]
  exact Int.bmod_eq_of_le (by omega) (by omega)

/-- Of two values that are not negative, a sum that does not fit wraps around. -/
theorem add_neg_of_not_fits {x y : Int32} (hx : 0 ≤ x) (hy : 0 ≤ y)
    (h : fits 32 (x.toInt + y.toInt) = false) : x + y < 0 := by
  have hlt := x.toInt_lt
  have hlt' := y.toInt_lt
  rw [nonneg_iff] at hx hy
  have hge : 2 ^ 31 ≤ x.toInt + y.toInt := by
    by_contra hsmall
    have hfits : fits 32 (x.toInt + y.toInt) = true := fits_int_iff.mpr (by omega)
    exact absurd (hfits.symm.trans h) (by decide)
  rw [neg_iff, Int32.toInt_add, Int.bmod_def]
  omega

namespace Wrapping

/-- The sums of `int`. -/
scoped instance intSums : AddCommMonoidWithOne Int32 where
  add_assoc := Int32.add_assoc
  zero_add := Int32.zero_add
  add_zero := Int32.add_zero
  add_comm := Int32.add_comm
  nsmul := nsmulRec
  natCast := Int32.ofNat
  natCast_zero := rfl
  natCast_succ n := Int32.ofNat_add n 1

theorem toInt_natCast {n : Nat} (h : n < 2 ^ 31) : (n : Int32).toInt = n :=
  Int32.toInt_ofNat_of_lt h

end Wrapping

theorem toInt_add_one {c : Int32} (h : c ≠ Int32.maxValue) : (c + 1).toInt = c.toInt + 1 := by
  have hmax : c.toInt ≠ Int32.maxValue.toInt := fun heq => h (Int32.toInt_inj.mp heq)
  have hle := c.toInt_le
  have hge := c.le_toInt
  rw [Int32.toInt_maxValue] at hmax hle
  have hone : (1 : Int32).toInt = 1 := rfl
  rw [← hone]
  exact toInt_add_of_fits (fits_int_iff.mpr (by omega))

/-- A counter that was within a limit is within it or one beyond. -/
theorem add_one_le_or {c limit : Int32} (h : c ≤ limit) :
    c + 1 ≤ limit ∨ (c + 1).toInt = limit.toInt + 1 := by
  have hle := Int32.le_iff_toInt_le.mp h
  by_cases hmax : c = Int32.maxValue
  · left
    rw [hmax, Int32.le_iff_toInt_le]
    exact limit.le_toInt
  · have hsucc := toInt_add_one hmax
    by_cases heq : c.toInt = limit.toInt
    · exact .inr (by omega)
    · exact .inl (Int32.le_iff_toInt_le.mpr (by omega))

/-! ### Operations of `int` -/

/-- The `int` of a value, if it has one. -/
def intOf (x : Int) : Option Int32 := if fits 32 x then some (Int32.ofInt x) else none

def addInt (x y : Int32) : Option Int32 := intOf (x.toInt + y.toInt)

def subInt (x y : Int32) : Option Int32 := intOf (x.toInt - y.toInt)

theorem fits_toInt (x : Int32) : fits 32 x.toInt = true :=
  fits_int_iff.mpr ⟨x.le_toInt, x.toInt_lt⟩

theorem intOf_eq_some_iff {x : Int} {z : Int32} : intOf x = some z ↔ z.toInt = x := by
  rw [intOf]
  constructor
  · intro h
    split at h
    · rename_i hfits
      obtain ⟨hle, hlt⟩ := fits_int_iff.mp hfits
      cases h
      exact Int32.toInt_ofInt_of_le hle hlt
    · cases h
  · rintro rfl
    rw [if_pos (fits_toInt z), Int32.ofInt_toInt]

theorem exists_intOf {x : Int} (h : fits 32 x = true) : ∃ z, intOf x = some z ∧ z.toInt = x := by
  have hsome : intOf x = some (Int32.ofInt x) := if_pos h
  exact ⟨_, hsome, intOf_eq_some_iff.mp hsome⟩

theorem addInt_eq_some_iff {x y z : Int32} : addInt x y = some z ↔ z.toInt = x.toInt + y.toInt :=
  intOf_eq_some_iff

theorem subInt_eq_some_iff {x y z : Int32} : subInt x y = some z ↔ z.toInt = x.toInt - y.toInt :=
  intOf_eq_some_iff

theorem intOf_eq_none {x : Int} (h : fits 32 x = false) : intOf x = none := by
  rw [intOf, h]
  rfl

/-! ### Sums in a range -/

/-- The values are added up; `none` where a sum is out of range. -/
def sumWithin (inRange : Int → Bool) : Int → List Int → Option Int
  | acc, [] => some acc
  | acc, x :: xs => if inRange (acc + x) then sumWithin inRange (acc + x) xs else none

/-- **A sum is exact when its partial sums are in range**, and only then. -/
theorem sumWithin_eq_some_iff {inRange : Int → Bool} {acc y : Int} {xs : List Int} :
    sumWithin inRange acc xs = some y ↔
      (∀ i, i < xs.length → inRange (acc + (xs.take (i + 1)).sum) = true) ∧ y = acc + xs.sum := by
  induction xs generalizing acc with
  | nil =>
    rw [sumWithin, Option.some.injEq, List.sum_nil, Int.add_zero]
    constructor
    · rintro rfl
      exact ⟨by simp, rfl⟩
    · rintro ⟨-, rfl⟩
      rfl
  | cons x xs ih =>
    rw [sumWithin]
    by_cases hx : inRange (acc + x) = true
    · rw [if_pos hx, ih]
      constructor
      · rintro ⟨hall, rfl⟩
        refine ⟨?_, by rw [List.sum_cons, Int.add_assoc]⟩
        intro i hi
        cases i with
        | zero => simpa using hx
        | succ i =>
          have hrest := hall i (by simpa using hi)
          rwa [List.take_succ_cons, List.sum_cons, ← Int.add_assoc]
      · rintro ⟨hall, rfl⟩
        refine ⟨?_, by rw [List.sum_cons, Int.add_assoc]⟩
        intro i hi
        have hrest := hall (i + 1) (by simpa using hi)
        rwa [List.take_succ_cons, List.sum_cons, ← Int.add_assoc] at hrest
    · rw [if_neg hx]
      constructor
      · intro hnone
        cases hnone
      · rintro ⟨hall, -⟩
        exact absurd (by simpa using hall 0 (by simp)) hx

theorem mapM_eq_some_iff {α β : Type} {f : α → Option β} {l : List α} {ys : List β} :
    l.mapM f = some ys ↔ l.map f = ys.map some := by
  induction l generalizing ys with
  | nil =>
    rw [List.mapM_nil]
    cases ys <;> simp
  | cons x l ih =>
    rw [List.mapM_cons, List.map_cons]
    constructor
    · intro h
      obtain ⟨y, hy, h⟩ := Option.bind_eq_some_iff.mp h
      obtain ⟨zs, hzs, h⟩ := Option.bind_eq_some_iff.mp h
      obtain rfl : y :: zs = ys := Option.some.inj h
      rw [hy, ih.mp hzs, List.map_cons]
    · intro h
      cases ys with
      | nil => cases h
      | cons y ys =>
        obtain ⟨hy, hys⟩ := List.cons.inj h
        rw [hy, ih.mpr hys]
        rfl

theorem mapM_isSome {α β : Type} {f : α → Option β} {l : List α}
    (h : ∀ x ∈ l, (f x).isSome = true) : (l.mapM f).isSome = true := by
  induction l with
  | nil => rfl
  | cons x l ih =>
    obtain ⟨hx, hl⟩ := List.forall_mem_cons.mp h
    obtain ⟨y, hy⟩ := Option.isSome_iff_exists.mp hx
    obtain ⟨ys, hys⟩ := Option.isSome_iff_exists.mp (ih hl)
    rw [List.mapM_cons, hy, hys]
    rfl

end Lib.Arith
