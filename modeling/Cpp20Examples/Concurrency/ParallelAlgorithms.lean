import Cpp20Examples.Lib.Arith
import Cpp20Examples.Lib.GeneralizedSum
import Mathlib.Algebra.GroupWithZero.Nat
import Mathlib.Algebra.Order.BigOperators.Group.List
import Mathlib.Data.BitVec

/-!
# The parallel algorithms

`reduce` adds up a vector of `int` with `std::reduce(std::execution::par, ..)`, and
`newAlgorithm` has `std::reduce` with strings, and the scans.  In which order and with
which grouping the elements are put together is left to the implementation.

* `reduce_exact_iff`: the sum of a vector of `int` never overflows if and only if the positive
  elements have a sum in range, and so have the negative ones.
* `reduce_strings`: the strings may come out in any order, and in no other way.
* `scans_exact_iff`: a scan never overflows if and only if the products of all segments are in
  range, not only those of the beginnings, which are its results.
-/

namespace Cpp20Examples.ParallelAlgorithms

open Lib Lib.Arith Lib.Grouping

/-! ### The calls -/

/-- `std::reduce(std::execution::par, v.begin(), v.end())` of `reduce`; `none` where an
operation overflows. -/
def reduce (v : List Int32) (res : Option Int) : Prop :=
  GeneralizedSum (· + ·) (fits 32) (0 :: v.map Int32.toInt) res

/-- `[](auto fir, auto sec) { return fir + ":" + sec; }` -/
def join (fir sec : String) : String := fir ++ ":" ++ sec

/-- `std::reduce(std::execution::par, strVec2.begin() + 1, strVec2.end(), strVec2[0], ..)` -/
def reduceStrings (strVec2 : List String) (res : Option String) : Prop :=
  GeneralizedSum join (fun _ => true) strVec2 res

/-- `s.length()`, in `std::size_t` -/
def length (s : String) : BitVec 64 := .ofNat 64 s.utf8ByteSize

/-- `std::transform_reduce(std::execution::par, strVec2.begin(), strVec2.end(), ..)` -/
def transformReduce (strVec2 : List String) (res7 : Option (BitVec 64)) : Prop :=
  GeneralizedSum (· + ·) (fun _ => true) (0 :: strVec2.map length) res7

/-- `std::exclusive_scan(std::execution::par, resVec.begin(), .., 1, ..)`, with a product of
`int` -/
def exclusiveScan (resVec : List Int32) (rs : List (Option Int)) : Prop :=
  Scan (· * ·) (fits 32) 0 (resVec.map Int32.toInt) 1 rs

/-- `std::inclusive_scan(std::execution::par, resVec2.begin(), .., 1)` -/
def inclusiveScan (resVec2 : List Int32) (rs : List (Option Int)) : Prop :=
  Scan (· * ·) (fits 32) 1 (resVec2.map Int32.toInt) 1 rs

/-! ### Totals -/

theorem total_add {α : Type} [AddCommMonoid α] (g : Grouping α) :
    g.total (· + ·) = g.elements.sum := by
  induction g with
  | element a => exact (List.sum_singleton).symm
  | node l r ihl ihr => rw [total, ihl, ihr, elements, List.sum_append]

theorem total_mul (g : Grouping Int) : g.total (· * ·) = g.elements.prod := by
  induction g with
  | element a => exact (List.prod_singleton).symm
  | node l r ihl ihr => rw [total, ihl, ihr, elements, List.prod_append]

theorem eval_true {α : Type} (f : α → α → α) (g : Grouping α) :
    g.eval f (fun _ => true) = some (g.total f) := by
  rw [eval_eq, if_pos fun _ _ => rfl]

/-! ### Sums of `int` -/

section Reduce

variable {xs ys : List Int}

def positives (xs : List Int) : List Int := xs.filter fun x => 0 < x

def negatives (xs : List Int) : List Int := xs.filter fun x => x < 0

theorem sum_le_positives (xs : List Int) : xs.sum ≤ (positives xs).sum := by
  induction xs with
  | nil => exact le_rfl
  | cons x xs ih =>
    rw [positives, List.filter_cons, List.sum_cons]
    split
    · rw [List.sum_cons]
      exact Int.add_le_add_left ih x
    · rename_i hx
      have hle : x ≤ 0 := by simpa using hx
      rw [positives] at ih
      omega

theorem negatives_le_sum (xs : List Int) : (negatives xs).sum ≤ xs.sum := by
  induction xs with
  | nil => exact le_rfl
  | cons x xs ih =>
    rw [negatives, List.filter_cons, List.sum_cons]
    split
    · rw [List.sum_cons]
      exact Int.add_le_add_left ih x
    · rename_i hx
      have hle : 0 ≤ x := by simpa using hx
      rw [negatives] at ih
      omega

theorem positives_nonneg (xs : List Int) : 0 ≤ (positives xs).sum := by
  apply List.sum_nonneg
  intro x hx
  exact le_of_lt (by simpa using (List.mem_filter.mp hx).2)

theorem negatives_nonpos (xs : List Int) : (negatives xs).sum ≤ 0 := by
  induction xs with
  | nil => exact le_rfl
  | cons x xs ih =>
    rw [negatives, List.filter_cons]
    split
    · rename_i hx
      have hlt : x < 0 := by simpa using hx
      rw [List.sum_cons]
      rw [negatives] at ih
      omega
    · exact ih

theorem positives_le (h : xs.Subperm ys) : (positives xs).sum ≤ (positives ys).sum := by
  obtain ⟨zs, hperm, hsub⟩ := List.subperm_iff.mp h
  obtain ⟨rest, hrest⟩ := hsub.exists_perm_append
  have hall : (positives ys).sum = (positives xs).sum + (positives rest).sum := by
    rw [← List.sum_append, positives, positives, positives, ← List.filter_append]
    exact ((hperm.symm.trans hrest).filter _).sum_eq
  have hpos := positives_nonneg rest
  omega

theorem negatives_le (h : xs.Subperm ys) : (negatives ys).sum ≤ (negatives xs).sum := by
  obtain ⟨zs, hperm, hsub⟩ := List.subperm_iff.mp h
  obtain ⟨rest, hrest⟩ := hsub.exists_perm_append
  have hall : (negatives ys).sum = (negatives xs).sum + (negatives rest).sum := by
    rw [← List.sum_append, negatives, negatives, negatives, ← List.filter_append]
    exact ((hperm.symm.trans hrest).filter _).sum_eq
  have hneg := negatives_nonpos rest
  omega

/-- The total of a selection, with the initial value in front, is the result of a node. -/
theorem fits_of_defined (h : ∀ r, GeneralizedSum (· + ·) (fits 32) (0 :: ys) r → r ≠ none)
    (hsub : xs.Sublist ys) : fits 32 xs.sum = true := by
  by_cases hxs : xs = []
  · rw [hxs]
    decide
  · have hpos := List.length_pos_iff.mpr hxs
    have hok := generalizedSum_defined_iff.mp h (fromLeft 0 xs) (by
      rw [elements_fromLeft]
      exact (hsub.cons_cons 0).subperm) (by
      rw [elements_fromLeft, List.length_cons]
      omega)
    rw [total_add, elements_fromLeft, List.sum_cons, zero_add] at hok
    exact hok

end Reduce

/-- **The parallel sum is exact**, or an operation overflows on its way.  That none does,
whatever the order and the grouping, is a matter of the positive and the negative elements
each by themselves. -/
theorem reduce_exact_iff (v : List Int32) :
    (∀ res, reduce v res → res = none ∨ res = some (v.map Int32.toInt).sum) ∧
    ((∀ res, reduce v res → res ≠ none) ↔
      (positives (v.map Int32.toInt)).sum < 2 ^ 31 ∧
        -2 ^ 31 ≤ (negatives (v.map Int32.toInt)).sum) := by
  refine ⟨?_, ?_, ?_⟩
  · rintro res ⟨g, hg, rfl⟩
    cases hr : g.eval (· + ·) (fits 32) with
    | none => exact .inl rfl
    | some r =>
      right
      rw [eval_eq_total hr, total_add, hg.sum_eq, List.sum_cons, zero_add]
  · intro h
    have hpositives : fits 32 (positives (v.map Int32.toInt)).sum = true :=
      fits_of_defined h List.filter_sublist
    have hnegatives : fits 32 (negatives (v.map Int32.toInt)).sum = true :=
      fits_of_defined h List.filter_sublist
    exact ⟨(fits_int_iff.mp hpositives).2, (fits_int_iff.mp hnegatives).1⟩
  · rintro ⟨hpositives, hnegatives⟩
    apply generalizedSum_defined_iff.mpr
    intro n hn _
    rw [total_add, fits_int_iff]
    have hle := sum_le_positives n.elements
    have hge := negatives_le_sum n.elements
    have hple := positives_le hn
    have hnle := negatives_le hn
    have hp : positives (0 :: v.map Int32.toInt) = positives (v.map Int32.toInt) := rfl
    have hm : negatives (0 :: v.map Int32.toInt) = negatives (v.map Int32.toInt) := rfl
    rw [hp] at hple
    rw [hm] at hnle
    omega

/-! ### Strings -/

theorem join_assoc (a b c : String) : join (join a b) c = join a (join b c) := by
  rw [join, join, join, join, String.append_assoc, String.append_assoc, String.append_assoc,
    String.append_assoc, String.append_assoc]

instance : Std.Associative join := ⟨join_assoc⟩

theorem foldl_join (a : String) (as : List String) :
    as.foldl join a = ":".intercalate (a :: as) := by
  induction as generalizing a with
  | nil => exact String.intercalate_singleton.symm
  | cons x as ih =>
    rw [List.foldl_cons, ih, String.intercalate_cons_cons]
    cases as with
    | nil => rw [String.intercalate_singleton, String.intercalate_singleton, join]
    | cons y ys =>
      rw [String.intercalate_cons_cons, String.intercalate_cons_cons, join, String.append_assoc,
        String.append_assoc, String.append_assoc, String.append_assoc, String.append_assoc]

/-- **The strings come out in any order**, the first one not always in front, with one `:`
between two of them and none elsewhere; the sum of their lengths is the same in any order. -/
theorem reduce_strings (strVec2 : List String) (h : strVec2 ≠ []) :
    (∀ res, reduceStrings strVec2 res ↔
      ∃ bs, bs.Perm strVec2 ∧ res = some (":".intercalate bs)) ∧
    ∀ res7, transformReduce strVec2 res7 ↔ res7 = some (strVec2.map length).sum := by
  refine ⟨?_, ?_⟩
  · intro res
    constructor
    · rintro ⟨g, hg, rfl⟩
      refine ⟨g.elements, hg, ?_⟩
      obtain ⟨a, as, has⟩ := List.exists_cons_of_ne_nil (elements_ne_nil g)
      rw [eval_true, total_eq_foldl has, has, foldl_join]
    · rintro ⟨bs, hperm, rfl⟩
      have hbs : bs ≠ [] := by
        rintro rfl
        exact h hperm.symm.eq_nil
      obtain ⟨g, hg⟩ := exists_elements hbs
      obtain ⟨a, as, has⟩ := List.exists_cons_of_ne_nil hbs
      refine ⟨g, hg ▸ hperm, ?_⟩
      rw [eval_true, total_eq_foldl (hg.trans has), has, foldl_join]
  · intro res7
    constructor
    · rintro ⟨g, hg, rfl⟩
      rw [eval_true, total_add, hg.sum_eq, List.sum_cons, zero_add]
    · rintro rfl
      refine ⟨fromLeft 0 (strVec2.map length), by rw [elements_fromLeft], ?_⟩
      rw [eval_true, total_add, elements_fromLeft, List.sum_cons, zero_add]

theorem reduce_strings_four :
    (∀ res, reduceStrings ["Only", "for", "testing", "purpose"] res ↔
      ∃ bs, bs.Perm ["Only", "for", "testing", "purpose"] ∧ res = some (":".intercalate bs)) ∧
    ∀ res7, transformReduce ["Only", "for", "testing", "purpose"] res7 ↔ res7 = some 21 :=
  reduce_strings ["Only", "for", "testing", "purpose"] nofun

/-! ### Scans -/

theorem prod_of_scan {d : Nat} {v : List Int32} {rs : List (Option Int)}
    (h : Scan (· * ·) (fits 32) d (v.map Int32.toInt) 1 rs) (i : Nat) (r : Int)
    (hr : rs[i]? = some (some r)) : r = ((v.map Int32.toInt).take (i + d)).prod := by
  obtain ⟨g, hg, heval⟩ := h.sums i _ hr
  rw [eval_eq_total heval, total_mul, hg, List.prod_cons, one_mul]

/-- The initial value is a factor of none but the beginnings. -/
theorem products_fit_iff (xs : List Int) (hxs : ∀ x ∈ xs, fits 32 x = true) :
    (∀ n : Grouping Int, n.elements <:+: 1 :: xs → 2 ≤ n.elements.length →
      fits 32 (n.total (· * ·)) = true) ↔ ∀ m, m <:+: xs → fits 32 m.prod = true := by
  constructor
  · intro h m hm
    by_cases hlen : 2 ≤ m.length
    · obtain ⟨g, rfl⟩ := exists_elements (List.ne_nil_of_length_pos (by omega : 0 < m.length))
      rw [← total_mul]
      exact h g (hm.trans (List.suffix_cons 1 xs).isInfix) hlen
    · match m with
      | [] => decide
      | [x] =>
        rw [List.prod_singleton]
        exact hxs x (hm.subset (List.mem_singleton_self x))
      | _ :: _ :: _ => exact absurd (Nat.le_add_left ..) hlen
  · intro h n hn _
    rw [total_mul]
    rcases List.infix_cons_iff.mp hn with hbegin | hn
    · obtain ⟨a, as, has⟩ := List.exists_cons_of_ne_nil (elements_ne_nil n)
      rw [has] at hbegin ⊢
      obtain ⟨rfl, htail⟩ := List.cons_prefix_cons.mp hbegin
      rw [List.prod_cons, one_mul]
      exact h as htail.isInfix
    · exact h n.elements hn

/-- **The scans have the products of the beginnings as results**, or overflow on the way.  Which
parts are multiplied on the way is open: a zero in front of large factors does not help. -/
theorem scans_exact_iff (v : List Int32) :
    (∀ rs, exclusiveScan v rs → ∀ (i : Nat) r, rs[i]? = some (some r) →
      r = ((v.map Int32.toInt).take i).prod) ∧
    ((∀ rs, exclusiveScan v rs → none ∉ rs) ↔
      ∀ m, m <:+: (v.map Int32.toInt).dropLast → fits 32 m.prod = true) ∧
    (∀ rs, inclusiveScan v rs → ∀ (i : Nat) r, rs[i]? = some (some r) →
      r = ((v.map Int32.toInt).take (i + 1)).prod) ∧
    ((∀ rs, inclusiveScan v rs → none ∉ rs) ↔
      ∀ m, m <:+: v.map Int32.toInt → fits 32 m.prod = true) := by
  have hall : ∀ x ∈ v.map Int32.toInt, fits 32 x = true := by
    intro x hx
    obtain ⟨c, -, rfl⟩ := List.mem_map.mp hx
    exact fits_toInt c
  refine ⟨fun rs h => prod_of_scan h, ?_, fun rs h => prod_of_scan h, ?_⟩
  · rw [List.dropLast_eq_take, ← products_fit_iff]
    · exact scan_defined_iff
    · intro x hx
      exact hall x (List.mem_of_mem_take hx)
  · refine scan_defined_iff.trans ?_
    rw [List.take_of_length_le (by omega)]
    exact products_fit_iff _ hall

example : [2 ^ 20, 2 ^ 20] <:+: [(0 : Int), 2 ^ 20, 2 ^ 20] ∧
    fits 32 [(2 : Int) ^ 20, 2 ^ 20].prod = false := by decide

end Cpp20Examples.ParallelAlgorithms
