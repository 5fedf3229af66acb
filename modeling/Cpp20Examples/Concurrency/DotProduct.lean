import Cpp20Examples.Lib.Arith
import Mathlib.Data.Int.Order.Basic
import Mathlib.Tactic.Linarith

/-!
# The dot product

`dotProduct` computes it with one `std::inner_product`.  The solution `dotProductAsync`
computes it with four of them, in tasks of `std::async`: each reads a quarter of `v`, and
the part of `w` at the same positions.

* `loop_eq`: the loop of `std::inner_product` adds up the products of its range.
* `quarters_adjacent`: the quarters cover the vector, for every length.
* `async_eq_sequential`: with exact integers, both functions return the dot product.
* `dotProducts_exact_iff`: with the types of the program, they do when the products are
  of type `int`.
-/

namespace Cpp20Examples.DotProduct

open Lib.Arith

/-- A `std::vector` with elements of four bytes, of which there are less than `2 ^ 61`. -/
structure Vector (T : Type) where
  elems : List T
  size_lt : elems.length < 2 ^ 61

def Vector.size {T : Type} (v : Vector T) : Nat := v.elems.length

/-- What `acc + *first1 * *first2` is computed with: the values of the elements, and those
of the types of the product and of the sum. -/
structure Arithmetic (T : Type) where
  value : T → Int
  product : Int → Bool
  sum : Int → Bool

/-- Exact integers. -/
def exactIntegers : Arithmetic Int := ⟨id, fun _ => true, fun _ => true⟩

/-- The elements are `int`, and so is a product of two of them; the accumulator is a
`long long`. -/
def machine : Arithmetic Int32 := ⟨Int32.toInt, fits 32, fits 64⟩

/-! ### The functions -/

section Definitions

variable {T : Type} (A : Arithmetic T)

/-- The loop of `std::inner_product` from the position `first1` on, where `v` and `w` have
these elements; `none` where an operation overflows or an element is not there. -/
def innerProduct.loop (last1 : Nat) : Nat → List T → List T → Int → Option Int
  | first1, [], _, init => if first1 = last1 then some init else none
  | first1, x :: v, w, init =>
    if first1 = last1 then some init
    else
      match w with
      | [] => none
      | y :: w =>
        let p := A.value x * A.value y
        if A.product p && A.sum (init + p) then loop last1 (first1 + 1) v w (init + p) else none

/-- `std::inner_product(&v[first1], &v[last1], &w[first2], init)` -/
def innerProduct (v w : Vector T) (first1 last1 first2 : Nat) (init : Int) : Option Int :=
  innerProduct.loop A last1 first1 (v.elems.drop first1) (w.elems.drop first2) init

/-- `getDotProduct` of `dotProduct` -/
def getDotProduct (v w : Vector T) : Option Int := innerProduct A v w 0 v.size 0 0

/-- The ranges of the tasks.  The sizes are of type `size_t`. -/
def quarters (size : Nat) : List (Nat × Nat) :=
  [(0, size / 4), (size / 4, size / 2), (size / 2, size * 3 % 2 ^ 64 / 4),
    (size * 3 % 2 ^ 64 / 4, size)]

/-- What the tasks compute.  They only read the vectors, so it does not matter when each of
them runs. -/
def futures (v w : Vector T) : List (Option Int) :=
  (quarters v.size).map fun r => innerProduct A v w r.1 r.2 r.1 0

/-- The result of the first future, and the `get` of those behind it added to it. -/
def getAll : List (Option Int) → Option Int
  | [] => none
  | future :: futures => future.bind fun r =>
    (futures.mapM id).bind fun rs => sumWithin A.sum r rs

/-- `getDotProduct` of `dotProductAsync` -/
def getDotProductAsync (v w : Vector T) : Option Int := getAll A (futures A v w)

/-- The products of the elements. -/
def products (v w : Vector T) : List Int :=
  List.zipWith (fun x y => A.value x * A.value y) v.elems w.elems

/-- The products at the positions from `r.1` on, up to `r.2`. -/
def productsIn (v w : Vector T) (r : Nat × Nat) : List Int :=
  ((products A v w).take r.2).drop r.1

/-- The mathematical dot product. -/
def dot (v w : Vector T) : Int := (products A v w).sum

end Definitions

/-! ### `std::inner_product` -/

section Loop

variable {T : Type} {A : Arithmetic T} {v w : Vector T}

/-- **The loop adds up the products of its range**, when they are there. -/
theorem loop_eq {k first1 : Nat} {xs ys : List T} {init : Int} (hx : k ≤ xs.length)
    (hy : k ≤ ys.length) :
    innerProduct.loop A (first1 + k) first1 xs ys init =
      if ((List.zipWith (fun x y => A.value x * A.value y) xs ys).take k).all A.product then
        sumWithin A.sum init ((List.zipWith (fun x y => A.value x * A.value y) xs ys).take k)
      else none := by
  induction k generalizing first1 xs ys init with
  | zero => cases xs <;> simp [innerProduct.loop, sumWithin]
  | succ k ih =>
    cases xs with
    | nil => simp at hx
    | cons x xs =>
      cases ys with
      | nil => simp at hy
      | cons y ys =>
        have hne : first1 ≠ first1 + (k + 1) := by omega
        have hrest := @ih (first1 + 1) xs ys (init + A.value x * A.value y)
          (by simpa using hx) (by simpa using hy)
        rw [innerProduct.loop, if_neg hne, List.zipWith_cons_cons, List.take_succ_cons,
          List.all_cons, sumWithin]
        rw [Nat.add_assoc, Nat.add_comm 1 k] at hrest
        dsimp only
        rw [hrest]
        by_cases hproduct : A.product (A.value x * A.value y) = true
        · by_cases hsum : A.sum (init + A.value x * A.value y) = true
          · simp [hproduct, hsum]
          · simp [hsum]
        · simp [hproduct]

theorem innerProduct_eq (hsize : v.size ≤ w.size) {r : Nat × Nat} (hle : r.1 ≤ r.2)
    (hr : r.2 ≤ v.size) (init : Int) :
    innerProduct A v w r.1 r.2 r.1 init =
      if (productsIn A v w r).all A.product then sumWithin A.sum init (productsIn A v w r)
      else none := by
  have hproducts : productsIn A v w r = (List.zipWith (fun x y => A.value x * A.value y)
      (v.elems.drop r.1) (w.elems.drop r.1)).take (r.2 - r.1) := by
    rw [productsIn, List.drop_take, products, List.drop_zipWith]
  have hv : r.2 - r.1 ≤ (v.elems.drop r.1).length := by
    rw [List.length_drop]
    exact Nat.sub_le_sub_right hr r.1
  have hw : r.2 - r.1 ≤ (w.elems.drop r.1).length := by
    rw [List.length_drop]
    exact Nat.sub_le_sub_right (hr.trans hsize) r.1
  rw [hproducts, ← loop_eq hv hw, Nat.add_sub_cancel' hle]
  rfl

theorem innerProduct_eq_some_iff (hsize : v.size ≤ w.size) {r : Nat × Nat} (hle : r.1 ≤ r.2)
    (hr : r.2 ≤ v.size) {x : Int} :
    innerProduct A v w r.1 r.2 r.1 0 = some x ↔
      (∀ p ∈ productsIn A v w r, A.product p = true) ∧
      (∀ i, i < (productsIn A v w r).length →
        A.sum ((productsIn A v w r).take (i + 1)).sum = true) ∧
      x = (productsIn A v w r).sum := by
  rw [innerProduct_eq hsize hle hr, Option.ite_none_right_eq_some, List.all_eq_true,
    sumWithin_eq_some_iff]
  simp only [Int.zero_add]

theorem length_products_le : (products A v w).length ≤ v.size := by
  rw [products, List.length_zipWith]
  exact Nat.min_le_left _ _

theorem productsIn_all : productsIn A v w (0, v.size) = products A v w := by
  rw [productsIn, List.take_of_length_le length_products_le, List.drop_zero]

end Loop

/-! ### The quarters -/

/-- The ranges begin at `lo`, each where the one before ends, and end at `hi`. -/
def Adjacent : Nat → List (Nat × Nat) → Nat → Prop
  | lo, [], hi => lo = hi
  | lo, r :: rs, hi => r.1 = lo ∧ lo ≤ r.2 ∧ Adjacent r.2 rs hi

theorem Adjacent.le {lo hi : Nat} {rs : List (Nat × Nat)} (h : Adjacent lo rs hi) : lo ≤ hi := by
  induction rs generalizing lo with
  | nil => exact Nat.le_of_eq h
  | cons r rs ih => exact Nat.le_trans h.2.1 (ih h.2.2)

theorem Adjacent.mem {lo hi : Nat} {rs : List (Nat × Nat)} (h : Adjacent lo rs hi)
    {r : Nat × Nat} (hr : r ∈ rs) : r.1 ≤ r.2 ∧ r.2 ≤ hi := by
  induction rs generalizing lo with
  | nil => cases hr
  | cons r' rs ih =>
    obtain ⟨hlo, hle, hrest⟩ := h
    rcases List.mem_cons.mp hr with rfl | hr
    · exact ⟨hlo ▸ hle, hrest.le⟩
    · exact ih hrest hr

theorem Adjacent.flatMap {T : Type} {lo hi : Nat} {rs : List (Nat × Nat)} (h : Adjacent lo rs hi)
    (l : List T) : (rs.flatMap fun r => (l.take r.2).drop r.1) = (l.take hi).drop lo := by
  induction rs generalizing lo with
  | nil =>
    obtain rfl : lo = hi := h
    rw [List.flatMap_nil, List.drop_take, Nat.sub_self, List.take_zero]
  | cons r rs ih =>
    obtain ⟨rfl, hle, hrest⟩ := h
    have hhi := hrest.le
    rw [List.flatMap_cons, ih hrest, List.drop_take, List.drop_take, List.drop_take]
    rw [show hi - r.1 = (r.2 - r.1) + (hi - r.2) by omega, List.take_add, List.drop_drop,
      Nat.add_sub_cancel' hle]

/-- **The quarters cover a vector of any length.** -/
theorem quarters_adjacent {size : Nat} (h : size < 2 ^ 61) : Adjacent 0 (quarters size) size := by
  have hmod : size * 3 % 2 ^ 64 = size * 3 := Nat.mod_eq_of_lt (by omega)
  rw [quarters, hmod]
  refine ⟨rfl, Nat.zero_le _, rfl, ?_, rfl, ?_, rfl, ?_, rfl⟩
  · show size / 4 ≤ size / 2
    omega
  · show size / 2 ≤ size * 3 / 4
    omega
  · show size * 3 / 4 ≤ size
    omega

/-! ### The futures -/

/-- The `get`s return when all tasks do, and the sum is exact when its partial sums are in
range. -/
theorem getAll_eq_some_iff {T : Type} {A : Arithmetic T} {futures : List (Option Int)} {x : Int} :
    getAll A futures = some x ↔ ∃ r rs, futures = (r :: rs).map some ∧
      (∀ i, i < rs.length → A.sum (r + (rs.take (i + 1)).sum) = true) ∧ x = r + rs.sum := by
  cases futures with
  | nil => simp [getAll]
  | cons future futures =>
    rw [getAll, Option.bind_eq_some_iff]
    constructor
    · rintro ⟨r, rfl, h⟩
      obtain ⟨rs, hrs, h⟩ := Option.bind_eq_some_iff.mp h
      have hall := mapM_eq_some_iff.mp hrs
      rw [List.map_id] at hall
      exact ⟨r, rs, by rw [hall, List.map_cons], sumWithin_eq_some_iff.mp h⟩
    · rintro ⟨r, rs, hfutures, h⟩
      obtain ⟨rfl, rfl⟩ := List.cons.inj hfutures
      exact ⟨r, rfl, Option.bind_eq_some_iff.mpr
        ⟨rs, mapM_eq_some_iff.mpr (List.map_id _), sumWithin_eq_some_iff.mpr h⟩⟩

section Results

variable {T : Type} {A : Arithmetic T} {v w : Vector T}

/-- The dot product of the first elements. -/
def partialSum (A : Arithmetic T) (v w : Vector T) (k : Nat) : Int :=
  ((products A v w).take k).sum

theorem sum_productsIn {r : Nat × Nat} (hle : r.1 ≤ r.2) :
    partialSum A v w r.1 + (productsIn A v w r).sum = partialSum A v w r.2 := by
  rw [partialSum, partialSum, productsIn, List.drop_take, ← List.sum_append, ← List.take_add,
    Nat.add_sub_cancel' hle]

/-- **The sequential function** is exact when the products and the partial sums are in
range. -/
theorem getDotProduct_eq_some_iff (hsize : v.size ≤ w.size) {x : Int} :
    getDotProduct A v w = some x ↔ (∀ p ∈ products A v w, A.product p = true) ∧
      (∀ i, i < (products A v w).length → A.sum ((products A v w).take (i + 1)).sum = true) ∧
      x = dot A v w := by
  have h := innerProduct_eq_some_iff (A := A) (r := (0, v.size)) hsize (Nat.zero_le _)
    (Nat.le_refl _) (x := x)
  rw [productsIn_all] at h
  exact h

theorem futures_eq_some_iff (hsize : v.size ≤ w.size) {rs : List Int} :
    futures A v w = rs.map some ↔
      (∀ r ∈ quarters v.size, (∀ p ∈ productsIn A v w r, A.product p = true) ∧
        ∀ i, i < (productsIn A v w r).length →
          A.sum ((productsIn A v w r).take (i + 1)).sum = true) ∧
      rs = (quarters v.size).map fun r => (productsIn A v w r).sum := by
  have hmem : ∀ r ∈ quarters v.size, r.1 ≤ r.2 ∧ r.2 ≤ v.size := fun r hr =>
    (quarters_adjacent v.size_lt).mem hr
  rw [futures]
  generalize quarters v.size = ranges at hmem
  induction ranges generalizing rs with
  | nil => cases rs <;> simp
  | cons r ranges ih =>
    obtain ⟨hle, hr⟩ := hmem r List.mem_cons_self
    rw [List.map_cons, List.map_cons, List.forall_mem_cons]
    cases rs with
    | nil => simp
    | cons x rs =>
      have hrest := @ih rs fun r hr => hmem r (List.mem_cons_of_mem _ hr)
      rw [List.map_cons, List.cons.injEq, List.cons.injEq, innerProduct_eq_some_iff hsize hle hr]
      constructor
      · rintro ⟨⟨hp, hs, rfl⟩, hmap⟩
        obtain ⟨hall, rfl⟩ := hrest.mp hmap
        exact ⟨⟨⟨hp, hs⟩, hall⟩, rfl, rfl⟩
      · rintro ⟨⟨⟨hp, hs⟩, hall⟩, rfl, rfl⟩
        exact ⟨⟨hp, hs, rfl⟩, hrest.mpr ⟨hall, rfl⟩⟩

theorem Adjacent.exists_partialSum {lo hi : Nat} {rs : List (Nat × Nat)} (h : Adjacent lo rs hi)
    (i : Nat) : ∃ k, partialSum A v w lo +
      ((rs.map fun r => (productsIn A v w r).sum).take i).sum = partialSum A v w k := by
  induction rs generalizing lo i with
  | nil => exact ⟨lo, by simp⟩
  | cons r rs ih =>
    obtain ⟨rfl, hle, hrest⟩ := h
    cases i with
    | zero => exact ⟨r.1, by simp⟩
    | succ i =>
      obtain ⟨k, hk⟩ := ih hrest i
      refine ⟨k, ?_⟩
      rw [List.map_cons, List.take_succ_cons, List.sum_cons, ← Int.add_assoc, sum_productsIn hle,
        hk]

/-- **The asynchronous function** is exact when the products and the partial sums of the
quarters are in range, and the sums up to an end. -/
theorem getDotProductAsync_eq_some_iff (hsize : v.size ≤ w.size)
    (hends : ∀ k, A.sum (partialSum A v w k) = true) {x : Int} :
    getDotProductAsync A v w = some x ↔
      (∀ r ∈ quarters v.size, (∀ p ∈ productsIn A v w r, A.product p = true) ∧
        ∀ i, i < (productsIn A v w r).length →
          A.sum ((productsIn A v w r).take (i + 1)).sum = true) ∧
      x = dot A v w := by
  have hadjacent : Adjacent 0 (quarters v.size) v.size := quarters_adjacent v.size_lt
  have hzero : partialSum A v w 0 = 0 := rfl
  have htotal : ((quarters v.size).map fun r => (productsIn A v w r).sum).sum = dot A v w := by
    calc
      _ = ((quarters v.size).flatMap fun r => productsIn A v w r).sum := by
        rw [List.flatMap_def, List.sum_flatten, List.map_map, Function.comp_def]
      _ = (productsIn A v w (0, v.size)).sum := congrArg List.sum (hadjacent.flatMap _)
      _ = dot A v w := by rw [productsIn_all, dot]
  rw [getDotProductAsync, getAll_eq_some_iff]
  constructor
  · rintro ⟨r, rs, hfutures, -, rfl⟩
    obtain ⟨hall, hrs⟩ := (futures_eq_some_iff hsize).mp hfutures
    refine ⟨hall, ?_⟩
    rw [← htotal, ← hrs, List.sum_cons]
  · rintro ⟨hall, rfl⟩
    have hfutures := (futures_eq_some_iff hsize).mpr ⟨hall, rfl⟩
    refine ⟨_, _, hfutures, ?_, ?_⟩
    · intro i _
      obtain ⟨k, hk⟩ := hadjacent.exists_partialSum (A := A) (v := v) (w := w) (i + 2)
      have hend := hends k
      rwa [← hk, hzero, Int.zero_add, quarters, List.map_cons, List.take_succ_cons,
        List.sum_cons] at hend
    · rw [← htotal, quarters, List.map_cons, List.sum_cons]

end Results

/-! ### Exact integers -/

/-- **With exact integers** both functions return the dot product, for vectors of any
length.  The ranges of the tasks cover `v` in order, and no task reads past its end or that
of `w`. -/
theorem async_eq_sequential (v w : Vector Int) (hsize : v.size ≤ w.size) :
    getDotProductAsync exactIntegers v w = getDotProduct exactIntegers v w ∧
      getDotProduct exactIntegers v w = some (dot exactIntegers v w) ∧
      Adjacent 0 (quarters v.size) v.size := by
  have hsequential : getDotProduct exactIntegers v w = some (dot exactIntegers v w) :=
    (getDotProduct_eq_some_iff hsize).mpr ⟨fun _ _ => rfl, fun _ _ => rfl, rfl⟩
  have hasync : getDotProductAsync exactIntegers v w = some (dot exactIntegers v w) :=
    (getDotProductAsync_eq_some_iff hsize fun _ => rfl).mpr
      ⟨fun _ _ => ⟨fun _ _ => rfl, fun _ _ => rfl⟩, rfl⟩
  exact ⟨hasync.trans hsequential.symm, hsequential, quarters_adjacent v.size_lt⟩

/-- Three elements, of which the first quarter has none, and a longer second vector. -/
theorem async_eq_sequential_three :
    getDotProductAsync exactIntegers ⟨[1, -2, 3], by decide⟩ ⟨[4, 5, 6, 7], by decide⟩ =
      some 12 := by
  have h := async_eq_sequential ⟨[1, -2, 3], by decide⟩ ⟨[4, 5, 6, 7], by decide⟩ (by decide)
  rw [h.1, h.2.1]
  rfl

/-! ### The types of the program -/

/-- The sums of the first values are of type `long long`. -/
def PartialSumsFit (ps : List Int) : Prop :=
  ∀ i, i < ps.length → fits 64 (ps.take (i + 1)).sum = true

theorem PartialSumsFit.take {ps : List Int} (h : PartialSumsFit ps) (k : Nat) :
    fits 64 (ps.take k).sum = true := by
  rcases Nat.eq_zero_or_pos (ps.take k).length with hnil | hpos
  · rw [List.length_eq_zero_iff.mp hnil]
    rfl
  · have hlen : (ps.take k).length = min k ps.length := List.length_take
    have hfit := h ((ps.take k).length - 1) (by omega)
    rwa [Nat.sub_add_cancel hpos, hlen, ← List.take_eq_take_min] at hfit

theorem sum_bounds {ps : List Int} (h : ∀ p ∈ ps, fits 32 p = true) :
    -(ps.length * 2 ^ 31 : Int) ≤ ps.sum ∧ ps.sum ≤ ps.length * (2 ^ 31 - 1) := by
  induction ps with
  | nil => simp
  | cons p ps ih =>
    obtain ⟨hlo, hhi⟩ := ih fun p hp => h p (List.mem_cons_of_mem _ hp)
    obtain ⟨hplo, hphi⟩ := fits_int_iff.mp (h p List.mem_cons_self)
    rw [List.sum_cons, List.length_cons, Nat.cast_succ]
    constructor <;> linarith

theorem partialSumsFit_of_length {ps : List Int} (h : ∀ p ∈ ps, fits 32 p = true)
    (hlen : ps.length ≤ 2 ^ 32) : PartialSumsFit ps := by
  intro i hi
  obtain ⟨hlo, hhi⟩ := @sum_bounds (ps.take (i + 1)) fun p hp =>
    h p (List.mem_of_mem_take hp)
  have hle : ((ps.take (i + 1)).length : Int) ≤ 2 ^ 32 := by
    rw [List.length_take]
    exact_mod_cast Nat.le_trans (Nat.min_le_right _ _) hlen
  have hpos : (0 : Int) < (ps.take (i + 1)).length := by
    rw [List.length_take]
    omega
  exact fits_longLong_iff.mpr ⟨by linarith, by linarith⟩

section Machine

variable {v w : Vector Int32}

/-- What the functions should return, without an overflow. -/
structure Exact (v w : Vector Int32) : Prop where
  sequential : getDotProduct machine v w = some (dot machine v w)
  asynchronous : getDotProductAsync machine v w = some (dot machine v w)

theorem forall_products_iff {P : Int → Prop} :
    (∀ p ∈ products machine v w, P p) ↔
      ∀ r ∈ quarters v.size, ∀ p ∈ productsIn machine v w r, P p := by
  have hflat : (quarters v.size).flatMap (productsIn machine v w) = products machine v w :=
    ((quarters_adjacent v.size_lt).flatMap (products machine v w)).trans productsIn_all
  rw [← hflat, List.forall_mem_flatMap]

/-- **The functions are exact when the products are of type `int`**, and only then.  The
asynchronous one adds up each quarter from zero, so its sums have to be of type `long long`
too. -/
theorem dotProducts_exact_iff (v w : Vector Int32) (hsize : v.size ≤ w.size)
    (hsums : PartialSumsFit (products machine v w)) :
    Exact v w ↔ (∀ p ∈ products machine v w, fits 32 p = true) ∧
      ∀ r ∈ quarters v.size, PartialSumsFit (productsIn machine v w r) := by
  have hasync := getDotProductAsync_eq_some_iff (A := machine) hsize hsums.take
    (x := dot machine v w)
  constructor
  · intro hexact
    obtain ⟨hproducts, -⟩ := (getDotProduct_eq_some_iff hsize).mp hexact.sequential
    obtain ⟨hquarters, -⟩ := hasync.mp hexact.asynchronous
    exact ⟨hproducts, fun r hr => (hquarters r hr).2⟩
  · rintro ⟨hproducts, hquarters⟩
    have hall := forall_products_iff.mp hproducts
    exact ⟨(getDotProduct_eq_some_iff hsize).mpr ⟨hproducts, hsums, rfl⟩,
      hasync.mpr ⟨fun r hr => ⟨hall r hr, hquarters r hr⟩, rfl⟩⟩

/-- The sums of the quarters need no test for vectors of up to `2 ^ 34` elements. -/
theorem quarters_fit (hsize : v.size ≤ 2 ^ 34)
    (hproducts : ∀ p ∈ products machine v w, fits 32 p = true) :
    ∀ r ∈ quarters v.size, PartialSumsFit (productsIn machine v w r) := by
  intro r hr
  refine partialSumsFit_of_length (forall_products_iff.mp hproducts r hr) ?_
  have hlen : (productsIn machine v w r).length ≤ r.2 - r.1 := by
    rw [productsIn, List.length_drop, List.length_take]
    exact Nat.sub_le_sub_right (Nat.min_le_left _ _) r.1
  have hmod : v.size * 3 % 2 ^ 64 = v.size * 3 := Nat.mod_eq_of_lt (by omega)
  have hquarter : r.2 - r.1 ≤ 2 ^ 32 := by
    rw [quarters, hmod] at hr
    simp only [List.mem_cons, List.not_mem_nil, or_false] at hr
    rcases hr with rfl | rfl | rfl | rfl <;> dsimp only <;> omega
  exact hlen.trans hquarter

end Machine

/-- The products of the vectors of `main` are between 0 and 10000. -/
theorem dotProducts_exact_iff_three :
    getDotProductAsync machine ⟨[100, 7, 0], by decide⟩ ⟨[100, 3, 50], by decide⟩ =
      some 10021 := by
  have hsize : (⟨[100, 7, 0], by decide⟩ : Vector Int32).size ≤ 2 ^ 34 := by decide
  have hproducts : ∀ p ∈ products machine ⟨[100, 7, 0], by decide⟩ ⟨[100, 3, 50], by decide⟩,
      fits 32 p = true := by decide
  have hexact := (dotProducts_exact_iff ⟨[100, 7, 0], by decide⟩ ⟨[100, 3, 50], by decide⟩
    (by decide) (partialSumsFit_of_length hproducts (by decide))).mpr
      ⟨hproducts, quarters_fit hsize hproducts⟩
  exact hexact.asynchronous

/-- The product of two elements overflows before it is added to the `long long`. -/
theorem product_overflows : ¬∀ v w : Vector Int32, v.size ≤ w.size →
    PartialSumsFit (products machine v w) → Exact v w := by
  intro h
  have hsums : PartialSumsFit (products machine ⟨[65536], by decide⟩ ⟨[65536], by decide⟩) := by
    intro i hi
    obtain rfl : i = 0 := by simpa [products] using hi
    decide
  have hexact := h ⟨[65536], by decide⟩ ⟨[65536], by decide⟩ (by decide) hsums
  exact absurd hexact.sequential (by decide)

end Cpp20Examples.DotProduct
