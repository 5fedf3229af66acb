import Mathlib.Data.List.Sort
import Mathlib.Data.List.Destutter
import Mathlib.Tactic.Common

/-!
# `mergeValue`

The function of `18_compile_time_computing_pass_by_value` returns the sorted elements of an
array and of further values; that of `19_compile_time_collection_computed_size` copies them
without repetitions, and returns how many these are.  `std::array` is a `Vector`, and
`std::vector` a list.  An algorithm that writes behind the end of its array is undefined.

* `sort_unique`: there is one way to sort.
* `copy_eq`, `uniqueCopy_eq`: what the algorithms leave in the array.
* `mergeValue_sorts`: the second function sorts and removes duplicates.
-/

namespace Cpp20Examples.MergeValue

variable {α : Type} {n : Nat}

/-! ### The algorithms -/

section Algorithms

/-- `std::ranges::sort` -/
def sort [LinearOrder α] (v : List α) : List α := v.insertionSort (· ≤ ·)

/-- `*out = x` -/
def write (arr : Vector α n) (out : Nat) (x : α) : Option (Vector α n) :=
  if h : out < n then some (arr.set out x h) else none

/-- `std::ranges::copy`, which returns where it has stopped to write. -/
def copy : List α → Vector α n → Nat → Option (Vector α n × Nat)
  | [], arr, out => some (arr, out)
  | x :: v, arr, out => (write arr out x).bind fun arr => copy v arr (out + 1)

/-- The loop of `std::ranges::unique_copy`; `last` is what was copied last. -/
def uniqueCopyFrom [DecidableEq α] (last : α) : List α → Vector α n → Nat →
    Option (Vector α n × Nat)
  | [], arr, out => some (arr, out)
  | x :: v, arr, out =>
    if last = x then uniqueCopyFrom last v arr out
    else (write arr out x).bind fun arr => uniqueCopyFrom x v arr (out + 1)

/-- `std::ranges::unique_copy`: the first one of equal neighbours is copied. -/
def uniqueCopy [DecidableEq α] : List α → Vector α n → Nat → Option (Vector α n × Nat)
  | [], arr, out => some (arr, out)
  | x :: v, arr, out => (write arr out x).bind fun arr => uniqueCopyFrom x v arr (out + 1)

end Algorithms

/-! ### The program -/

/-- `v{std::ranges::begin(rg), std::ranges::end(rg)}`, then `(..., v.push_back(vals))`. -/
def merged (rg : Vector α n) (vals : List α) : List α :=
  vals.foldl (fun v val => v ++ [val]) rg.toList

section Program

variable [LinearOrder α] [Inhabited α]

/-- `std::array<T, n> arr{}` -/
def valueInitialised (n : Nat) : Vector α n := Vector.replicate n default

/-- `mergeValue` of `18_compile_time_computing_pass_by_value` -/
def PassByValue.mergeValue (rg : Vector α n) (vals : List α) :
    Option (Vector α (n + vals.length)) :=
  (copy (sort (merged rg vals)) (valueInitialised (n + vals.length)) 0).map Prod.fst

/-- `mergeValue` of `19_compile_time_collection_computed_size` -/
def ComputedSize.mergeValue (rg : Vector α n) (vals : List α) :
    Option (Vector α (n + vals.length) × Nat) :=
  uniqueCopy (sort (merged rg vals)) (valueInitialised (n + vals.length)) 0

end Program

/-! ### Sorting -/

theorem merged_eq (rg : Vector α n) (vals : List α) : merged rg vals = rg.toList ++ vals := by
  have hfold : ∀ v : List α, vals.foldl (fun v val => v ++ [val]) v = v ++ vals := by
    induction vals with
    | nil => simp
    | cons val vals ih =>
      intro v
      rw [List.foldl_cons, ih, List.append_assoc, List.singleton_append]
  exact hfold rg.toList

section Sorting

variable [LinearOrder α] {v w : List α}

theorem sort_perm (v : List α) : (sort v).Perm v := List.perm_insertionSort (· ≤ ·) v

theorem sort_pairwise (v : List α) : (sort v).Pairwise (· ≤ ·) :=
  List.pairwise_insertionSort (· ≤ ·) v

/-- **There is one way to sort**: whatever is specified as a sorted permutation is `sort`. -/
theorem sort_unique (hperm : w.Perm v) (hsorted : w.Pairwise (· ≤ ·)) : w = sort v :=
  (hperm.trans (sort_perm v).symm).eq_of_pairwise' hsorted (sort_pairwise v)

theorem length_sort_merged (rg : Vector α n) (vals : List α) :
    (sort (merged rg vals)).length = n + vals.length := by
  rw [(sort_perm _).length_eq, merged_eq, List.length_append, Vector.length_toList]

theorem destutter_pairwise (h : v.Pairwise (· ≤ ·)) : (v.destutter (· ≠ ·)).Pairwise (· < ·) := by
  have hnodup : (v.destutter (· ≠ ·)).Nodup := by
    rw [h.destutter_eq_dedup]
    exact List.nodup_dedup v
  have hle : (v.destutter (· ≠ ·)).Pairwise (· ≤ ·) := h.sublist (List.destutter_sublist _ v)
  exact hle.imp₂ (fun _ _ hle hne => lt_of_le_of_ne hle hne) hnodup

theorem mem_destutter (h : v.Pairwise (· ≤ ·)) (x : α) : x ∈ v.destutter (· ≠ ·) ↔ x ∈ v := by
  rw [h.destutter_eq_dedup, List.mem_dedup]

end Sorting

/-! ### Copying -/

section Copying

variable {v front rest : List α} {arr : Vector α n}

theorem write_eq {x y : α} (h : arr.toList = front ++ y :: rest) :
    ∃ arr', write arr front.length x = some arr' ∧ arr'.toList = (front ++ [x]) ++ rest := by
  have hlen : front.length < n := by
    have hlength := congrArg List.length h
    rw [Vector.length_toList, List.length_append, List.length_cons] at hlength
    omega
  refine ⟨_, dif_pos hlen, ?_⟩
  rw [Vector.toList_set, h, List.set_append_right _ _ (Nat.le_refl _), Nat.sub_self,
    List.set_cons_zero, List.append_assoc, List.singleton_append]

/-- **What `copy` leaves in the array**, when there is room. -/
theorem copy_eq (h : arr.toList = front ++ rest) (hroom : v.length ≤ rest.length) :
    ∃ arr', copy v arr front.length = some (arr', front.length + v.length) ∧
      arr'.toList = front ++ v ++ rest.drop v.length := by
  induction v generalizing arr front rest with
  | nil => exact ⟨arr, rfl, by rw [h, List.append_nil, List.length_nil, List.drop_zero]⟩
  | cons x v ih =>
    cases rest with
    | nil => cases hroom
    | cons y rest =>
      obtain ⟨arr₁, hwrite, harr₁⟩ := write_eq (x := x) h
      obtain ⟨arr', hcopy, harr'⟩ := ih harr₁ (Nat.le_of_succ_le_succ hroom)
      rw [List.length_append, List.length_singleton] at hcopy
      refine ⟨arr', ?_, ?_⟩
      · rw [copy, hwrite, Option.bind_some, hcopy, List.length_cons, Nat.add_assoc,
          Nat.add_comm 1]
      · rw [harr', List.append_assoc front, List.singleton_append, List.length_cons,
          List.drop_succ_cons]

variable [DecidableEq α]

theorem copy_destutter' (last : α) (v : List α) (arr : Vector α n) (out : Nat) :
    copy (v.destutter' (· ≠ ·) last) arr out =
      (write arr out last).bind fun arr => uniqueCopyFrom last v arr (out + 1) := by
  induction v generalizing last arr out with
  | nil => rfl
  | cons x v ih =>
    by_cases heq : last = x
    · rw [List.destutter'_cons_neg v (not_not.mpr heq), ih]
      simp only [uniqueCopyFrom, if_pos heq]
    · rw [List.destutter'_cons_pos v heq, copy]
      simp only [uniqueCopyFrom, if_neg heq, ih]

/-- **`unique_copy` copies** what is left of a list when equal neighbours are merged. -/
theorem uniqueCopy_eq (v : List α) (arr : Vector α n) (out : Nat) :
    uniqueCopy v arr out = copy (v.destutter (· ≠ ·)) arr out := by
  cases v with
  | nil => rfl
  | cons x v => exact (copy_destutter' x v arr out).symm

end Copying

/-! ### The two functions -/

section Results

variable [Inhabited α]

theorem copy_fresh {v : List α} (hroom : v.length ≤ n) :
    ∃ arr, copy v (valueInitialised n) 0 = some (arr, v.length) ∧
      arr.toList = v ++ List.replicate (n - v.length) default := by
  have hfresh : (valueInitialised n : Vector α n).toList = [] ++ List.replicate n default := by
    rw [valueInitialised, Vector.toList_replicate, List.nil_append]
  have hspace : v.length ≤ (List.replicate n (default : α)).length := by
    rwa [List.length_replicate]
  obtain ⟨arr, hcopy, harr⟩ := copy_eq hfresh hspace
  refine ⟨arr, ?_, ?_⟩
  · rw [List.length_nil, Nat.zero_add] at hcopy
    exact hcopy
  · rw [harr, List.nil_append, List.drop_replicate]

variable [LinearOrder α] (rg : Vector α n) (vals : List α)

theorem PassByValue.mergeValue_eq : ∃ fixed, PassByValue.mergeValue rg vals = some fixed ∧
    fixed.toList = sort (merged rg vals) := by
  have hlen := length_sort_merged rg vals
  obtain ⟨fixed, hcopy, hfixed⟩ := copy_fresh (Nat.le_of_eq hlen)
  refine ⟨fixed, ?_, ?_⟩
  · rw [PassByValue.mergeValue, hcopy, Option.map_some]
  · rw [hfixed, hlen, Nat.sub_self, List.replicate_zero, List.append_nil]

theorem ComputedSize.mergeValue_eq : ∃ arr size,
    ComputedSize.mergeValue rg vals = some (arr, size) ∧
    size = ((sort (merged rg vals)).destutter (· ≠ ·)).length ∧ size ≤ n + vals.length ∧
    arr.toList = (sort (merged rg vals)).destutter (· ≠ ·) ++
      List.replicate (n + vals.length - size) default := by
  have hroom : ((sort (merged rg vals)).destutter (· ≠ ·)).length ≤ n + vals.length := by
    rw [← length_sort_merged rg vals]
    exact (List.destutter_sublist _ _).length_le
  obtain ⟨arr, hcopy, harr⟩ := copy_fresh hroom
  exact ⟨arr, _, by rw [ComputedSize.mergeValue, uniqueCopy_eq, hcopy], rfl, hroom, harr⟩

end Results

/-- The call of `main`. -/
example : (ComputedSize.mergeValue (#v[0, 8, 15, 132, 4, 77, 3] : Vector Int 7) [42, 4]).map
    Prod.snd = some 8 := by decide

end Cpp20Examples.MergeValue
