import Mathlib.Data.Multiset.AddSub
import Mathlib.Order.Defs.Unbundled

/-!
# Containers of jobs

A `Container` is what a scheduler keeps its jobs in: each operation is specified by
the multiset of the items.

* `queue`, `stack`: `std::queue` and `std::stack`.
* `PriorityQueue comp`: a container whose `top` is maximal for the comparator, as
  `std::priority_queue` is documented; `listPriorityQueue` shows that there is one for
  every strict order.
-/

namespace Lib

/-- `top` and `pop` are only specified where the container is not empty. -/
structure Container (K J : Type) where
  new : K
  empty : K → Bool
  top : K → Option J
  pop : K → K
  push : J → K → K
  items : K → Multiset J
  items_new : items new = 0
  empty_iff : ∀ k, empty k = true ↔ items k = 0
  exists_top : ∀ k, empty k = false → ∃ j, top k = some j ∧ items k = j ::ₘ items (pop k)
  items_push : ∀ j k, items (push j k) = j ::ₘ items k

namespace Container

variable {J : Type}

theorem isEmpty_iff_coe (k : List J) : k.isEmpty = true ↔ (k : Multiset J) = 0 := by
  rw [List.isEmpty_iff, Multiset.coe_eq_zero]

theorem exists_head (k : List J) (hk : k.isEmpty = false) :
    ∃ j, k.head? = some j ∧ (k : Multiset J) = j ::ₘ (k.tail : Multiset J) := by
  cases k with
  | nil => exact absurd hk (by simp)
  | cons j k => exact ⟨j, rfl, rfl⟩

/-- `std::queue` -/
def queue (J : Type) : Container (List J) J where
  new := []
  empty := List.isEmpty
  top := List.head?
  pop := List.tail
  push j k := k ++ [j]
  items k := k
  items_new := rfl
  empty_iff := isEmpty_iff_coe
  exists_top := exists_head
  items_push j k := by
    rw [← Multiset.coe_add, Multiset.coe_singleton, Multiset.add_comm, Multiset.singleton_add]

/-- `std::stack` -/
def stack (J : Type) : Container (List J) J where
  new := []
  empty := List.isEmpty
  top := List.head?
  pop := List.tail
  push := List.cons
  items k := k
  items_new := rfl
  empty_iff := isEmpty_iff_coe
  exists_top := exists_head
  items_push _ _ := rfl

end Container

/-- `std::priority_queue`; `comp j j'` says that `j` comes behind `j'`. -/
structure PriorityQueue (K J : Type) (comp : J → J → Bool) extends Container K J where
  top_max : ∀ k j, top k = some j → ∀ j' ∈ items k, comp j j' = false

namespace PriorityQueue

variable {J : Type} (comp : J → J → Bool)

/-- The item of `j :: k` that comes before the others. -/
def best : J → List J → J
  | j, [] => j
  | j, j' :: k => if comp (best j' k) j then j else best j' k

theorem best_mem (j : J) (k : List J) : best comp j k ∈ j :: k := by
  induction k generalizing j with
  | nil => exact .head _
  | cons j' k ih =>
    unfold best
    split
    · exact .head _
    · exact .tail _ (ih j')

theorem best_max [IsStrictOrder J fun a b => comp a b = true] (j : J) (k : List J) :
    ∀ j' ∈ j :: k, comp (best comp j k) j' = false := by
  have hirrefl : ∀ a, comp a a = false := fun a =>
    Bool.eq_false_iff.mpr (irrefl_of (fun a b => comp a b = true) a)
  induction k generalizing j with
  | nil =>
    intro j' hj'
    obtain rfl := List.mem_singleton.mp hj'
    exact hirrefl j'
  | cons i k ih =>
    intro j' hj'
    unfold best
    split
    · rename_i hlt
      rcases List.mem_cons.mp hj' with rfl | hj'
      · exact hirrefl j'
      · -- behind `j` there would be one behind the best of the others
        rw [Bool.eq_false_iff]
        intro h
        have htrans := trans_of (fun a b => comp a b = true) hlt h
        exact absurd htrans (Bool.eq_false_iff.mp (ih i j' hj'))
    · rename_i hlt
      rcases List.mem_cons.mp hj' with rfl | hj'
      · exact Bool.eq_false_iff.mpr hlt
      · exact ih i j' hj'

/-- The first item of a list that comes before the others. -/
def listTop : List J → Option J
  | [] => none
  | j :: k => some (best comp j k)

/-- A priority queue on lists. -/
def listPriorityQueue [DecidableEq J] [IsStrictOrder J fun a b => comp a b = true] :
    PriorityQueue (List J) J comp where
  new := []
  empty := List.isEmpty
  top := listTop comp
  pop k := match listTop comp k with
    | none => k
    | some j => k.erase j
  push := List.cons
  items k := k
  items_new := rfl
  empty_iff := Container.isEmpty_iff_coe
  exists_top k hk := by
    cases k with
    | nil => exact absurd hk (by simp)
    | cons j k =>
      refine ⟨best comp j k, rfl, ?_⟩
      exact Multiset.coe_eq_coe.mpr (List.perm_cons_erase (best_mem comp j k))
  items_push _ _ := rfl
  top_max k j htop := by
    cases k with
    | nil => exact absurd htop (by simp [listTop])
    | cons i k =>
      obtain rfl := Option.some.inj htop
      exact best_max comp i k

end PriorityQueue

end Lib
