import Mathlib.Data.List.Perm.Subperm
import Mathlib.Data.List.Infix
import Mathlib.Tactic.Common

/-!
# Generalized sums

What the parallel algorithms of the standard library compute is said by way of two sums: a
generalized noncommutative sum puts the elements of a sequence together in their order, with
any grouping, a generalized sum does so for any permutation of them.  The operation may fail
on its way, where a result is not in range.

* `Grouping`: a way to put elements together, with its `elements` and its `nodes`.
* `NoncommutativeSum`, `GeneralizedSum`: the possible results.
* `eval_eq`: a grouping fails where the total of one of its nodes is not in range.
* `noncommutativeSum_defined_iff`: no grouping fails if and only if the totals of all segments
  are in range.
* `generalizedSum_defined_iff`: no grouping of a permutation fails if and only if the totals
  of all selections are in range.
* `Scan`, `scan_defined_iff`: the same for the sums of all beginnings.
-/

namespace Lib

/-- A way to put elements together. -/
inductive Grouping (α : Type)
  | element (a : α)
  | node (l r : Grouping α)

namespace Grouping

variable {α : Type}

/-- The elements in their order. -/
def elements : Grouping α → List α
  | element a => [a]
  | node l r => l.elements ++ r.elements

/-- The parts that an operation is made for. -/
def nodes : Grouping α → List (Grouping α)
  | element _ => []
  | node l r => node l r :: (l.nodes ++ r.nodes)

/-- The total by `f`, as if nothing failed. -/
def total (f : α → α → α) : Grouping α → α
  | element a => a
  | node l r => f (l.total f) (r.total f)

/-- The result by `f`, where results have to be `ok`. -/
def eval (f : α → α → α) (ok : α → Bool) : Grouping α → Option α
  | element a => some a
  | node l r => (l.eval f ok).bind fun x => (r.eval f ok).bind fun y =>
      if ok (f x y) then some (f x y) else none

/-- One element after the other. -/
def fromLeft (a : α) (as : List α) : Grouping α :=
  as.foldl (fun g a => node g (element a)) (element a)

variable {f : α → α → α} {ok : α → Bool} {g n : Grouping α} {as : List α} {a : α}

/-- The results of a generalized noncommutative sum. -/
def NoncommutativeSum (f : α → α → α) (ok : α → Bool) (as : List α) (r : Option α) : Prop :=
  ∃ g : Grouping α, g.elements = as ∧ g.eval f ok = r

/-- The results of a generalized sum. -/
def GeneralizedSum (f : α → α → α) (ok : α → Bool) (as : List α) (r : Option α) : Prop :=
  ∃ g : Grouping α, g.elements.Perm as ∧ g.eval f ok = r

/-! ### Groupings -/

theorem elements_ne_nil (g : Grouping α) : g.elements ≠ [] := by
  induction g with
  | element a => exact List.cons_ne_nil a []
  | node l r ihl ihr =>
    intro h
    exact ihl (List.append_eq_nil_iff.mp h).1

theorem elements_fromLeft (a : α) (as : List α) : (fromLeft a as).elements = a :: as := by
  have haux : ∀ g : Grouping α,
      (as.foldl (fun g a => node g (element a)) g).elements = g.elements ++ as := by
    induction as with
    | nil =>
      intro g
      exact (List.append_nil _).symm
    | cons x as ih =>
      intro g
      rw [List.foldl_cons, ih, elements, List.append_assoc]
      rfl
  exact haux (element a)

theorem exists_elements (h : as ≠ []) : ∃ g : Grouping α, g.elements = as := by
  obtain ⟨a, as, rfl⟩ := List.exists_cons_of_ne_nil h
  exact ⟨fromLeft a as, elements_fromLeft a as⟩

theorem elements_node_length (l r : Grouping α) : 2 ≤ (node l r).elements.length := by
  have hl := List.length_pos_iff.mpr (elements_ne_nil l)
  have hr := List.length_pos_iff.mpr (elements_ne_nil r)
  rw [elements, List.length_append]
  omega

theorem infix_of_mem_nodes (h : n ∈ g.nodes) :
    n.elements <:+: g.elements ∧ 2 ≤ n.elements.length := by
  induction g with
  | element a => cases h
  | node l r ihl ihr =>
    rcases List.mem_cons.mp h with rfl | h
    · exact ⟨List.infix_rfl, elements_node_length l r⟩
    · rcases List.mem_append.mp h with h | h
      · exact ⟨(ihl h).1.trans (List.prefix_append ..).isInfix, (ihl h).2⟩
      · exact ⟨(ihr h).1.trans (List.suffix_append ..).isInfix, (ihr h).2⟩

theorem self_mem_nodes (h : 2 ≤ g.elements.length) : g ∈ g.nodes := by
  cases g with
  | element a =>
    rw [elements, List.length_singleton] at h
    omega
  | node l r => exact List.mem_cons_self ..

theorem exists_front (p : List α) (g : Grouping α) :
    ∃ g' : Grouping α, g'.elements = p ++ g.elements ∧ ∀ m ∈ g.nodes, m ∈ g'.nodes := by
  by_cases hp : p = []
  · exact ⟨g, by rw [hp, List.nil_append], fun m hm => hm⟩
  · obtain ⟨l, hl⟩ := exists_elements hp
    refine ⟨node l g, by rw [elements, hl], ?_⟩
    intro m hm
    exact List.mem_cons_of_mem _ (List.mem_append_right _ hm)

theorem exists_behind (g : Grouping α) (p : List α) :
    ∃ g' : Grouping α, g'.elements = g.elements ++ p ∧ ∀ m ∈ g.nodes, m ∈ g'.nodes := by
  by_cases hp : p = []
  · exact ⟨g, by rw [hp, List.append_nil], fun m hm => hm⟩
  · obtain ⟨r, hr⟩ := exists_elements hp
    refine ⟨node g r, by rw [elements, hr], ?_⟩
    intro m hm
    exact List.mem_cons_of_mem _ (List.mem_append_left _ hm)

/-- Any grouping of a segment is a node of some grouping. -/
theorem exists_node (h : n.elements <:+: as) (hn : 2 ≤ n.elements.length) :
    ∃ g : Grouping α, g.elements = as ∧ n ∈ g.nodes := by
  obtain ⟨p, q, rfl⟩ := h
  obtain ⟨g, hg, hmem⟩ := exists_front p n
  obtain ⟨g', hg', hmem'⟩ := exists_behind g q
  exact ⟨g', by rw [hg', hg], hmem' n (hmem n (self_mem_nodes hn))⟩

/-! ### Results -/

/-- **A grouping has its total as its result**, unless the total of a node is not in range. -/
theorem eval_eq (g : Grouping α) : g.eval f ok =
    if ∀ m ∈ g.nodes, ok (m.total f) = true then some (g.total f) else none := by
  induction g with
  | element a => rfl
  | node l r ihl ihr =>
    have hnodes : (∀ m ∈ (node l r).nodes, ok (m.total f) = true) ↔
        ok ((node l r).total f) = true ∧ (∀ m ∈ l.nodes, ok (m.total f) = true) ∧
          ∀ m ∈ r.nodes, ok (m.total f) = true := by
      rw [nodes, List.forall_mem_cons, List.forall_mem_append]
    rw [eval, ihl, ihr]
    by_cases hl : ∀ m ∈ l.nodes, ok (m.total f) = true
    · rw [if_pos hl, Option.bind_some]
      by_cases hr : ∀ m ∈ r.nodes, ok (m.total f) = true
      · rw [if_pos hr, Option.bind_some]
        by_cases hok : ok ((node l r).total f) = true
        · rw [if_pos (hnodes.mpr ⟨hok, hl, hr⟩)]
          exact if_pos hok
        · rw [if_neg fun h => hok (hnodes.mp h).1]
          exact if_neg hok
      · rw [if_neg hr, if_neg fun h => hr (hnodes.mp h).2.2]
        rfl
    · rw [if_neg hl, if_neg fun h => hl (hnodes.mp h).2.1]
      rfl

theorem eval_isSome_iff (g : Grouping α) :
    (g.eval f ok).isSome = true ↔ ∀ m ∈ g.nodes, ok (m.total f) = true := by
  rw [eval_eq]
  by_cases h : ∀ m ∈ g.nodes, ok (m.total f) = true
  · rw [if_pos h]
    exact iff_of_true rfl h
  · rw [if_neg h]
    exact iff_of_false nofun h

theorem eval_eq_total {r : α} (h : g.eval f ok = some r) : r = g.total f := by
  rw [eval_eq] at h
  split at h
  · exact (Option.some.inj h).symm
  · cases h

/-- **An associative operation does not see the grouping.** -/
theorem total_eq_foldl [Std.Associative f] (h : g.elements = a :: as) :
    g.total f = as.foldl f a := by
  induction g generalizing a as with
  | element b =>
    obtain ⟨rfl, rfl⟩ := List.cons.inj h
    rfl
  | node l r ihl ihr =>
    obtain ⟨x, xs, hx⟩ := List.exists_cons_of_ne_nil (elements_ne_nil l)
    obtain ⟨y, ys, hy⟩ := List.exists_cons_of_ne_nil (elements_ne_nil r)
    rw [elements, hx, hy, List.cons_append] at h
    obtain ⟨rfl, rfl⟩ := List.cons.inj h
    rw [total, ihl hx, ihr hy, List.foldl_append, List.foldl_cons, List.foldl_assoc]

/-- **No grouping fails** if and only if the totals of all segments are in range. -/
theorem noncommutativeSum_defined_iff :
    (∀ r, NoncommutativeSum f ok as r → r ≠ none) ↔
      ∀ n : Grouping α, n.elements <:+: as → 2 ≤ n.elements.length → ok (n.total f) = true := by
  constructor
  · intro h n hn hlen
    obtain ⟨g, hg, hmem⟩ := exists_node hn hlen
    have hsome := Option.isSome_iff_ne_none.mpr (h _ ⟨g, hg, rfl⟩)
    exact (eval_isSome_iff g).mp hsome n hmem
  · rintro h r ⟨g, rfl, rfl⟩
    apply Option.isSome_iff_ne_none.mp
    rw [eval_isSome_iff]
    intro m hm
    obtain ⟨hseg, hlen⟩ := infix_of_mem_nodes hm
    exact h m hseg hlen

/-- **No grouping of a permutation fails** if and only if the totals of all selections are in
range. -/
theorem generalizedSum_defined_iff :
    (∀ r, GeneralizedSum f ok as r → r ≠ none) ↔
      ∀ n : Grouping α, n.elements.Subperm as → 2 ≤ n.elements.length → ok (n.total f) = true := by
  constructor
  · intro h n hn hlen
    obtain ⟨bs, hperm, hsub⟩ := List.subperm_iff.mp hn
    obtain ⟨rest, hrest⟩ := hsub.exists_perm_append
    obtain ⟨g, hg, hmem⟩ := exists_behind n rest
    have hall : g.elements.Perm as := by
      rw [hg]
      exact hrest.symm.trans hperm
    have hsome := Option.isSome_iff_ne_none.mpr (h _ ⟨g, hall, rfl⟩)
    exact (eval_isSome_iff g).mp hsome n (hmem n (self_mem_nodes hlen))
  · rintro h r ⟨g, hg, rfl⟩
    apply Option.isSome_iff_ne_none.mp
    rw [eval_isSome_iff]
    intro m hm
    obtain ⟨hseg, hlen⟩ := infix_of_mem_nodes hm
    exact h m (hseg.sublist.subperm.trans hg.subperm) hlen

/-! ### Scans -/

/-- The results of a scan: for each element the sum of those in front of it, and of `d` more,
with `init` in front of all.  Each result has its own grouping. -/
structure Scan (f : α → α → α) (ok : α → Bool) (d : Nat) (as : List α) (init : α)
    (rs : List (Option α)) : Prop where
  length : rs.length = as.length
  sums : ∀ (i : Nat) r, rs[i]? = some r → NoncommutativeSum f ok (init :: as.take (i + d)) r

variable {d : Nat} {init : α} {rs : List (Option α)}

theorem exists_scan {i : Nat} (hi : i < as.length) {r : Option α}
    (hr : NoncommutativeSum f ok (init :: as.take (i + d)) r) :
    ∃ rs, Scan f ok d as init rs ∧ r ∈ rs := by
  have hlen : i < ((List.range as.length).map fun j =>
      (fromLeft init (as.take (j + d))).eval f ok).length := by
    rw [List.length_map, List.length_range]
    exact hi
  refine ⟨((List.range as.length).map fun j =>
    (fromLeft init (as.take (j + d))).eval f ok).set i r, ⟨?_, ?_⟩, ?_⟩
  · rw [List.length_set, List.length_map, List.length_range]
  · intro j r' hr'
    by_cases hj : i = j
    · subst hj
      rw [List.getElem?_set_self hlen] at hr'
      obtain rfl := Option.some.inj hr'
      exact hr
    · rw [List.getElem?_set_ne hj, List.getElem?_map] at hr'
      obtain ⟨k, hk, rfl⟩ := Option.map_eq_some_iff.mp hr'
      obtain ⟨hlt, rfl⟩ := List.getElem?_eq_some_iff.mp hk
      refine ⟨_, elements_fromLeft .., ?_⟩
      rw [List.getElem_range]
  · exact List.mem_set hlen r

/-- **No scan fails** if and only if the totals of all segments are in range. -/
theorem scan_defined_iff :
    (∀ rs, Scan f ok d as init rs → none ∉ rs) ↔
      ∀ n : Grouping α, n.elements <:+: init :: as.take (as.length - 1 + d) →
        2 ≤ n.elements.length → ok (n.total f) = true := by
  constructor
  · intro h
    by_cases has : as = []
    · intro n hn hlen
      have hle := hn.length_le
      rw [has, List.take_nil, List.length_singleton] at hle
      omega
    · apply noncommutativeSum_defined_iff.mp
      rintro r hr rfl
      have hpos := List.length_pos_iff.mpr has
      obtain ⟨rs, hrs, hmem⟩ := exists_scan (show as.length - 1 < as.length by omega) hr
      exact h rs hrs hmem
  · intro h rs hrs hmem
    obtain ⟨i, hi⟩ := List.mem_iff_getElem?.mp hmem
    have hlt : i < as.length := by
      rw [← hrs.length]
      exact (List.getElem?_eq_some_iff.mp hi).1
    refine noncommutativeSum_defined_iff.mpr ?_ none (hrs.sums i none hi) rfl
    intro n hn hlen
    refine h n (hn.trans ?_) hlen
    exact (List.cons_prefix_cons.mpr
      ⟨rfl, List.take_prefix_take_left (by omega)⟩).isInfix

end Grouping

end Lib
