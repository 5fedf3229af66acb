import Cpp20Examples.Lib.Threads
import Cpp20Examples.Lib.Linearizable
import Mathlib.Algebra.BigOperators.Group.List.Basic
import Mathlib.Algebra.Order.Group.Multiset
import Mathlib.Data.BitVec
import Mathlib.Data.List.Chain

/-!
# An atomic multiplication by compare and swap

`fetch_mult` loads `shared` and then tries to exchange the loaded value for its product
with `mult`; a `compare_exchange_strong` that fails loads the value it found instead.  `T`
is any type with a product: the unsigned integers modulo `2 ^ w`, or the integers.

* `accounted`: the calls that were invoked, made and returned, and those that were not.
* `explained`: the calls that took effect, in this order, have multiplied `shared`.
* `fetch_mult_linearizable`: what the calls have returned when all have.
-/

namespace Cpp20Examples.FetchMult

open Lib Lib.Threads

/-- The `index`th call of a thread, `fetch_mult(shared, mult)`. -/
structure Call (T : Type) where
  thread : Nat
  index : Nat
  mult : T
  deriving DecidableEq

/-- The atomic, and the history of the calls, which no step reads. -/
structure Shared (T : Type) where
  shared : T
  history : History (Call T) T := []

/-- Where a thread is in `fetch_mult`. -/
inductive Point (T : Type)
  | outside
  | load (call : Call T)
  | exchange (call : Call T) (oldValue : T)
  | ret (call : Call T) (oldValue : T)
  deriving DecidableEq

/-- A thread that has the calls `todo` still to make. -/
structure Caller (T : Type) where
  todo : List (Call T)
  point : Point T := .outside
  deriving DecidableEq

variable {T : Type}

/-- A step of `fetch_mult`. -/
def fetch_mult [CommMonoid T] [DecidableEq T] (_ : Nat) (d : Shared T) (c : Caller T) :
    Option (Shared T × Caller T) :=
  match c.point with
  | .outside =>
    match c.todo with
    | [] => none
    | call :: todo => some ({ d with history := .invoke call :: d.history }, ⟨todo, .load call⟩)
  | .load call => some (d, { c with point := .exchange call d.shared })
  | .exchange call oldValue =>
    if d.shared = oldValue then
      some (⟨oldValue * call.mult, .commit call oldValue :: d.history⟩,
        { c with point := .ret call oldValue })
    else some (d, { c with point := .exchange call d.shared })
  | .ret call oldValue =>
    some ({ d with history := .respond call oldValue :: d.history }, { c with point := .outside })

/-- The calls of the thread `t`. -/
def program (t : Nat) (mults : List T) : List (Call T) :=
  mults.mapIdx fun i m => ⟨t, i, m⟩

/-- The calls of the threads, `mults` being what each of them multiplies by. -/
def programs (mults : List (List T)) : List (List (Call T)) :=
  mults.mapIdx program

def system [CommMonoid T] [DecidableEq T] (init : T) (mults : List (List T)) :
    System (State (Shared T) (Caller T)) Nat :=
  Threads.system fetch_mult ⟨init, []⟩ ((programs mults).map fun calls => ⟨calls, .outside⟩)

/-! ### The calls of a thread -/

/-- The call that has not taken effect yet. -/
def Point.pending : Point T → List (Call T)
  | .load call | .exchange call _ => [call]
  | .outside | .ret _ _ => []

/-- The call that has not returned yet. -/
def Point.current : Point T → List (Call T)
  | .outside => []
  | .load call | .exchange call _ | .ret call _ => [call]

def Caller.uninvoked (c : Caller T) : Multiset (Call T) := ↑c.todo

def Caller.uncommitted (c : Caller T) : Multiset (Call T) := ↑(c.point.pending ++ c.todo)

def Caller.unreturned (c : Caller T) : Multiset (Call T) := ↑(c.point.current ++ c.todo)

def Caller.finished (c : Caller T) : Prop := c.todo = [] ∧ c.point = .outside

/-- All the calls of the program. -/
def allCalls (mults : List (List T)) : List (Call T) := (programs mults).flatten

theorem sum_start {w : Caller T → Multiset (Call T)} (hw : ∀ calls, w ⟨calls, .outside⟩ = ↑calls)
    {mults : List (List T)} :
    (((programs mults).map fun calls => ⟨calls, .outside⟩).map w).sum = ↑(allCalls mults) := by
  rw [allCalls]
  induction programs mults with
  | nil => rfl
  | cons calls l ih =>
    rw [List.map_cons, List.map_cons, List.sum_cons, ih, hw, List.flatten_cons, Multiset.coe_add]

/-- The calls that were invoked, those that took effect and those that responded; the
others are still to be. -/
structure Accounted (mults : List (List T)) (s : State (Shared T) (Caller T)) : Prop where
  invoked : (s.data.history.invoked : Multiset (Call T)) +
    (s.threads.map Caller.uninvoked).sum = allCalls mults
  committed : (s.data.history.committed.map Prod.fst : Multiset (Call T)) +
    (s.threads.map Caller.uncommitted).sum = allCalls mults
  responded : (s.data.history.responded.map Prod.fst : Multiset (Call T)) +
    (s.threads.map Caller.unreturned).sum = allCalls mults

theorem allCalls_nodup (mults : List (List T)) : (allCalls mults).Nodup := by
  refine List.nodup_flatten.mpr ⟨?_, ?_⟩
  · intro calls hcalls
    obtain ⟨t, ht, rfl⟩ := List.mem_mapIdx.mp hcalls
    apply List.pairwise_iff_getElem.mpr
    intro i j hi hj hlt heq
    simp only [program, List.getElem_mapIdx, Call.mk.injEq] at heq
    omega
  · apply List.pairwise_iff_getElem.mpr
    intro t u ht hu hlt call h₁ h₂
    simp only [programs, program, List.getElem_mapIdx] at h₁ h₂
    obtain ⟨i, hi, rfl⟩ := List.mem_mapIdx.mp h₁
    obtain ⟨j, hj, heq⟩ := List.mem_mapIdx.mp h₂
    simp only [Call.mk.injEq] at heq
    omega

theorem allCalls_mults (mults : List (List T)) :
    (allCalls mults).map Call.mult = mults.flatten := by
  have hprogram : ∀ t (ms : List T), (program t ms).map Call.mult = ms := fun t ms =>
    List.ext_getElem (by simp [program]) (by simp [program])
  have hprograms : (programs mults).map (List.map Call.mult) = mults :=
    List.ext_getElem (by simp [programs]) (by simp [programs, hprogram])
  rw [allCalls, List.map_flatten, hprograms]

/-- What the history says of a thread at its place. -/
structure Recorded (d : Shared T) (p : Point T) : Prop where
  pending : ∀ call ∈ p.pending, call ∈ d.history.invoked
  ret : ∀ call oldValue, p = .ret call oldValue → (call, oldValue) ∈ d.history.committed

theorem Recorded.mono {d d' : Shared T} {p : Point T} (h : Recorded d p)
    (hinv : d.history.invoked ⊆ d'.history.invoked)
    (hcom : d.history.committed ⊆ d'.history.committed) : Recorded d' p :=
  ⟨fun call hcall => hinv (h.pending call hcall), fun call v hp => hcom (h.ret call v hp)⟩

theorem Recorded.outside {d : Shared T} : Recorded d .outside :=
  ⟨fun _ h => absurd h List.not_mem_nil, fun _ _ h => by cases h⟩

theorem Recorded.load {d : Shared T} {call : Call T} (h : call ∈ d.history.invoked) :
    Recorded d (.load call) :=
  ⟨fun _ hcall => List.mem_singleton.mp hcall ▸ h, fun _ _ h => by cases h⟩

theorem Recorded.exchange {d : Shared T} {call : Call T} {oldValue : T}
    (h : call ∈ d.history.invoked) : Recorded d (.exchange call oldValue) :=
  ⟨fun _ hcall => List.mem_singleton.mp hcall ▸ h, fun _ _ h => by cases h⟩

theorem Recorded.returning {d : Shared T} {call : Call T} {oldValue : T}
    (h : (call, oldValue) ∈ d.history.committed) : Recorded d (.ret call oldValue) := by
  refine ⟨fun _ hcall => absurd hcall List.not_mem_nil, ?_⟩
  intro _ _ heq
  obtain ⟨rfl, rfl⟩ := Point.ret.inj heq
  exact h

theorem not_mem_of_accounted {mults : List (List T)} {s : State (Shared T) (Caller T)}
    {w : Caller T → Multiset (Call T)} {made : List (Call T)}
    (h : (made : Multiset (Call T)) + (s.threads.map w).sum = allCalls mults) {t : Nat}
    {c : Caller T} (hc : s.threads[t]? = some c) {call : Call T} (hcall : call ∈ w c) :
    call ∉ made := by
  intro hmade
  obtain ⟨r, hr, -⟩ := exists_rest w hc
  have hnodup : ((made : Multiset (Call T)) + (s.threads.map w).sum).Nodup :=
    h ▸ Multiset.coe_nodup.mpr (allCalls_nodup mults)
  rw [hr] at hnodup
  exact Multiset.disjoint_left.mp (Multiset.nodup_add.mp hnodup).2.2 hmade
    (Multiset.mem_add.mpr (.inl hcall))

/-! ### The order in which the calls take effect -/

variable [CommMonoid T]

/-- The sequential object: a call returns the value that it multiplies. -/
def multiply (call : Call T) (value : T) : T × T := (value * call.mult, value)

/-- A sequence of calls, each of which returns the value that it multiplies. -/
theorem chain_of_legal {init value : T} {xs : List (Call T × T)}
    (h : History.Legal multiply init xs value) :
    (∀ x, xs.head? = some x → x.2 = init) ∧ xs.IsChain (fun x y => y.2 = x.2 * x.1.mult) ∧
      value = init * (xs.map fun x => x.1.mult).prod := by
  induction xs generalizing init with
  | nil => exact ⟨by simp, .nil, by simpa [History.Legal] using h⟩
  | cons x xs ih =>
    obtain ⟨hx, h⟩ := h
    obtain ⟨hhead, hchain, rfl⟩ := ih h
    refine ⟨?_, List.isChain_cons.mpr ⟨?_, hchain⟩, ?_⟩
    · intro y hy
      obtain rfl : x = y := by simpa using hy
      exact hx
    · intro y hy
      rw [hhead y hy, hx]
      rfl
    · rw [List.map_cons, List.prod_cons, ← mul_assoc]
      rfl

variable [DecidableEq T]

section Step

variable {t : Nat} {d d' : Shared T} {c c' : Caller T}

theorem accounted_step (h : fetch_mult t d c = some (d', c')) :
    (d'.history.invoked : Multiset (Call T)) + c'.uninvoked = ↑d.history.invoked + c.uninvoked ∧
    (d'.history.committed.map Prod.fst : Multiset (Call T)) + c'.uncommitted =
      ↑(d.history.committed.map Prod.fst) + c.uncommitted ∧
    (d'.history.responded.map Prod.fst : Multiset (Call T)) + c'.unreturned =
      ↑(d.history.responded.map Prod.fst) + c.unreturned := by
  obtain ⟨todo, p⟩ := c
  cases p with
  | outside =>
    cases todo with
    | nil => cases h
    | cons call todo =>
      cases h
      simp [History.invoked, History.committed, History.responded, Caller.uninvoked,
        Caller.uncommitted, Caller.unreturned, Point.pending, Point.current,
        ← Multiset.cons_coe]
  | load call =>
    cases h
    exact ⟨rfl, rfl, rfl⟩
  | exchange call oldValue =>
    simp only [fetch_mult] at h
    split at h <;> cases h
    · simp [History.invoked, History.committed, History.responded, Caller.uninvoked,
        Caller.uncommitted, Caller.unreturned, Point.pending, Point.current,
        ← Multiset.cons_coe]
    · exact ⟨rfl, rfl, rfl⟩
  | ret call oldValue =>
    cases h
    simp [History.invoked, History.committed, History.responded, Caller.uninvoked,
      Caller.uncommitted, Caller.unreturned, Point.pending, Point.current,
      ← Multiset.cons_coe]

/-- The calls that took effect explain the value of `shared`. -/
structure Explained (init : T) (d : Shared T) : Prop where
  wellFormed : d.history.WellFormed
  legal : History.Legal multiply init d.history.order d.shared

theorem history_grows (h : fetch_mult t d c = some (d', c')) :
    d.history.invoked ⊆ d'.history.invoked ∧ d.history.committed ⊆ d'.history.committed := by
  obtain ⟨todo, p⟩ := c
  cases p with
  | outside =>
    cases todo <;> cases h
    exact ⟨List.subset_cons_self _ _, List.Subset.refl _⟩
  | load call => cases h; exact ⟨List.Subset.refl _, List.Subset.refl _⟩
  | exchange call oldValue =>
    simp only [fetch_mult] at h
    split at h <;> cases h
    · exact ⟨List.Subset.refl _, List.subset_cons_self _ _⟩
    · exact ⟨List.Subset.refl _, List.Subset.refl _⟩
  | ret call oldValue => cases h; exact ⟨List.Subset.refl _, List.Subset.refl _⟩

/-- **A step is explained** when its thread makes a call that is new. -/
theorem explained_step {init : T} (hex : Explained init d) (hrec : Recorded d c.point)
    (hinv : ∀ call ∈ c.todo, call ∉ d.history.invoked)
    (hcom : ∀ call ∈ c.point.pending, call ∉ d.history.committed.map Prod.fst)
    (h : fetch_mult t d c = some (d', c')) : Explained init d' ∧ Recorded d' c'.point := by
  obtain ⟨hwf, hlegal⟩ := hex
  obtain ⟨todo, p⟩ := c
  cases p with
  | outside =>
    cases todo with
    | nil => cases h
    | cons call todo =>
      cases h
      exact ⟨⟨hwf.invoke (hinv call List.mem_cons_self), hlegal⟩, .load List.mem_cons_self⟩
  | load call =>
    cases h
    exact ⟨⟨hwf, hlegal⟩, .exchange (hrec.pending call (List.mem_singleton.mpr rfl))⟩
  | exchange call oldValue =>
    have hinvoked := hrec.pending call (List.mem_singleton.mpr rfl)
    simp only [fetch_mult] at h
    split at h <;> cases h
    · rename_i hsame
      subst hsame
      refine ⟨⟨hwf.commit hinvoked (hcom call (List.mem_singleton.mpr rfl)), ?_⟩,
        .returning List.mem_cons_self⟩
      simpa [History.order, History.committed, multiply] using hlegal.concat call
    · exact ⟨⟨hwf, hlegal⟩, .exchange hinvoked⟩
  | ret call oldValue =>
    cases h
    exact ⟨⟨hwf.respond (hrec.ret call oldValue rfl), hlegal⟩, .outside⟩

end Step

/-! ### All interleavings -/

section Reachable

variable {init : T} {mults : List (List T)} {s : State (Shared T) (Caller T)}

theorem accounted (hs : (system init mults).Reachable s) : Accounted mults s := by
  refine ⟨?_, ?_, ?_⟩
  · refine (conserved (M := Multiset (Call T)) (w := Caller.uninvoked)
      (f := fun d : Shared T => ↑d.history.invoked)
      (fun s t c d c' _ _ _ h => (accounted_step h).1) hs).trans ?_
    exact (zero_add _).trans (sum_start fun _ => rfl)
  · refine (conserved (M := Multiset (Call T)) (w := Caller.uncommitted)
      (f := fun d : Shared T => ↑(d.history.committed.map Prod.fst))
      (fun s t c d c' _ _ _ h => (accounted_step h).2.1) hs).trans ?_
    exact (zero_add _).trans (sum_start fun _ => rfl)
  · refine (conserved (M := Multiset (Call T)) (w := Caller.unreturned)
      (f := fun d : Shared T => ↑(d.history.responded.map Prod.fst))
      (fun s t c d c' _ _ _ h => (accounted_step h).2.2) hs).trans ?_
    exact (zero_add _).trans (sum_start fun _ => rfl)

/-- **The calls that took effect explain the value**, in every interleaving. -/
theorem explained (hs : (system init mults).Reachable s) : Explained init s.data := by
  refine (invariant (I := Explained init) (L := fun _ d (c : Caller T) => Recorded d c.point)
    (show Explained init ⟨init, []⟩ from ⟨.nil, rfl⟩) ?_
    ?_ hs).1
  · intro t c hc
    obtain ⟨calls, -, rfl⟩ := List.mem_map.mp (List.mem_of_getElem? hc)
    exact .outside
  · intro s t c d c' hs _ hex hrec hc h
    have hacc := accounted hs
    have hinv : ∀ call ∈ c.todo, call ∉ s.data.history.invoked := fun call hcall =>
      not_mem_of_accounted hacc.invoked hc hcall
    have hcom : ∀ call ∈ c.point.pending, call ∉ s.data.history.committed.map Prod.fst :=
      fun call hcall => not_mem_of_accounted hacc.committed hc
        (Multiset.mem_coe.mpr (List.mem_append_left _ hcall))
    obtain ⟨hex', hrec'⟩ := explained_step hex hrec hinv hcom h
    obtain ⟨hgrow₁, hgrow₂⟩ := history_grows h
    exact ⟨hex', hrec', fun u w _ _ hw => hw.mono hgrow₁ hgrow₂⟩

/-- **`fetch_mult` is linearizable.**  When all calls have returned there is an order of
them, with the results that they returned, in which a call that had returned when another
was made comes first; the first one returns the initial value and each next one what the
one before it made of its own, and `shared` is the product of all. -/
theorem fetch_mult_linearizable (hs : (system init mults).Reachable s)
    (hfin : ∀ c ∈ s.threads, c.finished) :
    ∃ xs : List (Call T × T),
      (xs.map Prod.fst).Perm (allCalls mults) ∧ xs.Perm s.data.history.responded ∧
      (∀ a b, s.data.history.Before a b → [a, b].Sublist (xs.map Prod.fst)) ∧
      (∀ x, xs.head? = some x → x.2 = init) ∧
      xs.IsChain (fun x y => y.2 = x.2 * x.1.mult) ∧
      s.data.shared = init * mults.flatten.prod := by
  have hacc := accounted hs
  obtain ⟨hwf, hlegal⟩ := explained hs
  have hlin := hwf.linearizes hlegal
  have hzero : ∀ w : Caller T → Multiset (Call T), (w ⟨[], .outside⟩ = 0) →
      (s.threads.map w).sum = 0 := by
    refine fun w hw => List.sum_eq_zero ?_
    intro m hm
    obtain ⟨⟨todo, p⟩, hc, rfl⟩ := List.mem_map.mp hm
    obtain ⟨rfl, rfl⟩ := hfin _ hc
    exact hw
  have hinvoked := hacc.invoked
  have hcommitted := hacc.committed
  have hresponded := hacc.responded
  rw [hzero _ rfl, add_zero] at hinvoked hcommitted hresponded
  have hall : (s.data.history.order.map Prod.fst).Perm (allCalls mults) := by
    rw [History.order, List.map_reverse]
    exact (List.reverse_perm _).trans (Multiset.coe_eq_coe.mp hcommitted)
  have hresp := Multiset.coe_eq_coe.mp hresponded
  have hsame : s.data.history.order.Perm s.data.history.responded := by
    have hnodup : s.data.history.responded.Nodup :=
      .of_map Prod.fst (hresp.nodup_iff.mpr (allCalls_nodup mults))
    refine ((List.subperm_of_subset hnodup hlin.responded).perm_of_length_le ?_).symm
    simpa using (hall.trans hresp.symm).length_eq.le
  obtain ⟨hhead, hchain, hvalue⟩ := chain_of_legal hlegal
  refine ⟨_, hall, hsame, fun a b hab => hlin.realTime a b hab ?_, hhead, hchain, ?_⟩
  · exact hall.mem_iff.mpr ((Multiset.coe_eq_coe.mp hinvoked).mem_iff.mp hab.invoked)
  · rw [hvalue, ← allCalls_mults, ← (hall.map Call.mult).prod_eq, List.map_map]
    rfl

end Reachable

/-- Unsigned bytes.  The first exchange of the first thread fails; before its second one the
other thread stores the value that it has found once more. -/
theorem fetch_mult_linearizable_bytes :
    ∃ s, (system (200 : BitVec 8) [[2], [3, 1]]).Reachable s ∧ s.data.shared = 176 ∧
      ∃ xs : List (Call (BitVec 8) × BitVec 8),
        (xs.map Prod.fst).Perm (allCalls [[2], [3, 1]]) ∧
        xs.IsChain (fun x y => y.2 = x.2 * x.1.mult) := by
  obtain ⟨s, hs, hp⟩ := System.exists_reachable (M := system (200 : BitVec 8) [[2], [3, 1]])
    (p := fun s => s.threads.all fun c => c.todo == [] && c.point == .outside)
    [0, 1, 0, 1, 1, 0, 1, 1, 1, 1, 0, 1, 0] (by decide)
  have hfin : ∀ c ∈ s.threads, c.finished := by
    intro c hc
    simpa [Caller.finished] using List.all_eq_true.mp hp c hc
  obtain ⟨xs, hall, -, -, -, hchain, hvalue⟩ := fetch_mult_linearizable hs hfin
  exact ⟨s, hs, hvalue.trans (by decide), xs, hall, hchain⟩

end Cpp20Examples.FetchMult
