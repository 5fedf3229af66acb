import Cpp20Examples.Lib.Threads
import Mathlib.Algebra.BigOperators.Group.Finset.Piecewise
import Mathlib.Algebra.BigOperators.Ring.Finset
import Mathlib.Data.Fintype.Basic
import Mathlib.Algebra.Order.Ring.Int
import Mathlib.Tactic.Ring

/-!
# Transfers under a mutex

`breakingInvariantSolved`: `transferMoney` takes the amount from one account and then adds
it to another one, `printSum` prints the sum of two, and both hold `mutAccount` while they
do so.  The reads and writes of the balances are steps of their own.

* `Knows`: what a thread knows of the balances while it holds the mutex.
* `conserves`: the balances and what is in flight between two of them have a fixed sum.
* `keeps_the_books`: what follows while the mutex is free, and what is printed.
-/

namespace Cpp20Examples.BreakingInvariant.Solved

open Lib Lib.Threads

variable {A : Type}

inductive Call (A : Type)
  | transferMoney (amount : Int) (from_ to_ : A)
  | printSum (a1 a2 : A)
  deriving DecidableEq

/-- The balances of the accounts, and what was printed, newest first. -/
structure Shared (A : Type) where
  balance : A → Int
  mutAccount : Option Nat := none
  printed : List (A × A × Int) := []

/-- Where a thread is: in front of the test of `transferMoney`, the read and the write of
`from.balance -= amount`, those of `to.balance += amount`; in front of the reads of
`printSum`, or of the output; or at the end of the scope of `lock`. -/
inductive Point (A : Type)
  | outside
  | test (amount : Int) (from_ to_ : A)
  | loadFrom (amount : Int) (from_ to_ : A)
  | storeFrom (amount : Int) (from_ to_ : A) (value : Int)
  | loadTo (amount : Int) (to_ : A)
  | storeTo (amount : Int) (to_ : A) (value : Int)
  | loadFirst (a1 a2 : A)
  | loadSecond (a1 a2 : A) (first : Int)
  | print (a1 a2 : A) (sum : Int)
  | unlock
  deriving DecidableEq

structure Caller (A : Type) where
  calls : List (Call A)
  point : Point A := .outside

/-- What follows the lock. -/
def Call.entry : Call A → Point A
  | .transferMoney amount from_ to_ => .test amount from_ to_
  | .printSum a1 a2 => .loadFirst a1 a2

/-- A step of `transferMoney` or `printSum`. -/
def step [DecidableEq A] (t : Nat) (d : Shared A) (c : Caller A) :
    Option (Shared A × Caller A) :=
  match c.point with
  | .outside =>
    match c.calls with
    | [] => none
    | call :: calls =>
      if d.mutAccount = none then some ({ d with mutAccount := some t }, ⟨calls, call.entry⟩)
      else none
  | .test amount from_ to_ =>
    if d.balance from_ ≥ amount then some (d, { c with point := .loadFrom amount from_ to_ })
    else some (d, { c with point := .unlock })
  | .loadFrom amount from_ to_ =>
    some (d, { c with point := .storeFrom amount from_ to_ (d.balance from_) })
  | .storeFrom amount from_ to_ value =>
    some ({ d with balance := Function.update d.balance from_ (value - amount) },
      { c with point := .loadTo amount to_ })
  | .loadTo amount to_ => some (d, { c with point := .storeTo amount to_ (d.balance to_) })
  | .storeTo amount to_ value =>
    some ({ d with balance := Function.update d.balance to_ (value + amount) },
      { c with point := .unlock })
  | .loadFirst a1 a2 => some (d, { c with point := .loadSecond a1 a2 (d.balance a1) })
  | .loadSecond a1 a2 first => some (d, { c with point := .print a1 a2 (first + d.balance a2) })
  | .print a1 a2 sum =>
    some ({ d with printed := (a1, a2, sum) :: d.printed }, { c with point := .unlock })
  | .unlock => some ({ d with mutAccount := none }, { c with point := .outside })

/-- Threads that make these calls each. -/
def system [DecidableEq A] (balance : A → Int) (calls : List (List (Call A))) :
    System (State (Shared A) (Caller A)) Nat :=
  Threads.system step { balance := balance } (calls.map fun cs => { calls := cs })

variable [DecidableEq A] {t : Nat} {d d' : Shared A} {c c' : Caller A}

/-- What a step does. -/
inductive Step (t : Nat) (d : Shared A) : Caller A → Shared A → Caller A → Prop
  | lock {call : Call A} {calls : List (Call A)} (hfree : d.mutAccount = none) :
      Step t d ⟨call :: calls, .outside⟩ { d with mutAccount := some t } ⟨calls, call.entry⟩
  | pass {calls : List (Call A)} {amount : Int} {from_ to_ : A}
      (hge : amount ≤ d.balance from_) :
      Step t d ⟨calls, .test amount from_ to_⟩ d ⟨calls, .loadFrom amount from_ to_⟩
  | refuse {calls : List (Call A)} {amount : Int} {from_ to_ : A} :
      Step t d ⟨calls, .test amount from_ to_⟩ d ⟨calls, .unlock⟩
  | loadFrom {calls : List (Call A)} {amount : Int} {from_ to_ : A} :
      Step t d ⟨calls, .loadFrom amount from_ to_⟩ d
        ⟨calls, .storeFrom amount from_ to_ (d.balance from_)⟩
  | storeFrom {calls : List (Call A)} {amount value : Int} {from_ to_ : A} :
      Step t d ⟨calls, .storeFrom amount from_ to_ value⟩
        { d with balance := Function.update d.balance from_ (value - amount) }
        ⟨calls, .loadTo amount to_⟩
  | loadTo {calls : List (Call A)} {amount : Int} {to_ : A} :
      Step t d ⟨calls, .loadTo amount to_⟩ d ⟨calls, .storeTo amount to_ (d.balance to_)⟩
  | storeTo {calls : List (Call A)} {amount value : Int} {to_ : A} :
      Step t d ⟨calls, .storeTo amount to_ value⟩
        { d with balance := Function.update d.balance to_ (value + amount) } ⟨calls, .unlock⟩
  | loadFirst {calls : List (Call A)} {a1 a2 : A} :
      Step t d ⟨calls, .loadFirst a1 a2⟩ d ⟨calls, .loadSecond a1 a2 (d.balance a1)⟩
  | loadSecond {calls : List (Call A)} {a1 a2 : A} {first : Int} :
      Step t d ⟨calls, .loadSecond a1 a2 first⟩ d ⟨calls, .print a1 a2 (first + d.balance a2)⟩
  | print {calls : List (Call A)} {a1 a2 : A} {sum : Int} :
      Step t d ⟨calls, .print a1 a2 sum⟩ { d with printed := (a1, a2, sum) :: d.printed }
        ⟨calls, .unlock⟩
  | unlock {calls : List (Call A)} :
      Step t d ⟨calls, .unlock⟩ { d with mutAccount := none } ⟨calls, .outside⟩

theorem step_of (h : step t d c = some (d', c')) : Step t d c d' c' := by
  obtain ⟨calls, p⟩ := c
  cases p with
  | outside =>
    cases calls with
    | nil => cases h
    | cons call calls =>
      obtain ⟨hfree, h⟩ := Option.ite_none_right_eq_some.mp h
      cases h
      exact .lock hfree
  | test amount from_ to_ =>
    simp only [step] at h
    split at h
    · rename_i hge
      cases h
      exact .pass hge
    · cases h
      exact .refuse
  | _ => cases h; constructor

/-! ### The mutex -/

def Point.inside : Point A → Bool
  | .outside => false
  | _ => true

/-- `mutAccount`, and the scope of `lock`. -/
def lockGuard : Mutex (Shared A) (Caller A) := ⟨Shared.mutAccount, fun c => c.point.inside⟩

theorem respected : lockGuard.Respected (step (A := A)) where
  step {t d c d' c'} h := by
    cases step_of h with
    | @lock call _ hfree => exact .inr (.inl ⟨rfl, hfree, by cases call <;> rfl, rfl⟩)
    | unlock => exact .inr (.inr ⟨rfl, rfl, rfl⟩)
    | _ => exact .inl ⟨rfl, rfl⟩

/-- Only a thread inside the mutex changes a balance. -/
theorem balance_of_outside (hout : c.point.inside = false) (h : step t d c = some (d', c')) :
    d'.balance = d.balance := by
  cases step_of h with
  | storeFrom | storeTo => cases hout
  | _ => rfl

/-! ### Inside the mutex -/

def Call.NonNegative : Call A → Prop
  | .transferMoney amount _ _ => 0 ≤ amount
  | .printSum _ _ => True

instance (call : Call A) : Decidable call.NonNegative :=
  match call with
  | .transferMoney amount _ _ => inferInstanceAs (Decidable (0 ≤ amount))
  | .printSum _ _ => inferInstanceAs (Decidable True)

/-- What a thread knows of the balances. -/
def Point.Knows (balance : A → Int) : Point A → Prop
  | .test amount _ _ | .loadTo amount _ => 0 ≤ amount
  | .loadFrom amount from_ _ => 0 ≤ amount ∧ amount ≤ balance from_
  | .storeFrom amount from_ _ value => 0 ≤ amount ∧ amount ≤ value ∧ value = balance from_
  | .storeTo amount to_ value => 0 ≤ amount ∧ value = balance to_
  | .loadSecond a1 _ first => first = balance a1
  | .print a1 a2 sum => sum = balance a1 + balance a2
  | .outside | .loadFirst _ _ | .unlock => True

structure Caller.Knows (balance : A → Int) (c : Caller A) : Prop where
  point : c.point.Knows balance
  calls : ∀ call ∈ c.calls, call.NonNegative

/-- **A step inside the mutex** keeps the balances from being negative. -/
theorem knows_step (hnonneg : ∀ a, 0 ≤ d.balance a) (hc : c.Knows d.balance)
    (h : step t d c = some (d', c')) : (∀ a, 0 ≤ d'.balance a) ∧ c'.Knows d'.balance := by
  obtain ⟨hpoint, hcalls⟩ := hc
  have hupdate : ∀ a v, 0 ≤ v → ∀ b, 0 ≤ Function.update d.balance a v b := fun a v hv =>
    (Function.forall_update_iff d.balance fun _ v => 0 ≤ v).mpr ⟨hv, fun b _ => hnonneg b⟩
  cases step_of h with
  | @lock call calls _ =>
    obtain ⟨hcall, hrest⟩ := List.forall_mem_cons.mp hcalls
    cases call with
    | transferMoney amount from_ to_ => exact ⟨hnonneg, hcall, hrest⟩
    | printSum a1 a2 => exact ⟨hnonneg, trivial, hrest⟩
  | pass hge => exact ⟨hnonneg, ⟨hpoint, hge⟩, hcalls⟩
  | loadFrom => exact ⟨hnonneg, ⟨hpoint.1, hpoint.2, rfl⟩, hcalls⟩
  | storeFrom => exact ⟨hupdate _ _ (sub_nonneg.mpr hpoint.2.1), hpoint.1, hcalls⟩
  | loadTo => exact ⟨hnonneg, ⟨hpoint, rfl⟩, hcalls⟩
  | @storeTo _ _ _ to_ =>
    obtain ⟨hamount, rfl⟩ := hpoint
    exact ⟨hupdate _ _ (add_nonneg (hnonneg to_) hamount), trivial, hcalls⟩
  | loadFirst => exact ⟨hnonneg, rfl, hcalls⟩
  | loadSecond =>
    obtain rfl := hpoint
    exact ⟨hnonneg, rfl, hcalls⟩
  | refuse | print | unlock => exact ⟨hnonneg, trivial, hcalls⟩

/-- What has left an account and not yet arrived. -/
def Point.inFlight : Point A → Int
  | .loadTo amount _ | .storeTo amount _ _ => amount
  | _ => 0

omit [DecidableEq A] in
theorem inFlight_of_outside {p : Point A} (h : p.inside = false) : p.inFlight = 0 := by
  cases p with
  | outside => rfl
  | _ => cases h

section Total

variable [Fintype A]

/-- The sum of all balances. -/
def total (balance : A → Int) : Int := ∑ a, balance a

theorem total_update (balance : A → Int) (a : A) (v : Int) :
    total (Function.update balance a v) = total balance - balance a + v := by
  rw [total, total, Finset.sum_update_of_mem (Finset.mem_univ a),
    ← Finset.sum_sdiff (Finset.subset_univ {a}), Finset.sum_singleton]
  ring

/-- **A step moves money between the accounts and what is in flight.** -/
theorem total_step (hc : c.Knows d.balance) (h : step t d c = some (d', c')) :
    total d'.balance + c'.point.inFlight = total d.balance + c.point.inFlight := by
  have hpoint := hc.point
  cases step_of h with
  | @lock call => cases call <;> rfl
  | storeFrom =>
    obtain ⟨-, -, rfl⟩ := hpoint
    simp only [total_update, Point.inFlight]
    ring
  | storeTo =>
    obtain ⟨-, rfl⟩ := hpoint
    simp only [total_update, Point.inFlight]
    ring
  | _ => rfl

end Total

/-! ### All interleavings -/

section Reachable

variable {balance : A → Int} {calls : List (List (Call A))} {s : State (Shared A) (Caller A)}

omit [DecidableEq A] in
theorem outside_start {c : Caller A} (hc : c ∈ calls.map fun cs => ({ calls := cs } : Caller A)) :
    lockGuard.inside c = false := by
  obtain ⟨cs, -, rfl⟩ := List.mem_map.mp hc
  rfl

/-- **No balance is negative**, and a thread knows what it has read. -/
theorem known (h0 : ∀ a, 0 ≤ balance a) (hcalls : ∀ cs ∈ calls, ∀ call ∈ cs, call.NonNegative)
    (hs : (system balance calls).Reachable s) :
    (∀ a, 0 ≤ s.data.balance a) ∧
      ∀ (t : Nat) (c : Caller A), s.threads[t]? = some c → c.Knows s.data.balance := by
  refine invariant (I := fun d : Shared A => ∀ a, 0 ≤ d.balance a)
    (L := fun _ d (c : Caller A) => c.Knows d.balance) h0 ?_
    ?_ hs
  · intro t c hc
    obtain ⟨cs, hcs, rfl⟩ := List.mem_map.mp (List.mem_of_getElem? hc)
    exact ⟨trivial, hcalls cs hcs⟩
  · intro s t c d c' hs _ hI hk hc hnext
    obtain ⟨hI', hk'⟩ := knows_step hI hk hnext
    refine ⟨hI', hk', fun u w hne hw hkw => ⟨?_, hkw.calls⟩⟩
    cases hin : w.point.inside with
    | false =>
      cases hp : w.point with
      | outside => trivial
      | _ => rw [hp] at hin; cases hin
    | true =>
      have hout := Mutex.exclusive respected rfl (fun c hc => outside_start hc) hs hw hc
        hne.symm hin
      rw [balance_of_outside hout hnext]
      exact hkw.point

/-- **The books.**  The balances and what is in flight have the initial sum. -/
theorem conserves [Fintype A] (h0 : ∀ a, 0 ≤ balance a)
    (hcalls : ∀ cs ∈ calls, ∀ call ∈ cs, call.NonNegative)
    (hs : (system balance calls).Reachable s) :
    total s.data.balance + (s.threads.map fun c => c.point.inFlight).sum = total balance := by
  refine (conserved (f := fun d : Shared A => total d.balance) (w := fun c => c.point.inFlight)
    (fun s t c d c' hs _ hc h => total_step ((known h0 hcalls hs).2 t c hc) h) hs).trans ?_
  rw [List.map_map]
  refine (congrArg (total balance + ·) (List.sum_eq_zero ?_)).trans (add_zero _)
  intro x hx
  obtain ⟨cs, -, rfl⟩ := List.mem_map.mp hx
  rfl

theorem total_eq [Fintype A] (h0 : ∀ a, 0 ≤ balance a)
    (hcalls : ∀ cs ∈ calls, ∀ call ∈ cs, call.NonNegative)
    (hs : (system balance calls).Reachable s)
    (hnone : ∀ (t : Nat) (c : Caller A), s.threads[t]? = some c → c.point.inFlight = 0) :
    total s.data.balance = total balance := by
  have hzero : (s.threads.map fun c => c.point.inFlight).sum = 0 := List.sum_eq_zero fun x hx => by
    obtain ⟨c, hc, rfl⟩ := List.mem_map.mp hx
    obtain ⟨t, ht⟩ := List.mem_iff_getElem?.mp hc
    exact hnone t c ht
  rw [← conserves h0 hcalls hs, hzero, add_zero]

/-- A thread inside the mutex is the only one that could have money in flight. -/
theorem total_of_inside [Fintype A] (h0 : ∀ a, 0 ≤ balance a)
    (hcalls : ∀ cs ∈ calls, ∀ call ∈ cs, call.NonNegative)
    (hs : (system balance calls).Reachable s) {c : Caller A} (hc : s.threads[t]? = some c)
    (hin : c.point.inside = true) (hzero : c.point.inFlight = 0) :
    total s.data.balance = total balance := by
  apply total_eq h0 hcalls hs
  intro u w hw
  rcases eq_or_ne u t with rfl | hne
  · obtain rfl := Option.some.inj (hc.symm.trans hw)
    exact hzero
  · have hout := Mutex.exclusive respected rfl (fun c hc => outside_start hc) hs hc hw hne hin
    exact inFlight_of_outside hout

/-- Two different accounts that are all there are. -/
structure Both (a1 a2 : A) : Prop where
  ne : a1 ≠ a2
  all : ∀ a, a = a1 ∨ a = a2

theorem total_of_both [Fintype A] {a1 a2 : A} (h : Both a1 a2) (balance : A → Int) :
    total balance = balance a1 + balance a2 := by
  have hall : (Finset.univ : Finset A) = {a1, a2} := by
    ext a
    simpa using h.all a
  rw [total, hall, Finset.sum_pair h.ne]

theorem printed_step (hc : c.Knows d.balance) (h : step t d c = some (d', c')) :
    d'.printed = d.printed ∨ c.point.inside = true ∧ c.point.inFlight = 0 ∧
      ∃ a1 a2, d'.printed = (a1, a2, d.balance a1 + d.balance a2) :: d.printed := by
  have hpoint := hc.point
  cases step_of h with
  | print =>
    obtain rfl := hpoint
    exact .inr ⟨rfl, rfl, _, _, rfl⟩
  | _ => exact .inl rfl

/-- **Every `printSum` of the two accounts prints the initial sum.** -/
theorem prints_total [Fintype A] (h0 : ∀ a, 0 ≤ balance a)
    (hcalls : ∀ cs ∈ calls, ∀ call ∈ cs, call.NonNegative)
    (hs : (system balance calls).Reachable s) {a1 a2 : A} {sum : Int}
    (hprinted : (a1, a2, sum) ∈ s.data.printed) (hboth : Both a1 a2) : sum = total balance := by
  induction hs with
  | init => cases hprinted
  | step hs _ hst ih =>
    obtain ⟨c, d, c', hc, hnext, rfl⟩ := step_cases hst
    rcases printed_step ((known h0 hcalls hs).2 _ c hc) hnext with
      hsame | ⟨hin, hzero, b1, b2, hnew⟩
    · exact ih (hsame ▸ hprinted)
    · simp only [hnew, List.mem_cons, Prod.mk.injEq] at hprinted
      rcases hprinted with ⟨rfl, rfl, rfl⟩ | hprinted
      · rw [← total_of_both hboth, total_of_inside h0 hcalls hs hc hin hzero]
      · exact ih hprinted

end Reachable

/-- **Locked transfers keep the books.**  In every interleaving no balance is negative, and
while the mutex is free the balances have their initial sum; with two accounts, every
`printSum` of both prints it. -/
theorem keeps_the_books [Fintype A] {balance : A → Int} (h0 : ∀ a, 0 ≤ balance a)
    {calls : List (List (Call A))} (hcalls : ∀ cs ∈ calls, ∀ call ∈ cs, call.NonNegative)
    {s : State (Shared A) (Caller A)} (hs : (system balance calls).Reachable s) :
    (∀ a, 0 ≤ s.data.balance a) ∧
    (s.data.mutAccount = none → total s.data.balance = total balance) ∧
    ∀ a1 a2 sum, (a1, a2, sum) ∈ s.data.printed → Both a1 a2 → sum = total balance := by
  refine ⟨(known h0 hcalls hs).1, fun hfree => total_eq h0 hcalls hs ?_,
    fun a1 a2 sum => prints_total h0 hcalls hs⟩
  intro t c hc
  refine inFlight_of_outside (eq_false_of_ne_true ?_)
  intro hin
  have howner := (Mutex.owned respected rfl (fun c hc => outside_start hc) hs hc).mp hin
  exact absurd (hfree.symm.trans howner) nofun

/-- The accounts and the threads of `main`. -/
theorem keeps_the_books_main :
    ∃ s, (system (fun _ : Bool => 100) [[.transferMoney 5 false true],
        [.transferMoney 13 true false], [.printSum false true]]).Reachable s ∧
      total s.data.balance = 200 ∧ ∃ sum, (false, true, sum) ∈ s.data.printed ∧ sum = 200 := by
  obtain ⟨s, hs, hp⟩ := System.exists_reachable (M := system (fun _ : Bool => 100)
      [[.transferMoney 5 false true], [.transferMoney 13 true false], [.printSum false true]])
    (p := fun s => s.data.mutAccount == none && s.data.printed.any fun x => !x.1 && x.2.1)
    [0, 0, 0, 0, 0, 0, 0, 2, 2, 2, 2, 2, 1, 1, 1, 1, 1, 1, 1] (by decide)
  have htotal : total (fun _ : Bool => 100) = 200 := by decide
  obtain ⟨-, hfree, hprints⟩ := keeps_the_books (by decide) (by decide) hs
  obtain ⟨hnone, a1, a2, sum, hmem, rfl, rfl⟩ : s.data.mutAccount = none ∧
      ∃ a1 a2 sum, (a1, a2, sum) ∈ s.data.printed ∧ a1 = false ∧ a2 = true := by
    simpa using hp
  have hboth : Both false true := ⟨by decide, by decide⟩
  exact ⟨s, hs, (hfree hnone).trans htotal, sum, hmem, (hprints _ _ _ hmem hboth).trans htotal⟩

end Cpp20Examples.BreakingInvariant.Solved
