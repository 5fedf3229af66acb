import Cpp20Examples.Concurrency.BreakingInvariant.Solved
import Cpp20Examples.Lib.Arith
import Mathlib.Algebra.Order.BigOperators.Group.Finset
import Mathlib.Algebra.Order.BigOperators.Group.List
import Mathlib.Tactic.Ring

/-!
# Transfers between atomic balances

`transferMoney` of `breakingInvariant`: the test loads the balance, and the withdrawal and
the deposit are atomic, but other threads move between the three.  A balance is an `int`
that wraps around.

* `covered`: a test that is passed finds what all that have passed theirs will withdraw,
  and a deposit fits.
* `pending_le`: while the steps are covered, each balance is enough for what is pending.
* `reachableBy_covered`: they are when no two threads withdraw from one account at a time,
  and the balances together fit.
* `no_overdraft`: while they are, no balance is negative; the first step that is not
  leads to a negative one.
-/

namespace Cpp20Examples.BreakingInvariant.Atomic

open Lib Lib.Threads Lib.Arith
open Solved (total total_update)

variable {A : Type}

/-- A call of `transferMoney`. -/
structure Transfer (A : Type) where
  amount : Int32
  from_ : A
  to_ : A
  deriving DecidableEq

/-- Where a thread is: in front of the test, of `-=`, or of `+=`. -/
inductive Point (A : Type)
  | test
  | withdraw (call : Transfer A)
  | deposit (call : Transfer A)
  deriving DecidableEq

structure Caller (A : Type) where
  calls : List (Transfer A)
  point : Point A := .test
  deriving DecidableEq

/-- A step of `transferMoney`; the balances are the shared data. -/
def transferMoney [DecidableEq A] (_ : Nat) (balance : A → Int32) (c : Caller A) :
    Option ((A → Int32) × Caller A) :=
  match c.point with
  | .test =>
    match c.calls with
    | [] => none
    | call :: calls =>
      if balance call.from_ ≥ call.amount then some (balance, ⟨calls, .withdraw call⟩)
      else some (balance, ⟨calls, .test⟩)
  | .withdraw call =>
    some (Function.update balance call.from_ (balance call.from_ - call.amount),
      { c with point := .deposit call })
  | .deposit call =>
    some (Function.update balance call.to_ (balance call.to_ + call.amount),
      { c with point := .test })

/-- Threads that make these calls each. -/
def system [DecidableEq A] (balance : A → Int32) (calls : List (List (Transfer A))) :
    System (State (A → Int32) (Caller A)) Nat :=
  Threads.system transferMoney balance (calls.map fun cs => { calls := cs })

variable [DecidableEq A]

/-- What a thread that has passed its test will withdraw from `a`. -/
def Point.pending (a : A) : Point A → Int
  | .withdraw call => if call.from_ = a then call.amount.toInt else 0
  | .test | .deposit _ => 0

def pending (s : State (A → Int32) (Caller A)) (a : A) : Int :=
  (s.threads.map fun c => c.point.pending a).sum

/-- A thread that passes its test finds what is pending besides its own amount; and what
it deposits fits in the balance. -/
def Caller.covered (pending : A → Int) (balance : A → Int32) (c : Caller A) : Bool :=
  match c.point with
  | .test => c.calls.head?.all fun call => balance call.from_ ≥ call.amount →
      pending call.from_ + call.amount.toInt ≤ (balance call.from_).toInt
  | .withdraw _ => true
  | .deposit call => fits 32 ((balance call.to_).toInt + call.amount.toInt)

def covered (s : State (A → Int32) (Caller A)) (t : Nat) : Bool :=
  s.threads[t]?.all fun c => c.covered (pending s) s.data

/-! ### The steps -/

/-- What a step does. -/
inductive Step (balance : A → Int32) : Caller A → (A → Int32) → Caller A → Prop
  | pass {call : Transfer A} {calls : List (Transfer A)}
      (hge : call.amount ≤ balance call.from_) :
      Step balance ⟨call :: calls, .test⟩ balance ⟨calls, .withdraw call⟩
  | refuse {call : Transfer A} {calls : List (Transfer A)}
      (hlt : ¬call.amount ≤ balance call.from_) :
      Step balance ⟨call :: calls, .test⟩ balance ⟨calls, .test⟩
  | withdraw {call : Transfer A} {calls : List (Transfer A)} :
      Step balance ⟨calls, .withdraw call⟩
        (Function.update balance call.from_ (balance call.from_ - call.amount))
        ⟨calls, .deposit call⟩
  | deposit {call : Transfer A} {calls : List (Transfer A)} :
      Step balance ⟨calls, .deposit call⟩
        (Function.update balance call.to_ (balance call.to_ + call.amount)) ⟨calls, .test⟩

variable {t : Nat} {balance balance' : A → Int32} {c c' : Caller A}

theorem step_of (h : transferMoney t balance c = some (balance', c')) :
    Step balance c balance' c' := by
  obtain ⟨calls, p⟩ := c
  cases p with
  | test =>
    cases calls with
    | nil => cases h
    | cons call calls =>
      simp only [transferMoney] at h
      split at h
      · rename_i hge
        cases h
        exact .pass hge
      · rename_i hlt
        cases h
        exact .refuse hlt
  | withdraw call => cases h; exact .withdraw
  | deposit call => cases h; exact .deposit

/-- The amounts of a thread are not negative. -/
structure NonNegative (c : Caller A) : Prop where
  calls : ∀ call ∈ c.calls, 0 ≤ call.amount
  withdraw : ∀ call, c.point = .withdraw call → 0 ≤ call.amount
  deposit : ∀ call, c.point = .deposit call → 0 ≤ call.amount

omit [DecidableEq A] in
theorem nonNegative_of_test {calls : List (Transfer A)} (h : ∀ call ∈ calls, 0 ≤ call.amount) :
    NonNegative ⟨calls, .test⟩ :=
  ⟨h, nofun, nofun⟩

theorem Step.nonNegative (h : Step balance c balance' c') (hc : NonNegative c) :
    NonNegative c' := by
  cases h with
  | pass =>
    obtain ⟨hcall, hrest⟩ := List.forall_mem_cons.mp hc.calls
    exact ⟨hrest, fun _ he => by cases he; exact hcall, nofun⟩
  | refuse => exact nonNegative_of_test (List.forall_mem_cons.mp hc.calls).2
  | withdraw =>
    exact ⟨hc.calls, nofun, fun _ he => by cases he; exact hc.withdraw _ rfl⟩
  | deposit => exact nonNegative_of_test hc.calls

theorem pending_nonneg (hc : NonNegative c) (a : A) : 0 ≤ c.point.pending a := by
  obtain ⟨calls, p⟩ := c
  cases p with
  | withdraw call =>
    rw [Point.pending]
    split
    · exact nonneg_iff.mp (hc.withdraw call rfl)
    · exact le_rfl
  | _ => exact le_rfl

/-- **A covered step.**  Where the balances are enough for what is pending, they are after
it; `rest` is what the other threads will withdraw. -/
theorem Step.pending_le (rest : A → Int) (h : Step balance c balance' c') (hc : NonNegative c)
    (hrest : ∀ a, 0 ≤ rest a) (hle : ∀ a, c.point.pending a + rest a ≤ (balance a).toInt)
    (hcov : c.covered (fun a => c.point.pending a + rest a) balance = true) (a : A) :
    c'.point.pending a + rest a ≤ (balance' a).toInt := by
  have ha := hle a
  cases h with
  | @pass call calls hge =>
    have hcall : 0 + rest call.from_ + call.amount.toInt ≤ (balance call.from_).toInt :=
      of_decide_eq_true hcov hge
    rw [Point.pending]
    split
    · rename_i heq
      subst heq
      omega
    · exact ha
  | refuse => exact ha
  | @withdraw call calls =>
    rw [Point.pending] at ha
    rcases eq_or_ne a call.from_ with rfl | hne
    · have hrest := hrest call.from_
      have hamount := nonneg_iff.mp (hc.withdraw call rfl)
      rw [if_pos rfl] at ha
      rw [Function.update_self, toInt_sub_of_nonneg (nonneg_iff.mpr (by omega))
        (hc.withdraw call rfl), Point.pending]
      omega
    · rw [if_neg hne.symm] at ha
      rwa [Function.update_of_ne hne]
  | @deposit call calls =>
    rcases eq_or_ne a call.to_ with rfl | hne
    · have hamount := nonneg_iff.mp (hc.deposit call rfl)
      rw [Function.update_self, toInt_add_of_fits hcov]
      exact ha.trans (le_add_of_nonneg_right hamount)
    · rwa [Function.update_of_ne hne]

/-! ### The runs of covered steps -/

section Runs

variable {calls : List (List (Transfer A))} {s s' : State (A → Int32) (Caller A)}
  {ok : State (A → Int32) (Caller A) → Nat → Prop}

theorem covered_iff {b : Bool} (hc : s.threads[t]? = some c) :
    covered s t = b ↔ c.covered (pending s) s.data = b := by
  rw [covered, hc, Option.all_some]

theorem nonNegative (hcalls : ∀ cs ∈ calls, ∀ call ∈ cs, 0 ≤ call.amount)
    (hs : (system balance calls).ReachableBy ok s) : ∀ c ∈ s.threads, NonNegative c := by
  intro c hc
  obtain ⟨t, ht⟩ := List.mem_iff_getElem?.mp hc
  refine (invariant (I := fun _ => True) (L := fun _ _ (c : Caller A) => NonNegative c) trivial ?_
    ?_ hs).2 t c ht
  · intro t c hc
    obtain ⟨cs, hcs, rfl⟩ := List.mem_map.mp (List.mem_of_getElem? hc)
    exact nonNegative_of_test (hcalls cs hcs)
  · intro s t c d c' _ _ _ hk _ hnext
    exact ⟨trivial, (step_of hnext).nonNegative hk, fun _ _ _ _ h => h⟩

theorem sum_pending_nonneg (hs : ∀ c ∈ s.threads, NonNegative c) (a : A) : 0 ≤ pending s a := by
  apply List.sum_nonneg
  intro x hx
  obtain ⟨c, hc, rfl⟩ := List.mem_map.mp hx
  exact pending_nonneg (hs c hc) a

theorem point_pending_le (hs : ∀ c ∈ s.threads, NonNegative c) (hc : c ∈ s.threads) (a : A) :
    c.point.pending a ≤ pending s a := by
  refine List.single_le_sum ?_ _ (List.mem_map_of_mem hc)
  intro x hx
  obtain ⟨w, hw, rfl⟩ := List.mem_map.mp hx
  exact pending_nonneg (hs w hw) a

theorem pending_set (hc : s.threads[t]? = some c) (d : A → Int32) (c' : Caller A) (a : A) :
    pending ⟨d, s.threads.set t c'⟩ a = c'.point.pending a + (pending s a - c.point.pending a) := by
  obtain ⟨r, hr, hset⟩ := exists_rest (fun c : Caller A => c.point.pending a) hc
  rw [pending, pending, hr, hset, add_sub_cancel_left]

/-- **The balances are enough for what is pending.** -/
theorem pending_le (h0 : ∀ a, 0 ≤ balance a) (hcalls : ∀ cs ∈ calls, ∀ call ∈ cs, 0 ≤ call.amount)
    (hs : (system balance calls).ReachableBy (fun s t => covered s t) s) (a : A) :
    pending s a ≤ (s.data a).toInt := by
  induction hs generalizing a with
  | init =>
    have hnone : pending (system balance calls).init a = 0 := by
      apply List.sum_eq_zero
      intro x hx
      obtain ⟨c, hc, rfl⟩ := List.mem_map.mp hx
      obtain ⟨cs, -, rfl⟩ := List.mem_map.mp hc
      rfl
    rw [hnone]
    exact nonneg_iff.mp (h0 a)
  | @step s s' t hs hcov hst ih =>
    obtain ⟨c, balance', c', hc, hnext, rfl⟩ := step_cases hst
    have hamounts := nonNegative hcalls hs
    have hmem := List.mem_of_getElem? hc
    rw [pending_set hc]
    refine Step.pending_le (fun a => pending s a - c.point.pending a) (step_of hnext)
      (hamounts c hmem) ?_ ?_ ?_ a
    · exact fun a => sub_nonneg.mpr (point_pending_le hamounts hmem a)
    · exact fun a => (add_sub_cancel _ _).trans_le (ih a)
    · simpa using (covered_iff hc).mp hcov

theorem nonneg (h0 : ∀ a, 0 ≤ balance a) (hcalls : ∀ cs ∈ calls, ∀ call ∈ cs, 0 ≤ call.amount)
    (hs : (system balance calls).ReachableBy (fun s t => covered s t) s) (a : A) :
    0 ≤ s.data a :=
  nonneg_iff.mpr ((sum_pending_nonneg (nonNegative hcalls hs) a).trans (pending_le h0 hcalls hs a))

/-! ### What covers the steps -/

/-- In front of its test, no thread is about to withdraw from the account. -/
def Alone (s : State (A → Int32) (Caller A)) (t : Nat) : Prop :=
  ∀ c call, s.threads[t]? = some c → c.point = .test → c.calls.head? = some call →
    ∀ w ∈ s.threads, ∀ call', w.point = .withdraw call' → call'.from_ ≠ call.from_

/-- What has left an account and not yet arrived. -/
def Point.inFlight : Point A → Int
  | .deposit call => call.amount.toInt
  | .test | .withdraw _ => 0

theorem covered_test_of_alone (halone : Alone s t) (hc : s.threads[t]? = some c)
    (hp : c.point = .test) : c.covered (pending s) s.data = true := by
  rw [Caller.covered, hp]
  cases hcall : c.calls.head? with
  | none => rfl
  | some call =>
    have hnone : pending s call.from_ = 0 := by
      apply List.sum_eq_zero
      intro x hx
      obtain ⟨w, hw, rfl⟩ := List.mem_map.mp hx
      cases hpw : w.point with
      | withdraw call' => exact if_neg (halone c call hc hp hcall w hw call' hpw)
      | _ => rfl
    apply decide_eq_true
    intro hge
    rw [hnone, Int.zero_add]
    exact Int32.le_iff_toInt_le.mp hge

section Total

variable [Fintype A]

/-- **A covered step moves money** between the accounts and what is in flight. -/
theorem Step.total_eq {p : A → Int} (h : Step balance c balance' c') (h0 : ∀ a, 0 ≤ balance a)
    (hc : NonNegative c) (hcov : c.covered p balance = true) :
    total (Int32.toInt ∘ balance') + c'.point.inFlight =
      total (Int32.toInt ∘ balance) + c.point.inFlight := by
  cases h with
  | pass | refuse => rfl
  | @withdraw call =>
    rw [Function.comp_update, total_update, toInt_sub_of_nonneg (h0 _) (hc.withdraw call rfl)]
    simp only [Point.inFlight, Function.comp_apply]
    ring
  | @deposit call =>
    rw [Function.comp_update, total_update, toInt_add_of_fits hcov]
    simp only [Point.inFlight, Function.comp_apply]
    ring

theorem conserves (h0 : ∀ a, 0 ≤ balance a) (hcalls : ∀ cs ∈ calls, ∀ call ∈ cs, 0 ≤ call.amount)
    (hs : (system balance calls).ReachableBy (fun s t => covered s t) s) :
    total (Int32.toInt ∘ s.data) + (s.threads.map fun c => c.point.inFlight).sum =
      total (Int32.toInt ∘ balance) := by
  refine (conserved (f := fun d : A → Int32 => total (Int32.toInt ∘ d))
    (w := fun c : Caller A => c.point.inFlight) ?_ hs).trans ?_
  · intro s t c d c' hs hcov hc hnext
    exact (step_of hnext).total_eq (nonneg h0 hcalls hs)
      (nonNegative hcalls hs c (List.mem_of_getElem? hc)) ((covered_iff hc).mp hcov)
  · rw [List.map_map]
    refine (congrArg (total (Int32.toInt ∘ balance) + ·) (List.sum_eq_zero ?_)).trans (add_zero _)
    intro x hx
    obtain ⟨cs, -, rfl⟩ := List.mem_map.mp hx
    rfl

theorem covered_deposit (h0 : ∀ a, 0 ≤ balance a)
    (hcalls : ∀ cs ∈ calls, ∀ call ∈ cs, 0 ≤ call.amount)
    (hfits : fits 32 (total (Int32.toInt ∘ balance)) = true)
    (hs : (system balance calls).ReachableBy (fun s t => covered s t) s) (hc : c ∈ s.threads)
    {call : Transfer A} (hp : c.point = .deposit call) :
    fits 32 ((s.data call.to_).toInt + call.amount.toInt) = true := by
  have hamounts := nonNegative hcalls hs
  have hbalance : (s.data call.to_).toInt ≤ total (Int32.toInt ∘ s.data) :=
    Finset.single_le_sum (f := Int32.toInt ∘ s.data)
      (fun a _ => nonneg_iff.mp (nonneg h0 hcalls hs a)) (Finset.mem_univ call.to_)
  have hflight : call.amount.toInt ≤ (s.threads.map fun c => c.point.inFlight).sum := by
    refine List.single_le_sum ?_ _ (List.mem_map.mpr ⟨c, hc, by rw [hp]; rfl⟩)
    intro x hx
    obtain ⟨w, hw, rfl⟩ := List.mem_map.mp hx
    cases hpw : w.point with
    | deposit call' => exact nonneg_iff.mp ((hamounts w hw).deposit call' hpw)
    | _ => exact le_rfl
  have hmoney := conserves h0 hcalls hs
  have hto := nonneg_iff.mp (nonneg h0 hcalls hs call.to_)
  have hamount := nonneg_iff.mp ((hamounts c hc).deposit call hp)
  rw [fits_int_iff] at hfits ⊢
  omega

/-- **Withdrawals from different accounts** are covered, and so are deposits of money that
fits. -/
theorem reachableBy_covered (h0 : ∀ a, 0 ≤ balance a)
    (hcalls : ∀ cs ∈ calls, ∀ call ∈ cs, 0 ≤ call.amount)
    (hfits : fits 32 (total (Int32.toInt ∘ balance)) = true)
    (hs : (system balance calls).ReachableBy Alone s) :
    (system balance calls).ReachableBy (fun s t => covered s t) s := by
  induction hs with
  | init => exact .init
  | @step s s' t _ halone hst ih =>
    refine .step ih ?_ hst
    obtain ⟨c, -, -, hc, -, -⟩ := step_cases hst
    refine (covered_iff hc).mpr ?_
    cases hp : c.point with
    | test => exact covered_test_of_alone halone hc hp
    | withdraw call => rw [Caller.covered, hp]
    | deposit call =>
      rw [Caller.covered, hp]
      exact covered_deposit h0 hcalls hfits ih (List.mem_of_getElem? hc) hp

end Total

/-! ### What a step that is not covered leads to -/

theorem exists_withdraw {a : A} (hs : ∀ c ∈ s.threads, NonNegative c) (hpos : 0 < pending s a) :
    ∃ (t : Nat) (c : Caller A) (call : Transfer A), s.threads[t]? = some c ∧
      c.point = .withdraw call ∧ call.from_ = a ∧ 0 < call.amount.toInt := by
  by_contra hnone
  refine hpos.ne' (List.sum_eq_zero ?_)
  intro x hx
  obtain ⟨c, hc, rfl⟩ := List.mem_map.mp hx
  refine le_antisymm ?_ (pending_nonneg (hs c hc) a)
  by_contra hgt
  obtain ⟨t, ht⟩ := List.mem_iff_getElem?.mp hc
  cases hp : c.point with
  | withdraw call =>
    rw [hp, Point.pending] at hgt
    split at hgt
    · rename_i heq
      exact hnone ⟨t, c, call, ht, hp, heq, not_le.mp hgt⟩
    · exact hgt le_rfl
  | _ => rw [hp] at hgt; exact hgt le_rfl

/-- **More is pending than there is**: the threads go on and withdraw it. -/
theorem leads_overdraft {a : A} {n : Nat} (hs : ∀ c ∈ s.threads, NonNegative c)
    (h0 : 0 ≤ s.data a) (hn : pending s a ≤ n) (hlt : (s.data a).toInt < pending s a) :
    (system balance calls).Leads s fun s => ∃ a, s.data a < 0 := by
  have hdata := nonneg_iff.mp h0
  induction n generalizing s with
  | zero => omega
  | succ n ih =>
    obtain ⟨t, c, call, hc, hp, rfl, hpos⟩ := exists_withdraw hs (hdata.trans_lt hlt)
    have hamounts := hs c (List.mem_of_getElem? hc)
    let balance' := Function.update s.data call.from_ (s.data call.from_ - call.amount)
    let c' : Caller A := { c with point := .deposit call }
    have hnext : transferMoney t s.data c = some (balance', c') := by rw [transferMoney, hp]
    have hst : (system balance calls).step s t = some ⟨balance', s.threads.set t c'⟩ := by
      simp [system, Threads.system, hc, hnext]
    refine .step t hst ?_
    have hself : balance' call.from_ = s.data call.from_ - call.amount := Function.update_self ..
    by_cases hneg : balance' call.from_ < 0
    · exact .here ⟨_, hneg⟩
    · have hge : 0 ≤ balance' call.from_ := Int32.not_lt.mp hneg
      have hexact :
          (balance' call.from_).toInt = (s.data call.from_).toInt - call.amount.toInt := by
        rw [hself, toInt_sub_of_nonneg h0 (hamounts.withdraw call hp)]
      have hpending : pending ⟨balance', s.threads.set t c'⟩ call.from_ =
          pending s call.from_ - call.amount.toInt := by
        rw [pending_set hc, hp, Point.pending, if_pos rfl]
        exact (zero_add _)
      refine ih ?_ hge ?_ ?_ (nonneg_iff.mp hge)
      · intro w hw
        rcases List.mem_or_eq_of_mem_set hw with hw | rfl
        · exact hs w hw
        · exact (step_of hnext).nonNegative hamounts
      · rw [hpending]
        omega
      · rw [hpending, hexact]
        omega

/-- **A step that is not covered** leads to a negative balance. -/
theorem leads_of_uncovered (h0 : ∀ a, 0 ≤ balance a)
    (hcalls : ∀ cs ∈ calls, ∀ call ∈ cs, 0 ≤ call.amount)
    (hs : (system balance calls).ReachableBy (fun s t => covered s t) s)
    (hcov : covered s t = false) (hst : (system balance calls).step s t = some s') :
    (system balance calls).Leads s' fun s => ∃ a, s.data a < 0 := by
  have hamounts := nonNegative hcalls (hs.reachable.step trivial hst)
  obtain ⟨c, balance', c', hc, hnext, rfl⟩ := step_cases hst
  rw [covered_iff hc] at hcov
  have hc' := nonNegative hcalls hs c (List.mem_of_getElem? hc)
  cases step_of hnext with
  | @pass call calls' hge =>
    have hmore : ¬(pending s call.from_ + call.amount.toInt ≤ (s.data call.from_).toInt) :=
      fun hle => absurd hcov (ne_false_of_eq_true (decide_eq_true fun _ => hle))
    have hpending : pending ⟨s.data, s.threads.set t ⟨calls', .withdraw call⟩⟩ call.from_ =
        call.amount.toInt + pending s call.from_ := by
      rw [pending_set hc]
      simp [Point.pending]
    refine leads_overdraft (a := call.from_) (n := (call.amount.toInt + pending s call.from_).toNat)
      hamounts (nonneg h0 hcalls hs _) ?_ ?_
    · rw [hpending]
      exact Int.self_le_toNat _
    · rw [hpending]
      show (s.data call.from_).toInt < _
      omega
  | @refuse call _ hlt =>
    exact absurd hcov (ne_false_of_eq_true (decide_eq_true fun hge => absurd hge hlt))
  | withdraw => cases hcov
  | @deposit call =>
    have hself := Function.update_self call.to_ (s.data call.to_ + call.amount) s.data
    have hneg := add_neg_of_not_fits (nonneg h0 hcalls hs _) (hc'.deposit call rfl) hcov
    exact .here ⟨call.to_, hself.trans_lt hneg⟩

end Runs

/-- **No overdraft** in the runs of covered steps; for one when the balances together fit
in an `int` and no two threads withdraw from one account at a time.  Where a first step is
not covered, the run can go on to a negative balance; so there is none in any run exactly
when all steps of all runs are covered. -/
theorem no_overdraft {balance : A → Int32} (h0 : ∀ a, 0 ≤ balance a)
    {calls : List (List (Transfer A))} (hcalls : ∀ cs ∈ calls, ∀ call ∈ cs, 0 ≤ call.amount) :
    (∀ s, (system balance calls).ReachableBy (fun s t => covered s t) s → ∀ a, 0 ≤ s.data a) ∧
    (∀ [Fintype A], fits 32 (total (Int32.toInt ∘ balance)) = true → ∀ s,
      (system balance calls).ReachableBy Alone s →
      (system balance calls).ReachableBy (fun s t => covered s t) s) ∧
    (∀ s t s', (system balance calls).ReachableBy (fun s t => covered s t) s →
      covered s t = false → (system balance calls).step s t = some s' →
      (system balance calls).Leads s' fun s => ∃ a, s.data a < 0) ∧
    ((∀ s, (system balance calls).Reachable s → ∀ a, 0 ≤ s.data a) ↔
      ∀ s t s', (system balance calls).ReachableBy (fun s t => covered s t) s →
        (system balance calls).step s t = some s' → covered s t = true) := by
  refine ⟨fun s hs => nonneg h0 hcalls hs, ?_, ?_, ?_⟩
  · intro _ hfits s hs
    exact reachableBy_covered h0 hcalls hfits hs
  · intro s t s' hs hcov hst
    exact leads_of_uncovered h0 hcalls hs hcov hst
  · refine System.safe_iff (fun s hs => nonneg h0 hcalls hs) ?_
    intro s t s' hs hcov hst
    obtain ⟨as, s'', hrun, a, ha⟩ :=
      leads_of_uncovered h0 hcalls hs (eq_false_of_ne_true hcov) hst
    exact ⟨as, s'', hrun, fun hall => Int32.not_le.mpr ha (hall a)⟩

/-- Two transfers, one after the other. -/
theorem no_overdraft_main :
    ∃ s, (system (fun _ : Bool => 100) [[⟨5, false, true⟩], [⟨13, true, false⟩]]).ReachableBy
        (fun s t => covered s t) s ∧
      s.data false = 108 ∧ ∀ a, 0 ≤ s.data a := by
  obtain ⟨s, hs, hp⟩ := System.exists_reachableBy
    (M := system (fun _ : Bool => 100) [[⟨5, false, true⟩], [⟨13, true, false⟩]]) covered
    (p := fun s => s.data false == 108) [0, 1, 0, 1, 1, 0] (by decide) (by decide)
  exact ⟨s, hs, by simpa using hp, (no_overdraft (by decide) (by decide)).1 s hs⟩

/-- Two transfers of the whole balance both pass the test before either withdraws; and
one transfer to a full account makes its balance wrap around. -/
theorem overdraft :
    (¬∀ s, (system (fun _ : Bool => 100) [[⟨100, false, true⟩],
      [⟨100, false, true⟩]]).Reachable s → ∀ a, 0 ≤ s.data a) ∧
    ¬∀ s, (system (fun a : Bool => if a then Int32.maxValue else 1)
      [[⟨1, false, true⟩]]).Reachable s → ∀ a, 0 ≤ s.data a := by
  constructor
  · intro h
    have hnonneg := h _ (System.reachable_of_run [0, 1, 0, 1] rfl) false
    exact absurd hnonneg (by decide)
  · intro h
    have hnonneg := h _ (System.reachable_of_run [0, 0, 0] rfl) true
    exact absurd hnonneg (by decide)

end Cpp20Examples.BreakingInvariant.Atomic
