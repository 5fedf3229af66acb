import Mathlib.Data.List.Sort
import Mathlib.Data.Nat.Prime.Basic
import Mathlib.NumberTheory.LucasLehmer
import Mathlib.Tactic.Linarith

/-!
# What the tasks of `activeObject` compute, and what `main` does with it

* `isPrime_eq`: `IsPrime` is exact below the square of 46340, the greatest number
  whose square is an `int`; no `j * j` overflows.
* `isPrime_exact_iff`: of the other numbers it is exact on those that are not prime.
* `split_results`: `main` sorts the results, `false` before `true`, and `find_if`
  splits them into the numbers that are not prime and those that are.
-/

namespace Cpp20Examples.ActiveObject

/-! ### `IsPrime` -/

/-- `for (int j = 2; j * j <= i; ++j)`; `none` where `j * j` overflows, or where the fuel
is used up. -/
def IsPrime.loop (i : Int) : Nat → Int → Option (Bool × Int)
  | 0, _ => none
  | fuel + 1, j =>
    if 2 ^ 31 ≤ j * j then none
    else if j * j ≤ i then
      if i.tmod j = 0 then some (false, i) else IsPrime.loop i fuel (j + 1)
    else some (true, i)

/-- `IsPrime::operator()` -/
def isPrime (i : Int) : Option (Bool × Int) := IsPrime.loop i (i.toNat + 1) 2

theorem not_overflow {j : Nat} (hj : j ≤ 46340) : ¬ (2 ^ 31 : Int) ≤ (j : Int) * j := by
  have hle : (j : Int) ≤ 46340 := by exact_mod_cast hj
  nlinarith

/-- A number that is not prime has a divisor whose square is an `int`. -/
theorem minFac_le {n : Nat} (h2 : 2 ≤ n) (hlt : n < 2 ^ 31) (hprime : ¬ n.Prime) :
    n.minFac ≤ 46340 := by
  have hsq : n.minFac ^ 2 ≤ n := Nat.minFac_sq_le_self (Nat.lt_of_succ_lt h2) hprime
  by_contra hgt
  have hgt : 46341 ≤ n.minFac := by omega
  nlinarith

/-- The numbers that the loop can decide. -/
def Decided (n : Nat) : Prop := n < 46340 * 46340 ∨ n < 2 ^ 31 ∧ ¬ n.Prime

/-- A loop that has found no divisor below `j` has come to a `j` whose square is an `int`. -/
theorem le_of_no_divisor {n j : Nat} (h2 : 2 ≤ n) (hn : Decided n)
    (hsq : (j - 1) * (j - 1) ≤ n) (hdiv : ∀ k, 2 ≤ k → k < j → ¬ k ∣ n) : j ≤ 46340 := by
  by_contra hgt
  rcases hn with hn | ⟨hlt, hprime⟩
  · have hge : 46340 ≤ j - 1 := by omega
    nlinarith
  · have hle := minFac_le h2 hlt hprime
    have hfac : 2 ≤ n.minFac := (Nat.minFac_prime (by omega)).two_le
    exact hdiv _ hfac (by omega) n.minFac_dvd

theorem loop_eq {n fuel j : Nat} (hj : 2 ≤ j) (hn : Decided n) (hsq : (j - 1) * (j - 1) ≤ n)
    (hfuel : n + 2 ≤ fuel + j) (hdiv : ∀ k, 2 ≤ k → k < j → ¬ k ∣ n) (h2 : 2 ≤ n) :
    IsPrime.loop n fuel j = some (decide n.Prime, (n : Int)) := by
  induction fuel generalizing j with
  | zero =>
    have hlt : n + 1 ≤ j - 1 := by omega
    nlinarith
  | succ fuel ih =>
    rw [IsPrime.loop, if_neg (not_overflow (le_of_no_divisor h2 hn hsq hdiv))]
    split
    · rename_i hle
      have hle : j * j ≤ n := by exact_mod_cast hle
      split
      · -- a divisor that is not `n`
        rename_i hmod
        have hdvd : j ∣ n := by exact_mod_cast Int.dvd_of_tmod_eq_zero hmod
        have hlt : j < n := by nlinarith
        have hprime : ¬ n.Prime := Nat.not_prime_of_dvd_of_lt hdvd hj hlt
        rw [decide_eq_false hprime]
      · rename_i hmod
        rw [← Nat.cast_succ]
        apply ih (by omega) (by simpa using hle) (by omega)
        intro k hk hlt
        rcases Nat.lt_succ_iff_lt_or_eq.mp hlt with hlt | rfl
        · exact hdiv k hk hlt
        · intro hdvd
          exact hmod (Int.tmod_eq_zero_of_dvd (by exact_mod_cast hdvd))
    · -- a divisor would have one below `j`
      rename_i hgt
      have hgt : n < j * j := by
        rw [not_le] at hgt
        exact_mod_cast hgt
      have hprime : n.Prime := by
        refine Nat.prime_def_le_sqrt.mpr ⟨h2, fun k hk hle => hdiv k hk ?_⟩
        have hsqrt : k * k ≤ n := Nat.le_sqrt.mp hle
        nlinarith
      rw [decide_eq_true hprime]

theorem isPrime_of_decidable {n : Nat} (h2 : 2 ≤ n) (hn : Decided n) :
    isPrime n = some (decide n.Prime, (n : Int)) := by
  refine @loop_eq n (n + 1) 2 (Nat.le_refl 2) hn (Nat.le_trans (by decide) h2) (by omega)
    ?_ h2
  intro k hk hk'
  exact absurd hk' (Nat.not_lt.mpr hk)

/-- **`IsPrime` is exact**, and no `j * j` overflows. -/
theorem isPrime_eq {i : Int} (h2 : 2 ≤ i) (hi : i < 46340 * 46340) :
    isPrime i = some (decide i.toNat.Prime, i) := by
  obtain ⟨n, rfl⟩ := Int.eq_ofNat_of_zero_le (Int.le_trans (by decide) h2)
  have h2 : 2 ≤ n := by exact_mod_cast h2
  have hlt : n < 46340 * 46340 := by exact_mod_cast hi
  exact isPrime_of_decidable h2 (.inl hlt)

/-- For a large prime number the loop comes to 46341, the square of which overflows. -/
theorem loop_overflows {n fuel j : Nat} (hprime : n.Prime) (hn : 46340 * 46340 ≤ n) (hj : 2 ≤ j)
    (hle : j ≤ 46341) (hfuel : 46341 < fuel + j) : IsPrime.loop n fuel j = none := by
  induction fuel generalizing j with
  | zero => omega
  | succ fuel ih =>
    rw [IsPrime.loop]
    by_cases hlast : j = 46341
    · subst hlast
      rw [if_pos (by norm_num)]
    · have hsmall : j ≤ 46340 := by omega
      have hsq : (j : Int) * j ≤ n := by
        have hnat : j * j ≤ n := by nlinarith
        exact_mod_cast hnat
      have hmod : ¬ (n : Int).tmod j = 0 := by
        intro hmod
        have hdvd : j ∣ n := by exact_mod_cast Int.dvd_of_tmod_eq_zero hmod
        rcases hprime.eq_one_or_self_of_dvd j hdvd with hone | hself
        · omega
        · omega
      rw [if_neg (not_overflow hsmall), if_pos hsq, if_neg hmod, ← Nat.cast_succ]
      exact ih (by omega) (by omega) (by omega)

theorem isPrime_overflows {n : Nat} (hprime : n.Prime) (hn : 46340 * 46340 ≤ n) :
    isPrime n = none :=
  @loop_overflows n (n + 1) 2 hprime hn (Nat.le_refl 2) (by decide) (by omega)

/-- **The numbers on which `IsPrime` is exact.**  For a prime number from 46340 * 46340 on
the test `j * j <= i` overflows before it fails. -/
theorem isPrime_exact_iff {i : Int} (h2 : 2 ≤ i) (hi : i < 2 ^ 31) :
    isPrime i = some (decide i.toNat.Prime, i) ↔ i < 46340 * 46340 ∨ ¬ i.toNat.Prime := by
  obtain ⟨n, rfl⟩ := Int.eq_ofNat_of_zero_le (Int.le_trans (by decide) h2)
  have h2 : 2 ≤ n := by exact_mod_cast h2
  have hlt : n < 2 ^ 31 := by exact_mod_cast hi
  rw [Int.toNat_natCast]
  constructor
  · intro hexact
    by_contra hlarge
    push Not at hlarge
    have hn : 46340 * 46340 ≤ n := by exact_mod_cast hlarge.1
    rw [isPrime_overflows hlarge.2 hn] at hexact
    cases hexact
  · rintro (hsmall | hprime)
    · have hsmall : n < 46340 * 46340 := by exact_mod_cast hsmall
      exact isPrime_of_decidable h2 (.inl hsmall)
    · exact isPrime_of_decidable h2 (.inr ⟨hlt, hprime⟩)

/-- The greatest even `int`. -/
theorem isPrime_exact_iff_even : isPrime 2147483646 = some (decide (Nat.Prime 2147483646),
    2147483646) := by
  have hprime : ¬ Nat.Prime (2147483646 : Int).toNat :=
    Nat.not_prime_of_dvd_of_lt (m := 2) (by decide) (by decide) (by decide)
  exact (isPrime_exact_iff (by decide) (by decide)).mpr (.inr hprime)

/-- The greatest `int` is a prime number. -/
theorem maxInt_overflows : ¬∀ i : Int, 2 ≤ i → i < 2 ^ 31 →
    isPrime i = some (decide i.toNat.Prime, i) := by
  have hmersenne : (mersenne 31).Prime :=
    lucas_lehmer_sufficiency 31 (by decide) (by norm_num)
  have hvalue : mersenne 31 = 2147483647 := by norm_num [mersenne]
  rw [hvalue] at hmersenne
  intro h
  have hnone : isPrime (2147483647 : Nat) = none := isPrime_overflows hmersenne (by decide)
  exact absurd (hnone.symm.trans (h 2147483647 (by decide) (by decide))) nofun

/-! ### `main` -/

/-- The order of `pair<bool, int>`. -/
def pairLe (a b : Bool × Int) : Bool := (!a.1 && b.1) || (a.1 == b.1 && a.2 ≤ b.2)

/-- `sort`, and `find_if` for the first that is prime: the numbers in front of it, and from
it on. -/
def split (futResults : List (Bool × Int)) : List Int × List Int :=
  let sorted := futResults.mergeSort pairLe
  let prIt := sorted.findIdx fun pa => pa.1 == true
  ((sorted.take prIt).map Prod.snd, (sorted.drop prIt).map Prod.snd)

theorem pairLe_trans (a b c : Bool × Int) : pairLe a b → pairLe b c → pairLe a c := by
  obtain ⟨a, i⟩ := a
  obtain ⟨b, j⟩ := b
  obtain ⟨c, k⟩ := c
  cases a <;> cases b <;> cases c <;> simp [pairLe]
  · exact Int.le_trans
  · exact Int.le_trans

theorem pairLe_total (a b : Bool × Int) : (pairLe a b || pairLe b a) = true := by
  obtain ⟨a, i⟩ := a
  obtain ⟨b, j⟩ := b
  cases a <;> cases b <;> simp [pairLe]
  · exact Int.le_total i j
  · exact Int.le_total i j

/-- In a sorted list of results the primes come last, and both parts ascend. -/
theorem sorted_split {l : List (Bool × Int)} (hl : l.Pairwise fun a b => pairLe a b = true) :
    l.take (l.findIdx fun pa => pa.1 == true) = l.filter (fun pa => !pa.1) ∧
      l.drop (l.findIdx fun pa => pa.1 == true) = l.filter (fun pa => pa.1) := by
  induction l with
  | nil => exact ⟨rfl, rfl⟩
  | cons a l ih =>
    obtain ⟨ha, hl⟩ := List.pairwise_cons.mp hl
    obtain ⟨hfront, hback⟩ := ih hl
    obtain ⟨b, i⟩ := a
    cases b with
    | false =>
      simp only [beq_true] at hfront hback
      simp [List.findIdx_cons, hfront, hback]
    | true =>
      -- behind a prime there are only primes
      have hall : ∀ q ∈ l, q.1 = true := by
        intro q hq
        have hle := ha q hq
        simp only [pairLe, Bool.not_true, Bool.false_and, Bool.false_or, Bool.and_eq_true,
          beq_iff_eq] at hle
        exact hle.1.symm
      have hnone : l.filter (fun pa => !pa.1) = [] := by
        rw [List.filter_eq_nil_iff]
        intro q hq
        simp [hall q hq]
      have hself : l.filter (fun pa => pa.1) = l := List.filter_eq_self.mpr hall
      simp [List.findIdx_cons, hnone, hself]

theorem ascending {l : List (Bool × Int)} (hl : l.Pairwise fun a b => pairLe a b = true)
    (b : Bool) : ((l.filter fun pa => pa.1 == b).map Prod.snd).Pairwise (· ≤ ·) := by
  rw [List.pairwise_map]
  refine (hl.filter _).imp_of_mem fun {q r} hq hr hle => ?_
  have hq := (List.mem_filter.mp hq).2
  have hr := (List.mem_filter.mp hr).2
  rw [beq_iff_eq] at hq hr
  cases b <;> simpa [pairLe, hq, hr] using hle

/-- **The results are split into the numbers that are prime and those that are not**, both
in ascending order. -/
theorem split_results (p : Int → Bool) (is : List Int) :
    (split (is.map fun i => (p i, i))).1.Pairwise (· ≤ ·) ∧
    (split (is.map fun i => (p i, i))).1.Perm (is.filter fun i => !p i) ∧
    (split (is.map fun i => (p i, i))).2.Pairwise (· ≤ ·) ∧
    (split (is.map fun i => (p i, i))).2.Perm (is.filter p) := by
  have hsorted := List.pairwise_mergeSort pairLe_trans pairLe_total (is.map fun i => (p i, i))
  have hperm := List.mergeSort_perm (is.map fun i => (p i, i)) pairLe
  obtain ⟨hfront, hback⟩ := sorted_split hsorted
  have hfalse := ascending hsorted false
  have htrue := ascending hsorted true
  simp only [beq_false, beq_true] at hfalse htrue
  simp only [split]
  rw [hfront, hback]
  refine ⟨hfalse, ?_, htrue, ?_⟩
  · have h := (hperm.filter fun pa => !pa.1).map Prod.snd
    simpa [List.filter_map, Function.comp_def] using h
  · have h := (hperm.filter fun pa => pa.1).map Prod.snd
    simpa [List.filter_map, Function.comp_def] using h

end Cpp20Examples.ActiveObject
