import Mathlib.Data.Nat.Prime.Nth
import Mathlib.NumberTheory.PrimeCounting
import Mathlib.Tactic.NormNum.Prime
import Mathlib.Tactic.Linarith

/-!
# A generator of the prime numbers

`generate_primes`: `isPrime` divides an odd number by 3, 5, 7, ... until `d * d` exceeds it,
and `allPrimeNumbers` yields 2 and then the odd numbers that pass.  The arithmetic is that
of `unsigned long long`, modulo `2 ^ 64`.

* `loop_of_composite`: the least divisor is found before `d * d` wraps around.
* `loop_of_prime`: for a prime number the loop ends below `2 ^ 62`, whether `d * d` has
  wrapped around or not.
* `isPrime_decides_iff`: `isPrime` is right but for 1, which its guard lets through.
* `getNextPrime_eq`: the calls return the primes, one after another.
-/

namespace Cpp20Examples.GeneratePrimes

/-! ### `isPrime` -/

/-- `for (unsigned long long d = 3; d * d <= num; d += 2)`; `none` where the fuel is used
up. -/
def isPrime.loop (num : UInt64) : Nat → UInt64 → Option Bool
  | 0, _ => none
  | fuel + 1, d =>
    if d * d ≤ num then
      if num % d = 0 then some false else isPrime.loop num fuel (d + 2)
    else some true

def isPrime (fuel : Nat) (num : UInt64) : Option Bool :=
  if num ≠ 2 ∧ (num < 1 ∨ num % 2 = 0) then some false else isPrime.loop num fuel 3

theorem toNat_add_two {d : UInt64} (hd : d.toNat + 2 < 2 ^ 64) : (d + 2).toNat = d.toNat + 2 := by
  rw [UInt64.toNat_add, show (2 : UInt64).toNat = 2 from rfl, Nat.mod_eq_of_lt hd]

theorem mod_eq_zero_iff {num d : UInt64} : num % d = 0 ↔ d.toNat ∣ num.toNat := by
  rw [← UInt64.toNat_inj, UInt64.toNat_mod, Nat.dvd_iff_mod_eq_zero]
  rfl

/-- **An odd composite number.**  No `d * d` up to the least divisor `p` wraps around. -/
theorem loop_of_composite {num : UInt64} {p fuel : Nat} {d : UInt64} (hp : p ∣ num.toNat)
    (hsq : p * p ≤ num.toNat) (hle : d.toNat ≤ p) (hodd : d.toNat % 2 = p % 2)
    (hfuel : p < fuel + d.toNat) : isPrime.loop num fuel d = some false := by
  have hp32 : p < 2 ^ 32 := by
    have hnum := num.toNat_lt
    by_contra hge
    have hge : 2 ^ 32 ≤ p := not_lt.mp hge
    nlinarith
  induction fuel generalizing d with
  | zero => omega
  | succ fuel ih =>
    have hdd : d.toNat * d.toNat ≤ p * p := Nat.mul_le_mul hle hle
    have hnum := num.toNat_lt
    have htest : d * d ≤ num := by
      rw [UInt64.le_iff_toNat_le, UInt64.toNat_mul, Nat.mod_eq_of_lt (by omega)]
      omega
    rw [isPrime.loop, if_pos htest]
    split
    · rfl
    · rename_i hdvd
      have hne : d.toNat ≠ p := fun he => hdvd (mod_eq_zero_iff.mpr (he ▸ hp))
      have hstep := toNat_add_two (d := d) (by omega)
      exact ih (by omega) (by omega) (by omega)

/-- **A prime number**, when the test fails for some odd `q` up to it. -/
theorem loop_of_prime {num : UInt64} {q fuel : Nat} {d : UInt64} (hprime : num.toNat.Prime)
    (hq : num.toNat < q * q % 2 ^ 64) (hqle : q ≤ num.toNat) (hsmall : q < 2 ^ 62)
    (h3 : 3 ≤ d.toNat) (hle : d.toNat ≤ q) (hodd : d.toNat % 2 = q % 2)
    (hfuel : q < fuel + d.toNat) : isPrime.loop num fuel d = some true := by
  induction fuel generalizing d with
  | zero => omega
  | succ fuel ih =>
    rw [isPrime.loop]
    split
    · rename_i htest
      rw [UInt64.le_iff_toNat_le, UInt64.toNat_mul] at htest
      have hne : d.toNat ≠ q := by
        intro he
        rw [he] at htest
        omega
      have hndvd : ¬num % d = 0 := by
        intro hdvd
        rcases hprime.eq_one_or_self_of_dvd _ (mod_eq_zero_iff.mp hdvd) with he | he <;> omega
      have hstep := toNat_add_two (d := d) (by omega)
      rw [if_neg hndvd]
      exact ih (by omega) (by omega) (by omega) (by omega)
    · rfl

theorem le_of_prime {n : Nat} (hn : n.Prime) (hlt : n < 2 ^ 64) (hodd : n % 2 = 1) :
    n ≤ 2 ^ 64 - 9 := by
  by_contra hgt
  have hcases : n = 2 ^ 64 - 7 ∨ n = 2 ^ 64 - 5 ∨ n = 2 ^ 64 - 3 ∨ n = 2 ^ 64 - 1 := by omega
  have hdvd : 3 ∣ n ∨ 11 ∣ n ∨ 13 ∣ n := by omega
  rcases hdvd with hdvd | hdvd | hdvd <;>
    rcases hn.eq_one_or_self_of_dvd _ hdvd with he | he <;> omega

/-- **Where the loop ends for a prime number** at the latest.  Below `2 ^ 62` it is behind the
square root; from there on it is a square root of `-7` modulo `2 ^ 64`. -/
theorem exists_stop {n : Nat} (hn : n.Prime) (hlt : n < 2 ^ 64) (hodd : n % 2 = 1) :
    ∃ q, n < q * q % 2 ^ 64 ∧ q ≤ n ∧ q < 2 ^ 62 ∧ 3 ≤ q ∧ q % 2 = 1 := by
  have h3 : 3 ≤ n := by
    have h2 := hn.two_le
    omega
  rcases lt_or_ge n (2 ^ 62) with hsmall | hlarge
  · have hsq : n.sqrt * n.sqrt ≤ n := Nat.sqrt_le n
    have hgt : n < (n.sqrt + 1) * (n.sqrt + 1) := Nat.lt_succ_sqrt n
    generalize n.sqrt = r at hsq hgt
    have hr : r < 2 ^ 31 := by
      by_contra hge
      have hge : 2 ^ 31 ≤ r := not_lt.mp hge
      nlinarith
    obtain ⟨q, hle, hge, hq3, hqodd⟩ : ∃ q, r + 1 ≤ q ∧ q ≤ r + 2 ∧ 3 ≤ q ∧ q % 2 = 1 := by
      rcases Nat.mod_two_eq_zero_or_one r with heven | hodd
      · have hpos : r ≠ 0 := by
          intro h0
          rw [h0] at hgt
          omega
        exact ⟨r + 1, by omega, by omega, by omega, by omega⟩
      · exact ⟨r + 2, by omega, by omega, by omega, by omega⟩
    have hqq : (r + 1) * (r + 1) ≤ q * q := Nat.mul_le_mul hle hle
    have hqn : q ≤ n := by
      rcases Nat.lt_or_ge r 2 with hlt | hge2
      · omega
      · nlinarith
    have hwrap : q * q < 2 ^ 64 := by
      have hq : q < 2 ^ 32 := by omega
      nlinarith
    exact ⟨q, by rw [Nat.mod_eq_of_lt hwrap]; omega, hqn, by omega, hq3, hqodd⟩
  · -- the square of this number is `2 ^ 64 - 7` modulo `2 ^ 64`
    refine ⟨1852311383259529397, ?_, by omega, by norm_num, by norm_num, by norm_num⟩
    have hle := le_of_prime hn hlt hodd
    norm_num at hle ⊢
    omega

/-- **`isPrime` is exact** for the odd numbers from 3 on. -/
theorem isPrime_eq {num : UInt64} (h3 : 3 ≤ num.toNat) (hodd : num.toNat % 2 = 1) {fuel : Nat}
    (hfuel : 2 ^ 62 ≤ fuel) : isPrime fuel num = some (decide num.toNat.Prime) := by
  have hguard : ¬(num ≠ 2 ∧ (num < 1 ∨ num % 2 = 0)) := by
    rintro ⟨-, hlt | heven⟩
    · rw [UInt64.lt_iff_toNat_lt, show (1 : UInt64).toNat = 1 from rfl] at hlt
      omega
    · have hdvd := mod_eq_zero_iff.mp heven
      rw [show (2 : UInt64).toNat = 2 from rfl] at hdvd
      omega
  have hthree : (3 : UInt64).toNat = 3 := rfl
  rw [isPrime, if_neg hguard]
  by_cases hprime : num.toNat.Prime
  · obtain ⟨q, hq, hqle, hsmall, hq3, hqodd⟩ := exists_stop hprime num.toNat_lt hodd
    rw [decide_eq_true hprime]
    exact loop_of_prime hprime hq hqle hsmall hthree.ge (by omega) (by omega) (by omega)
  · have hp : num.toNat.minFac ∣ num.toNat := Nat.minFac_dvd _
    have hsq : num.toNat.minFac * num.toNat.minFac ≤ num.toNat := by
      have hsq := Nat.minFac_sq_le_self (by omega) hprime
      rwa [sq] at hsq
    have hpodd : ¬2 ∣ num.toNat.minFac := by
      intro h2
      have hdvd := h2.trans hp
      omega
    have hp3 : 3 ≤ num.toNat.minFac := by
      have h2 := (Nat.minFac_prime (show num.toNat ≠ 1 by omega)).two_le
      omega
    have hsmall : num.toNat.minFac < 2 ^ 62 := by
      have hnum := num.toNat_lt
      by_contra hge
      have hge := not_lt.mp hge
      nlinarith
    rw [decide_eq_false hprime]
    exact loop_of_composite hp hsq (by omega) (by omega) (by omega)

theorem isPrime_of_even {num : UInt64} (hne : num ≠ 2) (heven : num.toNat % 2 = 0) (fuel : Nat) :
    isPrime fuel num = some (decide num.toNat.Prime) := by
  have hguard : num ≠ 2 ∧ (num < 1 ∨ num % 2 = 0) :=
    ⟨hne, .inr (mod_eq_zero_iff.mpr (Nat.dvd_of_mod_eq_zero heven))⟩
  have hnot : ¬num.toNat.Prime := by
    intro hprime
    have htwo : num.toNat = 2 := hprime.even_iff.mp (Nat.even_iff.mpr heven)
    exact hne (UInt64.toNat_inj.mp htwo)
  rw [isPrime, if_pos hguard, decide_eq_false hnot]

/-- 1 and 2 get through the guard, and `d * d <= num` is false at once. -/
theorem isPrime_small {num : UInt64} (h : num = 1 ∨ num = 2) (fuel : Nat) :
    isPrime (fuel + 1) num = some true := by
  rcases h with rfl | rfl <;> rfl

/-- **`isPrime` decides primality exactly for the numbers other than 1.**  The guard tests
`num < 1`, so 1 comes to the loop, which finds no divisor. -/
theorem isPrime_decides_iff (num : UInt64) :
    (∃ fuel₀, ∀ fuel, fuel₀ ≤ fuel → isPrime fuel num = some (decide num.toNat.Prime)) ↔
      num ≠ 1 := by
  constructor
  · rintro ⟨fuel₀, h⟩ rfl
    have hone := (isPrime_small (.inl rfl) fuel₀).symm.trans (h _ (Nat.le_succ fuel₀))
    rw [show (1 : UInt64).toNat = 1 from rfl, decide_eq_false Nat.not_prime_one] at hone
    cases hone
  · intro hne
    by_cases htwo : num = 2
    · refine ⟨1, ?_⟩
      intro fuel hfuel
      obtain ⟨fuel, rfl⟩ := Nat.exists_eq_add_of_le' hfuel
      rw [isPrime_small (.inr htwo), htwo, show (2 : UInt64).toNat = 2 from rfl,
        decide_eq_true Nat.prime_two]
    · rcases Nat.mod_two_eq_zero_or_one num.toNat with heven | hodd
      · exact ⟨0, fun fuel _ => isPrime_of_even htwo heven fuel⟩
      · have hone : num.toNat ≠ 1 := fun h1 => hne (UInt64.toNat_inj.mp h1)
        exact ⟨2 ^ 62, fun fuel hfuel => isPrime_eq (by omega) hodd hfuel⟩

/-- 1 passes for a prime number. -/
theorem one_passes : ¬∀ num : UInt64,
    ∃ fuel₀, ∀ fuel, fuel₀ ≤ fuel → isPrime fuel num = some (decide num.toNat.Prime) := by
  intro h
  obtain ⟨fuel₀, h⟩ := h 1
  have hone := (isPrime_small (.inl rfl) fuel₀).symm.trans (h _ (Nat.le_succ fuel₀))
  rw [show (1 : UInt64).toNat = 1 from rfl, decide_eq_false Nat.not_prime_one] at hone
  cases hone

/-! ### The generator -/

/-- Where the coroutine is suspended: at its start, at `co_yield 2`, or at `co_yield num`. -/
inductive Point
  | initial
  | two
  | yielded (num : UInt64)
  deriving DecidableEq

/-- A generator.  Its handle is valid, and its coroutine is never done. -/
structure CoGenerator where
  point : Point
  last : UInt64
  deriving DecidableEq

/-- `allPrimeNumbers()`, suspended at its start. -/
def allPrimeNumbers : CoGenerator := ⟨.initial, 0⟩

/-- The loop of `allPrimeNumbers`, up to the next `co_yield num`. -/
def search : Nat → UInt64 → Option UInt64
  | 0, _ => none
  | fuel + 1, num =>
    match isPrime fuel num with
    | none => none
    | some true => some num
    | some false => search fuel (num + 2)

/-- `yield_value` -/
def CoGenerator.yieldValue (_ : CoGenerator) (point : Point) (num : UInt64) : CoGenerator :=
  ⟨point, num⟩

/-- `hnd.resume()` -/
def CoGenerator.resume (fuel : Nat) (gen : CoGenerator) : Option CoGenerator :=
  match gen.point with
  | .initial => some (gen.yieldValue .two 2)
  | .two => (search fuel 3).map fun num => gen.yieldValue (.yielded num) num
  | .yielded num => (search fuel (num + 2)).map fun num => gen.yieldValue (.yielded num) num

def CoGenerator.getNextPrime (fuel : Nat) (gen : CoGenerator) : Option (UInt64 × CoGenerator) :=
  (gen.resume fuel).map fun gen => (gen.last, gen)

/-- What the first `k` calls of `getNextPrime` return. -/
def CoGenerator.firstPrimes (fuel : Nat) : Nat → CoGenerator → Option (List UInt64 × CoGenerator)
  | 0, gen => some ([], gen)
  | k + 1, gen =>
    (gen.firstPrimes fuel k).bind fun r =>
      (r.2.getNextPrime fuel).map fun next => (r.1 ++ [next.1], next.2)

/-! ### The primes in order -/

/-- No prime number is skipped: the search from an odd number finds the next one. -/
theorem search_eq {p fuel : Nat} {num : UInt64} (hp : p.Prime) (hp64 : p < 2 ^ 64)
    (h3 : 3 ≤ num.toNat) (hodd : num.toNat % 2 = 1) (hle : num.toNat ≤ p)
    (hnone : ∀ r, num.toNat ≤ r → r < p → ¬r.Prime) (hfuel : 2 ^ 62 + p < fuel + num.toNat) :
    search fuel num = some (UInt64.ofNat p) := by
  induction fuel generalizing num with
  | zero => omega
  | succ fuel ih =>
    have hexact : isPrime fuel num = _ := isPrime_eq h3 hodd (by omega)
    have hpodd : p % 2 = 1 := hp.eq_two_or_odd.resolve_left (by omega)
    rcases hle.eq_or_lt with heq | hlt
    · have hnum : num = UInt64.ofNat p := by
        rw [← heq, UInt64.ofNat_toNat]
      rw [search, hexact, heq, decide_eq_true hp, hnum]
    · have hstep := toNat_add_two (d := num) (by omega)
      have hnot : ¬num.toNat.Prime := hnone _ le_rfl hlt
      rw [search, hexact, decide_eq_false hnot]
      exact ih (by omega) (by omega) (by omega) (fun r hr => hnone r (by omega)) (by omega)

/-- The generator has yielded the prime number of the index `k`. -/
def Yielded (k : Nat) (gen : CoGenerator) : Prop :=
  gen.last.toNat = Nat.nth Nat.Prime k ∧
    if k = 0 then gen.point = .two else gen.point = .yielded gen.last

theorem not_prime_of_between {k r : Nat} (hlt : Nat.nth Nat.Prime k < r)
    (hr : r < Nat.nth Nat.Prime (k + 1)) : ¬r.Prime := fun hprime =>
  absurd (Nat.le_nth_of_lt_nth_succ hr hprime) (not_le.mpr hlt)

theorem exists_start (fuel : Nat) {k : Nat} {gen : CoGenerator} (hgen : Yielded k gen)
    (h64 : Nat.nth Nat.Prime (k + 1) < 2 ^ 64) :
    ∃ num : UInt64, gen.resume fuel =
        (search fuel num).map (fun num => gen.yieldValue (.yielded num) num) ∧
      3 ≤ num.toNat ∧ num.toNat % 2 = 1 ∧ num.toNat ≤ Nat.nth Nat.Prime (k + 1) ∧
      ∀ r, num.toNat ≤ r → r < Nat.nth Nat.Prime (k + 1) → ¬r.Prime := by
  obtain ⟨hlast, hpoint⟩ := hgen
  have hmono : ∀ i j, i < j → Nat.nth Nat.Prime i < Nat.nth Nat.Prime j := fun i j hij =>
    Nat.nth_strictMono Nat.infinite_setOfPred_prime hij
  have hzero := Nat.nth_prime_zero_eq_two
  have hnext := hmono k (k + 1) (Nat.lt_succ_self k)
  have hnextodd := (Nat.prime_nth_prime (k + 1)).eq_two_or_odd
  rcases Nat.eq_zero_or_pos k with rfl | hpos
  · have hthree : (3 : UInt64).toNat = 3 := rfl
    rw [if_pos rfl] at hpoint
    refine ⟨3, by rw [CoGenerator.resume, hpoint], by omega, by omega, by omega,
      fun r hr => not_prime_of_between (by omega)⟩
  · have hgt := hmono 0 k hpos
    have hodd := (Nat.prime_nth_prime k).eq_two_or_odd
    have hstep := toNat_add_two (d := gen.last) (by omega)
    rw [if_neg (by omega)] at hpoint
    refine ⟨gen.last + 2, by rw [CoGenerator.resume, hpoint], by omega, by omega, by omega,
      fun r hr => not_prime_of_between (by omega)⟩

theorem getNextPrime_step {k fuel : Nat} {gen : CoGenerator} (hgen : Yielded k gen)
    (h64 : Nat.nth Nat.Prime (k + 1) < 2 ^ 64) (hfuel : 2 ^ 65 ≤ fuel) :
    ∃ num gen', gen.getNextPrime fuel = some (num, gen') ∧
      num.toNat = Nat.nth Nat.Prime (k + 1) ∧ Yielded (k + 1) gen' := by
  obtain ⟨num, hresume, h3, hodd, hle, hnone⟩ := exists_start fuel hgen h64
  have hsearch := search_eq (Nat.prime_nth_prime (k + 1)) h64 h3 hodd hle hnone
    (show _ < fuel + num.toNat by omega)
  have hnum : (UInt64.ofNat (Nat.nth Nat.Prime (k + 1))).toNat = Nat.nth Nat.Prime (k + 1) := by
    rw [UInt64.toNat_ofNat', Nat.mod_eq_of_lt h64]
  refine ⟨_, _, by rw [CoGenerator.getNextPrime, hresume, hsearch]; rfl, hnum, hnum, ?_⟩
  rw [if_neg (Nat.succ_ne_zero k)]
  rfl

/-- **`getNextPrime` returns the prime numbers.**  The `k`th call terminates and returns the
`k`th prime number, counted from zero, when that is less than `2 ^ 64`. -/
theorem getNextPrime_eq (k : Nat) (h64 : Nat.nth Nat.Prime k < 2 ^ 64) :
    ∃ fuel₀, ∀ fuel, fuel₀ ≤ fuel → ∃ primes gen,
      allPrimeNumbers.firstPrimes fuel (k + 1) = some (primes, gen) ∧
      primes.map UInt64.toNat = (List.range (k + 1)).map (Nat.nth Nat.Prime) := by
  suffices hall : ∀ fuel, 2 ^ 65 ≤ fuel → ∃ primes gen,
      allPrimeNumbers.firstPrimes fuel (k + 1) = some (primes, gen) ∧
      primes.map UInt64.toNat = (List.range (k + 1)).map (Nat.nth Nat.Prime) ∧ Yielded k gen by
    refine ⟨2 ^ 65, ?_⟩
    intro fuel hfuel
    obtain ⟨primes, gen, hprimes, hmap, -⟩ := hall fuel hfuel
    exact ⟨primes, gen, hprimes, hmap⟩
  intro fuel hfuel
  induction k with
  | zero =>
    refine ⟨[2], ⟨.two, 2⟩, rfl, ?_, ?_⟩
    · rw [List.range_one, List.map_singleton, List.map_singleton, Nat.nth_prime_zero_eq_two]
      rfl
    · exact ⟨Nat.nth_prime_zero_eq_two.symm, rfl⟩
  | succ k ih =>
    have hlt := Nat.nth_strictMono Nat.infinite_setOfPred_prime (Nat.lt_succ_self k)
    obtain ⟨primes, gen, hprimes, hmap, hgen⟩ := ih (hlt.trans h64)
    obtain ⟨num, gen', hnext, hnum, hgen'⟩ := getNextPrime_step hgen h64 hfuel
    refine ⟨primes ++ [num], gen', ?_, ?_, hgen'⟩
    · rw [CoGenerator.firstPrimes, hprimes, Option.bind_some, hnext]
      rfl
    · rw [List.map_append, hmap, List.range_succ (n := k + 1), List.map_append, List.map_singleton,
        List.map_singleton, hnum]

/-- The third call returns 5. -/
theorem getNextPrime_eq_two :
    ∃ fuel₀, ∀ fuel, fuel₀ ≤ fuel → ∃ primes gen,
      allPrimeNumbers.firstPrimes fuel 3 = some (primes, gen) ∧
      primes.map UInt64.toNat = [2, 3, 5] := by
  have h64 : Nat.nth Nat.Prime 2 < 2 ^ 64 := by
    rw [Nat.nth_prime_two_eq_five]
    decide
  obtain ⟨fuel₀, h⟩ := getNextPrime_eq 2 h64
  have hthree : (List.range 3).map (Nat.nth Nat.Prime) = [2, 3, 5] := by
    simp [List.range_succ, Nat.nth_prime_zero_eq_two, Nat.nth_prime_one_eq_three,
      Nat.nth_prime_two_eq_five]
  refine ⟨fuel₀, ?_⟩
  intro fuel hfuel
  obtain ⟨primes, gen, hprimes, hmap⟩ := h fuel hfuel
  exact ⟨primes, gen, hprimes, hmap.trans hthree⟩

end Cpp20Examples.GeneratePrimes
