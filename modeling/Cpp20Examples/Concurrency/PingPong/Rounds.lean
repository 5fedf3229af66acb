import Cpp20Examples.Lib.Monitor
import Mathlib.Tactic.Common

/-!
# Rounds of a flag between two players

The abstract protocol of the ping-pong programs with one flag.  `ping` sets the
flag and counts a round, `pong` clears it, and both leave their loops by the
counter.  How a player waits for the flag is left open: `inside` is everything
between a passed loop test and the change of the flag.

`ping` hands the flag over before it counts, so `pong` can answer and test its
loop on the old counter.  In the last round `pong` then waits for a flag that
nobody sets again (`Early`).

`Turn` is what holds of the runs without such a test: whoever waits for the flag
has a partner who comes back to it.  `turn_step` says that every step keeps it, and
`reachable_turn` that it holds in the runs of threads whose steps are steps of the
rounds.  `earlyTest` is the early test as a step of the threads.
-/

namespace Cpp20Examples.PingPong

open Lib Lib.Monitor

/-- Where `ping` is in a round. -/
inductive Ping
  | test
  | inside
  /-- the flag is set, the round is not counted -/
  | handed
  | notifying
  | ended
  deriving DecidableEq

/-- Where `pong` is in a round. -/
inductive Pong
  | test
  | inside
  | notifying
  | ended
  deriving DecidableEq

/-- `counter <= countlimit` -/
def running {σ : Type} (counter : σ → Int32) (countlimit : Int32) (m : σ) : Bool :=
  counter m ≤ countlimit

structure Rounds where
  flag : Bool
  counter : Int32
  ping : Ping
  pong : Pong

/-- `pong` is about to test its loop in the last round, with the flag cleared and
the round not yet counted. -/
def Early (limit : Int32) (r : Rounds) : Prop :=
  r.pong = .test ∧ r.flag = false ∧ r.ping = .handed ∧ ¬ r.counter + 1 ≤ limit

/-- One step of a player. -/
inductive Step (limit : Int32) (r : Rounds) : Rounds → Prop
  | stay : Step limit r r
  | pingPass : r.ping = .test → r.counter ≤ limit → Step limit r { r with ping := .inside }
  | pingLeave : r.ping = .test → ¬ r.counter ≤ limit → Step limit r { r with ping := .ended }
  | handOver : r.ping = .inside → Step limit r { r with flag := true, ping := .handed }
  | count : r.ping = .handed →
      Step limit r { r with counter := r.counter + 1, ping := .notifying }
  | pingNotify : r.ping = .notifying → Step limit r { r with ping := .test }
  | pongPass : r.pong = .test → r.counter ≤ limit → ¬ Early limit r →
      Step limit r { r with pong := .inside }
  | pongLeave : r.pong = .test → ¬ r.counter ≤ limit → Step limit r { r with pong := .ended }
  | take : r.pong = .inside → Step limit r { r with flag := false, pong := .notifying }
  | pongNotify : r.pong = .notifying → Step limit r { r with pong := .test }

/-- `ping` will set the flag again. -/
def Returns (limit counter : Int32) : Ping → Prop
  | .test | .notifying => counter ≤ limit
  | .inside => True
  | .handed => counter + 1 ≤ limit
  | .ended => False

structure Turn (limit : Int32) (r : Rounds) : Prop where
  inside : r.ping = .inside ∨ r.ping = .handed → r.counter ≤ limit
  pingEnded : r.ping = .ended → ¬ r.counter ≤ limit
  pongEnded : r.pong = .ended → ¬ r.counter ≤ limit
  answered : r.pong = .inside → r.flag = false → Returns limit r.counter r.ping

/-- A passed loop test of `pong` that is not early leaves it a partner. -/
theorem Turn.returns {limit : Int32} {r : Rounds} (h : Turn limit r) (ht : r.pong = .test)
    (he : ¬ Early limit r) (hf : r.flag = false) (hc : r.counter ≤ limit) :
    Returns limit r.counter r.ping := by
  cases hp : r.ping with
  | test => exact hc
  | inside => trivial
  | handed =>
    by_contra hlast
    exact he ⟨ht, hf, hp, hlast⟩
  | notifying => exact hc
  | ended => exact absurd hc (h.pingEnded hp)

/-- **Every step that is not an early test keeps the turns.** -/
theorem turn_step {limit : Int32} {r r' : Rounds} (h : Turn limit r) (hst : Step limit r r') :
    Turn limit r' := by
  cases hst with
  | stay => exact h
  | pingPass _ hc =>
    exact ⟨fun _ => hc, fun he => absurd he (by simp), h.pongEnded, fun _ _ => trivial⟩
  | pingLeave hp hc =>
    refine ⟨fun hi => absurd hi (by simp), fun _ => hc, h.pongEnded, ?_⟩
    intro hin hf
    have hret := h.answered hin hf
    rw [hp] at hret
    exact absurd hret hc
  | handOver hp =>
    have hc := h.inside (.inl hp)
    exact ⟨fun _ => hc, fun he => absurd he (by simp), h.pongEnded, fun _ hf => absurd hf (by simp)⟩
  | count hp =>
    have hc := h.inside (.inr hp)
    refine ⟨fun hi => absurd hi (by simp), fun he => absurd he (by simp),
      fun he => absurd hc (h.pongEnded he), ?_⟩
    intro hin hf
    have hret := h.answered hin hf
    rw [hp] at hret
    exact hret
  | pingNotify hp =>
    refine ⟨fun hi => absurd hi (by simp), fun he => absurd he (by simp), h.pongEnded,
      ?_⟩
    intro hin hf
    have hret := h.answered hin hf
    rw [hp] at hret
    exact hret
  | pongPass ht hc he =>
    exact ⟨h.inside, h.pingEnded, fun hen => absurd hen (by simp),
      fun _ hf => h.returns ht he hf hc⟩
  | pongLeave _ hc =>
    exact ⟨h.inside, h.pingEnded, fun _ => hc, fun hin => absurd hin (by simp)⟩
  | take _ =>
    exact ⟨h.inside, h.pingEnded, fun he => absurd he (by simp), fun hin => absurd hin (by simp)⟩
  | pongNotify _ =>
    exact ⟨h.inside, h.pingEnded, fun he => absurd he (by simp), fun hin => absurd hin (by simp)⟩

theorem turn_start (limit counter : Int32) (flag : Bool) :
    Turn limit ⟨flag, counter, .test, .test⟩ :=
  ⟨fun hi => absurd hi (by simp), fun he => absurd he (by simp), fun he => absurd he (by simp),
    fun hin => absurd hin (by simp)⟩

/-! ### Threads that play the rounds -/

theorem reachable_turn {S A Q : Type} {M : System S A} {ok : S → A → Prop} {limit : Int32}
    (state : Q → S) (rounds : Q → Rounds) {q₀ : Q} (h0 : state q₀ = M.init)
    (hturn : Turn limit (rounds q₀))
    (hsim : ∀ q a s', M.ReachableBy ok (state q) → ok (state q) a → M.step (state q) a = some s' →
      ∃ q', Step limit (rounds q) (rounds q') ∧ state q' = s') {s : S}
    (hs : M.ReachableBy ok s) : ∃ q, Turn limit (rounds q) ∧ state q = s := by
  induction hs with
  | init => exact ⟨q₀, hturn, h0⟩
  | step hs hok hst ih =>
    obtain ⟨q, hq, rfl⟩ := ih
    obtain ⟨q', hstep, rfl⟩ := hsim q _ _ hs hok hst
    exact ⟨q', turn_step hq hstep, rfl⟩

section EarlyTest

variable {ι κ σ : Type}

def atLoopTest (th : Thread ι κ σ Unit) : Bool :=
  match th.code with
  | .loop _ _ :: _ => true
  | _ => false

/-- The step is a loop test of `pong` with the flag cleared, while the increment that ends
the last round is still to come; `handed` says that `ping` has set the flag and not counted
the round. -/
def earlyTest (handed : Thread ι κ σ Unit → Bool) (flag : σ → Bool) (counter : σ → Int32)
    (countlimit : Int32) (s : State ι κ σ Unit) : Act → Bool
  | .run 1 _ =>
    s.threads[0]?.any handed && s.threads[1]?.any atLoopTest && !flag s.data &&
      !decide (counter s.data + 1 ≤ countlimit)
  | _ => false

theorem earlyTest_of_early {handed : Thread ι κ σ Unit → Bool} {flag : σ → Bool}
    {counter : σ → Int32} {limit : Int32} {s : State ι κ σ Unit} {ping pong : Thread ι κ σ Unit}
    {p : Ping} {p' : Pong} {w : Nat} (hthreads : s.threads = [ping, pong])
    (hping : p = .handed → handed ping = true) (hpong : p' = .test → atLoopTest pong = true)
    (he : Early limit ⟨flag s.data, counter s.data, p, p'⟩) :
    earlyTest handed flag counter limit s (.run 1 w) = true := by
  obtain ⟨ht, hf, hh, hl⟩ := he
  have hf : flag s.data = false := hf
  have hl : ¬counter s.data + 1 ≤ limit := hl
  simp [earlyTest, hthreads, hping hh, hpong ht, hf, hl]

end EarlyTest

end Cpp20Examples.PingPong
