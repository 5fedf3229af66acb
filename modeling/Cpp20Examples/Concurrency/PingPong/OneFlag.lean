import Cpp20Examples.Lib.Monitor
import Cpp20Examples.Concurrency.PingPong.Rounds

/-!
# The ping-pong with one atomic flag

`pingPongAtomicBool.cpp` and `pingPongAtomicFlag.cpp` hand one flag back and
forth.  Each atomic load, store, increment and wait is one step; a wait is
enabled where the flag has another value than the awaited one.

`ping` sets the flag before it counts the round, so `pong` can clear it and test
its loop on the old counter.  In the last round it then waits for a flag that
`ping` does not set again (`deadlock`).

* `simulation`: a step of the threads, other than that test, is a step of the
  rounds.
* `deadlock_free`: in the runs without that test a thread can run as long as one
  has not ended.
* `deadlock_of_early`: behind such a test the two threads come to a deadlock.
-/

namespace Cpp20Examples.PingPong.OneFlag

open Lib Lib.Monitor

structure Memory where
  flag : Bool
  counter : Int32 := 0
  deriving DecidableEq

/-- The operations of `std::atomic<bool>`, `std::atomic_flag` and the counter. -/
inductive Op
  | store (b : Bool)
  | testAndSet
  | clear
  | increment
  | notifyOne

/-- A notification wakes a waiter to look at the flag again, which `await` does
by itself. -/
def sem : Op → Memory → Unit → Option (Memory × Unit)
  | .store b, m, _ => some ({ m with flag := b }, ())
  | .testAndSet, m, _ => some ({ m with flag := true }, ())
  | .clear, m, _ => some ({ m with flag := false }, ())
  | .increment, m, _ => some ({ m with counter := m.counter + 1 }, ())
  | .notifyOne, m, _ => some (m, ())

abbrev PCode := Code Op Empty Memory

/-- `wait(old)` -/
def waitFor (old : Bool) : Instr Op Empty Memory := .await fun m => m.flag != old

/-- The body of `ping`, with the operation that sets the flag. -/
def pingBody (op : Op) : PCode := [waitFor true, .exec op, .exec .increment, .exec .notifyOne]

/-- The body of `pong`, with the operation that clears the flag. -/
def pongBody (op : Op) : PCode := [waitFor false, .exec op, .exec .notifyOne]

def pingWith (op : Op) (countlimit : Int32) : PCode :=
  [.loop (running Memory.counter countlimit) (pingBody op)]

def pongWith (op : Op) (countlimit : Int32) : PCode :=
  [.loop (running Memory.counter countlimit) (pongBody op)]

/-! ### The two programs -/

inductive Program
  | pingPongAtomicBool
  | pingPongAtomicFlag

/-- The operation of `ping` on the flag. -/
def Program.set : Program → Op
  | pingPongAtomicBool => .store true
  | pingPongAtomicFlag => .testAndSet

/-- The operation of `pong` on the flag. -/
def Program.clear : Program → Op
  | pingPongAtomicBool => .store false
  | pingPongAtomicFlag => .clear

def Program.ping (d : Program) (countlimit : Int32) : PCode := pingWith d.set countlimit

def Program.pong (d : Program) (countlimit : Int32) : PCode := pongWith d.clear countlimit

abbrev PState := State Op Empty Memory Unit

/-- `main` sets the flag and starts the two threads. -/
def Program.system (d : Program) (countlimit : Int32) : System PState Act :=
  Monitor.system sem { flag := true }
    [⟨d.ping countlimit, .running, ()⟩, ⟨d.pong countlimit, .running, ()⟩]

/-! ### The early test -/

/-- `ping` has set the flag and not counted the round. -/
def atIncrement (th : Thread Op Empty Memory Unit) : Bool :=
  match th.code with
  | .exec .increment :: _ => true
  | _ => false

/-- The early test of the rounds. -/
def earlyTest : Int32 → PState → Act → Bool :=
  PingPong.earlyTest atIncrement Memory.flag Memory.counter

/-! ### The threads at their places -/

inductive PingAt
  | test
  | wait
  | set
  | increment
  | notify
  | ended

inductive PongAt
  | test
  | wait
  | clear
  | notify
  | ended

section Places

variable (d : Program) (limit : Int32)

def PingAt.code : PingAt → PCode
  | test => d.ping limit
  | wait => pingBody d.set ++ d.ping limit
  | set => (pingBody d.set).drop 1 ++ d.ping limit
  | increment => (pingBody d.set).drop 2 ++ d.ping limit
  | notify => (pingBody d.set).drop 3 ++ d.ping limit
  | ended => []

def PongAt.code : PongAt → PCode
  | test => d.pong limit
  | wait => pongBody d.clear ++ d.pong limit
  | clear => (pongBody d.clear).drop 1 ++ d.pong limit
  | notify => (pongBody d.clear).drop 2 ++ d.pong limit
  | ended => []

def PingAt.round : PingAt → Ping
  | test => .test
  | wait | set => .inside
  | increment => .handed
  | notify => .notifying
  | ended => .ended

def PongAt.round : PongAt → Pong
  | test => .test
  | wait | clear => .inside
  | notify => .notifying
  | ended => .ended

structure Places where
  data : Memory
  ping : PingAt
  pong : PongAt

/-- The state with the threads written out. -/
def Places.state (q : Places) : PState where
  data := q.data
  threads := [⟨q.ping.code d limit, .running, ()⟩, ⟨q.pong.code d limit, .running, ()⟩]

/-- The round that the threads are in. -/
def Places.rounds (q : Places) : Rounds :=
  ⟨q.data.flag, q.data.counter, q.ping.round, q.pong.round⟩

end Places

variable {d : Program} {limit : Int32} {q : Places} {w : Nat} {s' : PState}

theorem simulation_ping (h : step sem (q.state d limit) (.run 0 w) = some s') :
    ∃ q' : Places, Step limit q.rounds q'.rounds ∧ q'.state d limit = s' := by
  obtain ⟨m, ping, pong⟩ := q
  cases ping with
  | test =>
    obtain rfl := Option.some.inj h
    by_cases hc : m.counter ≤ limit
    · exact ⟨⟨m, .wait, pong⟩, .pingPass rfl hc, by simp [Places.state, running, hc]; rfl⟩
    · exact ⟨⟨m, .ended, pong⟩, .pingLeave rfl hc, by simp [Places.state, running, hc]; rfl⟩
  | wait =>
    obtain ⟨hp, h⟩ := Option.ite_none_right_eq_some.mp h
    obtain rfl := Option.some.inj h
    exact ⟨⟨m, .set, pong⟩, .stay, rfl⟩
  | set =>
    cases d <;> obtain rfl := Option.some.inj h <;>
      exact ⟨⟨{ m with flag := true }, .increment, pong⟩, .handOver rfl, rfl⟩
  | increment =>
    obtain rfl := Option.some.inj h
    exact ⟨⟨{ m with counter := m.counter + 1 }, .notify, pong⟩, .count rfl, rfl⟩
  | notify =>
    obtain rfl := Option.some.inj h
    exact ⟨⟨m, .test, pong⟩, .pingNotify rfl, rfl⟩
  | ended => exact absurd h (by simp [step, Places.state, PingAt.code, stepThread, instr])

theorem simulation_pong (hok : earlyTest limit (q.state d limit) (.run 1 w) = false)
    (h : step sem (q.state d limit) (.run 1 w) = some s') :
    ∃ q' : Places, Step limit q.rounds q'.rounds ∧ q'.state d limit = s' := by
  obtain ⟨m, ping, pong⟩ := q
  have hearly : ¬ Early limit ⟨m.flag, m.counter, ping.round, pong.round⟩ := by
    intro he
    refine absurd
      (earlyTest_of_early (w := w) (s := Places.state d limit ⟨m, ping, pong⟩) rfl ?_ ?_ he)
      (ne_true_of_eq_false hok)
    · cases ping <;> intro hround <;> first | rfl | cases hround
    · cases pong <;> intro hround <;> first | rfl | cases hround
  cases pong with
  | test =>
    obtain rfl := Option.some.inj h
    by_cases hc : m.counter ≤ limit
    · exact ⟨⟨m, ping, .wait⟩, .pongPass rfl hc hearly, by simp [Places.state, running, hc]; rfl⟩
    · exact ⟨⟨m, ping, .ended⟩, .pongLeave rfl hc, by simp [Places.state, running, hc]; rfl⟩
  | wait =>
    obtain ⟨_, h⟩ := Option.ite_none_right_eq_some.mp h
    obtain rfl := Option.some.inj h
    exact ⟨⟨m, ping, .clear⟩, .stay, rfl⟩
  | clear =>
    cases d <;> obtain rfl := Option.some.inj h <;>
      exact ⟨⟨{ m with flag := false }, ping, .notify⟩, .take rfl, rfl⟩
  | notify =>
    obtain rfl := Option.some.inj h
    exact ⟨⟨m, ping, .test⟩, .pongNotify rfl, rfl⟩
  | ended => exact absurd h (by simp [step, Places.state, PongAt.code, stepThread, instr])

/-- **The threads refine the rounds**, but for early tests. -/
theorem simulation {a : Act} (hok : earlyTest limit (q.state d limit) a = false)
    (h : step sem (q.state d limit) a = some s') :
    ∃ q' : Places, Step limit q.rounds q'.rounds ∧ q'.state d limit = s' := by
  match a with
  | .run 0 w => exact simulation_ping h
  | .run 1 w => exact simulation_pong hok h
  | .run (t + 2) w => exact absurd h (by simp [step, Places.state])
  | .spurious 0 => exact absurd h (by simp [step, Places.state, wake])
  | .spurious 1 => exact absurd h (by simp [step, Places.state, wake])
  | .spurious (t + 2) => exact absurd h (by simp [step, Places.state])

theorem turn_of_reachable {s : PState}
    (hs : (d.system limit).ReachableBy (fun s a => !earlyTest limit s a) s) :
    ∃ q : Places, Turn limit q.rounds ∧ q.state d limit = s := by
  have h0 : Places.state d limit ⟨{ flag := true }, .test, .test⟩ = (d.system limit).init := rfl
  refine reachable_turn (Places.state d limit) Places.rounds h0 (turn_start _ _ _) ?_ hs
  intro q a s' _ hok hst
  exact simulation (by simpa using hok) hst

/-! ### Deadlock freedom -/

/-- `ping` is blocked only in front of a set flag. -/
theorem ping_canRun (hp : q.ping ≠ .ended) (hw : q.ping = .wait → q.data.flag = false) :
    CanRun sem (q.state d limit) 0 := by
  obtain ⟨m, ping, pong⟩ := q
  cases ping with
  | wait =>
    have hf : m.flag = false := hw rfl
    exact ⟨0, (Places.mk m .set pong).state d limit, by
      simp [step, Places.state, PingAt.code, pingBody, waitFor, stepThread, instr, State.set, hf]⟩
  | set => cases d <;> exact ⟨0, _, rfl⟩
  | ended => exact absurd rfl hp
  | _ => exact ⟨0, _, rfl⟩

theorem pong_canRun (hp : q.pong ≠ .ended) (hw : q.pong = .wait → q.data.flag = true) :
    CanRun sem (q.state d limit) 1 := by
  obtain ⟨m, ping, pong⟩ := q
  cases pong with
  | wait =>
    have hf : m.flag = true := hw rfl
    exact ⟨0, (Places.mk m ping .clear).state d limit, by
      simp [step, Places.state, PongAt.code, pongBody, waitFor, stepThread, instr, State.set, hf]⟩
  | clear => cases d <;> exact ⟨0, _, rfl⟩
  | ended => exact absurd rfl hp
  | _ => exact ⟨0, _, rfl⟩

theorem canRun_of_turn (hq : Turn limit q.rounds) (hne : q.ping ≠ .ended ∨ q.pong ≠ .ended) :
    ∃ t, CanRun sem (q.state d limit) t := by
  by_cases hping : q.ping = .ended
  · -- `pong` does not wait for a flag that `ping` will not set
    refine ⟨1, pong_canRun (hne.resolve_left fun h => h hping) ?_⟩
    intro hw
    by_contra hf
    have hret := hq.answered (by rw [Places.rounds, hw]; rfl) (eq_false_of_ne_true hf)
    rw [Places.rounds, hping] at hret
    exact hret
  · by_cases hblocked : q.ping = .wait ∧ q.data.flag = true
    · obtain ⟨hw, hf⟩ := hblocked
      -- a `ping` that waits has read a counter on which `pong` goes on
      have hc : q.data.counter ≤ limit := hq.inside (.inl (by rw [Places.rounds, hw]; rfl))
      refine ⟨1, pong_canRun ?_ fun _ => hf⟩
      intro he
      exact hq.pongEnded (by rw [Places.rounds, he]; rfl) hc
    · refine ⟨0, ping_canRun hping ?_⟩
      intro hw
      by_contra hf
      exact hblocked ⟨hw, eq_true_of_ne_false hf⟩

/-- **Deadlock freedom.**  In every run without an early test, a thread can run
as long as one has not ended. -/
theorem deadlock_free (d : Program) (countlimit : Int32) {s : PState}
    (hs : (d.system countlimit).ReachableBy (fun s a => !earlyTest countlimit s a) s)
    (h : ∃ th ∈ s.threads, th.code ≠ []) : ∃ t, CanRun sem s t := by
  obtain ⟨q, hq, rfl⟩ := turn_of_reachable hs
  apply canRun_of_turn hq
  by_contra hend
  push Not at hend
  obtain ⟨th, hth, hne⟩ := h
  rw [Places.state, hend.1, hend.2] at hth
  rcases List.mem_pair.mp hth with rfl | rfl <;> exact hne rfl

/-- `pong` tests its loop behind the increment and ends, with `ping` in front of
its notification. -/
theorem deadlock_free_zero :
    ∃ s, (Program.pingPongAtomicBool.system 0).ReachableBy (fun s a => !earlyTest 0 s a) s ∧
      (∃ th ∈ s.threads, th.code ≠ []) ∧ ∃ t, CanRun sem s t := by
  obtain ⟨s, hs, hp⟩ := System.exists_reachableBy
    (M := Program.pingPongAtomicBool.system 0)
    (p := fun s => s.threads.any fun th => !th.code.isEmpty) (fun s a => !earlyTest 0 s a)
    (List.replicate 4 (.run 1 0) ++ List.replicate 4 (.run 0 0) ++ [.run 1 0])
    (by decide) (by decide)
  have h : ∃ th ∈ s.threads, th.code ≠ [] := by simpa using hp
  exact ⟨s, hs, h, deadlock_free .pingPongAtomicBool 0 hs h⟩

/-! ### The deadlock -/

theorem not_canRun {m : Memory} (hf : m.flag = false) (t : Nat) :
    ¬ CanRun sem ((Places.mk m .ended .wait).state d limit) t := by
  rintro ⟨w, s', hst⟩
  match t with
  | 0 => exact absurd (show none = some s' from hst) (by simp)
  | 1 =>
    have hst : (if m.flag != false then _ else none) = some s' := hst
    rw [hf] at hst
    exact absurd hst (by simp)
  | t + 2 => exact absurd hst (by simp [step, Places.state])

/-- **Every early test leads to the deadlock**: `pong` passes it, and `ping`
counts the round and ends. -/
theorem deadlock_of_early (hq : Turn limit q.rounds) (he : Early limit q.rounds) :
    ∃ s, (d.system limit).run (q.state d limit) [.run 1 0, .run 0 0, .run 0 0, .run 0 0] = some s ∧
      (∃ th ∈ s.threads, th.code ≠ []) ∧ ∀ t, ¬ CanRun sem s t := by
  obtain ⟨m, ping, pong⟩ := q
  obtain ⟨ht, hf, hh, hl⟩ := he
  have hc : m.counter ≤ limit := hq.inside (.inr hh)
  obtain rfl : ping = .increment := by
    cases ping <;> first | rfl | exact absurd hh (by simp [Places.rounds, PingAt.round])
  obtain rfl : pong = .test := by
    cases pong <;> first | rfl | exact absurd ht (by simp [Places.rounds, PongAt.round])
  let m' : Memory := { m with counter := m.counter + 1 }
  have hf : m'.flag = false := hf
  have hlast : running Memory.counter limit m' = false := decide_eq_false hl
  have hpass : step sem ((Places.mk m .increment .test).state d limit) (.run 1 0)
      = some ((Places.mk m .increment .wait).state d limit) := by
    simp [step, Places.state, stepThread, PongAt.code, Program.pong, pongWith, instr, State.set,
      running, hc]
  have hleave : step sem ((Places.mk m' .test .wait).state d limit) (.run 0 0)
      = some ((Places.mk m' .ended .wait).state d limit) := by
    simp [step, Places.state, stepThread, PingAt.code, Program.ping, pingWith, instr, State.set,
      hlast]
  refine ⟨(Places.mk m' .ended .wait).state d limit, ?_, ⟨_, .tail _ (.head _), ?_⟩,
    fun t => not_canRun hf t⟩
  · show (step sem ((Places.mk m .increment .test).state d limit) (.run 1 0)).bind _ = _
    rw [hpass]
    show (step sem ((Places.mk m' .test .wait).state d limit) (.run 0 0)).bind _ = _
    rw [hleave]
    rfl
  · simp [PongAt.code, pongBody]

/-- **The deadlock.**  `pong` answers the last round and passes its test before
`ping` counts it. -/
theorem deadlock :
    ¬ ∀ (d : Program) (countlimit : Int32) (s : PState), 0 ≤ countlimit →
      (d.system countlimit).Reachable s → (∃ th ∈ s.threads, th.code ≠ []) →
        ∃ t, CanRun sem s t := by
  intro h
  let s := (Places.mk ⟨false, 1⟩ .ended .wait).state .pingPongAtomicBool 0
  have hs : (Program.pingPongAtomicBool.system 0).Reachable s :=
    System.reachable_of_run
      (List.replicate 4 (.run 1 0) ++ List.replicate 3 (.run 0 0) ++ List.replicate 5 (.run 1 0) ++
        List.replicate 3 (.run 0 0)) rfl
  obtain ⟨t, ht⟩ := h .pingPongAtomicBool 0 s (by decide) hs
    ⟨_, .tail _ (.head _), by simp [PongAt.code, pongBody]⟩
  exact not_canRun rfl t ht

end Cpp20Examples.PingPong.OneFlag
