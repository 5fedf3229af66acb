import Cpp20Examples.Lib.Monitor
import Cpp20Examples.Concurrency.PingPong.Rounds

/-!
# The ping-pong with two condition variables

`pingPongConditionVariable.cpp` hands `dataReady` back and forth under a mutex;
`ping` counts the round outside the mutex, behind its critical section.

So `pong` can answer, pass its loop test on the old counter and fall asleep for
good while `ping` counts the last round and ends (`pong_left_asleep`).  The
threads refine the rounds of `Rounds.lean` in the runs without such a test
(`simulation`), and there nobody is left asleep (`nobody_left_asleep`).
-/

namespace Cpp20Examples.PingPong.ConditionVariable

open Lib Lib.Monitor

structure Memory where
  dataReady : Bool := false
  counter : Int32 := 0
  deriving DecidableEq

inductive Op
  | setDataReady (b : Bool)
  | increment

inductive CondVar
  | condVar1
  | condVar2
  deriving DecidableEq

def sem : Op → Memory → Unit → Option (Memory × Unit)
  | .setDataReady b, m, _ => some ({ m with dataReady := b }, ())
  | .increment, m, _ => some ({ m with counter := m.counter + 1 }, ())

abbrev PCode := Code Op CondVar Memory

def pingBody : PCode :=
  [.lock, .wait .condVar1 fun m => m.dataReady == false, .exec (.setDataReady true), .unlock,
    .exec .increment, .notifyOne .condVar2]

def pongBody : PCode :=
  [.lock, .wait .condVar2 fun m => m.dataReady == true, .exec (.setDataReady false), .unlock,
    .notifyOne .condVar1]

def ping (countlimit : Int32) : PCode := [.loop (running Memory.counter countlimit) pingBody]

def pong (countlimit : Int32) : PCode := [.loop (running Memory.counter countlimit) pongBody]

abbrev PThread := Thread Op CondVar Memory Unit

abbrev PState := State Op CondVar Memory Unit

/-- `main` starts the two threads. -/
def system (countlimit : Int32) : System PState Act :=
  Monitor.system sem {} [⟨ping countlimit, .running, ()⟩, ⟨pong countlimit, .running, ()⟩]

/-! ### The early test -/

/-- `ping` has set `dataReady` and not counted the round. -/
def beforeIncrement (th : PThread) : Bool :=
  match th.code with
  | .unlock :: .exec .increment :: _ => true
  | .exec .increment :: _ => true
  | _ => false

/-- The early test of the rounds. -/
def earlyTest : Int32 → PState → Act → Bool :=
  PingPong.earlyTest beforeIncrement Memory.dataReady Memory.counter

/-! ### The threads at their places -/

inductive PingAt
  | test
  | lock
  | wait (status : Status CondVar)
  | set
  | unlock
  | increment
  | notify
  | ended

inductive PongAt
  | test
  | lock
  | wait (status : Status CondVar)
  | set
  | unlock
  | notify
  | ended

section Places

variable (limit : Int32)

def PingAt.thread : PingAt → PThread
  | test => ⟨ping limit, .running, ()⟩
  | lock => ⟨pingBody ++ ping limit, .running, ()⟩
  | wait status => ⟨pingBody.drop 1 ++ ping limit, status, ()⟩
  | set => ⟨pingBody.drop 2 ++ ping limit, .running, ()⟩
  | unlock => ⟨pingBody.drop 3 ++ ping limit, .running, ()⟩
  | increment => ⟨pingBody.drop 4 ++ ping limit, .running, ()⟩
  | notify => ⟨pingBody.drop 5 ++ ping limit, .running, ()⟩
  | ended => ⟨[], .running, ()⟩

def PongAt.thread : PongAt → PThread
  | test => ⟨pong limit, .running, ()⟩
  | lock => ⟨pongBody ++ pong limit, .running, ()⟩
  | wait status => ⟨pongBody.drop 1 ++ pong limit, status, ()⟩
  | set => ⟨pongBody.drop 2 ++ pong limit, .running, ()⟩
  | unlock => ⟨pongBody.drop 3 ++ pong limit, .running, ()⟩
  | notify => ⟨pongBody.drop 4 ++ pong limit, .running, ()⟩
  | ended => ⟨[], .running, ()⟩

def PingAt.round : PingAt → Ping
  | test => .test
  | lock | wait _ | set => .inside
  | unlock | increment => .handed
  | notify => .notifying
  | ended => .ended

def PongAt.round : PongAt → Pong
  | test => .test
  | lock | wait _ | set => .inside
  | unlock | notify => .notifying
  | ended => .ended

structure Places where
  data : Memory
  owner : Option Nat
  ping : PingAt
  pong : PongAt

/-- The state with the threads written out. -/
def Places.state (q : Places) : PState where
  data := q.data
  owner := q.owner
  threads := [q.ping.thread limit, q.pong.thread limit]

/-- The round that the threads are in. -/
def Places.rounds (q : Places) : Rounds :=
  ⟨q.data.dataReady, q.data.counter, q.ping.round, q.pong.round⟩

end Places

variable {limit : Int32} {q : Places} {w : Nat} {s' : PState}

/-- The notification of `ping` wakes `pong` or nobody. -/
theorem notify_pong {m : Memory} {owner : Option Nat} {pong : PongAt}
    (h : Monitor.notify .condVar2 ((Places.mk m owner .notify pong).state limit) 0 w
      (PingAt.test.thread limit) = some s') :
    ∃ pong' : PongAt, pong'.round = pong.round ∧
      (Places.mk m owner .test pong').state limit = s' := by
  rcases notify_cases h with ⟨sleeper, hw, hsl, rfl⟩ | ⟨_, rfl⟩
  · rcases getElem?_pair_cases hw with ⟨rfl, rfl⟩ | ⟨rfl, rfl⟩
    · exact absurd hsl (by simp [Thread.sleepsOn, PingAt.thread])
    · cases pong with
      | wait st => exact ⟨.wait .woken, rfl, rfl⟩
      | _ => exact absurd hsl (by simp [Thread.sleepsOn, PongAt.thread])
  · exact ⟨pong, rfl, rfl⟩

theorem notify_ping {m : Memory} {owner : Option Nat} {ping : PingAt}
    (h : Monitor.notify .condVar1 ((Places.mk m owner ping .notify).state limit) 1 w
      (PongAt.test.thread limit) = some s') :
    ∃ ping' : PingAt, ping'.round = ping.round ∧
      (Places.mk m owner ping' .test).state limit = s' := by
  rcases notify_cases h with ⟨sleeper, hw, hsl, rfl⟩ | ⟨_, rfl⟩
  · rcases getElem?_pair_cases hw with ⟨rfl, rfl⟩ | ⟨rfl, rfl⟩
    · cases ping with
      | wait st => exact ⟨.wait .woken, rfl, rfl⟩
      | _ => exact absurd hsl (by simp [Thread.sleepsOn, PingAt.thread])
    · exact absurd hsl (by simp [Thread.sleepsOn, PongAt.thread])
  · exact ⟨ping, rfl, rfl⟩

theorem simulation_ping (ho : Ownership (q.state limit).owner (q.state limit).threads)
    (h : step sem (q.state limit) (.run 0 w) = some s') :
    ∃ q' : Places, Step limit q.rounds q'.rounds ∧ q'.state limit = s' := by
  have hown : Holds (q.state limit).owner 0 (q.ping.thread limit) := ho 0 _ rfl
  obtain ⟨m, owner, ping, pong⟩ := q
  have hst : stepThread sem (Places.state limit ⟨m, owner, ping, pong⟩) 0 w (ping.thread limit)
      = some s' := h
  cases ping with
  | test =>
    obtain rfl := Option.some.inj h
    by_cases hc : m.counter ≤ limit
    · exact ⟨⟨m, owner, .lock, pong⟩, .pingPass rfl hc, by simp [Places.state, running, hc]; rfl⟩
    · exact ⟨⟨m, owner, .ended, pong⟩, .pingLeave rfl hc, by simp [Places.state, running, hc]; rfl⟩
  | lock =>
    obtain ⟨_, h⟩ := Option.ite_none_right_eq_some.mp h
    obtain rfl := Option.some.inj h
    exact ⟨⟨m, some 0, .wait .running, pong⟩, .stay, rfl⟩
  | wait st =>
    rcases stepThread_wait hown hst with ⟨_, _, rfl⟩ | ⟨_, _, rfl⟩ | ⟨_, _, rfl⟩
    · exact ⟨⟨m, some 0, .wait .retesting, pong⟩, .stay, rfl⟩
    · exact ⟨⟨m, owner, .set, pong⟩, .stay, rfl⟩
    · exact ⟨⟨m, none, .wait (.asleep .condVar1), pong⟩, .stay, rfl⟩
  | set =>
    obtain rfl := Option.some.inj h
    exact ⟨⟨{ m with dataReady := true }, owner, .unlock, pong⟩, .handOver rfl, rfl⟩
  | unlock =>
    obtain rfl := stepThread_unlock hown hst
    exact ⟨⟨m, none, .increment, pong⟩, .stay, rfl⟩
  | increment =>
    obtain rfl := Option.some.inj h
    exact ⟨⟨{ m with counter := m.counter + 1 }, owner, .notify, pong⟩, .count rfl, rfl⟩
  | notify =>
    obtain ⟨pong', hr, rfl⟩ := notify_pong hst
    refine ⟨⟨m, owner, .test, pong'⟩, ?_, rfl⟩
    have hstep : Step limit (Places.rounds ⟨m, owner, .notify, pong⟩)
        ⟨m.dataReady, m.counter, .test, pong.round⟩ := .pingNotify rfl
    rw [← hr] at hstep
    exact hstep
  | ended => exact absurd h (by simp [step, Places.state, PingAt.thread, stepThread, instr])

theorem not_early (hok : earlyTest limit (q.state limit) (.run 1 w) = false) :
    ¬ Early limit q.rounds := by
  obtain ⟨m, owner, ping, pong⟩ := q
  intro he
  refine absurd (earlyTest_of_early (w := w) (s := Places.state limit ⟨m, owner, ping, pong⟩) rfl
    ?_ ?_ he) (ne_true_of_eq_false hok)
  · cases ping <;> intro hround <;> first | rfl | cases hround
  · cases pong <;> intro hround <;> first | rfl | cases hround

theorem simulation_pong (ho : Ownership (q.state limit).owner (q.state limit).threads)
    (h : step sem (q.state limit) (.run 1 w) = some s') :
    ∃ q' : Places, (¬ Early limit q.rounds → Step limit q.rounds q'.rounds) ∧
      q'.state limit = s' := by
  have hown : Holds (q.state limit).owner 1 (q.pong.thread limit) := ho 1 _ rfl
  obtain ⟨m, owner, ping, pong⟩ := q
  have hst : stepThread sem (Places.state limit ⟨m, owner, ping, pong⟩) 1 w (pong.thread limit)
      = some s' := h
  cases pong with
  | test =>
    obtain rfl := Option.some.inj h
    by_cases hc : m.counter ≤ limit
    · exact ⟨⟨m, owner, ping, .lock⟩, .pongPass rfl hc, by simp [Places.state, running, hc]; rfl⟩
    · exact ⟨⟨m, owner, ping, .ended⟩, fun _ => .pongLeave rfl hc,
        by simp [Places.state, running, hc]; rfl⟩
  | lock =>
    obtain ⟨_, h⟩ := Option.ite_none_right_eq_some.mp h
    obtain rfl := Option.some.inj h
    exact ⟨⟨m, some 1, ping, .wait .running⟩, fun _ => .stay, rfl⟩
  | wait st =>
    rcases stepThread_wait hown hst with ⟨_, _, rfl⟩ | ⟨_, _, rfl⟩ | ⟨_, _, rfl⟩
    · exact ⟨⟨m, some 1, ping, .wait .retesting⟩, fun _ => .stay, rfl⟩
    · exact ⟨⟨m, owner, ping, .set⟩, fun _ => .stay, rfl⟩
    · exact ⟨⟨m, none, ping, .wait (.asleep .condVar2)⟩, fun _ => .stay, rfl⟩
  | set =>
    obtain rfl := Option.some.inj h
    exact ⟨⟨{ m with dataReady := false }, owner, ping, .unlock⟩, fun _ => .take rfl, rfl⟩
  | unlock =>
    obtain rfl := stepThread_unlock hown hst
    exact ⟨⟨m, none, ping, .notify⟩, fun _ => .stay, rfl⟩
  | notify =>
    obtain ⟨ping', hr, rfl⟩ := notify_ping hst
    refine ⟨⟨m, owner, ping', .test⟩, ?_, rfl⟩
    intro _
    have hstep : Step limit (Places.rounds ⟨m, owner, ping, .notify⟩)
        ⟨m.dataReady, m.counter, ping.round, .test⟩ := .pongNotify rfl
    rw [← hr] at hstep
    exact hstep
  | ended => exact absurd h (by simp [step, Places.state, PongAt.thread, stepThread, instr])

theorem simulation_spurious {t : Nat} (h : step sem (q.state limit) (.spurious t) = some s') :
    ∃ q' : Places, q'.rounds = q.rounds ∧ q'.state limit = s' := by
  obtain ⟨m, owner, ping, pong⟩ := q
  obtain ⟨th, hth, h⟩ := Option.bind_eq_some_iff.mp h
  obtain ⟨cv, hcv, rfl⟩ := wake_cases h
  rcases getElem?_pair_cases hth with ⟨rfl, rfl⟩ | ⟨rfl, rfl⟩
  · cases ping with
    | wait st => exact ⟨⟨m, owner, .wait .woken, pong⟩, rfl, rfl⟩
    | _ => cases hcv
  · cases pong with
    | wait st => exact ⟨⟨m, owner, ping, .wait .woken⟩, rfl, rfl⟩
    | _ => cases hcv

/-- **The threads refine the rounds**, but for early tests. -/
theorem simulation {a : Act} (ho : Ownership (q.state limit).owner (q.state limit).threads)
    (h : step sem (q.state limit) a = some s') :
    ∃ q' : Places, (earlyTest limit (q.state limit) a = false → Step limit q.rounds q'.rounds) ∧
      q'.state limit = s' := by
  match a with
  | .run 0 w =>
    obtain ⟨q', hstep, rfl⟩ := simulation_ping ho h
    exact ⟨q', fun _ => hstep, rfl⟩
  | .run 1 w =>
    obtain ⟨q', hstep, rfl⟩ := simulation_pong ho h
    exact ⟨q', fun hok => hstep (not_early hok), rfl⟩
  | .run (t + 2) w => exact absurd h (by simp [step, Places.state])
  | .spurious t =>
    obtain ⟨q', hr, rfl⟩ := simulation_spurious h
    exact ⟨q', fun _ => hr ▸ .stay, rfl⟩

theorem turn_of_reachable {s : PState}
    (hs : (system limit).ReachableBy (fun s a => !earlyTest limit s a) s) :
    ∃ q : Places, Turn limit q.rounds ∧ q.state limit = s := by
  have h0 : Places.state limit ⟨{}, none, .test, .test⟩ = (system limit).init := rfl
  refine reachable_turn (Places.state limit) Places.rounds h0 (turn_start _ _ _) ?_ hs
  intro q a s' hs hok hst
  have ho : Ownership (q.state limit).owner (q.state limit).threads := by
    refine ownership ?_ hs
    intro th hth
    rcases List.mem_pair.mp hth with rfl | rfl <;> simp [ping, pingBody, pong, pongBody]
  obtain ⟨q', hstep, rfl⟩ := simulation ho hst
  exact ⟨q', hstep (by simpa using hok), rfl⟩

/-! ### Nobody is left asleep -/

/-- `ping` has ended, and `pong` sleeps in `condVar2.wait` with `dataReady` false. -/
def PongLeft (s : PState) : Prop :=
  ∃ ping pong, s.threads = [ping, pong] ∧ ping.code = [] ∧ pong.status = .asleep .condVar2 ∧
    s.data.dataReady = false

/-- `pong` has ended, and `ping` sleeps in `condVar1.wait` with `dataReady` true. -/
def PingLeft (s : PState) : Prop :=
  ∃ ping pong, s.threads = [ping, pong] ∧ pong.code = [] ∧ ping.status = .asleep .condVar1 ∧
    s.data.dataReady = true

theorem round_of_ping {p : PingAt} :
    ((p.thread limit).code = [] → p.round = .ended) ∧
      ((p.thread limit).status ≠ .running → p.round = .inside) := by
  cases p <;> simp [PingAt.thread, PingAt.round, ping, pingBody]

theorem round_of_pong {p : PongAt} :
    ((p.thread limit).code = [] → p.round = .ended) ∧
      ((p.thread limit).status ≠ .running → p.round = .inside) := by
  cases p <;> simp [PongAt.thread, PongAt.round, pong, pongBody]

/-- **Nobody is left asleep.**  In every run without an early test, no player
sleeps for a `dataReady` that the other one will not change any more. -/
theorem nobody_left_asleep (countlimit : Int32) {s : PState}
    (hs : (system countlimit).ReachableBy (fun s a => !earlyTest countlimit s a) s) :
    ¬ PongLeft s ∧ ¬ PingLeft s := by
  obtain ⟨q, hq, rfl⟩ := turn_of_reachable hs
  constructor
  · rintro ⟨ping, pong, hth, hend, hsl, hf⟩
    obtain ⟨rfl, rfl⟩ : q.ping.thread countlimit = ping ∧ q.pong.thread countlimit = pong := by
      simpa [Places.state] using hth
    have hping : q.rounds.ping = .ended := round_of_ping.1 hend
    have hpong : q.rounds.pong = .inside := round_of_pong.2 (by rw [hsl]; simp)
    have hret := hq.answered hpong hf
    rw [hping] at hret
    exact hret
  · rintro ⟨ping, pong, hth, hend, hsl, _⟩
    obtain ⟨rfl, rfl⟩ : q.ping.thread countlimit = ping ∧ q.pong.thread countlimit = pong := by
      simpa [Places.state] using hth
    have hping : q.rounds.ping = .inside := round_of_ping.2 (by rw [hsl]; simp)
    have hpong : q.rounds.pong = .ended := round_of_pong.1 hend
    exact hq.pongEnded hpong (hq.inside (.inl hping))

/-- `pong` falls asleep first, and `ping` has counted its only round and ended. -/
theorem nobody_left_asleep_zero :
    ∃ s, (system 0).ReachableBy (fun s a => !earlyTest 0 s a) s ∧ s.data.counter = 1 ∧
      s.data.dataReady = true ∧ ¬ PongLeft s ∧ ¬ PingLeft s := by
  obtain ⟨s, hs, hp⟩ := System.exists_reachableBy (M := system 0)
    (p := fun s => s.data == ⟨true, 1⟩) (fun s a => !earlyTest 0 s a)
    (List.replicate 3 (.run 1 0) ++ List.replicate 8 (.run 0 1)) (by decide) (by decide)
  have hd : s.data = ⟨true, 1⟩ := by simpa using hp
  exact ⟨s, hs, by rw [hd], by rw [hd], nobody_left_asleep 0 hs⟩

/-- **`pong` is left asleep.**  It answers the last round and passes its test
before `ping` counts it; the notification of `ping` wakes it in vain. -/
theorem pong_left_asleep :
    ¬ ∀ (countlimit : Int32) (s : PState), 0 ≤ countlimit → (system countlimit).Reachable s →
      ¬ PongLeft s ∧ ¬ PingLeft s := by
  intro h
  let s := (Places.mk ⟨false, 1⟩ none .ended (.wait (.asleep .condVar2))).state 0
  have hs : (system 0).Reachable s :=
    System.reachable_of_run
      (List.replicate 5 (.run 0 0) ++ List.replicate 9 (.run 1 0) ++ List.replicate 3 (.run 0 1) ++
        List.replicate 2 (.run 1 0)) rfl
  exact (h 0 s (by decide) hs).1 ⟨_, _, rfl, rfl, rfl, rfl⟩

end Cpp20Examples.PingPong.ConditionVariable
