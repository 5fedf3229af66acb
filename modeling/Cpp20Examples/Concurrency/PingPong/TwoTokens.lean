import Cpp20Examples.Lib.Atomics
import Cpp20Examples.Concurrency.PingPong.Baton
import Cpp20Examples.Concurrency.PingPong.Rounds
import Mathlib.Data.List.Basic

/-!
# The ping-pongs with two tokens

`pingPongSemaphore.cpp` and `pingPongAtomicFlags.cpp` have one token for each
direction: `ping` takes its own, counts the round and sets the other one, which
`pong` takes to set the first.  Each acquire, release, wait, clear,
test-and-set, increment and loop test is one step.

* `Tokens`: a program by the operations of its loops, each with what its player is in
  front of it; the tokens show the baton on its way.
* `Tokens.simulation`: when each operation is a step of the baton protocol of
  `Baton.lean`, so is each step of the threads.
* `Tokens.correct`: what the protocol says of such threads.
* `two_tokens`: both programs are correct.
-/

namespace Cpp20Examples.PingPong

open Lib Lib.Atomics

/-! ### `pingPongSemaphore.cpp` -/

namespace Semaphore

structure Memory where
  signal2Ping : Nat
  signal2Pong : Nat
  counter : Int32 := 0
  deriving DecidableEq

inductive Sem
  | signal2Ping
  | signal2Pong
  deriving DecidableEq

def Memory.get (m : Memory) : Sem → Nat
  | .signal2Ping => m.signal2Ping
  | .signal2Pong => m.signal2Pong

def Memory.put (m : Memory) (n : Nat) : Sem → Memory
  | .signal2Ping => { m with signal2Ping := n }
  | .signal2Pong => { m with signal2Pong := n }

inductive Op
  | acquire (s : Sem)
  | release (s : Sem)
  | increment
  deriving DecidableEq

/-- `counting_semaphore<1>`: a release above 1 is undefined.  `counter` is an
`atomic<int>`, which wraps. -/
def sem : Op → Memory → Outcome Memory
  | .acquire s, m => if m.get s = 0 then .blocked else .done (m.put (m.get s - 1) s)
  | .release s, m => if m.get s < 1 then .done (m.put (m.get s + 1) s) else .fault
  | .increment, m => .done { m with counter := m.counter + 1 }

abbrev PCode := Code Op Memory

def pingBody : PCode := [.op (.acquire .signal2Ping), .op .increment, .op (.release .signal2Pong)]

def pongBody : PCode := [.op (.acquire .signal2Pong), .op (.release .signal2Ping)]

def ping (countlimit : Int32) : PCode := [.loop (running Memory.counter countlimit) pingBody]

def pong (countlimit : Int32) : PCode := [.loop (running Memory.counter countlimit) pongBody]

abbrev PState := State Op Memory

/-- `main` releases `signal2Ping` and starts the two threads. -/
def system (countlimit : Int32) : System PState Nat :=
  Atomics.system sem { signal2Ping := 1, signal2Pong := 0 } [ping countlimit, pong countlimit]

/-- The increments of `ping` and the hand-backs of `pong`. -/
def event : Nat × Op → Option Event
  | (0, .increment) => some .increment
  | (1, .release .signal2Ping) => some .handBack
  | _ => none

end Semaphore

/-! ### `pingPongAtomicFlags.cpp` -/

namespace AtomicFlags

structure Memory where
  condAtomicFlag1 : Bool
  condAtomicFlag2 : Bool
  counter : Int32 := 0
  deriving DecidableEq

inductive Flag
  | condAtomicFlag1
  | condAtomicFlag2
  deriving DecidableEq

def Memory.get (m : Memory) : Flag → Bool
  | .condAtomicFlag1 => m.condAtomicFlag1
  | .condAtomicFlag2 => m.condAtomicFlag2

def Memory.put (m : Memory) (b : Bool) : Flag → Memory
  | .condAtomicFlag1 => { m with condAtomicFlag1 := b }
  | .condAtomicFlag2 => { m with condAtomicFlag2 := b }

inductive Op
  | wait (f : Flag) (old : Bool)
  | clear (f : Flag)
  | testAndSet (f : Flag)
  | notifyOne (f : Flag)
  | increment
  deriving DecidableEq

/-- `wait(old)` passes where the flag has another value; a notification wakes a
waiter to look at the flag again, which `wait` does by itself. -/
def sem : Op → Memory → Outcome Memory
  | .wait f old, m => if m.get f = old then .blocked else .done m
  | .clear f, m => .done (m.put false f)
  | .testAndSet f, m => .done (m.put true f)
  | .notifyOne _, m => .done m
  | .increment, m => .done { m with counter := m.counter + 1 }

abbrev PCode := Code Op Memory

def pingBody : PCode :=
  [.op (.wait .condAtomicFlag1 false), .op (.clear .condAtomicFlag1), .op .increment,
    .op (.testAndSet .condAtomicFlag2), .op (.notifyOne .condAtomicFlag2)]

def pongBody : PCode :=
  [.op (.wait .condAtomicFlag2 false), .op (.clear .condAtomicFlag2),
    .op (.testAndSet .condAtomicFlag1), .op (.notifyOne .condAtomicFlag1)]

def ping (countlimit : Int32) : PCode := [.loop (running Memory.counter countlimit) pingBody]

def pong (countlimit : Int32) : PCode := [.loop (running Memory.counter countlimit) pongBody]

abbrev PState := State Op Memory

/-- `main` sets `condAtomicFlag1` and starts the two threads. -/
def system (countlimit : Int32) : System PState Nat :=
  Atomics.system sem { condAtomicFlag1 := true, condAtomicFlag2 := false }
    [ping countlimit, pong countlimit]

/-- The increments of `ping` and the hand-backs of `pong`. -/
def event : Nat × Op → Option Event
  | (0, .increment) => some .increment
  | (1, .testAndSet .condAtomicFlag1) => some .handBack
  | _ => none

end AtomicFlags

/-! ### What is to be shown of a program -/

/-- What a program is looked at for: its tokens, its counter and its events. -/
structure View (ι σ : Type) where
  toPing : σ → Nat
  toPong : σ → Nat
  counter : σ → Int32
  event : Nat × ι → Option Event

/-- The properties of a program with two tokens, over all its reachable states. -/
structure Correct {ι σ : Type} (sem : ι → σ → Outcome σ) (M : System (State ι σ) Nat)
    (v : View ι σ) (countlimit : Int32) : Prop where
  oneToken : ∀ s, M.Reachable s → v.toPing s.data + v.toPong s.data ≤ 1
  noFault : ∀ s, M.Reachable s → s.fault = false
  alternating : ∀ s, M.Reachable s → Alternating (s.history.filterMap v.event)
  deadlockFree : ∀ s, M.Reachable s → (∃ c ∈ s.threads, c ≠ []) → ∃ t, CanRun sem s t
  ended : ∀ s, M.Reachable s → (∀ c ∈ s.threads, c = []) →
    (v.counter s.data).toInt = countlimit.toInt + 1

/-! ### Programs over two tokens -/

inductive Side
  | ping
  | pong
  deriving DecidableEq

def Side.thread : Side → Nat
  | ping => 0
  | pong => 1

/-- The baton on its way to a player. -/
def Side.toward : Side → Baton
  | ping => .toPing
  | pong => .toPong

def Passing.player (r : Passing) : Side → Player
  | .ping => r.ping
  | .pong => r.pong

def Passing.setPlayer (r : Passing) (p : Player) : Side → Passing
  | .ping => { r with ping := p }
  | .pong => { r with pong := p }

/-- A program over two tokens: the operations of the two loops, each with what its player
is in front of it, and the memory that shows the baton. -/
structure Tokens (ι σ : Type) where
  sem : ι → σ → Outcome σ
  view : View ι σ
  ops : Side → List (Player × ι)
  shown : Baton → Int32 → σ

namespace Tokens

section Definitions

variable {ι σ : Type} (d : Tokens ι σ) (limit : Int32)

/-- What a player is in front of the rest of its loop; `none` is behind it. -/
def front : Option (List (Player × ι)) → Player
  | none => .ended
  | some [] => .test
  | some (x :: _) => x.1

/-- The rest of a loop, and the loop itself. -/
def code (side : Side) : Option (List (Player × ι)) → Code ι σ
  | none => []
  | some rest => rest.map (fun x => .op x.2) ++
      [.loop (running d.view.counter limit) ((d.ops side).map fun x => .op x.2)]

def system : System (State ι σ) Nat :=
  Atomics.system d.sem (d.shown .toPing 0)
    [d.code limit .ping (some []), d.code limit .pong (some [])]

/-- The operation `o` of a player, which is `p` in front of it and `p'` behind it, blocks a
player who waits for the baton, or is a step of the protocol. -/
def Moves (side : Side) (p : Player) (o : ι) (p' : Player) : Prop :=
  ∀ r : Passing, Fair limit r → r.player side = p →
    (d.sem o (d.shown r.baton r.counter) = .blocked ∧ p = .waiting ∧ r.baton ≠ side.toward) ∨
    ∃ baton counter, d.sem o (d.shown r.baton r.counter) = .done (d.shown baton counter) ∧
      Pass limit r (Passing.setPlayer ⟨baton, counter, r.ping, r.pong,
        (d.view.event (side.thread, o)).toList ++ r.events⟩ p' side)

/-- Each operation of a list moves its player. -/
def EachMoves (side : Side) : List (Player × ι) → Prop
  | [] => True
  | x :: xs => x.1 ≠ .ended ∧ d.Moves limit side x.1 x.2 (front (some xs)) ∧ EachMoves side xs

/-- The program refines the baton protocol, operation by operation. -/
structure Refines : Prop where
  waits : ∀ side, front (some (d.ops side)) = .waiting
  moves : ∀ side, d.EachMoves limit side (d.ops side)
  toPing : ∀ baton counter,
    d.view.toPing (d.shown baton counter) = if baton = .toPing then 1 else 0
  toPong : ∀ baton counter,
    d.view.toPong (d.shown baton counter) = if baton = .toPong then 1 else 0
  counter : ∀ baton counter, d.view.counter (d.shown baton counter) = counter

/-- The baton, and what is left of the loops of the players. -/
structure Places where
  baton : Baton
  counter : Int32
  place : Side → Option (List (Player × ι))
  history : List (Nat × ι)
  moves : ∀ side, ∀ rest ∈ place side, d.EachMoves limit side rest

end Definitions

variable {ι σ : Type} {d : Tokens ι σ} {limit : Int32}

namespace Places

/-- The state with the threads written out. -/
def state (q : d.Places limit) : State ι σ where
  data := d.shown q.baton q.counter
  threads := [d.code limit .ping (q.place .ping), d.code limit .pong (q.place .pong)]
  history := q.history

def passing (q : d.Places limit) : Passing :=
  ⟨q.baton, q.counter, front (q.place .ping), front (q.place .pong),
    q.history.filterMap d.view.event⟩

/-- One player moves. -/
def put (q : d.Places limit) (side : Side) (p : Option (List (Player × ι)))
    (hp : ∀ rest ∈ p, d.EachMoves limit side rest) (baton : Baton) (counter : Int32)
    (history : List (Nat × ι)) : d.Places limit where
  baton := baton
  counter := counter
  place := Function.update q.place side p
  history := history
  moves := by
    intro u rest hrest
    rcases eq_or_ne u side with rfl | hne
    · rw [Function.update_self] at hrest
      exact hp rest hrest
    · rw [Function.update_of_ne hne] at hrest
      exact q.moves u rest hrest

variable {q : d.Places limit} {side : Side} {p : Option (List (Player × ι))}
  {hp : ∀ rest ∈ p, d.EachMoves limit side rest} {baton : Baton} {counter : Int32}
  {history : List (Nat × ι)}

theorem put_passing : (q.put side p hp baton counter history).passing =
    Passing.setPlayer ⟨baton, counter, q.passing.ping, q.passing.pong,
      history.filterMap d.view.event⟩ (front p) side := by
  cases side <;> rfl

theorem put_state : (q.put side p hp baton counter history).state =
    { q.state with
      data := d.shown baton counter
      threads := q.state.threads.set side.thread (d.code limit side p)
      history := history } := by
  cases side <;> rfl

theorem player_passing : q.passing.player side = front (q.place side) := by
  cases side <;> rfl

theorem step_thread :
    step d.sem q.state side.thread =
      stepCode d.sem q.state side.thread (d.code limit side (q.place side)) := by
  cases side <;> rfl

end Places

/-! ### Each step is one of the protocol -/

theorem filterMap_cons_toList {α β : Type} (f : α → Option β) (x : α) (l : List α) :
    (x :: l).filterMap f = (f x).toList ++ l.filterMap f := by
  cases hx : f x <;> simp [hx]

theorem pass_test {r : Passing} {side : Side} (hp : r.player side = .test)
    (hc : r.counter ≤ limit) : Pass limit r (r.setPlayer .waiting side) := by
  cases side with
  | ping => exact .pingTest hp hc
  | pong => exact .pongTest hp hc

theorem pass_leave {r : Passing} {side : Side} (hp : r.player side = .test)
    (hc : ¬r.counter ≤ limit) : Pass limit r (r.setPlayer .ended side) := by
  cases side with
  | ping => exact .pingLeave hp hc
  | pong => exact .pongLeave hp hc

variable {q : d.Places limit} {s s' : State ι σ}

theorem simulation_side (side : Side) (hd : d.Refines limit) (hq : Fair limit q.passing)
    (h : step d.sem q.state side.thread = some s') :
    ∃ q' : d.Places limit, Pass limit q.passing q'.passing ∧ q'.state = s' := by
  rw [Places.step_thread] at h
  have hplayer : q.passing.player side = front (q.place side) := q.player_passing
  cases hplace : q.place side with
  | none =>
    rw [hplace] at h
    exact absurd h.symm (Option.some_ne_none s')
  | some rest =>
    rw [hplace] at h hplayer
    cases rest with
    | nil =>
      obtain rfl := Option.some.inj h
      have hrun : running d.view.counter limit q.state.data = decide (q.counter ≤ limit) :=
        congrArg (fun c => decide (c ≤ limit)) (hd.counter q.baton q.counter)
      rw [hrun]
      by_cases hc : q.counter ≤ limit
      · rw [if_pos (decide_eq_true hc)]
        have hmoves : ∀ rest ∈ some (d.ops side), d.EachMoves limit side rest := by
          rintro _ ⟨⟩
          exact hd.moves side
        refine ⟨q.put side (some (d.ops side)) hmoves q.baton q.counter q.history, ?_,
          Places.put_state⟩
        rw [Places.put_passing, hd.waits]
        exact pass_test hplayer hc
      · rw [if_neg (by simpa using hc)]
        have hmoves : ∀ rest ∈ none, d.EachMoves limit side rest := nofun
        refine ⟨q.put side none hmoves q.baton q.counter q.history, ?_, Places.put_state⟩
        rw [Places.put_passing]
        exact pass_leave hplayer hc
    | cons x rest =>
      obtain ⟨-, hx, hrest⟩ := q.moves side _ hplace
      simp only [code, List.map_cons, List.cons_append, stepCode] at h
      rcases hx q.passing hq hplayer with ⟨hblocked, -, -⟩ | ⟨baton, counter, hdone, hpass⟩
      · have hblocked : d.sem x.2 q.state.data = .blocked := hblocked
        rw [hblocked] at h
        cases h
      · have hdone : d.sem x.2 q.state.data = .done (d.shown baton counter) := hdone
        rw [hdone] at h
        obtain rfl := Option.some.inj h
        have hmoves : ∀ rest' ∈ some rest, d.EachMoves limit side rest' := by
          rintro _ ⟨⟩
          exact hrest
        refine ⟨q.put side (some rest) hmoves baton counter ((side.thread, x.2) :: q.history), ?_,
          Places.put_state⟩
        rw [Places.put_passing, filterMap_cons_toList]
        exact hpass

/-- **A step of the threads is one of the protocol.** -/
theorem simulation (hd : d.Refines limit) {t : Nat} (hq : Fair limit q.passing)
    (h : (d.system limit).step q.state t = some s') :
    ∃ q' : d.Places limit, Pass limit q.passing q'.passing ∧ q'.state = s' := by
  match t with
  | 0 => exact simulation_side .ping hd hq h
  | 1 => exact simulation_side .pong hd hq h
  | t + 2 => exact absurd h (by simp [system, Atomics.system, step, Places.state])

theorem reachable (hd : d.Refines limit) (hlimit : 0 ≤ limit) (hs : (d.system limit).Reachable s) :
    ∃ q : d.Places limit, Fair limit q.passing ∧ q.state = s := by
  refine hs.invariant (I := fun s => ∃ q : d.Places limit, Fair limit q.passing ∧ q.state = s) ?_ ?_
  · have hmoves : ∀ side, ∀ rest ∈ some [], d.EachMoves limit side rest := by
      rintro side _ ⟨⟩
      trivial
    exact ⟨⟨.toPing, 0, fun _ => some [], [], hmoves⟩, fair_start hlimit, rfl⟩
  · rintro _ t s' ⟨q, hq, rfl⟩ _ hst
    obtain ⟨q', hpass, rfl⟩ := simulation hd hq hst
    exact ⟨q', fair_pass hq hpass, rfl⟩

/-- A player is blocked only where it waits for the baton. -/
theorem canRun (side : Side) (hq : Fair limit q.passing) (he : q.passing.player side ≠ .ended)
    (hw : q.passing.player side = .waiting → q.passing.baton = side.toward) :
    CanRun d.sem q.state side.thread := by
  rw [CanRun, Places.step_thread]
  have hplayer : q.passing.player side = front (q.place side) := q.player_passing
  cases hplace : q.place side with
  | none =>
    rw [hplace] at hplayer
    exact absurd hplayer he
  | some rest =>
    rw [hplace] at hplayer
    cases rest with
    | nil => exact ⟨_, rfl⟩
    | cons x rest =>
      obtain ⟨-, hx, -⟩ := q.moves side _ hplace
      simp only [code, List.map_cons, List.cons_append, stepCode]
      rcases hx q.passing hq hplayer with ⟨-, hwaits, hne⟩ | ⟨baton, counter, hdone, -⟩
      · exact absurd (hw (hplayer.trans hwaits)) hne
      · have hdone : d.sem x.2 q.state.data = .done (d.shown baton counter) := hdone
        rw [hdone]
        exact ⟨_, rfl⟩

theorem code_eq_nil_iff (side : Side) :
    d.code limit side (q.place side) = [] ↔ q.passing.player side = .ended := by
  rw [q.player_passing]
  cases hplace : q.place side with
  | none => exact iff_of_true rfl rfl
  | some rest =>
    refine iff_of_false (by simp [code]) ?_
    cases rest with
    | nil => exact nofun
    | cons x rest => exact (q.moves side _ hplace).1

/-- **A program that refines the baton protocol is correct.** -/
theorem correct (hd : d.Refines limit) (hlimit : 0 ≤ limit) :
    Correct d.sem (d.system limit) d.view limit where
  oneToken s hs := by
    obtain ⟨q, -, rfl⟩ := reachable hd hlimit hs
    show d.view.toPing (d.shown q.baton q.counter) + d.view.toPong (d.shown q.baton q.counter) ≤ 1
    rw [hd.toPing, hd.toPong]
    cases q.baton <;> simp
  noFault s hs := by
    obtain ⟨q, -, rfl⟩ := reachable hd hlimit hs
    rfl
  alternating s hs := by
    obtain ⟨q, hq, rfl⟩ := reachable hd hlimit hs
    exact hq.alternating
  deadlockFree s hs hne := by
    obtain ⟨q, hq, rfl⟩ := reachable hd hlimit hs
    have hne : q.passing.ping ≠ .ended ∨ q.passing.pong ≠ .ended := by
      by_contra hend
      push Not at hend
      obtain ⟨c, hc, hne⟩ := hne
      rcases List.mem_pair.mp hc with rfl | rfl
      · exact hne ((code_eq_nil_iff .ping).mpr hend.1)
      · exact hne ((code_eq_nil_iff .pong).mpr hend.2)
    rcases hq.progress hne with ⟨he, hw⟩ | ⟨he, hw⟩
    · exact ⟨0, canRun .ping hq he hw⟩
    · exact ⟨1, canRun .pong hq he hw⟩
  ended s hs hend := by
    obtain ⟨q, hq, rfl⟩ := reachable hd hlimit hs
    have hp : q.passing.ping = .ended :=
      (code_eq_nil_iff .ping).mp (hend _ (.head _))
    show (d.view.counter (d.shown q.baton q.counter)).toInt = limit.toInt + 1
    rw [hd.counter]
    exact hq.counter.resolve_left (hq.pingEnded hp)

end Tokens

/-! ### The semaphores refine the protocol -/

namespace Semaphore

def view : View Op Memory := ⟨Memory.signal2Ping, Memory.signal2Pong, Memory.counter, event⟩

/-- The operations of the bodies, and the memory that shows the baton. -/
def tokens : Tokens Op Memory where
  sem := sem
  view := view
  ops
    | .ping => [(.waiting, .acquire .signal2Ping), (.holding, .increment),
        (.counted, .release .signal2Pong)]
    | .pong => [(.waiting, .acquire .signal2Pong), (.holding, .release .signal2Ping)]
  shown baton counter :=
    { signal2Ping := if baton = .toPing then 1 else 0
      signal2Pong := if baton = .toPong then 1 else 0
      counter := counter }

variable {limit : Int32}

theorem acquire_ping : tokens.Moves limit .ping .waiting (.acquire .signal2Ping) .holding := by
  rintro ⟨baton, counter, ping, pong, events⟩ - hping
  cases baton with
  | toPing => exact .inr ⟨.withPing, counter, rfl, .pingTake (.inl hping) rfl⟩
  | _ => exact .inl ⟨rfl, rfl, nofun⟩

theorem acquire_pong : tokens.Moves limit .pong .waiting (.acquire .signal2Pong) .holding := by
  rintro ⟨baton, counter, ping, pong, events⟩ - hpong
  cases baton with
  | toPong => exact .inr ⟨.withPong, counter, rfl, .pongTake (.inl hpong) rfl⟩
  | _ => exact .inl ⟨rfl, rfl, nofun⟩

theorem increment : tokens.Moves limit .ping .holding .increment .counted :=
  fun r _ hping => .inr ⟨r.baton, r.counter + 1, rfl, .count hping⟩

theorem release_ping : tokens.Moves limit .ping .counted (.release .signal2Pong) .test := by
  rintro ⟨baton, counter, ping, pong, events⟩ hr hping
  obtain rfl : baton = .withPing := hr.withPing.mpr (.inr hping)
  exact .inr ⟨.toPong, counter, rfl, .handOver hping⟩

theorem release_pong : tokens.Moves limit .pong .holding (.release .signal2Ping) .test := by
  rintro ⟨baton, counter, ping, pong, events⟩ hr hpong
  obtain rfl : baton = .withPong := hr.withPong.mpr hpong
  exact .inr ⟨.toPing, counter, rfl, .handBack hpong⟩

theorem refines (limit : Int32) : tokens.Refines limit where
  waits side := by cases side <;> rfl
  moves side := by
    cases side with
    | ping => exact ⟨nofun, acquire_ping, nofun, increment, nofun, release_ping, trivial⟩
    | pong => exact ⟨nofun, acquire_pong, nofun, release_pong, trivial⟩
  toPing _ _ := rfl
  toPong _ _ := rfl
  counter _ _ := rfl

end Semaphore

/-! ### The flags refine the protocol -/

namespace AtomicFlags

def view : View Op Memory where
  toPing m := m.condAtomicFlag1.toNat
  toPong m := m.condAtomicFlag2.toNat
  counter := Memory.counter
  event := event

/-- The operations of the bodies, and the memory that shows the baton.  In front of its
notification a player has given the baton away already. -/
def tokens : Tokens Op Memory where
  sem := sem
  view := view
  ops
    | .ping => [(.waiting, .wait .condAtomicFlag1 false), (.seen, .clear .condAtomicFlag1),
        (.holding, .increment), (.counted, .testAndSet .condAtomicFlag2),
        (.test, .notifyOne .condAtomicFlag2)]
    | .pong => [(.waiting, .wait .condAtomicFlag2 false), (.seen, .clear .condAtomicFlag2),
        (.holding, .testAndSet .condAtomicFlag1), (.test, .notifyOne .condAtomicFlag1)]
  shown baton counter :=
    { condAtomicFlag1 := baton = .toPing
      condAtomicFlag2 := baton = .toPong
      counter := counter }

variable {limit : Int32}

theorem wait_ping : tokens.Moves limit .ping .waiting (.wait .condAtomicFlag1 false) .seen := by
  rintro ⟨baton, counter, ping, pong, events⟩ - hping
  cases baton with
  | toPing => exact .inr ⟨.toPing, counter, rfl, .pingSee hping rfl⟩
  | _ => exact .inl ⟨rfl, rfl, nofun⟩

theorem wait_pong : tokens.Moves limit .pong .waiting (.wait .condAtomicFlag2 false) .seen := by
  rintro ⟨baton, counter, ping, pong, events⟩ - hpong
  cases baton with
  | toPong => exact .inr ⟨.toPong, counter, rfl, .pongSee hpong rfl⟩
  | _ => exact .inl ⟨rfl, rfl, nofun⟩

theorem clear_ping : tokens.Moves limit .ping .seen (.clear .condAtomicFlag1) .holding := by
  rintro ⟨baton, counter, ping, pong, events⟩ hr hping
  obtain rfl : baton = .toPing := hr.pingSeen hping
  exact .inr ⟨.withPing, counter, rfl, .pingTake (.inr hping) rfl⟩

theorem clear_pong : tokens.Moves limit .pong .seen (.clear .condAtomicFlag2) .holding := by
  rintro ⟨baton, counter, ping, pong, events⟩ hr hpong
  obtain rfl : baton = .toPong := hr.pongSeen hpong
  exact .inr ⟨.withPong, counter, rfl, .pongTake (.inr hpong) rfl⟩

theorem increment : tokens.Moves limit .ping .holding .increment .counted :=
  fun r _ hping => .inr ⟨r.baton, r.counter + 1, rfl, .count hping⟩

theorem set_ping : tokens.Moves limit .ping .counted (.testAndSet .condAtomicFlag2) .test := by
  rintro ⟨baton, counter, ping, pong, events⟩ hr hping
  obtain rfl : baton = .withPing := hr.withPing.mpr (.inr hping)
  exact .inr ⟨.toPong, counter, rfl, .handOver hping⟩

theorem set_pong : tokens.Moves limit .pong .holding (.testAndSet .condAtomicFlag1) .test := by
  rintro ⟨baton, counter, ping, pong, events⟩ hr hpong
  obtain rfl : baton = .withPong := hr.withPong.mpr hpong
  exact .inr ⟨.toPing, counter, rfl, .handBack hpong⟩

theorem notify {side : Side} {f : Flag} : tokens.Moves limit side .test (.notifyOne f) .test := by
  rintro ⟨baton, counter, ping, pong, events⟩ - htest
  refine .inr ⟨baton, counter, rfl, ?_⟩
  cases side with
  | ping =>
    obtain rfl : ping = .test := htest
    exact .stay
  | pong =>
    obtain rfl : pong = .test := htest
    exact .stay

theorem refines (limit : Int32) : tokens.Refines limit where
  waits side := by cases side <;> rfl
  moves side := by
    cases side with
    | ping =>
      exact ⟨nofun, wait_ping, nofun, clear_ping, nofun, increment, nofun, set_ping, nofun, notify,
        trivial⟩
    | pong => exact ⟨nofun, wait_pong, nofun, clear_pong, nofun, set_pong, nofun, notify, trivial⟩
  toPing baton _ := by cases baton <;> rfl
  toPong baton _ := by cases baton <;> rfl
  counter _ _ := rfl

end AtomicFlags

/-- **Both programs with two tokens are correct**: never two tokens, no release above
the maximum, increments and hand-backs in turn, no deadlock, and `countlimit + 1`
rounds. -/
theorem two_tokens (countlimit : Int32) (h : 0 ≤ countlimit) :
    Correct Semaphore.sem (Semaphore.system countlimit) Semaphore.view countlimit ∧
      Correct AtomicFlags.sem (AtomicFlags.system countlimit) AtomicFlags.view countlimit :=
  ⟨Tokens.correct (Semaphore.refines countlimit) h,
    Tokens.correct (AtomicFlags.refines countlimit) h⟩

/-- The two threads of a run with one round have ended. -/
theorem two_tokens_zero :
    (∃ s, (Semaphore.system 0).Reachable s ∧ (∀ c ∈ s.threads, c = []) ∧ s.data.counter = 1) ∧
      Correct Semaphore.sem (Semaphore.system 0) Semaphore.view 0 ∧
      Correct AtomicFlags.sem (AtomicFlags.system 0) AtomicFlags.view 0 := by
  refine ⟨?_, two_tokens 0 (by decide)⟩
  obtain ⟨s, hs, hp⟩ := System.exists_reachable (M := Semaphore.system 0)
    (p := fun s => s.threads.all List.isEmpty && s.data.counter == 1) [0, 1, 0, 0, 0, 1, 1, 0, 1]
    (by decide)
  obtain ⟨hend, hc⟩ : (∀ c ∈ s.threads, c = []) ∧ s.data.counter = 1 := by simpa using hp
  exact ⟨s, hs, hend, hc⟩

end Cpp20Examples.PingPong
