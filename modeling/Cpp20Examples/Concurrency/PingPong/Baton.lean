import Cpp20Examples.Lib.Arith
import Mathlib.Tactic.Common

/-!
# A baton between two players

The abstract protocol of the ping-pong programs with two tokens.  There is one
baton: on its way to `ping`, with `ping`, on its way to `pong`, or with `pong`.
`ping` takes it, counts the round and hands it over; `pong` takes it and hands it
back.  That the baton is in one place is its type; the programs show each token
as the baton on its way to one player.

Since the round is counted before the baton is handed over, a `pong` that waits
for the baton will get it (`Fair.pongWaits`): in the last round too, one of the
two players can move (`Fair.progress`).
-/

namespace Cpp20Examples.PingPong

open Lib

inductive Baton
  | toPing
  | withPing
  | toPong
  | withPong
  deriving DecidableEq

/-- Where a player is in a round. -/
inductive Player
  | test
  | waiting
  /-- the baton is seen and not yet taken -/
  | seen
  | holding
  /-- `ping` has counted the round -/
  | counted
  | ended
  deriving DecidableEq

inductive Event
  | increment
  | handBack
  deriving DecidableEq

/-- The event that is due behind those of a list, newest first. -/
def due : List Event → Event
  | .increment :: _ => .handBack
  | _ => .increment

/-- Increments and hand-backs strictly alternate, an increment first. -/
inductive Alternating : List Event → Prop
  | nil : Alternating []
  | cons {es : List Event} : Alternating es → Alternating (due es :: es)

structure Passing where
  baton : Baton
  counter : Int32
  ping : Player
  pong : Player
  events : List Event

/-- One step of a player. -/
inductive Pass (limit : Int32) (r : Passing) : Passing → Prop
  | stay : Pass limit r r
  | pingTest : r.ping = .test → r.counter ≤ limit → Pass limit r { r with ping := .waiting }
  | pingLeave : r.ping = .test → ¬ r.counter ≤ limit → Pass limit r { r with ping := .ended }
  | pingSee : r.ping = .waiting → r.baton = .toPing → Pass limit r { r with ping := .seen }
  | pingTake : r.ping = .waiting ∨ r.ping = .seen → r.baton = .toPing →
      Pass limit r { r with baton := .withPing, ping := .holding }
  | count : r.ping = .holding →
      Pass limit r
        { r with counter := r.counter + 1, ping := .counted, events := .increment :: r.events }
  | handOver : r.ping = .counted → Pass limit r { r with baton := .toPong, ping := .test }
  | pongTest : r.pong = .test → r.counter ≤ limit → Pass limit r { r with pong := .waiting }
  | pongLeave : r.pong = .test → ¬ r.counter ≤ limit → Pass limit r { r with pong := .ended }
  | pongSee : r.pong = .waiting → r.baton = .toPong → Pass limit r { r with pong := .seen }
  | pongTake : r.pong = .waiting ∨ r.pong = .seen → r.baton = .toPong →
      Pass limit r { r with baton := .withPong, pong := .holding }
  | handBack : r.pong = .holding →
      Pass limit r { r with baton := .toPing, pong := .test, events := .handBack :: r.events }

/-- What holds in every state of the protocol. -/
structure Fair (limit : Int32) (r : Passing) : Prop where
  withPing : r.baton = .withPing ↔ r.ping = .holding ∨ r.ping = .counted
  withPong : r.baton = .withPong ↔ r.pong = .holding
  pingSeen : r.ping = .seen → r.baton = .toPing
  pongSeen : r.pong = .seen → r.baton = .toPong
  pongCounts : r.pong ≠ .counted
  pingInside : r.ping = .waiting ∨ r.ping = .seen ∨ r.ping = .holding → r.counter ≤ limit
  pingEnded : r.ping = .ended → ¬ r.counter ≤ limit
  pongEnded : r.pong = .ended → ¬ r.counter ≤ limit
  /-- the baton of the last round is on its way to a `pong` that waits -/
  pongWaits : r.pong = .waiting → ¬ r.counter ≤ limit → r.ping = .counted ∨ r.baton = .toPong
  alternating : Alternating r.events
  dueIncrement : r.baton = .toPing ∨ r.ping = .holding → due r.events = .increment
  dueHandBack : r.ping = .counted ∨ r.baton = .toPong ∨ r.baton = .withPong →
    due r.events = .handBack
  counter : r.counter ≤ limit ∨ r.counter.toInt = limit.toInt + 1

theorem fair_start {limit : Int32} (h : 0 ≤ limit) : Fair limit ⟨.toPing, 0, .test, .test, []⟩ := by
  constructor <;> simp [Alternating.nil, due, h]

theorem fair_pass {limit : Int32} {r r' : Passing} (h : Fair limit r) (hst : Pass limit r r') :
    Fair limit r' := by
  obtain ⟨baton, counter, ping, pong, events⟩ := r
  obtain ⟨withPing, withPong, pingSeen, pongSeen, pongCounts, pingInside, pingEnded, pongEnded,
    pongWaits, alternating, dueIncrement, dueHandBack, hcounter⟩ := h
  cases hst with
  | count hp =>
    have hdue : due events = .increment := dueIncrement (.inr hp)
    have halt : Alternating (.increment :: events) := hdue ▸ alternating.cons
    have hlim : counter ≤ limit := pingInside (.inr (.inr hp))
    have hnext := Arith.add_one_le_or hlim
    constructor <;> grind [due]
  | handBack hp =>
    have hbaton : baton = .withPong := withPong.mpr hp
    have hdue : due events = .handBack := dueHandBack (.inr (.inr hbaton))
    have halt : Alternating (.handBack :: events) := hdue ▸ alternating.cons
    constructor <;> grind [due]
  | _ => constructor <;> grind

/-- **One of the players can move** until both have ended: the baton is with a
player, or on its way to one who waits for it or comes back to take it. -/
theorem Fair.progress {limit : Int32} {r : Passing} (h : Fair limit r)
    (hne : r.ping ≠ .ended ∨ r.pong ≠ .ended) :
    (r.ping ≠ .ended ∧ (r.ping = .waiting → r.baton = .toPing)) ∨
      (r.pong ≠ .ended ∧ (r.pong = .waiting → r.baton = .toPong)) := by
  by_contra hno
  push Not at hno
  obtain ⟨hping, hpong⟩ := hno
  by_cases hpe : r.ping = .ended
  · -- `ping` has counted the last round, so a `pong` that waits has its baton
    obtain ⟨hw, hb⟩ := hpong (hne.resolve_left fun hn => hn hpe)
    rcases h.pongWaits hw (h.pingEnded hpe) with hc | hb'
    · exact absurd (hpe.symm.trans hc) (by simp)
    · exact hb hb'
  · obtain ⟨hw, hb⟩ := hping hpe
    have hlim : r.counter ≤ limit := h.pingInside (.inl hw)
    obtain ⟨hw', hb'⟩ := hpong fun he => h.pongEnded he hlim
    -- both wait, so nobody has the baton
    cases hbaton : r.baton with
    | toPing => exact hb hbaton
    | toPong => exact hb' hbaton
    | withPing =>
      rcases h.withPing.mp hbaton with he | he <;> exact absurd (hw.symm.trans he) (by simp)
    | withPong => exact absurd (hw'.symm.trans (h.withPong.mp hbaton)) (by simp)

end Cpp20Examples.PingPong
