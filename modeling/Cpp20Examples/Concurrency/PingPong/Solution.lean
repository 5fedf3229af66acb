import Cpp20Examples.Lib.Arith
import Cpp20Examples.Lib.Monitor

/-!
# The ping-pong exercise with two condition variables

`solutions/conditionVariablePingPong.cpp`: `setTrue` sets `dataReady` and counts
the round, `setFalse` clears it, both inside the mutex, and each notifies the
other before it gives the mutex up.  The loops are left by different tests:
`setTrue` goes on while `counter <= COUNTLIMIT`, `setFalse` while
`counter < COUNTLIMIT`, and both read `counter` outside the mutex.

So when `setFalse` finds `counter == COUNTLIMIT` with `dataReady` still set, it
ends without clearing it, and `setTrue`, which has one more round to go, sleeps
for good (`left_asleep`, `asleep_of_earlyExit`).

* `Move`, `simulation`: what a step of the threads does, by their places.
* `Handing`, `handing_move`: the invariant of the runs without such a test.
* `can_finish`: in these runs nobody is left asleep and some thread can run.
-/

namespace Cpp20Examples.PingPong.Solution

open Lib Lib.Monitor

structure Memory where
  dataReady : Bool := false
  counter : Int32 := 0
  deriving DecidableEq

inductive Op
  | setDataReady (b : Bool)
  | increment

inductive CondVar
  | condVar1
  | condVar2
  deriving DecidableEq

/-- `counter` is an `int`: to count beyond its maximum is undefined. -/
def sem : Op → Memory → Unit → Option (Memory × Unit)
  | .setDataReady b, m, _ => some ({ m with dataReady := b }, ())
  | .increment, m, _ =>
    if m.counter = Int32.maxValue then none else some ({ m with counter := m.counter + 1 }, ())

abbrev PCode := Code Op CondVar Memory

def setTrueBody : PCode :=
  [.lock, .wait .condVar1 fun m => m.dataReady == false, .exec (.setDataReady true),
    .exec .increment, .notifyOne .condVar2, .unlock]

def setFalseBody : PCode :=
  [.lock, .wait .condVar2 fun m => m.dataReady == true, .exec (.setDataReady false),
    .notifyOne .condVar1, .unlock]

def setTrue (COUNTLIMIT : Int32) : PCode := [.loop (fun m => m.counter ≤ COUNTLIMIT) setTrueBody]

def setFalse (COUNTLIMIT : Int32) : PCode := [.loop (fun m => m.counter < COUNTLIMIT) setFalseBody]

abbrev PThread := Thread Op CondVar Memory Unit

abbrev PState := State Op CondVar Memory Unit

/-- `main` starts the two threads. -/
def system (COUNTLIMIT : Int32) : System PState Act :=
  Monitor.system sem {}
    [⟨setTrue COUNTLIMIT, .running, ()⟩, ⟨setFalse COUNTLIMIT, .running, ()⟩]

/-! ### The early exit -/

/-- `setTrue` has set `dataReady` and not counted the round. -/
def atIncrement (th : PThread) : Bool :=
  match th.code with
  | .exec .increment :: _ => true
  | _ => false

def atLoopTest (th : PThread) : Bool :=
  match th.code with
  | .loop _ _ :: _ => true
  | _ => false

/-- The step is the loop test of `setFalse`, and the test fails while `setTrue`
has a round to go for which `dataReady` is still set. -/
def earlyExit (COUNTLIMIT : Int32) (s : PState) : Act → Bool
  | .run 1 _ =>
    s.threads[1]?.any atLoopTest && s.data.dataReady && s.data.counter == COUNTLIMIT &&
      !s.threads[0]?.any atIncrement
  | _ => false

/-! ### The threads at their places -/

inductive TrueAt
  | test
  | lock
  | wait (status : Status CondVar)
  | set
  | increment
  | notify
  | unlock
  | ended

inductive FalseAt
  | test
  | lock
  | wait (status : Status CondVar)
  | reset
  | notify
  | unlock
  | ended

section Places

variable (limit : Int32)

def TrueAt.thread : TrueAt → PThread
  | test => ⟨setTrue limit, .running, ()⟩
  | lock => ⟨setTrueBody ++ setTrue limit, .running, ()⟩
  | wait status => ⟨setTrueBody.drop 1 ++ setTrue limit, status, ()⟩
  | set => ⟨setTrueBody.drop 2 ++ setTrue limit, .running, ()⟩
  | increment => ⟨setTrueBody.drop 3 ++ setTrue limit, .running, ()⟩
  | notify => ⟨setTrueBody.drop 4 ++ setTrue limit, .running, ()⟩
  | unlock => ⟨setTrueBody.drop 5 ++ setTrue limit, .running, ()⟩
  | ended => ⟨[], .running, ()⟩

def FalseAt.thread : FalseAt → PThread
  | test => ⟨setFalse limit, .running, ()⟩
  | lock => ⟨setFalseBody ++ setFalse limit, .running, ()⟩
  | wait status => ⟨setFalseBody.drop 1 ++ setFalse limit, status, ()⟩
  | reset => ⟨setFalseBody.drop 2 ++ setFalse limit, .running, ()⟩
  | notify => ⟨setFalseBody.drop 3 ++ setFalse limit, .running, ()⟩
  | unlock => ⟨setFalseBody.drop 4 ++ setFalse limit, .running, ()⟩
  | ended => ⟨[], .running, ()⟩

structure Places where
  data : Memory
  owner : Option Nat
  setTrue : TrueAt
  setFalse : FalseAt
  fault : Bool := false

/-- The state with the threads written out. -/
def Places.state (q : Places) : PState where
  data := q.data
  owner := q.owner
  threads := [q.setTrue.thread limit, q.setFalse.thread limit]
  fault := q.fault

end Places

/-- The places of `setTrue` behind its passed test. -/
def TrueAt.inside : TrueAt → Bool
  | lock | wait _ | set | increment => true
  | _ => false

/-- The places of `setFalse` behind its passed test. -/
def FalseAt.inside : FalseAt → Bool
  | lock | wait _ | reset => true
  | _ => false

/-- `setFalse` is about to leave its loop while `setTrue` waits for it, or will. -/
def Early (limit : Int32) (q : Places) : Prop :=
  q.setFalse = .test ∧ q.data.dataReady = true ∧ q.data.counter = limit ∧ q.setTrue ≠ .increment

/-- One step of a thread, by its place, but for an early exit. -/
inductive Move (limit : Int32) (q : Places) : Places → Prop
  | truePass : q.setTrue = .test → q.data.counter ≤ limit → Move limit q { q with setTrue := .lock }
  | trueLeave : q.setTrue = .test → ¬ q.data.counter ≤ limit →
      Move limit q { q with setTrue := .ended }
  | trueLock (st : Status CondVar) : q.setTrue = .lock ∨ q.setTrue = .wait .woken → q.owner = none →
      (∀ cv, st ≠ .asleep cv) → Move limit q { q with setTrue := .wait st, owner := some 0 }
  | truePredicate (st : Status CondVar) : q.setTrue = .wait st → (∀ cv, st ≠ .asleep cv) →
      q.data.dataReady = false → Move limit q { q with setTrue := .set }
  | trueSleep (st : Status CondVar) : q.setTrue = .wait st → q.data.dataReady = true →
      Move limit q { q with setTrue := .wait (.asleep .condVar1), owner := none }
  | set : q.setTrue = .set →
      Move limit q { q with data := { q.data with dataReady := true }, setTrue := .increment }
  | count : q.setTrue = .increment → q.data.counter ≠ Int32.maxValue →
      Move limit q
        { q with data := { q.data with counter := q.data.counter + 1 }, setTrue := .notify }
  | overflow : q.setTrue = .increment → Move limit q { q with fault := true }
  | trueNotify (f : FalseAt) : q.setTrue = .notify →
      (f = q.setFalse ∧ q.setFalse ≠ .wait (.asleep .condVar2) ∨
        q.setFalse = .wait (.asleep .condVar2) ∧ f = .wait .woken) →
      Move limit q { q with setTrue := .unlock, setFalse := f }
  | trueUnlock : q.setTrue = .unlock → Move limit q { q with setTrue := .test, owner := none }
  | trueSpurious (cv : CondVar) : q.setTrue = .wait (.asleep cv) →
      Move limit q { q with setTrue := .wait .woken }
  | falsePass : q.setFalse = .test → q.data.counter < limit →
      Move limit q { q with setFalse := .lock }
  | falseLeave : q.setFalse = .test → ¬ q.data.counter < limit → ¬ Early limit q →
      Move limit q { q with setFalse := .ended }
  | falseLock (st : Status CondVar) : q.setFalse = .lock ∨ q.setFalse = .wait .woken →
      q.owner = none → (∀ cv, st ≠ .asleep cv) →
      Move limit q { q with setFalse := .wait st, owner := some 1 }
  | falsePredicate (st : Status CondVar) : q.setFalse = .wait st → (∀ cv, st ≠ .asleep cv) →
      q.data.dataReady = true → Move limit q { q with setFalse := .reset }
  | falseSleep (st : Status CondVar) : q.setFalse = .wait st → q.data.dataReady = false →
      Move limit q { q with setFalse := .wait (.asleep .condVar2), owner := none }
  | reset : q.setFalse = .reset →
      Move limit q { q with data := { q.data with dataReady := false }, setFalse := .notify }
  | falseNotify (t : TrueAt) : q.setFalse = .notify →
      (t = q.setTrue ∧ q.setTrue ≠ .wait (.asleep .condVar1) ∨
        q.setTrue = .wait (.asleep .condVar1) ∧ t = .wait .woken) →
      Move limit q { q with setTrue := t, setFalse := .unlock }
  | falseUnlock : q.setFalse = .unlock → Move limit q { q with setFalse := .test, owner := none }
  | falseSpurious (cv : CondVar) : q.setFalse = .wait (.asleep cv) →
      Move limit q { q with setFalse := .wait .woken }

variable {limit : Int32} {q : Places} {w : Nat} {s' : PState}

theorem simulation_setTrue (ho : Ownership (q.state limit).owner (q.state limit).threads)
    (h : step sem (q.state limit) (.run 0 w) = some s') :
    ∃ q', Move limit q q' ∧ q'.state limit = s' := by
  have hown : Holds (q.state limit).owner 0 (q.setTrue.thread limit) := ho 0 _ rfl
  obtain ⟨m, owner, t, f, fault⟩ := q
  cases fault with
  | true => exact absurd h (by simp [step, Places.state])
  | false =>
  have hst : stepThread sem (Places.state limit ⟨m, owner, t, f, false⟩) 0 w (t.thread limit)
      = some s' := h
  cases t with
  | test =>
    obtain rfl := Option.some.inj h
    by_cases hc : m.counter ≤ limit
    · exact ⟨_, .truePass rfl hc, by simp [Places.state, hc]; rfl⟩
    · exact ⟨_, .trueLeave rfl hc, by simp [Places.state, hc]; rfl⟩
  | lock =>
    obtain ⟨hn, h⟩ := Option.ite_none_right_eq_some.mp h
    obtain rfl := Option.some.inj h
    exact ⟨_, .trueLock .running (.inl rfl) hn (by simp), rfl⟩
  | wait st =>
    rcases stepThread_wait hown hst with ⟨rfl, hn, rfl⟩ | ⟨hr, hp, rfl⟩ | ⟨_, hp, rfl⟩
    · exact ⟨_, .trueLock .retesting (.inr rfl) hn (by simp), rfl⟩
    · have hp : m.dataReady = false := by simpa [Places.state] using hp
      refine ⟨_, .truePredicate st rfl ?_ hp, rfl⟩
      intro cv
      rcases hr with rfl | rfl <;> simp
    · exact ⟨_, .trueSleep st rfl (by simpa [Places.state] using hp), rfl⟩
  | set =>
    obtain rfl := Option.some.inj h
    exact ⟨_, .set rfl, rfl⟩
  | increment =>
    by_cases hmax : m.counter = Int32.maxValue
    · have hstop : some s' = some (Places.state limit ⟨m, owner, .increment, f, true⟩) := by
        rw [← hst]
        simp [stepThread, TrueAt.thread, setTrueBody, instr, sem, Places.state, hmax]
      obtain rfl := Option.some.inj hstop
      exact ⟨_, .overflow rfl, rfl⟩
    · have hcount : some s' = some (Places.state limit
          ⟨{ m with counter := m.counter + 1 }, owner, .notify, f, false⟩) := by
        rw [← hst]
        simp [stepThread, TrueAt.thread, setTrueBody, instr, sem, Places.state, hmax, State.set]
      obtain rfl := Option.some.inj hcount
      exact ⟨_, .count rfl hmax, rfl⟩
  | notify =>
    rcases notify_cases hst with ⟨sleeper, hw, hsl, rfl⟩ | ⟨hno, rfl⟩
    · rcases getElem?_pair_cases hw with ⟨rfl, rfl⟩ | ⟨rfl, rfl⟩
      · exact absurd hsl (by simp [Thread.sleepsOn, TrueAt.thread])
      · cases f with
        | wait st =>
          have hst : st = .asleep .condVar2 := by simpa [Thread.sleepsOn, FalseAt.thread] using hsl
          exact ⟨_, .trueNotify (.wait .woken) rfl (.inr ⟨by rw [hst], rfl⟩), rfl⟩
        | _ => exact absurd hsl (by simp [Thread.sleepsOn, FalseAt.thread])
    · refine ⟨_, .trueNotify f rfl (.inl ⟨rfl, ?_⟩), rfl⟩
      rintro rfl
      exact absurd (hno _ (.tail _ (.head _))) (by simp [Thread.sleepsOn, FalseAt.thread])
  | unlock =>
    obtain rfl := stepThread_unlock hown hst
    exact ⟨_, .trueUnlock rfl, rfl⟩
  | ended => exact absurd h (by simp [step, Places.state, TrueAt.thread, stepThread, instr])

theorem simulation_setFalse (ho : Ownership (q.state limit).owner (q.state limit).threads)
    (h : step sem (q.state limit) (.run 1 w) = some s') :
    ∃ q', (¬ Early limit q → Move limit q q') ∧ q'.state limit = s' := by
  have hown : Holds (q.state limit).owner 1 (q.setFalse.thread limit) := ho 1 _ rfl
  obtain ⟨m, owner, t, f, fault⟩ := q
  cases fault with
  | true => exact absurd h (by simp [step, Places.state])
  | false =>
  have hst : stepThread sem (Places.state limit ⟨m, owner, t, f, false⟩) 1 w (f.thread limit)
      = some s' := h
  cases f with
  | test =>
    obtain rfl := Option.some.inj h
    by_cases hc : m.counter < limit
    · exact ⟨_, fun _ => .falsePass rfl hc, by simp [Places.state, hc]; rfl⟩
    · exact ⟨_, fun he => .falseLeave rfl hc he, by simp [Places.state, hc]; rfl⟩
  | lock =>
    obtain ⟨hn, h⟩ := Option.ite_none_right_eq_some.mp h
    obtain rfl := Option.some.inj h
    exact ⟨_, fun _ => .falseLock .running (.inl rfl) hn (by simp), rfl⟩
  | wait st =>
    rcases stepThread_wait hown hst with ⟨rfl, hn, rfl⟩ | ⟨hr, hp, rfl⟩ | ⟨_, hp, rfl⟩
    · exact ⟨_, fun _ => .falseLock .retesting (.inr rfl) hn (by simp), rfl⟩
    · have hp : m.dataReady = true := by simpa [Places.state] using hp
      refine ⟨_, fun _ => .falsePredicate st rfl ?_ hp, rfl⟩
      intro cv
      rcases hr with rfl | rfl <;> simp
    · exact ⟨_, fun _ => .falseSleep st rfl (by simpa [Places.state] using hp), rfl⟩
  | reset =>
    obtain rfl := Option.some.inj h
    exact ⟨_, fun _ => .reset rfl, rfl⟩
  | notify =>
    rcases notify_cases hst with ⟨sleeper, hw, hsl, rfl⟩ | ⟨hno, rfl⟩
    · rcases getElem?_pair_cases hw with ⟨rfl, rfl⟩ | ⟨rfl, rfl⟩
      · cases t with
        | wait st =>
          have hst : st = .asleep .condVar1 := by simpa [Thread.sleepsOn, TrueAt.thread] using hsl
          exact ⟨_, fun _ => .falseNotify (.wait .woken) rfl (.inr ⟨by rw [hst], rfl⟩), rfl⟩
        | _ => exact absurd hsl (by simp [Thread.sleepsOn, TrueAt.thread])
      · exact absurd hsl (by simp [Thread.sleepsOn, FalseAt.thread])
    · refine ⟨_, fun _ => .falseNotify t rfl (.inl ⟨rfl, ?_⟩), rfl⟩
      rintro rfl
      exact absurd (hno _ (.head _)) (by simp [Thread.sleepsOn, TrueAt.thread])
  | unlock =>
    obtain rfl := stepThread_unlock hown hst
    exact ⟨_, fun _ => .falseUnlock rfl, rfl⟩
  | ended => exact absurd h (by simp [step, Places.state, FalseAt.thread, stepThread, instr])

theorem earlyExit_of_early (he : Early limit q) :
    earlyExit limit (q.state limit) (.run 1 w) = true := by
  obtain ⟨⟨d, c⟩, owner, t, f, fault⟩ := q
  obtain ⟨rfl, rfl, rfl, ht⟩ := he
  cases t <;> first | exact absurd rfl ht | simp [earlyExit, Places.state, TrueAt.thread,
    FalseAt.thread, setTrue, setFalse, setTrueBody, atLoopTest, atIncrement]

/-- **Every step of the threads is a move**, but for an early exit. -/
theorem simulation {a : Act} (ho : Ownership (q.state limit).owner (q.state limit).threads)
    (h : step sem (q.state limit) a = some s') :
    ∃ q', (earlyExit limit (q.state limit) a = false → Move limit q q') ∧ q'.state limit = s' := by
  cases a with
  | run t w =>
    rcases t with _ | _ | t
    · obtain ⟨q', hm, rfl⟩ := simulation_setTrue ho h
      exact ⟨q', fun _ => hm, rfl⟩
    · obtain ⟨q', hm, rfl⟩ := simulation_setFalse ho h
      refine ⟨q', fun hok => hm ?_, rfl⟩
      intro he
      cases hok.symm.trans (earlyExit_of_early he)
    · exact absurd h (by simp [step, Places.state])
  | spurious t =>
    obtain ⟨m, owner, tr, f, fault⟩ := q
    cases fault with
    | true => exact absurd h (by simp [step, Places.state])
    | false =>
    obtain ⟨th, hth, h⟩ := Option.bind_eq_some_iff.mp h
    obtain ⟨cv, hcv, rfl⟩ := wake_cases h
    rcases getElem?_pair_cases hth with ⟨rfl, rfl⟩ | ⟨rfl, rfl⟩
    · cases tr with
      | wait st =>
        obtain rfl : st = .asleep cv := hcv
        exact ⟨_, fun _ => .trueSpurious cv rfl, rfl⟩
      | _ => cases hcv
    · cases f with
      | wait st =>
        obtain rfl : st = .asleep cv := hcv
        exact ⟨_, fun _ => .falseSpurious cv rfl, rfl⟩
      | _ => cases hcv

/-! ### The invariant -/

structure Handing (limit : Int32) (q : Places) : Prop where
  owner : q.owner = none ∨ q.owner = some 0 ∨ q.owner = some 1
  trueInside : q.setTrue.inside = true → q.data.counter ≤ limit
  trueEnded : q.setTrue = .ended → ¬ q.data.counter ≤ limit
  falseInside : q.setFalse.inside = true → q.data.counter ≤ limit
  falseEnded : q.setFalse = .ended → ¬ q.data.counter < limit
  cleared : q.setTrue = .set → q.data.dataReady = false
  handed : q.setTrue = .increment → q.data.dataReady = true
  /-- `setFalse` has a round to go while it waits -/
  served : q.setFalse.inside = true → q.data.dataReady = false ∨ q.setTrue = .increment →
    q.data.counter < limit
  /-- `setFalse` has left nothing to be cleared -/
  released : q.setFalse = .ended → q.data.dataReady = true →
    q.setTrue = .increment ∨ ¬ q.data.counter ≤ limit
  trueAsleep : ∀ cv, q.setTrue = .wait (.asleep cv) →
    cv = .condVar1 ∧ (q.data.dataReady = true ∨ q.setFalse = .notify)
  falseAsleep : ∀ cv, q.setFalse = .wait (.asleep cv) →
    cv = .condVar2 ∧ (q.data.dataReady = false ∨ q.setTrue = .increment ∨ q.setTrue = .notify)

theorem handing_init : Handing limit ⟨{}, none, .test, .test, false⟩ := by
  constructor <;> simp [TrueAt.inside, FalseAt.inside]

/-- What a round that is counted leaves: another one that `setFalse` waits for, or
nothing when `setFalse` has ended. -/
theorem Handing.counted (h : Handing limit q) (ht : q.setTrue = .increment)
    (hmax : q.data.counter ≠ Int32.maxValue) :
    (q.setFalse.inside = true → q.data.counter + 1 ≤ limit) ∧
      (q.setFalse = .ended → ¬ q.data.counter + 1 ≤ limit) ∧
      (¬ q.data.counter < limit → ¬ q.data.counter + 1 < limit) := by
  have hsucc := Arith.toInt_add_one hmax
  simp only [Int32.le_iff_toInt_le, Int32.lt_iff_toInt_lt, hsucc]
  refine ⟨?_, ?_, fun hc => by omega⟩
  · intro hf
    have := Int32.lt_iff_toInt_lt.mp (h.served hf (.inr ht))
    omega
  · intro hf
    have hlim := h.falseEnded hf
    rw [Int32.lt_iff_toInt_lt] at hlim
    omega

/-- A move of `setTrue` that hands nothing over and wakes nobody. -/
theorem Handing.true_moves (h : Handing limit q) (hinc : q.setTrue ≠ .increment)
    (hnotify : q.setTrue ≠ .notify) {t : TrueAt} {owner : Option Nat}
    (howner : owner = none ∨ owner = some 0 ∨ owner = some 1)
    (hinside : t.inside = true → q.data.counter ≤ limit)
    (hended : t = .ended → ¬ q.data.counter ≤ limit) (hset : t = .set → q.data.dataReady = false)
    (hinc' : t ≠ .increment)
    (hasleep : ∀ cv, t = .wait (.asleep cv) → cv = .condVar1 ∧ q.data.dataReady = true) :
    Handing limit { q with owner := owner, setTrue := t } where
  owner := howner
  trueInside := hinside
  trueEnded := hended
  falseInside := h.falseInside
  falseEnded := h.falseEnded
  cleared := hset
  handed ht := absurd ht hinc'
  served hf hd := h.served hf (hd.imp_right fun ht => absurd ht hinc')
  released hf hd := .inr ((h.released hf hd).resolve_left hinc)
  trueAsleep cv ht := ⟨(hasleep cv ht).1, .inl (hasleep cv ht).2⟩
  falseAsleep cv hf := by
    obtain ⟨hcv, hready⟩ := h.falseAsleep cv hf
    exact ⟨hcv, .inl (hready.resolve_right (not_or.mpr ⟨hinc, hnotify⟩))⟩

theorem Handing.false_moves (h : Handing limit q) (hnotify : q.setFalse ≠ .notify) {f : FalseAt}
    {owner : Option Nat} (howner : owner = none ∨ owner = some 0 ∨ owner = some 1)
    (hinside : f.inside = true → q.data.counter ≤ limit)
    (hended : f = .ended → ¬ q.data.counter < limit)
    (hserved : f.inside = true → q.data.dataReady = false ∨ q.setTrue = .increment →
      q.data.counter < limit)
    (hreleased : f = .ended → q.data.dataReady = true →
      q.setTrue = .increment ∨ ¬ q.data.counter ≤ limit)
    (hasleep : ∀ cv, f = .wait (.asleep cv) → cv = .condVar2 ∧ q.data.dataReady = false) :
    Handing limit { q with owner := owner, setFalse := f } where
  owner := howner
  trueInside := h.trueInside
  trueEnded := h.trueEnded
  falseInside := hinside
  falseEnded := hended
  cleared := h.cleared
  handed := h.handed
  served := hserved
  released := hreleased
  trueAsleep cv ht := by
    obtain ⟨hcv, hready⟩ := h.trueAsleep cv ht
    exact ⟨hcv, .inl (hready.resolve_right hnotify)⟩
  falseAsleep cv hf := ⟨(hasleep cv hf).1, .inl (hasleep cv hf).2⟩

/-- `setTrue` hands a round over: the round was `setFalse`'s to wait for. -/
theorem Handing.set (h : Handing limit q) (ht : q.setTrue = .set) :
    Handing limit { q with data := { q.data with dataReady := true }, setTrue := .increment } where
  owner := h.owner
  trueInside _ := h.trueInside (by rw [ht]; rfl)
  trueEnded := nofun
  falseInside := h.falseInside
  falseEnded := h.falseEnded
  cleared := nofun
  handed _ := rfl
  served hf _ := h.served hf (.inl (h.cleared ht))
  released _ _ := .inl rfl
  trueAsleep := nofun
  falseAsleep cv hf := ⟨(h.falseAsleep cv hf).1, .inr (.inl rfl)⟩

theorem Handing.count (h : Handing limit q) (ht : q.setTrue = .increment)
    (hmax : q.data.counter ≠ Int32.maxValue) :
    Handing limit
      { q with data := { q.data with counter := q.data.counter + 1 }, setTrue := .notify } where
  owner := h.owner
  trueInside := nofun
  trueEnded := nofun
  falseInside := (h.counted ht hmax).1
  falseEnded hf := (h.counted ht hmax).2.2 (h.falseEnded hf)
  cleared := nofun
  handed := nofun
  served hf hd := by
    rcases hd with hd | hd
    · cases hd.symm.trans (h.handed ht)
    · cases hd
  released hf _ := .inr ((h.counted ht hmax).2.1 hf)
  trueAsleep := nofun
  falseAsleep cv hf := ⟨(h.falseAsleep cv hf).1, .inr (.inr rfl)⟩

/-- `setFalse` clears the round while `setTrue` is not about to count it. -/
theorem Handing.reset (h : Handing limit q) (hinc : q.setTrue ≠ .increment) :
    Handing limit { q with data := { q.data with dataReady := false }, setFalse := .notify } where
  owner := h.owner
  trueInside := h.trueInside
  trueEnded := h.trueEnded
  falseInside := nofun
  falseEnded := nofun
  cleared _ := rfl
  handed ht := absurd ht hinc
  served := nofun
  released := nofun
  trueAsleep cv ht := ⟨(h.trueAsleep cv ht).1, .inr rfl⟩
  falseAsleep := nofun

theorem Handing.true_notifies (h : Handing limit q) (ht : q.setTrue = .notify) {f : FalseAt}
    (hf : f = q.setFalse ∧ q.setFalse ≠ .wait (.asleep .condVar2) ∨
      q.setFalse = .wait (.asleep .condVar2) ∧ f = .wait .woken) :
    Handing limit { q with setTrue := .unlock, setFalse := f } := by
  have hinside : f.inside = true → q.setFalse.inside = true := by
    rcases hf with ⟨rfl, -⟩ | ⟨hw, -⟩
    · exact id
    · exact fun _ => by rw [hw]; rfl
  have hended : f = .ended → q.setFalse = .ended := by
    rcases hf with ⟨rfl, -⟩ | ⟨-, rfl⟩
    · exact id
    · exact nofun
  have hawake : ∀ cv, f ≠ .wait (.asleep cv) := by
    rintro cv rfl
    rcases hf with ⟨hfalse, hne⟩ | ⟨-, hw⟩
    · obtain ⟨rfl, -⟩ := h.falseAsleep cv hfalse.symm
      exact hne hfalse.symm
    · cases hw
  have hinc : q.setTrue ≠ .increment := by simp [ht]
  exact {
    owner := h.owner
    trueInside := nofun
    trueEnded := nofun
    falseInside := fun hf => h.falseInside (hinside hf)
    falseEnded := fun hf => h.falseEnded (hended hf)
    cleared := nofun
    handed := nofun
    served := fun hf hd => h.served (hinside hf) (hd.imp_right nofun)
    released := fun hf hd => .inr ((h.released (hended hf) hd).resolve_left hinc)
    trueAsleep := nofun
    falseAsleep := fun cv hf => absurd hf (hawake cv) }

theorem Handing.false_notifies (h : Handing limit q) {t : TrueAt}
    (ht : t = q.setTrue ∧ q.setTrue ≠ .wait (.asleep .condVar1) ∨
      q.setTrue = .wait (.asleep .condVar1) ∧ t = .wait .woken) :
    Handing limit { q with setTrue := t, setFalse := .unlock } := by
  rcases ht with ⟨rfl, hne⟩ | ⟨hw, rfl⟩
  · exact {
      owner := h.owner
      trueInside := h.trueInside
      trueEnded := h.trueEnded
      falseInside := nofun
      falseEnded := nofun
      cleared := h.cleared
      handed := h.handed
      served := nofun
      released := nofun
      trueAsleep := by
        intro cv ht
        obtain ⟨rfl, -⟩ := h.trueAsleep cv ht
        exact absurd ht hne
      falseAsleep := nofun }
  · exact {
      owner := h.owner
      trueInside := fun _ => h.trueInside (by rw [hw]; rfl)
      trueEnded := nofun
      falseInside := nofun
      falseEnded := nofun
      cleared := nofun
      handed := nofun
      served := nofun
      released := nofun
      trueAsleep := nofun
      falseAsleep := nofun }

/-- A round to go for `setTrue` with `dataReady` set would make the exit an early one. -/
theorem released_of_not_early (hf : q.setFalse = .test) (hc : ¬ q.data.counter < limit)
    (hearly : ¬ Early limit q) (hd : q.data.dataReady = true) :
    q.setTrue = .increment ∨ ¬ q.data.counter ≤ limit := by
  by_contra hno
  push Not at hno
  refine hearly ⟨hf, hd, ?_, hno.1⟩
  have hle := Int32.le_iff_toInt_le.mp hno.2
  have hge : ¬ q.data.counter.toInt < limit.toInt := fun h => hc (Int32.lt_iff_toInt_lt.mpr h)
  exact Int32.toInt_inj.mp (by omega)

/-- **Every move keeps the invariant.** -/
theorem handing_move {q' : Places} (h : Handing limit q)
    (hexcl : q.setTrue = .increment → q.setFalse ≠ .reset) (hm : Move limit q q') :
    Handing limit q' := by
  cases hm with
  | truePass ht hc =>
    exact h.true_moves (by simp [ht]) (by simp [ht]) h.owner (fun _ => hc) nofun nofun nofun nofun
  | trueLeave ht hc =>
    exact h.true_moves (by simp [ht]) (by simp [ht]) h.owner nofun (fun _ => hc) nofun nofun nofun
  | trueLock st ht _ hst =>
    have hin : q.data.counter ≤ limit :=
      h.trueInside (by rcases ht with ht | ht <;> rw [ht] <;> rfl)
    refine h.true_moves ?_ ?_ (.inr (.inl rfl)) (fun _ => hin) nofun nofun nofun fun cv hcv => ?_
    · rcases ht with ht | ht <;> simp [ht]
    · rcases ht with ht | ht <;> simp [ht]
    · cases hcv
      exact absurd rfl (hst cv)
  | truePredicate st ht _ hd =>
    have hin : q.data.counter ≤ limit := h.trueInside (by rw [ht]; rfl)
    exact h.true_moves (by simp [ht]) (by simp [ht]) h.owner (fun _ => hin) nofun (fun _ => hd)
      nofun nofun
  | trueSleep st ht hd =>
    have hin : q.data.counter ≤ limit := h.trueInside (by rw [ht]; rfl)
    refine h.true_moves (by simp [ht]) (by simp [ht]) (.inl rfl) (fun _ => hin) nofun nofun nofun
      ?_
    intro cv hcv
    cases hcv
    exact ⟨rfl, hd⟩
  | set ht => exact h.set ht
  | count ht hmax => exact h.count ht hmax
  | overflow _ => exact { h with }
  | trueNotify f ht hf => exact h.true_notifies ht hf
  | trueUnlock ht =>
    exact h.true_moves (by simp [ht]) (by simp [ht]) (.inl rfl) nofun nofun nofun nofun nofun
  | trueSpurious cv ht =>
    have hin : q.data.counter ≤ limit := h.trueInside (by rw [ht]; rfl)
    exact h.true_moves (by simp [ht]) (by simp [ht]) h.owner (fun _ => hin) nofun nofun nofun nofun
  | falsePass hf hc =>
    exact h.false_moves (by simp [hf]) h.owner (fun _ => Int32.le_of_lt hc) nofun (fun _ _ => hc)
      nofun nofun
  | falseLeave hf hc hearly =>
    exact h.false_moves (by simp [hf]) h.owner nofun (fun _ => hc) nofun
      (fun _ hd => released_of_not_early hf hc hearly hd) nofun
  | falseLock st hf _ hst =>
    have hin : q.setFalse.inside = true := by rcases hf with hf | hf <;> rw [hf] <;> rfl
    refine h.false_moves ?_ (.inr (.inr rfl)) (fun _ => h.falseInside hin) nofun
      (fun _ => h.served hin) nofun fun cv hcv => ?_
    · rcases hf with hf | hf <;> simp [hf]
    · cases hcv
      exact absurd rfl (hst cv)
  | falsePredicate st hf _ hd =>
    have hin : q.setFalse.inside = true := by rw [hf]; rfl
    exact h.false_moves (by simp [hf]) h.owner (fun _ => h.falseInside hin) nofun
      (fun _ => h.served hin) nofun nofun
  | falseSleep st hf hd =>
    have hin : q.setFalse.inside = true := by rw [hf]; rfl
    refine h.false_moves (by simp [hf]) (.inl rfl) (fun _ => h.falseInside hin) nofun
      (fun _ => h.served hin) nofun fun cv hcv => ?_
    cases hcv
    exact ⟨rfl, hd⟩
  | reset hf => exact h.reset fun ht => hexcl ht hf
  | falseNotify t _ ht => exact h.false_notifies ht
  | falseUnlock hf => exact h.false_moves (by simp [hf]) (.inl rfl) nofun nofun nofun nofun nofun
  | falseSpurious cv hf =>
    have hin : q.setFalse.inside = true := by rw [hf]; rfl
    exact h.false_moves (by simp [hf]) h.owner (fun _ => h.falseInside hin) nofun
      (fun _ => h.served hin) nofun nofun

theorem owner_of_section (ho : Ownership (q.state limit).owner (q.state limit).threads) :
    (q.setTrue = .increment → q.owner = some 0) ∧ (q.setFalse = .reset → q.owner = some 1) := by
  have hT : Holds q.owner 0 (q.setTrue.thread limit) := ho 0 _ rfl
  have hF : Holds q.owner 1 (q.setFalse.thread limit) := ho 1 _ rfl
  constructor <;> intro hp
  · rw [hp] at hT
    simpa [Holds, TrueAt.thread, setTrueBody, setTrue] using hT
  · rw [hp] at hF
    simpa [Holds, FalseAt.thread, setFalseBody, setFalse] using hF

/-- The threads start outside their sections and bracket them. -/
theorem ownership_reachable {ok : PState → Act → Prop} {s : PState}
    (hs : (system limit).ReachableBy ok s) : Ownership s.owner s.threads := by
  refine ownership ?_ hs
  intro th hth
  rcases List.mem_pair.mp hth with rfl | rfl <;>
    simp [setTrue, setTrueBody, setFalse, setFalseBody]

theorem reachable_handing {s : PState}
    (hs : (system limit).ReachableBy (fun s a => !earlyExit limit s a) s) :
    ∃ q : Places, Handing limit q ∧ q.state limit = s := by
  have h0 : Places.state limit ⟨{}, none, .test, .test, false⟩ = (system limit).init := rfl
  refine hs.refine (Places.state limit) (fun s hs => ownership_reachable hs)
    (fun q a s' ho h => simulation ho h) h0 handing_init ?_
  intro q a q' hq ho hok hm
  refine handing_move hq ?_ (hm (by simpa using hok))
  intro ht hf
  have hT := (owner_of_section ho).1 ht
  rw [(owner_of_section ho).2 hf] at hT
  exact absurd hT (by simp)

/-! ### Nobody is left asleep -/

/-- `setFalse` has finished, and `setTrue` sleeps in `condVar1.wait` with `dataReady` true. -/
def TrueLeft (s : PState) : Prop :=
  ∃ setTrue setFalse, s.threads = [setTrue, setFalse] ∧ setFalse.code = [] ∧
    setTrue.status = .asleep .condVar1 ∧ s.data.dataReady = true

/-- `setTrue` has finished, and `setFalse` sleeps in `condVar2.wait` with `dataReady` false. -/
def FalseLeft (s : PState) : Prop :=
  ∃ setTrue setFalse, s.threads = [setTrue, setFalse] ∧ setTrue.code = [] ∧
    setFalse.status = .asleep .condVar2 ∧ s.data.dataReady = false

theorem place_of_true {t : TrueAt} :
    ((t.thread limit).code = [] → t = .ended) ∧
      (∀ cv, (t.thread limit).status = .asleep cv → t = .wait (.asleep cv)) := by
  cases t <;> simp [TrueAt.thread, setTrue, setTrueBody]

theorem place_of_false {f : FalseAt} :
    ((f.thread limit).code = [] → f = .ended) ∧
      (∀ cv, (f.thread limit).status = .asleep cv → f = .wait (.asleep cv)) := by
  cases f <;> simp [FalseAt.thread, setFalse, setFalseBody]

theorem Handing.not_trueLeft (h : Handing limit q) : ¬ TrueLeft (q.state limit) := by
  rintro ⟨tr, fa, hth, hend, hsl, hd⟩
  obtain ⟨rfl, rfl⟩ : q.setTrue.thread limit = tr ∧ q.setFalse.thread limit = fa := by
    simpa [Places.state] using hth
  have ht := place_of_true.2 _ hsl
  have hlim : q.data.counter ≤ limit := h.trueInside (by rw [ht]; rfl)
  rcases h.released (place_of_false.1 hend) hd with hinc | hno
  · rw [ht] at hinc
    exact absurd hinc (by simp)
  · exact hno hlim

theorem Handing.not_falseLeft (h : Handing limit q) : ¬ FalseLeft (q.state limit) := by
  rintro ⟨tr, fa, hth, hend, hsl, _⟩
  obtain ⟨rfl, rfl⟩ : q.setTrue.thread limit = tr ∧ q.setFalse.thread limit = fa := by
    simpa [Places.state] using hth
  have hf := place_of_false.2 _ hsl
  exact h.trueEnded (place_of_true.1 hend) (h.falseInside (by rw [hf]; rfl))

/-! ### Some thread can run -/

/-- The places of `setTrue` in its critical section, awake. -/
def TrueAt.awake : TrueAt → Bool
  | wait .running | wait .retesting | set | increment | notify | unlock => true
  | _ => false

def FalseAt.awake : FalseAt → Bool
  | wait .running | wait .retesting | reset | notify | unlock => true
  | _ => false

theorem awake_of_owner (ho : Ownership (q.state limit).owner (q.state limit).threads) :
    (q.owner = some 0 ↔ q.setTrue.awake = true) ∧ (q.owner = some 1 ↔ q.setFalse.awake = true) := by
  have hT : Holds q.owner 0 (q.setTrue.thread limit) := ho 0 _ rfl
  have hF : Holds q.owner 1 (q.setFalse.thread limit) := ho 1 _ rfl
  constructor
  · cases ht : q.setTrue with
    | wait st =>
      rw [ht] at hT
      cases st <;>
        simp_all [Holds, TrueAt.thread, TrueAt.awake, setTrueBody, setTrue]
    | _ =>
      rw [ht] at hT
      simp_all [Holds, TrueAt.thread, TrueAt.awake, setTrueBody, setTrue]
  · cases hf : q.setFalse with
    | wait st =>
      rw [hf] at hF
      cases st <;>
        simp_all [Holds, FalseAt.thread, FalseAt.awake, setFalseBody, setFalse]
    | _ =>
      rw [hf] at hF
      simp_all [Holds, FalseAt.thread, FalseAt.awake, setFalseBody, setFalse]

theorem setTrue_canRun (hf : q.fault = false)
    (h : q.setTrue.awake = true ∧ q.owner = some 0 ∨
      (q.setTrue = .test ∨ q.setTrue = .lock ∨ q.setTrue = .wait .woken) ∧ q.owner = none) :
    CanRun sem (q.state limit) 0 := by
  obtain ⟨m, owner, t, f, fault⟩ := q
  obtain rfl : fault = false := hf
  rcases h with ⟨hawake, rfl⟩ | ⟨rfl | rfl | rfl, rfl⟩
  · cases t with
    | wait st =>
      cases st with
      | asleep cv => exact absurd hawake (by simp [TrueAt.awake])
      | woken => exact absurd hawake (by simp [TrueAt.awake])
      | _ =>
        apply canRun_of_isSome (w := 0)
        cases hd : m.dataReady <;>
          simp [step, Places.state, TrueAt.thread, setTrueBody, stepThread, instr, hd]
    | notify =>
      obtain ⟨w, s', h⟩ := exists_notify .condVar2
        (Places.state limit ⟨m, some 0, .notify, f, false⟩) 0 (TrueAt.unlock.thread limit)
      exact ⟨w, s', h⟩
    | increment =>
      apply canRun_of_isSome (w := 0)
      by_cases hmax : m.counter = Int32.maxValue <;>
        simp [step, Places.state, TrueAt.thread, setTrueBody, stepThread, instr, sem, hmax]
    | test => exact absurd hawake (by simp [TrueAt.awake])
    | lock => exact absurd hawake (by simp [TrueAt.awake])
    | ended => exact absurd hawake (by simp [TrueAt.awake])
    | _ => exact ⟨0, _, rfl⟩
  · exact ⟨0, _, rfl⟩
  · exact ⟨0, _, rfl⟩
  · exact ⟨0, _, rfl⟩

theorem setFalse_canRun (hf : q.fault = false)
    (h : q.setFalse.awake = true ∧ q.owner = some 1 ∨
      (q.setFalse = .test ∨ q.setFalse = .lock ∨ q.setFalse = .wait .woken) ∧ q.owner = none) :
    CanRun sem (q.state limit) 1 := by
  obtain ⟨m, owner, t, f, fault⟩ := q
  obtain rfl : fault = false := hf
  rcases h with ⟨hawake, rfl⟩ | ⟨rfl | rfl | rfl, rfl⟩
  · cases f with
    | wait st =>
      cases st with
      | asleep cv => exact absurd hawake (by simp [FalseAt.awake])
      | woken => exact absurd hawake (by simp [FalseAt.awake])
      | _ =>
        apply canRun_of_isSome (w := 0)
        cases hd : m.dataReady <;>
          simp [step, Places.state, FalseAt.thread, setFalseBody, stepThread, instr, hd]
    | notify =>
      obtain ⟨w, s', h⟩ := exists_notify .condVar1
        (Places.state limit ⟨m, some 1, t, .notify, false⟩) 1 (FalseAt.unlock.thread limit)
      exact ⟨w, s', h⟩
    | test => exact absurd hawake (by simp [FalseAt.awake])
    | lock => exact absurd hawake (by simp [FalseAt.awake])
    | ended => exact absurd hawake (by simp [FalseAt.awake])
    | _ => exact ⟨0, _, rfl⟩
  · exact ⟨0, _, rfl⟩
  · exact ⟨0, _, rfl⟩
  · exact ⟨0, _, rfl⟩

/-- **Some thread can run** as long as one has not ended. -/
theorem Handing.progress (h : Handing limit q)
    (ho : Ownership (q.state limit).owner (q.state limit).threads) (hfault : q.fault = false)
    (hne : q.setTrue ≠ .ended ∨ q.setFalse ≠ .ended) : ∃ t, CanRun sem (q.state limit) t := by
  obtain ⟨hT, hF⟩ := awake_of_owner ho
  rcases h.owner with hn | h0 | h1
  · by_cases hrunT : q.setTrue = .test ∨ q.setTrue = .lock ∨ q.setTrue = .wait .woken
    · exact ⟨0, setTrue_canRun hfault (.inr ⟨hrunT, hn⟩)⟩
    by_cases hrunF : q.setFalse = .test ∨ q.setFalse = .lock ∨ q.setFalse = .wait .woken
    · exact ⟨1, setFalse_canRun hfault (.inr ⟨hrunF, hn⟩)⟩
    -- the mutex is free and both threads are asleep or have ended
    have hplaceT : q.setTrue = .ended ∨ ∃ cv, q.setTrue = .wait (.asleep cv) := by
      rw [hn] at hT
      rcases ht : q.setTrue with _ | _ | (_ | _ | _ | _) | _ | _ | _ | _ | _ <;>
        simp_all [TrueAt.awake]
    have hplaceF : q.setFalse = .ended ∨ ∃ cv, q.setFalse = .wait (.asleep cv) := by
      rw [hn] at hF
      rcases hf : q.setFalse with _ | _ | (_ | _ | _ | _) | _ | _ | _ | _ <;>
        simp_all [FalseAt.awake]
    exfalso
    rcases hplaceT with htend | ⟨cv, ht⟩
    · obtain ⟨cv', hf⟩ := hplaceF.resolve_left (hne.resolve_left fun hn => hn htend)
      exact h.trueEnded htend (h.falseInside (by rw [hf]; rfl))
    · have hlim : q.data.counter ≤ limit := h.trueInside (by rw [ht]; rfl)
      obtain ⟨-, hd | hnot⟩ := h.trueAsleep cv ht
      · rcases hplaceF with hfend | ⟨cv', hf⟩
        · rcases h.released hfend hd with hinc | hno
          · exact absurd (ht.symm.trans hinc) (by simp)
          · exact hno hlim
        · obtain ⟨-, hd' | hinc | hnot⟩ := h.falseAsleep cv' hf
          · exact absurd (hd.symm.trans hd') (by simp)
          · exact absurd (ht.symm.trans hinc) (by simp)
          · exact absurd (ht.symm.trans hnot) (by simp)
      · rcases hplaceF with hf | ⟨cv', hf⟩ <;> exact absurd (hf.symm.trans hnot) (by simp)
  · exact ⟨0, setTrue_canRun hfault (.inl ⟨hT.mp h0, h0⟩)⟩
  · exact ⟨1, setFalse_canRun hfault (.inl ⟨hF.mp h1, h1⟩)⟩

/-- **Both threads can finish.**  In every run without an early exit nobody is
left asleep, and some thread can run as long as one has not ended and `counter`
has not overflowed. -/
theorem can_finish (COUNTLIMIT : Int32) {s : PState}
    (hs : (system COUNTLIMIT).ReachableBy (fun s a => !earlyExit COUNTLIMIT s a) s) :
    ¬ TrueLeft s ∧ ¬ FalseLeft s ∧
      (s.fault = false → (∃ th ∈ s.threads, th.code ≠ []) → ∃ t, CanRun sem s t) := by
  have ho := ownership_reachable hs
  obtain ⟨q, hq, rfl⟩ := reachable_handing hs
  refine ⟨hq.not_trueLeft, hq.not_falseLeft, fun hfault hne => hq.progress ho hfault ?_⟩
  by_contra hend
  push Not at hend
  obtain ⟨th, hth, hne⟩ := hne
  rw [Places.state, hend.1, hend.2] at hth
  rcases List.mem_pair.mp hth with rfl | rfl <;> exact hne rfl

/-- `setFalse` answers the only round in time and ends; `setTrue` has one to go. -/
theorem can_finish_one :
    ∃ s, (system 1).ReachableBy (fun s a => !earlyExit 1 s a) s ∧ s.fault = false ∧
      (∃ th ∈ s.threads, th.code ≠ []) ∧ ¬ TrueLeft s ∧ ¬ FalseLeft s ∧ ∃ t, CanRun sem s t := by
  obtain ⟨s, hs, hp⟩ := System.exists_reachableBy (M := system 1)
    (p := fun s => !s.fault && s.threads.any fun th => !th.code.isEmpty)
    (fun s a => !earlyExit 1 s a)
    (List.replicate 3 (.run 1 0) ++ List.replicate 7 (.run 0 1) ++ List.replicate 6 (.run 1 0))
    (by decide) (by decide)
  obtain ⟨hfault, hne⟩ : s.fault = false ∧ ∃ th ∈ s.threads, th.code ≠ [] := by simpa using hp
  obtain ⟨hT, hF, hrun⟩ := can_finish 1 hs
  exact ⟨s, hs, hfault, hne, hT, hF, hrun hfault hne⟩

/-! ### `setTrue` left asleep -/

/-- **`setTrue` is left asleep.**  `setFalse` reads the counter before it has
cleared `dataReady` for the last time, and ends. -/
theorem left_asleep :
    ¬ ∀ (COUNTLIMIT : Int32) (s : PState), 1 ≤ COUNTLIMIT → (system COUNTLIMIT).Reachable s →
      ¬ TrueLeft s ∧ ¬ FalseLeft s := by
  intro h
  let s := (Places.mk ⟨true, 1⟩ none (.wait (.asleep .condVar1)) .ended false).state 1
  have hs : (system 1).Reachable s :=
    System.reachable_of_run
      (List.replicate 7 (.run 0 0) ++ [.run 1 0] ++ List.replicate 3 (.run 0 0)) rfl
  exact (h 1 s (by decide) hs).1 ⟨_, _, rfl, rfl, rfl, rfl⟩

/-- Behind an early exit `setTrue` goes on to its wait and sleeps. -/
theorem leads_asleep (limit : Int32) (owner : Option Nat) (t : TrueAt)
    (hplace : t ≠ .set ∧ t ≠ .increment ∧ t ≠ .ended)
    (ho : Ownership owner [t.thread limit, FalseAt.ended.thread limit])
    (hown : owner = none ∨ owner = some 0) (hcv : ∀ cv, t = .wait (.asleep cv) → cv = .condVar1) :
    (system limit).Leads ((Places.mk ⟨true, limit⟩ owner t .ended false).state limit) TrueLeft := by
  have hT : owner = some 0 ↔ t.awake = true :=
    (awake_of_owner (q := ⟨⟨true, limit⟩, owner, t, .ended, false⟩) ho).1
  have asleep : ∀ o, (system limit).Leads
      ((Places.mk ⟨true, limit⟩ o (.wait (.asleep .condVar1)) .ended false).state limit) TrueLeft :=
    fun _ => .here ⟨_, _, rfl, rfl, rfl, rfl⟩
  have retesting : (system limit).Leads
      ((Places.mk ⟨true, limit⟩ (some 0) (.wait .retesting) .ended false).state limit) TrueLeft :=
    .step (.run 0 0) rfl (asleep none)
  have waiting : (system limit).Leads
      ((Places.mk ⟨true, limit⟩ (some 0) (.wait .running) .ended false).state limit) TrueLeft :=
    .step (.run 0 0) rfl (asleep none)
  have locking : (system limit).Leads
      ((Places.mk ⟨true, limit⟩ none .lock .ended false).state limit) TrueLeft :=
    .step (.run 0 0) rfl waiting
  have testing : (system limit).Leads
      ((Places.mk ⟨true, limit⟩ none .test .ended false).state limit) TrueLeft := by
    refine .step (.run 0 0) ?_ locking
    simp [system, Monitor.system, step, Places.state, TrueAt.thread, setTrue, stepThread, instr,
      State.set]
  have unlocking : (system limit).Leads
      ((Places.mk ⟨true, limit⟩ (some 0) .unlock .ended false).state limit) TrueLeft :=
    .step (.run 0 0) rfl testing
  cases t with
  | test =>
    obtain rfl := hown.resolve_right fun h => absurd (hT.mp h) (by simp [TrueAt.awake])
    exact testing
  | lock =>
    obtain rfl := hown.resolve_right fun h => absurd (hT.mp h) (by simp [TrueAt.awake])
    exact locking
  | wait st =>
    cases st with
    | running =>
      obtain rfl := hT.mpr rfl
      exact waiting
    | retesting =>
      obtain rfl := hT.mpr rfl
      exact retesting
    | woken =>
      obtain rfl := hown.resolve_right fun h => absurd (hT.mp h) (by simp [TrueAt.awake])
      exact .step (.run 0 0) rfl retesting
    | asleep cv =>
      obtain rfl := hcv cv rfl
      exact asleep owner
  | notify =>
    obtain rfl := hT.mpr rfl
    exact .step (.run 0 0) rfl unlocking
  | unlock =>
    obtain rfl := hT.mpr rfl
    exact unlocking
  | set => exact absurd rfl hplace.1
  | increment => exact absurd rfl hplace.2.1
  | ended => exact absurd rfl hplace.2.2

/-- **Every early exit leads to a `setTrue` that is left asleep.** -/
theorem asleep_of_earlyExit (h : Handing limit q) (hfault : q.fault = false)
    (ho : Ownership (q.state limit).owner (q.state limit).threads) (he : Early limit q) :
    (system limit).Leads (q.state limit) TrueLeft := by
  obtain ⟨⟨d, c⟩, owner, t, f, fault⟩ := q
  obtain ⟨rfl, rfl, rfl, hinc⟩ := he
  obtain rfl : fault = false := hfault
  have hleave : (system c).step ((Places.mk ⟨true, c⟩ owner t .test false).state c) (.run 1 0)
      = some ((Places.mk ⟨true, c⟩ owner t .ended false).state c) := by
    simp [system, Monitor.system, step, Places.state, FalseAt.thread, setFalse, stepThread, instr,
      State.set]
  have hF : ¬ owner = some 1 := by
    intro h1
    exact absurd ((awake_of_owner ho).2.mp h1) (by simp [FalseAt.awake])
  refine .step (.run 1 0) hleave (leads_asleep c owner t ⟨?_, hinc, ?_⟩ ?_ ?_ ?_)
  · intro ht
    exact absurd (h.cleared ht) (by simp)
  · intro ht
    exact h.trueEnded ht (Int32.le_refl _)
  · exact ownership_step ho (show step sem _ (.run 1 0) = some _ from hleave)
  · exact h.owner.imp id fun h => h.resolve_right hF
  · intro cv hcv
    exact (h.trueAsleep cv hcv).1

end Cpp20Examples.PingPong.Solution
