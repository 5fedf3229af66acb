import Cpp20Examples.Lib.Threads

/-!
# A producer and its consumers

`AudioDataResult` of `producerConsumer`: a producer coroutine yields buffers into its
promise and sets `data_ready_`; a `co_await` of it takes the buffer.  A `co_await` that
finds the flag set goes on at once and leaves it set; one that does not waits for the flag
in `await_suspend`, takes it with `exchange(false)`, and goes on when the consumer is
resumed.

* `AtMostOnce`: no more buffers are received than were yielded, and the flag is false from
  a completed `co_await` to the next yield.
* `quiet`: the steps that keep it.
* `always_ready`: a producer that yields first leaves no `co_await` to be quiet.
* `consumed_at_most_once`: they do in all runs, and every other step breaks it.
-/

namespace Cpp20Examples.ProducerConsumer

open Lib

abbrev Buffer := List Int

/-- `data_` and `data_ready_` of the promise. -/
structure Promise where
  data : Buffer := []
  dataReady : Bool := false
  deriving DecidableEq

def Promise.yieldValue (_ : Promise) (value : Buffer) : Promise := ⟨value, true⟩

def Promise.awaitReady (p : Promise) : Bool := p.dataReady

/-- `data_ready_.exchange(false)`, the condition of the loop of `await_suspend`. -/
def Promise.exchange (p : Promise) : Bool × Promise := (p.dataReady, { p with dataReady := false })

/-- The buffer is moved out of the promise. -/
def Promise.awaitResume (p : Promise) : Buffer × Promise := (p.data, { p with data := [] })

/-- Where a producer will be suspended: at a `co_yield`, or (`none`) at another `co_await`. -/
abbrev Points := List (Option Buffer)

/-- The producer, suspended in front of what is left, or at its final suspend point. -/
inductive Producer
  | suspended (rest : Points)
  | done
  deriving DecidableEq

/-- The next resumption yields. -/
def Producer.yieldsNext : Producer → Bool
  | .suspended (some _ :: _) => true
  | .suspended _ | .done => false

/-- Where a consumer is: outside a `co_await`, in the loop of `await_suspend`, or suspended
behind it. -/
inductive Phase
  | running
  | waiting
  | suspended
  deriving DecidableEq

inductive Event
  | yielded (value : Buffer)
  | received (value : Buffer)
  deriving DecidableEq

structure State where
  promise : Promise
  producer : Producer
  consumers : List Phase
  /-- newest first -/
  events : List Event

inductive Action
  | resume
  | coAwait (c : Nat)
  | exchange (c : Nat)
  | resumeConsumer (c : Nat)

namespace State

/-- The producer runs to its next suspension, or to its end. -/
def produce (s : State) : Points → State
  | [] => { s with producer := .done }
  | none :: rest => { s with producer := .suspended rest }
  | some value :: rest =>
    { s with
      promise := s.promise.yieldValue value
      producer := .suspended rest
      events := .yielded value :: s.events }

/-- `AudioDataResult::resume` -/
def resume (s : State) : State :=
  match s.producer with
  | .suspended rest => s.produce rest
  | .done => s

/-- `await_resume`, at the end of a `co_await` of the consumer `c`. -/
def receive (s : State) (c : Nat) : State :=
  { s with
    promise := s.promise.awaitResume.2
    consumers := s.consumers.set c .running
    events := .received s.promise.awaitResume.1 :: s.events }

/-- `await_ready`, and what follows on its result. -/
def coAwait (s : State) (c : Nat) : State :=
  if s.promise.awaitReady then s.receive c
  else { s with consumers := s.consumers.set c .waiting }

/-- One turn of the loop of `await_suspend`. -/
def awaitSuspend (s : State) (c : Nat) : State :=
  if s.promise.exchange.1 then
    { s with promise := s.promise.exchange.2, consumers := s.consumers.set c .suspended }
  else { s with promise := s.promise.exchange.2 }

end State

def step (s : State) : Action → Option State
  | .resume => some s.resume
  | .coAwait c => if s.consumers[c]? = some .running then some (s.coAwait c) else none
  | .exchange c => if s.consumers[c]? = some .waiting then some (s.awaitSuspend c) else none
  | .resumeConsumer c => if s.consumers[c]? = some .suspended then some (s.receive c) else none

/-- A producer, which runs to its first suspension when it is called, and `n` consumers. -/
def system (points : Points) (n : Nat) : System State Action where
  init := State.produce ⟨{}, .done, List.replicate n .running, []⟩ points
  step := step

/-! ### What should hold -/

def Event.isYielded : Event → Bool
  | .yielded _ => true
  | .received _ => false

/-- The `co_yield`s that were executed. -/
def State.yields (s : State) : Nat := s.events.countP Event.isYielded

/-- The `co_await`s that have completed. -/
def State.completed (s : State) : Nat := s.events.countP fun e => !e.isYielded

/-- Each buffer is consumed at most once. -/
structure AtMostOnce (s : State) : Prop where
  completed_le : s.completed ≤ s.yields
  cleared : ∀ value earlier, s.events = .received value :: earlier → s.promise.dataReady = false

/-- No `co_await` is begun while the flag is set, and the producer does not yield while a
consumer is suspended. -/
def quiet (s : State) : Action → Bool
  | .coAwait _ => !s.promise.dataReady
  | .resume => !(s.producer.yieldsNext && s.consumers.contains .suspended)
  | .exchange _ | .resumeConsumer _ => true

/-! ### The runs of quiet steps -/

/-- What a consumer has taken and not received yet. -/
def Phase.taken : Phase → Nat
  | .suspended => 1
  | .running | .waiting => 0

def State.taken (s : State) : Nat := (s.consumers.map Phase.taken).sum

/-- **A buffer is ready, taken or received**, and only one is ready or taken. -/
structure Balanced (s : State) : Prop where
  balance : s.completed + s.taken + s.promise.dataReady.toNat ≤ s.yields
  exclusive : s.promise.dataReady = true → .suspended ∉ s.consumers
  cleared : ∀ value earlier, s.events = .received value :: earlier → s.promise.dataReady = false

section Step

variable {s s' : State} {c : Nat}

theorem taken_set {phase : Phase} (h : s.consumers[c]? = some phase) (phase' : Phase) :
    ((s.consumers.set c phase').map Phase.taken).sum + phase.taken = s.taken + phase'.taken := by
  obtain ⟨r, hr, hset⟩ := exists_rest Phase.taken h
  rw [State.taken, hr, hset]
  omega

theorem yields_receive : (s.receive c).yields = s.yields := by
  simp [State.yields, State.receive, Event.isYielded]

theorem completed_receive : (s.receive c).completed = s.completed + 1 := by
  simp [State.completed, State.receive, Event.isYielded]

theorem balanced_produce (h : Balanced s) {rest : Points}
    (hquiet : (Producer.suspended rest).yieldsNext = true → .suspended ∉ s.consumers) :
    Balanced (s.produce rest) := by
  cases rest with
  | nil => exact ⟨h.balance, h.exclusive, h.cleared⟩
  | cons point rest =>
    cases point with
    | none => exact ⟨h.balance, h.exclusive, h.cleared⟩
    | some value =>
      refine ⟨?_, fun _ => hquiet rfl, nofun⟩
      have hyields : (s.produce (some value :: rest)).yields = s.yields + 1 :=
        List.countP_cons_of_pos rfl
      have hcompleted : (s.produce (some value :: rest)).completed = s.completed := by
        simp [State.completed, State.produce, Event.isYielded]
      have hle := h.balance
      rw [hyields, hcompleted]
      show s.completed + s.taken + 1 ≤ s.yields + 1
      omega

/-- A suspended consumer that receives finds the flag false. -/
theorem balanced_receive (h : Balanced s) (hc : s.consumers[c]? = some .suspended) :
    Balanced (s.receive c) := by
  have hfalse : s.promise.dataReady = false :=
    eq_false_of_ne_true fun hready => h.exclusive hready (List.mem_of_getElem? hc)
  refine ⟨?_, fun hready => absurd hready (by simp [State.receive, Promise.awaitResume, hfalse]),
    fun value earlier _ => hfalse⟩
  have htaken : (s.receive c).taken + 1 = s.taken := taken_set hc .running
  have hle := h.balance
  rw [yields_receive, completed_receive]
  show s.completed + 1 + (s.receive c).taken + s.promise.dataReady.toNat ≤ s.yields
  omega

/-- **A quiet step keeps the balance.** -/
theorem balanced_step {a : Action} (h : Balanced s) (hquiet : quiet s a = true)
    (hst : step s a = some s') : Balanced s' := by
  cases a with
  | resume =>
    cases hst
    rw [State.resume]
    cases hp : s.producer with
    | suspended rest =>
      apply balanced_produce h
      intro hyields hmem
      simp [quiet, hp, hyields, hmem] at hquiet
    | done => exact h
  | coAwait c =>
    obtain ⟨hc, hst⟩ := Option.ite_none_right_eq_some.mp hst
    cases hst
    have hfalse : s.promise.awaitReady = false := Bool.not_eq_eq_eq_not.mp hquiet
    rw [State.coAwait, if_neg (ne_true_of_eq_false hfalse)]
    refine ⟨?_, fun hready => absurd (hready.symm.trans hfalse) nofun, h.cleared⟩
    have htaken := taken_set hc .waiting
    have hle := h.balance
    show s.completed + ((s.consumers.set c .waiting).map Phase.taken).sum +
      s.promise.dataReady.toNat ≤ s.yields
    rw [show Phase.taken .running = Phase.taken .waiting from rfl] at htaken
    omega
  | exchange c =>
    obtain ⟨hc, hst⟩ := Option.ite_none_right_eq_some.mp hst
    cases hst
    rw [State.awaitSuspend, Promise.exchange]
    cases hready : s.promise.dataReady with
    | true =>
      refine ⟨?_, nofun, fun _ _ _ => rfl⟩
      have htaken := taken_set hc .suspended
      have hle := h.balance
      rw [hready] at hle
      show s.completed + ((s.consumers.set c .suspended).map Phase.taken).sum + 0 ≤ s.yields
      simp only [Phase.taken, Bool.toNat_true] at htaken hle
      omega
    | false =>
      refine ⟨?_, nofun, fun _ _ _ => rfl⟩
      have hle := h.balance
      rwa [hready] at hle
  | resumeConsumer c =>
    obtain ⟨hc, hst⟩ := Option.ite_none_right_eq_some.mp hst
    cases hst
    exact balanced_receive h hc

end Step

section Runs

variable {points : Points} {n : Nat} {s s' : State}

theorem balanced_init : Balanced (system points n).init := by
  have hnone : .suspended ∉ List.replicate n Phase.running := by simp
  refine balanced_produce ⟨?_, fun _ => hnone, fun _ _ _ => rfl⟩ fun _ => hnone
  show 0 + ((List.replicate n Phase.running).map Phase.taken).sum + 0 ≤ 0
  simp [Phase.taken]

theorem balanced (hs : (system points n).ReachableBy (fun s a => quiet s a) s) : Balanced s :=
  hs.invariant balanced_init fun _ _ _ h hquiet hst => balanced_step h hquiet hst

theorem Balanced.atMostOnce (h : Balanced s) : AtMostOnce s := by
  refine ⟨?_, h.cleared⟩
  have hle := h.balance
  omega

/-! ### The other steps -/

theorem not_atMostOnce_receive {c : Nat} (h : s.promise.dataReady = true) :
    ¬AtMostOnce (s.receive c) := fun honce =>
  absurd (h.symm.trans (honce.cleared _ _ rfl)) nofun

theorem resume_of_yieldsNext (h : s.producer.yieldsNext = true) :
    s.resume.promise.dataReady = true ∧ s.resume.consumers = s.consumers := by
  rw [State.resume]
  split
  · rename_i rest hp
    rw [hp] at h
    rcases rest with _ | ⟨_ | value, rest⟩
    · cases h
    · cases h
    · exact ⟨rfl, rfl⟩
  · rename_i hp
    rw [hp] at h
    cases h

/-- **A step that is not quiet** completes a `co_await` with the flag set, or lets the
resumption of a suspended consumer do so. -/
theorem breaks_of_not_quiet {a : Action} (hquiet : quiet s a = false) (hst : step s a = some s') :
    ¬AtMostOnce s' ∨ ∃ c s'', step s' (.resumeConsumer c) = some s'' ∧ ¬AtMostOnce s'' := by
  cases a with
  | resume =>
    obtain ⟨hyields, hmem⟩ : s.producer.yieldsNext = true ∧ .suspended ∈ s.consumers := by
      simpa [quiet] using hquiet
    obtain ⟨c, hc⟩ := List.mem_iff_getElem?.mp hmem
    cases hst
    obtain ⟨hready, hsame⟩ := resume_of_yieldsNext hyields
    exact .inr ⟨c, _, if_pos (hsame ▸ hc), not_atMostOnce_receive hready⟩
  | coAwait c =>
    obtain ⟨-, hst⟩ := Option.ite_none_right_eq_some.mp hst
    cases hst
    have hready : s.promise.dataReady = true := by simpa [quiet] using hquiet
    refine .inl ?_
    rw [State.coAwait, if_pos (show s.promise.awaitReady = true from hready)]
    exact not_atMostOnce_receive hready
  | exchange c => cases hquiet
  | resumeConsumer c => cases hquiet

/-- The flag is set, and no consumer waits for it or has taken it. -/
structure AlwaysReady (s : State) : Prop where
  ready : s.promise.dataReady = true
  running : ∀ phase ∈ s.consumers, phase = Phase.running

/-- A producer that yields first, as `producer` does, sets the flag before any consumer
begins: it stays set. -/
theorem always_ready {value : Buffer} {rest : Points}
    (hs : (system (some value :: rest) n).Reachable s) : AlwaysReady s := by
  refine hs.invariant ⟨rfl, fun _ h => List.eq_of_mem_replicate h⟩
    ?_
  rintro s a s' ⟨hready, hall⟩ _ hst
  have hnever : ∀ c phase, s.consumers[c]? = some phase → phase = Phase.running :=
    fun c phase hc => hall phase (List.mem_of_getElem? hc)
  cases a with
  | resume =>
    cases hst
    rw [State.resume]
    split
    · rename_i rest hp
      rcases rest with _ | ⟨_ | value, rest⟩
      · exact ⟨hready, hall⟩
      · exact ⟨hready, hall⟩
      · exact ⟨rfl, hall⟩
    · exact ⟨hready, hall⟩
  | coAwait c =>
    obtain ⟨hc, hst⟩ := Option.ite_none_right_eq_some.mp hst
    cases hst
    rw [State.coAwait, if_pos (show s.promise.awaitReady = true from hready)]
    exact ⟨hready, fun phase h => (List.mem_or_eq_of_mem_set h).elim (hall phase) id⟩
  | exchange c =>
    obtain ⟨hc, -⟩ := Option.ite_none_right_eq_some.mp hst
    cases hnever c _ hc
  | resumeConsumer c =>
    obtain ⟨hc, -⟩ := Option.ite_none_right_eq_some.mp hst
    cases hnever c _ hc

end Runs

/-- **Each buffer is consumed at most once in the runs of quiet steps**, and every other
step leads to a state where this fails. -/
theorem consumed_at_most_once (points : Points) (n : Nat) :
    (∀ s, (system points n).ReachableBy (fun s a => quiet s a) s → AtMostOnce s) ∧
    ∀ s a s', (system points n).ReachableBy (fun s a => quiet s a) s → quiet s a = false →
      (system points n).step s a = some s' →
      (system points n).Leads s' fun s'' => ¬AtMostOnce s'' := by
  refine ⟨fun s hs => (balanced hs).atMostOnce, ?_⟩
  intro s a s' _ hquiet hst
  rcases breaks_of_not_quiet hquiet hst with hbreak | ⟨c, s'', hst', hbreak⟩
  · exact .here hbreak
  · exact .step (.resumeConsumer c) hst' (.here hbreak)

/-- A consumer that begins before the first yield takes the flag, and is resumed. -/
theorem consumed_at_most_once_waiting :
    ∃ s, (system [none, some [1, 2, 3, 4]] 1).ReachableBy (fun s a => quiet s a) s ∧
      s.events = [.received [1, 2, 3, 4], .yielded [1, 2, 3, 4]] ∧ AtMostOnce s := by
  obtain ⟨s, hs, hp⟩ := System.exists_reachableBy (M := system [none, some [1, 2, 3, 4]] 1) quiet
    (p := fun s => s.events == [.received [1, 2, 3, 4], .yielded [1, 2, 3, 4]])
    [.coAwait 0, .exchange 0, .resume, .exchange 0, .resumeConsumer 0] (by decide) (by decide)
  exact ⟨s, hs, by simpa using hp, (consumed_at_most_once _ _).1 s hs⟩

/-- One buffer, received twice: the first `co_await` finds the flag set and leaves it set,
and so the second one goes on at once too, and receives the empty vector. -/
theorem consumed_twice : ¬∀ s, (system [some [1, 2, 3, 4]] 1).Reachable s → AtMostOnce s := by
  intro h
  have honce := h _ (System.reachable_of_run [.coAwait 0, .coAwait 0] rfl)
  exact absurd honce.completed_le (by decide)

end Cpp20Examples.ProducerConsumer
