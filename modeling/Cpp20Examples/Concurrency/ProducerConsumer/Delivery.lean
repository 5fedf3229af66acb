import Cpp20Examples.Concurrency.ProducerConsumer
import Cpp20Examples.Lib.Machine

/-!
# The producer and the consumer of `producerConsumer`

`main` calls the producer, which runs to its first `co_yield`, and then runs one consumer on a
thread.  The consumer awaits a buffer, prints it and resumes the producer, until it receives
the empty vector.

* `reachable_of_steps`: this program is one run of the producer and its consumers.
* `Inv`: how what was received, the buffer in the promise and what is left to be yielded
  make up the data.
* `delivers_all`: the consumer receives all data, in order.
-/

namespace Cpp20Examples.ProducerConsumer

open Lib

/-! ### The program -/

/-- What `printContainer` inserts into `std::cout`. -/
def containerText (container : Buffer) : String :=
  " [" ++ String.join (container.dropLast.map fun x => toString x ++ ", ") ++
    toString (container.getLastD 0) ++ "]\n"

/-- `std::prev(last)` is undefined for an empty container. -/
def printContainer (container : Buffer) : Option String :=
  if container.isEmpty then none else some (containerText container)

/-- Where the consumer is: in front of `co_await`, in the loop of `await_suspend`, suspended
behind it, in front of the test of its data, of `printContainer` or of `resume`, or at its
end. -/
inductive Place
  | coAwait
  | awaitSuspend
  | suspended
  | test (data : Buffer)
  | print (data : Buffer)
  | resume
  | returned
  | undefined
  deriving DecidableEq

/-- The producer and the consumer, with what was inserted into `std::cout`. -/
structure Program where
  state : State
  place : Place
  output : List String

namespace Program

/-- The consumer, which is the only one, takes a step. -/
def step (m : Program) : Option Program :=
  match m.place with
  | .coAwait =>
    some { m with
      state := m.state.coAwait 0
      place := if m.state.promise.awaitReady then .test m.state.promise.awaitResume.1
        else .awaitSuspend }
  | .awaitSuspend =>
    some { m with
      state := m.state.awaitSuspend 0
      place := if m.state.promise.exchange.1 then .suspended else .awaitSuspend }
  | .test data =>
    if data.isEmpty then
      some { m with place := .returned, output := m.output ++ ["No data - exit!\n"] }
    else some { m with place := .print data, output := m.output ++ ["Data received:"] }
  | .print data =>
    match printContainer data with
    | some text => some { m with place := .resume, output := m.output ++ [text] }
    | none => some { m with place := .undefined }
  | .resume => some { m with state := m.state.resume, place := .coAwait }
  -- nobody resumes the consumer
  | .suspended | .returned | .undefined => none

/-- The producer has run to its first suspension. -/
def start (points : Points) : Program := ⟨(system points 1).init, .coAwait, []⟩

end Program

/-- The producer yields the data and then the empty vector. -/
def producer (data : List Buffer) : Points := (data ++ [[]]).map some

/-! ### What should hold -/

def Event.receivedValue : Event → Option Buffer
  | .received value => some value
  | .yielded _ => none

/-- What was received, in order. -/
def State.received (s : State) : List Buffer := (s.events.filterMap Event.receivedValue).reverse

/-- What the consumer inserts into `std::cout` for its data. -/
def transcript (data : List Buffer) : List String :=
  data.flatMap fun d => ["Data received:", containerText d]

/-- **Everything is delivered**, in order.  The consumer ends, it never waits or prints an empty
container, and the producer that it resumes is not finished. -/
structure DeliversAll (data : List Buffer) : Prop where
  returns : ∃ m, Steps Program.step (.start (producer data)) m ∧ m.place = .returned ∧
    m.state.received = data ++ [[]] ∧ m.output = transcript data ++ ["No data - exit!\n"]
  neverWaits : ∀ m, Steps Program.step (.start (producer data)) m →
    m.place ≠ .awaitSuspend ∧ m.place ≠ .suspended
  printsData : ∀ m, Steps Program.step (.start (producer data)) m →
    m.place ≠ .print [] ∧ m.place ≠ .undefined
  unfinished : ∀ m, Steps Program.step (.start (producer data)) m →
    m.place = .resume → m.state.producer ≠ .done

/-! ### One run of the system -/

/-- What the consumer does, as one of the consumers of the producer. -/
def Place.phase : Place → Phase
  | .awaitSuspend => .waiting
  | .suspended => .suspended
  | .coAwait | .test _ | .print _ | .resume | .returned | .undefined => .running

/-- The state is one of the system. -/
structure Embeds (points : Points) (m : Program) : Prop where
  reachable : (system points 1).Reachable m.state
  consumers : m.state.consumers = [m.place.phase]

section Embedding

variable {points : Points} {m m' : Program}

theorem resume_consumers (s : State) : s.resume.consumers = s.consumers := by
  rw [State.resume]
  split
  · rename_i rest _
    rcases rest with _ | ⟨_ | value, rest⟩ <;> rfl
  · rfl

theorem Embeds.step (h : Embeds points m) (hst : m.step = some m') : Embeds points m' := by
  obtain ⟨hreach, hconsumers⟩ := h
  rw [Program.step] at hst
  split at hst
  · rename_i hplace
    cases hst
    rw [hplace] at hconsumers
    refine ⟨hreach.step (a := .coAwait 0) trivial (if_pos (by rw [hconsumers]; rfl)), ?_⟩
    rw [State.coAwait]
    dsimp only
    split
    · rw [State.receive, hconsumers]
      rfl
    · rw [hconsumers]
      rfl
  · rename_i hplace
    cases hst
    rw [hplace] at hconsumers
    refine ⟨hreach.step (a := .exchange 0) trivial (if_pos (by rw [hconsumers]; rfl)), ?_⟩
    rw [State.awaitSuspend]
    dsimp only
    split
    · rw [hconsumers]
      rfl
    · exact hconsumers
  · rename_i hplace
    rw [hplace] at hconsumers
    split at hst <;> cases hst <;> exact ⟨hreach, hconsumers⟩
  · rename_i hplace
    rw [hplace] at hconsumers
    split at hst <;> cases hst <;> exact ⟨hreach, hconsumers⟩
  · rename_i hplace
    cases hst
    rw [hplace] at hconsumers
    exact ⟨hreach.step (a := .resume) trivial rfl, (resume_consumers _).trans hconsumers⟩
  · cases hst
  · cases hst
  · cases hst

/-- **The program is one run of the producer and its consumers.** -/
theorem reachable_of_steps (h : Steps Program.step (.start points) m) : Embeds points m := by
  have hconsumers : (system points 1).init.consumers = [Phase.running] := by
    rcases points with _ | ⟨_ | value, rest⟩ <;> rfl
  exact h.invariant (fun _ _ hm hst => hm.step hst) ⟨.init, hconsumers⟩

/-- **The consumer never waits** when the producer yields first. -/
theorem never_waits {value : Buffer} {rest : Points}
    (h : Steps Program.step (.start (some value :: rest)) m) :
    m.place ≠ .awaitSuspend ∧ m.place ≠ .suspended := by
  obtain ⟨hreach, hconsumers⟩ := reachable_of_steps h
  have hrunning : m.place.phase = .running :=
    (always_ready hreach).running _ (by rw [hconsumers]; exact List.mem_singleton_self _)
  constructor
  · intro hplace
    rw [hplace] at hrunning
    cases hrunning
  · intro hplace
    rw [hplace] at hrunning
    cases hrunning

end Embedding

/-! ### The delivery -/

section Received

variable {s : State}

theorem received_receive (c : Nat) : (s.receive c).received = s.received ++ [s.promise.data] := by
  rw [State.received, State.receive, State.received]
  dsimp only
  rw [List.filterMap_cons_some (show Event.receivedValue (.received _) = some _ from rfl),
    List.reverse_cons]
  rfl

theorem received_produce (points : Points) : (s.produce points).received = s.received := by
  rcases points with _ | ⟨_ | value, rest⟩ <;> rfl

theorem left_nil {data received later : List Buffer} (hdata : ∀ d ∈ data, d ≠ [])
    (h : received ++ [[]] ++ later = data ++ [[]]) : received = data ∧ later = [] := by
  have hlater : later = [] := by
    -- else the empty vector would be one of the data in front of the last one
    by_contra hne
    have hdrop := congrArg List.dropLast h
    rw [List.dropLast_append_of_ne_nil hne, List.dropLast_concat] at hdrop
    exact hdata [] (by rw [← hdrop]; simp) rfl
  subst hlater
  rw [List.append_nil] at h
  exact ⟨List.append_cancel_right h, rfl⟩

theorem transcript_append (data : List Buffer) (d : Buffer) :
    transcript (data ++ [d]) = transcript data ++ ["Data received:", containerText d] := by
  simp [transcript]

end Received

/-- The consumer has received `received`, and the producer will yield `later`. -/
def Place.At (data received later : List Buffer) (promise : Promise) (output : List String) :
    Place → Prop
  | .coAwait => received ++ [promise.data] ++ later = data ++ [[]] ∧ output = transcript received
  | .test d => ∃ before, received = before ++ [d] ∧ received ++ later = data ++ [[]] ∧
      output = transcript before
  | .print d => ∃ before, received = before ++ [d] ∧ received ++ later = data ++ [[]] ∧
      output = transcript before ++ ["Data received:"] ∧ d ≠ []
  | .resume => later ≠ [] ∧ received ++ later = data ++ [[]] ∧ output = transcript received
  | .returned => received = data ++ [[]] ∧ output = transcript data ++ ["No data - exit!\n"]
  | .awaitSuspend | .suspended | .undefined => False

/-- **The invariant.**  What was received, the buffer in the promise and what is left to be
yielded make up the data. -/
structure Inv (data later : List Buffer) (m : Program) : Prop where
  producer : m.state.producer = .suspended (later.map some)
  ready : m.state.promise.dataReady = true
  place : m.place.At data m.state.received later m.state.promise m.output

/-- The producer will yield something. -/
def Kept (data : List Buffer) (m : Program) : Prop := ∃ later, Inv data later m

/-- What is left to do. -/
def Producer.left : Producer → Nat
  | .suspended rest => rest.length
  | .done => 0

def Place.left : Place → Nat
  | .coAwait => 4
  | .test _ => 3
  | .print _ => 2
  | .resume => 1
  | .awaitSuspend | .suspended | .returned | .undefined => 0

def Program.left (m : Program) : Nat := 4 * m.state.producer.left + m.place.left

section Delivery

variable {data later : List Buffer} {m m' : Program}

theorem inv_start (data : List Buffer) : Kept data (.start (producer data)) := by
  cases data with
  | nil => exact ⟨[], rfl, rfl, rfl, rfl⟩
  | cons d data => exact ⟨data ++ [[]], rfl, rfl, rfl, rfl⟩

/-- The consumer takes a step that keeps the invariant, and gets nearer to the end. -/
def Program.Advances (data : List Buffer) (m : Program) : Prop :=
  ∃ m', m.step = some m' ∧ Kept data m' ∧ m'.left < m.left

/-- The `co_await` finds the flag set, and takes the buffer. -/
theorem Inv.coAwait (h : Inv data later m) (hplace : m.place = .coAwait) : m.Advances data := by
  obtain ⟨hproducer, hready, hat⟩ := h
  have hawait : m.state.promise.awaitReady = true := hready
  rw [hplace] at hat
  obtain ⟨hleft, houtput⟩ := hat
  rw [Program.Advances, Program.left, Program.step, hplace]
  dsimp only
  rw [State.coAwait, if_pos hawait, if_pos hawait]
  refine ⟨_, rfl, ⟨later, hproducer, hready, m.state.received, received_receive 0, ?_, houtput⟩, ?_⟩
  · rw [received_receive]
    exact hleft
  · exact Nat.add_lt_add_left (Nat.lt_succ_self 3) _

/-- The empty vector is the last one; the others are printed. -/
theorem Inv.test (hdata : ∀ d ∈ data, d ≠ []) (h : Inv data later m) {d : Buffer}
    (hplace : m.place = .test d) : m.Advances data := by
  obtain ⟨hproducer, hready, hat⟩ := h
  rw [hplace] at hat
  obtain ⟨before, hreceived, hleft, houtput⟩ := hat
  rw [Program.Advances, Program.left, Program.step, hplace]
  dsimp only
  by_cases hempty : d.isEmpty = true
  · obtain rfl : d = [] := List.isEmpty_iff.mp hempty
    obtain ⟨rfl, rfl⟩ := left_nil hdata (hreceived ▸ hleft)
    refine ⟨_, if_pos hempty, ⟨[], hproducer, hready, hreceived, ?_⟩, ?_⟩
    · rw [houtput]
    · exact Nat.add_lt_add_left (Nat.succ_pos 2) _
  · have hne : d ≠ [] := fun hnil => hempty (List.isEmpty_iff.mpr hnil)
    refine ⟨_, if_neg hempty, ⟨later, hproducer, hready, before, hreceived, hleft, ?_, hne⟩, ?_⟩
    · rw [houtput]
    · exact Nat.add_lt_add_left (Nat.lt_succ_self 2) _

/-- What is printed is not empty, so the producer has not come to its last value. -/
theorem Inv.print (h : Inv data later m) {d : Buffer} (hplace : m.place = .print d) :
    m.Advances data := by
  obtain ⟨hproducer, hready, hat⟩ := h
  rw [hplace] at hat
  obtain ⟨before, hreceived, hleft, houtput, hne⟩ := hat
  have hprint : printContainer d = some (containerText d) :=
    if_neg fun hempty => hne (List.isEmpty_iff.mp hempty)
  rw [Program.Advances, Program.left, Program.step, hplace]
  dsimp only
  rw [hprint]
  refine ⟨_, rfl, ⟨later, hproducer, hready, ?_, hleft, ?_⟩, ?_⟩
  · -- the last vector is empty, and this one is not
    rintro rfl
    rw [List.append_nil, hreceived] at hleft
    have hlast := List.append_inj_right' hleft rfl
    exact hne (List.cons.inj hlast).1
  · rw [houtput, hreceived, transcript_append, List.append_assoc]
    rfl
  · exact Nat.add_lt_add_left (Nat.lt_succ_self 1) _

theorem Inv.resume (h : Inv data later m) (hplace : m.place = .resume) : m.Advances data := by
  obtain ⟨hproducer, -, hat⟩ := h
  rw [hplace] at hat
  obtain ⟨hne, hleft, houtput⟩ := hat
  obtain ⟨v, later, rfl⟩ := List.exists_cons_of_ne_nil hne
  have hresume : m.state.resume = m.state.produce (some v :: later.map some) := by
    rw [State.resume, hproducer]
    rfl
  rw [Program.Advances, Program.left, Program.step, hplace, hproducer]
  dsimp only
  rw [hresume]
  refine ⟨_, rfl, ⟨later, rfl, rfl, ?_, ?_⟩, ?_⟩
  · rw [received_produce, List.append_assoc]
    exact hleft
  · rw [received_produce]
    exact houtput
  · show 4 * (later.map some).length + 4 < 4 * ((v :: later).map some).length + 1
    rw [List.map_cons, List.length_cons]
    omega

/-- **The consumer goes on until it has returned.** -/
theorem Inv.progress (hdata : ∀ d ∈ data, d ≠ []) (h : Inv data later m) :
    m.place = .returned ∨ m.Advances data := by
  have hat := h.place
  cases hplace : m.place with
  | coAwait => exact .inr (h.coAwait hplace)
  | test d => exact .inr (h.test hdata hplace)
  | print d => exact .inr (h.print hplace)
  | resume => exact .inr (h.resume hplace)
  | returned => exact .inl rfl
  | awaitSuspend =>
    rw [hplace] at hat
    exact hat.elim
  | suspended =>
    rw [hplace] at hat
    exact hat.elim
  | undefined =>
    rw [hplace] at hat
    exact hat.elim

/-- **A step keeps the invariant**, and gets nearer to the end. -/
theorem Kept.step (hdata : ∀ d ∈ data, d ≠ []) (h : Kept data m) (hst : m.step = some m') :
    Kept data m' ∧ m'.left < m.left := by
  obtain ⟨later, hinv⟩ := h
  rcases hinv.progress hdata with hreturned | ⟨t, ht, hkept⟩
  · rw [Program.step, hreturned] at hst
    cases hst
  · obtain rfl := Option.some.inj (ht.symm.trans hst)
    exact hkept

theorem kept (hdata : ∀ d ∈ data, d ≠ [])
    (hm : Steps Program.step (.start (producer data)) m) : Kept data m :=
  hm.invariant (fun _ _ hm hst => (hm.step hdata hst).1) (inv_start data)

/-- **Producer and consumer deliver everything**, in order. -/
theorem delivers_all (data : List Buffer) (hdata : ∀ d ∈ data, d ≠ []) : DeliversAll data := by
  refine ⟨?_, ?_, ?_, ?_⟩
  · obtain ⟨m, hm, hstop, later, hinv⟩ := Steps.exists_stopped (I := Kept data) (μ := Program.left)
      (fun _ _ hm hst => hm.step hdata hst) (inv_start data)
    have hat := hinv.place
    rcases hinv.progress hdata with hreturned | ⟨m', hst, -⟩
    · rw [hreturned] at hat
      exact ⟨m, hm, hreturned, hat.1, hat.2⟩
    · rw [hstop] at hst
      cases hst
  · intro m hm
    cases data with
    | nil => exact never_waits hm
    | cons d data => exact never_waits hm
  · intro m hm
    obtain ⟨later, hinv⟩ := kept hdata hm
    have hat := hinv.place
    constructor
    · intro hplace
      rw [hplace] at hat
      obtain ⟨before, -, -, -, hne⟩ := hat
      exact hne rfl
    · intro hplace
      rw [hplace] at hat
      exact hat
  · intro m hm hplace hdone
    obtain ⟨later, hinv⟩ := kept hdata hm
    rw [hinv.producer] at hdone
    cases hdone

/-- The data of `main`, shorter. -/
theorem delivers_all_two : DeliversAll [[1, 2], [3]] := delivers_all [[1, 2], [3]] (by decide)

end Delivery

end Cpp20Examples.ProducerConsumer
