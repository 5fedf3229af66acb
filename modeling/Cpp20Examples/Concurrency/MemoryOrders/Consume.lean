import Cpp20Examples.Lib.WeakMemory

/-!
# Acquire and consume

In `acquireConsume` a producer makes a string, writes `data` and `atoData`, and releases the
pointer to the string.  The consumer waits for the pointer with `memory_order_consume`, and
prints all three.

* `Made`, `Written`: what comes with the pointer.
* `consume_races`: the string is read without a race, and the read of `data` behind it is
  a race in every run.
-/

namespace Cpp20Examples.MemoryOrders.Consume

open Lib Lib.WeakMemory

/-! ### The program -/

inductive Atomic
  | ptr
  | atoData
  deriving DecidableEq

/-- What the atomic objects hold. -/
inductive Value
  | null
  | address
  | int (n : Int)
  deriving DecidableEq

inductive Object
  | string
  | data
  deriving DecidableEq

inductive Data
  | string (s : String)
  | int (n : Int)
  deriving DecidableEq

/-- Where the threads are. -/
inductive Place
  | newString
  | writeData
  | storeAtoData
  | storePtr
  | produced
  | loadPtr
  | readString
  | readData (p2 : Data)
  | loadAtoData (p2 data : Data)
  | printed (p2 data : Data) (atoData : Value)
  deriving DecidableEq

/-- `producer` and `consumer` -/
def op (_ : Nat) : Place → Op Atomic Object Value Data Place
  | .newString => .write .string (fun _ => .string "C++11") .writeData
  | .writeData => .write .data (fun _ => .int 2011) .storeAtoData
  | .storeAtoData => .store .relaxed .atoData (.int 2014) .storePtr
  | .storePtr => .store .release .ptr .address .produced
  | .loadPtr => .load .consume .ptr fun p2 => if p2 = .null then .loadPtr else .readString
  -- `*p2` depends on the consume, `data` does not
  | .readString => .read .string true .readData
  | .readData p2 => .read .data false (.loadAtoData p2)
  | .loadAtoData p2 data => .load .relaxed .atoData (.printed p2 data)
  | .produced | .printed _ _ _ => .stop

def memory : Memory Atomic Object Value Data where
  history
    | .ptr => [{ value := .null }]
    | .atoData => [{ value := .int 0 }]
  cells
    | .string => { value := .string "" }
    | .data => { value := .int 0 }

def program : System (State Atomic Object Value Data Place) Act :=
  system op memory [.newString, .loadPtr]

/-! ### The invariant -/

variable {m m' : Memory Atomic Object Value Data} {p p' t t' : Thread Atomic Place} {c : Act}
  {v v' : View Atomic}

/-- The view knows the string that the producer made. -/
def Made (m : Memory Atomic Object Value Data) (v : View Atomic) : Prop :=
  (m.cells .string).value = .string "C++11" ∧
    v.Knows ((m.cells .string).accesses.filter Access.writes)

/-- The producer has written `data`. -/
def Written (m : Memory Atomic Object Value Data) : Prop :=
  ∃ e ∈ (m.cells .data).accesses, e.thread = 0 ∧ e.writes = true ∧ 1 ≤ e.time

/-- What the producer has made and knows. -/
def Producer (m : Memory Atomic Object Value Data) (p : Thread Atomic Place) : Prop :=
  match p.place with
  | .newString => ∀ o, (m.cells o).accesses = []
  | .writeData => Made m p.view ∧ (m.cells .data).accesses = []
  | .storeAtoData | .storePtr => Made m p.view ∧ Written m
  | .produced => True
  | _ => False

/-- What the consumer knows. -/
def Consumer (m : Memory Atomic Object Value Data) (p t : Thread Atomic Place) : Prop :=
  match t.place with
  | .loadPtr => True
  | .readString => p.place = .produced ∧ Made m (t.view ⊔ t.dependency) ∧ Written m
  | .readData p2 => p.place = .produced ∧ p2 = .string "C++11" ∧ Written m
  | _ => False

structure Inv (m : Memory Atomic Object Value Data) (p t : Thread Atomic Place) : Prop where
  raced : m.raced = true → t.place = .readData (.string "C++11")
  ptr : ∀ msg ∈ m.history .ptr, msg.value = .null ∨
    p.place = .produced ∧ Made m msg.view ∧ Written m
  producer : Producer m p
  consumer : Consumer m p t
  /-- A consume adds nothing to this. -/
  view : t.view (.inr 0) = 0

theorem Made.mono (h : Made m v) (hle : v ≤ v') : Made m v' := ⟨h.1, h.2.mono hle⟩

theorem inv_producer (h : Inv m p t) (hp : perform m p c (op 0 p.place) = some (m', p'))
    (hraced : m.raced = false) (ht : c.thread = 0) : Inv m' p' t := by
  have hproducer := h.producer
  have hload : p.place ≠ .produced → t.place = .loadPtr := by
    intro hne
    have hconsumer := h.consumer
    rw [Consumer] at hconsumer
    split at hconsumer
    · assumption
    · exact absurd hconsumer.1 hne
    · exact absurd hconsumer.1 hne
    · exact hconsumer.elim
  have hptr : p.place ≠ .produced → ∀ msg ∈ m.history .ptr, msg.value = .null :=
    fun hne msg hmsg => (h.ptr msg hmsg).resolve_right fun hpub => hne hpub.1
  cases hplace : p.place with
  | newString =>
    rw [Producer, hplace] at hproducer
    have hload := hload (by simp [hplace])
    have hptr := hptr (by simp [hplace])
    rw [hplace] at hp
    rcases write_cases hp with ⟨hknows, rfl, rfl⟩ | ⟨hrace, -, -⟩
    · refine ⟨fun hr => absurd hr (by simp [Memory.access, hraced]), ?_, ⟨⟨?_, ?_⟩, ?_⟩, ?_, h.view⟩
      · exact fun msg hmsg => .inl (hptr msg hmsg)
      · rw [access_cells_self]
      · rw [access_cells_self]
        exact (hknows.tick c.thread true).filter _
      · rw [access_cells_of_ne _ (by decide)]
        exact hproducer .data
      · rw [Consumer, hload]
        trivial
    · rw [hproducer .string] at hrace
      exact absurd (fun e he => nomatch he) hrace
  | writeData =>
    rw [Producer, hplace] at hproducer
    have hload := hload (by simp [hplace])
    have hptr := hptr (by simp [hplace])
    rw [hplace] at hp
    rcases write_cases hp with ⟨-, rfl, rfl⟩ | ⟨hrace, -, -⟩
    · refine ⟨fun hr => absurd hr (by simp [Memory.access, hraced]), ?_, ⟨?_, ?_⟩, ?_, h.view⟩
      · exact fun msg hmsg => .inl (hptr msg hmsg)
      · rw [Made, access_cells_of_ne _ (by decide)]
        exact hproducer.1.mono (p.view.le_tick _)
      · refine ⟨⟨c.thread, p.view (.inr c.thread) + 1, true⟩, ?_, ht, rfl, Nat.le_add_left ..⟩
        rw [access_cells_self]
        exact List.mem_cons_self ..
      · rw [Consumer, hload]
        trivial
    · rw [hproducer.2] at hrace
      exact absurd (fun e he => nomatch he) hrace
  | storeAtoData =>
    rw [Producer, hplace] at hproducer
    have hload := hload (by simp [hplace])
    have hptr := hptr (by simp [hplace])
    rw [hplace] at hp
    obtain ⟨-, -, -, rfl, rfl⟩ := store_cases hp
    refine ⟨fun hr => absurd hr (by simp [Memory.post, hraced]), ?_,
      ⟨hproducer.1.mono le_sup_left, hproducer.2⟩, ?_, h.view⟩
    · intro msg hmsg
      rw [post_history_of_ne _ (by decide)] at hmsg
      exact .inl (hptr msg hmsg)
    · rw [Consumer, hload]
      trivial
  | storePtr =>
    rw [Producer, hplace] at hproducer
    have hload := hload (by simp [hplace])
    have hptr := hptr (by simp [hplace])
    rw [hplace] at hp
    obtain ⟨-, -, -, rfl, rfl⟩ := store_cases hp
    refine ⟨fun hr => absurd hr (by simp [Memory.post, hraced]), ?_, trivial, ?_, h.view⟩
    · intro msg hmsg
      rw [post_history_self] at hmsg
      rcases List.mem_cons.mp hmsg with rfl | hmsg
      · exact .inr ⟨rfl, hproducer.1.mono le_sup_left, hproducer.2⟩
      · exact .inl (hptr msg hmsg)
    · rw [Consumer, hload]
      trivial
  | produced =>
    rw [hplace] at hp
    cases hp
  | _ =>
    rw [Producer, hplace] at hproducer
    exact hproducer.elim

theorem inv_consumer (h : Inv m p t) (hp : perform m t c (op 1 t.place) = some (m', t'))
    (hraced : m.raced = false) (ht : c.thread = 1) : Inv m' p t' := by
  have hconsumer := h.consumer
  cases hplace : t.place with
  | loadPtr =>
    rw [hplace] at hp
    obtain ⟨msg, hmsg, -, rfl, rfl⟩ := load_cases hp
    refine ⟨fun hr => absurd hr (by simp [hraced]), h.ptr, h.producer, ?_, ?_⟩
    · rcases h.ptr msg hmsg with hnull | ⟨hproduced, hmade, hwritten⟩
      · rw [Consumer, if_pos hnull]
        trivial
      · by_cases hnull : msg.value = .null
        · rw [Consumer, if_pos hnull]
          trivial
        · rw [Consumer, if_neg hnull]
          exact ⟨hproduced, hmade.mono (le_trans le_sup_right le_sup_right), hwritten⟩
    · have hview := h.view
      simp [Order.acquires, hview]
  | readString =>
    rw [Consumer, hplace] at hconsumer
    obtain ⟨hproduced, hmade, hwritten⟩ := hconsumer
    rw [hplace] at hp
    rcases read_cases hp with ⟨-, rfl, rfl⟩ | ⟨hrace, -, -⟩
    · have hmade' : ∀ {v : View Atomic}, Made m v →
          Made (m.access .string (m.cells .string).value
            ⟨c.thread, t.view (.inr c.thread) + 1, false⟩) v := by
        intro v hv
        rw [Made, access_cells_self]
        refine ⟨hv.1, ?_⟩
        rw [List.filter_cons_of_neg (by simp)]
        exact hv.2
      have hwritten' : Written m → Written (m.access .string (m.cells .string).value
          ⟨c.thread, t.view (.inr c.thread) + 1, false⟩) := by
        intro hw
        rw [Written, access_cells_of_ne _ (by decide)]
        exact hw
      refine ⟨fun hr => absurd hr (by simp [Memory.access, hraced]), ?_, ?_,
        ⟨hproduced, hmade.1, hwritten' hwritten⟩, ?_⟩
      · exact fun msg hmsg => (h.ptr msg hmsg).imp_right fun hpub =>
          ⟨hpub.1, hmade' hpub.2.1, hwritten' hpub.2.2⟩
      · rw [Producer, hproduced]
        trivial
      · exact (t.view.tick_of_ne (show 0 ≠ c.thread by omega)).trans h.view
    · exact absurd hmade.2 hrace
  | readData p2 =>
    rw [Consumer, hplace] at hconsumer
    obtain ⟨hproduced, rfl, hwritten⟩ := hconsumer
    rw [hplace] at hp
    rcases read_cases hp with ⟨hknows, -, -⟩ | ⟨-, rfl, rfl⟩
    · obtain ⟨e, he, hthread, hwrites, htime⟩ := hwritten
      have hle := hknows e (List.mem_filter.mpr ⟨he, hwrites⟩)
      have hseen : t.seen false = t.view := rfl
      rw [hthread, hseen, h.view] at hle
      omega
    · refine ⟨fun _ => hplace, h.ptr, ?_, ?_, h.view⟩
      · rw [Producer, hproduced]
        trivial
      · rw [Consumer, hplace]
        exact ⟨hproduced, rfl, hwritten⟩
  | _ =>
    rw [Consumer, hplace] at hconsumer
    exact hconsumer.elim

theorem inv {s : State Atomic Object Value Data Place} (hs : program.Reachable s) :
    ∃ p t, s.threads = [p, t] ∧ Inv s.memory p t := by
  refine hs.invariant ?_ ?_ (I := fun s => ∃ p t, s.threads = [p, t] ∧ Inv s.memory p t)
  · refine ⟨_, _, rfl, nofun, ?_, fun o => by cases o <;> rfl, trivial, rfl⟩
    intro msg hmsg
    exact .inl (by rw [List.mem_singleton.mp hmsg])
  · rintro s c s' ⟨p, t, hthreads, h⟩ - hst
    obtain ⟨hraced, th, m, th', hth, hp, rfl⟩ := step_cases hst
    rw [hthreads] at hth ⊢
    match ht : c.thread with
    | 0 =>
      rw [ht] at hth hp
      cases hth
      exact ⟨th', t, rfl, inv_producer h hp hraced ht⟩
    | 1 =>
      rw [ht] at hth hp
      cases hth
      exact ⟨p, th', rfl, inv_consumer h hp hraced ht⟩
    | n + 2 =>
      rw [ht] at hth
      cases hth

/-- **A consume orders what depends on it, and no more.**  No run gets behind the read of
`data`, which is a data race wherever it is made; it is made when the producer has ended, with
its string in `p2`, and nothing else is a race. -/
theorem consume_races :
    (∀ s, program.Reachable s → ∃ p t, s.threads = [p, t] ∧
      (t.place = .loadPtr ∨ t.place = .readString ∨ t.place = .readData (.string "C++11")) ∧
      (s.memory.raced = true →
        p.place = .produced ∧ t.place = .readData (.string "C++11"))) ∧
    ∃ s, program.Reachable s ∧ s.memory.raced = true := by
  constructor
  · intro s hs
    obtain ⟨p, t, hthreads, h⟩ := inv hs
    have hconsumer := h.consumer
    refine ⟨p, t, hthreads, ?_, ?_⟩
    · rw [Consumer] at hconsumer
      split at hconsumer
      · rename_i hplace
        exact .inl hplace
      · rename_i hplace
        exact .inr (.inl hplace)
      · rename_i p2 hplace
        rw [hplace, hconsumer.2.1]
        exact .inr (.inr rfl)
      · exact hconsumer.elim
    · intro hraced
      have hplace := h.raced hraced
      rw [Consumer, hplace] at hconsumer
      exact ⟨hconsumer.1, hplace⟩
  · exact System.exists_reachable [⟨0, 0, 0, 0⟩, ⟨0, 0, 0, 0⟩, ⟨0, 0, 0, 1⟩, ⟨0, 0, 0, 1⟩,
      ⟨1, 0, 0, 0⟩, ⟨1, 0, 0, 0⟩, ⟨1, 0, 0, 0⟩] (by decide)

end Cpp20Examples.MemoryOrders.Consume
