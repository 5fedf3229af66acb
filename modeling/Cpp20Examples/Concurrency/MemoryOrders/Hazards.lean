import Cpp20Examples.Lib.WeakMemory
import Mathlib.Algebra.Order.Ring.Int

/-!
# Sums from several threads

`addMoney` adds to one balance from many threads, and the first `for_each` of
`parallelAlgorithmsHazards` adds up a vector under `std::execution::par`, both without
synchronization.  The second `for_each` takes a mutex for each element.

A thread adds what is in its list; how `for_each` deals the elements out is not said.

* `unlocked`: where two threads have something to add, no run gets by without a race.
* `locked`: under the mutex there is no race, and the sum is right.
-/

namespace Cpp20Examples.MemoryOrders.Hazards

open Lib Lib.WeakMemory

/-! ### The programs -/

/-- Where a thread is that has `addends` left. -/
inductive Place
  | next (addends : List Int)
  | load (x : Int) (addends : List Int)
  | store (sum x : Int) (addends : List Int)
  | unlock (addends : List Int)
  | ended

/-- `sum += x` for each `x`, with `std::lock_guard<std::mutex> lock(m2)` or without -/
def op (guard : Bool) (_ : Nat) : Place → Op Empty Unit Unit Int Place
  | .next [] => .exit .ended
  | .next (x :: addends) =>
    if guard then .lock (.load x addends) else .read () false fun sum => .store sum x addends
  | .load x addends => .read () false fun sum => .store sum x addends
  | .store sum x addends =>
    .write () (fun _ => sum + x) (if guard then .unlock addends else .next addends)
  | .unlock addends => if guard then .unlock (.next addends) else .stop
  | .ended => .stop

def memory (sum : Int) : Memory Empty Unit Unit Int where
  history := nofun
  cells _ := { value := sum }

def program (guard : Bool) (sum : Int) (adders : List (List Int)) :
    System (State Empty Unit Unit Int Place) Act :=
  system (op guard) (memory sum) (adders.map .next)

/-- `addMoney`: a hundred threads, each with an amount of 50. -/
def addMoney : System (State Empty Unit Unit Int Place) Act :=
  program false 100 (List.replicate 100 [50])

/-- What the `for_each` adds for its elements. -/
def addends (v : List Int) : List Int := v.map fun i => i + i

variable {sum : Int} {adders : List (List Int)} {s : State Empty Unit Unit Int Place}

/-! ### Without the mutex -/

namespace Unlocked

/-- The thread has written. -/
def Wrote (m : Memory Empty Unit Unit Int) (t : Nat) : Prop :=
  ∃ e ∈ (m.cells ()).accesses, e.thread = t ∧ e.writes = true

/-- How far a thread is with its addends. -/
def Began (m : Memory Empty Unit Unit Int) (addends : List Int) (t : Nat)
    (th : Thread Empty Place) : Prop :=
  th.place = .next addends ∨ (∃ sum x rest, th.place = .store sum x rest) ∨ Wrote m t

theorem Wrote.perform {m m' : Memory Empty Unit Unit Int} {th th' : Thread Empty Place} {c : Act}
    {op : Op Empty Unit Unit Int Place} {t : Nat} (h : Wrote m t)
    (hp : perform m th c op = some (m', th')) : Wrote m' t :=
  h.imp fun _ he => ⟨mem_accesses_of_perform hp he.1, he.2⟩

theorem op_unordered (t : Nat) (p : Place) : (op false t p).Unordered := by
  match p with
  | .next [] => trivial
  | .next (x :: addends) => trivial
  | .load x addends => trivial
  | .store sum x addends => trivial
  | .unlock addends => trivial
  | .ended => trivial

/-- **A step of a thread.**  It begins with a read, and its first write is on record. -/
theorem began_step {m m' : Memory Empty Unit Unit Int} {th th' : Thread Empty Place} {c : Act}
    {addends : List Int} (hne : addends ≠ []) (h : Began m addends c.thread th)
    (hp : perform m th c (op false c.thread th.place) = some (m', th'))
    (hraced : m'.raced = false) :
    Began m' addends c.thread th' := by
  rcases h with hplace | ⟨sum, x, rest, hplace⟩ | hwrote
  · obtain ⟨x, rest, rfl⟩ := List.exists_cons_of_ne_nil hne
    rw [hplace] at hp
    rcases read_cases hp with ⟨-, rfl, rfl⟩ | ⟨-, rfl, rfl⟩
    · exact .inr (.inl ⟨_, _, _, rfl⟩)
    · cases hraced
  · rw [hplace] at hp
    rcases write_cases hp with ⟨-, rfl, rfl⟩ | ⟨-, rfl, rfl⟩
    · refine .inr (.inr ⟨⟨c.thread, th.view (.inr c.thread) + 1, true⟩, ?_, rfl, rfl⟩)
      rw [access_cells_self]
      exact List.mem_cons_self ..
    · cases hraced
  · exact .inr (.inr (hwrote.perform hp))

theorem began (hs : (program false sum adders).Reachable s) (hraced : s.memory.raced = false)
    {t : Nat} {addends : List Int} (ht : adders[t]? = some addends) (hne : addends ≠ [])
    {th : Thread Empty Place} (hth : s.threads[t]? = some th) :
    Began s.memory addends t th := by
  induction hs generalizing th with
  | init =>
    left
    simp only [program, system, List.getElem?_map, ht, Option.map_some] at hth
    rw [← Option.some.inj hth]
  | step hs _ hst ih =>
    obtain ⟨hraced', w, m, w', hw, hp, rfl⟩ := step_cases hst
    rcases getElem?_set_cases hth with ⟨rfl, rfl⟩ | ⟨-, hth⟩
    · exact began_step hne (ih hraced' hw) hp hraced
    · exact (ih hraced' hth).imp_right (Or.imp_right fun hw => hw.perform hp)

/-- **Without the mutex**, a run without a race has one thread at most that adds anything. -/
theorem unlocked (hs : (program false sum adders).Reachable s) (hraced : s.memory.raced = false)
    (hended : ∀ th ∈ s.threads, th.place = .ended) {t u : Nat} {as bs : List Int}
    (ht : adders[t]? = some as) (hu : adders[u]? = some bs) (hne : t ≠ u) : as = [] ∨ bs = [] := by
  have h : Unordered s := (unordered op_unordered (fun _ => rfl) hs).resolve_left (by simp [hraced])
  have hwrote : ∀ {t : Nat} {as : List Int}, adders[t]? = some as → as ≠ [] → Wrote s.memory t := by
    intro t as ht has
    have hlt : t < s.threads.length := by
      rw [length_threads hs, List.length_map]
      exact (List.getElem?_eq_some_iff.mp ht).1
    have hplace := hended _ (List.getElem_mem hlt)
    rcases began hs hraced ht has (List.getElem?_eq_getElem hlt) with hb | ⟨_, _, _, hb⟩ | hw
    · cases hb.symm.trans hplace
    · cases hb.symm.trans hplace
    · exact hw
  by_contra hnot
  obtain ⟨has, hbs⟩ := not_or.mp hnot
  obtain ⟨e, he, rfl, hwrites⟩ := hwrote ht has
  obtain ⟨e', he', rfl, -⟩ := hwrote hu hbs
  have hreads := h.reads () e he e' he' hne
  simp [hreads] at hwrites

end Unlocked

/-! ### With the mutex -/

namespace Locked

/-- The places between the lock and the unlock. -/
def holds : Place → Bool
  | .load _ _ | .store _ _ _ | .unlock _ => true
  | _ => false

theorem op_guarded (t : Nat) (p : Place) : (op true t p).Guarded holds p := by
  match p with
  | .next [] => rfl
  | .next (x :: addends) => rfl
  | .load x addends => exact ⟨rfl, fun _ => rfl⟩
  | .store sum x addends => exact ⟨rfl, rfl⟩
  | .unlock addends => rfl
  | .ended => trivial

theorem guarded (hs : (program true sum adders).Reachable s) :
    WeakMemory.Guarded (fun _ => holds) s := by
  refine WeakMemory.guarded op_guarded rfl rfl (fun _ => rfl) ?_ hs
  intro t p hp
  obtain ⟨addends, -, rfl⟩ := List.mem_map.mp hp
  rfl

/-- What a thread has still to add. -/
def left : Place → Int
  | .next addends | .unlock addends => addends.sum
  | .load x addends | .store _ x addends => x + addends.sum
  | .ended => 0

/-- The sum and what is left have the total, and who is about to store has read the sum. -/
structure Inv (sum : Int) (adders : List (List Int)) (s : State Empty Unit Unit Int Place) :
    Prop where
  total : (s.memory.cells ()).value + (s.threads.map fun th => left th.place).sum
    = sum + (adders.map List.sum).sum
  stores : ∀ (t : Nat) (th : Thread Empty Place) (read x : Int) (addends : List Int),
    s.threads[t]? = some th → th.place = .store read x addends → read = (s.memory.cells ()).value

theorem Inv.quiet {m : Memory Empty Unit Unit Int} {th th' : Thread Empty Place} {t : Nat}
    (h : Inv sum adders s) (hth : s.threads[t]? = some th)
    (hvalue : (m.cells ()).value = (s.memory.cells ()).value)
    (hleft : left th'.place = left th.place)
    (hstore : ∀ read x addends, th'.place = .store read x addends →
      read = (s.memory.cells ()).value) :
    Inv sum adders ⟨m, s.threads.set t th'⟩ := by
  constructor
  · obtain ⟨r, hr, hset⟩ := exists_rest (fun th : Thread Empty Place => left th.place) hth
    have htotal := h.total
    rw [hr] at htotal
    rw [hvalue, hset, hleft]
    exact htotal
  · intro u w read x addends hw hplace
    rw [hvalue]
    rcases getElem?_set_cases hw with ⟨rfl, rfl⟩ | ⟨-, hw⟩
    · exact hstore read x addends hplace
    · exact h.stores u w read x addends hw hplace

/-- **A step of a thread.**  Nobody else is about to store while one stores. -/
theorem inv_step {m : Memory Empty Unit Unit Int} {th th' : Thread Empty Place} {c : Act}
    (h : Inv sum adders s) (howns : Owns (fun _ => holds) s.memory.owner s.threads)
    (hth : s.threads[c.thread]? = some th)
    (hp : perform s.memory th c (op true c.thread th.place) = some (m, th'))
    (hraced : m.raced = false) : Inv sum adders ⟨m, s.threads.set c.thread th'⟩ := by
  match hplace : th.place with
  | .next [] =>
    rw [hplace] at hp
    obtain ⟨rfl, rfl⟩ := exit_cases hp
    exact h.quiet hth rfl (by rw [hplace]; rfl) nofun
  | .next (x :: addends) =>
    rw [hplace] at hp
    obtain ⟨-, rfl, rfl⟩ := lock_cases hp
    refine h.quiet hth rfl ?_ nofun
    rw [hplace]
    exact (List.sum_cons ..).symm
  | .load x addends =>
    rw [hplace] at hp
    rcases read_cases hp with ⟨-, rfl, rfl⟩ | ⟨-, rfl, rfl⟩
    · refine h.quiet hth (by rw [access_cells_self]) (by rw [hplace]; rfl) ?_
      intro read y rest heq
      exact (Place.store.inj heq).1.symm
    · cases hraced
  | .store read x addends =>
    have hread := h.stores _ _ _ _ _ hth hplace
    rw [hplace] at hp
    rcases write_cases hp with ⟨-, rfl, rfl⟩ | ⟨-, rfl, rfl⟩
    · constructor
      · obtain ⟨r, hr, hset⟩ := exists_rest (fun th : Thread Empty Place => left th.place) hth
        have htotal := h.total
        rw [hr, hplace] at htotal
        rw [access_cells_self, hset, hread]
        simp only [left, if_true] at htotal ⊢
        omega
      · intro u w read' y rest hw hplace'
        rcases getElem?_set_cases hw with ⟨rfl, rfl⟩ | ⟨hne, hw⟩
        · cases hplace'
        · exact absurd (howns.eq hw hth (by rw [hplace']; rfl) (by rw [hplace]; rfl)) hne
    · cases hraced
  | .unlock addends =>
    rw [hplace] at hp
    obtain ⟨-, rfl, rfl⟩ := unlock_cases hp
    exact h.quiet hth rfl (by rw [hplace]; rfl) nofun
  | .ended =>
    rw [hplace] at hp
    cases hp

theorem inv (hs : (program true sum adders).Reachable s) : Inv sum adders s := by
  induction hs with
  | init =>
    constructor
    · simp [program, system, memory, left, Function.comp_def]
    · intro t th read x addends hth hplace
      obtain ⟨p, hp, rfl⟩ := List.mem_map.mp (List.mem_of_getElem? hth)
      obtain ⟨as, -, rfl⟩ := List.mem_map.mp hp
      cases hplace
  | step hs hok hst ih =>
    have hraced := (guarded (.step hs hok hst)).raced
    have howns := (guarded hs).owns
    obtain ⟨-, th, m, th', hth, hp, rfl⟩ := step_cases hst
    exact inv_step ih howns hth hp hraced

/-- A thread can move, unless it waits for the mutex. -/
theorem exists_step (hs : (program true sum adders).Reachable s) {t : Nat} {th : Thread Empty Place}
    (hth : s.threads[t]? = some th) (hended : th.place ≠ .ended)
    (hfree : s.memory.owner = none ∨ s.memory.owner = some t) :
    ∃ c s', (program true sum adders).step s c = some s' := by
  have h := guarded hs
  have hknows : holds th.place = true → th.view.Knows (s.memory.cells ()).accesses := fun hin =>
    h.owner t th hth ((h.owns t th hth).mp hin) ()
  have hstep : (perform s.memory th ⟨t, 0, 0, 0⟩ (op true t th.place)).isSome = true →
      ∃ c s', (program true sum adders).step s c = some s' := by
    intro hsome
    obtain ⟨r, hr⟩ := Option.isSome_iff_exists.mp hsome
    exact ⟨⟨t, 0, 0, 0⟩, _, step_of_perform h.raced hth hr⟩
  have howner : holds th.place = false → s.memory.owner = none := by
    intro hout
    refine hfree.resolve_right fun ht => ?_
    rw [(h.owns t th hth).mpr ht] at hout
    cases hout
  match hplace : th.place with
  | .next [] => exact hstep (by rw [hplace]; rfl)
  | .next (x :: addends) =>
    apply hstep
    rw [hplace, op, if_pos rfl, perform, if_pos (howner (by rw [hplace]; rfl))]
    rfl
  | .load x addends =>
    apply hstep
    have hseen : (th.seen false).Knows ((s.memory.cells ()).accesses.filter Access.writes) :=
      (hknows (by rw [hplace]; rfl)).filter _
    rw [hplace, op, perform, if_pos hseen]
    rfl
  | .store sum x addends =>
    apply hstep
    rw [hplace, op, perform, if_pos (hknows (by rw [hplace]; rfl))]
    rfl
  | .unlock addends =>
    apply hstep
    rw [hplace, op, if_pos rfl, perform, if_pos ((h.owns t th hth).mp (by rw [hplace]; rfl))]
    rfl
  | .ended => exact absurd hplace hended

/-- **With the mutex** there is no race, the threads go on to their ends, and the sum is right
then. -/
theorem locked (hs : (program true sum adders).Reachable s) : s.memory.raced = false ∧
    ((∃ c s', (program true sum adders).step s c = some s') ∨
      (∀ th ∈ s.threads, th.place = .ended) ∧
        (s.memory.cells ()).value = sum + (adders.map List.sum).sum) := by
  refine ⟨(guarded hs).raced, ?_⟩
  by_cases hend : ∀ th ∈ s.threads, th.place = .ended
  · right
    refine ⟨hend, ?_⟩
    have hzero : (s.threads.map fun th => left th.place).sum = 0 := by
      apply List.sum_eq_zero
      intro x hx
      obtain ⟨th, hth, rfl⟩ := List.mem_map.mp hx
      rw [hend th hth]
      rfl
    rw [← (inv hs).total, hzero, add_zero]
  · left
    cases howner : s.memory.owner with
    | none =>
      obtain ⟨th, hmem, hne⟩ := by simpa using hend
      obtain ⟨t, hth⟩ := List.mem_iff_getElem?.mp hmem
      exact exists_step hs hth hne (.inl howner)
    | some t =>
      have hth := List.getElem?_eq_getElem (owner_lt rfl hs howner)
      refine exists_step hs hth ?_ (.inr howner)
      intro hplace
      have hin := ((guarded hs).owns t _ hth).mpr howner
      rw [hplace] at hin
      cases hin

/-- The steps of a thread. -/
def steps : Place → Nat
  | .next addends => 4 * addends.length + 1
  | .load _ addends => 4 * addends.length + 4
  | .store _ _ addends => 4 * addends.length + 3
  | .unlock addends => 4 * addends.length + 2
  | .ended => 0

theorem steps_lt {m m' : Memory Empty Unit Unit Int} {th th' : Thread Empty Place} {c : Act}
    {t : Nat} (hp : perform m th c (op true t th.place) = some (m', th')) :
    steps th'.place < steps th.place ∨ th' = th ∧ m'.raced = true := by
  match hplace : th.place with
  | .next [] =>
    rw [hplace] at hp
    obtain ⟨-, rfl⟩ := exit_cases hp
    exact .inl Nat.one_pos
  | .next (x :: addends) =>
    rw [hplace] at hp
    obtain ⟨-, -, rfl⟩ := lock_cases hp
    left
    simp only [steps, List.length_cons]
    omega
  | .load x addends =>
    rw [hplace] at hp
    rcases read_cases hp with ⟨-, -, rfl⟩ | ⟨-, rfl, rfl⟩
    · exact .inl (Nat.lt_succ_self _)
    · exact .inr ⟨rfl, rfl⟩
  | .store sum x addends =>
    rw [hplace] at hp
    rcases write_cases hp with ⟨-, -, rfl⟩ | ⟨-, rfl, rfl⟩
    · exact .inl (Nat.lt_succ_self _)
    · exact .inr ⟨rfl, rfl⟩
  | .unlock addends =>
    rw [hplace] at hp
    obtain ⟨-, -, rfl⟩ := unlock_cases hp
    exact .inl (Nat.lt_succ_self _)
  | .ended =>
    rw [hplace] at hp
    cases hp

end Locked

/-- **Sums from several threads.**  However the elements of `v` are dealt out, all runs of the
`for_each` with the mutex end without a race, with the sum of all; without the mutex a run ends
only where one thread has all the elements.  The balance of `addMoney` is always a race. -/
theorem sums_from_threads (v : List Int) (adders : List (List Int))
    (h : adders.flatten.Perm (addends v)) :
    (∀ s, (program true 0 adders).Reachable s → s.memory.raced = false ∧
      ((∃ c s', (program true 0 adders).step s c = some s') ∨
        (∀ th ∈ s.threads, th.place = .ended) ∧ (s.memory.cells ()).value = (addends v).sum)) ∧
    (∀ cs s, (program true 0 adders).run (program true 0 adders).init cs = some s →
      cs.length ≤ (adders.map fun addends => 4 * addends.length + 1).sum + 1) ∧
    (∀ s, (program false 0 adders).Reachable s → s.memory.raced = false →
      (∀ th ∈ s.threads, th.place = .ended) → ∀ (t u : Nat) as bs, adders[t]? = some as →
        adders[u]? = some bs → t ≠ u → as = [] ∨ bs = []) ∧
    ∀ s, addMoney.Reachable s → (∀ th ∈ s.threads, th.place = .ended) → s.memory.raced = true := by
  have hsum : (adders.map List.sum).sum = (addends v).sum := by
    rw [← List.sum_flatten, h.sum_eq]
  refine ⟨?_, ?_, ?_, ?_⟩
  · intro s hs
    have hlocked := Locked.locked hs
    rw [zero_add, hsum] at hlocked
    exact hlocked
  · intro cs s hrun
    refine le_trans (run_length_le (fun m th c m' th' hp => Locked.steps_lt hp) hrun) ?_
    simp [program, system, Locked.steps, Function.comp_def]
  · intro s hs hraced hended t u as bs ht hu hne
    exact Unlocked.unlocked hs hraced hended ht hu hne
  · intro s hs hended
    by_contra hraced
    have hnil := Unlocked.unlocked (t := 0) (u := 1) hs (eq_false_of_ne_true hraced) hended rfl rfl
      (by decide)
    simp at hnil

theorem sums_from_threads_three :
    (∀ s, (program true 0 [[2], [6, 4]]).Reachable s → s.memory.raced = false ∧
      ((∃ c s', (program true 0 [[2], [6, 4]]).step s c = some s') ∨
        (∀ th ∈ s.threads, th.place = .ended) ∧ (s.memory.cells ()).value = 12)) ∧
    (∀ cs s, (program true 0 [[2], [6, 4]]).run (program true 0 [[2], [6, 4]]).init cs = some s →
      cs.length ≤ 15) ∧
    (∀ s, (program false 0 [[2], [6, 4]]).Reachable s → s.memory.raced = false →
      (∀ th ∈ s.threads, th.place = .ended) → ∀ (t u : Nat) as bs,
        [[(2 : Int)], [6, 4]][t]? = some as → [[(2 : Int)], [6, 4]][u]? = some bs → t ≠ u →
          as = [] ∨ bs = []) ∧
    ∀ s, addMoney.Reachable s → (∀ th ∈ s.threads, th.place = .ended) → s.memory.raced = true :=
  sums_from_threads [1, 2, 3] [[2], [6, 4]] (by decide)

end Cpp20Examples.MemoryOrders.Hazards
