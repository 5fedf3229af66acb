import Cpp20Examples.Lib.WeakMemory

/-!
# The ongoing optimisation

Five programs in which one thread writes `x` and `y`, and another one prints them, `y` first:
`ongoingOptimisation` with plain variables, `Lock` with a mutex around them, and the others
with atomic ones and the memory orders that their names say.  `AcquireReleaseBroken` has a
plain `x`.

* `Ends`: how a run ends, with the values that are printed, or with a data race.
* `ends_iff`: the ends of each program.
-/

namespace Cpp20Examples.MemoryOrders.OngoingOptimisation

open Lib Lib.WeakMemory

/-! ### The programs -/

inductive Object
  | x
  | y
  deriving DecidableEq

/-- A variable: an `int`, or an atomic with the orders of its store and its load. -/
inductive Variable
  | plain
  | atomic (store load : Order)
  deriving DecidableEq

structure Variant where
  x : Variable
  y : Variable
  locked : Bool := false
  deriving DecidableEq

def ongoingOptimisation : Variant := { x := .plain, y := .plain }

def ongoingOptimisationLock : Variant := { x := .plain, y := .plain, locked := true }

def ongoingOptimisationRelaxedSemantic : Variant where
  x := .atomic .relaxed .relaxed
  y := .atomic .relaxed .relaxed

def ongoingOptimisationAcquireRelease : Variant where
  x := .atomic .relaxed .relaxed
  y := .atomic .release .acquire

def ongoingOptimisationAcquireReleaseBroken : Variant where
  x := .plain
  y := .atomic .release .acquire

/-- Where the threads are. -/
inductive Place
  | lockWriting
  | writeX
  | writeY
  | written
  | lockReading
  | readY
  | readX (y : Int)
  | read (y x : Int)
  | ended (printed : Option (Int × Int))
  deriving DecidableEq

def Variable.store (o : Object) (value : Int) (k : Place) :
    Variable → Op Object Object Int Int Place
  | .plain => .write o (fun _ => value) k
  | .atomic store _ => .store store o value k

def Variable.load (o : Object) (k : Int → Place) : Variable → Op Object Object Int Int Place
  | .plain => .read o false k
  | .atomic _ load => .load load o k

/-- `writing` and `reading` -/
def op (v : Variant) (_ : Nat) : Place → Op Object Object Int Int Place
  | .lockWriting => .lock .writeX
  | .writeX => v.x.store .x 2000 .writeY
  | .writeY => v.y.store .y 11 .written
  | .written => if v.locked then .unlock (.ended none) else .exit (.ended none)
  | .lockReading => .lock .readY
  | .readY => v.y.load .y .readX
  | .readX y => v.x.load .x (.read y)
  | .read y x => if v.locked then .unlock (.ended (some (y, x))) else .exit (.ended (some (y, x)))
  | .ended _ => .stop

def memory : Memory Object Object Int Int where
  history _ := [{ value := 0 }]
  cells _ := { value := 0 }

def program (v : Variant) : System (State Object Object Int Int Place) Act :=
  system (op v) memory
    (if v.locked then [.lockWriting, .lockReading] else [.writeX, .readY])

/-- How a run ends: with a data race, or with what was printed. -/
inductive End
  | undefined
  | printed (y x : Int)
  deriving DecidableEq

def ending (s : State Object Object Int Int Place) : Option End :=
  if s.memory.raced then some .undefined
  else
    match s.threads.map Thread.place with
    | [.ended none, .ended (some (y, x))] => some (.printed y x)
    | _ => none

/-- Some run ends so. -/
def Ends (v : Variant) (e : End) : Prop := ∃ s, (program v).Reachable s ∧ ending s = some e

theorem ending_eq {s : State Object Object Int Int Place} {w r : Thread Object Place}
    (hraced : s.memory.raced = false) (hs : s.threads = [w, r]) {e : End}
    (he : ending s = some e) :
    ∃ y x, w.place = .ended none ∧ r.place = .ended (some (y, x)) ∧ e = .printed y x := by
  rw [ending, hraced, if_neg (by decide), hs] at he
  simp only [List.map_cons, List.map_nil] at he
  split at he
  · rename_i y x hplaces
    obtain ⟨hw, hr⟩ := List.cons.inj hplaces
    exact ⟨y, x, hw, (List.cons.inj hr).1, (Option.some.inj he).symm⟩
  · cases he

theorem two_cases {s s' : State Object Object Int Int Place} {v : Variant} {c : Act}
    {w r : Thread Object Place} (hst : (program v).step s c = some s') (hs : s.threads = [w, r]) :
    (∃ m w', c.thread = 0 ∧ perform s.memory w c (op v 0 w.place) = some (m, w') ∧
      s' = ⟨m, [w', r]⟩) ∨
    (∃ m r', c.thread = 1 ∧ perform s.memory r c (op v 1 r.place) = some (m, r') ∧
      s' = ⟨m, [w, r']⟩) := by
  obtain ⟨-, th, m, th', hth, hp, rfl⟩ := step_cases hst
  rw [hs] at hth ⊢
  match ht : c.thread with
  | 0 =>
    rw [ht] at hth hp
    cases hth
    exact .inl ⟨m, th', rfl, hp, rfl⟩
  | 1 =>
    rw [ht] at hth hp
    cases hth
    exact .inr ⟨m, th', rfl, hp, rfl⟩
  | n + 2 =>
    rw [ht] at hth
    cases hth

/-! ### Accesses -/

/-- An access of a thread to `o`. -/
def Accessed (m : Memory Object Object Int Int) (o : Object) (t : Nat) (writes : Bool) : Prop :=
  ∃ e ∈ (m.cells o).accesses, e.thread = t ∧ e.writes = writes ∧ 1 ≤ e.time

theorem Accessed.access {m : Memory Object Object Int Int} {o : Object} {t : Nat} {writes : Bool}
    (h : Accessed m o t writes) (o' : Object) (value : Int) (e : Access) :
    Accessed (m.access o' value e) o t writes := by
  obtain ⟨e', he', hacc⟩ := h
  exact ⟨e', mem_accesses_access _ _ _ _ _ he', hacc⟩

theorem accessed_access (m : Memory Object Object Int Int) (o : Object) (value : Int) (t n : Nat)
    (writes : Bool) : Accessed (m.access o value ⟨t, n + 1, writes⟩) o t writes := by
  refine ⟨⟨t, n + 1, writes⟩, ?_, rfl, rfl, Nat.le_add_left ..⟩
  rw [access_cells_self]
  exact List.mem_cons_self ..

/-! ### Atomic variables -/

namespace Atomic

variable {store load : Order} {m m' : Memory Object Object Int Int}
  {w w' r r' : Thread Object Place}
  {c : Act}

def variant (store load : Order) : Variant where
  x := .atomic .relaxed .relaxed
  y := .atomic store load

/-- Who has this view of `x` reads 2000. -/
def Sees (m : Memory Object Object Int Int) (v : View Object) : Prop :=
  ∀ msg ∈ m.history .x, v (.inl .x) ≤ msg.hi → msg.value = 2000

theorem Sees.mono {v v' : View Object} (h : Sees m v) (hle : v ≤ v') : Sees m v' :=
  fun msg hm hv => h msg hm (le_trans (hle _) hv)

/-- What may be printed. -/
structure Allowed (store load : Order) (y x : Int) : Prop where
  printedY : y = 0 ∨ y = 11
  printedX : x = 0 ∨ x = 2000
  ordered : store.releases = true → load.acquires = true → y = 11 → x = 2000

/-- What the writer knows. -/
def Writer (m : Memory Object Object Int Int) (w : Thread Object Place) : Prop :=
  match w.place with
  | .writeX => ∀ msg ∈ m.history .x, msg.hi = 0 ∧ msg.value = 0
  | .writeY => Sees m w.view
  | .written | .ended none => True
  | _ => False

/-- What the reader knows. -/
def Reader (store load : Order) (m : Memory Object Object Int Int) (w r : Thread Object Place) :
    Prop :=
  match r.place with
  | .readX y => y = 0 ∨ y = 11 ∧ w.place ≠ .writeX ∧
      (store.releases = true → load.acquires = true → Sees m r.view)
  | .read y x | .ended (some (y, x)) => Allowed store load y x
  | .readY => True
  | _ => False

structure Inv (store load : Order) (m : Memory Object Object Int Int)
    (w r : Thread Object Place) : Prop where
  raced : m.raced = false
  x : ∀ msg ∈ m.history .x, msg.value = 0 ∨ msg.value = 2000
  y : ∀ msg ∈ m.history .y, msg.value = 0 ∨ msg.value = 11 ∧ w.place ≠ .writeX ∧
    (store.releases = true → Sees m msg.view)
  writer : Writer m w
  reader : Reader store load m w r

theorem inv_writer (h : Inv store load m w r)
    (hp : perform m w c (op (variant store load) 0 w.place) = some (m', w')) :
    Inv store load m' w' r := by
  have hwriter := h.writer
  have hreader := h.reader
  cases hplace : w.place with
  | writeX =>
    rw [Writer, hplace] at hwriter
    rw [hplace] at hp
    obtain ⟨hle, hlt, -, rfl, rfl⟩ := store_cases hp
    have hy : ∀ msg ∈ m.history .y, msg.value = 0 := by
      intro msg hmsg
      exact (h.y msg hmsg).resolve_right fun hy => hy.2.1 hplace
    refine ⟨h.raced, ?_, ?_, ?_, ?_⟩
    · intro msg hmsg
      rw [post_history_self] at hmsg
      rcases List.mem_cons.mp hmsg with rfl | hmsg
      · exact .inr rfl
      · exact h.x msg hmsg
    · intro msg hmsg
      rw [post_history_of_ne _ (by decide)] at hmsg
      exact .inl (hy msg hmsg)
    · -- the new message is the only one that the writer may read
      intro msg hmsg hview
      rw [post_history_self] at hmsg
      rcases List.mem_cons.mp hmsg with rfl | hmsg
      · rfl
      · have hhi := (hwriter msg hmsg).1
        simp only [Pi.sup_apply, View.upTo_self] at hview
        simp at hview
        omega
    · rw [Reader] at hreader ⊢
      split at hreader
      · rename_i y hr
        exact .inl (hreader.resolve_right fun hy => hy.2.1 hplace)
      all_goals exact hreader
  | writeY =>
    rw [Writer, hplace] at hwriter
    rw [hplace] at hp
    obtain ⟨hle, hlt, -, rfl, rfl⟩ := store_cases hp
    have hx : (m.post .y ⟨11, c.lo, c.hi,
        if store.releases then w.view ⊔ .upTo .y c.hi else .upTo .y c.hi⟩).history .x
          = m.history .x := post_history_of_ne _ (by decide) _
    have hsees : ∀ {v : View Object}, Sees m v → Sees (m.post .y ⟨11, c.lo, c.hi,
        if store.releases then w.view ⊔ .upTo .y c.hi else .upTo .y c.hi⟩) v := by
      intro v hv msg hmsg
      exact hv msg (hx ▸ hmsg)
    refine ⟨h.raced, ?_, ?_, trivial, ?_⟩
    · intro msg hmsg
      exact h.x msg (hx ▸ hmsg)
    · intro msg hmsg
      rw [post_history_self] at hmsg
      rcases List.mem_cons.mp hmsg with rfl | hmsg
      · refine .inr ⟨rfl, nofun, ?_⟩
        intro hrel
        simp only [hrel, if_true]
        exact (hsees hwriter).mono le_sup_left
      · exact (h.y msg hmsg).imp_right fun hy => ⟨hy.1, nofun, fun hrel => hsees (hy.2.2 hrel)⟩
    · rw [Reader] at hreader ⊢
      split at hreader
      · exact hreader.imp_right fun hy => ⟨hy.1, nofun, fun hrel hacq => hsees (hy.2.2 hrel hacq)⟩
      all_goals exact hreader
  | written =>
    rw [hplace] at hp
    obtain ⟨rfl, rfl⟩ := exit_cases hp
    refine ⟨h.raced, h.x, ?_, trivial, ?_⟩
    · intro msg hmsg
      exact (h.y msg hmsg).imp_right fun hy => ⟨hy.1, nofun, hy.2.2⟩
    · rw [Reader] at hreader ⊢
      split at hreader
      · exact hreader.imp_right fun hy => ⟨hy.1, nofun, hy.2.2⟩
      all_goals exact hreader
  | ended printed =>
    rw [hplace] at hp
    cases hp
  | _ =>
    rw [Writer, hplace] at hwriter
    exact hwriter.elim

theorem inv_reader (h : Inv store load m w r)
    (hp : perform m r c (op (variant store load) 1 r.place) = some (m', r')) :
    Inv store load m' w r' := by
  have hreader := h.reader
  cases hplace : r.place with
  | readY =>
    rw [hplace] at hp
    obtain ⟨msg, hmsg, -, rfl, rfl⟩ := load_cases hp
    refine ⟨h.raced, h.x, h.y, h.writer, ?_⟩
    refine (h.y msg hmsg).imp_right fun hy => ⟨hy.1, hy.2.1, fun hrel hacq => ?_⟩
    apply (hy.2.2 hrel).mono
    simp only [hacq, if_true]
    exact le_sup_right
  | readX y =>
    rw [Reader, hplace] at hreader
    rw [hplace] at hp
    obtain ⟨msg, hmsg, hle, rfl, rfl⟩ := load_cases hp
    refine ⟨h.raced, h.x, h.y, h.writer, hreader.imp id fun hy => hy.1, h.x msg hmsg, ?_⟩
    intro hrel hacq hy
    obtain ⟨-, -, hsees⟩ := hreader.resolve_left fun h0 => by omega
    exact hsees hrel hacq msg hmsg hle
  | read y x =>
    rw [Reader, hplace] at hreader
    rw [hplace] at hp
    obtain ⟨rfl, rfl⟩ := exit_cases hp
    exact ⟨h.raced, h.x, h.y, h.writer, hreader⟩
  | ended printed =>
    rw [hplace] at hp
    cases hp
  | _ =>
    rw [Reader, hplace] at hreader
    exact hreader.elim

theorem allowed {e : End} (h : Ends (variant store load) e) :
    ∃ y x, e = .printed y x ∧ Allowed store load y x := by
  obtain ⟨s, hs, he⟩ := h
  have hinv : ∃ w r, s.threads = [w, r] ∧ Inv store load s.memory w r := by
    refine hs.invariant ?_ ?_
      (I := fun s => ∃ w r, s.threads = [w, r] ∧ Inv store load s.memory w r)
    · refine ⟨_, _, rfl, rfl, ?_, ?_, ?_, trivial⟩
      · intro msg hmsg
        exact .inl (by rw [List.mem_singleton.mp hmsg])
      · intro msg hmsg
        exact .inl (by rw [List.mem_singleton.mp hmsg])
      · intro msg hmsg
        rw [List.mem_singleton.mp hmsg]
        exact ⟨rfl, rfl⟩
    · rintro s c s' ⟨w, r, hthreads, h⟩ - hst
      rcases two_cases hst hthreads with ⟨m, w', -, hp, rfl⟩ | ⟨m, r', -, hp, rfl⟩
      · exact ⟨w', r, rfl, inv_writer h hp⟩
      · exact ⟨w, r', rfl, inv_reader h hp⟩
  obtain ⟨w, r, hthreads, h⟩ := hinv
  obtain ⟨y, x, -, hr, rfl⟩ := ending_eq h.raced hthreads he
  have hreader := h.reader
  rw [Reader, hr] at hreader
  exact ⟨y, x, rfl, hreader⟩

end Atomic

/-! ### A plain `x` -/

namespace Broken

variable {m m' : Memory Object Object Int Int} {w w' r r' : Thread Object Place} {c : Act}

/-- Who has this view may read `x`. -/
def Sees (m : Memory Object Object Int Int) (v : View Object) : Prop :=
  v.Knows ((m.cells .x).accesses.filter Access.writes)

/-- The writer has written `x`. -/
structure Past (m : Memory Object Object Int Int) (w : Thread Object Place) : Prop where
  place : w.place ≠ .writeX
  value : (m.cells .x).value = 2000
  wrote : Accessed m .x 0 true

/-- What the writer knows. -/
def Writer (m : Memory Object Object Int Int) (w : Thread Object Place) : Prop :=
  match w.place with
  | .writeX => (m.cells .x).value = 0 ∧ w.view (.inr 1) = 0 ∧
      ∀ e ∈ (m.cells .x).accesses, e.thread = 1 ∧ e.writes = false ∧ 1 ≤ e.time
  | .writeY => Past m w ∧ Sees m w.view
  | .written | .ended none => Past m w
  | _ => False

/-- What the reader knows.  Where it has read 0, nothing orders the accesses to `x`. -/
def Reader (m : Memory Object Object Int Int) (w r : Thread Object Place) : Prop :=
  match r.place with
  | .readY => r.view (.inr 0) = 0
  | .readX y => y = 0 ∧ r.view (.inr 0) = 0 ∨ y = 11 ∧ Past m w ∧ Sees m r.view
  | .read y x | .ended (some (y, x)) =>
      y = 11 ∧ x = 2000 ∨ w.place = .writeX ∧ Accessed m .x 1 false
  | _ => False

structure Inv (m : Memory Object Object Int Int) (w r : Thread Object Place) : Prop where
  y : ∀ msg ∈ m.history .y, msg.value = 0 ∧ msg.view = ⊥ ∨
    msg.value = 11 ∧ Past m w ∧ Sees m msg.view
  writer : Writer m w
  reader : Reader m w r

theorem inv_writer (h : Inv m w r)
    (hp : perform m w c (op ongoingOptimisationAcquireReleaseBroken 0 w.place) = some (m', w'))
    (ht : c.thread = 0) : m'.raced = true ∨ Inv m' w' r := by
  have hwriter := h.writer
  have hreader := h.reader
  cases hplace : w.place with
  | writeX =>
    rw [Writer, hplace] at hwriter
    obtain ⟨hvalue, hview, haccesses⟩ := hwriter
    rw [hplace] at hp
    rcases write_cases hp with ⟨hknows, rfl, rfl⟩ | ⟨-, rfl, rfl⟩
    · right
      -- the reader has not read `x`, or there would be a race
      have hnone : ∀ {writes : Bool}, ¬Accessed m .x 1 writes := by
        rintro writes ⟨e, he, hthread, -, htime⟩
        have hle := hknows e he
        rw [hthread, hview] at hle
        omega
      have hy : ∀ msg ∈ m.history .y, msg.value = 0 ∧ msg.view = ⊥ := by
        intro msg hmsg
        exact (h.y msg hmsg).resolve_right fun hy => hy.2.1.place hplace
      refine ⟨fun msg hmsg => .inl (hy msg hmsg), ⟨⟨nofun, ?_, ?_⟩, ?_⟩, ?_⟩
      · rw [access_cells_self]
      · rw [ht]
        exact accessed_access ..
      · rw [Sees, access_cells_self]
        exact (hknows.tick c.thread true).filter _
      · rw [Reader] at hreader ⊢
        split at hreader
        · exact hreader
        · exact .inl (hreader.resolve_right fun hy => hy.2.1.place hplace)
        · exact .inl (hreader.resolve_right fun hx => hnone hx.2)
        · exact .inl (hreader.resolve_right fun hx => hnone hx.2)
        · exact hreader
    · exact .inl rfl
  | writeY =>
    rw [Writer, hplace] at hwriter
    obtain ⟨hpast, hsees⟩ := hwriter
    rw [hplace] at hp
    obtain ⟨-, -, -, rfl, rfl⟩ := store_cases hp
    have hpast' : ∀ {msg : Message Object Int} {v : View Object},
        Past (m.post .y msg) { w with place := .written, view := v } :=
      ⟨nofun, hpast.value, hpast.wrote⟩
    refine .inr ⟨?_, hpast', ?_⟩
    · intro msg hmsg
      rw [post_history_self] at hmsg
      rcases List.mem_cons.mp hmsg with rfl | hmsg
      · exact .inr ⟨rfl, hpast', hsees.mono le_sup_left⟩
      · exact (h.y msg hmsg).imp_right fun hy => ⟨hy.1, hpast', hy.2.2⟩
    · rw [Reader] at hreader ⊢
      split at hreader
      · exact hreader
      · exact hreader.imp_right fun hy => ⟨hy.1, hpast', hy.2.2⟩
      · exact hreader.imp_right fun hx => absurd hx.1 hpast.place
      · exact hreader.imp_right fun hx => absurd hx.1 hpast.place
      · exact hreader
  | written =>
    rw [Writer, hplace] at hwriter
    rw [hplace] at hp
    obtain ⟨rfl, rfl⟩ := exit_cases hp
    have hpast : ∀ {ended : Nat → Option (View Object)},
        Past { m with ended } { w with place := .ended none } :=
      ⟨nofun, hwriter.value, hwriter.wrote⟩
    refine .inr ⟨?_, hpast, ?_⟩
    · intro msg hmsg
      exact (h.y msg hmsg).imp_right fun hy => ⟨hy.1, hpast, hy.2.2⟩
    · rw [Reader] at hreader ⊢
      split at hreader
      · exact hreader
      · exact hreader.imp_right fun hy => ⟨hy.1, hpast, hy.2.2⟩
      · exact hreader.imp_right fun hx => absurd hx.1 hwriter.place
      · exact hreader.imp_right fun hx => absurd hx.1 hwriter.place
      · exact hreader
  | ended printed =>
    rw [hplace] at hp
    cases hp
  | _ =>
    rw [Writer, hplace] at hwriter
    exact hwriter.elim

theorem inv_reader (h : Inv m w r)
    (hp : perform m r c (op ongoingOptimisationAcquireReleaseBroken 1 r.place) = some (m', r'))
    (ht : c.thread = 1) : m'.raced = true ∨ Inv m' w r' := by
  have hwriter := h.writer
  have hreader := h.reader
  cases hplace : r.place with
  | readY =>
    rw [Reader, hplace] at hreader
    rw [hplace] at hp
    obtain ⟨msg, hmsg, -, rfl, rfl⟩ := load_cases hp
    refine .inr ⟨h.y, hwriter, ?_⟩
    rcases h.y msg hmsg with ⟨hvalue, hview⟩ | ⟨hvalue, hpast, hsees⟩
    · refine .inl ⟨hvalue, ?_⟩
      have hzero : r.view (.inr 0) = 0 := hreader
      rw [hview]
      simp [hzero]
    · exact .inr ⟨hvalue, hpast, hsees.mono le_sup_right⟩
  | readX y =>
    rw [Reader, hplace] at hreader
    rw [hplace] at hp
    rcases read_cases hp with ⟨hknows, rfl, rfl⟩ | ⟨-, rfl, rfl⟩
    · right
      have hwrites : ∀ e : Access, e.writes = false →
          (e :: (m.cells .x).accesses).filter Access.writes
            = (m.cells .x).accesses.filter Access.writes := by
        intro e he
        rw [List.filter_cons, he]
        rfl
      have hsees : ∀ {v : View Object} {value : Int} {e : Access}, e.writes = false → Sees m v →
          Sees (m.access .x value e) v := by
        intro v value e he hv
        rw [Sees, access_cells_self, hwrites e he]
        exact hv
      have hpast : ∀ {e : Access}, Past m w → Past (m.access .x (m.cells .x).value e) w := by
        rintro e ⟨hplace, hvalue, hwrote⟩
        refine ⟨hplace, ?_, hwrote.access ..⟩
        rw [access_cells_self]
        exact hvalue
      have hread : Accessed (m.access .x (m.cells .x).value
          ⟨c.thread, r.view (.inr c.thread) + 1, false⟩) .x 1 false := by
        rw [ht]
        exact accessed_access ..
      refine ⟨?_, ?_, ?_⟩
      · intro msg hmsg
        exact (h.y msg hmsg).imp_right fun hy => ⟨hy.1, hpast hy.2.1, hsees rfl hy.2.2⟩
      · rw [Writer] at hwriter ⊢
        split at hwriter
        · refine ⟨by rw [access_cells_self]; exact hwriter.1, hwriter.2.1, ?_⟩
          intro e he
          rw [access_cells_self] at he
          rcases List.mem_cons.mp he with rfl | he
          · exact ⟨ht, rfl, Nat.le_add_left ..⟩
          · exact hwriter.2.2 e he
        · exact ⟨hpast hwriter.1, hsees rfl hwriter.2⟩
        · exact hpast hwriter
        · exact hpast hwriter
        · exact hwriter
      · rcases hreader with ⟨rfl, hview⟩ | ⟨rfl, hp, -⟩
        · right
          refine ⟨?_, hread⟩
          by_contra hne
          obtain ⟨e, he, hthread, hwrites, htime⟩ : Accessed m .x 0 true := by
            rw [Writer] at hwriter
            split at hwriter
            · rename_i hw
              exact absurd hw hne
            · exact hwriter.1.wrote
            · exact hwriter.wrote
            · exact hwriter.wrote
            · exact hwriter.elim
          have hle := hknows e (List.mem_filter.mpr ⟨he, hwrites⟩)
          have hseen : r.seen false = r.view := rfl
          rw [hthread, hseen, hview] at hle
          omega
        · exact .inl ⟨rfl, hp.value⟩
    · exact .inl rfl
  | read y x =>
    rw [Reader, hplace] at hreader
    rw [hplace] at hp
    obtain ⟨rfl, rfl⟩ := exit_cases hp
    have hpast : ∀ {ended : Nat → Option (View Object)}, Past m w → Past { m with ended } w :=
      fun hw => ⟨hw.place, hw.value, hw.wrote⟩
    refine .inr ⟨?_, ?_, hreader⟩
    · intro msg hmsg
      exact (h.y msg hmsg).imp_right fun hy => ⟨hy.1, hpast hy.2.1, hy.2.2⟩
    · rw [Writer] at hwriter ⊢
      split at hwriter
      · exact hwriter
      · exact ⟨hpast hwriter.1, hwriter.2⟩
      · exact hpast hwriter
      · exact hpast hwriter
      · exact hwriter
  | ended printed =>
    rw [hplace] at hp
    cases hp
  | _ =>
    rw [Reader, hplace] at hreader
    exact hreader.elim

/-- **Where there is no race**, the writer was ahead. -/
theorem prints {e : End} (h : Ends ongoingOptimisationAcquireReleaseBroken e) :
    e = .undefined ∨ e = .printed 11 2000 := by
  obtain ⟨s, hs, he⟩ := h
  have hinv : ∃ w r, s.threads = [w, r] ∧ (s.memory.raced = true ∨ Inv s.memory w r) := by
    refine hs.invariant ?_ ?_ (I := fun s => ∃ w r, s.threads = [w, r] ∧
      (s.memory.raced = true ∨ Inv s.memory w r))
    · refine ⟨_, _, rfl, .inr ⟨?_, ⟨rfl, rfl, nofun⟩, rfl⟩⟩
      intro msg hmsg
      rw [List.mem_singleton.mp hmsg]
      exact .inl ⟨rfl, rfl⟩
    · rintro s c s' ⟨w, r, hthreads, h⟩ - hst
      have h : Inv s.memory w r := h.resolve_left (by simp [(step_cases hst).1])
      rcases two_cases hst hthreads with ⟨m, w', ht, hp, rfl⟩ | ⟨m, r', ht, hp, rfl⟩
      · exact ⟨w', r, rfl, inv_writer h hp ht⟩
      · exact ⟨w, r', rfl, inv_reader h hp ht⟩
  obtain ⟨w, r, hthreads, h⟩ := hinv
  cases hraced : s.memory.raced with
  | true =>
    left
    rw [ending, hraced, if_pos rfl] at he
    exact (Option.some.inj he).symm
  | false =>
    right
    have h : Inv s.memory w r := h.resolve_left (by simp [hraced])
    obtain ⟨y, x, hw, hr, rfl⟩ := ending_eq hraced hthreads he
    have hreader := h.reader
    rw [Reader, hr] at hreader
    obtain ⟨rfl, rfl⟩ := hreader.resolve_right fun hx => by simp [hw] at hx
    rfl

end Broken

/-! ### Plain variables -/

namespace Plain

variable {m m' : Memory Object Object Int Int} {w w' r r' : Thread Object Place} {c : Act}

/-- The threads know nothing of each other, and the accesses to `x` are on record. -/
structure Inv (m : Memory Object Object Int Int) (w r : Thread Object Place) : Prop where
  writerView : w.view (.inr 1) = 0
  readerView : r.view (.inr 0) = 0
  writer : w.place = .writeX ∨ (w.place = .writeY ∨ w.place = .written ∨ w.place = .ended none) ∧
    Accessed m .x 0 true
  reader : r.place = .readY ∨ (∃ y, r.place = .readX y) ∨
    (∃ y x, r.place = .read y x ∨ r.place = .ended (some (y, x))) ∧ Accessed m .x 1 false
  behind : w.place = .writeX ∨ r.place = .readY ∨ ∃ y, r.place = .readX y

/-- **A step of the writer.**  After the reader it races. -/
theorem inv_writer (h : Inv m w r)
    (hp : perform m w c (op ongoingOptimisation 0 w.place) = some (m', w'))
    (ht : c.thread = 0) : m'.raced = true ∨ Inv m' w' r := by
  have htick : (w.view.tick c.thread) (.inr 1) = 0 := by
    rw [View.tick_of_ne _ (by omega)]
    exact h.writerView
  rcases h.writer with hplace | ⟨hplace | hplace | hplace, hwrote⟩
  · rw [hplace] at hp
    rcases write_cases hp with ⟨hknows, rfl, rfl⟩ | ⟨-, rfl, rfl⟩
    · have hreader : r.place = .readY ∨ ∃ y, r.place = .readX y := by
        rcases h.reader with hr | hr | ⟨-, e, he, hthread, -, htime⟩
        · exact .inl hr
        · exact .inr hr
        · have hle := hknows e he
          rw [hthread, h.writerView] at hle
          omega
      refine .inr ⟨htick, h.readerView, .inr ⟨.inl rfl, ?_⟩, ?_, .inr hreader⟩
      · rw [ht]
        exact accessed_access ..
      · exact hreader.imp_right .inl
    · exact .inl rfl
  · rw [hplace] at hp
    rcases write_cases hp with ⟨-, rfl, rfl⟩ | ⟨-, rfl, rfl⟩
    · refine .inr ⟨htick, h.readerView, .inr ⟨.inr (.inl rfl), hwrote.access ..⟩, ?_, ?_⟩
      · exact h.reader.imp_right fun hr => hr.imp_right fun hr => ⟨hr.1, hr.2.access ..⟩
      · exact .inr (h.behind.resolve_left (by simp [hplace]))
    · exact .inl rfl
  · rw [hplace] at hp
    obtain ⟨rfl, rfl⟩ := exit_cases hp
    refine .inr ⟨h.writerView, h.readerView, .inr ⟨.inr (.inr rfl), hwrote⟩, h.reader, ?_⟩
    exact .inr (h.behind.resolve_left (by simp [hplace]))
  · rw [hplace] at hp
    cases hp

/-- **A step of the reader.**  After the writer it races. -/
theorem inv_reader (h : Inv m w r)
    (hp : perform m r c (op ongoingOptimisation 1 r.place) = some (m', r'))
    (ht : c.thread = 1) : m'.raced = true ∨ Inv m' w r' := by
  have htick : (r.view.tick c.thread) (.inr 0) = 0 := by
    rw [View.tick_of_ne _ (by omega)]
    exact h.readerView
  rcases h.reader with hplace | ⟨y, hplace⟩ | ⟨⟨y, x, hplace | hplace⟩, hread⟩
  · rw [hplace] at hp
    rcases read_cases hp with ⟨-, rfl, rfl⟩ | ⟨-, rfl, rfl⟩
    · refine .inr ⟨h.writerView, htick, ?_, .inr (.inl ⟨_, rfl⟩), .inr (.inr ⟨_, rfl⟩)⟩
      exact h.writer.imp_right fun hw => ⟨hw.1, hw.2.access ..⟩
    · exact .inl rfl
  · rw [hplace] at hp
    rcases read_cases hp with ⟨hknows, rfl, rfl⟩ | ⟨-, rfl, rfl⟩
    · have hwriter : w.place = .writeX := by
        rcases h.writer with hw | ⟨-, e, he, hthread, hwrites, htime⟩
        · exact hw
        · have hle := hknows e (List.mem_filter.mpr ⟨he, hwrites⟩)
          have hseen : r.seen false = r.view := rfl
          rw [hthread, hseen, h.readerView] at hle
          omega
      refine .inr
        ⟨h.writerView, htick, .inl hwriter, .inr (.inr ⟨⟨y, _, .inl rfl⟩, ?_⟩), .inl hwriter⟩
      rw [ht]
      exact accessed_access ..
    · exact .inl rfl
  · rw [hplace] at hp
    obtain ⟨rfl, rfl⟩ := exit_cases hp
    refine .inr ⟨h.writerView, h.readerView, h.writer, .inr (.inr ⟨⟨y, x, .inr rfl⟩, hread⟩), ?_⟩
    exact .inl (h.behind.resolve_right (by simp [hplace]))
  · rw [hplace] at hp
    cases hp

/-- **No run gets by without a race.** -/
theorem races {e : End} (h : Ends ongoingOptimisation e) : e = .undefined := by
  obtain ⟨s, hs, he⟩ := h
  have hinv : ∃ w r, s.threads = [w, r] ∧ (s.memory.raced = true ∨ Inv s.memory w r) := by
    refine hs.invariant ?_ ?_ (I := fun s => ∃ w r, s.threads = [w, r] ∧
      (s.memory.raced = true ∨ Inv s.memory w r))
    · exact ⟨_, _, rfl, .inr ⟨rfl, rfl, .inl rfl, .inl rfl, .inl rfl⟩⟩
    · rintro s c s' ⟨w, r, hthreads, h⟩ - hst
      have h : Inv s.memory w r := h.resolve_left (by simp [(step_cases hst).1])
      rcases two_cases hst hthreads with ⟨m, w', ht, hp, rfl⟩ | ⟨m, r', ht, hp, rfl⟩
      · exact ⟨w', r, rfl, inv_writer h hp ht⟩
      · exact ⟨w, r', rfl, inv_reader h hp ht⟩
  obtain ⟨w, r, hthreads, h⟩ := hinv
  cases hraced : s.memory.raced with
  | true =>
    rw [ending, hraced, if_pos rfl] at he
    exact (Option.some.inj he).symm
  | false =>
    have h : Inv s.memory w r := h.resolve_left (by simp [hraced])
    obtain ⟨y, x, hw, hr, rfl⟩ := ending_eq hraced hthreads he
    have hbehind := h.behind
    simp [hw, hr] at hbehind

end Plain

/-! ### A mutex -/

namespace Locked

/-- The places between the lock and the unlock. -/
def holds : Place → Bool
  | .writeX | .writeY | .written | .readY | .readX _ | .read _ _ => true
  | _ => false

theorem guarded {s : State Object Object Int Int Place}
    (hs : (program ongoingOptimisationLock).Reachable s) :
    WeakMemory.Guarded (fun _ => holds) s := by
  refine WeakMemory.guarded ?_ rfl rfl (fun _ => rfl) ?_ hs
  · intro t p
    cases p <;> first | trivial | exact ⟨rfl, fun _ => rfl⟩
  · intro t p hp
    rcases List.mem_cons.mp hp with rfl | hp
    · rfl
    · rw [List.mem_singleton.mp hp]
      rfl

variable {m m' : Memory Object Object Int Int} {w w' r r' : Thread Object Place} {c : Act}

/-- What the variables have, by where the writer is. -/
def Writer (m : Memory Object Object Int Int) (w : Thread Object Place) : Prop :=
  match w.place with
  | .lockWriting | .writeX => (m.cells .x).value = 0 ∧ (m.cells .y).value = 0
  | .writeY => (m.cells .x).value = 2000 ∧ (m.cells .y).value = 0
  | .written | .ended none => (m.cells .x).value = 2000 ∧ (m.cells .y).value = 11
  | _ => False

/-- What the reader has. -/
def Reader (m : Memory Object Object Int Int) (r : Thread Object Place) : Prop :=
  match r.place with
  | .readX y => y = (m.cells .y).value
  | .read y x => y = (m.cells .y).value ∧ x = (m.cells .x).value
  | .ended (some (y, x)) => y = 0 ∧ x = 0 ∨ y = 11 ∧ x = 2000
  | .lockReading | .readY => True
  | _ => False

/-- Outside of the mutex the reader has nothing that a write could change. -/
theorem Reader.write (h : Reader m r) (hr : holds r.place = false) : Reader m' r := by
  rw [Reader] at h ⊢
  split at h
  · rename_i hplace
    simp [hplace, holds] at hr
  · rename_i hplace
    simp [hplace, holds] at hr
  · exact h
  · trivial
  · trivial
  · exact h

theorem inv_writer (hwriter : Writer m w) (hreader : Reader m r)
    (hout : holds w.place = true → holds r.place = false)
    (hp : perform m w c (op ongoingOptimisationLock 0 w.place) = some (m', w'))
    (hraced : m'.raced = false) : Writer m' w' ∧ Reader m' r := by
  cases hplace : w.place with
  | lockWriting =>
    rw [Writer, hplace] at hwriter
    rw [hplace] at hp
    obtain ⟨-, rfl, rfl⟩ := lock_cases hp
    exact ⟨hwriter, hreader⟩
  | writeX =>
    rw [Writer, hplace] at hwriter
    have hr := hout (by rw [hplace]; rfl)
    rw [hplace] at hp
    rcases write_cases hp with ⟨-, rfl, rfl⟩ | ⟨-, rfl, rfl⟩
    · refine ⟨⟨?_, ?_⟩, hreader.write hr⟩
      · rw [access_cells_self]
      · rw [access_cells_of_ne _ (by decide)]
        exact hwriter.2
    · cases hraced
  | writeY =>
    rw [Writer, hplace] at hwriter
    have hr := hout (by rw [hplace]; rfl)
    rw [hplace] at hp
    rcases write_cases hp with ⟨-, rfl, rfl⟩ | ⟨-, rfl, rfl⟩
    · refine ⟨⟨?_, ?_⟩, hreader.write hr⟩
      · rw [access_cells_of_ne _ (by decide)]
        exact hwriter.1
      · rw [access_cells_self]
    · cases hraced
  | written =>
    rw [Writer, hplace] at hwriter
    rw [hplace] at hp
    obtain ⟨-, rfl, rfl⟩ := unlock_cases hp
    exact ⟨hwriter, hreader⟩
  | ended printed =>
    rw [hplace] at hp
    cases hp
  | _ =>
    rw [Writer, hplace] at hwriter
    exact hwriter.elim

theorem inv_reader (hwriter : Writer m w) (hreader : Reader m r)
    (hout : holds r.place = true → holds w.place = false)
    (hp : perform m r c (op ongoingOptimisationLock 1 r.place) = some (m', r'))
    (hraced : m'.raced = false) : Writer m' w ∧ Reader m' r' := by
  have hcells : ∀ {o : Object} {e : Access} (o' : Object),
      ((m.access o (m.cells o).value e).cells o').value = (m.cells o').value := by
    intro o e o'
    by_cases ho : o' = o
    · rw [ho, access_cells_self]
    · rw [access_cells_of_ne _ ho]
  have hwriter' : ∀ {o : Object} {e : Access}, Writer (m.access o (m.cells o).value e) w := by
    intro o e
    rw [Writer] at hwriter ⊢
    simp only [hcells]
    exact hwriter
  cases hplace : r.place with
  | lockReading =>
    rw [hplace] at hp
    obtain ⟨-, rfl, rfl⟩ := lock_cases hp
    exact ⟨hwriter, trivial⟩
  | readY =>
    rw [hplace] at hp
    rcases read_cases hp with ⟨-, rfl, rfl⟩ | ⟨-, rfl, rfl⟩
    · exact ⟨hwriter', (hcells _).symm⟩
    · cases hraced
  | readX y =>
    rw [Reader, hplace] at hreader
    rw [hplace] at hp
    rcases read_cases hp with ⟨-, rfl, rfl⟩ | ⟨-, rfl, rfl⟩
    · exact ⟨hwriter', hreader.trans (hcells _).symm, (hcells _).symm⟩
    · cases hraced
  | read y x =>
    rw [Reader, hplace] at hreader
    have hw := hout (by rw [hplace]; rfl)
    rw [hplace] at hp
    obtain ⟨-, rfl, rfl⟩ := unlock_cases hp
    refine ⟨hwriter, ?_⟩
    -- the writer has not begun, or it is done
    rw [Writer] at hwriter
    rw [hreader.1, hreader.2]
    split at hwriter
    · exact .inl ⟨hwriter.2, hwriter.1⟩
    · exact .inl ⟨hwriter.2, hwriter.1⟩
    · rename_i hplace
      simp [hplace, holds] at hw
    · rename_i hplace
      simp [hplace, holds] at hw
    · exact .inr ⟨hwriter.2, hwriter.1⟩
    · exact hwriter.elim
  | ended printed =>
    rw [hplace] at hp
    cases hp
  | _ =>
    rw [Reader, hplace] at hreader
    exact hreader.elim

theorem inv {s : State Object Object Int Int Place}
    (hs : (program ongoingOptimisationLock).Reachable s) :
    ∃ w r, s.threads = [w, r] ∧ Writer s.memory w ∧ Reader s.memory r := by
  induction hs with
  | init => exact ⟨_, _, rfl, ⟨rfl, rfl⟩, trivial⟩
  | step hs hok hst ih =>
    obtain ⟨w, r, hthreads, hwriter, hreader⟩ := ih
    have hraced := (guarded (.step hs hok hst)).raced
    have howns := (guarded hs).owns
    rw [hthreads] at howns
    have hw := howns 0 w rfl
    have hr := howns 1 r rfl
    rcases two_cases hst hthreads with ⟨m, w', -, hp, rfl⟩ | ⟨m, r', -, hp, rfl⟩
    · refine ⟨w', r, rfl, inv_writer hwriter hreader ?_ hp hraced⟩
      intro hin
      rw [← Bool.not_eq_true, hr, hw.mp hin]
      decide
    · refine ⟨w, r', rfl, inv_reader hwriter hreader ?_ hp hraced⟩
      intro hin
      rw [← Bool.not_eq_true, hw, hr.mp hin]
      decide

/-- **The reader prints what was before the writer, or after it.** -/
theorem prints {e : End} (h : Ends ongoingOptimisationLock e) :
    e = .printed 0 0 ∨ e = .printed 11 2000 := by
  obtain ⟨s, hs, he⟩ := h
  obtain ⟨w, r, hthreads, hwriter, hreader⟩ := inv hs
  obtain ⟨y, x, -, hr, rfl⟩ := ending_eq (guarded hs).raced hthreads he
  rw [Reader, hr] at hreader
  rcases hreader with ⟨rfl, rfl⟩ | ⟨rfl, rfl⟩
  · exact .inl rfl
  · exact .inr rfl

end Locked

/-! ### The ends -/

/-- What the actions of a list lead to. -/
def endOf (v : Variant) (cs : List Act) : Option End :=
  ((program v).run (program v).init cs).bind ending

theorem ends_of_run {v : Variant} {e : End} (cs : List Act) (h : endOf v cs = some e) :
    Ends v e := by
  obtain ⟨s, hrun, he⟩ := Option.bind_eq_some_iff.mp h
  exact ⟨s, System.reachable_of_run cs hrun, he⟩

/-- The writer at once, with rooms of one, and what is left to the reader. -/
def writer : List Act := [⟨0, 0, 0, 1⟩, ⟨0, 0, 0, 1⟩, ⟨0, 0, 0, 0⟩]

/-- The reader, with the messages that it reads. -/
def reader (y x : Nat) : List Act := [⟨1, y, 0, 0⟩, ⟨1, x, 0, 0⟩, ⟨1, 0, 0, 0⟩]

/-- **Atomic variables**: all that is allowed is printed, and nothing else. -/
theorem ends_atomic (store load : Order) (e : End) :
    Ends (Atomic.variant store load) e ↔
      ∃ y x, e = .printed y x ∧ Atomic.Allowed store load y x := by
  constructor
  · exact Atomic.allowed
  · rintro ⟨y, x, rfl, rfl | rfl, rfl | rfl, hordered⟩
    · exact ends_of_run (writer ++ reader 1 1) (by cases store <;> cases load <;> rfl)
    · exact ends_of_run (writer ++ reader 1 0) (by cases store <;> cases load <;> rfl)
    · refine ends_of_run (writer ++ reader 0 1) ?_
      cases store <;> cases load <;> first | rfl | exact absurd (hordered rfl rfl rfl) (by decide)
    · exact ends_of_run (writer ++ reader 0 0) (by cases store <;> cases load <;> rfl)

theorem ends_plain (e : End) : Ends ongoingOptimisation e ↔ e = .undefined := by
  constructor
  · exact Plain.races
  · rintro rfl
    exact ends_of_run [⟨0, 0, 0, 0⟩, ⟨1, 0, 0, 0⟩, ⟨1, 0, 0, 0⟩] (by decide)

theorem ends_lock (e : End) :
    Ends ongoingOptimisationLock e ↔ e = .printed 0 0 ∨ e = .printed 11 2000 := by
  constructor
  · exact Locked.prints
  · rintro (rfl | rfl)
    · exact ends_of_run ([1, 1, 1, 1, 0, 0, 0, 0].map fun t => { thread := t }) (by decide)
    · exact ends_of_run ([0, 0, 0, 0, 1, 1, 1, 1].map fun t => { thread := t }) (by decide)

theorem ends_broken (e : End) :
    Ends ongoingOptimisationAcquireReleaseBroken e ↔ e = .undefined ∨ e = .printed 11 2000 := by
  constructor
  · exact Broken.prints
  · rintro (rfl | rfl)
    · exact ends_of_run (writer ++ [⟨1, 1, 0, 0⟩, ⟨1, 0, 0, 0⟩]) (by decide)
    · exact ends_of_run (writer ++ reader 0 0) (by decide)

/-- **The ends of each program.**  Plain variables race in every run.  The mutex makes the
prints those of one thread after the other.  Relaxed variables can be seen in any order; what a
release has behind it comes with what an acquire sees of it, while a plain `x` races where the
acquire does not see it. -/
theorem ends_iff (e : End) :
    (Ends ongoingOptimisation e ↔ e = .undefined) ∧
    (Ends ongoingOptimisationLock e ↔ e = .printed 0 0 ∨ e = .printed 11 2000) ∧
    (Ends ongoingOptimisationRelaxedSemantic e ↔
      ∃ y x, e = .printed y x ∧ (y = 0 ∨ y = 11) ∧ (x = 0 ∨ x = 2000)) ∧
    (Ends ongoingOptimisationAcquireRelease e ↔
      ∃ y x, e = .printed y x ∧ (y = 0 ∨ y = 11) ∧ (x = 0 ∨ x = 2000) ∧ (y = 11 → x = 2000)) ∧
    (Ends ongoingOptimisationAcquireReleaseBroken e ↔
      e = .undefined ∨ e = .printed 11 2000) := by
  refine ⟨ends_plain e, ends_lock e, ?_, ?_, ends_broken e⟩
  · refine (ends_atomic .relaxed .relaxed e).trans ?_
    constructor
    · rintro ⟨y, x, he, h⟩
      exact ⟨y, x, he, h.printedY, h.printedX⟩
    · rintro ⟨y, x, he, hy, hx⟩
      exact ⟨y, x, he, hy, hx, nofun⟩
  · refine (ends_atomic .release .acquire e).trans ?_
    constructor
    · rintro ⟨y, x, he, h⟩
      exact ⟨y, x, he, h.printedY, h.printedX, h.ordered rfl rfl⟩
    · rintro ⟨y, x, he, hy, hx, hordered⟩
      exact ⟨y, x, he, hy, hx, fun _ _ => hordered⟩

end Cpp20Examples.MemoryOrders.OngoingOptimisation
