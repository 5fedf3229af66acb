import Cpp20Examples.Lib.Barrier

/-!
# Full-time and part-time workers

`fullTimePartTimeWorkers`: the workers print that their morning work is done and arrive at
the barrier `workDone`.  A part-time worker drops out there; a full-time worker waits for
the others, prints that the afternoon work is done, and waits once more.

* `coutMutex_respected`, `workDone_respected`: the mutex and the barrier.
* `Told`: what a worker has printed, and the phase in which the afternoon begins.
* `morning_before_afternoon`: no afternoon before all mornings, and no deadlock.
-/

namespace Cpp20Examples.FullTimePartTimeWorkers

open Lib Lib.Threads

inductive Kind
  | fullTime
  | partTime
  deriving DecidableEq

inductive Period
  | morning
  | afternoon
  deriving DecidableEq

/-- What a worker prints. -/
def line (name : String) : Period → String
  | .morning => name ++ ": " ++ "Morning work done!\n"
  | .afternoon => name ++ ": " ++ "Afternoon work done!\n"

/-- `cout` has the lines with the workers that have printed them, newest first. -/
structure Shared where
  workDone : Barrier
  coutMutex : Option Nat := none
  cout : List (Nat × String) := []

/-- Where a worker is: in `synchronizedOut`, in front of the lock, of the output or of the
end of the scope; in front of the barrier, or waiting there with its token; at its end,
with the barrier dropped or not. -/
inductive Point
  | lock (p : Period)
  | print (p : Period)
  | unlock (p : Period)
  | arrive (p : Period)
  | wait (p : Period) (token : Nat)
  | dropped
  | finished
  deriving DecidableEq

structure Worker where
  kind : Kind
  name : String
  point : Point := .lock .morning
  deriving DecidableEq

/-- What follows `arrive_and_wait`. -/
def Period.next : Period → Point
  | .morning => .lock .afternoon
  | .afternoon => .finished

/-- A step of `FullTimeWorker` or `PartTimeWorker`. -/
def step (t : Nat) (d : Shared) (w : Worker) : Option (Shared × Worker) :=
  match w.point with
  | .lock p =>
    if d.coutMutex = none then some ({ d with coutMutex := some t }, { w with point := .print p })
    else none
  | .print p =>
    some ({ d with cout := (t, line w.name p) :: d.cout }, { w with point := .unlock p })
  | .unlock p => some ({ d with coutMutex := none }, { w with point := .arrive p })
  | .arrive p =>
    match w.kind with
    | .fullTime =>
      some ({ d with workDone := d.workDone.arrive }, { w with point := .wait p d.workDone.phase })
    | .partTime =>
      some ({ d with workDone := d.workDone.arriveAndDrop }, { w with point := .dropped })
  | .wait p token => if token = d.workDone.phase then none else some (d, { w with point := p.next })
  | .dropped | .finished => none

def Worker.finished (w : Worker) : Bool :=
  match w.point with
  | .dropped | .finished => true
  | _ => false

/-- The worker is blocked in `arrive_and_wait`. -/
def Worker.blocked (d : Shared) (w : Worker) : Bool :=
  match w.point with
  | .wait _ token => token == d.workDone.phase
  | _ => false

/-- The workers with these kinds and names, on a barrier for all of them. -/
def system (workers : List (Kind × String)) : System (State Shared Worker) Nat :=
  Threads.system step ⟨.new workers.length, none, []⟩
    (workers.map fun w => ⟨w.1, w.2, .lock .morning⟩)

/-! ### The steps -/

inductive Step (t : Nat) (d : Shared) : Worker → Shared → Worker → Prop
  | lock {k name p} (hfree : d.coutMutex = none) :
      Step t d ⟨k, name, .lock p⟩ { d with coutMutex := some t } ⟨k, name, .print p⟩
  | print {k name p} : Step t d ⟨k, name, .print p⟩
      { d with cout := (t, line name p) :: d.cout } ⟨k, name, .unlock p⟩
  | unlock {k name p} : Step t d ⟨k, name, .unlock p⟩ { d with coutMutex := none }
      ⟨k, name, .arrive p⟩
  | arrive {name p} : Step t d ⟨.fullTime, name, .arrive p⟩
      { d with workDone := d.workDone.arrive } ⟨.fullTime, name, .wait p d.workDone.phase⟩
  | drop {name p} : Step t d ⟨.partTime, name, .arrive p⟩
      { d with workDone := d.workDone.arriveAndDrop } ⟨.partTime, name, .dropped⟩
  | leave {k name p token} (hcomplete : token ≠ d.workDone.phase) :
      Step t d ⟨k, name, .wait p token⟩ d ⟨k, name, p.next⟩

theorem step_of {t : Nat} {d d' : Shared} {w w' : Worker} (h : step t d w = some (d', w')) :
    Step t d w d' w' := by
  obtain ⟨k, name, p⟩ := w
  cases p with
  | lock p =>
    simp only [step] at h
    split at h
    · rename_i hfree
      cases h
      exact .lock hfree
    · cases h
  | print p => cases h; exact .print
  | unlock p => cases h; exact .unlock
  | arrive p =>
    cases k with
    | fullTime => cases h; exact .arrive
    | partTime => cases h; exact .drop
  | wait p token =>
    simp only [step] at h
    split at h
    · cases h
    · rename_i hcomplete
      cases h
      exact .leave hcomplete
  | dropped => cases h
  | finished => cases h

/-- Inside `synchronizedOut`, with the lock. -/
def Worker.inside (w : Worker) : Bool :=
  match w.point with
  | .print _ | .unlock _ => true
  | _ => false

/-- How often a worker has arrived. -/
def Worker.arrivals (w : Worker) : Nat :=
  match w.point with
  | .lock .morning | .print .morning | .unlock .morning | .arrive .morning => 0
  | .lock .afternoon | .print .afternoon | .unlock .afternoon | .arrive .afternoon => 1
  | .wait .morning _ => 1
  | .wait .afternoon _ | .dropped | .finished => 2

def Worker.token (w : Worker) : Option Nat :=
  match w.point with
  | .wait _ token => some token
  | _ => none

def Worker.dropped (w : Worker) : Bool := decide (w.point = .dropped)

def coutMutex : Mutex Shared Worker := ⟨Shared.coutMutex, Worker.inside⟩

def workDone : Parties Shared Worker :=
  ⟨Shared.workDone, Worker.arrivals, Worker.token, Worker.dropped⟩

theorem coutMutex_respected : coutMutex.Respected step where
  step h := by
    cases step_of h with
    | lock hfree => exact .inr (.inl ⟨rfl, hfree, rfl, rfl⟩)
    | unlock => exact .inr (.inr ⟨rfl, rfl, rfl⟩)
    | @leave k name p => cases p <;> exact .inl ⟨rfl, rfl⟩
    | print | arrive | drop => exact .inl ⟨rfl, rfl⟩

theorem workDone_respected : workDone.Respected step := by
  intro t d w d' w' h
  cases step_of h with
  | @lock k name p => cases p <;> exact .keep rfl rfl rfl rfl
  | @print k name p => cases p <;> exact .keep rfl rfl rfl rfl
  | @unlock k name p => cases p <;> exact .keep rfl rfl rfl rfl
  | @arrive name p => cases p <;> exact .arrive rfl rfl rfl rfl rfl rfl
  | drop => exact .drop rfl rfl rfl rfl
  | @leave k name p token hcomplete => cases p <;> exact .leave token rfl hcomplete rfl rfl rfl rfl

section Reachable

variable {workers : List (Kind × String)} {s s' : State Shared Worker} {t : Nat}
  {d d' : Shared} {w w' : Worker}

theorem outside_start (hw : w ∈ workers.map fun w => (⟨w.1, w.2, .lock .morning⟩ : Worker)) :
    coutMutex.inside w = false := by
  obtain ⟨x, -, rfl⟩ := List.mem_map.mp hw
  rfl

theorem start : workDone.Start ⟨.new workers.length, none, []⟩
    (workers.map fun w => ⟨w.1, w.2, .lock .morning⟩) where
  barrier := by rw [List.length_map]; rfl
  arrivals w hw := by
    obtain ⟨x, -, rfl⟩ := List.mem_map.mp hw
    rfl
  token w hw := by
    obtain ⟨x, -, rfl⟩ := List.mem_map.mp hw
    rfl
  dropped w hw := by
    obtain ⟨x, -, rfl⟩ := List.mem_map.mp hw
    rfl

theorem counted (hs : (system workers).Reachable s) :
    workDone.InPhase s.data.workDone s.threads :=
  Parties.inPhase workDone_respected start hs

theorem who_step (h : Step t d w d' w') : (w'.kind, w'.name) = (w.kind, w.name) := by
  cases h <;> rfl

theorem who (hs : (system workers).Reachable s) :
    s.threads.map (fun w => (w.kind, w.name)) = workers := by
  induction hs with
  | init => simp [system, Threads.system, Function.comp_def]
  | step _ _ hst ih =>
    obtain ⟨w, d, w', hw, hnext, rfl⟩ := step_cases hst
    exact (map_set_of_eq hw (who_step (step_of hnext))).trans ih

/-! ### What the workers have printed -/

/-- The worker has printed its morning line. -/
def Worker.told (w : Worker) : Bool :=
  match w.point with
  | .lock .morning | .print .morning => false
  | _ => true

/-- The worker has left the barrier for the afternoon. -/
def Worker.afternoon (w : Worker) : Bool :=
  match w.point with
  | .lock .afternoon | .print .afternoon | .unlock .afternoon | .arrive .afternoon => true
  | .wait .afternoon _ | .finished => true
  | _ => false

structure Told (t : Nat) (d : Shared) (w : Worker) : Prop where
  morning : w.told = true → (t, line w.name .morning) ∈ d.cout
  afternoon : w.afternoon = true → 0 < d.workDone.phase

theorem phase_le_arrive (b : Barrier) : b.phase ≤ b.arrive.phase := by
  rw [Barrier.arrive]
  split
  · exact Nat.le_succ _
  · exact Nat.le_refl _

theorem grows (h : Step t d w d' w') :
    (∀ x ∈ d.cout, x ∈ d'.cout) ∧ d.workDone.phase ≤ d'.workDone.phase := by
  cases h with
  | print => exact ⟨fun x hx => List.mem_cons_of_mem _ hx, Nat.le_refl _⟩
  | arrive => exact ⟨fun x hx => hx, phase_le_arrive _⟩
  | drop => exact ⟨fun x hx => hx, phase_le_arrive ⟨d.workDone.expected - 1, _, _⟩⟩
  | lock | unlock | leave => exact ⟨fun x hx => hx, Nat.le_refl _⟩

theorem Told.mono {u : Nat} (hw : Told u d w) (hcout : ∀ x ∈ d.cout, x ∈ d'.cout)
    (hphase : d.workDone.phase ≤ d'.workDone.phase) : Told u d' w :=
  ⟨fun htold => hcout _ (hw.morning htold), fun hafter =>
    Nat.lt_of_lt_of_le (hw.afternoon hafter) hphase⟩

/-- **A step keeps what was told.**  The first phase is complete when a worker leaves the
barrier for the afternoon. -/
theorem told_step (hw : Told t d w) (hplaced : workDone.Placed d.workDone.phase w)
    (h : Step t d w d' w') : Told t d' w' := by
  obtain ⟨hcout, hphase⟩ := grows h
  have hmono := hw.mono hcout hphase
  cases h with
  | @lock k name p => cases p <;> exact ⟨hmono.morning, hmono.afternoon⟩
  | @print k name p =>
    cases p with
    | morning => exact ⟨fun _ => List.mem_cons_self, nofun⟩
    | afternoon => exact ⟨hmono.morning, hmono.afternoon⟩
  | @unlock k name p => cases p <;> exact ⟨hmono.morning, hmono.afternoon⟩
  | @arrive name p => cases p <;> exact ⟨hmono.morning, hmono.afternoon⟩
  | @drop name p => cases p <;> exact ⟨hmono.morning, nofun⟩
  | @leave k name p token hcomplete =>
    cases p with
    | morning =>
      refine ⟨hmono.morning, ?_⟩
      intro _
      have htoken : token + 1 = 1 := hplaced.token rfl token rfl
      omega
    | afternoon => exact ⟨hmono.morning, hmono.afternoon⟩

theorem told (hs : (system workers).Reachable s) (hw : s.threads[t]? = some w) :
    Told t s.data w := by
  refine (invariant (I := fun _ => True) (L := Told) trivial ?_
    ?_ hs).2 t w hw
  · intro t w hw
    obtain ⟨x, -, rfl⟩ := List.mem_map.mp (List.mem_of_getElem? hw)
    exact ⟨nofun, nofun⟩
  · intro s t w d w' hs _ _ hk hw hnext
    have hst := step_of hnext
    have hplaced := (counted hs).placed w (List.mem_of_getElem? hw)
    refine ⟨trivial, told_step hk hplaced hst, ?_⟩
    intro u v _ _ hv
    obtain ⟨hcout, hphase⟩ := grows hst
    exact hv.mono hcout hphase

/-- **In the afternoon** all workers have printed their morning lines. -/
theorem mornings_of_afternoon (hs : (system workers).Reachable s) (hw : s.threads[t]? = some w)
    (hafter : w.afternoon = true) {u : Nat} {x : Kind × String} (hx : workers[u]? = some x) :
    (u, line x.2 .morning) ∈ s.data.cout := by
  rw [← who hs, List.getElem?_map] at hx
  obtain ⟨v, hv, rfl⟩ := Option.map_eq_some_iff.mp hx
  apply (told hs hv).morning
  have harrived := (counted hs).arrived ((told hs hw).afternoon hafter) (List.mem_of_getElem? hv)
  obtain ⟨k, name, p⟩ := v
  cases p with
  | lock p | print p =>
    cases p with
    | morning =>
      rcases harrived with hdropped | hpos
      · exact absurd hdropped Bool.false_ne_true
      · exact absurd hpos (Nat.lt_irrefl 0)
    | afternoon => rfl
  | _ => rfl

/-- Each afternoon line has all morning lines before it. -/
def Ordered (workers : List (Kind × String)) (cout : List (Nat × String)) : Prop :=
  ∀ later t x earlier, workers[t]? = some x →
    cout = later ++ (t, line x.2 .afternoon) :: earlier →
    ∀ u y, workers[u]? = some y → (u, line y.2 .morning) ∈ earlier

theorem line_ne (name : String) : line name .morning ≠ line name .afternoon := by
  rw [line, line, Ne, String.append_right_inj]
  decide

theorem Ordered.cons {cout : List (Nat × String)} {l : Nat × String} (h : Ordered workers cout)
    (hl : ∀ x, workers[l.1]? = some x → l.2 = line x.2 .afternoon →
      ∀ u y, workers[u]? = some y → (u, line y.2 .morning) ∈ cout) :
    Ordered workers (l :: cout) := by
  intro later t x earlier hx hcout
  cases later with
  | nil =>
    obtain ⟨rfl, rfl⟩ := List.cons.inj hcout
    exact hl x hx rfl
  | cons l' later =>
    obtain ⟨-, hcout⟩ := List.cons.inj hcout
    exact h later t x earlier hx hcout

theorem ordered (hs : (system workers).Reachable s) : Ordered workers s.data.cout := by
  induction hs with
  | init =>
    intro later t x earlier _ hcout
    exact absurd hcout (by simp [system, Threads.system])
  | @step s s' t hs _ hst ih =>
    obtain ⟨w, d, w', hw, hnext, rfl⟩ := step_cases hst
    cases step_of hnext with
    | @print k name p =>
      apply ih.cons
      intro x hx hline
      have hname : x.2 = name := by
        rw [← who hs, List.getElem?_map, hw] at hx
        exact (congrArg Prod.snd (Option.some.inj hx)).symm
      cases p with
      | morning =>
        have hline : line name .morning = line x.2 .afternoon := hline
        rw [hname] at hline
        exact absurd hline (line_ne name)
      | afternoon =>
        intro u y hy
        exact mornings_of_afternoon hs hw rfl hy
    | lock | unlock | arrive | drop | leave => exact ih

/-! ### No deadlock -/

theorem arrivals_le (w : Worker) : w.arrivals ≤ 2 := by
  rw [Worker.arrivals]
  split <;> omega

theorem dropped_of_not_finished (hfin : w.finished = false) : workDone.dropped w = false := by
  obtain ⟨k, name, p⟩ := w
  cases p with
  | dropped => cases hfin
  | _ => rfl

theorem token_of_blocked (h : w.blocked d = true) : workDone.token w = some d.workDone.phase := by
  obtain ⟨k, name, p⟩ := w
  cases p with
  | wait p token => exact congrArg some (eq_of_beq h)
  | _ => cases h

theorem arrivals_of_finished (hfin : w.finished = true) : workDone.arrivals w = 2 := by
  obtain ⟨k, name, p⟩ := w
  cases p with
  | dropped | finished => rfl
  | _ => cases hfin

/-- **Not all are blocked.**  Somebody is still to arrive in the current phase, or it is the
third one, for which nobody waits. -/
theorem exists_unblocked (hs : (system workers).Reachable s) (hw : w ∈ s.threads)
    (hfin : w.finished = false) :
    ∃ v ∈ s.threads, v.finished = false ∧ v.blocked s.data = false := by
  have hcounted := counted hs
  obtain ⟨v, hv, -, harrivals, htoken⟩ :=
    hcounted.exists_behind hw (dropped_of_not_finished hfin)
  by_cases hvfin : v.finished = true
  · refine ⟨w, hw, hfin, eq_false_of_ne_true ?_⟩
    intro hblocked
    have hhere : workDone.here w = true := by
      rw [Parties.here, dropped_of_not_finished hfin, Bool.not_false]
    have hahead : s.data.workDone.phase + 1 = w.arrivals :=
      (hcounted.placed w hw).token hhere _ (token_of_blocked hblocked)
    have hthird := arrivals_of_finished hvfin
    have hle := arrivals_le w
    omega
  · exact ⟨v, hv, eq_false_of_ne_true hvfin, eq_false_of_ne_true fun hblocked =>
      htoken (token_of_blocked hblocked)⟩

/-- A worker can move when it is inside `synchronizedOut`, or not blocked while the mutex is
free. -/
theorem isSome_step (h : w.inside = true ∨
    w.finished = false ∧ w.blocked d = false ∧ d.coutMutex = none) :
    (step t d w).isSome = true := by
  obtain ⟨k, name, p⟩ := w
  cases p with
  | print p | unlock p => rfl
  | lock p =>
    obtain ⟨-, -, hfree⟩ := h.resolve_left Bool.false_ne_true
    simp only [step, hfree, if_true]
    rfl
  | arrive p => cases k <;> rfl
  | wait p token =>
    obtain ⟨-, hblocked, -⟩ := h.resolve_left Bool.false_ne_true
    have hne : token ≠ d.workDone.phase := by
      have hblocked : (token == d.workDone.phase) = false := hblocked
      simpa using hblocked
    simp only [step, if_neg hne]
    rfl
  | dropped | finished =>
    obtain ⟨hfin, -⟩ := h.resolve_left Bool.false_ne_true
    cases hfin

theorem goes_on (hs : (system workers).Reachable s) (hw : w ∈ s.threads)
    (hfin : w.finished = false) : ∃ t s', (system workers).step s t = some s' := by
  cases howner : s.data.coutMutex with
  | none =>
    obtain ⟨v, hv, hvfin, hblocked⟩ := exists_unblocked hs hw hfin
    obtain ⟨t, ht⟩ := List.mem_iff_getElem?.mp hv
    exact ⟨t, exists_step ht (isSome_step (.inr ⟨hvfin, hblocked, howner⟩))⟩
  | some t =>
    have hv := List.getElem?_eq_getElem
      (Mutex.owner_lt (m := coutMutex) coutMutex_respected rfl hs howner)
    have hin := (Mutex.owned (m := coutMutex) coutMutex_respected rfl
      (fun w hw => outside_start hw) hs hv).mpr howner
    exact ⟨t, exists_step hv (isSome_step (.inl hin))⟩

end Reachable

/-- **The morning comes before the afternoon**, for any workers and in every interleaving:
when a worker prints its afternoon line, all have printed their morning lines.  While a
worker has not finished, there is one that is not blocked at the barrier, and somebody can
go on. -/
theorem morning_before_afternoon {workers : List (Kind × String)} {s : State Shared Worker}
    (hs : (system workers).Reachable s) :
    (∀ later t x earlier, workers[t]? = some x →
      s.data.cout = later ++ (t, line x.2 .afternoon) :: earlier →
      ∀ u y, workers[u]? = some y → (u, line y.2 .morning) ∈ earlier) ∧
    ∀ w ∈ s.threads, w.finished = false →
      (∃ v ∈ s.threads, v.finished = false ∧ v.blocked s.data = false) ∧
      ∃ t s', (system workers).step s t = some s' :=
  ⟨ordered hs, fun _ hw hfin => ⟨exists_unblocked hs hw hfin, goes_on hs hw hfin⟩⟩

/-- The workers of `main`. -/
def mainWorkers : List (Kind × String) :=
  [(.fullTime, "  Herb"), (.fullTime, "    Scott"), (.fullTime, "      Bjarne"),
    (.partTime, "        Andrei"), (.partTime, "          Andrew"),
    (.partTime, "            David")]

/-- The mornings of all workers, and the afternoon of the second one. -/
theorem morning_before_afternoon_main : ∃ s, (system mainWorkers).Reachable s ∧
    s.data.cout.head? = some (1, "    Scott: Afternoon work done!\n") ∧
    (5, "            David: Morning work done!\n") ∈ s.data.cout.tail := by
  have hs := System.reachable_of_run (M := system mainWorkers)
    [0, 0, 0, 1, 1, 1, 1, 2, 2, 2, 3, 3, 3, 3, 4, 4, 4, 5, 5, 5, 5, 4, 2, 0, 1, 1, 1] rfl
  refine ⟨_, hs, rfl, ?_⟩
  exact (morning_before_afternoon hs).1 [] 1 (.fullTime, "    Scott") _ rfl rfl 5
    (.partTime, "            David") rfl

end Cpp20Examples.FullTimePartTimeWorkers
