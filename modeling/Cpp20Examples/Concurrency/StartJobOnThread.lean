import Cpp20Examples.Lib.Threads
import Mathlib.Data.List.Nodup
import Mathlib.Data.List.Range

/-!
# Jobs that resume on another thread

`startJobWithAutomaticResumptionOnThread`: a job that is not ready is resumed by a thread that its
`await_suspend` starts.  `await_suspend` then assigns this thread to `outerThread`, a member of the
awaiter in the frame of the job, and `final_suspend` does not keep the frame.

* `Inv`: frames, threads and finished jobs, from the places of `main` and of the jobs.
* `jobs_finish`: without a read of a dead awaiter, each job finishes once, on its own thread.
* `jobs_safe_iff`: no run reads a dead awaiter when all jobs are ready, and only then.
-/

namespace Cpp20Examples.StartJobOnThread

open Lib

/-! ### The program -/

/-- The awaiter lives until `await_resume`, the frame until `final_suspend`. -/
inductive Life
  | awaiting
  | resumed
  | destroyed
  deriving DecidableEq

/-- A coroutine frame of `performJob`. -/
structure Frame where
  jobNumber : Nat
  life : Life := .awaiting

/-- `finished` is the output of `final_suspend`: the number of the job and its thread.  The
numbers are taken exactly; `JobCounter` is an `int`. -/
structure Shared where
  jobCounter : Nat := 1
  frames : List Frame := []
  jthreads : List Nat := []
  threads : List Nat := []
  finished : List (Nat × Nat) := []
  dangling : Bool := false

/-- Where a thread is: at a statement for the job `i`, or with the destructor of element `i` of
`threads`. -/
inductive Place
  | performJob (i : Nat)
  | awaitReady (i : Nat)
  | awaitSuspend (i : Nat)
  | outerThread (i : Nat)
  | resume (i : Nat)
  | finalSuspend (i : Nat)
  | join (i : Nat)
  | ended
  deriving DecidableEq

def Shared.setLife (d : Shared) (i : Nat) (life : Life) : Shared :=
  { d with frames := d.frames.modify i fun f => { f with life } }

/-- The frame of the job `i` is no more. -/
def Shared.left (d : Shared) (i : Nat) : Bool :=
  d.frames[i]?.any fun f => f.life == .destroyed

/-- A step of the thread `t`; `main` is the thread 0, and `gen` says which jobs are ready. -/
def next (n : Nat) (gen : Nat → Bool) : Threads.Next Shared Place := fun t d p =>
  match p with
  | .performJob i =>
    if i < n then
      some ({ d with
        jobCounter := d.jobCounter + 1
        frames := d.frames ++ [{ jobNumber := d.jobCounter }] }, .awaitReady i)
    else some (d, .join 0)
  | .awaitReady i => some (d, if gen i = true then .resume i else .awaitSuspend i)
  | .awaitSuspend i => some ({ d with jthreads := d.jthreads ++ [i] }, .outerThread i)
  -- the member `outerThread` of the awaiter is read
  | .outerThread i =>
    if d.frames[i]?.any (fun f => f.life == .awaiting) = true then
      some ({ d with threads := d.threads ++ [i] }, .performJob (i + 1))
    else some ({ d with dangling := true }, .ended)
  | .resume i =>
    if t = 0 ∨ i ∈ d.jthreads then some (d.setLife i .resumed, .finalSuspend i) else none
  | .finalSuspend i =>
    (d.frames[i]?).map fun f =>
      ({ d.setLife i .destroyed with finished := d.finished ++ [(f.jobNumber, t)] },
        if t = 0 then .performJob (i + 1) else .ended)
  | .join i =>
    if i < n then
      if i ∈ d.threads ∧ d.left i = false then none else some (d, .join (i + 1))
    else some (d, .ended)
  | .ended => none

/-- `main`, and a thread for each job that may get one. -/
def system (n : Nat) (gen : Nat → Bool) : System (Threads.State Shared Place) Nat :=
  Threads.system (next n gen) {} (.performJob 0 :: (List.range n).map .resume)

/-! ### Where `main` is -/

namespace Place

/-- The jobs in front of this one are behind `main`. -/
def current (n : Nat) : Place → Nat
  | performJob i | awaitReady i | awaitSuspend i | outerThread i | resume i | finalSuspend i => i
  | join _ | ended => n

/-- The frames that were created. -/
def created (n : Nat) : Place → Nat
  | performJob i => i
  | awaitReady i | awaitSuspend i | outerThread i | resume i | finalSuspend i => i + 1
  | join _ | ended => n

/-- The jobs in front of this one have their threads, where they need one. -/
def started (n : Nat) : Place → Nat
  | outerThread i => i + 1
  | p => p.current n

/-- The threads that were joined. -/
def joined (n : Nat) : Place → Nat
  | join i => i
  | ended => n
  | _ => 0

/-- The frame of a job that is at this place of its own thread. -/
def life : Place → Life
  | finalSuspend _ => .resumed
  | ended => .destroyed
  | _ => .awaiting

end Place

/-- What the frame of the job `i` is, when `main` is at `m` and the thread of the job at `p`. -/
def life (n : Nat) (gen : Nat → Bool) (m p : Place) (i : Nat) : Life :=
  if gen i = true then
    if m = .finalSuspend i then .resumed
    else if i < m.current n then .destroyed else .awaiting
  else p.life

/-- The places of `main`. -/
inductive Main (n : Nat) (gen : Nat → Bool) : Place → Prop
  | performJob {i} (h : i ≤ n) : Main n gen (.performJob i)
  | awaitReady {i} (h : i < n) : Main n gen (.awaitReady i)
  | awaitSuspend {i} (h : i < n) (hgen : gen i = false) : Main n gen (.awaitSuspend i)
  | outerThread {i} (h : i < n) (hgen : gen i = false) : Main n gen (.outerThread i)
  | resume {i} (h : i < n) (hgen : gen i = true) : Main n gen (.resume i)
  | finalSuspend {i} (h : i < n) (hgen : gen i = true) : Main n gen (.finalSuspend i)
  | join {i} (h : i ≤ n) : Main n gen (.join i)
  | ended : Main n gen .ended

/-- The data, from the place `m` of `main` and the places `p` of the jobs. -/
structure Inv (n : Nat) (gen : Nat → Bool) (d : Shared) (m : Place) (p : Nat → Place) : Prop where
  main : Main n gen m
  counter : d.jobCounter = m.created n + 1
  frames : ∀ i, d.frames[i]? =
    if i < m.created n then some ⟨i + 1, life n gen m (p i) i⟩ else none
  jthreads : ∀ i, i ∈ d.jthreads ↔ i < m.started n ∧ gen i = false
  threads : ∀ i, i ∈ d.threads ↔ i < m.current n ∧ gen i = false
  job : ∀ i, p i = .resume i ∨
    (i < m.started n ∧ gen i = false ∧ (p i = .finalSuspend i ∨ p i = .ended))
  nodup : d.finished.Nodup
  finished : ∀ x, x ∈ d.finished ↔ ∃ i < m.created n, life n gen m (p i) i = .destroyed ∧
    x = (i + 1, if gen i = true then 0 else i + 1)
  joined : ∀ i < m.joined n, gen i = false → p i = .ended

variable {n i t : Nat} {gen : Nat → Bool} {d d' : Shared} {m m' : Place} {p p' : Nat → Place}
  {L : Life}

theorem Inv.length (h : Inv n gen d m p) : d.frames.length = m.created n := by
  apply Nat.le_antisymm
  · have hnone := h.frames (m.created n)
    rw [if_neg (Nat.lt_irrefl _)] at hnone
    exact List.getElem?_eq_none_iff.mp hnone
  · by_contra hlt
    have hsome := h.frames d.frames.length
    rw [if_pos (Nat.lt_of_not_le hlt), List.getElem?_eq_none_iff.mpr (Nat.le_refl _)] at hsome
    cases hsome

theorem life_of_ne (hm : m ≠ .finalSuspend i) (q : Place) : life n gen m q i =
    if gen i = true then (if i < m.current n then .destroyed else .awaiting) else q.life := by
  rw [life, if_neg hm]

theorem life_congr (hm : m ≠ .finalSuspend i) (hm' : m' ≠ .finalSuspend i)
    (h : gen i = true → (i < m'.current n ↔ i < m.current n)) (q : Place) :
    life n gen m' q i = life n gen m q i := by
  rw [life_of_ne hm, life_of_ne hm']
  by_cases hgen : gen i = true
  · rw [if_pos hgen, if_pos hgen]
    by_cases hlt : i < m.current n
    · rw [if_pos hlt, if_pos ((h hgen).mpr hlt)]
    · rw [if_neg hlt, if_neg fun hlt' => hlt ((h hgen).mp hlt')]
  · rw [if_neg hgen, if_neg hgen]

/-- A step of `main` that changes none of the data. -/
theorem Inv.move (h : Inv n gen d m p) (hmain : Main n gen m')
    (hcreated : m'.created n = m.created n) (hstarted : m'.started n = m.started n)
    (hcurrent : m'.current n = m.current n) (hm : ∀ i, m ≠ .finalSuspend i)
    (hm' : ∀ i, m' ≠ .finalSuspend i) (hjoined : ∀ i < m'.joined n, gen i = false → p i = .ended) :
    Inv n gen d m' p := by
  have hlife : ∀ i, life n gen m' (p i) i = life n gen m (p i) i := by
    intro i
    exact life_congr (hm i) (hm' i) (fun _ => by rw [hcurrent]) _
  refine ⟨hmain, ?_, ?_, ?_, ?_, ?_, h.nodup, ?_, hjoined⟩
  · rw [hcreated, h.counter]
  · intro i
    rw [hcreated, hlife, h.frames]
  · intro i
    rw [hstarted, h.jthreads]
  · intro i
    rw [hcurrent, h.threads]
  · intro i
    rw [hstarted]
    exact h.job i
  · intro x
    rw [hcreated, h.finished]
    simp only [hlife]

theorem getElem?_setLife (d : Shared) (i : Nat) (L : Life) (j : Nat) :
    (d.setLife i L).frames[j]? =
      if i = j then d.frames[j]?.map (fun f => { f with life := L }) else d.frames[j]? := by
  rw [Shared.setLife, List.getElem?_modify]
  by_cases hij : i = j
  · simp only [if_pos hij]
    rfl
  · simp only [if_neg hij]
    exact Option.map_id' ..

theorem Inv.frames_setLife (h : Inv n gen d m p) (hcreated : m'.created n = m.created n)
    (hlife : ∀ j, life n gen m' (p' j) j = if j = i then L else life n gen m (p j) j) (j : Nat) :
    (d.setLife i L).frames[j]? =
      if j < m'.created n then some ⟨j + 1, life n gen m' (p' j) j⟩ else none := by
  rw [getElem?_setLife, h.frames, hcreated, hlife]
  by_cases hij : i = j
  · subst hij
    rw [if_pos rfl, if_pos rfl]
    split <;> rfl
  · rw [if_neg hij, if_neg (Ne.symm hij)]

theorem Inv.finished_resume (h : Inv n gen d m p) (hcreated : m'.created n = m.created n)
    (hlife : ∀ j, life n gen m' (p' j) j = if j = i then .resumed else life n gen m (p j) j)
    (hi : life n gen m (p i) i ≠ .destroyed) (x : Nat × Nat) :
    x ∈ d.finished ↔ ∃ j < m'.created n, life n gen m' (p' j) j = .destroyed ∧
      x = (j + 1, if gen j = true then 0 else j + 1) := by
  rw [h.finished, hcreated]
  constructor
  · rintro ⟨j, hj, hdestroyed, rfl⟩
    refine ⟨j, hj, ?_, rfl⟩
    have hne : j ≠ i := by
      rintro rfl
      exact hi hdestroyed
    rw [hlife, if_neg hne]
    exact hdestroyed
  · rintro ⟨j, hj, hdestroyed, rfl⟩
    refine ⟨j, hj, ?_, rfl⟩
    rw [hlife] at hdestroyed
    split at hdestroyed
    · cases hdestroyed
    · exact hdestroyed

/-- A job that finishes writes its number and its thread. -/
theorem Inv.finished_final (h : Inv n gen d m p)
    (hlife : ∀ j, life n gen m' (p' j) j = if j = i then .destroyed else life n gen m (p j) j)
    (hcreated : m'.created n = m.created n) (hi : i < m.created n)
    (hnot : life n gen m (p i) i ≠ .destroyed) :
    (d.finished ++ [(i + 1, if gen i = true then 0 else i + 1)]).Nodup ∧
      ∀ x, x ∈ d.finished ++ [(i + 1, if gen i = true then 0 else i + 1)] ↔
        ∃ j < m'.created n, life n gen m' (p' j) j = .destroyed ∧
          x = (j + 1, if gen j = true then 0 else j + 1) := by
  constructor
  · rw [List.nodup_append]
    refine ⟨h.nodup, List.pairwise_singleton .., ?_⟩
    rintro x hx y hy rfl
    obtain rfl := List.mem_singleton.mp hy
    obtain ⟨j, hj, hdestroyed, heq⟩ := (h.finished _).mp hx
    obtain ⟨hij, -⟩ := Prod.mk.inj heq
    obtain rfl : i = j := by omega
    exact hnot hdestroyed
  · intro x
    rw [List.mem_append, h.finished, hcreated]
    constructor
    · rintro (⟨j, hj, hdestroyed, rfl⟩ | hx)
      · refine ⟨j, hj, ?_, rfl⟩
        rw [hlife]
        split
        · rfl
        · exact hdestroyed
      · obtain rfl := List.mem_singleton.mp hx
        refine ⟨i, hi, ?_, rfl⟩
        rw [hlife, if_pos rfl]
    · rintro ⟨j, hj, hdestroyed, rfl⟩
      by_cases hij : j = i
      · subst hij
        exact .inr (List.mem_singleton_self _)
      · rw [hlife, if_neg hij] at hdestroyed
        exact .inl ⟨j, hj, hdestroyed, rfl⟩

/-! ### Steps of `main` -/

theorem Inv.performJob (h : Inv n gen d (.performJob i) p) (hi : i < n) :
    Inv n gen { d with
      jobCounter := d.jobCounter + 1
      frames := d.frames ++ [{ jobNumber := d.jobCounter }] } (.awaitReady i) p := by
  have hlife : ∀ j, life n gen (.awaitReady i) (p j) j = life n gen (.performJob i) (p j) j := by
    intro j
    exact life_congr (by nofun) (by nofun) (fun _ => Iff.rfl) _
  have hi_life : life n gen (.performJob i) (p i) i = .awaiting := by
    rcases h.job i with hp | ⟨hlt, -⟩
    · simp [life, hp, Place.current, Place.life]
    · exact absurd hlt (Nat.lt_irrefl i)
  refine ⟨.awaitReady hi, ?_, ?_, h.jthreads, h.threads, h.job, h.nodup, ?_, nofun⟩
  · show d.jobCounter + 1 = i + 1 + 1
    rw [h.counter]
    rfl
  · intro j
    show (d.frames ++ [_])[j]? = if j < i + 1 then _ else _
    have hlen : d.frames.length = i := h.length
    rw [List.getElem?_append, hlen, hlife]
    by_cases hj : j < i
    · rw [if_pos hj, if_pos (by omega), h.frames]
      exact if_pos hj
    · rw [if_neg hj]
      by_cases hji : j = i
      · subst hji
        rw [if_pos (Nat.lt_succ_self j), hi_life, h.counter, Nat.sub_self]
        rfl
      · rw [if_neg (by omega), List.getElem?_eq_none_iff]
        show 1 ≤ j - i
        omega
  · intro x
    rw [h.finished]
    show (∃ j < i, _) ↔ ∃ j < i + 1, _
    simp only [hlife]
    constructor
    · rintro ⟨j, hj, hx⟩
      exact ⟨j, by omega, hx⟩
    · rintro ⟨j, hj, hdestroyed, hx⟩
      have hne : j ≠ i := by
        rintro rfl
        rw [hi_life] at hdestroyed
        cases hdestroyed
      exact ⟨j, by omega, hdestroyed, hx⟩

theorem mem_snoc_iff {l : List Nat} (hl : ∀ j, j ∈ l ↔ j < i ∧ gen j = false)
    (hgen : gen i = false) (j : Nat) : j ∈ l ++ [i] ↔ j < i + 1 ∧ gen j = false := by
  rw [List.mem_append, hl, List.mem_singleton]
  constructor
  · rintro (⟨hj, hgen⟩ | rfl)
    · exact ⟨by omega, hgen⟩
    · exact ⟨Nat.lt_succ_self j, hgen⟩
  · rintro ⟨hj, hgen⟩
    by_cases hji : j = i
    · exact .inr hji
    · exact .inl ⟨by omega, hgen⟩

theorem Inv.awaitSuspend (h : Inv n gen d (.awaitSuspend i) p) (hi : i < n)
    (hgen : gen i = false) :
    Inv n gen { d with jthreads := d.jthreads ++ [i] } (.outerThread i) p := by
  have hlife : ∀ j, life n gen (.outerThread i) (p j) j = life n gen (.awaitSuspend i) (p j) j := by
    intro j
    exact life_congr (by nofun) (by nofun) (fun _ => Iff.rfl) _
  refine ⟨.outerThread hi hgen, h.counter, ?_, ?_, h.threads, ?_, h.nodup, ?_, nofun⟩
  · intro j
    rw [hlife]
    exact h.frames j
  · exact mem_snoc_iff h.jthreads hgen
  · intro j
    rcases h.job j with hp | ⟨hj, hrest⟩
    · exact .inl hp
    · exact .inr ⟨Nat.lt_succ_of_lt hj, hrest⟩
  · intro x
    simp only [hlife]
    exact h.finished x

theorem Inv.outerThread (h : Inv n gen d (.outerThread i) p) (hi : i < n)
    (hgen : gen i = false) :
    Inv n gen { d with threads := d.threads ++ [i] } (.performJob (i + 1)) p := by
  have hlife : ∀ j, life n gen (.performJob (i + 1)) (p j) j =
      life n gen (.outerThread i) (p j) j := by
    intro j
    refine life_congr (by nofun) (by nofun) ?_ _
    intro hj
    have hne : j ≠ i := by
      rintro rfl
      rw [hgen] at hj
      cases hj
    show j < i + 1 ↔ j < i
    omega
  refine ⟨.performJob hi, h.counter, ?_, h.jthreads, ?_, h.job, h.nodup, ?_, nofun⟩
  · intro j
    rw [hlife]
    exact h.frames j
  · exact mem_snoc_iff h.threads hgen
  · intro x
    simp only [hlife]
    exact h.finished x

theorem Inv.resume (h : Inv n gen d (.resume i) p) (hi : i < n) (hgen : gen i = true) :
    Inv n gen (d.setLife i .resumed) (.finalSuspend i) p := by
  have hlife : ∀ j, life n gen (.finalSuspend i) (p j) j =
      if j = i then .resumed else life n gen (.resume i) (p j) j := by
    intro j
    by_cases hj : j = i
    · subst hj
      simp [life, hgen]
    · have hne : Place.finalSuspend i ≠ .finalSuspend j := fun heq =>
        hj (Place.finalSuspend.inj heq).symm
      rw [if_neg hj]
      refine life_congr (by nofun) hne (fun _ => ?_) _
      exact Iff.rfl
  have hnot : life n gen (.resume i) (p i) i ≠ .destroyed := by
    simp [life, hgen, Place.current]
  exact ⟨.finalSuspend hi hgen, h.counter, h.frames_setLife rfl hlife, h.jthreads, h.threads, h.job,
    h.nodup, h.finished_resume rfl hlife hnot, nofun⟩

theorem Inv.finalSuspend (h : Inv n gen d (.finalSuspend i) p) (hi : i < n) (hgen : gen i = true) :
    Inv n gen { d.setLife i .destroyed with finished := d.finished ++ [(i + 1, 0)] }
      (.performJob (i + 1)) p := by
  have hlife : ∀ j, life n gen (.performJob (i + 1)) (p j) j =
      if j = i then .destroyed else life n gen (.finalSuspend i) (p j) j := by
    intro j
    by_cases hj : j = i
    · subst hj
      simp [life, hgen, Place.current]
    · have hne : Place.finalSuspend i ≠ .finalSuspend j := fun heq =>
        hj (Place.finalSuspend.inj heq).symm
      rw [if_neg hj]
      refine life_congr hne (by nofun) (fun _ => ?_) _
      show j < i + 1 ↔ j < i
      omega
  have hnot : life n gen (.finalSuspend i) (p i) i ≠ .destroyed := by
    simp [life, hgen]
  have hfinished := h.finished_final hlife rfl (Nat.lt_succ_self i) hnot
  rw [if_pos hgen] at hfinished
  have hjob : ∀ j, j < i + 1 ∧ gen j = false ↔ j < i ∧ gen j = false := by
    intro j
    constructor
    · rintro ⟨hj, hgen'⟩
      have hne : j ≠ i := by
        rintro rfl
        rw [hgen] at hgen'
        cases hgen'
      exact ⟨by omega, hgen'⟩
    · rintro ⟨hj, hgen'⟩
      exact ⟨by omega, hgen'⟩
  refine ⟨.performJob hi, h.counter, h.frames_setLife rfl hlife, ?_, ?_, ?_, hfinished.1,
    hfinished.2, nofun⟩
  · intro j
    exact (h.jthreads j).trans (hjob j).symm
  · intro j
    exact (h.threads j).trans (hjob j).symm
  · intro j
    rcases h.job j with hp | ⟨hj, hrest⟩
    · exact .inl hp
    · exact .inr ⟨Nat.lt_succ_of_lt hj, hrest⟩

/-! ### Steps of a job -/

theorem life_update (hgen : gen i = false) (q : Place) (j : Nat) :
    life n gen m (Function.update p i q j) j =
      if j = i then q.life else life n gen m (p j) j := by
  by_cases hj : j = i
  · subst hj
    rw [if_pos rfl, Function.update_self, life, hgen]
    rfl
  · rw [if_neg hj, Function.update_of_ne hj]

theorem Inv.job_update (h : Inv n gen d m p) (hi : i < m.started n) (hgen : gen i = false)
    {q : Place} (hq : q = .finalSuspend i ∨ q = .ended) (j : Nat) :
    Function.update p i q j = .resume j ∨ (j < m.started n ∧ gen j = false ∧
      (Function.update p i q j = .finalSuspend j ∨ Function.update p i q j = .ended)) := by
  by_cases hj : j = i
  · subst hj
    rw [Function.update_self]
    exact .inr ⟨hi, hgen, hq⟩
  · rw [Function.update_of_ne hj]
    exact h.job j

theorem Inv.joined_update (h : Inv n gen d m p) {q : Place}
    (hq : i < m.joined n → gen i = false → q = .ended) (j : Nat) (hj : j < m.joined n)
    (hgen : gen j = false) : Function.update p i q j = .ended := by
  by_cases hji : j = i
  · subst hji
    rw [Function.update_self]
    exact hq hj hgen
  · rw [Function.update_of_ne hji]
    exact h.joined j hj hgen

theorem Inv.job_resume (h : Inv n gen d m p) (hp : p i = .resume i) (hi : i ∈ d.jthreads) :
    Inv n gen (d.setLife i .resumed) m (Function.update p i (.finalSuspend i)) := by
  obtain ⟨hlt, hgen⟩ := (h.jthreads i).mp hi
  have hlife := life_update (n := n) (m := m) (p := p) hgen (.finalSuspend i)
  have hnot : life n gen m (p i) i ≠ .destroyed := by
    simp [life, hgen, hp, Place.life]
  exact ⟨h.main, h.counter, h.frames_setLife rfl hlife, h.jthreads, h.threads,
    h.job_update hlt hgen (.inl rfl), h.nodup, h.finished_resume rfl hlife hnot,
    h.joined_update fun hj hgen => by
      rw [h.joined i hj hgen] at hp
      cases hp⟩

theorem Inv.job_final (h : Inv n gen d m p) (hp : p i = .finalSuspend i) (hi : i < m.created n) :
    Inv n gen { d.setLife i .destroyed with finished := d.finished ++ [(i + 1, i + 1)] } m
      (Function.update p i .ended) := by
  rcases h.job i with hp' | ⟨hlt, hgen, -⟩
  · rw [hp] at hp'
    cases hp'
  · have hlife := life_update (n := n) (m := m) (p := p) hgen .ended
    have hnot : life n gen m (p i) i ≠ .destroyed := by
      simp [life, hgen, hp, Place.life]
    have hfinished := h.finished_final hlife rfl hi hnot
    rw [if_neg (ne_true_of_eq_false hgen)] at hfinished
    exact ⟨h.main, h.counter, h.frames_setLife rfl hlife, h.jthreads, h.threads,
      h.job_update hlt hgen (.inr rfl), hfinished.1, hfinished.2,
      h.joined_update fun _ _ => rfl⟩

/-! ### Runs -/

variable {s s' : Threads.State Shared Place}

/-- The places of the jobs. -/
def places (s : Threads.State Shared Place) (i : Nat) : Place := s.threads[i + 1]?.getD (.resume i)

structure Good (n : Nat) (gen : Nat → Bool) (s : Threads.State Shared Place) : Prop where
  length : s.threads.length = n + 1
  inv : ∃ m, s.threads[0]? = some m ∧ Inv n gen s.data m (places s)

theorem places_set_zero (s : Threads.State Shared Place) (d : Shared) (q : Place) :
    places ⟨d, s.threads.set 0 q⟩ = places s := by
  funext i
  rw [places, places]
  show (s.threads.set 0 q)[i + 1]?.getD _ = _
  rw [List.getElem?_set_ne (Nat.zero_ne_add_one i)]

theorem places_set_succ {q q' : Place} (hq : s.threads[i + 1]? = some q) (d : Shared) :
    places ⟨d, s.threads.set (i + 1) q'⟩ = Function.update (places s) i q' := by
  funext j
  rw [places]
  show (s.threads.set (i + 1) q')[j + 1]?.getD _ = _
  by_cases hj : j = i
  · subst hj
    rw [Function.update_self, getElem?_set_of_some hq]
    rfl
  · rw [Function.update_of_ne hj, List.getElem?_set_ne (by omega), places]

theorem Good.main_step (h : Good n gen s) {m q : Place} (hm : s.threads[0]? = some m)
    (hinv : Inv n gen d q (places s)) : Good n gen ⟨d, s.threads.set 0 q⟩ := by
  refine ⟨List.length_set.trans h.length, q, getElem?_set_of_some hm q, ?_⟩
  rw [places_set_zero]
  exact hinv

theorem Good.job_step (h : Good n gen s) {m q q' : Place} (hm : s.threads[0]? = some m)
    (hq : s.threads[i + 1]? = some q) (hinv : Inv n gen d m (Function.update (places s) i q')) :
    Good n gen ⟨d, s.threads.set (i + 1) q'⟩ := by
  refine ⟨List.length_set.trans h.length, m, ?_, ?_⟩
  · exact (List.getElem?_set_ne (by omega)).trans hm
  · rw [places_set_succ hq]
    exact hinv

theorem Inv.life_eq (h : Inv n gen d m p) {f : Frame} (hf : d.frames[i]? = some f) :
    i < m.created n ∧ f = ⟨i + 1, life n gen m (p i) i⟩ := by
  rw [h.frames, Option.ite_none_right_eq_some] at hf
  exact ⟨hf.1, (Option.some.inj hf.2).symm⟩

theorem Inv.left_iff (h : Inv n gen d m p) (hi : i < m.created n) :
    d.left i = true ↔ life n gen m (p i) i = .destroyed := by
  rw [Shared.left, h.frames, if_pos hi, Option.any_some, beq_iff_eq]

/-- When `main` is at its end, all frames are gone. -/
theorem Inv.life_ended (h : Inv n gen d .ended p) (hi : i < n) :
    life n gen .ended (p i) i = .destroyed := by
  by_cases hgen : gen i = true
  · rw [life_of_ne (by nofun), if_pos hgen]
    exact if_pos hi
  · rw [life, if_neg hgen, h.joined i hi (eq_false_of_ne_true hgen)]
    rfl

theorem ended_of_life {q : Place} (hq : q.life = .destroyed) : q = .ended := by
  cases q with
  | ended => rfl
  | _ => cases hq

/-- **A step of `main`** reads a dead awaiter, or keeps the invariant. -/
theorem Good.step_main (h : Good n gen s) (hm : s.threads[0]? = some m) {q : Place}
    (hnext : next n gen 0 s.data m = some (d, q)) :
    d.dangling = true ∨ Good n gen ⟨d, s.threads.set 0 q⟩ := by
  obtain ⟨m', hm', hinv⟩ := h.inv
  obtain rfl := Option.some.inj (hm.symm.trans hm')
  cases hinv.main with
  | @performJob i hi =>
    rw [next] at hnext
    split at hnext
    · rename_i hlt
      cases hnext
      exact .inr (h.main_step hm (hinv.performJob hlt))
    · rename_i hge
      obtain rfl : i = n := by omega
      cases hnext
      exact .inr (h.main_step hm (hinv.move (.join (Nat.zero_le i)) rfl rfl rfl nofun nofun nofun))
  | @awaitReady i hi =>
    cases hnext
    refine .inr (h.main_step hm ?_)
    cases hgen : gen i with
    | true => exact hinv.move (.resume hi hgen) rfl rfl rfl nofun nofun nofun
    | false => exact hinv.move (.awaitSuspend hi hgen) rfl rfl rfl nofun nofun nofun
  | @awaitSuspend i hi hgen =>
    cases hnext
    exact .inr (h.main_step hm (hinv.awaitSuspend hi hgen))
  | @outerThread i hi hgen =>
    rw [next] at hnext
    split at hnext
    · cases hnext
      exact .inr (h.main_step hm (hinv.outerThread hi hgen))
    · cases hnext
      exact .inl rfl
  | @resume i hi hgen =>
    rw [next, if_pos (.inl rfl)] at hnext
    cases hnext
    exact .inr (h.main_step hm (hinv.resume hi hgen))
  | @finalSuspend i hi hgen =>
    obtain ⟨f, hf, heq⟩ := Option.map_eq_some_iff.mp hnext
    obtain ⟨-, rfl⟩ := hinv.life_eq hf
    cases heq
    exact .inr (h.main_step hm (hinv.finalSuspend hi hgen))
  | @join i hi =>
    rw [next] at hnext
    split at hnext
    · rename_i hlt
      obtain ⟨hjoin, heq⟩ := Option.ite_none_left_eq_some.mp hnext
      cases heq
      refine .inr (h.main_step hm (hinv.move (.join hlt) rfl rfl rfl nofun nofun ?_))
      intro j hj hgen
      by_cases hji : j < i
      · exact hinv.joined j hji hgen
      · obtain rfl : i = j := by
          have hlt : j < i + 1 := hj
          omega
        have hleft : s.data.left i = true := by
          by_contra hnot
          exact hjoin ⟨(hinv.threads i).mpr ⟨hlt, hgen⟩, eq_false_of_ne_true hnot⟩
        rw [hinv.left_iff hlt, life, if_neg (ne_true_of_eq_false hgen)] at hleft
        exact ended_of_life hleft
    · rename_i hge
      obtain rfl : i = n := by omega
      cases hnext
      exact .inr (h.main_step hm (hinv.move .ended rfl rfl rfl nofun nofun hinv.joined))
  | ended => cases hnext

theorem Good.step_job (h : Good n gen s) {q q' : Place} (hq : s.threads[i + 1]? = some q)
    (hnext : next n gen (i + 1) s.data q = some (d, q')) :
    Good n gen ⟨d, s.threads.set (i + 1) q'⟩ := by
  obtain ⟨m, hm, hinv⟩ := h.inv
  have hplace : places s i = q := by
    rw [places, hq]
    rfl
  rcases hinv.job i with hp | ⟨hlt, hgen, hp | hp⟩
  · obtain rfl := hplace.symm.trans hp
    obtain ⟨hcan, heq⟩ := Option.ite_none_right_eq_some.mp hnext
    cases heq
    exact h.job_step hm hq (hinv.job_resume hp (hcan.resolve_left (Nat.succ_ne_zero i)))
  · obtain rfl := hplace.symm.trans hp
    obtain ⟨f, hf, heq⟩ := Option.map_eq_some_iff.mp hnext
    obtain ⟨hcreated, rfl⟩ := hinv.life_eq hf
    cases heq
    exact h.job_step hm hq (hinv.job_final hp hcreated)
  · obtain rfl := hplace.symm.trans hp
    cases hnext

theorem next_dangling {q q' : Place} (h : next n gen t d q = some (d', q')) :
    d'.dangling = d.dangling ∨ (∃ i, q = .outerThread i) ∧ d'.dangling = true := by
  cases q with
  | performJob i =>
    rw [next] at h
    split at h <;> cases h <;> exact .inl rfl
  | awaitReady i =>
    cases h
    exact .inl rfl
  | awaitSuspend i =>
    cases h
    exact .inl rfl
  | outerThread i =>
    rw [next] at h
    split at h <;> cases h
    · exact .inl rfl
    · exact .inr ⟨⟨i, rfl⟩, rfl⟩
  | resume i =>
    obtain ⟨-, heq⟩ := Option.ite_none_right_eq_some.mp h
    cases heq
    exact .inl rfl
  | finalSuspend i =>
    obtain ⟨f, -, heq⟩ := Option.map_eq_some_iff.mp h
    cases heq
    exact .inl rfl
  | join i =>
    rw [next] at h
    split at h
    · obtain ⟨-, heq⟩ := Option.ite_none_left_eq_some.mp h
      cases heq
      exact .inl rfl
    · cases h
      exact .inl rfl
  | ended => cases h

/-- The program with `main` at `m`, before any thread has moved. -/
def start (n : Nat) (d : Shared) (m : Place) : Threads.State Shared Place :=
  ⟨d, m :: (List.range n).map .resume⟩

theorem places_start (n : Nat) (d : Shared) (m : Place) : places (start n d m) = .resume := by
  funext i
  show (((List.range n).map Place.resume)[i]?).getD _ = _
  rw [List.getElem?_map]
  by_cases hi : i < n
  · rw [List.getElem?_range hi]
    rfl
  · rw [List.getElem?_eq_none_iff.mpr (by rw [List.length_range]; omega)]
    rfl

theorem good_init (n : Nat) (gen : Nat → Bool) : Good n gen (system n gen).init := by
  have hplaces : places (system n gen).init = .resume := places_start n {} (.performJob 0)
  have hnone : ∀ i, i ∈ ([] : List Nat) ↔ i < 0 ∧ gen i = false := by
    intro i
    constructor
    · intro h
      exact absurd h List.not_mem_nil
    · intro h
      exact absurd h.1 (Nat.not_lt_zero i)
  refine ⟨by simp [system, Threads.system], .performJob 0, rfl, .performJob (Nat.zero_le n), rfl,
    fun i => rfl, hnone, hnone, fun i => .inl (congrFun hplaces i), List.Pairwise.nil, ?_, ?_⟩
  · intro x
    constructor
    · intro h
      exact absurd h List.not_mem_nil
    · rintro ⟨i, hi, -⟩
      exact absurd hi (Nat.not_lt_zero i)
  · intro i hi
    exact absurd hi (Nat.not_lt_zero i)

theorem dangling_or_good (hs : (system n gen).Reachable s) :
    s.data.dangling = true ∨ Good n gen s := by
  refine hs.invariant (I := fun s => s.data.dangling = true ∨ Good n gen s)
    (.inr (good_init n gen)) ?_
  intro s t s' h _ hst
  obtain ⟨q, d, q', hq, hnext, rfl⟩ := Threads.step_cases hst
  rcases h with hdangling | hgood
  · left
    rcases next_dangling hnext with heq | ⟨-, htrue⟩
    · exact heq.trans hdangling
    · exact htrue
  · cases t with
    | zero => exact hgood.step_main hq hnext
    | succ i => exact .inr (hgood.step_job hq hnext)

/-! ### All jobs finish -/

/-- The numbers of the jobs, each with the thread that finishes it. -/
def finishedBy (n : Nat) (gen : Nat → Bool) : List (Nat × Nat) :=
  (List.range n).map fun i => (i + 1, if gen i = true then 0 else i + 1)

theorem Inv.finished_perm (h : Inv n gen d .ended p) : d.finished.Perm (finishedBy n gen) := by
  have hnodup : (finishedBy n gen).Nodup := by
    refine List.Nodup.map ?_ List.nodup_range
    intro i j heq
    exact Nat.succ.inj (Prod.mk.inj heq).1
  rw [List.perm_ext_iff_of_nodup h.nodup hnodup]
  intro x
  rw [h.finished, finishedBy, List.mem_map]
  constructor
  · rintro ⟨i, hi, -, rfl⟩
    exact ⟨i, List.mem_range.mpr hi, rfl⟩
  · rintro ⟨i, hi, rfl⟩
    exact ⟨i, List.mem_range.mp hi, h.life_ended (List.mem_range.mp hi), rfl⟩

theorem Good.progress (h : Good n gen s) (hm : s.threads[0]? = some m) :
    m = .ended ∨ ∃ t s', (system n gen).step s t = some s' := by
  obtain ⟨m', hm', hinv⟩ := h.inv
  obtain rfl := Option.some.inj (hm.symm.trans hm')
  have hmain : (next n gen 0 s.data m).isSome = true →
      m = .ended ∨ ∃ t s', (system n gen).step s t = some s' := by
    intro hsome
    obtain ⟨s', hst⟩ := Threads.exists_step hm hsome
    exact .inr ⟨0, s', hst⟩
  cases hinv.main with
  | @performJob i hi =>
    apply hmain
    rw [next]
    split <;> rfl
  | awaitReady hi => exact hmain rfl
  | awaitSuspend hi => exact hmain rfl
  | outerThread hi =>
    apply hmain
    rw [next]
    split <;> rfl
  | resume hi =>
    apply hmain
    rw [next, if_pos (.inl rfl)]
    rfl
  | @finalSuspend i hi hgen =>
    apply hmain
    have hlt : i < (Place.finalSuspend i).created n := Nat.lt_succ_self i
    rw [next, hinv.frames, if_pos hlt]
    rfl
  | @join i hi =>
    by_cases hblocked : i < n ∧ i ∈ s.data.threads ∧ s.data.left i = false
    · obtain ⟨hlt, hmem, hleft⟩ := hblocked
      obtain ⟨-, hgen⟩ := (hinv.threads i).mp hmem
      right
      have hq : s.threads[i + 1]? = some (places s i) := by
        have hget := List.getElem?_eq_getElem (l := s.threads) (i := i + 1)
          (by rw [h.length]; omega)
        rw [places, hget]
        rfl
      have hsome : (next n gen (i + 1) s.data (places s i)).isSome = true := by
        rcases hinv.job i with hp | ⟨-, -, hp | hp⟩
        · rw [hp, next, if_pos (.inr ((hinv.jthreads i).mpr ⟨hlt, hgen⟩))]
          rfl
        · have hcreated : i < (Place.join i).created n := hlt
          rw [hp, next, hinv.frames, if_pos hcreated]
          rfl
        · have hlife : life n gen (.join i) (places s i) i = .destroyed := by
            rw [life, if_neg (ne_true_of_eq_false hgen), hp]
            rfl
          rw [(hinv.left_iff hlt).mpr hlife] at hleft
          cases hleft
      obtain ⟨s', hst⟩ := Threads.exists_step hq hsome
      exact ⟨i + 1, s', hst⟩
    · apply hmain
      rw [next]
      split
      · rename_i hlt
        rw [if_neg fun h => hblocked ⟨hlt, h⟩]
        rfl
      · rfl
  | ended => exact .inl rfl

/-- **All jobs finish.**  Without a read of a dead awaiter there is no deadlock, and at the end
each job has finished once, with its number: on `main` when it was ready, else on its own thread.
No frame is left. -/
theorem jobs_finish (hs : (system n gen).Reachable s) (hsafe : s.data.dangling = false) :
    (s.threads[0]? = some .ended ∨ ∃ t s', (system n gen).step s t = some s') ∧
      (s.threads[0]? = some .ended → s.data.finished.Perm (finishedBy n gen) ∧
        s.data.frames.length = n ∧ ∀ f ∈ s.data.frames, f.life = .destroyed) := by
  have hgood : Good n gen s := (dangling_or_good hs).resolve_left (by simp [hsafe])
  constructor
  · obtain ⟨m, hm, -⟩ := hgood.inv
    rcases hgood.progress hm with rfl | hst
    · exact .inl hm
    · exact .inr hst
  · intro hended
    obtain ⟨m, hm, hinv⟩ := hgood.inv
    obtain rfl := Option.some.inj (hended.symm.trans hm)
    refine ⟨hinv.finished_perm, hinv.length, ?_⟩
    intro f hf
    obtain ⟨i, hi⟩ := List.mem_iff_getElem?.mp hf
    obtain ⟨hlt, rfl⟩ := hinv.life_eq hi
    exact hinv.life_ended hlt

/-- Two jobs, the second one on a thread of its own. -/
theorem jobs_finish_two :
    ∃ s, (system 2 fun i => i == 0).Reachable s ∧
      s.data.finished.Perm (finishedBy 2 fun i => i == 0) := by
  have hrun : ((system 2 fun i => i == 0).run (system 2 fun i => i == 0).init
      [0, 0, 0, 0, 0, 0, 0, 0, 2, 2, 0, 0, 0, 0]).any (fun s =>
        s.data.dangling == false && s.threads[0]? == some .ended) = true := by decide
  obtain ⟨s, hs, hend⟩ := System.exists_reachable _ hrun
  rw [Bool.and_eq_true, beq_iff_eq, beq_iff_eq] at hend
  exact ⟨s, hs, ((jobs_finish hs hend.1).2 hend.2).1⟩

/-! ### The dead awaiter -/

theorem reachable_step {q q' : Place} (hs : (system n gen).Reachable s)
    (hq : s.threads[t]? = some q) (hnext : next n gen t s.data q = some (d, q')) :
    (system n gen).Reachable ⟨d, s.threads.set t q'⟩ :=
  .step (a := t) hs trivial (by simp [system, Threads.system, hq, hnext])

theorem start_step {d d' : Shared} (hs : (system n gen).Reachable (start n d m))
    (hnext : next n gen 0 d m = some (d', m')) : (system n gen).Reachable (start n d' m') :=
  reachable_step hs rfl hnext

theorem next_resume (h : t = 0 ∨ i ∈ d.jthreads) :
    next n gen t d (.resume i) = some (d.setLife i .resumed, .finalSuspend i) := if_pos h

theorem next_ready (hgen : gen i = true) :
    next n gen t d (.awaitReady i) = some (d, .resume i) := by
  simp [next, hgen]

theorem next_not_ready (hgen : gen i = false) :
    next n gen t d (.awaitReady i) = some (d, .awaitSuspend i) := by
  simp [next, hgen]

theorem inv_start (hs : (system n gen).Reachable (start n d m)) (hsafe : d.dangling = false) :
    Inv n gen d m .resume := by
  have hgood : Good n gen (start n d m) :=
    (dangling_or_good hs).resolve_left (ne_true_of_eq_false hsafe)
  obtain ⟨m', hm, hinv⟩ := hgood.inv
  obtain rfl := Option.some.inj hm
  rw [places_start] at hinv
  exact hinv

theorem exists_outerThread {i : Nat} (hi : i < n) (hgen : gen i = false)
    (hs : (system n gen).Reachable (start n d (.performJob i))) (hsafe : d.dangling = false) :
    ∃ d', (system n gen).Reachable (start n d' (.outerThread i)) ∧ d'.dangling = false := by
  have h₁ := start_step hs (if_pos hi)
  have h₂ := start_step h₁ (next_not_ready hgen)
  exact ⟨_, start_step h₂ rfl, hsafe⟩

/-- `main` can be in front of each job before any thread has moved. -/
theorem exists_performJob (gen : Nat → Bool) {i : Nat} (hi : i ≤ n) :
    ∃ d, (system n gen).Reachable (start n d (.performJob i)) ∧ d.dangling = false := by
  induction i with
  | zero => exact ⟨_, .init, rfl⟩
  | succ i ih =>
    obtain ⟨d, hs, hsafe⟩ := ih (Nat.le_of_succ_le hi)
    cases hgen : gen i with
    | true =>
      have h₁ := start_step hs (if_pos hi)
      have h₂ := start_step h₁ (next_ready hgen)
      have h₃ := start_step h₂ (next_resume (.inl rfl))
      have hlt : i < (Place.finalSuspend i).created n := Nat.lt_succ_self i
      have hframe := (inv_start h₃ hsafe).frames i
      rw [if_pos hlt] at hframe
      have hnext : next n gen 0 _ (.finalSuspend i) = some (_, .performJob (i + 1)) :=
        Option.map_eq_some_iff.mpr ⟨_, hframe, rfl⟩
      exact ⟨_, start_step h₃ hnext, hsafe⟩
    | false =>
      obtain ⟨d₁, hs₁, hsafe₁⟩ := exists_outerThread hi hgen hs hsafe
      have hlt : i < (Place.outerThread i).created n := Nat.lt_succ_self i
      have hframe := (inv_start hs₁ hsafe₁).frames i
      rw [if_pos hlt, life, if_neg (ne_true_of_eq_false hgen)] at hframe
      refine ⟨_, start_step hs₁ (if_pos ?_), hsafe₁⟩
      rw [hframe]
      rfl

/-- A job that resumes at once leaves a dead awaiter to `main`. -/
theorem exists_dangling {i : Nat} (hi : i < n) (hgen : gen i = false) :
    ∃ s, (system n gen).Reachable s ∧ s.data.dangling = true := by
  obtain ⟨d, hs, hsafe⟩ := exists_performJob gen (Nat.le_of_lt hi)
  obtain ⟨d₁, hs₁, hsafe₁⟩ := exists_outerThread hi hgen hs hsafe
  have hinv := inv_start hs₁ hsafe₁
  have hq : (start n d₁ (.outerThread i)).threads[i + 1]? = some (.resume i) := by
    show ((List.range n).map Place.resume)[i]? = _
    rw [List.getElem?_map, List.getElem?_range hi]
    rfl
  have hmem : i ∈ d₁.jthreads := (hinv.jthreads i).mpr ⟨Nat.lt_succ_self i, hgen⟩
  have hs₂ := reachable_step hs₁ hq (next_resume (.inr hmem))
  have hdead : (d₁.setLife i .resumed).frames[i]?.any (fun f => f.life == .awaiting) = false := by
    rw [getElem?_setLife, if_pos rfl, Option.any_map]
    cases d₁.frames[i]? <;> rfl
  have hmain : next n gen 0 (d₁.setLife i .resumed) (.outerThread i) =
      some ({ d₁.setLife i .resumed with dangling := true }, .ended) :=
    if_neg (ne_true_of_eq_false hdead)
  exact ⟨_, reachable_step hs₂ rfl hmain, rfl⟩

/-- **The dead awaiter.**  No run reads the awaiter of a job that has resumed, when all jobs are
ready, and only then. -/
theorem jobs_safe_iff (n : Nat) (gen : Nat → Bool) :
    (∀ s, (system n gen).Reachable s → s.data.dangling = false) ↔ ∀ i < n, gen i = true := by
  constructor
  · intro hsafe i hi
    by_contra hgen
    obtain ⟨s, hs, hdangling⟩ := exists_dangling hi (eq_false_of_ne_true hgen)
    rw [hsafe s hs] at hdangling
    cases hdangling
  · intro hgen s hs
    refine (hs.invariant (I := fun s => s.data.dangling = false ∧ Good n gen s)
      ⟨rfl, good_init n gen⟩ ?_).1
    rintro s t s' ⟨hsafe, hgood⟩ - hst
    obtain ⟨q, d, q', hq, hnext, rfl⟩ := Threads.step_cases hst
    have hkept : d.dangling = false := by
      rcases next_dangling hnext with heq | ⟨⟨i, rfl⟩, -⟩
      · exact heq.trans hsafe
      · exfalso
        obtain ⟨m, hm, hinv⟩ := hgood.inv
        cases t with
        | zero =>
          obtain rfl := Option.some.inj (hm.symm.trans hq)
          cases hinv.main with
          | outerThread hi hgen' =>
            rw [hgen i hi] at hgen'
            cases hgen'
        | succ j =>
          have hplace : places s j = .outerThread i := by
            rw [places, hq]
            rfl
          rcases hinv.job j with hp | ⟨-, -, hp | hp⟩ <;> cases hplace.symm.trans hp
    refine ⟨hkept, ?_⟩
    cases t with
    | zero => exact (hgood.step_main hq hnext).resolve_left (ne_true_of_eq_false hkept)
    | succ i => exact hgood.step_job hq hnext

end Cpp20Examples.StartJobOnThread
