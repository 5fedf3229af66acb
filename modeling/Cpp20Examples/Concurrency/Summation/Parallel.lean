import Cpp20Examples.Concurrency.Summation.SumUp

/-!
# The parallel sums

What a thread has still to add is its `remaining`.  A step of a function whose `tmpSum` is
its own adds to `sum` what it takes from there, so the two together are what they were at
the start (`conserves`).

* `respected`: the mutex is locked and unlocked around `sum += x`.
* `parallel_sum`: when all calls have returned, `sum` is the sum of the vector.
-/

namespace Cpp20Examples.Summation

open Lib Lib.Threads

variable {f : SumUp} {val : List Int32} {t : Nat} {d d' : Shared} {w w' : Worker}

/-! ### The mutex -/

def Point.inside : Point → Bool
  | .load .. | .store .. | .unlock .. => true
  | .outside | .loop .. | .add .. => false

/-- `myMutex`, and the scope of the `lock_guard`. -/
def lockGuard : Mutex Shared Worker := ⟨Shared.myMutex, fun w => w.point.inside⟩

theorem inside_resume {call : Chunk} {it : Nat} : (Point.resume f call it).inside = false := by
  rw [Point.resume]
  split <;> rfl

theorem respected : lockGuard.Respected (sumUp f val) where
  step h := by
    cases step_of_sumUp h with
    | fetchAdd => exact .inl ⟨inside_resume, rfl⟩
    | lock _ hfree => exact .inr (.inl ⟨rfl, hfree, rfl, rfl⟩)
    | unlock => exact .inr (.inr ⟨rfl, inside_resume, rfl⟩)
    | _ => exact .inl ⟨rfl, rfl⟩

/-- What a thread has read inside the mutex is what `sum` is; an atomic `sum` needs no
mutex. -/
structure Protected (f : SumUp) (d : Shared) (w : Worker) : Prop where
  locked : w.point.inside = true → f.locked = true
  read : ∀ call it x old, w.point = .store call it x old → old = d.sum

theorem protected_step (hw : Protected f d w) (h : Step f val t d w d' w') : Protected f d' w' := by
  have hresume : ∀ (d : Shared) calls call it tmpSum added,
      Protected f d ⟨calls, Point.resume f call it, tmpSum, added⟩ := by
    intro _ _ _ _ _ _
    refine ⟨fun hin => absurd hin (by simp [inside_resume]), ?_⟩
    intro _ _ _ _ hp
    have hin := congrArg Point.inside hp
    rw [inside_resume] at hin
    cases hin
  cases h with
  | fetchAdd | unlock => exact hresume ..
  | lock hlocked _ => exact ⟨fun _ => hlocked, nofun⟩
  | load => exact ⟨fun _ => hw.locked rfl, fun _ _ _ _ hp => by cases hp; rfl⟩
  | store => exact ⟨fun _ => hw.locked rfl, nofun⟩
  | _ => exact ⟨nofun, nofun⟩

theorem sum_of_outside (hlocked : f.locked = true) (hout : w.point.inside = false)
    (h : Step f val t d w d' w') : d'.sum = d.sum := by
  cases h with
  | fetchAdd hfalse => cases hlocked.symm.trans hfalse
  | store => cases hout
  | _ => rfl

/-! ### What is left to add -/

/-- What the call that a thread is in has still to add. -/
def Worker.pending (f : SumUp) (val : List Int32) (w : Worker) : ULL :=
  match w.point with
  | .outside => 0
  | .loop call it => sumFrom val call it + if f.perElement then 0 else w.tmpSum
  | .add call it x | .load call it x | .store call it x _ =>
    x + if f.perElement then sumFrom val call it else 0
  | .unlock call it => if f.perElement then sumFrom val call it else 0

def Worker.remaining (f : SumUp) (val : List Int32) (w : Worker) : ULL :=
  w.pending f val + (w.calls.map (chunkSum val)).sum

theorem pending_resume {calls : List Chunk} {call : Chunk} {it : Nat} {tmpSum : ULL}
    {added : List (Chunk × ULL)} :
    Worker.pending f val ⟨calls, .resume f call it, tmpSum, added⟩ =
      if f.perElement then sumFrom val call it else 0 := by
  rw [Point.resume]
  split
  · rename_i hper
    simp [Worker.pending, hper]
  · rfl

/-- **A step adds to `sum` what it takes from what is left.** -/
theorem sum_step (hf : f.threadLocal = false) (hw : Protected f d w)
    (h : Step f val t d w d' w') : d'.sum + w'.remaining f val = d.sum + w.remaining f val := by
  cases h with
  | call =>
    have hstart : ∀ x : ULL, x + (if f.perElement then 0 else 0) = x := fun x => by simp
    simp only [Worker.remaining, Worker.pending, hf, Bool.false_eq_true, if_false, hstart,
      List.map_cons, List.sum_cons, zero_add]
    rfl
  | element hper hlt hx =>
    simp only [Worker.remaining, Worker.pending, hper, if_true, sumFrom_of_lt hlt hx, add_zero]
  | accumulate hper hlt hx =>
    simp only [Worker.remaining, Worker.pending, hper, Bool.false_eq_true, if_false,
      sumFrom_of_lt hlt hx]
    ring
  | leave hper hle =>
    simp only [Worker.remaining, Worker.pending, hper, if_true, sumFrom_of_le hle, add_zero]
  | publish hper hle =>
    simp only [Worker.remaining, Worker.pending, hper, Bool.false_eq_true, if_false,
      sumFrom_of_le hle, add_zero, zero_add]
  | fetchAdd hlocked =>
    rw [Worker.remaining, pending_resume, Worker.remaining, Worker.pending]
    ring
  | store =>
    obtain rfl := hw.read _ _ _ _ rfl
    simp only [Worker.remaining, Worker.pending]
    ring
  | unlock => rw [Worker.remaining, pending_resume, Worker.remaining, Worker.pending]
  | lock _ _ | load => rfl

/-! ### The number of steps -/

/-- The steps that follow `sum += x`. -/
def restLeft (f : SumUp) (call : Chunk) (it : Nat) : Nat :=
  if f.perElement then 5 * (call.end_ - it) + 5 else 0

/-- A bound on the steps that a call has still to make. -/
def Point.left (f : SumUp) : Point → Nat
  | .outside => 0
  | .loop call it => 5 * (call.end_ - it) + 5
  | .add call it _ => restLeft f call it + 4
  | .load call it _ => restLeft f call it + 3
  | .store call it _ _ => restLeft f call it + 2
  | .unlock call it => restLeft f call it + 1

def Worker.left (f : SumUp) (w : Worker) : Nat :=
  w.point.left f + (w.calls.map fun c => 5 * (c.end_ - c.beg) + 6).sum

theorem left_resume {call : Chunk} {it : Nat} :
    (Point.resume f call it).left f = restLeft f call it := by
  rw [Point.resume, restLeft]
  split <;> rfl

theorem left_lt (h : Step f val t d w d' w') : w'.left f < w.left f := by
  cases h with
  | call =>
    simp only [Worker.left, Point.left, List.map_cons, List.sum_cons]
    omega
  | element hper hlt _ =>
    simp only [Worker.left, Point.left, restLeft, hper, if_true]
    omega
  | accumulate _ hlt _ =>
    simp only [Worker.left, Point.left]
    omega
  | leave _ _ =>
    simp only [Worker.left, Point.left]
    omega
  | publish hper _ =>
    simp only [Worker.left, Point.left, restLeft, hper, Bool.false_eq_true, if_false]
    omega
  | fetchAdd _ | unlock =>
    rw [Worker.left, left_resume, Worker.left, Point.left]
    simp only
    omega
  | lock _ _ | load | store =>
    simp only [Worker.left, Point.left]
    omega

/-! ### All interleavings -/

def Worker.finished (w : Worker) : Bool := w.calls.isEmpty && w.point == .outside

theorem finished_iff : w.finished = true ↔ w.calls = [] ∧ w.point = .outside := by
  simp [Worker.finished]

theorem not_finished_of_inside (hin : lockGuard.inside w = true) : w.finished = false := by
  apply eq_false_of_ne_true
  intro hfin
  have hpoint : w.point.inside = true := hin
  rw [(finished_iff.mp hfin).2] at hpoint
  cases hpoint

theorem remaining_of_finished (hfin : w.finished = true) : w.remaining f val = 0 := by
  obtain ⟨hcalls, hpoint⟩ := finished_iff.mp hfin
  rw [Worker.remaining, Worker.pending, hcalls, hpoint]
  rfl

/-- The call that a thread is in. -/
def Point.call : Point → List Chunk
  | .outside => []
  | .loop call _ | .add call _ _ | .load call _ _ | .store call _ _ _ | .unlock call _ => [call]

theorem call_resume_subset {call : Chunk} {it : Nat} :
    (Point.resume f call it).call ⊆ [call] := by
  rw [Point.resume]
  split
  · exact List.Subset.refl _
  · exact List.nil_subset _

theorem calls_subset (h : Step f val t d w d' w') :
    w'.point.call ++ w'.calls ⊆ w.point.call ++ w.calls := by
  cases h with
  | leave => exact List.subset_append_right _ _
  | fetchAdd | unlock =>
    exact List.append_subset.mpr ⟨List.subset_append_of_subset_left _ call_resume_subset,
      List.subset_append_right _ _⟩
  | _ => exact List.Subset.refl _

/-- A thread in a call waits for the mutex only, when its chunks are in the vector. -/
theorem moves (hbounds : ∀ c ∈ w.point.call ++ w.calls, c.end_ ≤ val.length)
    (hfin : w.finished = false) (h : lockGuard.inside w = true ∨ lockGuard.owner d = none) :
    (sumUp f val t d w).isSome = true := by
  obtain ⟨calls, p, tmpSum, added⟩ := w
  cases p with
  | outside =>
    cases calls with
    | nil => cases hfin
    | cons c calls => rfl
  | loop c it =>
    have hend : c.end_ ≤ val.length := hbounds c (by simp [Point.call])
    simp only [sumUp]
    split
    · rename_i hlt
      simp only [List.getElem?_eq_getElem (hlt.trans_le hend)]
      split <;> rfl
    · split <;> rfl
  | add c it x =>
    have hfree : d.myMutex = none := h.resolve_left (by simp [lockGuard, Point.inside])
    simp only [sumUp, hfree]
    split <;> rfl
  | load c it x | store c it x old | unlock c it => rfl

section Reachable

variable {calls : List (List Chunk)} {s : State Shared Worker}

theorem outside_start {w : Worker} (hw : w ∈ calls.map fun cs => ({ calls := cs } : Worker)) :
    lockGuard.inside w = false := by
  obtain ⟨cs, -, rfl⟩ := List.mem_map.mp hw
  rfl

/-- **The sections of the mutex protect `sum`**, in every interleaving. -/
theorem isProtected (hs : (system f val calls).Reachable s) {w : Worker}
    (hw : s.threads[t]? = some w) : Protected f s.data w := by
  refine (invariant (I := fun _ => True) (L := fun _ d w => Protected f d w) trivial
    ?_ ?_ hs).2 t w hw
  · intro t w hw
    obtain ⟨cs, -, rfl⟩ := List.mem_map.mp (List.mem_of_getElem? hw)
    exact ⟨nofun, nofun⟩
  · intro s t w d w' hs _ _ hk hw hnext
    have hst := step_of_sumUp hnext
    refine ⟨trivial, protected_step hk hst, fun u v hne hv hkv => ⟨hkv.locked, ?_⟩⟩
    intro call it x old hp
    have hin : lockGuard.inside v = true := congrArg Point.inside hp
    have hout := Mutex.exclusive respected rfl (fun w hw => outside_start hw) hs hv hw hne.symm hin
    rw [sum_of_outside (hkv.locked hin) hout hst]
    exact hkv.read call it x old hp

/-- **What was added and what is left** are the sums of all chunks. -/
theorem conserves (hf : f.threadLocal = false) (hs : (system f val calls).Reachable s) :
    s.data.sum + (s.threads.map (Worker.remaining f val)).sum =
      (calls.flatten.map (chunkSum val)).sum := by
  refine (conserved (f := Shared.sum) (w := Worker.remaining f val)
    (fun s t w d w' hs _ hw h => sum_step hf (isProtected hs hw) (step_of_sumUp h)) hs).trans ?_
  rw [List.map_map, List.map_flatten, List.sum_flatten, List.map_map]
  simp [Function.comp_def, Worker.remaining, Worker.pending]

theorem inBounds (hbounds : ∀ c ∈ calls.flatten, c.end_ ≤ val.length)
    (hs : (system f val calls).Reachable s) {w : Worker} (hw : s.threads[t]? = some w) :
    ∀ c ∈ w.point.call ++ w.calls, c.end_ ≤ val.length := by
  refine (invariant (I := fun _ => True)
    (L := fun _ _ (w : Worker) => ∀ c ∈ w.point.call ++ w.calls, c.end_ ≤ val.length) trivial
    ?_ ?_ hs).2 t w hw
  · intro t w hw c hc
    obtain ⟨cs, hcs, rfl⟩ := List.mem_map.mp (List.mem_of_getElem? hw)
    exact hbounds c (List.mem_flatten.mpr ⟨cs, hcs, hc⟩)
  · intro s t w d w' _ _ _ hk _ hnext
    exact ⟨trivial, fun c hc => hk c (calls_subset (step_of_sumUp hnext) hc), fun _ _ _ _ h => h⟩

theorem finishes (hbounds : ∀ c ∈ calls.flatten, c.end_ ≤ val.length)
    (hs : (system f val calls).Reachable s) :
    (∃ n, ∀ as s', (system f val calls).run s as = some s' → as.length ≤ n) ∧
    ((∀ w ∈ s.threads, w.finished = true) ∨ ∃ t s', (system f val calls).step s t = some s') := by
  refine ⟨⟨_, fun as s' hrun => run_length_le
    (fun t d w d' w' h => left_lt (step_of_sumUp h)) hrun⟩, ?_⟩
  exact Mutex.progress respected rfl (fun w hw => outside_start hw)
    (fun w hin => not_finished_of_inside hin) hs
    fun t w hw hfin hfree => moves (inBounds hbounds hs hw) hfin hfree

end Reachable

/-- The functions that compute the sum. -/
def sumUps : List SumUp :=
  [synchronizationWithAtomic, synchronizationWithFetchAdd, synchronizationWithLock, localVariable,
    localVariableAtomic]

/-- **The parallel sums are the sequential sum.**  The vector is split into chunks, and each
chunk is given to one call on some thread.  All calls return, and when they have `sum` is
the sum of the elements modulo `2 ^ 64`. -/
theorem parallel_sum {f : SumUp} (hf : f ∈ sumUps) {val : List Int32} {lengths : List Nat}
    (hlengths : lengths.sum = val.length) {calls : List (List Chunk)}
    (hcalls : calls.flatten.Perm (chunks 0 lengths)) {s : State Shared Worker}
    (hs : (system f val calls).Reachable s) :
    ((∀ w ∈ s.threads, w.finished = true) → s.data.sum = total val) ∧
    (∃ n, ∀ as s', (system f val calls).run s as = some s' → as.length ≤ n) ∧
    ((∀ w ∈ s.threads, w.finished = true) ∨ ∃ t s', (system f val calls).step s t = some s') := by
  have hown : f.threadLocal = false := by
    have hall : ∀ f ∈ sumUps, f.threadLocal = false := by decide
    exact hall f hf
  have hbounds : ∀ c ∈ calls.flatten, c.end_ ≤ val.length := by
    intro c hc
    have hle := end_le_of_mem_chunks (hcalls.mem_iff.mp hc)
    omega
  refine ⟨?_, finishes hbounds hs⟩
  intro hfin
  have hzero : (s.threads.map (Worker.remaining f val)).sum = 0 := by
    apply List.sum_eq_zero
    intro x hx
    obtain ⟨w, hw, rfl⟩ := List.mem_map.mp hx
    exact remaining_of_finished (hfin w hw)
  have hsum := conserves hown hs
  rw [hzero, add_zero, (hcalls.map (chunkSum val)).sum_eq, sum_chunks (by simpa using hlengths),
    List.drop_zero, sum_toULL] at hsum
  exact hsum

/-- Negative elements, an empty chunk, and a thread with two calls, with the mutex. -/
theorem parallel_sum_two :
    ∃ s, (system localVariable [5, -7, 3] [[⟨1, 3⟩], [⟨0, 1⟩, ⟨1, 1⟩]]).Reachable s ∧
      s.data.sum = 1 := by
  obtain ⟨s, hs, hfin⟩ := System.exists_reachable
    (M := system localVariable [5, -7, 3] [[⟨1, 3⟩], [⟨0, 1⟩, ⟨1, 1⟩]])
    (p := fun s => s.threads.all Worker.finished)
    [1, 0, 1, 0, 1, 0, 1, 0, 1, 1, 1, 0, 1, 0, 1, 0, 0, 1, 1, 1, 1] (by decide)
  have hlengths : [1, 0, 2].sum = ([5, -7, 3] : List Int32).length := rfl
  have hsum := (parallel_sum (by decide) hlengths (by decide) hs).1 (by simpa using hfin)
  exact ⟨s, hs, hsum.trans (by decide)⟩

end Cpp20Examples.Summation
