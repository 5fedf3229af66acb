import Cpp20Examples.Concurrency.Summation.Parallel

/-!
# Thread-local sums

In `threadLocalSummation` the accumulator outlives the call: a call of `sumUp` adds the sums
of all chunks that its thread was given so far.

* `Chronicle`: what a thread has added, and its `tmpSum`.
* `exact_iff`: the calls of a thread have added their chunks exactly when all sums but the
  last one are zero.
* `adds_its_chunk_iff`: when the calls do so in every interleaving.
-/

namespace Cpp20Examples.Summation

open Lib Lib.Threads

variable {val : List Int32}

/-- The sum of the chunks of these calls. -/
def chunkSums (val : List Int32) (added : List (Chunk × ULL)) : ULL :=
  (added.map fun x => chunkSum val x.1).sum

/-- Each call has added the sum of its chunk and of those before it, newest first. -/
def Accumulated (val : List Int32) : List (Chunk × ULL) → Prop
  | [] => True
  | x :: earlier => x.2 = chunkSum val x.1 + chunkSums val earlier ∧ Accumulated val earlier

/-- Each call has added the sum of its chunk. -/
def Exact (val : List Int32) (added : List (Chunk × ULL)) : Prop :=
  ∀ x ∈ added, x.2 = chunkSum val x.1

theorem chunkSums_eq_zero {added : List (Chunk × ULL)}
    (h : ∀ x ∈ added, chunkSum val x.1 = 0) : chunkSums val added = 0 :=
  List.sum_eq_zero fun y hy => by
    obtain ⟨x, hx, rfl⟩ := List.mem_map.mp hy
    exact h x hx

/-- **The calls of a thread have added their chunks** when the sums before the last one are
zero. -/
theorem exact_iff {added : List (Chunk × ULL)} (h : Accumulated val added) :
    Exact val added ↔ ∀ x ∈ added.tail, chunkSum val x.1 = 0 := by
  induction added with
  | nil => exact ⟨fun _ => nofun, fun _ => nofun⟩
  | cons x earlier ih =>
    obtain ⟨hx, hearlier⟩ := h
    have hexact : x.2 = chunkSum val x.1 ↔ chunkSums val earlier = 0 := by
      rw [hx]
      exact add_eq_left
    rw [Exact, List.forall_mem_cons, hexact, List.tail_cons]
    constructor
    · rintro ⟨hzero, hrest⟩
      cases earlier with
      | nil => nofun
      | cons y earlier =>
        have htail := (ih hearlier).mp hrest
        refine List.forall_mem_cons.mpr ⟨?_, htail⟩
        rw [chunkSums, List.map_cons, List.sum_cons] at hzero
        rwa [show (earlier.map fun x => chunkSum val x.1).sum = 0 from chunkSums_eq_zero htail,
          add_zero] at hzero
    · intro hzero
      exact ⟨chunkSums_eq_zero hzero,
        (ih hearlier).mpr fun x hx => hzero x (List.mem_of_mem_tail hx)⟩

/-! ### The calls of a thread -/

/-- What `tmpSum` is at the place of a thread. -/
def Worker.Carries (val : List Int32) (w : Worker) : Prop :=
  match w.point with
  | .outside => w.tmpSum = chunkSums val w.added
  | .loop call it => w.tmpSum + sumFrom val call it = chunkSum val call + chunkSums val w.added
  | .add call _ x => x = chunkSum val call + chunkSums val w.added ∧ w.tmpSum = x
  | .load .. | .store .. | .unlock .. => False

/-- The calls that a thread was given. -/
def Worker.given (w : Worker) : List Chunk :=
  (w.added.map Prod.fst).reverse ++ w.point.call ++ w.calls

structure Chronicle (val : List Int32) (w : Worker) : Prop where
  accumulated : Accumulated val w.added
  carries : w.Carries val

theorem chronicle_step {t : Nat} {d d' : Shared} {w w' : Worker} (hw : Chronicle val w)
    (h : Step threadLocalSummation val t d w d' w') : Chronicle val w' ∧ w'.given = w.given := by
  obtain ⟨hacc, hcarries⟩ := hw
  cases h with
  | call =>
    refine ⟨⟨hacc, ?_⟩, by simp [Worker.given, Point.call]⟩
    simp only [Worker.Carries, threadLocalSummation, if_true] at hcarries ⊢
    rw [hcarries, add_comm]
    rfl
  | accumulate _ hlt hx =>
    refine ⟨⟨hacc, ?_⟩, rfl⟩
    simp only [Worker.Carries] at hcarries ⊢
    rw [← hcarries, sumFrom_of_lt hlt hx, add_assoc]
  | publish _ hle =>
    refine ⟨⟨hacc, ?_, rfl⟩, rfl⟩
    simp only [Worker.Carries] at hcarries
    rw [← hcarries, sumFrom_of_le hle, add_zero]
  | fetchAdd _ =>
    obtain ⟨hx, htmp⟩ := hcarries
    refine ⟨⟨⟨hx, hacc⟩, htmp.trans hx⟩, ?_⟩
    simp [Worker.given, Point.call, Point.resume, threadLocalSummation]
  | element hper | leave hper => cases hper
  | lock hlocked => cases hlocked
  | load | store | unlock => exact hcarries.elim

theorem mem_dropLast_given {w : Worker} {x : Chunk × ULL} (hx : x ∈ w.added.tail) :
    x.1 ∈ w.given.dropLast := by
  obtain ⟨calls, p, tmpSum, added⟩ := w
  cases added with
  | nil => cases hx
  | cons y earlier =>
    rw [Worker.given, List.map_cons, List.reverse_cons, List.append_assoc, List.append_assoc,
      List.singleton_append, List.dropLast_append_cons]
    exact List.mem_append_left _ (List.mem_reverse.mpr (List.mem_map_of_mem hx))

theorem given_of_finished {w : Worker} (h : w.finished = true) :
    w.given = (w.added.map Prod.fst).reverse := by
  obtain ⟨hcalls, hpoint⟩ := finished_iff.mp h
  rw [Worker.given, hcalls, hpoint, Point.call, List.append_nil, List.append_nil]

/-! ### All interleavings -/

section Reachable

variable {calls : List (List Chunk)} {s : State Shared Worker}

theorem chronicle (hs : (system threadLocalSummation val calls).Reachable s) {t : Nat} {w : Worker}
    (hw : s.threads[t]? = some w) : Chronicle val w := by
  refine (invariant (I := fun _ => True) (L := fun _ _ w => Chronicle val w) trivial
    ?_ ?_ hs).2 t w hw
  · intro t w hw
    obtain ⟨cs, -, rfl⟩ := List.mem_map.mp (List.mem_of_getElem? hw)
    exact ⟨trivial, rfl⟩
  · intro s t w d w' _ _ _ hk _ hnext
    exact ⟨trivial, (chronicle_step hk (step_of_sumUp hnext)).1, fun _ _ _ _ h => h⟩

theorem given_eq (hs : (system threadLocalSummation val calls).Reachable s) :
    s.threads.map Worker.given = calls := by
  induction hs with
  | init => simp [system, Threads.system, Worker.given, Point.call, Function.comp_def]
  | step hs _ hst ih =>
    obtain ⟨w, d, w', hw, hnext, rfl⟩ := step_cases hst
    exact (map_set_of_eq hw (chronicle_step (chronicle hs hw) (step_of_sumUp hnext)).2).trans ih

theorem sum_added (hs : (system threadLocalSummation val calls).Reachable s) :
    s.data.sum = (s.threads.map fun w => (w.added.map Prod.snd).sum).sum := by
  have hsum := conserved (f := Shared.sum) (w := fun w => -(w.added.map Prod.snd).sum)
    (fun s t w d w' hs _ hw hnext => ?_) hs
  · have hneg : (s.threads.map fun w : Worker => -(w.added.map Prod.snd).sum).sum =
        -(s.threads.map fun w => (w.added.map Prod.snd).sum).sum := by
      rw [List.sum_neg, List.map_map]
      rfl
    have hzero : ((calls.map fun cs => ({ calls := cs } : Worker)).map fun w =>
        -(w.added.map Prod.snd).sum).sum = 0 := List.sum_eq_zero fun x hx => by
      obtain ⟨w, hw, rfl⟩ := List.mem_map.mp hx
      obtain ⟨cs, -, rfl⟩ := List.mem_map.mp hw
      exact neg_zero
    rw [hneg, hzero, add_zero] at hsum
    exact eq_of_sub_eq_zero ((sub_eq_add_neg _ _).trans hsum)
  · have hcarries := (chronicle hs hw).carries
    cases step_of_sumUp hnext with
    | fetchAdd _ =>
      simp only [List.map_cons, List.sum_cons]
      ring
    | element hper | leave hper => cases hper
    | lock hlocked => cases hlocked
    | load | store | unlock => exact hcarries.elim
    | call | accumulate | publish => rfl

end Reachable

/-- What a summation should do: each call adds the sum of its chunk, and so the final sum
is that of the vector. -/
structure AddsChunks (val : List Int32) (s : State Shared Worker) : Prop where
  exact : ∀ w ∈ s.threads, Exact val w.added
  final : (∀ w ∈ s.threads, w.finished = true) → s.data.sum = total val

section Split

variable {lengths : List Nat} {calls : List (List Chunk)} {s : State Shared Worker}

theorem total_of_exact (hlengths : lengths.sum = val.length)
    (hcalls : calls.flatten.Perm (chunks 0 lengths))
    (hs : (system threadLocalSummation val calls).Reachable s)
    (hexact : ∀ w ∈ s.threads, Exact val w.added)
    (hfin : ∀ w ∈ s.threads, w.finished = true) : s.data.sum = total val := by
  have hadded : s.threads.map (fun w => (w.added.map Prod.snd).sum) =
      (s.threads.map Worker.given).map fun cs => (cs.map (chunkSum val)).sum := by
    rw [List.map_map]
    apply List.map_congr_left
    intro w hw
    have hsnd : w.added.map Prod.snd = (w.added.map Prod.fst).map (chunkSum val) := by
      rw [List.map_map]
      exact List.map_congr_left fun x hx => hexact w hw x hx
    rw [Function.comp_apply, given_of_finished (hfin w hw), hsnd, List.map_reverse,
      List.sum_reverse]
  rw [sum_added hs, hadded, given_eq hs, ← sum_toULL, ← List.drop_zero (l := val),
    ← sum_chunks (by simpa using hlengths), ← (hcalls.map (chunkSum val)).sum_eq, List.map_flatten,
    List.sum_flatten, List.map_map]
  rfl

end Split

/-- **`threadLocalSummation` adds the chunks** in every interleaving exactly when on every
thread the chunks of all calls but the last one have sums that are zero modulo `2 ^ 64`, for
one when no thread makes two calls. -/
theorem adds_its_chunk_iff {val : List Int32} {lengths : List Nat}
    (hlengths : lengths.sum = val.length) {calls : List (List Chunk)}
    (hcalls : calls.flatten.Perm (chunks 0 lengths)) :
    (∀ s, (system threadLocalSummation val calls).Reachable s → AddsChunks val s) ↔
      ∀ cs ∈ calls, ∀ c ∈ cs.dropLast, chunkSum val c = 0 := by
  have hbounds : ∀ c ∈ calls.flatten, c.end_ ≤ val.length := by
    intro c hc
    have hle := end_le_of_mem_chunks (hcalls.mem_iff.mp hc)
    omega
  constructor
  · intro hadds cs hcs c hc
    obtain ⟨n, hn⟩ := (finishes (f := threadLocalSummation) hbounds .init).1
    obtain ⟨s, hs, hfin⟩ := System.Reachable.exists_end
      (P := fun s => ∀ w ∈ s.threads, w.finished = true)
      (fun s hs => (finishes (f := threadLocalSummation) hbounds hs).2) .init hn
    rw [← given_eq hs] at hcs
    obtain ⟨w, hw, rfl⟩ := List.mem_map.mp hcs
    obtain ⟨t, ht⟩ := List.mem_iff_getElem?.mp hw
    rw [given_of_finished (hfin w hw), List.dropLast_reverse, List.mem_reverse,
      ← List.map_tail] at hc
    obtain ⟨x, hx, rfl⟩ := List.mem_map.mp hc
    exact (exact_iff (chronicle hs ht).accumulated).mp ((hadds s hs).exact w hw) x hx
  · intro hzero s hs
    have hexact : ∀ w ∈ s.threads, Exact val w.added := by
      intro w hw
      obtain ⟨t, ht⟩ := List.mem_iff_getElem?.mp hw
      apply (exact_iff (chronicle hs ht).accumulated).mpr
      intro x hx
      exact hzero w.given (given_eq hs ▸ List.mem_map_of_mem hw) x.1 (mem_dropLast_given hx)
    exact ⟨hexact, total_of_exact hlengths hcalls hs hexact⟩

/-- One call on each of two threads. -/
theorem adds_its_chunk_iff_two :
    ∃ s, (system threadLocalSummation [5, -7, 3] [[⟨0, 1⟩], [⟨1, 3⟩]]).Reachable s ∧
      s.data.sum = 1 ∧ AddsChunks [5, -7, 3] s := by
  obtain ⟨s, hs, hfin⟩ := System.exists_reachable
    (M := system threadLocalSummation [5, -7, 3] [[⟨0, 1⟩], [⟨1, 3⟩]])
    (p := fun s => s.threads.all Worker.finished) [0, 1, 0, 1, 1, 0, 1, 0, 1] (by decide)
  have hlengths : [1, 2].sum = ([5, -7, 3] : List Int32).length := rfl
  have hadds := (adds_its_chunk_iff hlengths (by decide)).mpr (by decide) s hs
  exact ⟨s, hs, (hadds.final (by simpa using hfin)).trans (by decide), hadds⟩

/-- Two calls on one thread: the second one adds the first chunk once more. -/
theorem adds_too_much :
    ¬∀ s, (system threadLocalSummation [1, 2] [[⟨0, 1⟩, ⟨1, 2⟩]]).Reachable s →
      AddsChunks [1, 2] s := by
  intro h
  have hadds := h _ (System.reachable_of_run (List.replicate 8 0) rfl)
  exact absurd (hadds.final (by decide)) (by decide)

end Cpp20Examples.Summation
