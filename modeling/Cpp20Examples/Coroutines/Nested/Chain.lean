import Cpp20Examples.Coroutines.Nested.Machine
import Mathlib.Data.List.Perm.Subperm

/-!
# The chain of promises

What the operations of `Machine.lean` do where their assertions hold, and the
shape of the heap that keeps them so.

* `Awaits`: the frames that wait for a coroutine, from its parent to the
  `AsyncResult`, with the continuations that they hold.
* `Scheduled`: the promises of a chain that have the scheduler are the outermost
  ones, and there is at least one.
* `awaitSuspend_getData`: on such a chain `GetData::await_suspend` finds the
  scheduler and fills it in everywhere (`fill`).
* `Stack`: the whole chain, from the innermost coroutine.
-/

namespace Cpp20Examples.Nested

variable {V : Type} {s : State V} {p q : Nat} {f g : Frame V}

@[simp] theorem setFrame_frames (s : State V) (p : Nat) (f : Frame V) :
    (s.setFrame p f).frames = Function.update s.frames p (some f) := rfl
@[simp] theorem setFrame_next (s : State V) (p : Nat) (f : Frame V) :
    (s.setFrame p f).next = s.next := rfl
@[simp] theorem setFrame_schedulers (s : State V) (p : Nat) (f : Frame V) :
    (s.setFrame p f).schedulers = s.schedulers := rfl
@[simp] theorem setFrame_control (s : State V) (p : Nat) (f : Frame V) :
    (s.setFrame p f).control = s.control := rfl

theorem setFrame_setFrame (s : State V) (p : Nat) (f g : Frame V) :
    (s.setFrame p f).setFrame p g = s.setFrame p g := by
  simp [State.setFrame, Function.update_idem]

@[simp] theorem bind_ok {α β : Type} (x : α) (f : α → M β) : (Except.ok x >>= f) = f x := rfl

@[simp] theorem assert_true (e : Failure) : assert true e = .ok () := rfl

@[simp] theorem deref_some {α : Type} (x : α) : deref (some x) = .ok x := rfl

/-! ### The operations where they succeed -/

theorem frame_eq (h : s.frames p = some f) : s.frame p = .ok f := by
  rw [State.frame, h, deref_some]

theorem setPoint_eq (h : s.frames p = some f) (point : Point V) :
    s.setPoint p point = .ok (s.setFrame p { f with point }) := by
  rw [State.setPoint, frame_eq h]
  rfl

theorem returnValue_eq (h : s.frames p = some f) (hv : f.value = none) (v : V) :
    s.returnValue p v = .ok (s.setFrame p { f with value := some v }) := by
  rw [State.returnValue, frame_eq h]
  cases hk : f.kind <;> simp only [bind_ok, hk, hv, Option.isNone_none, assert_true] <;> rfl

theorem finalSuspend_async (h : s.frames p = some f) (hk : f.kind = .async)
    (hp : f.parentHandle = some q) :
    s.finalSuspend p =
      .ok { s.setFrame p { f with point := .final } with control := .resume q } := by
  rw [State.finalSuspend, frame_eq h]
  simp only [bind_ok, hk, hp]
  rfl

theorem finalSuspend_asyncResult (h : s.frames p = some f) (hk : f.kind = .asyncResult) :
    s.finalSuspend p = .ok { s.setFrame p { f with point := .final } with control := .caller } := by
  rw [State.finalSuspend, frame_eq h]
  simp only [bind_ok, hk]
  rfl

theorem awaitSuspend_eq (hp : s.frames p = some f) (hf : f.parent = none)
    (hq : s.frames q = some g) (hg : g.child = none) (hne : q ≠ p) :
    Async.awaitSuspend s p q = .ok
      ((s.setFrame p { f with parent := some q, parentHandle := some q, selfHandle := some p
        }).setFrame q { g with child := some p }) := by
  rw [Async.awaitSuspend, frame_eq hp]
  simp only [bind_ok, hf, Option.isNone_none, assert_true]
  rw [frame_eq (f := g) (by rw [setFrame_frames, Function.update_of_ne hne, hq])]
  simp only [bind_ok, hg, Option.isNone_none, assert_true]
  rfl

theorem awaitResume_eq {v : V} (hp : s.frames p = some f) (hf : f.parent = some q)
    (hv : f.value = some v) (hq : s.frames q = some g) :
    Async.awaitResume s p = .ok (v, s.setFrame q { g with child := none }) := by
  rw [Async.awaitResume, frame_eq hp]
  simp only [bind_ok, hf, deref_some, frame_eq hq, hv]
  rfl

theorem awaitResume_getData {sched : Nat} (h : s.frames p = some f)
    (hs : f.scheduler = some sched) :
    GetData.awaitResume s p = .ok (s.schedulers sched).resumeValue := by
  rw [GetData.awaitResume, frame_eq h, bind_ok, hs]
  rfl

/-! ### The schedulers of a chain -/

def schedulerOf (frames : Nat → Option (Frame V)) (p : Nat) : Option Nat :=
  (frames p).bind Frame.scheduler

/-- A list of promises, the innermost first: only the outer ones, and at least
one, have the scheduler. -/
inductive Scheduled (frames : Nat → Option (Frame V)) (sched : Nat) : List Nat → Prop
  | held {ps : List Nat} : ps ≠ [] → (∀ p ∈ ps, schedulerOf frames p = some sched) →
      Scheduled frames sched ps
  | fresh {p : Nat} {ps : List Nat} : schedulerOf frames p = none → Scheduled frames sched ps →
      Scheduled frames sched (p :: ps)

/-- The parent links of a list of promises; `root` is the parent of the last. -/
def parentOf (root : Nat) : List Nat → Nat
  | [] => root
  | p :: _ => p

inductive Linked (frames : Nat → Option (Frame V)) (root : Nat) : List Nat → Prop
  | nil : Linked frames root []
  | cons {p : Nat} {ps : List Nat} {f : Frame V} : frames p = some f →
      f.parent = some (parentOf root ps) → Linked frames root ps → Linked frames root (p :: ps)

/-- The parent links of a list of promises, which go on to the last of them; what its
parent is does not matter. -/
inductive ParentLinks (frames : Nat → Option (Frame V)) : List Nat → Prop
  | outermost {p : Nat} {f : Frame V} : frames p = some f → ParentLinks frames [p]
  | cons {p q : Nat} {ps : List Nat} {f : Frame V} : frames p = some f → f.parent = some q →
      ParentLinks frames (q :: ps) → ParentLinks frames (p :: q :: ps)

/-- The frames with `sched` as the scheduler of the promises of a list. -/
def fill (sched : Nat) (ps : List Nat) (frames : Nat → Option (Frame V)) (p : Nat) :
    Option (Frame V) :=
  if p ∈ ps then (frames p).map fun f => { f with scheduler := some sched } else frames p

theorem Scheduled.congr {frames frames' : Nat → Option (Frame V)} {sched : Nat} {ps : List Nat}
    (h : Scheduled frames sched ps)
    (he : ∀ p ∈ ps, schedulerOf frames' p = schedulerOf frames p) : Scheduled frames' sched ps := by
  induction h with
  | held hne hall => exact .held hne fun p hp => (he p hp).trans (hall p hp)
  | fresh hn _ ih =>
    refine .fresh ((he _ (List.mem_cons_self ..)).trans hn) (ih ?_)
    intro p hp
    exact he p (List.mem_cons_of_mem _ hp)

theorem Scheduled.congr_cons {frames frames' : Nat → Option (Frame V)} {sched : Nat}
    {ps : List Nat} (h : Scheduled frames sched (p :: ps)) (hf : frames p = some f)
    (hg : frames' p = some g) (hs : g.scheduler = f.scheduler)
    (he : ∀ q ∈ ps, frames' q = frames q) : Scheduled frames' sched (p :: ps) := by
  apply h.congr
  intro q hq
  rcases List.mem_cons.mp hq with rfl | hq
  · rw [schedulerOf, schedulerOf, hf, hg]
    exact hs
  · rw [schedulerOf, schedulerOf, he q hq]

theorem Linked.exists_frame {frames : Nat → Option (Frame V)} {root p : Nat} {ps : List Nat}
    (h : Linked frames root ps) (hp : p ∈ ps) : ∃ f, frames p = some f := by
  induction h with
  | nil => exact absurd hp (by simp)
  | cons hf _ _ ih =>
    rcases List.mem_cons.mp hp with rfl | hp
    · exact ⟨_, hf⟩
    · exact ih hp

theorem Linked.parentLinks {frames : Nat → Option (Frame V)} {root p : Nat} {ps : List Nat}
    (h : Linked frames root (p :: ps)) : ParentLinks frames (p :: ps) := by
  induction ps generalizing p with
  | nil =>
    cases h with
    | cons hf _ _ => exact .outermost hf
  | cons q ps ih =>
    cases h with
    | cons hf hp hl => exact .cons hf hp (ih hl)

theorem ParentLinks.congr {frames frames' : Nat → Option (Frame V)} {ps : List Nat}
    (h : ParentLinks frames ps) (he : ∀ p ∈ ps, frames' p = frames p) :
    ParentLinks frames' ps := by
  induction h with
  | outermost hf => exact .outermost ((he _ (List.mem_cons_self ..)).trans hf)
  | cons hf hp _ ih =>
    refine .cons ((he _ (List.mem_cons_self ..)).trans hf) hp (ih ?_)
    intro p hp
    exact he p (List.mem_cons_of_mem _ hp)

theorem ParentLinks.exists_frame {frames : Nat → Option (Frame V)} {p : Nat} {ps : List Nat}
    (h : ParentLinks frames (p :: ps)) : ∃ f, frames p = some f := by
  cases h with
  | outermost hf => exact ⟨_, hf⟩
  | cons hf _ _ => exact ⟨_, hf⟩

theorem Scheduled.ne_nil {frames : Nat → Option (Frame V)} {sched : Nat} {ps : List Nat}
    (h : Scheduled frames sched ps) : ps ≠ [] := by
  cases h with
  | held hne _ => exact hne
  | fresh _ _ => simp

theorem update_of_notMem {frames : Nat → Option (Frame V)} {p q : Nat} {ps : List Nat}
    (hp : p ∉ ps) (hq : q ∈ ps) (x : Option (Frame V)) :
    Function.update frames p x q = frames q := by
  rw [Function.update_of_ne]
  rintro rfl
  exact hp hq

section Loops

variable {sched fuel : Nat} {ps : List Nat}

/-- **The first loop finds the scheduler**, and does not go on to a parent of the last
promise. -/
theorem findScheduler_eq (hl : ParentLinks s.frames ps) (hs : Scheduled s.frames sched ps)
    (hfuel : ps.length ≤ fuel) :
    GetData.findScheduler s fuel ps.head? = .ok (some sched) := by
  induction ps generalizing fuel with
  | nil => exact absurd rfl hs.ne_nil
  | cons p ps ih =>
    obtain ⟨fuel, rfl⟩ : ∃ n, fuel = n + 1 := ⟨fuel - 1, by simp at hfuel; omega⟩
    obtain ⟨f, hf⟩ := hl.exists_frame
    rw [List.head?_cons, GetData.findScheduler, frame_eq hf, bind_ok]
    cases hs with
    | held _ hall =>
      have hsched := hall p (List.mem_cons_self ..)
      rw [schedulerOf, hf, Option.bind_some] at hsched
      rw [hsched]
    | fresh hn hs =>
      rw [schedulerOf, hf, Option.bind_some] at hn
      cases hl with
      | outermost _ => exact absurd rfl hs.ne_nil
      | @cons _ q _ _ hf' hp hl =>
        have hp : f.parent = some q := Option.some.inj (hf'.symm.trans hf) ▸ hp
        rw [hn, hp]
        exact ih hl hs (by simpa using hfuel)

theorem fill_of_held {frames : Nat → Option (Frame V)}
    (h : ∀ p ∈ ps, schedulerOf frames p = some sched) : fill sched ps frames = frames := by
  funext p
  rw [fill]
  split
  · rename_i hp
    have hsched := h p hp
    cases hf : frames p with
    | none => rfl
    | some f =>
      rw [schedulerOf, hf, Option.bind_some] at hsched
      rw [Option.map_some, ← hsched]
  · rfl

theorem schedulerOf_fill {frames : Nat → Option (Frame V)} (hf : frames p = some f)
    (hp : p ∈ ps) : schedulerOf (fill sched ps frames) p = some sched := by
  rw [schedulerOf, fill, if_pos hp, hf]
  rfl

theorem fill_cons {frames : Nat → Option (Frame V)} (hf : frames p = some f) (hp : p ∉ ps) :
    fill sched ps (Function.update frames p (some { f with scheduler := some sched }))
      = fill sched (p :: ps) frames := by
  funext q
  by_cases hq : q = p
  · subst hq
    simp [fill, hp, hf]
  · simp [fill, hq]

/-- **The second loop fills the scheduler in.** -/
theorem propagateScheduler_eq (hl : ParentLinks s.frames ps) (hs : Scheduled s.frames sched ps)
    (hn : ps.Nodup) (hfuel : ps.length ≤ fuel) :
    GetData.propagateScheduler sched fuel ps.head? s
      = .ok { s with frames := fill sched ps s.frames } := by
  induction ps generalizing s fuel with
  | nil => exact absurd rfl hs.ne_nil
  | cons p ps ih =>
    obtain ⟨fuel, rfl⟩ : ∃ n, fuel = n + 1 := ⟨fuel - 1, by simp at hfuel; omega⟩
    obtain ⟨hp, hn⟩ := List.nodup_cons.mp hn
    obtain ⟨f, hf⟩ := hl.exists_frame
    rw [List.head?_cons, GetData.propagateScheduler, frame_eq hf, bind_ok]
    cases hs with
    | held _ hall =>
      have hsched := hall p (List.mem_cons_self ..)
      rw [schedulerOf, hf, Option.bind_some] at hsched
      rw [hsched, fill_of_held hall]
    | fresh hnone hs =>
      rw [schedulerOf, hf, Option.bind_some] at hnone
      cases hl with
      | outermost _ => exact absurd rfl hs.ne_nil
      | @cons _ q qs _ hf' hpar hl =>
        have hpar : f.parent = some q := Option.some.inj (hf'.symm.trans hf) ▸ hpar
        have hupd : ∀ r ∈ q :: qs, (s.setFrame p { f with scheduler := some sched }).frames r
            = s.frames r := fun r hr => update_of_notMem hp hr _
        have hs' : Scheduled (s.setFrame p { f with scheduler := some sched }).frames sched
            (q :: qs) := hs.congr fun r hr => by rw [schedulerOf, hupd r hr, schedulerOf]
        have hrec := ih (hl.congr hupd) hs' hn (Nat.le_of_succ_le_succ hfuel)
        rw [List.head?_cons, ← hpar] at hrec
        simp only [hnone]
        rw [hrec, ← fill_cons hf hp]
        rfl

theorem length_le_next {n : Nat} (hn : ps.Nodup) (hlt : ∀ q ∈ ps, q < n) : ps.length ≤ n := by
  have hsub := List.subperm_of_subset hn fun q hq => List.mem_range.mpr (hlt q hq)
  have hle := hsub.length_le
  rwa [List.length_range] at hle

/-- **`GetData::await_suspend`** on a chain of promises that has the scheduler. -/
theorem awaitSuspend_getData (hl : ParentLinks s.frames (p :: ps))
    (hs : Scheduled s.frames sched (p :: ps)) (hn : (p :: ps).Nodup)
    (hlt : ∀ q ∈ p :: ps, q < s.next) (hr : (s.schedulers sched).toResume = none) :
    GetData.awaitSuspend s p = .ok { s with
      frames := fill sched (p :: ps) s.frames
      schedulers := Function.update s.schedulers sched
        { s.schedulers sched with toResume := some p } } := by
  have hlen : (p :: ps).length ≤ s.next + 1 := Nat.le_succ_of_le (length_le_next hn hlt)
  have hfind := findScheduler_eq hl hs hlen
  have hprop := propagateScheduler_eq hl hs hn hlen
  rw [List.head?_cons] at hfind hprop
  rw [GetData.awaitSuspend, hfind]
  simp only [bind_ok, Option.isSome_some, assert_true, deref_some, hprop, hr, Option.isNone_none]
  rfl

end Loops

/-! ### The frames of a call stack -/

/-- The frame of an `Async` that was awaited by `parent`. -/
def Frame.linked (self parent : Nat) (child sched : Option Nat) (value : Option V)
    (point : Point V) : Frame V where
  kind := .async
  parent := some parent
  child := child
  parentHandle := some parent
  selfHandle := some self
  scheduler := sched
  value := value
  point := point

/-- The frame of `spawn_task` that awaits its task. -/
def Frame.root (task : Nat) : Frame V where
  kind := .asyncResult
  child := some task
  point := .awaiting task false .ret

/-- The frames that wait for the coroutine of a frame, its parent first. -/
inductive Awaits (frames : Nat → Option (Frame V)) (root : Nat) :
    Nat → List Nat → List (V → Prog V) → Prop
  | root {c : Nat} : frames root = some (.root c) → Awaits frames root c [] []
  | call {c p : Nat} {ps : List Nat} {k : V → Prog V} {ks : List (V → Prog V)}
      {sched : Option Nat} :
      frames p = some (.linked p (parentOf root ps) (some c) sched none (.awaiting c true k)) →
      Awaits frames root p ps ks → Awaits frames root c (p :: ps) (k :: ks)

theorem Awaits.congr {frames frames' : Nat → Option (Frame V)} {root c : Nat} {ps : List Nat}
    {ks : List (V → Prog V)} (h : Awaits frames root c ps ks)
    (he : ∀ p ∈ root :: ps, frames' p = frames p) : Awaits frames' root c ps ks := by
  induction h with
  | root hr => exact .root ((he root (List.mem_cons_self ..)).trans hr)
  | @call c p ps k ks sched hp _ ih =>
    refine .call ((he p (by simp)).trans hp) (ih fun q hq => he q ?_)
    rcases List.mem_cons.mp hq with rfl | hq
    · exact List.mem_cons_self ..
    · exact List.mem_cons_of_mem _ (List.mem_cons_of_mem _ hq)

theorem Awaits.fill {frames : Nat → Option (Frame V)} {root c sched : Nat} {ps qs : List Nat}
    {ks : List (V → Prog V)} (h : Awaits frames root c ps ks) (hr : root ∉ qs) :
    Awaits (fill sched qs frames) root c ps ks := by
  induction h with
  | root hroot => exact .root (by rw [Nested.fill, if_neg hr, hroot])
  | @call c p ps k ks sched' hp _ ih =>
    by_cases hq : p ∈ qs
    · exact .call (by rw [Nested.fill, if_pos hq, hp]; rfl) ih
    · exact .call (by rw [Nested.fill, if_neg hq, hp]) ih

theorem Awaits.linked {frames : Nat → Option (Frame V)} {root c : Nat} {ps : List Nat}
    {ks : List (V → Prog V)} (h : Awaits frames root c ps ks) : Linked frames root ps := by
  induction h with
  | root _ => exact .nil
  | call hp _ ih => exact .cons hp rfl ih

theorem Awaits.root_frame {frames : Nat → Option (Frame V)} {root c : Nat} {ps : List Nat}
    {ks : List (V → Prog V)} (h : Awaits frames root c ps ks) :
    ∃ task, frames root = some (.root task) := by
  induction h with
  | root hr => exact ⟨_, hr⟩
  | call _ _ ih => exact ih

/-- **The call stack in the heap**: the frame `top` of the innermost coroutine,
`ps` those of its callers, and `root` that of the `AsyncResult`; there are no
other frames. -/
structure Stack (sched root top : Nat) (ps : List Nat) (ks : List (V → Prog V)) (value : Option V)
    (point : Point V) (s : State V) : Prop where
  innermost : ∃ own, s.frames top = some (.linked top (parentOf root ps) none own value point)
  awaits : Awaits s.frames root top ps ks
  scheduled : Scheduled s.frames sched (top :: ps)
  nodup : (root :: top :: ps).Nodup
  lt : ∀ p ∈ root :: top :: ps, p < s.next
  only : ∀ p f, s.frames p = some f → p ∈ root :: top :: ps

theorem Scheduled.tail {frames : Nat → Option (Frame V)} {sched p q : Nat} {ps : List Nat}
    (h : Scheduled frames sched (p :: q :: ps)) : Scheduled frames sched (q :: ps) := by
  cases h with
  | held _ hall => exact .held (by simp) fun r hr => hall r (List.mem_cons_of_mem _ hr)
  | fresh _ h => exact h

namespace Stack

variable {sched root top : Nat} {ps : List Nat} {ks : List (V → Prog V)} {value : Option V}
  {point : Point V}

theorem congr (h : Stack sched root top ps ks value point s) {s' : State V}
    (hf : s'.frames = s.frames) (hn : s'.next = s.next) :
    Stack sched root top ps ks value point s' := by
  obtain ⟨h1, h2, h3, h4, h5, h6⟩ := h
  rw [← hf] at h1 h2 h3 h6
  rw [← hn] at h5
  exact ⟨h1, h2, h3, h4, h5, h6⟩

theorem top_notMem (h : Stack sched root top ps ks value point s) : top ∉ root :: ps := by
  have hn := h.nodup
  simp only [List.nodup_cons, List.mem_cons, not_or] at hn ⊢
  exact ⟨Ne.symm hn.1.1, hn.2.1⟩

theorem setTop (h : Stack sched root top ps ks value point s) {own : Option Nat}
    (hf : s.frames top = some (.linked top (parentOf root ps) none own value point))
    (value' : Option V) (point' : Point V) :
    Stack sched root top ps ks value' point'
      (s.setFrame top (.linked top (parentOf root ps) none own value' point')) := by
  refine ⟨⟨own, Function.update_self ..⟩, ?_, ?_, h.nodup, h.lt, ?_⟩
  · exact h.awaits.congr fun q hq => update_of_notMem h.top_notMem hq _
  · apply h.scheduled.congr
    intro q _
    by_cases hq : q = top
    · subst hq
      rw [schedulerOf, schedulerOf, setFrame_frames, Function.update_self, hf]
      rfl
    · rw [schedulerOf, schedulerOf, setFrame_frames, Function.update_of_ne hq]
  · intro q g hq
    by_cases hqt : q = top
    · subst hqt
      simp
    · rw [setFrame_frames, Function.update_of_ne hqt] at hq
      exact h.only q g hq

theorem linked (h : Stack sched root top ps ks value point s) :
    Linked s.frames root (top :: ps) := by
  obtain ⟨own, hf⟩ := h.innermost
  exact .cons hf rfl h.awaits.linked

theorem filled (h : Stack sched root top ps ks value point s) :
    Stack sched root top ps ks value point { s with frames := fill sched (top :: ps) s.frames } ∧
      ∀ p ∈ top :: ps, schedulerOf (fill sched (top :: ps) s.frames) p = some sched := by
  have hall : ∀ p ∈ top :: ps, schedulerOf (fill sched (top :: ps) s.frames) p = some sched := by
    intro p hp
    obtain ⟨f, hf⟩ := h.linked.exists_frame hp
    exact schedulerOf_fill hf hp
  obtain ⟨own, hf⟩ := h.innermost
  refine ⟨⟨⟨some sched, ?_⟩, ?_, .held (by simp) hall, h.nodup, h.lt, ?_⟩, hall⟩
  · show fill sched (top :: ps) s.frames top = _
    rw [fill, if_pos (List.mem_cons_self ..), hf]
    rfl
  · exact h.awaits.fill (List.nodup_cons.mp h.nodup).1
  · intro p f hp
    have hp : fill sched (top :: ps) s.frames p = some f := hp
    rw [fill] at hp
    split at hp
    · rename_i hmem
      exact List.mem_cons_of_mem _ hmem
    · exact h.only p f hp

/-- **A call**: the frame `s.next` of a child is linked to the innermost one, which
awaits it. -/
theorem push (h : Stack sched root top ps ks value point s) {own : Option Nat}
    (hf : s.frames top = some (.linked top (parentOf root ps) none own value point))
    {child : Prog V} {k : V → Prog V} {t : State V} (hnext : t.next = s.next + 1)
    (hnew : t.frames s.next = some (.linked s.next top none none none (.initial child)))
    (htop : t.frames top
      = some (.linked top (parentOf root ps) (some s.next) own none (.awaiting s.next true k)))
    (hrest : ∀ p, p ≠ s.next → p ≠ top → t.frames p = s.frames p) :
    Stack sched root s.next (top :: ps) (k :: ks) none (.initial child) t := by
  have hfresh : s.next ∉ root :: top :: ps := fun hm => Nat.lt_irrefl _ (h.lt _ hm)
  have hold : ∀ p ∈ root :: ps, t.frames p = s.frames p := by
    intro p hp
    refine hrest p (fun he => hfresh ?_) (fun he => h.top_notMem (he ▸ hp))
    rw [← he]
    rcases List.mem_cons.mp hp with rfl | hp
    · exact List.mem_cons_self ..
    · exact List.mem_cons_of_mem _ (List.mem_cons_of_mem _ hp)
  refine ⟨⟨none, hnew⟩, .call htop (h.awaits.congr hold), .fresh ?_ ?_, ?_, ?_, ?_⟩
  · rw [schedulerOf, hnew]
    rfl
  · exact h.scheduled.congr_cons hf htop rfl fun p hp => hold p (List.mem_cons_of_mem _ hp)
  · have hn := h.nodup
    simp only [List.nodup_cons, List.mem_cons, not_or] at hn hfresh ⊢
    exact ⟨⟨Ne.symm hfresh.1, hn.1.1, hn.1.2⟩, ⟨hfresh.2.1, hfresh.2.2⟩, hn.2⟩
  · intro p hp
    rw [hnext]
    by_cases he : p = s.next
    · omega
    · have hp : p ∈ root :: top :: ps := by simpa [he] using hp
      have := h.lt p hp
      omega
  · intro p f hp
    by_cases he : p = s.next
    · simp [he]
    · by_cases het : p = top
      · simp [het]
      · rw [hrest p he het] at hp
        have := h.only p f hp
        simp only [List.mem_cons] at this ⊢
        tauto

/-- **A return**: the innermost frame is gone, and its parent goes on. -/
theorem pop {caller : Nat} {k : V → Prog V}
    (h : Stack sched root top (caller :: ps) (k :: ks) value point s) {own : Option Nat}
    (hf : s.frames caller
      = some (.linked caller (parentOf root ps) (some top) own none (.awaiting top true k)))
    (ha : Awaits s.frames root caller ps ks) {t : State V} (hnext : t.next = s.next)
    (htop : t.frames top = none)
    (hcaller : t.frames caller = some (.linked caller (parentOf root ps) none own none .running))
    (hrest : ∀ p, p ≠ top → p ≠ caller → t.frames p = s.frames p) :
    Stack sched root caller ps ks none .running t := by
  have hn := h.nodup
  simp only [List.nodup_cons, List.mem_cons, not_or] at hn
  refine ⟨⟨own, hcaller⟩, ha.congr ?_, h.scheduled.tail.congr_cons hf hcaller rfl ?_,
    ?_, ?_, ?_⟩
  · intro p hp
    refine hrest p ?_ ?_
    · rintro rfl
      rcases List.mem_cons.mp hp with he | hp
      · exact hn.1.1 he.symm
      · exact hn.2.1.2 hp
    · rintro rfl
      rcases List.mem_cons.mp hp with he | hp
      · exact hn.1.2.1 he.symm
      · exact hn.2.2.1 hp
  · intro p hp
    apply hrest p
    · rintro rfl
      exact hn.2.1.2 hp
    · rintro rfl
      exact hn.2.2.1 hp
  · simp only [List.nodup_cons, List.mem_cons, not_or]
    exact ⟨hn.1.2, hn.2.2⟩
  · intro p hp
    rw [hnext]
    apply h.lt p
    simp only [List.mem_cons] at hp ⊢
    tauto
  · intro p f hp
    have hne : p ≠ top := by
      rintro rfl
      rw [htop] at hp
      exact absurd hp (by simp)
    by_cases he : p = caller
    · simp [he]
    · rw [hrest p hne he] at hp
      have := h.only p f hp
      simp only [List.mem_cons] at this ⊢
      tauto

end Stack

end Cpp20Examples.Nested
