import Cpp20Examples.Coroutines.Nested.Chain
import Cpp20Examples.Lib.System
import Mathlib.Data.List.Induction

/-!
# When the scheduler is set

A scheduler reaches the promises of a call stack in two ways: `setScheduler` on
the outermost `Async` goes down the child links, and `GetData::await_suspend`
fills it in up the parent links.  `spawn_task` does the first before anything is
linked; nothing keeps a program from doing it at another time, or several times.

Here a chain of `Async` promises is given by what happens to it: children are
linked, the innermost one completes, it waits for data and is resumed, and
`setScheduler` is called on the outermost one while nothing waits.

* `Links`: the parent and the child links of a chain agree.
* `setScheduler_eq`: `setScheduler` on the outermost promise fills the scheduler
  in everywhere (`fill`), as `GetData::await_suspend` does.
* `Chained`: what a chain keeps: its outer promises have the scheduler that was
  set last, the ones that were linked since then have none.
* `Run.Inv`: a chain in a run, of which a coroutine may be waiting.
* `Run.Ready`: a chain to which further promises will be linked.
* `getData_registers`: the main theorem.
-/

namespace Cpp20Examples.Nested

open Lib

variable {V : Type}

/-! ### What happens to a chain -/

/-- What happens to a chain of promises.  `link` and `complete` are what `co_await`
of an `Async` and `co_return` do in the innermost coroutine, `getData` is its
`co_await GetData{}`; `temporary` says that the `Async` of the coroutine is gone
with the expression that awaits it. -/
inductive Event (V : Type)
  | create (body : Prog V)
  | link (child : Nat)
  | complete (v : V) (temporary : Bool)
  | getData
  | resume (sched : Nat) (j : Int)
  | setScheduler (sched : Nat)

/-- A chain of promises, the innermost first, with the scheduler that was set last
and whether its innermost coroutine waits for data. -/
structure Run (V : Type) where
  state : State V
  chain : List Nat
  last : Option Nat
  pending : Bool

/-- The promise of an `Async` that was created and not used. -/
def Frame.isFresh (f : Frame V) : Bool :=
  f.kind = .async && f.parent.isNone && f.child.isNone && f.scheduler.isNone && f.value.isNone

/-- When an event is possible.  Before the first `setScheduler`, no scheduler is there
for `GetData`. -/
def Event.enabled (r : Run V) : Event V → Bool
  | .create _ => true
  | .link child => !r.pending && !r.chain.contains child && (r.state.frames child).any Frame.isFresh
  | .complete _ _ => !r.pending && decide (2 ≤ r.chain.length)
  | .getData => !r.pending && r.last.isSome
  | .resume sched _ => (r.state.schedulers sched).toResume.isSome
  | .setScheduler _ => !r.pending

/-- The innermost coroutine returns `v`, and its parent takes the value. -/
def State.complete (s : State V) (self : Nat) (v : V) (temporary : Bool) : M (State V) := do
  let s ← s.returnValue self v
  let s ← s.finalSuspend self
  let (_, s) ← Async.awaitResume s self
  return if temporary then s.destroy self else s

def Run.exec (r : Run V) : Event V → M (Run V)
  | .create body => return { r with
      state := r.state.create { kind := .async, point := .initial body } }
  | .link child => do
    let h ← deref r.chain.head?
    let s ← Async.awaitSuspend r.state child h
    return { r with state := s, chain := child :: r.chain }
  | .complete v temporary => do
    let h ← deref r.chain.head?
    let s ← r.state.complete h v temporary
    return { r with state := s, chain := r.chain.tail }
  | .getData => do
    let h ← deref r.chain.head?
    let s ← GetData.awaitSuspend r.state h
    return { r with state := s, pending := true }
  | .resume sched j => do
    let h ← deref (r.state.schedulers sched).toResume
    let s ← r.state.resumeWithData sched j
    let _ ← GetData.awaitResume s h
    return { r with state := s, pending := false }
  | .setScheduler sched => do
    let p ← deref r.chain.getLast?
    let s ← Nested.setScheduler sched (r.state.next + 1) p r.state
    return { r with state := s, last := some sched }

/-- The runs of a chain, from `start`. -/
def chainSystem (start : Run V) : System (Run V) (Event V) where
  init := start
  step r e := if e.enabled r then (r.exec e).toOption else none

/-! ### The links of a chain -/

/-- The promise of an `Async` that has not completed, with its child. -/
structure Frame.Open (f : Frame V) (child : Option Nat) : Prop where
  kind : f.kind = .async
  value : f.value = none
  child : f.child = child

/-- The links of a chain of promises, the innermost first; `c` is the child of that one.
The parent of the outermost promise does not matter. -/
inductive Links (frames : Nat → Option (Frame V)) : Option Nat → List Nat → Prop
  | outermost {c : Option Nat} {p : Nat} {f : Frame V} : frames p = some f → f.Open c →
      Links frames c [p]
  | cons {c : Option Nat} {p q : Nat} {ps : List Nat} {f : Frame V} : frames p = some f →
      f.Open c → f.parent = some q → f.parentHandle = some q → Links frames (some p) (q :: ps) →
      Links frames c (p :: q :: ps)

theorem Frame.isFresh_iff {f : Frame V} :
    f.isFresh = true ↔ f.Open none ∧ f.parent = none ∧ f.scheduler = none := by
  simp only [isFresh, Bool.and_eq_true, decide_eq_true_eq, Option.isNone_iff_eq_none]
  constructor
  · rintro ⟨⟨⟨⟨hk, hp⟩, hc⟩, hs⟩, hv⟩
    exact ⟨⟨hk, hv, hc⟩, hp, hs⟩
  · rintro ⟨⟨hk, hv, hc⟩, hp, hs⟩
    exact ⟨⟨⟨⟨hk, hp⟩, hc⟩, hs⟩, hv⟩

namespace Links

variable {frames frames' : Nat → Option (Frame V)} {c : Option Nat} {ps : List Nat}

theorem ne_nil (h : Links frames c ps) : ps ≠ [] := by
  cases h <;> simp

theorem head (h : Links frames c ps) : ∃ p f, ps.head? = some p ∧ frames p = some f ∧ f.Open c := by
  cases h with
  | outermost hf ho => exact ⟨_, _, rfl, hf, ho⟩
  | cons hf ho _ _ _ => exact ⟨_, _, rfl, hf, ho⟩

theorem congr (h : Links frames c ps) (he : ∀ p ∈ ps, frames' p = frames p) :
    Links frames' c ps := by
  induction h with
  | outermost hf ho => exact .outermost ((he _ (List.mem_cons_self ..)).trans hf) ho
  | cons hf ho hp hh _ ih =>
    refine .cons ((he _ (List.mem_cons_self ..)).trans hf) ho hp hh (ih ?_)
    intro p hp
    exact he p (List.mem_cons_of_mem _ hp)

theorem exists_frame (h : Links frames c ps) {p : Nat} (hp : p ∈ ps) : ∃ f, frames p = some f := by
  induction h with
  | outermost hf _ => exact ⟨_, List.mem_singleton.mp hp ▸ hf⟩
  | cons hf _ _ _ _ ih =>
    rcases List.mem_cons.mp hp with rfl | hp
    · exact ⟨_, hf⟩
    · exact ih hp

theorem parentLinks (h : Links frames c ps) : ParentLinks frames ps := by
  induction h with
  | outermost hf _ => exact .outermost hf
  | cons hf _ hp _ _ ih => exact .cons hf hp ih

/-- The links do not depend on the schedulers. -/
theorem fill {sched : Nat} {qs : List Nat} (h : Links frames c ps) :
    Links (fill sched qs frames) c ps := by
  have hsome : ∀ {p : Nat} {f : Frame V}, frames p = some f →
      ∃ x, Nested.fill sched qs frames p = some { f with scheduler := x } := by
    intro p f hf
    by_cases hp : p ∈ qs
    · exact ⟨some sched, by rw [Nested.fill, if_pos hp, hf]; rfl⟩
    · exact ⟨f.scheduler, by rw [Nested.fill, if_neg hp, hf]⟩
  induction h with
  | outermost hf ho =>
    obtain ⟨x, hx⟩ := hsome hf
    exact .outermost hx ⟨ho.kind, ho.value, ho.child⟩
  | cons hf ho hp hh _ ih =>
    obtain ⟨x, hx⟩ := hsome hf
    exact .cons hx ⟨ho.kind, ho.value, ho.child⟩ hp hh ih

theorem relink {p : Nat} {f : Frame V} {c' : Option Nat} (h : Links frames c (p :: ps))
    (hf : frames p = some f) (hp : frames' p = some { f with child := c' })
    (he : ∀ q ∈ ps, frames' q = frames q) : Links frames' c' (p :: ps) := by
  cases h with
  | outermost hf' ho =>
    have ho : f.Open c := Option.some.inj (hf'.symm.trans hf) ▸ ho
    exact .outermost hp ⟨ho.kind, ho.value, rfl⟩
  | cons hf' ho hpar hh hl =>
    obtain rfl := Option.some.inj (hf.symm.trans hf')
    exact .cons hp ⟨ho.kind, ho.value, rfl⟩ hpar hh (hl.congr he)

theorem outer {p : Nat} {inner outer : List Nat} (h : Links frames c (inner ++ p :: outer)) :
    Links frames (inner.getLast?.or c) (p :: outer) := by
  induction inner generalizing c with
  | nil => exact h
  | cons q inner ih =>
    have hlast : (q :: inner).getLast?.or c = inner.getLast?.or (some q) := by
      rw [List.getLast?_cons]
      cases inner.getLast? <;> rfl
    rw [hlast]
    apply ih
    cases inner with
    | nil =>
      cases h with
      | cons _ _ _ _ hl => exact hl
    | cons r inner =>
      cases h with
      | cons _ _ _ _ hl => exact hl

end Links

/-! ### `setScheduler` -/

theorem fill_fill (sched : Nat) (ps qs : List Nat) (frames : Nat → Option (Frame V)) :
    fill sched ps (fill sched qs frames) = fill sched (ps ++ qs) frames := by
  funext p
  by_cases hp : p ∈ ps <;> by_cases hq : p ∈ qs <;> cases hf : frames p <;> simp [fill, hp, hq, hf]

theorem setFrame_eq_fill {s : State V} {p sched : Nat} {f : Frame V} (hf : s.frames p = some f) :
    s.setFrame p { f with scheduler := some sched }
      = { s with frames := fill sched [p] s.frames } := by
  rw [State.setFrame, State.mk.injEq]
  refine ⟨?_, rfl, rfl, rfl⟩
  funext q
  by_cases hq : q = p
  · subst hq
    simp [fill, hf]
  · simp [fill, hq]

/-- **`setScheduler`** on a promise of a chain goes down to the innermost one. -/
theorem setScheduler_eq {s : State V} {sched fuel p : Nat} {inner outer : List Nat}
    (h : Links s.frames none (inner ++ p :: outer)) (hfuel : inner.length < fuel) :
    setScheduler sched fuel p s
      = .ok { s with frames := fill sched (inner ++ [p]) s.frames } := by
  induction inner using List.reverseRecOn generalizing p outer s fuel with
  | nil =>
    obtain ⟨fuel, rfl⟩ : ∃ n, fuel = n + 1 := ⟨fuel - 1, by omega⟩
    obtain ⟨q, f, hq, hf, ho⟩ := h.outer.head
    obtain rfl := Option.some.inj hq
    have hchild : f.child = none := ho.child
    rw [setScheduler, frame_eq hf, bind_ok, setFrame_eq_fill hf, hchild]
    rfl
  | append_singleton inner q ih =>
    rw [List.length_append, List.length_singleton] at hfuel
    obtain ⟨fuel, rfl⟩ : ∃ n, fuel = n + 1 := ⟨fuel - 1, by omega⟩
    obtain ⟨r, f, hr, hf, ho⟩ := h.outer.head
    obtain rfl := Option.some.inj hr
    have hchild : f.child = some q := by
      rw [ho.child, List.getLast?_concat]
      rfl
    have hl : Links (fill sched [p] s.frames) none (inner ++ [q] ++ p :: outer) := h.fill
    rw [List.append_assoc] at hl
    have hrec := ih (s := { s with frames := fill sched [p] s.frames }) hl
      (Nat.lt_of_succ_lt_succ hfuel)
    rw [setScheduler, frame_eq hf, bind_ok, setFrame_eq_fill hf, hchild]
    simp only [hrec, fill_fill]

/-! ### A chain -/

theorem destroy_frames (s : State V) (p : Nat) :
    (s.destroy p).frames = Function.update s.frames p none := rfl

/-- No promise is where none was created. -/
def State.Bounded (s : State V) : Prop := ∀ p, s.next ≤ p → s.frames p = none

theorem State.Bounded.lt {s : State V} (h : s.Bounded) {p : Nat} {f : Frame V}
    (hf : s.frames p = some f) : p < s.next := by
  by_contra hp
  rw [h p (Nat.le_of_not_lt hp)] at hf
  cases hf

theorem State.Bounded.setFrame {s : State V} (h : s.Bounded) {p : Nat} (hp : p < s.next)
    (f : Frame V) : (s.setFrame p f).Bounded := by
  intro q hq
  rw [setFrame_next] at hq
  rw [setFrame_frames, Function.update_of_ne (by omega)]
  exact h q hq

theorem State.Bounded.destroy {s : State V} (h : s.Bounded) (p : Nat) : (s.destroy p).Bounded := by
  intro q hq
  by_cases hp : q = p
  · rw [hp, destroy_frames, Function.update_self]
  · rw [destroy_frames, Function.update_of_ne hp]
    exact h q hq

theorem State.Bounded.fill {s : State V} (h : s.Bounded) (sched : Nat) (ps : List Nat) :
    State.Bounded { s with frames := fill sched ps s.frames } := by
  intro q hq
  have hnone : s.frames q = none := h q hq
  by_cases hp : q ∈ ps <;> simp [Nested.fill, hp, hnone]

/-- A chain whose innermost coroutine has no child, and the scheduler set last. -/
structure Chained (s : State V) (chain : List Nat) (last : Option Nat) : Prop where
  links : Links s.frames none chain
  scheduled : ∀ sched, last = some sched → Scheduled s.frames sched chain
  nodup : chain.Nodup
  bounded : s.Bounded

namespace Chained

variable {s : State V} {chain : List Nat} {last : Option Nat}

theorem lt (h : Chained s chain last) {p : Nat} (hp : p ∈ chain) : p < s.next := by
  obtain ⟨f, hf⟩ := h.links.exists_frame hp
  exact h.bounded.lt hf

theorem congr (h : Chained s chain last) {t : State V} (hf : t.frames = s.frames)
    (hn : t.next = s.next) : Chained t chain last := by
  refine ⟨hf ▸ h.links, hf ▸ h.scheduled, h.nodup, ?_⟩
  intro p hp
  rw [hf]
  exact h.bounded p (hn ▸ hp)

theorem filled (h : Chained s chain last) (sched : Nat) :
    (∀ p ∈ chain, schedulerOf (fill sched chain s.frames) p = some sched) ∧
      Chained { s with frames := fill sched chain s.frames } chain (some sched) := by
  have hall : ∀ p ∈ chain, schedulerOf (fill sched chain s.frames) p = some sched := by
    intro p hp
    obtain ⟨f, hf⟩ := h.links.exists_frame hp
    exact schedulerOf_fill hf hp
  refine ⟨hall, h.links.fill, ?_, h.nodup, h.bounded.fill sched chain⟩
  intro sched' hs
  obtain rfl := Option.some.inj hs
  exact .held h.links.ne_nil hall

theorem create (h : Chained s chain last) (f : Frame V) : Chained (s.create f) chain last := by
  have he : ∀ p ∈ chain, (s.create f).frames p = s.frames p := by
    intro p hp
    have := h.lt hp
    exact Function.update_of_ne (by omega) ..
  refine ⟨h.links.congr he, ?_, h.nodup, ?_⟩
  · intro sched hs
    exact (h.scheduled sched hs).congr fun p hp => by rw [schedulerOf, he p hp, schedulerOf]
  · intro p hp
    have hp : s.next + 1 ≤ p := hp
    have hne : p ≠ s.next := by omega
    exact (Function.update_of_ne hne ..).trans (h.bounded p (by omega))

/-- **A child is linked**: it has no scheduler yet. -/
theorem link {p child : Nat} {ps : List Nat} {g : Frame V} (h : Chained s (p :: ps) last)
    (hg : s.frames child = some g) (hfresh : g.isFresh = true) (hnot : child ∉ p :: ps) :
    ∃ t, Async.awaitSuspend s child p = .ok t ∧ Chained t (child :: p :: ps) last ∧
      t.schedulers = s.schedulers ∧ ∀ q, q ∉ child :: p :: ps → t.frames q = s.frames q := by
  obtain ⟨p', f, hp', hf, ho⟩ := h.links.head
  obtain rfl := Option.some.inj hp'
  obtain ⟨hgo, hgp, hgs⟩ := Frame.isFresh_iff.mp hfresh
  have hne : p ≠ child := fun he => hnot (he ▸ List.mem_cons_self ..)
  obtain ⟨hpn, hn⟩ := List.nodup_cons.mp h.nodup
  let g' := { g with parent := some p, parentHandle := some p, selfHandle := some child }
  let f' := { f with child := some child }
  let t := (s.setFrame child g').setFrame p f'
  have hchild : t.frames child = some g' :=
    (Function.update_of_ne hne.symm ..).trans (Function.update_self ..)
  have hparent : t.frames p = some f' := Function.update_self ..
  have hrest : ∀ q, q ≠ child → q ≠ p → t.frames q = s.frames q := fun q hc hp =>
    (Function.update_of_ne hp ..).trans (Function.update_of_ne hc ..)
  have houter : ∀ q ∈ ps, t.frames q = s.frames q := by
    intro q hq
    apply hrest q
    · rintro rfl
      exact hnot (List.mem_cons_of_mem _ hq)
    · rintro rfl
      exact hpn hq
  refine ⟨t, awaitSuspend_eq hg hgp hf ho.child hne, ⟨?_, ?_, ?_, ?_⟩, rfl, ?_⟩
  · exact .cons hchild ⟨hgo.kind, hgo.value, hgo.child⟩ rfl rfl (h.links.relink hf hparent houter)
  · intro sched hs
    refine .fresh ?_ ((h.scheduled sched hs).congr_cons hf hparent rfl houter)
    rw [schedulerOf, hchild]
    exact hgs
  · exact List.nodup_cons.mpr ⟨hnot, h.nodup⟩
  · exact (h.bounded.setFrame (h.bounded.lt hg) g').setFrame (h.bounded.lt hf) f'
  · intro q hq
    simp only [List.mem_cons, not_or] at hq
    exact hrest q hq.1 hq.2.1

/-- **The innermost coroutine completes**, and is no longer the child of its parent. -/
theorem complete {c p : Nat} {ps : List Nat} (h : Chained s (c :: p :: ps) last) (v : V)
    (temporary : Bool) :
    ∃ t, s.complete c v temporary = .ok t ∧ Chained t (p :: ps) last ∧
      t.schedulers = s.schedulers := by
  obtain ⟨hcn, hn⟩ := List.nodup_cons.mp h.nodup
  obtain ⟨hpn, _⟩ := List.nodup_cons.mp hn
  have hne : p ≠ c := fun he => hcn (he ▸ List.mem_cons_self ..)
  cases h.links with
  | @cons _ _ _ _ f hf ho hpar hh hl =>
    obtain ⟨p', g, hp', hg, _⟩ := hl.head
    obtain rfl := Option.some.inj hp'
    let f' := { f with value := some v, point := .final }
    let g' := { g with child := none }
    let s₁ : State V := { s.setFrame c f' with control := .resume p }
    let s₂ := s₁.setFrame p g'
    have hvalue := returnValue_eq hf ho.value v
    have hself : (s.setFrame c { f with value := some v }).frames c
        = some { f with value := some v } := Function.update_self ..
    have hfinal : (s.setFrame c { f with value := some v }).finalSuspend c = .ok s₁ := by
      rw [finalSuspend_async hself ho.kind hh, setFrame_setFrame]
    have hresume : Async.awaitResume s₁ c = .ok (v, s₂) :=
      awaitResume_eq (Function.update_self ..) hpar rfl ((Function.update_of_ne hne ..).trans hg)
    have hb₂ : s₂.Bounded :=
      (h.bounded.setFrame (h.bounded.lt hf) f').setFrame (h.bounded.lt hg) g'
    let t := if temporary then s₂.destroy c else s₂
    have hrest : ∀ q, q ≠ c → t.frames q = s₂.frames q := by
      intro q hq
      cases temporary with
      | false => rfl
      | true => exact Function.update_of_ne hq ..
    have hparent : t.frames p = some g' := (hrest p hne).trans (Function.update_self ..)
    have houter : ∀ q ∈ ps, t.frames q = s.frames q := by
      intro q hq
      have hqc : q ≠ c := by
        rintro rfl
        exact hcn (List.mem_cons_of_mem _ hq)
      have hqp : q ≠ p := by
        rintro rfl
        exact hpn hq
      exact (hrest q hqc).trans
        ((Function.update_of_ne hqp ..).trans (Function.update_of_ne hqc ..))
    refine ⟨t, ?_, ⟨hl.relink hg hparent houter, ?_, hn, ?_⟩, ?_⟩
    · rw [State.complete, hvalue]
      simp only [bind_ok, hfinal, hresume]
      rfl
    · intro sched hs
      exact (h.scheduled sched hs).tail.congr_cons hg hparent rfl houter
    · cases temporary with
      | false => exact hb₂
      | true => exact hb₂.destroy c
    · cases temporary <;> rfl

end Chained

/-! ### The events of a chain -/

section Exec

variable {r : Run V} {sched : Nat}

theorem link_enabled_iff {child : Nat} : (Event.link child).enabled r = true ↔
    r.pending = false ∧ child ∉ r.chain ∧
      ∃ f, r.state.frames child = some f ∧ f.isFresh = true := by
  simp only [Event.enabled, Bool.and_eq_true, Bool.not_eq_true', List.contains_eq_mem,
    decide_eq_false_iff_not, Option.any_eq_true, and_assoc]

/-- A child is linked; the others that could be linked still can. -/
theorem exec_link (h : Chained r.state r.chain r.last) {child : Nat}
    (he : (Event.link child).enabled r = true) :
    ∃ t, r.exec (.link child) = .ok t ∧ Chained t.state t.chain t.last ∧
      t.pending = false ∧ t.chain = child :: r.chain ∧ t.last = r.last ∧
      t.state.schedulers = r.state.schedulers ∧
      ∀ q, q ≠ child → (Event.link q).enabled r = true → (Event.link q).enabled t = true := by
  obtain ⟨hp, hnot, g, hg, hfresh⟩ := link_enabled_iff.mp he
  cases hc : r.chain with
  | nil => exact absurd hc h.links.ne_nil
  | cons p ps =>
    obtain ⟨s, hs, hchain, hsched, hrest⟩ := (hc ▸ h).link hg hfresh (hc ▸ hnot)
    refine ⟨{ r with state := s, chain := child :: p :: ps }, ?_, hchain, hp, rfl, rfl, hsched, ?_⟩
    · rw [Run.exec, hc, List.head?_cons]
      simp only [bind_ok, deref_some, hs]
      rfl
    · intro q hq hqe
      obtain ⟨_, hqn, f, hf, hff⟩ := link_enabled_iff.mp hqe
      have hqn : q ∉ child :: p :: ps := by
        rw [List.mem_cons, not_or]
        exact ⟨hq, hc ▸ hqn⟩
      exact link_enabled_iff.mpr ⟨hp, hqn, f, (hrest q hqn).trans hf, hff⟩

theorem exec_complete (h : Chained r.state r.chain r.last) (hlen : 2 ≤ r.chain.length) (v : V)
    (temporary : Bool) :
    ∃ t, r.exec (.complete v temporary) = .ok t ∧ Chained t.state t.chain t.last ∧
      t.pending = r.pending ∧ t.state.schedulers = r.state.schedulers := by
  cases hc : r.chain with
  | nil => simp [hc] at hlen
  | cons c rest =>
    cases rest with
    | nil => simp [hc] at hlen
    | cons p ps =>
      obtain ⟨s, hs, hchain, hsched⟩ := (hc ▸ h).complete v temporary
      refine ⟨{ r with state := s, chain := p :: ps }, ?_, hchain, rfl, hsched⟩
      rw [Run.exec, hc, List.head?_cons]
      simp only [bind_ok, deref_some, hs]
      rfl

theorem exec_setScheduler (h : Chained r.state r.chain r.last) (sched : Nat) :
    r.exec (.setScheduler sched) = .ok { r with
      state := { r.state with frames := fill sched r.chain r.state.frames }
      last := some sched } := by
  rcases List.eq_nil_or_concat' r.chain with hnil | ⟨inner, p, hc⟩
  · exact absurd hnil h.links.ne_nil
  · have hlen := length_le_next h.nodup fun q hq => h.lt hq
    have hl : Links r.state.frames none (inner ++ p :: []) := hc ▸ h.links
    rw [hc, List.length_append, List.length_singleton] at hlen
    have hset : setScheduler sched (r.state.next + 1) p r.state = .ok _ :=
      setScheduler_eq hl (by omega)
    rw [Run.exec, hc, List.getLast?_concat]
    simp only [bind_ok, deref_some, hset]
    rfl

theorem exec_getData (h : Chained r.state r.chain r.last) (hlast : r.last = some sched)
    (hr : (r.state.schedulers sched).toResume = none) :
    r.exec .getData = .ok { r with
      state := { r.state with
        frames := fill sched r.chain r.state.frames
        schedulers := Function.update r.state.schedulers sched
          { r.state.schedulers sched with toResume := r.chain.head? } }
      pending := true } := by
  cases hc : r.chain with
  | nil => exact absurd hc h.links.ne_nil
  | cons p ps =>
    have hsuspend := awaitSuspend_getData (hc ▸ h.links.parentLinks) (hc ▸ h.scheduled sched hlast)
      (hc ▸ h.nodup) (fun q hq => h.lt (hc ▸ hq)) hr
    rw [Run.exec, hc, List.head?_cons]
    simp only [bind_ok, deref_some, hsuspend]
    rfl

/-- **What a chain in a run keeps.**  While nothing waits, no scheduler has a handle to
resume; while the innermost coroutine waits, the scheduler that was set last has its
handle and is that of every promise. -/
structure Run.Inv (r : Run V) : Prop where
  chained : Chained r.state r.chain r.last
  idle : r.pending = false → ∀ sched, (r.state.schedulers sched).toResume = none
  waiting : r.pending = true → ∃ sched, r.last = some sched ∧
    (∀ p ∈ r.chain, schedulerOf r.state.frames p = some sched) ∧
    ∀ other, (r.state.schedulers other).toResume = if other = sched then r.chain.head? else none

theorem update_toResume (schedulers : Nat → Scheduler) (sched : Nat) (x : Scheduler)
    (other : Nat) : (Function.update schedulers sched x other).toResume
      = if other = sched then x.toResume else (schedulers other).toResume := by
  by_cases ho : other = sched
  · rw [if_pos ho, ho, Function.update_self]
  · rw [if_neg ho, Function.update_of_ne ho]

theorem Run.Inv.of_idle (hc : Chained r.state r.chain r.last) (hp : r.pending = false)
    (hs : ∀ sched, (r.state.schedulers sched).toResume = none) : r.Inv := by
  refine ⟨hc, fun _ => hs, ?_⟩
  intro hp'
  exact absurd (hp.symm.trans hp') (by decide)

/-- `GetData::await_resume` gives the data of `resumeWithData` to the coroutine that
waits. -/
theorem exec_resume (h : r.Inv) (hs : (r.state.schedulers sched).toResume.isSome = true) (j : Int) :
    (∀ other, other ≠ sched → (r.state.schedulers other).toResume = none) ∧
    ∃ p, r.exec (.resume sched j) = .ok { r with
      state := { r.state with
        schedulers := Function.update r.state.schedulers sched
          { toResume := none, resumeValue := j }
        control := .resume p }
      pending := false } := by
  have hpend : r.pending = true := by
    by_contra hp
    rw [h.idle (Bool.eq_false_iff.mpr hp) sched] at hs
    cases hs
  obtain ⟨last, hlast, hall, hreg⟩ := h.waiting hpend
  obtain ⟨p, f, hp, hf, _⟩ := h.chained.links.head
  have hpc : p ∈ r.chain := List.mem_of_mem_head? hp
  have hsched : sched = last := by
    by_contra hne
    rw [hreg sched, if_neg hne] at hs
    cases hs
  subst hsched
  have hto : (r.state.schedulers sched).toResume = some p := by rw [hreg sched, if_pos rfl, hp]
  have hfs : f.scheduler = some sched := by
    have := hall p hpc
    rwa [schedulerOf, hf, Option.bind_some] at this
  let s : State V := { r.state with
    schedulers := Function.update r.state.schedulers sched { toResume := none, resumeValue := j }
    control := .resume p }
  have hwith : r.state.resumeWithData sched j = .ok s := by
    rw [State.resumeWithData, hto]
    rfl
  have hdata : GetData.awaitResume s p = .ok (s.schedulers sched).resumeValue :=
    awaitResume_getData hf hfs
  refine ⟨fun other hne => by rw [hreg other, if_neg hne], p, ?_⟩
  rw [Run.exec, hto]
  simp only [bind_ok, deref_some, hwith, hdata]
  rfl

/-- **Every event that is possible goes through**, no assertion fails. -/
theorem exec_inv (h : r.Inv) {e : Event V} (he : e.enabled r = true) :
    ∃ t, r.exec e = .ok t ∧ t.Inv := by
  cases e with
  | create body =>
    refine ⟨_, rfl, h.chained.create _, h.idle, ?_⟩
    intro hp
    obtain ⟨sched, hlast, hall, hreg⟩ := h.waiting hp
    refine ⟨sched, hlast, ?_, hreg⟩
    intro p hp
    have hne : p ≠ r.state.next := by
      have := h.chained.lt hp
      omega
    have hframe := hall p hp
    rw [schedulerOf] at hframe ⊢
    rwa [State.create, setFrame_frames, Function.update_of_ne hne]
  | link child =>
    obtain ⟨hp, _⟩ := link_enabled_iff.mp he
    obtain ⟨t, ht, hchain, htp, _, _, hsched, _⟩ := exec_link h.chained he
    exact ⟨t, ht, .of_idle hchain htp fun sched => by rw [hsched, h.idle hp sched]⟩
  | complete v temporary =>
    simp only [Event.enabled, Bool.and_eq_true, Bool.not_eq_true', decide_eq_true_eq] at he
    obtain ⟨hp, hlen⟩ := he
    obtain ⟨t, ht, hchain, htp, hsched⟩ := exec_complete h.chained hlen v temporary
    exact ⟨t, ht, .of_idle hchain (htp.trans hp) fun sched => by rw [hsched, h.idle hp sched]⟩
  | getData =>
    simp only [Event.enabled, Bool.and_eq_true, Bool.not_eq_true'] at he
    obtain ⟨hp, hlast⟩ := he
    obtain ⟨sched, hlast⟩ := Option.isSome_iff_exists.mp hlast
    obtain ⟨hall, hchain⟩ := h.chained.filled sched
    refine ⟨_, exec_getData h.chained hlast (h.idle hp sched), ?_, ?_, ?_⟩
    · exact hlast ▸ hchain.congr rfl rfl
    · intro hp'
      cases hp'
    · intro _
      refine ⟨sched, hlast, hall, ?_⟩
      intro other
      exact (update_toResume ..).trans (by rw [h.idle hp other])
  | resume sched j =>
    obtain ⟨hother, p, hexec⟩ := exec_resume h he j
    refine ⟨_, hexec, .of_idle (h.chained.congr rfl rfl) rfl ?_⟩
    intro other
    refine (update_toResume ..).trans ?_
    by_cases ho : other = sched
    · rw [if_pos ho]
    · rw [if_neg ho, hother other ho]
  | setScheduler sched =>
    simp only [Event.enabled, Bool.not_eq_true'] at he
    exact ⟨_, exec_setScheduler h.chained sched, .of_idle (h.chained.filled sched).2 he (h.idle he)⟩

end Exec

/-! ### The runs of a chain -/

/-- A chain of one promise, that of the outermost `Async`. -/
structure Run.Start (r : Run V) : Prop where
  chain : ∃ p f, r.chain = [p] ∧ r.state.frames p = some f ∧ f.Open none ∧ f.scheduler = r.last
  pending : r.pending = false
  bounded : r.state.Bounded

/-- The frames of the `Async`s that were created with `bodies`, the outermost first. -/
def Run.created (bodies : List (Prog V)) : Run V where
  state :=
    { frames := fun p => bodies[p]?.map fun body => { kind := .async, point := .initial body }
      next := bodies.length
      schedulers := fun _ => {}
      control := .caller }
  chain := [0]
  last := none
  pending := false

theorem Run.created_start {bodies : List (Prog V)} (h : bodies ≠ []) :
    (Run.created bodies).Start := by
  obtain ⟨body, rest, rfl⟩ := List.exists_cons_of_ne_nil h
  refine ⟨⟨0, _, rfl, rfl, ⟨rfl, rfl, rfl⟩, rfl⟩, rfl, ?_⟩
  intro p hp
  show ((body :: rest)[p]?.map _ : Option (Frame V)) = none
  rw [List.getElem?_eq_none hp]
  rfl

/-- The innermost coroutine of the chain is what `sched` will resume, and every promise
has `sched`. -/
structure Run.Registered (r : Run V) (sched : Nat) : Prop where
  holds : ∀ p ∈ r.chain, schedulerOf r.state.frames p = some sched
  innermost : ∃ h, r.chain.head? = some h ∧ (r.state.schedulers sched).toResume = some h

section Runs

variable {start r : Run V}

theorem Run.Start.chained (h : start.Start) : Chained start.state start.chain start.last := by
  obtain ⟨p, f, hc, hf, ho, hs⟩ := h.chain
  rw [hc]
  refine ⟨.outermost hf ho, ?_, (List.pairwise_singleton _ p), h.bounded⟩
  intro sched hlast
  refine .held (by simp) ?_
  intro q hq
  rw [List.mem_singleton.mp hq, schedulerOf, hf, Option.bind_some, hs, hlast]

theorem step_eq (start : Run V) {e : Event V} {t : Run V} (he : e.enabled r = true)
    (ht : r.exec e = .ok t) : (chainSystem start).step r e = some t := by
  show (if e.enabled r then (r.exec e).toOption else none) = some t
  rw [if_pos he, ht]
  rfl

theorem Run.Inv.of_reachable (h : start.Start)
    (hs : ∀ sched, (start.state.schedulers sched).toResume = none)
    (hr : (chainSystem start).Reachable r) : r.Inv := by
  refine hr.invariant (.of_idle h.chained h.pending hs) ?_
  intro r e t hi _ hst
  have hst : (if e.enabled r then (r.exec e).toOption else none) = some t := hst
  by_cases he : e.enabled r
  · obtain ⟨t', ht, hi'⟩ := exec_inv hi he
    rw [if_pos he, ht] at hst
    exact Option.some.inj hst ▸ hi'
  · rw [if_neg he] at hst
    cases hst

/-- `GetData::await_suspend` where the scheduler that was set last is free. -/
theorem getData_step {sched : Nat} (h : Chained r.state r.chain r.last)
    (hlast : r.last = some sched) (hr : (r.state.schedulers sched).toResume = none) :
    ∃ t, r.exec .getData = .ok t ∧ t.chain = r.chain ∧ t.Registered sched := by
  obtain ⟨p, _, hp, _, _⟩ := h.links.head
  refine ⟨_, exec_getData h hlast hr, rfl, (h.filled sched).1, p, hp, ?_⟩
  exact (update_toResume ..).trans (by rw [if_pos rfl, hp])

/-- Nothing waits, `sched` is free, and the promises of `later` can still be linked. -/
structure Run.Ready (r : Run V) (sched : Nat) (later : List Nat) : Prop where
  chained : Chained r.state r.chain r.last
  pending : r.pending = false
  free : (r.state.schedulers sched).toResume = none
  nodup : later.Nodup
  enabled : ∀ q ∈ later, (Event.link q).enabled r = true

namespace Run.Ready

variable {sched child : Nat} {children later : List Nat}

theorem link (h : r.Ready sched (child :: later)) (start : Run V) :
    ∃ t, (chainSystem start).step r (.link child) = some t ∧ t.Ready sched later ∧
      t.chain = child :: r.chain ∧ t.last = r.last := by
  obtain ⟨hnot, hn⟩ := List.nodup_cons.mp h.nodup
  have he := h.enabled child (List.mem_cons_self ..)
  obtain ⟨t, ht, htc, htp, hchain, hlast, hsched, henabled⟩ := exec_link h.chained he
  refine ⟨t, step_eq start he ht, ⟨htc, htp, by rw [hsched, h.free], hn, ?_⟩, hchain, hlast⟩
  intro q hq
  apply henabled q
  · rintro rfl
    exact hnot hq
  · exact h.enabled q (List.mem_cons_of_mem _ hq)

theorem links (h : r.Ready sched (children ++ later)) (start : Run V) :
    ∃ t, (chainSystem start).run r (children.map .link) = some t ∧ t.Ready sched later ∧
      t.chain = children.reverse ++ r.chain ∧ t.last = r.last := by
  induction children generalizing r with
  | nil => exact ⟨r, rfl, h, rfl, rfl⟩
  | cons child children ih =>
    obtain ⟨s, hs, hsr, hschain, hslast⟩ := h.link start
    obtain ⟨t, ht, htr, htchain, htlast⟩ := ih hsr
    refine ⟨t, ?_, htr, ?_, htlast.trans hslast⟩
    · rw [List.map_cons, System.run, hs]
      exact ht
    · rw [htchain, hschain, List.reverse_cons, List.append_assoc]
      rfl

/-- The scheduler is set in the middle: what could be linked still can. -/
theorem setScheduler (h : r.Ready sched later) (start : Run V) :
    ∃ t, (chainSystem start).step r (.setScheduler sched) = some t ∧ t.Ready sched later ∧
      t.chain = r.chain ∧ t.last = some sched := by
  have he : (Event.setScheduler sched : Event V).enabled r = true := by
    rw [Event.enabled, h.pending]
    rfl
  refine ⟨_, step_eq start he (exec_setScheduler h.chained sched),
    ⟨(h.chained.filled sched).2, h.pending, h.free, h.nodup, ?_⟩, rfl, rfl⟩
  intro q hq
  obtain ⟨_, hqn, f, hf, hff⟩ := link_enabled_iff.mp (h.enabled q hq)
  refine link_enabled_iff.mpr ⟨h.pending, hqn, f, ?_, hff⟩
  exact (if_neg hqn).trans hf

theorem getData (h : r.Ready sched later) (hlast : r.last = some sched) (start : Run V) :
    ∃ t, (chainSystem start).step r .getData = some t ∧ t.chain = r.chain ∧
      t.Registered sched := by
  obtain ⟨t, ht, hchain, hreg⟩ := getData_step h.chained hlast h.free
  refine ⟨t, step_eq start ?_ ht, hchain, hreg⟩
  rw [Event.enabled, h.pending, hlast]
  rfl

end Run.Ready

/-- **When the scheduler is set does not matter.**  A chain of `n` promises is linked, and
`setScheduler` is called in between, where `k` of them are linked: with the outermost
these are `early`, and `late` are linked behind it.  Then the `GetData` of the innermost
registers with that scheduler, and all promises have it.

So it is in any run: no assertion fails, and every `GetData` registers with the scheduler
that was set last, which all promises of the chain have then. -/
theorem getData_registers (h : start.Start) :
    (∀ (early late : List Nat) (sched : Nat), (early ++ late).Nodup →
      (∀ q ∈ early ++ late, (Event.link q).enabled start = true) →
      (start.state.schedulers sched).toResume = none →
      ∃ r, (chainSystem start).run start
          (early.map .link ++ .setScheduler sched :: (late.map .link ++ [.getData])) = some r ∧
        r.chain = (early ++ late).reverse ++ start.chain ∧ r.Registered sched) ∧
    ((∀ sched, (start.state.schedulers sched).toResume = none) →
      ∀ r, (chainSystem start).Reachable r →
        (∀ e : Event V, e.enabled r = true → ∃ t, r.exec e = .ok t) ∧
        ∀ sched, r.last = some sched → r.pending = false →
          ∃ t, r.exec .getData = .ok t ∧ t.chain = r.chain ∧ t.Registered sched) := by
  constructor
  · intro early late sched hn he hfree
    have hready : start.Ready sched (early ++ late) := ⟨h.chained, h.pending, hfree, hn, he⟩
    obtain ⟨a, ha, har, hachain, _⟩ := hready.links start
    obtain ⟨b, hb, hbr, hbchain, hblast⟩ := har.setScheduler start
    rw [← List.append_nil late] at hbr
    obtain ⟨c, hc, hcr, hcchain, hclast⟩ := hbr.links start
    obtain ⟨d, hd, hdchain, hreg⟩ := hcr.getData (hclast.trans hblast) start
    refine ⟨d, ?_, ?_, hreg⟩
    · rw [System.run_append ha, System.run, hb, Option.bind_some, System.run_append hc,
        System.run, hd]
      rfl
    · rw [hdchain, hcchain, hbchain, hachain, List.reverse_append, List.append_assoc]
  · intro hs r hr
    have hi := Run.Inv.of_reachable h hs hr
    constructor
    · intro e he
      obtain ⟨t, ht, _⟩ := exec_inv hi he
      exact ⟨t, ht⟩
    · intro sched hlast hp
      exact getData_step hi.chained hlast (hi.idle hp sched)

end Runs

/-- Three coroutines: the scheduler is set when two of them are linked. -/
theorem getData_registers_three :
    ∃ r, (chainSystem (Run.created [.ret (), .ret (), .ret ()])).run
        (Run.created [.ret (), .ret (), .ret ()])
        [.link 1, .setScheduler 7, .link 2, .getData] = some r ∧
      r.chain = [2, 1, 0] ∧ r.Registered 7 :=
  (getData_registers (Run.created_start (by simp))).1 [1] [2] 7 (by decide) (by decide) rfl

end Cpp20Examples.Nested
