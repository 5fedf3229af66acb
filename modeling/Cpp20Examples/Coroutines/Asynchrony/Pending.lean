import Cpp20Examples.Coroutines.Asynchrony.Scheduler
import Mathlib.Algebra.BigOperators.Group.Multiset.Basic
import Mathlib.Data.List.Count

/-!
# The pending coroutines

At any time a suspended coroutine has one entry in `pending_coroutines_`, with the time
it asked for, and there are no others (`Book.entry`, `Balanced.nodup`).  What was asked
for is what was answered and what is pending (`Book.requests`).

The books are kept handle by handle: an operation on one coroutine leaves those of the
others (`Book.congr`).

* `Balanced`: the books, with a lemma for each operation.
* `Fits`: where the thread is.
* `good_step`: a step keeps both.
-/

namespace Cpp20Examples.Asynchrony

open Lib

variable {K : Type} {address : Handle → Nat} {c : PriorityQueue K Entry (greater address)}

/-- The times of a coroutine's entries. -/
def timesOf (h : Handle) (entries : List Entry) : List TimePoint :=
  (entries.filter fun e => e.2 == h).map Prod.fst

/-- The time that a suspended coroutine waits for. -/
def waiting : Option Point → List TimePoint
  | some (.suspended time _) => [time]
  | _ => []

theorem timesOf_cons_self (h : Handle) (t : TimePoint) (l : List Entry) :
    timesOf h ((t, h) :: l) = t :: timesOf h l := by
  simp [timesOf]

theorem timesOf_cons_ne {h h' : Handle} (hne : h ≠ h') (t : TimePoint) (l : List Entry) :
    timesOf h ((t, h') :: l) = timesOf h l := by
  simp [timesOf, Ne.symm hne]

/-- What is on record for the handle `h`; `M` are the pending entries. -/
structure Book (M : Multiset Entry) (s : State K) (h : Handle) : Prop where
  entry : ∀ t, (t, h) ∈ M ↔ ∃ p, s.frames h = some (.suspended t p)
  requests : timesOf h s.requests = waiting (s.frames h) ++ timesOf h s.resumptions
  gone : h < s.created → s.frames h = none → s.destroyed.count h = 1
  alive : s.created ≤ h ∨ s.frames h ≠ none → s.destroyed.count h = 0
  fresh : s.created ≤ h → s.frames h = none ∧ timesOf h s.requests = []

structure Balanced (M : Multiset Entry) (s : State K) : Prop where
  nodup : (M.map Prod.snd).Nodup
  book : ∀ h, Book M s h

/-- Nothing has happened to the coroutine `h`. -/
structure Same (M M' : Multiset Entry) (s s' : State K) (h : Handle) : Prop where
  entry : ∀ t, (t, h) ∈ M' ↔ (t, h) ∈ M
  frames : s'.frames h = s.frames h
  requests : timesOf h s'.requests = timesOf h s.requests
  resumptions : timesOf h s'.resumptions = timesOf h s.resumptions
  destroyed : s'.destroyed.count h = s.destroyed.count h
  created : h < s'.created ↔ h < s.created

variable {M M' : Multiset Entry} {s s' : State K} {h h' : Handle} {t : TimePoint} {p : Coro}

theorem Book.congr (hb : Book M s h) (hs : Same M M' s s' h) : Book M' s' h where
  entry t := by rw [hs.entry, hs.frames, hb.entry]
  requests := by rw [hs.requests, hs.frames, hs.resumptions, hb.requests]
  gone := by
    rw [hs.created, hs.frames, hs.destroyed]
    exact hb.gone
  alive := by
    rw [← Nat.not_lt, hs.created, Nat.not_lt, hs.frames, hs.destroyed]
    exact hb.alive
  fresh := by
    rw [← Nat.not_lt, hs.created, Nat.not_lt, hs.frames, hs.requests]
    exact hb.fresh

/-- A coroutine that is not suspended has no entry. -/
theorem Balanced.not_mem (hb : Balanced M s) (hp : ∀ t p, s.frames h ≠ some (.suspended t p)) :
    h ∉ M.map Prod.snd := by
  intro hmem
  obtain ⟨⟨t, h'⟩, he, rfl⟩ := Multiset.mem_map.mp hmem
  obtain ⟨p, hf⟩ := ((hb.book h').entry t).mp he
  exact hp t p hf

theorem Balanced.lt (hb : Balanced M s) (hf : s.frames h ≠ none) : h < s.created := by
  by_contra hge
  exact hf ((hb.book h).fresh (Nat.not_lt.mp hge)).1

/-- A coroutine is put into the queue: one that ran, or a fresh one. -/
theorem Balanced.enqueue (hb : Balanced M s) (hp : ∀ t p, s.frames h ≠ some (.suspended t p))
    (hcreated : h < s'.created) (hzero : s'.destroyed.count h = 0)
    (hframes : s'.frames = Function.update s.frames h (some (.suspended t p)))
    (hrequests : s'.requests = (t, h) :: s.requests) (hresumptions : s'.resumptions = s.resumptions)
    (hdestroyed : s'.destroyed = s.destroyed)
    (hothers : ∀ g, g ≠ h → (g < s'.created ↔ g < s.created)) :
    Balanced ((t, h) ::ₘ M) s' where
  nodup := by
    rw [Multiset.map_cons, Multiset.nodup_cons]
    exact ⟨hb.not_mem hp, hb.nodup⟩
  book g := by
    by_cases hg : g = h
    · subst hg
      have hself : s'.frames g = some (.suspended t p) := by rw [hframes, Function.update_self]
      have hwaiting : waiting (s.frames g) = [] := by
        cases hf : s.frames g with
        | none => rfl
        | some pt =>
          cases pt with
          | suspended t' p' => exact absurd hf (hp t' p')
          | running => rfl
          | final => rfl
      refine ⟨?_, ?_, ?_, fun _ => hzero, ?_⟩
      · intro t'
        rw [hself, Multiset.mem_cons]
        constructor
        · rintro (heq | hmem)
          · cases heq
            exact ⟨p, rfl⟩
          · exact absurd (Multiset.mem_map.mpr ⟨_, hmem, rfl⟩) (hb.not_mem hp)
        · rintro ⟨p', heq⟩
          cases heq
          exact .inl rfl
      · rw [hrequests, timesOf_cons_self, (hb.book g).requests, hwaiting, hself, hresumptions]
        rfl
      · intro _ hnone
        exact absurd (hself.symm.trans hnone) (by simp)
      · intro hle
        exact absurd hcreated (Nat.not_lt.mpr hle)
    · refine (hb.book g).congr ⟨?_, ?_, ?_, by rw [hresumptions], by rw [hdestroyed],
        hothers g hg⟩
      · intro t'
        rw [Multiset.mem_cons, or_iff_right fun heq => hg (Prod.mk.inj heq).2]
      · rw [hframes, Function.update_of_ne hg]
      · rw [hrequests, timesOf_cons_ne hg]

theorem Balanced.detach (hb : Balanced M s) (now : TimePoint) (child : Coro) :
    Balanced ((now, s.created) ::ₘ M) (s.detach c child now) := by
  have hnone := ((hb.book s.created).fresh (Nat.le_refl _)).1
  refine hb.enqueue (by simp [hnone]) (Nat.lt_succ_self _)
    ((hb.book s.created).alive (.inl (Nat.le_refl _))) rfl rfl rfl rfl ?_
  intro g hg
  exact ⟨fun h => Nat.lt_of_le_of_ne (Nat.le_of_lt_succ h) hg, Nat.lt_succ_of_lt⟩

theorem Balanced.await (hb : Balanced M s) (hrun : s.frames h = some .running) (place : Place) :
    Balanced ((t, h) ::ₘ M) { s.enqueue c h t p with place := place } :=
  hb.enqueue (by simp [hrun]) (hb.lt (by simp [hrun])) ((hb.book h).alive (.inr (by simp [hrun])))
    rfl rfl rfl rfl fun _ _ => Iff.rfl

theorem Balanced.resume (hb : Balanced ((t, h) ::ₘ M) s)
    (hframes : s'.frames = Function.update s.frames h (some .running))
    (hrequests : s'.requests = s.requests)
    (hresumptions : s'.resumptions = (t, h) :: s.resumptions)
    (hdestroyed : s'.destroyed = s.destroyed) (hcreated : s'.created = s.created) :
    Balanced M s' := by
  have hnodup := hb.nodup
  rw [Multiset.map_cons, Multiset.nodup_cons] at hnodup
  obtain ⟨p, hp⟩ := ((hb.book h).entry t).mp (Multiset.mem_cons_self _ _)
  refine ⟨hnodup.2, ?_⟩
  intro g
  by_cases hg : g = h
  · subst hg
    have hself : s'.frames g = some .running := by rw [hframes, Function.update_self]
    refine ⟨?_, ?_, ?_, ?_, ?_⟩
    · intro t'
      rw [hself]
      constructor
      · exact fun hmem => absurd (Multiset.mem_map.mpr ⟨_, hmem, rfl⟩) hnodup.1
      · exact fun ⟨_, heq⟩ => absurd heq (by simp)
    · rw [hrequests, (hb.book g).requests, hp, hresumptions, timesOf_cons_self, hself]
      rfl
    · exact fun _ hnone => absurd (hself.symm.trans hnone) (by simp)
    · intro _
      rw [hdestroyed]
      exact (hb.book g).alive (.inr (by simp [hp]))
    · intro hle
      rw [hcreated] at hle
      exact absurd (((hb.book g).fresh hle).1.symm.trans hp) (by simp)
  · refine (hb.book g).congr ⟨?_, ?_, by rw [hrequests], ?_, by rw [hdestroyed],
      by rw [hcreated]⟩
    · intro t'
      rw [Multiset.mem_cons, or_iff_right fun heq => hg (Prod.mk.inj heq).2]
    · rw [hframes, Function.update_of_ne hg]
    · rw [hresumptions, timesOf_cons_ne hg]

theorem Balanced.finish (hb : Balanced M s) (hrun : s.frames h = some .running) (place : Place) :
    Balanced M { s with frames := Function.update s.frames h (some .final), place := place } := by
  refine ⟨hb.nodup, ?_⟩
  intro g
  by_cases hg : g = h
  · subst hg
    have hself : Function.update s.frames g (some .final) g = some .final :=
      Function.update_self _ _ _
    refine ⟨?_, ?_, ?_, fun _ => (hb.book g).alive (.inr (by simp [hrun])), ?_⟩
    · intro t'
      have hentry := (hb.book g).entry t'
      rw [hrun] at hentry
      simpa [hself] using hentry
    · have hrequests := (hb.book g).requests
      rw [hrun] at hrequests
      simpa [hself, waiting] using hrequests
    · exact fun _ hnone => absurd (hself.symm.trans hnone) (by simp)
    · intro hle
      exact absurd (((hb.book g).fresh hle).1.symm.trans hrun) (by simp)
  · exact (hb.book g).congr ⟨fun _ => Iff.rfl, Function.update_of_ne hg _ _, rfl, rfl, rfl, Iff.rfl⟩

theorem Balanced.destroy (hb : Balanced M s) (hfinal : s.frames h = some .final) (place : Place) :
    Balanced M { s with
      frames := Function.update s.frames h none
      destroyed := h :: s.destroyed
      place := place } := by
  refine ⟨hb.nodup, ?_⟩
  intro g
  by_cases hg : g = h
  · subst hg
    have hself : Function.update s.frames g none g = none := Function.update_self _ _ _
    have hlt : g < s.created := hb.lt (by simp [hfinal])
    refine ⟨?_, ?_, ?_, ?_, fun hle => absurd hlt (Nat.not_lt.mpr hle)⟩
    · intro t'
      have hentry := (hb.book g).entry t'
      rw [hfinal] at hentry
      simpa [hself] using hentry
    · have hrequests := (hb.book g).requests
      rw [hfinal] at hrequests
      simpa [hself, waiting] using hrequests
    · intro _ _
      rw [List.count_cons_self, (hb.book g).alive (.inr (by simp [hfinal]))]
    · rintro (hle | hne)
      · exact absurd hlt (Nat.not_lt.mpr hle)
      · exact absurd hself hne
  · refine (hb.book g).congr ⟨fun _ => Iff.rfl, Function.update_of_ne hg _ _, rfl, rfl, ?_, Iff.rfl⟩
    exact List.count_cons_of_ne (Ne.symm hg)

/-- The books do not depend on the place and the clock. -/
theorem Balanced.move (hb : Balanced M s) (place : Place) (clock : TimePoint) :
    Balanced M { s with place := place, clock := clock } :=
  ⟨hb.nodup, fun h => (hb.book h).congr ⟨fun _ => Iff.rfl, rfl, rfl, rfl, rfl, Iff.rfl⟩⟩

/-! ### Where the thread is -/

/-- The coroutine is suspended, if it exists. -/
def Idle (s : State K) (h : Handle) : Prop :=
  ∀ f, s.frames h = some f → ∃ t p, f = .suspended t p

def Fits (c : PriorityQueue K Entry (greater address)) (s : State K) : Prop :=
  match s.place with
  | .running h _ => s.frames h = some .running ∧ ∀ g, g ≠ h → Idle s g
  | .resumed h =>
    (s.frames h = some .final ∨ ∃ t p, s.frames h = some (.suspended t p)) ∧
      ∀ g, g ≠ h → Idle s g
  | .sleeping time =>
    (∀ g, Idle s g) ∧ c.empty s.pending_coroutines_ = false ∧
      ∃ h, c.top s.pending_coroutines_ = some (time, h)
  | .due =>
    (∀ g, Idle s g) ∧ c.empty s.pending_coroutines_ = false ∧
      ∃ e, c.top s.pending_coroutines_ = some e ∧ e.1 ≤ s.clock
  | .returned => (∀ g, Idle s g) ∧ c.items s.pending_coroutines_ = 0
  | .failed => False
  | .main _ => ∀ g, Idle s g
  | .loop => ∀ g, Idle s g

structure Good (c : PriorityQueue K Entry (greater address)) (s : State K) : Prop where
  books : Balanced (c.items s.pending_coroutines_) s
  fits : Fits c s

theorem Idle.update {x : Option Point} (hs : Idle s h') (hne : h' ≠ h)
    (hframes : s'.frames = Function.update s.frames h x) : Idle s' h' := by
  intro f hf
  rw [hframes, Function.update_of_ne hne] at hf
  exact hs f hf

theorem Idle.update_self
    (hframes : s'.frames = Function.update s.frames h (some (.suspended t p))) :
    Idle s' h := by
  intro f hf
  rw [hframes, Function.update_self] at hf
  exact ⟨t, p, (Option.some.inj hf).symm⟩

section Steps

variable {now : TimePoint} {coros : List Coro} {active : Handle}

theorem good_main (hg : Good c s) (hplace : s.place = .main coros) (hclock : ¬ now < s.clock)
    (hst : step c s now = some s') : Good c s' := by
  have hidle : ∀ g, Idle s g := by
    have hfits := hg.fits
    rwa [Fits, hplace] at hfits
  simp only [step, hclock, if_false, hplace] at hst
  cases coros with
  | nil =>
    obtain rfl := Option.some.inj hst
    exact ⟨hg.books.move _ _, hidle⟩
  | cons coro coros =>
    obtain rfl := Option.some.inj hst
    constructor
    · have hbooks := ((hg.books.move s.place now).detach (c := c) now coro).move (.main coros) now
      rw [← c.items_push] at hbooks
      exact hbooks
    · intro g
      by_cases hne : g = s.created
      · subst hne
        exact Idle.update_self rfl
      · exact (hidle g).update hne rfl

theorem good_loop (hg : Good c s) (hplace : s.place = .loop) (hclock : ¬ now < s.clock)
    (hst : step c s now = some s') : Good c s' := by
  have hidle : ∀ g, Idle s g := by
    have hfits := hg.fits
    rwa [Fits, hplace] at hfits
  simp only [step, hclock, if_false, hplace] at hst
  cases he : c.empty s.pending_coroutines_ with
  | true =>
    simp only [he, if_true, Option.some.injEq] at hst
    subst hst
    exact ⟨hg.books.move _ _, hidle, (c.empty_iff _).mp he⟩
  | false =>
    obtain ⟨top, htop, -⟩ := c.exists_top _ he
    simp only [he, Bool.false_eq_true, if_false, htop, Option.some.injEq] at hst
    subst hst
    refine ⟨hg.books.move _ _, ?_⟩
    by_cases hdue : now < top.1
    · simp only [Fits, hdue, if_true]
      exact ⟨hidle, he, top.2, htop⟩
    · simp only [Fits, hdue, if_false]
      exact ⟨hidle, he, top, htop, Int.not_lt.mp hdue⟩

theorem good_sleeping {time : TimePoint} (hg : Good c s) (hplace : s.place = .sleeping time)
    (hclock : ¬ now < s.clock) (hst : step c s now = some s') : Good c s' := by
  obtain ⟨hidle, he, h, htop⟩ : (∀ g, Idle s g) ∧ c.empty s.pending_coroutines_ = false ∧
      ∃ h, c.top s.pending_coroutines_ = some (time, h) := by
    have hfits := hg.fits
    rwa [Fits, hplace] at hfits
  simp only [step, hclock, if_false, hplace] at hst
  split at hst
  · exact absurd hst (by simp)
  · rename_i hdue
    obtain rfl := Option.some.inj hst
    exact ⟨hg.books.move _ _, hidle, he, _, htop, Int.not_lt.mp hdue⟩

/-- The entry on top is due: its coroutine is suspended, and is resumed. -/
theorem step_due (hg : Good c s) (hplace : s.place = .due) (hclock : ¬ now < s.clock) :
    ∃ e rest, c.top s.pending_coroutines_ = some e ∧
      c.items s.pending_coroutines_ = e ::ₘ c.items (c.pop s.pending_coroutines_) ∧
      e.1 ≤ s.clock ∧ s.frames e.2 = some (.suspended e.1 rest) ∧
      step c s now = some { s with
        pending_coroutines_ := c.pop s.pending_coroutines_
        frames := Function.update s.frames e.2 (some .running)
        place := .running e.2 rest
        clock := now
        resumptions := e :: s.resumptions } := by
  obtain ⟨-, he, e, htop, hdue⟩ : (∀ g, Idle s g) ∧ c.empty s.pending_coroutines_ = false ∧
      ∃ e, c.top s.pending_coroutines_ = some e ∧ e.1 ≤ s.clock := by
    have hfits := hg.fits
    rwa [Fits, hplace] at hfits
  obtain ⟨e', htop', hitems⟩ := c.exists_top _ he
  obtain rfl := Option.some.inj (htop.symm.trans htop')
  obtain ⟨rest, hrest⟩ := ((hg.books.book e.2).entry e.1).mp (by
    rw [hitems]
    exact Multiset.mem_cons_self _ _)
  refine ⟨e, rest, htop, hitems, hdue, hrest, ?_⟩
  simp only [step, hclock, if_false, hplace, htop, State.resume, hrest]

theorem good_due (hg : Good c s) (hplace : s.place = .due) (hclock : ¬ now < s.clock)
    (hst : step c s now = some s') : Good c s' := by
  obtain ⟨e, rest, htop, hitems, hdue, hrest, hstep⟩ := step_due hg hplace hclock
  obtain ⟨hidle, -⟩ : (∀ g, Idle s g) ∧ c.empty s.pending_coroutines_ = false ∧
      ∃ e, c.top s.pending_coroutines_ = some e ∧ e.1 ≤ s.clock := by
    have hfits := hg.fits
    rwa [Fits, hplace] at hfits
  obtain rfl := Option.some.inj (hstep.symm.trans hst)
  have hbooks := hg.books
  rw [hitems] at hbooks
  exact ⟨hbooks.resume rfl rfl rfl rfl rfl, Function.update_self _ _ _,
    fun g hne => (hidle g).update hne rfl⟩

theorem good_running (hg : Good c s) (hplace : s.place = .running active p)
    (hclock : ¬ now < s.clock) (hst : step c s now = some s') : Good c s' := by
  obtain ⟨hrun, hidle⟩ : s.frames active = some .running ∧ ∀ g, g ≠ active → Idle s g := by
    have hfits := hg.fits
    rwa [Fits, hplace] at hfits
  simp only [step, hclock, if_false, hplace, Option.some.injEq] at hst
  have hbooks : Balanced (c.items s.pending_coroutines_) { s with clock := now } :=
    hg.books.move s.place now
  cases p with
  | done =>
    subst hst
    exact ⟨hbooks.finish hrun _, .inl (Function.update_self _ _ _),
      fun g hne => (hidle g hne).update hne rfl⟩
  | now rest =>
    subst hst
    exact ⟨hg.books.move _ _, hrun, hidle⟩
  | await time rest =>
    subst hst
    refine ⟨?_, .inr ⟨time, rest, Function.update_self _ _ _⟩,
      fun g hne => (hidle g hne).update hne rfl⟩
    have hawait := hbooks.await (c := c) (t := time) (p := rest) hrun (.resumed active)
    rw [← c.items_push] at hawait
    exact hawait
  | detach child rest =>
    subst hst
    have hne : active ≠ s.created := Nat.ne_of_lt (hg.books.lt (by simp [hrun]))
    refine ⟨?_, ?_, ?_⟩
    · have hdetach := (hbooks.detach (c := c) now child).move (.running active rest) now
      rw [← c.items_push] at hdetach
      exact hdetach
    · exact (Function.update_of_ne hne _ _).trans hrun
    · intro g hg'
      by_cases hnew : g = s.created
      · subst hnew
        exact Idle.update_self rfl
      · exact (hidle g hg').update hnew rfl

theorem good_resumed (hg : Good c s) (hplace : s.place = .resumed active)
    (hclock : ¬ now < s.clock) (hst : step c s now = some s') : Good c s' := by
  obtain ⟨hactive, hidle⟩ : (s.frames active = some .final ∨
      ∃ t p, s.frames active = some (.suspended t p)) ∧ ∀ g, g ≠ active → Idle s g := by
    have hfits := hg.fits
    rwa [Fits, hplace] at hfits
  simp only [step, hclock, if_false, hplace, Option.some.injEq] at hst
  have hbooks : Balanced (c.items s.pending_coroutines_) { s with clock := now } :=
    hg.books.move s.place now
  rcases hactive with hfinal | ⟨t, p, hsusp⟩
  · simp only [State.settle, hfinal] at hst
    subst hst
    refine ⟨hbooks.destroy hfinal _, ?_⟩
    intro g
    by_cases hne : g = active
    · subst hne
      intro f hf
      exact absurd ((Function.update_self _ _ _).symm.trans hf) (by simp)
    · exact (hidle g hne).update hne rfl
  · simp only [State.settle, hsusp] at hst
    subst hst
    refine ⟨hg.books.move _ _, ?_⟩
    intro g
    by_cases hne : g = active
    · subst hne
      intro f hf
      exact ⟨t, p, Option.some.inj (hf.symm.trans hsusp)⟩
    · exact hidle g hne

theorem good_step (hg : Good c s) (hst : step c s now = some s') : Good c s' := by
  have hclock : ¬ now < s.clock := by
    intro h
    rw [step, if_pos h] at hst
    exact absurd hst (by simp)
  cases hplace : s.place with
  | main coros => exact good_main hg hplace hclock hst
  | loop => exact good_loop hg hplace hclock hst
  | sleeping time => exact good_sleeping hg hplace hclock hst
  | due => exact good_due hg hplace hclock hst
  | running active p => exact good_running hg hplace hclock hst
  | resumed active => exact good_resumed hg hplace hclock hst
  | returned => exact absurd hst (by simp [step, hclock, hplace])
  | failed => exact absurd hst (by simp [step, hclock, hplace])

end Steps

theorem good_init (c : PriorityQueue K Entry (greater address)) (coros : List Coro)
    (start : TimePoint) : Good c (system c coros start).init where
  books := by
    refine ⟨by simp [system, c.items_new], ?_⟩
    intro h
    refine ⟨?_, rfl, ?_, fun _ => rfl, fun _ => ⟨rfl, rfl⟩⟩
    · intro t
      simp [system, c.items_new]
    · exact fun hlt => absurd hlt (Nat.not_lt_zero h)
  fits := fun g f hf => absurd hf (by simp [system])

end Cpp20Examples.Asynchrony
