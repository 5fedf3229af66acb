import Cpp20Examples.Lib.WeakMemory

/-!
# Shared work

In `atomicCondition` one thread fills `mySharedWork` and sets an atomic flag, another one waits
for the flag and changes the work.  In `transitivity` there is a thread in between, which waits
for the flag of the producer and sets the one that the consumer waits for.  The orders are the
release and the acquire of `transitivity`; the sequentially consistent ones of
`atomicCondition` give more.

* `program`: the chain with any number of threads in between.
* `Fits`: what each thread knows of the work.
* `prints_work`: there is no race, and `main` prints `1 2 3`.
-/

namespace Cpp20Examples.MemoryOrders.SharedWork

open Lib Lib.WeakMemory

/-! ### The programs -/

/-- Where a thread is.  Flag `i` is set by the thread behind the one that waits for it. -/
inductive Place
  | fillWork
  | await (i : Nat)
  | store (i : Nat)
  | readWork
  | setWork
  | outOfRange
  | exit
  | ended
  | join (rest : List Nat)
  | printed (work : List Int)
  deriving DecidableEq

/-- After the wait for flag `i` -/
def next : Nat → Place
  | 0 => .readWork
  | i + 1 => .store i

def op (n _ : Nat) : Place → Op Nat Unit Bool (List Int) Place
  | .fillWork => .write () (fun _ => [1, 0, 3]) (.store n)
  | .await i => .load .acquire i fun b => if b then next i else .await i
  | .store i => .store .release i true .exit
  -- `mySharedWork[1] = 2`
  | .readWork => .read () false fun work => if 1 < work.length then .setWork else .outOfRange
  | .setWork => .write () (·.set 1 2) .exit
  | .exit => .exit .ended
  | .join (u :: rest) => .join u (.join rest)
  | .join [] => .read () false .printed
  | .outOfRange | .ended | .printed _ => .stop

def memory : Memory Nat Unit Bool (List Int) where
  history _ := [{ value := false }]
  cells _ := { value := [] }

/-- The consumer, `n` threads in between, the producer, and `main`. -/
def program (n : Nat) : System (State Nat Unit Bool (List Int) Place) Act :=
  system (op n) memory
    ((List.range (n + 1)).map .await ++ [.fillWork, .join (List.range (n + 2))])

def atomicCondition : System (State Nat Unit Bool (List Int) Place) Act := program 0

def transitivity : System (State Nat Unit Bool (List Int) Place) Act := program 1

/-- How a run ends: with undefined behaviour, or with what `main` prints. -/
inductive End
  | undefined
  | printed (work : List Int)
  deriving DecidableEq

def ending (s : State Nat Unit Bool (List Int) Place) : Option End :=
  if s.memory.raced ∨ ∃ th ∈ s.threads, th.place = .outOfRange then some .undefined
  else
    s.threads.findSome? fun th =>
      match th.place with
      | .printed work => some (.printed work)
      | _ => none

/-- Some run ends so. -/
def Ends (n : Nat) (e : End) : Prop := ∃ s, (program n).Reachable s ∧ ending s = some e

/-! ### The invariant -/

/-- The work, when the producer has filled it. -/
def filled (n : Nat) : Cell (List Int) := ⟨[1, 0, 3], [⟨n + 1, 1, true⟩]⟩

/-- The view has the work of the producer. -/
def Filled (n : Nat) (work : Cell (List Int)) (v : View Nat) : Prop :=
  work.accesses ≠ [] ∧ 1 ≤ v (.inr (n + 1))

/-- `main` has read the work. -/
def Printed (n : Nat) (work : Cell (List Int)) : Prop := ∃ e ∈ work.accesses, e.thread = n + 2

/-- The view has the work of all. -/
def Done (work : Cell (List Int)) (v : View Nat) : Prop :=
  work.value = [1, 2, 3] ∧ v.Knows work.accesses

/-- Before the consumer has changed the work. -/
def Ready (work : Cell (List Int)) (v : View Nat) : Prop :=
  work.value = [1, 0, 3] ∧ work.accesses ≠ [] ∧ v.Knows work.accesses

/-- What thread `t` knows of the work. -/
def Fits (n : Nat) (work : Cell (List Int)) (t : Nat) (th : Thread Nat Place) : Prop :=
  match th.place with
  | .fillWork => t = n + 1 ∧ th.view (.inr (n + 1)) = 0 ∧ work = ⟨[], []⟩
  | .await i => t = i ∧ t ≤ n ∧ (t = 0 → work = ⟨[], []⟩ ∨ work = filled n)
  | .store i => t = i + 1 ∧ t ≤ n + 1 ∧ Filled n work th.view
  | .readWork | .setWork => t = 0 ∧ 1 ≤ th.view (.inr (n + 1)) ∧ Ready work th.view
  | .exit | .ended => t ≤ n + 1 ∧ Filled n work th.view ∧
      (t = 0 → Done work th.view ∨ Printed n work)
  | .join rest => t = n + 2 ∧ ¬Printed n work ∧ (0 ∉ rest → work.accesses ≠ [] ∧ Done work th.view)
  | .printed work => t = n + 2 ∧ work = [1, 2, 3]
  | .outOfRange => False

structure Inv (n : Nat) (m : Memory Nat Unit Bool (List Int)) (threads : List (Thread Nat Place)) :
    Prop where
  raced : m.raced = false
  flags : ∀ i, ∀ msg ∈ m.history i, msg.value = true → Filled n (m.cells ()) msg.view
  fits : ∀ (t : Nat) (th : Thread Nat Place), threads[t]? = some th → Fits n (m.cells ()) t th
  ended : ∀ v, m.ended 0 = some v →
    Filled n (m.cells ()) v ∧ (Done (m.cells ()) v ∨ Printed n (m.cells ()))

section Steps

variable {n t : Nat} {m m' : Memory Nat Unit Bool (List Int)} {threads : List (Thread Nat Place)}
  {th th' : Thread Nat Place} {c : Act} {work : Cell (List Int)} {v v' : View Nat}

theorem Filled.mono (h : Filled n work v) (hle : v ≤ v') : Filled n work v' :=
  ⟨h.1, le_trans h.2 (hle _)⟩

theorem Filled.access (h : Filled n work v) (value : List Int) (e : Access) :
    Filled n ⟨value, e :: work.accesses⟩ v := ⟨nofun, h.2⟩

theorem Printed.access (h : Printed n work) (value : List Int) (e : Access) :
    Printed n ⟨value, e :: work.accesses⟩ := h.imp fun _ he => ⟨List.mem_cons_of_mem _ he.1, he.2⟩

theorem not_filled {value : List Int} (h : Filled n ⟨value, []⟩ v) : False := h.1 rfl

theorem not_ready_of_done (h : Ready work v) (hd : Done work v') : False := by
  have hvalue := h.1.symm.trans hd.1
  revert hvalue
  decide

/-- The producer fills the work, while the others wait. -/
theorem Fits.fill (h : Fits n ⟨[], []⟩ t th) (ht : t ≠ n + 1) : Fits n (filled n) t th := by
  rw [Fits] at h ⊢
  cases hplace : th.place with
  | fillWork =>
    rw [hplace] at h
    exact absurd h.1 ht
  | await i =>
    rw [hplace] at h
    exact ⟨h.1, h.2.1, fun _ => .inr rfl⟩
  | store i =>
    rw [hplace] at h
    exact (not_filled h.2.2).elim
  | readWork | setWork =>
    rw [hplace] at h
    exact absurd rfl h.2.2.2.1
  | exit | ended =>
    rw [hplace] at h
    exact (not_filled h.2.1).elim
  | join rest =>
    rw [hplace] at h
    refine ⟨h.1, ?_, fun hrest => absurd rfl (h.2.2 hrest).1⟩
    rintro ⟨e, he, ht⟩
    rw [List.mem_singleton.mp he] at ht
    simp at ht
  | printed w =>
    rw [hplace] at h
    exact h
  | outOfRange =>
    rw [hplace] at h
    exact h

/-- The consumer makes an access, while `main` waits. -/
theorem Fits.access (h : Fits n work t th) (ht : t ≠ 0) (hready : Ready work v) (value : List Int)
    (time : Nat) (writes : Bool) : Fits n ⟨value, ⟨0, time, writes⟩ :: work.accesses⟩ t th := by
  rw [Fits] at h ⊢
  cases hplace : th.place with
  | fillWork =>
    rw [hplace] at h
    exact absurd (congrArg Cell.accesses h.2.2) hready.2.1
  | await i =>
    rw [hplace] at h
    exact ⟨h.1, h.2.1, fun h0 => absurd h0 ht⟩
  | store i =>
    rw [hplace] at h
    exact ⟨h.1, h.2.1, h.2.2.access ..⟩
  | readWork | setWork =>
    rw [hplace] at h
    exact absurd h.1 ht
  | exit | ended =>
    rw [hplace] at h
    exact ⟨h.1, h.2.1.access .., fun h0 => absurd h0 ht⟩
  | join rest =>
    rw [hplace] at h
    refine ⟨h.1, ?_, fun hrest => (not_ready_of_done hready (h.2.2 hrest).2).elim⟩
    rintro ⟨e, he, ht⟩
    rcases List.mem_cons.mp he with rfl | he
    · simp at ht
    · exact h.2.1 ⟨e, he, ht⟩
  | printed w =>
    rw [hplace] at h
    exact h
  | outOfRange =>
    rw [hplace] at h
    exact h

/-- `main` reads the work, and nobody else uses it any more. -/
theorem Fits.print (h : Fits n work t th) (ht : t ≠ n + 2) (hne : work.accesses ≠ [])
    (hdone : Done work v) (value : List Int) (time : Nat) (writes : Bool) :
    Fits n ⟨value, ⟨n + 2, time, writes⟩ :: work.accesses⟩ t th := by
  rw [Fits] at h ⊢
  cases hplace : th.place with
  | fillWork =>
    rw [hplace] at h
    exact absurd (congrArg Cell.accesses h.2.2) hne
  | await i =>
    rw [hplace] at h
    refine ⟨h.1, h.2.1, ?_⟩
    intro h0
    rcases h.2.2 h0 with h | h
    · exact absurd (congrArg Cell.accesses h) hne
    · have hvalue := (congrArg Cell.value h).symm.trans hdone.1
      exact absurd hvalue (by simp [filled])
  | store i =>
    rw [hplace] at h
    exact ⟨h.1, h.2.1, h.2.2.access ..⟩
  | readWork | setWork =>
    rw [hplace] at h
    exact (not_ready_of_done h.2.2 hdone).elim
  | exit | ended =>
    rw [hplace] at h
    exact ⟨h.1, h.2.1.access .., fun _ => .inr ⟨_, List.mem_cons_self .., rfl⟩⟩
  | join rest =>
    rw [hplace] at h
    exact absurd h.1 ht
  | printed w =>
    rw [hplace] at h
    exact h
  | outOfRange =>
    rw [hplace] at h
    exact h

theorem fits_set {work' : Cell (List Int)}
    (h : ∀ (u : Nat) w, threads[u]? = some w → u ≠ t → Fits n work' u w)
    (hth : Fits n work' t th') (u : Nat) (w : Thread Nat Place)
    (hw : (threads.set t th')[u]? = some w) : Fits n work' u w := by
  rcases getElem?_set_cases hw with ⟨rfl, rfl⟩ | ⟨hne, hw⟩
  · exact hth
  · exact h u w hw hne

theorem Inv.quiet (h : Inv n m threads) (hraced : m'.raced = false) (hcells : m'.cells = m.cells)
    (hflags : ∀ i, ∀ msg ∈ m'.history i, msg.value = true →
      msg ∈ m.history i ∨ Filled n (m.cells ()) msg.view)
    (hended : ∀ v, m'.ended 0 = some v → m.ended 0 = some v ∨
      Filled n (m.cells ()) v ∧ (Done (m.cells ()) v ∨ Printed n (m.cells ())))
    (hth : Fits n (m.cells ()) t th') : Inv n m' (threads.set t th') := by
  refine ⟨hraced, ?_, ?_, ?_⟩
  · intro i msg hmsg hvalue
    rw [hcells]
    exact (hflags i msg hmsg hvalue).elim (fun hold => h.flags i msg hold hvalue) id
  · rw [hcells]
    exact fits_set (fun u w hw _ => h.fits u w hw) hth
  · intro v hv
    rw [hcells]
    exact (hended v hv).elim (h.ended v) id

theorem Inv.access (h : Inv n m threads) {v : View Nat} (hready : Ready (m.cells ()) v)
    (value : List Int) (time : Nat) (writes : Bool)
    (hth : Fits n ⟨value, ⟨0, time, writes⟩ :: (m.cells ()).accesses⟩ 0 th') :
    Inv n (m.access () value ⟨0, time, writes⟩) (threads.set 0 th') := by
  refine ⟨h.raced, ?_, ?_, ?_⟩
  · intro i msg hmsg hvalue
    rw [access_cells_self]
    exact (h.flags i msg hmsg hvalue).access ..
  · rw [access_cells_self]
    exact fits_set (fun u w hw hne => (h.fits u w hw).access hne hready _ _ _) hth
  · intro v hv
    rw [access_cells_self]
    obtain ⟨hfilled, hd⟩ := h.ended v hv
    exact ⟨hfilled.access .., .inr ((hd.resolve_left (not_ready_of_done hready)).access ..)⟩

theorem inv_step (h : Inv n m threads) (hth : threads[c.thread]? = some th)
    (hp : perform m th c (op n c.thread th.place) = some (m', th')) :
    Inv n m' (threads.set c.thread th') := by
  have hfits := h.fits c.thread th hth
  have hview := view_le_of_perform hp
  rw [Fits] at hfits
  cases hplace : th.place with
  | fillWork =>
    rw [hplace] at hp hfits
    obtain ⟨ht, hzero, hempty⟩ := hfits
    rcases write_cases hp with ⟨-, rfl, rfl⟩ | ⟨hrace, -, -⟩
    · have hcells : (m.access () [1, 0, 3] ⟨c.thread, th.view (.inr c.thread) + 1, true⟩).cells ()
          = filled n := by
        rw [access_cells_self, hempty, ht, hzero]
        rfl
      refine ⟨h.raced, ?_, ?_, ?_⟩
      · intro i msg hmsg hvalue
        have hfilled := h.flags i msg hmsg hvalue
        rw [hempty] at hfilled
        exact (not_filled hfilled).elim
      · rw [hcells]
        refine fits_set ?_ ⟨ht, Nat.le_of_eq ht, nofun, ?_⟩
        · intro u w hw hne
          have hfits := h.fits u w hw
          rw [hempty] at hfits
          exact hfits.fill (by omega)
        · have htick := th.view.tick_self c.thread
          rw [ht] at htick ⊢
          exact le_trans (Nat.le_add_left ..) (Nat.le_of_eq htick.symm)
      · intro v hv
        have hfilled := (h.ended v hv).1
        rw [hempty] at hfilled
        exact (not_filled hfilled).elim
    · rw [hempty] at hrace
      exact absurd (fun e he => nomatch he) hrace
  | await i =>
    rw [hplace] at hp hfits
    obtain ⟨ht, hle, hwork⟩ := hfits
    obtain ⟨msg, hmsg, -, rfl, rfl⟩ := load_cases hp
    refine h.quiet h.raced rfl (fun _ _ hm _ => .inl hm) (fun _ hv => .inl hv) ?_
    cases hvalue : msg.value with
    | false => exact ⟨ht, hle, hwork⟩
    | true =>
      have hfilled : Filled n (m'.cells ()) (th.view ⊔ .upTo i msg.hi ⊔ msg.view) :=
        (h.flags i msg hmsg hvalue).mono le_sup_right
      cases i with
      | zero =>
        rcases hwork ht with hempty | hwork
        · rw [hempty] at hfilled
          exact (not_filled hfilled).elim
        · refine ⟨ht, hfilled.2, ?_, hfilled.1, ?_⟩
          · rw [hwork]
            rfl
          · rw [hwork]
            intro e he
            rw [List.mem_singleton.mp he]
            exact hfilled.2
      | succ i => exact ⟨ht, by omega, hfilled⟩
  | store i =>
    rw [hplace] at hp hfits
    obtain ⟨ht, hle, hfilled⟩ := hfits
    obtain ⟨-, -, -, rfl, rfl⟩ := store_cases hp
    refine h.quiet h.raced rfl ?_ (fun _ hv => .inl hv) ⟨hle, hfilled.mono hview, ?_⟩
    · intro j msg hmsg hvalue
      by_cases hj : j = i
      · rw [hj, post_history_self] at hmsg
        rw [hj]
        refine (List.mem_cons.mp hmsg).symm.imp_right ?_
        rintro rfl
        exact hfilled.mono le_sup_left
      · rw [post_history_of_ne _ hj] at hmsg
        exact .inl hmsg
    · intro h0
      omega
  | readWork =>
    rw [hplace] at hp hfits
    obtain ⟨ht, hfilled, hready⟩ := hfits
    rcases read_cases hp with ⟨-, rfl, rfl⟩ | ⟨hrace, -, -⟩
    · rw [ht] at hview ⊢
      apply h.access hready
      rw [Fits, hready.1]
      exact ⟨rfl, le_trans hfilled (hview _), rfl, nofun, hready.2.2.tick 0 false⟩
    · exact absurd (hready.2.2.filter _) hrace
  | setWork =>
    rw [hplace] at hp hfits
    obtain ⟨ht, hfilled, hready⟩ := hfits
    rcases write_cases hp with ⟨-, rfl, rfl⟩ | ⟨hrace, -, -⟩
    · rw [ht] at hview ⊢
      apply h.access hready
      refine ⟨Nat.zero_le _, ⟨nofun, le_trans hfilled (hview _)⟩, ?_⟩
      rw [hready.1]
      exact fun _ => .inl ⟨rfl, hready.2.2.tick 0 true⟩
    · exact absurd hready.2.2 hrace
  | exit =>
    rw [hplace] at hp hfits
    obtain ⟨rfl, rfl⟩ := exit_cases hp
    refine h.quiet h.raced rfl (fun _ _ hm _ => .inl hm) ?_ hfits
    intro v hv
    rcases ended_cases hv with ⟨ht, rfl⟩ | ⟨-, hv⟩
    · exact .inr ⟨hfits.2.1, hfits.2.2 ht.symm⟩
    · exact .inl hv
  | join rest =>
    rw [hplace] at hp hfits
    obtain ⟨ht, hnot, hdone⟩ := hfits
    cases rest with
    | nil =>
      obtain ⟨hne, hdone⟩ := hdone List.not_mem_nil
      rcases read_cases hp with ⟨-, rfl, rfl⟩ | ⟨hrace, -, -⟩
      · refine ⟨h.raced, ?_, ?_, ?_⟩
        · intro i msg hmsg hvalue
          rw [access_cells_self]
          exact (h.flags i msg hmsg hvalue).access ..
        · rw [access_cells_self, ht]
          exact fits_set (fun u w hw hu => (h.fits u w hw).print hu hne hdone _ _ _)
            ⟨rfl, hdone.1⟩
        · intro v hv
          rw [access_cells_self]
          exact ⟨(h.ended v hv).1.access .., .inr ⟨_, List.mem_cons_self .., ht⟩⟩
      · exact absurd (hdone.2.filter _) hrace
    | cons u rest =>
      obtain ⟨v, hv, rfl, rfl⟩ := join_cases hp
      refine h.quiet h.raced rfl (fun _ _ hm _ => .inl hm) (fun _ hv => .inl hv) ⟨ht, hnot, ?_⟩
      intro hrest
      by_cases hu : u = 0
      · rw [hu] at hv
        obtain ⟨hfilled, hd⟩ := h.ended v hv
        obtain ⟨hvalue, hknows⟩ := hd.resolve_right hnot
        exact ⟨hfilled.1, hvalue, hknows.mono le_sup_right⟩
      · obtain ⟨hne, hvalue, hknows⟩ := hdone (by simp [Ne.symm hu, hrest])
        exact ⟨hne, hvalue, hknows.mono le_sup_left⟩
  | outOfRange =>
    rw [hplace] at hfits
    exact hfits.elim
  | _ =>
    rw [hplace] at hp
    cases hp

end Steps

/-! ### The ends -/

theorem inv_init (n : Nat) : Inv n memory (program n).init.threads := by
  refine ⟨rfl, ?_, ?_, nofun⟩
  · intro i msg hmsg hvalue
    rw [List.mem_singleton.mp hmsg] at hvalue
    cases hvalue
  · intro t th hth
    have hsplit : (program n).init.threads
        = (List.range (n + 1)).map (fun i => { place := .await i }) ++
          [{ place := .fillWork }, { place := .join (List.range (n + 2)) }] := by
      simp [program, system]
    rw [hsplit] at hth
    by_cases ht : t < n + 1
    · rw [List.getElem?_append_left (by simpa using ht), List.getElem?_map, List.getElem?_range ht,
        Option.map_some] at hth
      obtain rfl := Option.some.inj hth
      exact ⟨rfl, by omega, fun _ => .inl rfl⟩
    · rw [List.getElem?_append_right (by simpa using ht), List.length_map, List.length_range] at hth
      match hn : t - (n + 1) with
      | 0 =>
        rw [hn] at hth
        cases hth
        exact ⟨by omega, rfl, rfl⟩
      | 1 =>
        rw [hn] at hth
        cases hth
        refine ⟨by omega, ?_, fun h0 => absurd (List.mem_range.mpr (by omega)) h0⟩
        rintro ⟨e, he, -⟩
        cases he
      | k + 2 =>
        rw [hn] at hth
        cases hth

theorem inv {n : Nat} {s : State Nat Unit Bool (List Int) Place} (hs : (program n).Reachable s) :
    Inv n s.memory s.threads := by
  refine hs.invariant (inv_init n) ?_ (I := fun s => Inv n s.memory s.threads)
  intro s c s' h _ hst
  obtain ⟨-, th, m, th', hth, hp, rfl⟩ := step_cases hst
  exact inv_step h hth hp

/-- **The work is shared without a race**, along any chain of flags: each run that ends
prints what all threads have made of it, and runs of both programs do end. -/
theorem prints_work :
    (∀ n e, Ends n e → e = .printed [1, 2, 3]) ∧
    (∃ s, atomicCondition.Reachable s ∧ ending s = some (.printed [1, 2, 3])) ∧
    ∃ s, transitivity.Reachable s ∧ ending s = some (.printed [1, 2, 3]) := by
  refine ⟨?_, ?_, ?_⟩
  · rintro n e ⟨s, hs, he⟩
    have h := inv hs
    have hplace : ∀ th ∈ s.threads, th.place ≠ .outOfRange := by
      intro th hth hout
      obtain ⟨t, ht⟩ := List.mem_iff_getElem?.mp hth
      have hfits := h.fits t th ht
      rw [Fits, hout] at hfits
      exact hfits
    have hdefined : ¬(s.memory.raced = true ∨ ∃ th ∈ s.threads, th.place = .outOfRange) := by
      rintro (hraced | ⟨th, hth, hout⟩)
      · simp [h.raced] at hraced
      · exact hplace th hth hout
    rw [ending, if_neg hdefined] at he
    obtain ⟨th, hth, he⟩ := List.exists_of_findSome?_eq_some he
    obtain ⟨t, ht⟩ := List.mem_iff_getElem?.mp hth
    have hfits := h.fits t th ht
    rw [Fits] at hfits
    split at he
    · rename_i work hplace
      rw [hplace] at hfits
      rw [← Option.some.inj he, hfits.2]
    · cases he
  · have hrun : ((program 0).run (program 0).init ([⟨1, 0, 0, 0⟩, ⟨1, 0, 0, 1⟩, ⟨1, 0, 0, 0⟩] ++
        [0, 0, 0, 0, 2, 2, 2].map fun t => { thread := t })).bind ending
          = some (.printed [1, 2, 3]) := by decide
    obtain ⟨s, hs, he⟩ := Option.bind_eq_some_iff.mp hrun
    exact ⟨s, System.reachable_of_run _ hs, he⟩
  · have hrun : ((program 1).run (program 1).init ([⟨2, 0, 0, 0⟩, ⟨2, 0, 0, 1⟩, ⟨2, 0, 0, 0⟩] ++
        [⟨1, 0, 0, 0⟩, ⟨1, 0, 0, 1⟩, ⟨1, 0, 0, 0⟩] ++
        [0, 0, 0, 0, 3, 3, 3, 3].map fun t => { thread := t })).bind ending
          = some (.printed [1, 2, 3]) := by decide
    obtain ⟨s, hs, he⟩ := Option.bind_eq_some_iff.mp hrun
    exact ⟨s, System.reachable_of_run _ hs, he⟩

end Cpp20Examples.MemoryOrders.SharedWork
