import Cpp20Examples.Lib.WeakMemory

/-!
# The spin lock

`Spinlock` of `spinLock` and `spinLockBreak`: `lock` sets the flag until it has found it clear,
`unlock` clears it.  The orders are the acquire and the release of `spinLockBreak`; the
sequentially consistent ones of `spinLock` give more.

A thread locks for one `Work` after the other: what it does then with objects that are not
atomic.

* `Phase`: the right to lock is with one thread, or with one message that is clear.
* `Inv`: the phase, with the works in the order of their locks.
* `serializes`: there is no race, one thread at most has the lock, and the works have the
  effect that they have one after the other.
-/

namespace Cpp20Examples.MemoryOrders.SpinLock

open Lib Lib.WeakMemory

variable {N W : Type}

/-! ### The program -/

/-- What a thread does while it has the lock. -/
inductive Work (N W : Type)
  | done
  | read (x : N) (k : W → Work N W)
  | write (x : N) (w : W) (rest : Work N W)

/-- Where a thread is, with the works that it has before it. -/
inductive Place (N W : Type)
  | lock (work : Work N W) (works : List (Work N W))
  | locked (work : Work N W) (works : List (Work N W))
  | exit
  | ended

/-- To the next `lock` -/
def next : List (Work N W) → Place N W
  | [] => .exit
  | work :: works => .lock work works

def op (_ : Nat) : Place N W → Op Unit N Bool W (Place N W)
  | .lock work works =>
      -- `while (flag.test_and_set(std::memory_order_acq_rel))`
      .update .acqRel () (fun _ => true) fun old =>
        if old then .lock work works else .locked work works
  | .locked (.read x k) works => .read x false fun w => .locked (k w) works
  | .locked (.write x w rest) works => .write x (fun _ => w) (.locked rest works)
  | .locked .done works => .store .release () false (next works)
  | .exit => .exit .ended
  | .ended => .stop

def memory (init : N → W) : Memory Unit N Bool W where
  history _ := [{ value := false, hi := 1, view := .upTo () 1 }]
  cells x := { value := init x }

def program [DecidableEq N] (init : N → W) (threads : List (List (Work N W))) :
    System (State Unit N Bool W (Place N W)) Act :=
  system op (memory init) (threads.map next)

/-! ### The works one after the other -/

/-- What a work makes of the objects. -/
def Work.run [DecidableEq N] : Work N W → (N → W) → N → W
  | .done, c => c
  | .read x k, c => (k (c x)).run c
  | .write x w rest, c => rest.run (Function.update c x w)

/-- The works of a list, each with its thread. -/
def runAll [DecidableEq N] (works : List (Nat × Work N W)) (c : N → W) : N → W :=
  works.foldl (fun c work => work.2.run c) c

/-- The works of thread `t`. -/
def worksOf (t : Nat) (works : List (Nat × Work N W)) : List (Work N W) :=
  (works.filter fun work => work.1 = t).map Prod.snd

/-- What is in the objects. -/
def contents (s : State Unit N Bool W (Place N W)) : N → W := fun x => (s.memory.cells x).value

def Place.isLocked : Place N W → Bool
  | .locked _ _ => true
  | _ => false

/-- The works that a thread has not locked for. -/
def Place.left : Place N W → List (Work N W)
  | .lock work works => work :: works
  | .locked _ works => works
  | _ => []

theorem next_left (works : List (Work N W)) : (next works).left = works := by
  cases works <;> rfl

theorem next_isLocked (works : List (Work N W)) : (next works).isLocked = false := by
  cases works <;> rfl

theorem worksOf_append_self (t : Nat) (works : List (Nat × Work N W)) (work : Work N W) :
    worksOf t (works ++ [(t, work)]) = worksOf t works ++ [work] := by
  simp [worksOf]

theorem worksOf_append_of_ne {t u : Nat} (h : u ≠ t) (works : List (Nat × Work N W))
    (work : Work N W) : worksOf u (works ++ [(t, work)]) = worksOf u works := by
  simp [worksOf, Ne.symm h]

/-! ### The invariant -/

/-- The view has all clears of the flag, and all accesses. -/
structure Covers (msgs : List (Message Unit Bool)) (cells : N → Cell W) (v : View Unit) : Prop where
  clears : ∀ m ∈ msgs, m.value = false → m.hi ≤ v (.inl ())
  knows : ∀ x, v.Knows (cells x).accesses

/-- A message that `test_and_set` finds clear. -/
def Clear (msgs : List (Message Unit Bool)) (m : Message Unit Bool) : Prop :=
  m ∈ msgs ∧ m.value = false ∧ Last msgs m

/-- **The right to lock** is with the only clear message, or with the only thread that has the
lock, and all is covered there.  In `order` are the works that were locked for. -/
inductive Phase [DecidableEq N] (init : N → W) (order : List (Nat × Work N W))
    (msgs : List (Message Unit Bool)) (cells : N → Cell W)
    (threads : List (Thread Unit (Place N W))) :
    Prop
  | free (msg : Message Unit Bool) : Clear msgs msg → (∀ m, Clear msgs m → m = msg) →
      (∀ m ∈ msgs, m.hi ≤ msg.hi) → Covers msgs cells msg.view →
      (∀ (u : Nat) w, threads[u]? = some w → w.place.isLocked = false) →
      (fun x => (cells x).value) = runAll order init → Phase init order msgs cells threads
  | held (t : Nat) (th : Thread Unit (Place N W)) (work : Work N W) (works : List (Work N W)) :
      threads[t]? = some th → th.place = .locked work works →
      (∀ (u : Nat) w, threads[u]? = some w → u ≠ t → w.place.isLocked = false) →
      (∀ m, ¬Clear msgs m) → Covers msgs cells th.view →
      work.run (fun x => (cells x).value) = runAll order init →
      Phase init order msgs cells threads

/-- The works that are in `order` and those that are left are all works. -/
structure Ordered (works : List (List (Work N W))) (order : List (Nat × Work N W))
    (threads : List (Thread Unit (Place N W))) : Prop where
  size : threads.length = works.length
  all : ∀ t th, threads[t]? = some th → works[t]? = some (worksOf t order ++ th.place.left)
  lt : ∀ work ∈ order, work.1 < works.length

/-- What the threads know are places of messages, and each message is right behind another one,
up to those that clear the flag. -/
structure Messages (msgs : List (Message Unit Bool)) (threads : List (Thread Unit (Place N W))) :
    Prop where
  rooms : Rooms msgs
  sets : ∀ m ∈ msgs, m.value = true → ∃ m' ∈ msgs, m'.hi = m.lo
  views : ∀ m ∈ msgs, m.view (.inl ()) ≤ m.hi
  bound : ∀ th ∈ threads, ∃ m ∈ msgs, th.view (.inl ()) ≤ m.hi

structure Inv [DecidableEq N] (init : N → W) (works : List (List (Work N W)))
    (order : List (Nat × Work N W)) (m : Memory Unit N Bool W)
    (threads : List (Thread Unit (Place N W))) : Prop where
  raced : m.raced = false
  messages : Messages (m.history ()) threads
  ordered : Ordered works order threads
  phase : Phase init order (m.history ()) m.cells threads

section Steps

variable {init : N → W} {works : List (List (Work N W))} {order : List (Nat × Work N W)}
  {msgs : List (Message Unit Bool)} {msg msg' : Message Unit Bool} {cells : N → Cell W}
  {threads : List (Thread Unit (Place N W))} {th th' : Thread Unit (Place N W)} {t : Nat}

theorem Ordered.set (h : Ordered works order threads) (hth : threads[t]? = some th)
    (hleft : th'.place.left = th.place.left) : Ordered works order (threads.set t th') := by
  refine ⟨(List.length_set ..).trans h.size, ?_, h.lt⟩
  intro u w hw
  rcases getElem?_set_cases hw with ⟨rfl, rfl⟩ | ⟨-, hw⟩
  · rw [hleft]
    exact h.all u th hth
  · exact h.all u w hw

theorem Ordered.lock (h : Ordered works order threads) (hth : threads[t]? = some th)
    {work : Work N W} (hleft : th.place.left = work :: th'.place.left) :
    Ordered works (order ++ [(t, work)]) (threads.set t th') := by
  refine ⟨(List.length_set ..).trans h.size, ?_, ?_⟩
  · intro u w hw
    rcases getElem?_set_cases hw with ⟨rfl, rfl⟩ | ⟨hne, hw⟩
    · rw [worksOf_append_self, List.append_assoc, List.singleton_append, ← hleft]
      exact h.all u th hth
    · rw [worksOf_append_of_ne hne]
      exact h.all u w hw
  · intro e he
    rcases List.mem_append.mp he with he | he
    · exact h.lt e he
    · rw [List.mem_singleton.mp he, ← h.size]
      exact (List.getElem?_eq_some_iff.mp hth).1

/-- A message that sets the flag again is behind one that had set it. -/
theorem clear_set_iff (hrooms : Rooms msgs) (hmsg : msg ∈ msgs) (hset : msg.value = true)
    (hvalue : msg'.value = true) (hlo : msg'.lo = msg.hi) (m : Message Unit Bool) :
    Clear (msg' :: msgs) m ↔ Clear msgs m := by
  constructor
  · rintro ⟨hm, hfalse, hlast⟩
    rcases List.mem_cons.mp hm with rfl | hm
    · simp [hvalue] at hfalse
    · exact ⟨hm, hfalse, fun m' hm' => hlast m' (List.mem_cons_of_mem _ hm')⟩
  · rintro ⟨hm, hfalse, hlast⟩
    refine ⟨List.mem_cons_of_mem _ hm, hfalse, ?_⟩
    intro m' hm'
    rcases List.mem_cons.mp hm' with rfl | hm'
    · intro hhi
      obtain rfl := hrooms.eq_of_hi hmsg hm (hlo.symm.trans hhi)
      simp [hset] at hfalse
    · exact hlast m' hm'

theorem Covers.set {v : View Unit} (h : Covers msgs cells v) (hvalue : msg'.value = true) :
    Covers (msg' :: msgs) cells v := by
  refine ⟨?_, h.knows⟩
  intro m hm hfalse
  rcases List.mem_cons.mp hm with rfl | hm
  · simp [hvalue] at hfalse
  · exact h.clears m hm hfalse

theorem Covers.mono {v v' : View Unit} (h : Covers msgs cells v) (hle : v ≤ v') :
    Covers msgs cells v' :=
  ⟨fun m hm hfalse => le_trans (h.clears m hm hfalse) (hle _), fun x => (h.knows x).mono hle⟩

theorem Messages.set (h : Messages msgs threads)
    (hbound : ∃ m ∈ msgs, th'.view (.inl ()) ≤ m.hi) : Messages msgs (threads.set t th') := by
  refine ⟨h.rooms, h.sets, h.views, ?_⟩
  intro w hw
  rcases List.mem_or_eq_of_mem_set hw with hw | rfl
  · exact h.bound w hw
  · exact hbound

theorem Messages.cons (h : Messages msgs threads) (hlt : msg'.lo < msg'.hi)
    (hapart : ∀ m ∈ msgs, m.Apart msg'.lo msg'.hi)
    (hset : msg'.value = true → ∃ m ∈ msgs, m.hi = msg'.lo)
    (hview : msg'.view (.inl ()) ≤ msg'.hi) :
    Messages (msg' :: msgs) threads := by
  refine ⟨h.rooms.cons hlt hapart, ?_, ?_, ?_⟩
  · intro m hm hvalue
    rcases List.mem_cons.mp hm with rfl | hm
    · exact (hset hvalue).imp fun m hm => ⟨List.mem_cons_of_mem _ hm.1, hm.2⟩
    · exact (h.sets m hm hvalue).imp fun m hm => ⟨List.mem_cons_of_mem _ hm.1, hm.2⟩
  · intro m hm
    rcases List.mem_cons.mp hm with rfl | hm
    · exact hview
    · exact h.views m hm
  · intro w hw
    exact (h.bound w hw).imp fun m hm => ⟨List.mem_cons_of_mem _ hm.1, hm.2⟩

variable [DecidableEq N]

theorem Phase.set (h : Phase init order msgs cells threads) (hth : threads[t]? = some th)
    (hout : th.place.isLocked = false) (hout' : th'.place.isLocked = false) :
    Phase init order msgs cells (threads.set t th') := by
  cases h with
  | free f hclear huniq htop hcovers hfree hcontents =>
    refine .free f hclear huniq htop hcovers ?_ hcontents
    intro u w hw
    rcases getElem?_set_cases hw with ⟨rfl, rfl⟩ | ⟨-, hw⟩
    · exact hout'
    · exact hfree u w hw
  | held u w work works hw hplace hothers hnone hcovers hrun =>
    have hne : u ≠ t := by
      rintro rfl
      obtain rfl := Option.some.inj (hth.symm.trans hw)
      rw [hplace] at hout
      cases hout
    refine .held u w work works ?_ hplace ?_ hnone hcovers hrun
    · rw [List.getElem?_set_ne hne.symm]
      exact hw
    · intro u' w' hw' hne'
      rcases getElem?_set_cases hw' with ⟨rfl, rfl⟩ | ⟨-, hw'⟩
      · exact hout'
      · exact hothers u' w' hw' hne'

/-- **The flag is set again**: nothing is changed by it. -/
theorem Phase.fail (h : Phase init order msgs cells threads) (hrooms : Rooms msgs)
    (hmsg : msg ∈ msgs) (hset : msg.value = true) (hvalue : msg'.value = true)
    (hlo : msg'.lo = msg.hi) (hapart : ∀ m ∈ msgs, m.Apart msg'.lo msg'.hi) :
    Phase init order (msg' :: msgs) cells threads := by
  have hiff := clear_set_iff hrooms hmsg hset hvalue hlo
  cases h with
  | free f hclear huniq htop hcovers hfree hcontents =>
    refine .free f ((hiff f).mpr hclear) (fun m hm => huniq m ((hiff m).mp hm)) ?_
      (hcovers.set hvalue) hfree hcontents
    intro m hm
    rcases List.mem_cons.mp hm with rfl | hm
    · have hle := htop msg hmsg
      have hlt := hrooms.lt f hclear.1
      rcases hapart f hclear.1 with h | h
      · obtain rfl := hrooms.eq_of_hi hmsg hclear.1 (by omega)
        exact absurd hclear.2.1 (by simp [hset])
      · omega
    · exact htop m hm
  | held u w work works hw hplace hothers hnone hcovers hrun =>
    exact .held u w work works hw hplace hothers (fun m hm => hnone m ((hiff m).mp hm))
      (hcovers.set hvalue) hrun

/-- **The flag is set**: the right to lock goes on to the thread. -/
theorem Phase.acquire (h : Phase init order msgs cells threads) (hclear : Clear msgs msg)
    (hvalue : msg'.value = true) (hlo : msg'.lo = msg.hi) (hth : threads[t]? = some th)
    {work : Work N W} {ws : List (Work N W)} (hplace : th'.place = .locked work ws)
    (hview : msg.view ≤ th'.view) :
    Phase init (order ++ [(t, work)]) (msg' :: msgs) cells (threads.set t th') := by
  cases h with
  | free f hf huniq htop hcovers hfree hcontents =>
    obtain rfl := huniq msg hclear
    refine .held t th' work ws (getElem?_set_of_some hth _) hplace ?_ ?_
      ((hcovers.mono hview).set hvalue) ?_
    · intro u w hw hne
      rcases getElem?_set_cases hw with ⟨rfl, -⟩ | ⟨-, hw⟩
      · exact absurd rfl hne
      · exact hfree u w hw
    · rintro m ⟨hm, hfalse, hlast⟩
      rcases List.mem_cons.mp hm with rfl | hm
      · simp [hvalue] at hfalse
      · obtain rfl := huniq m ⟨hm, hfalse, fun m' hm' => hlast m' (List.mem_cons_of_mem _ hm')⟩
        exact hlast msg' (List.mem_cons_self ..) hlo
    · rw [hcontents, runAll, runAll, List.foldl_append]
      rfl
  | held u w work works hw hplace hothers hnone hcovers hrun => exact absurd hclear (hnone msg)

theorem Phase.of_locked (h : Phase init order msgs cells threads) (hth : threads[t]? = some th)
    {work : Work N W} {ws : List (Work N W)} (hplace : th.place = .locked work ws) :
    (∀ (u : Nat) w, threads[u]? = some w → u ≠ t → w.place.isLocked = false) ∧
      (∀ m, ¬Clear msgs m) ∧ Covers msgs cells th.view ∧
      work.run (fun x => (cells x).value) = runAll order init := by
  cases h with
  | free f hf huniq htop hcovers hfree hcontents =>
    have hout := hfree t th hth
    rw [hplace] at hout
    cases hout
  | held u w work works hw hplace' hothers hnone hcovers hrun =>
    obtain rfl : t = u := by
      by_contra hne
      have hout := hothers t th hth hne
      rw [hplace] at hout
      cases hout
    obtain rfl := Option.some.inj (hth.symm.trans hw)
    obtain ⟨rfl, rfl⟩ := Place.locked.inj (hplace.symm.trans hplace')
    exact ⟨hothers, hnone, hcovers, hrun⟩

theorem Phase.access (h : Phase init order msgs cells threads) (hth : threads[t]? = some th)
    {work work' : Work N W} {ws : List (Work N W)} (hplace : th.place = .locked work ws)
    (hplace' : th'.place = .locked work' ws) (hview : th'.view = th.view.tick t) (x : N) {w : W}
    (writes : Bool)
    (hrun : work'.run (Function.update (fun y => (cells y).value) x w)
      = work.run fun y => (cells y).value) :
    Phase init order msgs
      (Function.update cells x ⟨w, ⟨t, th.view (.inr t) + 1, writes⟩ :: (cells x).accesses⟩)
      (threads.set t th') := by
  obtain ⟨hothers, hnone, hcovers, hall⟩ := h.of_locked hth hplace
  refine .held t th' work' ws (getElem?_set_of_some hth _) hplace' ?_ hnone ?_ ?_
  · intro u v hv hne
    rcases getElem?_set_cases hv with ⟨rfl, -⟩ | ⟨-, hv⟩
    · exact absurd rfl hne
    · exact hothers u v hv hne
  · rw [hview]
    refine ⟨hcovers.clears, ?_⟩
    intro y
    by_cases hy : y = x
    · rw [hy, Function.update_self]
      exact (hcovers.knows x).tick t writes
    · rw [Function.update_of_ne hy]
      exact (hcovers.knows y).mono (th.view.le_tick t)
  · rw [← hall, ← hrun]
    congr 1
    funext y
    by_cases hy : y = x
    · rw [hy, Function.update_self, Function.update_self]
    · rw [Function.update_of_ne hy, Function.update_of_ne hy]

/-- While a thread has the lock, the messages that it does not know are in front of each other:
there is no room for a clear in front of one. -/
theorem hi_le_of_covers {lo hi : Nat} (hrooms : Rooms msgs)
    (hsets : ∀ m ∈ msgs, m.value = true → ∃ m' ∈ msgs, m'.hi = m.lo)
    (hclears : ∀ m ∈ msgs, m.value = false → m.hi ≤ lo)
    (hapart : ∀ m ∈ msgs, m.Apart lo hi) (hlt : lo < hi) : ∀ m ∈ msgs, m.hi ≤ lo := by
  have hfront : ∀ n, ∀ m ∈ msgs, m.lo ≤ n → m.hi ≤ lo := by
    intro n
    induction n with
    | zero =>
      intro m hm hle
      rcases hapart m hm with h | h
      · exact h
      · omega
    | succ n ih =>
      intro m hm hle
      rcases hapart m hm with h | h
      · exact h
      · cases hvalue : m.value with
        | false => exact hclears m hm hvalue
        | true =>
          -- the message behind it would be one more
          obtain ⟨m', hm', hhi⟩ := hsets m hm hvalue
          have hlt' := hrooms.lt m' hm'
          have := ih m' hm' (by omega)
          omega
  intro m hm
  exact hfront m.lo m hm le_rfl

/-- **The flag is cleared**: the right to lock goes on to the message. -/
theorem Phase.release (h : Phase init order msgs cells threads) (hrooms : Rooms msgs)
    (hsets : ∀ m ∈ msgs, m.value = true → ∃ m' ∈ msgs, m'.hi = m.lo)
    (hth : threads[t]? = some th) {ws : List (Work N W)} (hplace : th.place = .locked .done ws)
    (hout : th'.place.isLocked = false) (hvalue : msg'.value = false)
    (hle : th.view (.inl ()) ≤ msg'.lo) (hlt : msg'.lo < msg'.hi)
    (hapart : ∀ m ∈ msgs, m.Apart msg'.lo msg'.hi)
    (hview : msg'.view = th.view ⊔ .upTo () msg'.hi) :
    Phase init order (msg' :: msgs) cells (threads.set t th') := by
  obtain ⟨hothers, hnone, hcovers, hall⟩ := h.of_locked hth hplace
  have htop : ∀ m ∈ msgs, m.hi ≤ msg'.lo :=
    hi_le_of_covers hrooms hsets (fun m hm hfalse => le_trans (hcovers.clears m hm hfalse) hle)
      hapart hlt
  refine .free msg' ⟨List.mem_cons_self .., hvalue, ?_⟩ ?_ ?_ ⟨?_, ?_⟩ ?_ hall
  · intro m hm
    rcases List.mem_cons.mp hm with rfl | hm
    · omega
    · have := htop m hm
      have := hrooms.lt m hm
      omega
  · rintro m ⟨hm, hfalse, hlast⟩
    rcases List.mem_cons.mp hm with rfl | hm
    · rfl
    · exact absurd ⟨hm, hfalse, fun m' hm' => hlast m' (List.mem_cons_of_mem _ hm')⟩ (hnone m)
  · intro m hm
    rcases List.mem_cons.mp hm with rfl | hm
    · exact le_rfl
    · have := htop m hm
      omega
  · intro m hm hfalse
    rw [hview, Pi.sup_apply, View.upTo_self]
    rcases List.mem_cons.mp hm with rfl | hm
    · exact le_sup_right
    · exact le_trans (hcovers.clears m hm hfalse) le_sup_left
  · intro x
    rw [hview]
    exact (hcovers.knows x).mono le_sup_left
  · intro u w hw
    rcases getElem?_set_cases hw with ⟨rfl, rfl⟩ | ⟨hne, hw⟩
    · exact hout
    · exact hothers u w hw hne

variable {m m' : Memory Unit N Bool W} {c : Act}

theorem inv_step (h : Inv init works order m threads) (hth : threads[c.thread]? = some th)
    (hp : perform m th c (op c.thread th.place) = some (m', th')) :
    ∃ order', Inv init works order' m' (threads.set c.thread th') := by
  cases hplace : th.place with
  | lock work ws =>
    rw [hplace, op] at hp
    obtain ⟨msg, hmsg, hle, hlt, hapart, rfl, rfl⟩ := update_cases hp
    have hviews := h.messages.views msg hmsg
    have hnew : Messages (⟨true, msg.hi, c.hi, msg.view ⊔ (th.view ⊔ .upTo () c.hi ⊔ msg.view)⟩ ::
        m.history ()) threads :=
      h.messages.cons hlt hapart (fun _ => ⟨msg, hmsg, rfl⟩) (by simp; omega)
    have hview : (th.view ⊔ .upTo () c.hi ⊔ msg.view) (.inl ()) ≤ c.hi := by
      simp
      omega
    have hout : th.place.isLocked = false := by
      rw [hplace]
      rfl
    cases hvalue : msg.value with
    | true =>
      refine ⟨order, h.raced, ?_, h.ordered.set hth (by rw [hplace]; rfl), ?_⟩
      · rw [post_history_self]
        exact hnew.set ⟨_, List.mem_cons_self .., hview⟩
      · rw [post_history_self]
        exact (h.phase.fail h.messages.rooms hmsg hvalue rfl rfl hapart).set hth hout rfl
    | false =>
      refine
        ⟨order ++ [(c.thread, work)], h.raced, ?_, h.ordered.lock hth (by rw [hplace]; rfl), ?_⟩
      · rw [post_history_self]
        exact hnew.set ⟨_, List.mem_cons_self .., hview⟩
      · rw [post_history_self]
        exact h.phase.acquire ⟨hmsg, hvalue, h.messages.rooms.last_of_apart hlt hapart⟩ rfl rfl hth
          rfl le_sup_right
  | locked work ws =>
    have hbound := h.messages.bound th (List.mem_of_getElem? hth)
    obtain ⟨-, -, hcovers, -⟩ := h.phase.of_locked hth hplace
    cases work with
    | done =>
      rw [hplace, op] at hp
      obtain ⟨hle, hlt, hapart, rfl, rfl⟩ := store_cases hp
      refine ⟨order, h.raced, ?_, h.ordered.set hth (by rw [hplace]; exact next_left ws), ?_⟩
      · rw [post_history_self]
        have hnew : Messages (⟨false, c.lo, c.hi, th.view ⊔ .upTo () c.hi⟩ :: m.history ())
            threads := h.messages.cons hlt hapart nofun (by simp; omega)
        exact hnew.set ⟨_, List.mem_cons_self .., by simp; omega⟩
      · rw [post_history_self]
        exact h.phase.release h.messages.rooms h.messages.sets hth hplace (next_isLocked ws) rfl hle
          hlt hapart rfl
    | read x k =>
      rw [hplace, op] at hp
      rcases read_cases hp with ⟨-, rfl, rfl⟩ | ⟨hrace, -, -⟩
      · refine ⟨order, h.raced, h.messages.set hbound, h.ordered.set hth (by rw [hplace]; rfl),
          h.phase.access hth hplace rfl rfl x false ?_⟩
        rw [Function.update_eq_self_iff.mpr rfl]
        rfl
      · exact absurd ((hcovers.knows x).filter _) hrace
    | write x w rest =>
      rw [hplace, op] at hp
      rcases write_cases hp with ⟨-, rfl, rfl⟩ | ⟨hrace, -, -⟩
      · exact ⟨order, h.raced, h.messages.set hbound, h.ordered.set hth (by rw [hplace]; rfl),
          h.phase.access hth hplace rfl rfl x true rfl⟩
      · exact absurd (hcovers.knows x) hrace
  | exit =>
    rw [hplace, op] at hp
    obtain ⟨rfl, rfl⟩ := exit_cases hp
    exact ⟨order, h.raced, h.messages.set (h.messages.bound th (List.mem_of_getElem? hth)),
      h.ordered.set hth (by rw [hplace]; rfl), h.phase.set hth (by rw [hplace]; rfl) rfl⟩
  | ended =>
    rw [hplace, op] at hp
    cases hp

theorem inv_init (init : N → W) (works : List (List (Work N W))) :
    Inv init works [] (memory init) (program init works).init.threads := by
  have hthread : ∀ {t : Nat} {th : Thread Unit (Place N W)},
      (program init works).init.threads[t]? = some th →
        ∃ ws, works[t]? = some ws ∧ th = { place := next ws } := by
    intro t th hth
    simp only [program, system, List.getElem?_map, Option.map_map] at hth
    obtain ⟨ws, hws, rfl⟩ := Option.map_eq_some_iff.mp hth
    exact ⟨ws, hws, rfl⟩
  refine ⟨rfl, ⟨rooms_singleton (by decide), ?_, ?_, ?_⟩, ⟨?_, ?_, nofun⟩, ?_⟩
  · intro m hm hvalue
    rw [List.mem_singleton.mp hm] at hvalue
    cases hvalue
  · intro m hm
    rw [List.mem_singleton.mp hm]
    exact le_rfl
  · intro th hth
    obtain ⟨t, ht⟩ := List.mem_iff_getElem?.mp hth
    obtain ⟨ws, -, rfl⟩ := hthread ht
    exact ⟨_, List.mem_singleton.mpr rfl, Nat.zero_le _⟩
  · simp [program, system]
  · intro t th hth
    obtain ⟨ws, hws, rfl⟩ := hthread hth
    rw [hws, next_left]
    rfl
  · refine .free _ ⟨List.mem_singleton.mpr rfl, rfl, ?_⟩ ?_ ?_
      ⟨?_, fun x e he => nomatch he⟩ ?_ rfl
    · intro m hm
      rw [List.mem_singleton.mp hm]
      decide
    · rintro m ⟨hm, -, -⟩
      exact List.mem_singleton.mp hm
    · intro m hm
      rw [List.mem_singleton.mp hm]
    · intro m hm _
      rw [List.mem_singleton.mp hm]
      exact le_rfl
    · intro u w hw
      obtain ⟨ws, -, rfl⟩ := hthread hw
      exact next_isLocked ws

theorem inv {s : State Unit N Bool W (Place N W)} (hs : (program init works).Reachable s) :
    ∃ order, Inv init works order s.memory s.threads := by
  refine hs.invariant ⟨[], inv_init init works⟩ ?_
    (I := fun s => ∃ order, Inv init works order s.memory s.threads)
  rintro s c s' ⟨order, h⟩ - hst
  obtain ⟨-, th, m, th', hth, hp, rfl⟩ := step_cases hst
  exact inv_step h hth hp

end Steps

/-! ### Every run can be brought to an end -/

section Progress

/-- What a thread has to do before its end. -/
def Place.ahead : Place N W → Nat
  | .lock _ works => 2 * works.length + 3
  | .locked _ works => 2 * works.length + 2
  | .exit => 1
  | .ended => 0

theorem next_ahead_lt (ws : List (Work N W)) : (next ws).ahead < 2 * ws.length + 2 := by
  cases ws with
  | nil => exact Nat.one_lt_two
  | cons work ws =>
    rw [next, Place.ahead, List.length_cons]
    omega

theorem ahead_lt {th th' : Thread Unit (Place N W)} {threads : List (Thread Unit (Place N W))}
    {t : Nat} (hth : threads[t]? = some th) (hlt : th'.place.ahead < th.place.ahead) :
    ((threads.set t th').map fun th => th.place.ahead).sum
      < (threads.map fun th => th.place.ahead).sum := by
  obtain ⟨r, hr, hset⟩ := exists_rest (fun th : Thread Unit (Place N W) => th.place.ahead) hth
  rw [hr, hset]
  omega

variable [DecidableEq N] {init : N → W} {works : List (List (Work N W))}
  {s : State Unit N Bool W (Place N W)} {th : Thread Unit (Place N W)} {t : Nat}

/-- Who has the lock can do its work and unlock. -/
theorem leads_unlocked {work : Work N W} {ws : List (Work N W)}
    (hs : (program init works).Reachable s) (hth : s.threads[t]? = some th)
    (hplace : th.place = .locked work ws) :
    (program init works).Leads s fun s' =>
      ∃ th', s'.threads = s.threads.set t th' ∧ th'.place = next ws := by
  induction work generalizing s th with
  | done =>
    obtain ⟨order, h⟩ := inv hs
    obtain ⟨top, hle, htop⟩ := exists_hi_le (s.memory.history ()) (th.view (.inl ()))
    have hstep : (program init works).step s ⟨t, 0, top, top + 1⟩ = _ :=
      step_of_perform h.raced hth (by
        rw [hplace, op, perform, if_pos ⟨hle, Nat.lt_succ_self _, fun m hm => .inl (htop m hm)⟩])
    exact .step _ hstep (.here ⟨_, rfl, rfl⟩)
  | read x k ih =>
    obtain ⟨order, h⟩ := inv hs
    obtain ⟨-, -, hcovers, -⟩ := h.phase.of_locked hth hplace
    have hknows : (th.seen false).Knows ((s.memory.cells x).accesses.filter Access.writes) :=
      (hcovers.knows x).filter _
    have hstep : (program init works).step s ⟨t, 0, 0, 0⟩ = _ :=
      step_of_perform h.raced hth (by rw [hplace, op, perform, if_pos hknows])
    refine .step _ hstep ?_
    obtain ⟨cs, s', hrun, th', hset, hnext⟩ := ih _ (.step hs trivial hstep)
      (getElem?_set_of_some hth _) rfl
    exact ⟨cs, s', hrun, th', by rw [hset, List.set_set], hnext⟩
  | write x w rest ih =>
    obtain ⟨order, h⟩ := inv hs
    obtain ⟨-, -, hcovers, -⟩ := h.phase.of_locked hth hplace
    have hstep : (program init works).step s ⟨t, 0, 0, 0⟩ = _ :=
      step_of_perform h.raced hth (by rw [hplace, op, perform, if_pos (hcovers.knows x)])
    refine .step _ hstep ?_
    obtain ⟨cs, s', hrun, th', hset, hnext⟩ := ih (.step hs trivial hstep)
      (getElem?_set_of_some hth _) rfl
    exact ⟨cs, s', hrun, th', by rw [hset, List.set_set], hnext⟩

theorem exists_step {order : List (Nat × Work N W)} (h : Inv init works order s.memory s.threads)
    (hfree : ∀ (u : Nat) w, s.threads[u]? = some w → w.place.isLocked = false)
    (hth : s.threads[t]? = some th) (hplace : th.place ≠ .ended) :
    ∃ c s' th', (program init works).step s c = some s' ∧ s'.threads = s.threads.set t th' ∧
      ((∃ work ws, th.place = .lock work ws ∧ th'.place = .locked work ws) ∨
        th.place = .exit ∧ th'.place = .ended) := by
  cases hp : th.place with
  | lock work ws =>
    cases h.phase with
    | held u w work works hw hplace' =>
      have hout := hfree u w hw
      rw [hplace'] at hout
      cases hout
    | free f hclear huniq htop hcovers hfree' hcontents =>
      obtain ⟨n, hn⟩ := List.mem_iff_getElem?.mp hclear.1
      obtain ⟨m, hm, hle⟩ := h.messages.bound th (List.mem_of_getElem? hth)
      have hapart := h.messages.rooms.apart_of_last hclear.1 hclear.2.2
      have hstep : (program init works).step s ⟨t, n, 0, f.hi + 1⟩ = _ :=
        step_of_perform h.raced hth (by
          rw [hp, op, perform, hn, Option.bind_some,
            if_pos ⟨le_trans hle (htop m hm), Nat.lt_succ_self _, hapart⟩])
      refine ⟨_, _, _, hstep, rfl, .inl ⟨work, ws, rfl, ?_⟩⟩
      show (if f.value = true then _ else _) = _
      rw [hclear.2.1]
      rfl
  | locked work ws =>
    have hout := hfree t th hth
    rw [hp] at hout
    cases hout
  | exit =>
    have hstep : (program init works).step s ⟨t, 0, 0, 0⟩ = _ :=
      step_of_perform h.raced hth (by rw [hp, op, perform])
    exact ⟨_, _, _, hstep, rfl, .inr ⟨rfl, rfl⟩⟩
  | ended => exact absurd hp hplace

/-- **From every state some run leads to the end.** -/
theorem leads_ended {n : Nat} (hs : (program init works).Reachable s)
    (hn : (s.threads.map fun th => th.place.ahead).sum ≤ n) :
    (program init works).Leads s fun s' => ∀ th ∈ s'.threads, th.place = .ended := by
  induction n generalizing s with
  | zero =>
    refine .here ?_
    intro th hth
    obtain ⟨t, ht⟩ := List.mem_iff_getElem?.mp hth
    obtain ⟨r, hr, -⟩ := exists_rest (fun th : Thread Unit (Place N W) => th.place.ahead) ht
    have hzero : th.place.ahead = 0 := by omega
    cases hp : th.place with
    | ended => rfl
    | _ =>
      rw [hp] at hzero
      cases hzero
  | succ n ih =>
    obtain ⟨order, h⟩ := inv hs
    by_cases hlocked : ∃ (t : Nat) (th : Thread Unit (Place N W)) (work : Work N W)
        (ws : List (Work N W)), s.threads[t]? = some th ∧ th.place = .locked work ws
    · obtain ⟨t, th, work, ws, hth, hplace⟩ := hlocked
      refine (leads_unlocked hs hth hplace).trans hs ?_
      rintro s' hs' ⟨th', hset, hnext⟩
      apply ih hs'
      have hlt : th'.place.ahead < th.place.ahead := by
        rw [hplace, hnext]
        exact next_ahead_lt ws
      have := ahead_lt hth hlt
      rw [hset]
      omega
    · have hfree : ∀ (u : Nat) w, s.threads[u]? = some w → w.place.isLocked = false := by
        intro u w hw
        cases hp : w.place with
        | locked work ws => exact absurd ⟨u, w, work, ws, hw, hp⟩ hlocked
        | _ => rfl
      by_cases hend : ∀ th ∈ s.threads, th.place = .ended
      · exact .here hend
      · obtain ⟨th, hmem, hne⟩ := by simpa using hend
        obtain ⟨t, hth⟩ := List.mem_iff_getElem?.mp hmem
        obtain ⟨c, s', th', hstep, hset, hmove⟩ := exists_step h hfree hth hne
        refine .step c hstep (ih (.step hs trivial hstep) ?_)
        have hlt : th'.place.ahead < th.place.ahead := by
          rcases hmove with ⟨work, ws, hp, hp'⟩ | ⟨hp, hp'⟩
          · rw [hp, hp']
            exact Nat.lt_succ_self _
          · rw [hp, hp']
            exact Nat.one_pos
        have := ahead_lt hth hlt
        rw [hset]
        omega

end Progress

/-! ### The works are done one after the other -/

section Serializes

variable [DecidableEq N]

end Serializes

end Cpp20Examples.MemoryOrders.SpinLock
