import Cpp20Examples.Lib.WeakMemory
import Cpp20Examples.Concurrency.Summation.SumUp

/-!
# Relaxed counters

`relaxed`, `synchroniuationWithFetchAddRelaxed` and `localVariableAtomicRelaxed` add to one
atomic object with `fetch_add(x, memory_order_relaxed)`; `main` joins the threads and loads
the object.  The load is sequentially consistent, here it is an acquire, which is less.

A read-modify-write takes the place right behind the message that it reads, so the messages
of the object are a chain, and the newest one is the only one that can still be read by a
`fetch_add`.  What `main` knows behind the joins makes it read that one too.

* `Attached`: the messages are a chain.
* `Inv`: what the newest message and the threads have together.
* `counted`: every run ends, and prints the sum of all addends.
-/

namespace Cpp20Examples.MemoryOrders.Counter

open Lib Lib.WeakMemory

variable {V : Type}

/-! ### The program -/

/-- Where a thread is, that adds `addends`, or that joins the threads `rest` as `main` does. -/
inductive Place (V : Type)
  | add (addends : List V)
  | ended
  | join (rest : List Nat)
  | printed (v : V)

section Program

variable [AddCommMonoid V]

def op (_ : Nat) : Place V → Op Unit Empty V Unit (Place V)
  | .add (x :: addends) => .update .relaxed () (· + x) fun _ => .add addends
  | .add [] => .exit .ended
  | .ended => .stop
  | .join (u :: rest) => .join u (.join rest)
  | .join [] => .load .acquire () .printed
  | .printed _ => .stop

def memory : Memory Unit Empty V Unit where
  history _ := [{ value := 0 }]
  cells := nofun

/-- A thread for each list of addends, and `main` behind them. -/
def program (adders : List (List V)) : System (State Unit Empty V Unit (Place V)) Act :=
  system op memory (adders.map .add ++ [.join (List.range adders.length)])

end Program

/-- `add` of `relaxed` -/
def Relaxed.add : List (BitVec 32) := List.replicate 1000 1

/-- `sumUp` of `synchroniuationWithFetchAddRelaxed` -/
def FetchAddRelaxed.sumUp (val : List Int32) (call : Summation.Chunk) : List Summation.ULL :=
  ((val.take call.end_).drop call.beg).map Summation.toULL

/-- `sumUp` of `localVariableAtomicRelaxed` -/
def AtomicRelaxed.sumUp (val : List Int32) (call : Summation.Chunk) : List Summation.ULL :=
  [Summation.chunkSum val call]

/-! ### The messages -/

section Messages

variable {msg newest : Message Unit V} {older : List (Message Unit V)}

/-- Each message was attached to the one behind it. -/
def Attached (msgs : List (Message Unit V)) : Prop :=
  msgs.IsChain fun m n => m.lo = n.hi ∧ m.lo < m.hi

theorem Attached.hi_lt (h : Attached (newest :: older)) (hm : msg ∈ older) :
    msg.hi < newest.hi := by
  induction older generalizing newest with
  | nil => cases hm
  | cons m older ih =>
    obtain ⟨⟨hlo, hlt⟩, h⟩ := List.isChain_cons_cons.mp h
    rcases List.mem_cons.mp hm with rfl | hm
    · omega
    · have := ih h hm
      omega

/-- Something was attached to each message but the newest. -/
theorem Attached.exists_attached (h : Attached (newest :: older)) (hm : msg ∈ older) :
    ∃ m ∈ newest :: older, m.lo = msg.hi ∧ m.lo < m.hi := by
  induction older generalizing newest with
  | nil => cases hm
  | cons m older ih =>
    obtain ⟨hm', h⟩ := List.isChain_cons_cons.mp h
    rcases List.mem_cons.mp hm with rfl | hm
    · exact ⟨newest, List.mem_cons_self .., hm'⟩
    · obtain ⟨n, hn, hlo⟩ := ih h hm
      exact ⟨n, List.mem_cons_of_mem _ hn, hlo⟩

/-- Who knows the newest message reads it. -/
theorem Attached.eq_newest (h : Attached (newest :: older)) (hm : msg ∈ newest :: older)
    (hle : newest.hi ≤ msg.hi) : msg = newest := by
  rcases List.mem_cons.mp hm with rfl | hm
  · rfl
  · have := h.hi_lt hm
    omega

/-- **A read-modify-write reads the newest message.** -/
theorem Attached.update (h : Attached (newest :: older)) (hm : msg ∈ newest :: older) {hi : Nat}
    (hlt : msg.hi < hi) (hapart : ∀ m ∈ newest :: older, m.Apart msg.hi hi) : msg = newest := by
  rcases List.mem_cons.mp hm with rfl | hm
  · rfl
  · obtain ⟨m, hmem, hlo, hne⟩ := h.exists_attached hm
    exact ((hapart m hmem).false_of_attached hlo hne hlt).elim

end Messages

/-! ### The invariant -/

section Invariant

variable {adders : List (List V)} {s s' : State Unit Empty V Unit (Place V)} {c : Act}
  {th th' : Thread Unit (Place V)} {m : Memory Unit Empty V Unit} {t : Nat}

/-- The thread `u` has ended, and `view` has what it knew. -/
def Joined (s : State Unit Empty V Unit (Place V)) (view : View Unit) (u : Nat) : Prop :=
  ∃ th, s.threads[u]? = some th ∧ th.place = .ended ∧ th.view ≤ view

/-- A thread adds, or it has ended. -/
inductive Adds (s : State Unit Empty V Unit (Place V)) (u : Nat) (th : Thread Unit (Place V)) : Prop
  | add (addends : List V) : th.place = .add addends → s.memory.ended u = none → Adds s u th
  | ended : th.place = .ended → s.memory.ended u = some th.view → Adds s u th

theorem Joined.set {view : View Unit} {u : Nat} (h : Joined s view u)
    (hth : s.threads[t]? = some th)
    (hplace : th.place ≠ .ended) : Joined ⟨m, s.threads.set t th'⟩ view u := by
  obtain ⟨w, hw, hended, hle⟩ := h
  have hne : t ≠ u := by
    rintro rfl
    obtain rfl := Option.some.inj (hth.symm.trans hw)
    exact hplace hended
  exact ⟨w, by rw [List.getElem?_set_ne hne]; exact hw, hended, hle⟩

theorem Adds.congr {u : Nat} {w : Thread Unit (Place V)} (h : Adds s u w)
    (he : s'.memory.ended u = s.memory.ended u) : Adds s' u w := by
  cases h with
  | add xs hw hnone => exact .add xs hw (he.trans hnone)
  | ended hw hsome => exact .ended hw (he.trans hsome)

variable [AddCommMonoid V]

/-- What a thread has still to add. -/
def Place.left : Place V → V
  | .add addends => addends.sum
  | _ => 0

/-- The newest message: together with what is left to add it has the total, all threads know
at most this message, and the thread that wrote it does know it. -/
structure Newest (adders : List (List V)) (threads : List (Thread Unit (Place V)))
    (m : Message Unit V) : Prop where
  total : m.value + (threads.map fun th => th.place.left).sum = (adders.map List.sum).sum
  bound : ∀ th ∈ threads, th.view (.inl ()) ≤ m.hi
  own : m.view (.inl ()) ≤ m.hi
  known : m.hi = 0 ∨ ∃ u th, u < adders.length ∧ threads[u]? = some th ∧ m.hi ≤ th.view (.inl ())

/-- `main` joins the threads, and prints the total then. -/
inductive Main (adders : List (List V)) (s : State Unit Empty V Unit (Place V))
    (th : Thread Unit (Place V)) : Prop
  | join (rest : List Nat) : th.place = .join rest → (∀ u ∈ rest, u < adders.length) →
      (∀ u, u < adders.length → u ∉ rest → Joined s th.view u) → Main adders s th
  | printed : th.place = .printed (adders.map List.sum).sum → Main adders s th

structure Inv (adders : List (List V)) (s : State Unit Empty V Unit (Place V)) : Prop where
  chain : ∃ m older, s.memory.history () = m :: older ∧ Attached (m :: older) ∧
    Newest adders s.threads m
  adds : ∀ u th, u < adders.length → s.threads[u]? = some th → Adds s u th
  main : ∀ u th, adders.length ≤ u → s.threads[u]? = some th → Main adders s th
  size : s.threads.length = adders.length + 1
  raced : s.memory.raced = false

theorem inv_init (adders : List (List V)) : Inv adders (program adders).init := by
  have hthreads : (program adders).init.threads =
      adders.map (fun xs => { place := .add xs }) ++
        [{ place := .join (List.range adders.length) }] := by
    simp [program, system]
  refine ⟨⟨{ value := 0 }, [], rfl, .singleton _, ?_, ?_, Nat.le_refl 0, .inl rfl⟩, ?_, ?_, ?_, rfl⟩
  · rw [hthreads]
    simp [Place.left, Function.comp_def]
  · intro th hth
    rw [hthreads] at hth
    rcases List.mem_append.mp hth with hth | hth
    · obtain ⟨xs, -, rfl⟩ := List.mem_map.mp hth
      exact Nat.le_refl 0
    · rw [List.mem_singleton.mp hth]
      exact Nat.le_refl 0
  · intro u th hu hth
    rw [hthreads, List.getElem?_append_left (by simpa using hu), List.getElem?_map] at hth
    obtain ⟨xs, -, rfl⟩ := Option.map_eq_some_iff.mp hth
    exact .add xs rfl rfl
  · intro u th hu hth
    rw [hthreads, List.getElem?_append_right (by simpa using hu)] at hth
    rw [List.mem_singleton.mp (List.mem_of_getElem? hth)]
    refine .join _ rfl (fun u hu => List.mem_range.mp hu) ?_
    intro u hu hnot
    exact absurd (List.mem_range.mpr hu) hnot
  · rw [hthreads]
    simp

theorem Newest.set {threads : List (Thread Unit (Place V))} {m : Message Unit V}
    (h : Newest adders threads m) (hth : threads[t]? = some th)
    (hleft : th'.place.left = th.place.left) (hview : th.view ≤ th'.view)
    (hbound : th'.view (.inl ()) ≤ m.hi) : Newest adders (threads.set t th') m := by
  refine ⟨?_, ?_, h.own, ?_⟩
  · obtain ⟨r, hr, hset⟩ := exists_rest (fun th : Thread Unit (Place V) => th.place.left) hth
    rw [hset th', hleft, ← hr]
    exact h.total
  · intro w hw
    rcases List.mem_or_eq_of_mem_set hw with hw | rfl
    · exact h.bound w hw
    · exact hbound
  · refine h.known.imp_right ?_
    rintro ⟨u, w, hu, hw, hle⟩
    by_cases hut : u = t
    · subst hut
      obtain rfl := Option.some.inj (hth.symm.trans hw)
      exact ⟨u, th', hu, getElem?_set_of_some hth _, le_trans hle (hview _)⟩
    · exact ⟨u, w, hu, by rw [List.getElem?_set_ne (Ne.symm hut)]; exact hw, hle⟩

theorem Main.set {w : Thread Unit (Place V)} (h : Main adders s w) (hth : s.threads[t]? = some th)
    (hplace : th.place ≠ .ended) : Main adders ⟨m, s.threads.set t th'⟩ w := by
  cases h with
  | join rest hw hrest hjoined =>
    exact .join rest hw hrest fun u hu hnot => (hjoined u hu hnot).set hth hplace
  | printed hw => exact .printed hw

theorem inv_adder (h : Inv adders s) (hth : s.threads[c.thread]? = some th)
    (hu : c.thread < adders.length)
    (hp : perform s.memory th c (op c.thread th.place) = some (m, th')) :
    Inv adders ⟨m, s.threads.set c.thread th'⟩ := by
  obtain ⟨newest, older, hhist, hatt, hnewest⟩ := h.chain
  have hbound := hnewest.bound th (List.mem_of_getElem? hth)
  have hsize : (s.threads.set c.thread th').length = adders.length + 1 := by
    rw [List.length_set, h.size]
  cases h.adds c.thread th hu hth with
  | ended hplace _ =>
    rw [hplace, op] at hp
    cases hp
  | add addends hplace hnone =>
    have hne : th.place ≠ .ended := by
      rw [hplace]
      nofun
    have hmain : ∀ u w, adders.length ≤ u → (s.threads.set c.thread th')[u]? = some w →
        Main adders ⟨m, s.threads.set c.thread th'⟩ w := by
      intro u w hle hw
      rcases getElem?_set_cases hw with ⟨rfl, -⟩ | ⟨-, hw⟩
      · omega
      · exact (h.main u w hle hw).set hth hne
    cases addends with
    | nil =>
      rw [hplace, op] at hp
      obtain ⟨rfl, rfl⟩ := exit_cases hp
      refine ⟨⟨newest, older, hhist, hatt, hnewest.set hth ?_ le_rfl hbound⟩, ?_, hmain, hsize,
        h.raced⟩
      · rw [hplace]
        rfl
      · intro u w hu hw
        rcases getElem?_set_cases hw with ⟨rfl, rfl⟩ | ⟨hne, hw⟩
        · exact .ended rfl (Function.update_self ..)
        · exact (h.adds u w hu hw).congr (Function.update_of_ne hne ..)
    | cons x addends =>
      rw [hplace, op] at hp
      obtain ⟨msg, hmsg, hle, hlt, hapart, rfl, rfl⟩ := update_cases hp
      rw [hhist] at hmsg hapart
      obtain rfl := hatt.update hmsg hlt hapart
      refine
        ⟨⟨_, msg :: older, (post_history_self ..).trans (congrArg _ hhist), ?_, ?_, ?_, ?_, ?_⟩,
        ?_, hmain, hsize, h.raced⟩
      · exact .cons_cons ⟨rfl, hlt⟩ hatt
      · obtain ⟨r, hr, hset⟩ := exists_rest (fun th : Thread Unit (Place V) => th.place.left) hth
        have htotal := hnewest.total
        rw [hr, hplace, Place.left, List.sum_cons] at htotal
        rw [hset, ← htotal]
        simp only [Place.left, add_assoc]
      · intro w hw
        rcases List.mem_or_eq_of_mem_set hw with hw | rfl
        · exact le_trans (hnewest.bound w hw) (Nat.le_of_lt hlt)
        · simp only [Order.acquires, Pi.sup_apply, View.upTo_self]
          simp
          omega
      · have hown := hnewest.own
        simp only [Order.releases, Pi.sup_apply]
        simp
        omega
      · refine .inr ⟨c.thread, _, hu, getElem?_set_of_some hth _, ?_⟩
        simp
      · intro u w hu hw
        rcases getElem?_set_cases hw with ⟨rfl, rfl⟩ | ⟨hne, hw⟩
        · exact .add addends rfl hnone
        · exact (h.adds u w hu hw).congr rfl

/-- When all threads are joined, the newest message has the total, and `main` knows it. -/
theorem Newest.of_joined {newest : Message Unit V} (h : Newest adders s.threads newest)
    (hsize : s.threads.length = adders.length + 1) {w : Thread Unit (Place V)}
    (hw : s.threads[adders.length]? = some w) (hleft : w.place.left = 0)
    (hjoined : ∀ u, u < adders.length → Joined s w.view u) :
    newest.value = (adders.map List.sum).sum ∧ newest.hi ≤ w.view (.inl ()) := by
  have hzero : ∀ th ∈ s.threads, th.place.left = 0 := by
    intro th hth
    obtain ⟨u, hu⟩ := List.mem_iff_getElem?.mp hth
    have hlt := (List.getElem?_eq_some_iff.mp hu).1
    by_cases hun : u < adders.length
    · obtain ⟨th', hth', hended, -⟩ := hjoined u hun
      obtain rfl := Option.some.inj (hu.symm.trans hth')
      rw [hended]
      rfl
    · obtain rfl : u = adders.length := by omega
      obtain rfl := Option.some.inj (hu.symm.trans hw)
      exact hleft
  have hsum : (s.threads.map fun th => th.place.left).sum = 0 := by
    apply List.sum_eq_zero
    intro x hx
    obtain ⟨th, hth, rfl⟩ := List.mem_map.mp hx
    exact hzero th hth
  refine ⟨by rw [← h.total, hsum, add_zero], ?_⟩
  rcases h.known with h0 | ⟨u, th, hu, hth, hle⟩
  · rw [h0]
    exact Nat.zero_le _
  · obtain ⟨th', hth', -, hview⟩ := hjoined u hu
    obtain rfl := Option.some.inj (hth.symm.trans hth')
    exact le_trans hle (hview _)

theorem inv_main (h : Inv adders s) (hth : s.threads[c.thread]? = some th)
    (hu : adders.length ≤ c.thread)
    (hp : perform s.memory th c (op c.thread th.place) = some (m, th')) :
    Inv adders ⟨m, s.threads.set c.thread th'⟩ := by
  obtain ⟨newest, older, hhist, hatt, hnewest⟩ := h.chain
  have hbound := hnewest.bound th (List.mem_of_getElem? hth)
  have hsize : (s.threads.set c.thread th').length = adders.length + 1 := by
    rw [List.length_set, h.size]
  have hlast : c.thread = adders.length := by
    have := (List.getElem?_eq_some_iff.mp hth).1
    rw [h.size] at this
    omega
  have hadds : ∀ u w, u < adders.length → (s.threads.set c.thread th')[u]? = some w →
      Adds ⟨s.memory, s.threads.set c.thread th'⟩ u w := by
    intro u w hu hw
    rcases getElem?_set_cases hw with ⟨rfl, -⟩ | ⟨-, hw⟩
    · omega
    · exact (h.adds u w hu hw).congr rfl
  have hmain : th.place ≠ .ended → Main adders ⟨s.memory, s.threads.set c.thread th'⟩ th' →
      ∀ u w, adders.length ≤ u → (s.threads.set c.thread th')[u]? = some w →
        Main adders ⟨s.memory, s.threads.set c.thread th'⟩ w := by
    intro hne hmain u w hle hw
    rcases getElem?_set_cases hw with ⟨-, rfl⟩ | ⟨-, hw⟩
    · exact hmain
    · exact (h.main u w hle hw).set hth hne
  cases h.main c.thread th hu hth with
  | printed hplace =>
    rw [hplace, op] at hp
    cases hp
  | join rest hplace hrest hjoined =>
    have hne : th.place ≠ .ended := by
      rw [hplace]
      nofun
    have hleft : th.place.left = 0 := by
      rw [hplace]
      rfl
    cases rest with
    | nil =>
      rw [hplace, op] at hp
      obtain ⟨msg, hmsg, hle, rfl, rfl⟩ := load_cases hp
      obtain ⟨htotal, hknows⟩ := hnewest.of_joined h.size (hlast ▸ hth) hleft
        fun u hu => hjoined u hu List.not_mem_nil
      rw [hhist] at hmsg
      obtain rfl := hatt.eq_newest hmsg (le_trans hknows hle)
      refine ⟨⟨msg, older, hhist, hatt, hnewest.set hth hleft.symm ?_ ?_⟩, hadds,
        hmain hne (.printed (congrArg _ htotal)), hsize, h.raced⟩
      · exact le_trans le_sup_left le_sup_left
      · exact sup_le (sup_le hbound (Nat.le_of_eq (View.upTo_self ..))) hnewest.own
    | cons v rest =>
      rw [hplace, op] at hp
      obtain ⟨view, hview, rfl, rfl⟩ := join_cases hp
      have hv := hrest v (List.mem_cons_self ..)
      obtain ⟨w, hw⟩ : ∃ w, s.threads[v]? = some w :=
        ⟨_, List.getElem?_eq_getElem (by rw [h.size]; omega)⟩
      cases h.adds v w hv hw with
      | add _ _ hnone => cases hnone.symm.trans hview
      | ended hended hsome =>
        obtain rfl := Option.some.inj (hsome.symm.trans hview)
        refine ⟨⟨newest, older, hhist, hatt, hnewest.set hth hleft.symm le_sup_left ?_⟩, hadds,
          hmain hne (.join rest rfl ?_ ?_), hsize, h.raced⟩
        · exact sup_le hbound (hnewest.bound w (List.mem_of_getElem? hw))
        · intro u hu
          exact hrest u (List.mem_cons_of_mem _ hu)
        · intro u hu hnot
          by_cases huv : u = v
          · subst huv
            exact Joined.set ⟨w, hw, hended, le_sup_right⟩ hth hne
          · obtain ⟨w', hw', he', hle'⟩ := hjoined u hu (by simp [huv, hnot])
            exact Joined.set ⟨w', hw', he', le_trans hle' le_sup_left⟩ hth hne

end Invariant

/-! ### The runs -/

section Runs

variable [AddCommMonoid V] {adders : List (List V)} {s : State Unit Empty V Unit (Place V)}

theorem inv_reachable (hs : (program adders).Reachable s) : Inv adders s := by
  refine hs.invariant (inv_init adders) ?_
  intro s c s' h _ hst
  obtain ⟨-, th, m, th', hth, hp, rfl⟩ := step_cases hst
  by_cases hu : c.thread < adders.length
  · exact inv_adder h hth hu hp
  · exact inv_main h hth (Nat.le_of_not_lt hu) hp

/-- What `main` has printed. -/
def printed (adders : List (List V)) (s : State Unit Empty V Unit (Place V)) : Option V :=
  s.threads[adders.length]?.bind fun th =>
    match th.place with
    | .printed v => some v
    | _ => none

theorem Inv.exists_step (h : Inv adders s) {t : Nat} {th : Thread Unit (Place V)}
    (hth : s.threads[t]? = some th)
    (hop : ∀ newest older, s.memory.history () = newest :: older → th.view (.inl ()) ≤ newest.hi →
      ∃ r, perform s.memory th ⟨t, 0, 0, newest.hi + 1⟩ (op t th.place) = some r) :
    ∃ c s', (program adders).step s c = some s' := by
  obtain ⟨newest, older, hhist, -, hnewest⟩ := h.chain
  obtain ⟨r, hr⟩ := hop newest older hhist (hnewest.bound th (List.mem_of_getElem? hth))
  exact ⟨_, _, step_of_perform h.raced hth hr⟩

/-- The steps of a thread. -/
def Place.steps : Place V → Nat
  | .add addends => addends.length + 1
  | .join rest => rest.length + 1
  | _ => 0

/-- **Every run ends, and prints `total`.** -/
structure Prints (adders : List (List V)) (total : V) : Prop where
  bounded : ∀ cs s, (program adders).run (program adders).init cs = some s →
    cs.length ≤ (adders.map fun addends => addends.length + 1).sum + adders.length + 2
  goesOn : ∀ s, (program adders).Reachable s → printed adders s = some total ∨
    printed adders s = none ∧ ∃ c s', (program adders).step s c = some s'

theorem prints (adders : List (List V)) : Prints adders (adders.map List.sum).sum := by
  refine ⟨?_, ?_⟩
  · intro cs s h
    have hleft : ∀ m (th : Thread Unit (Place V)) (c : Act) m' th',
        perform m th c (op c.thread th.place) = some (m', th') →
          th'.place.steps < th.place.steps ∨ th' = th ∧ m'.raced = true := by
      intro m th c m' th' hp
      left
      cases hplace : th.place with
      | add addends =>
        rw [hplace] at hp
        cases addends with
        | nil =>
          obtain ⟨-, rfl⟩ := exit_cases hp
          exact Nat.zero_lt_one
        | cons x addends =>
          obtain ⟨msg, -, -, -, -, -, rfl⟩ := update_cases hp
          exact Nat.lt_succ_self _
      | join rest =>
        rw [hplace] at hp
        cases rest with
        | nil =>
          obtain ⟨msg, -, -, -, rfl⟩ := load_cases hp
          exact Nat.zero_lt_one
        | cons u rest =>
          obtain ⟨v, -, -, rfl⟩ := join_cases hp
          exact Nat.lt_succ_self _
      | _ =>
        rw [hplace] at hp
        cases hp
    refine le_trans (run_length_le hleft h) ?_
    simp only [program, system, List.map_append, List.map_map, List.sum_append]
    simp [Function.comp_def, Place.steps]
    omega
  · intro s hs
    have h := inv_reachable hs
    obtain ⟨w, hw⟩ : ∃ w, s.threads[adders.length]? = some w :=
      ⟨_, List.getElem?_eq_getElem (by rw [h.size]; omega)⟩
    cases h.main _ w le_rfl hw with
    | printed hplace =>
      left
      rw [printed, hw, Option.bind_some, hplace]
    | join rest hplace hrest hjoined =>
      right
      refine ⟨by rw [printed, hw, Option.bind_some, hplace], ?_⟩
      cases rest with
      | nil =>
        refine h.exists_step hw fun newest older hhist hle => ?_
        simp [hplace, op, perform, hhist, hle]
      | cons u rest =>
        have hu := hrest u (List.mem_cons_self ..)
        obtain ⟨th, hth⟩ : ∃ th, s.threads[u]? = some th :=
          ⟨_, List.getElem?_eq_getElem (by rw [h.size]; omega)⟩
        cases h.adds u th hu hth with
        | ended _ hsome =>
          refine h.exists_step hw fun _ _ _ _ => ?_
          simp [hplace, op, perform, hsome]
        | add addends hadd _ =>
          cases addends with
          | nil =>
            refine h.exists_step hth fun _ _ _ _ => ?_
            simp [hadd, op, perform]
          | cons x addends =>
            refine h.exists_step hth fun newest older hhist hle => ?_
            obtain ⟨m, ms, hm, hatt, -⟩ := h.chain
            obtain ⟨rfl, rfl⟩ := List.cons.inj (hhist.symm.trans hm)
            have hapart : ∀ msg ∈ newest :: older, msg.Apart newest.hi (newest.hi + 1) := by
              intro msg hmsg
              rcases List.mem_cons.mp hmsg with rfl | hmsg
              · exact .inl le_rfl
              · exact .inl (Nat.le_of_lt (hatt.hi_lt hmsg))
            rw [hadd, op, perform, hhist, List.getElem?_cons_zero, Option.bind_some,
              if_pos ⟨hle, Nat.lt_succ_self _, hapart⟩]
            exact ⟨_, rfl⟩

end Runs

open Summation in
/-- **The relaxed counters are exact.**  Ten threads that add 1 a thousand times give 10000;
the threads that sum up the chunks of a vector, element by element or with a local sum,
give the sum of the vector. -/
theorem relaxed_counters (val : List Int32) (lengths : List Nat)
    (h : lengths.sum = val.length) :
    Prints (List.replicate 10 Relaxed.add) 10000 ∧
    Prints ((chunks 0 lengths).map (FetchAddRelaxed.sumUp val)) (total val) ∧
    Prints ((chunks 0 lengths).map (AtomicRelaxed.sumUp val)) (total val) := by
  have hsum : ((chunks 0 lengths).map (chunkSum val)).sum = total val := by
    rw [sum_chunks (by rw [Nat.zero_add, h]), List.drop_zero, sum_toULL]
  refine ⟨?_, ?_, ?_⟩
  · have hthousand : ((List.replicate 10 Relaxed.add).map List.sum).sum = 10000 := by
      rw [List.map_replicate, List.sum_replicate, Relaxed.add, List.sum_replicate, ← mul_nsmul',
        nsmul_one]
      rfl
    exact hthousand ▸ prints _
  · have hchunks : (((chunks 0 lengths).map (FetchAddRelaxed.sumUp val)).map List.sum).sum
        = total val := by
      rw [List.map_map]
      exact hsum
    exact hchunks ▸ prints _
  · have hchunks : (((chunks 0 lengths).map (AtomicRelaxed.sumUp val)).map List.sum).sum
        = total val := by
      rw [List.map_map, ← hsum]
      simp [AtomicRelaxed.sumUp, Function.comp_def]
    exact hchunks ▸ prints _

theorem relaxed_counters_three :
    Prints (List.replicate 10 Relaxed.add) 10000 ∧
    Prints ((Summation.chunks 0 [1, 2]).map (FetchAddRelaxed.sumUp [3, 4, -5]))
      (Summation.total [3, 4, -5]) ∧
    Prints ((Summation.chunks 0 [1, 2]).map (AtomicRelaxed.sumUp [3, 4, -5]))
      (Summation.total [3, 4, -5]) :=
  relaxed_counters [3, 4, -5] [1, 2] rfl

end Cpp20Examples.MemoryOrders.Counter
