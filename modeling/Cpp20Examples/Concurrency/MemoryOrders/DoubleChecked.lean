import Cpp20Examples.Lib.WeakMemory

/-!
# Double-checked locking with acquire and release

`getInstance` of `singletonAcquireRelease` under its memory orders: the first load of
`instance` is an acquire, the second one, inside the mutex, is relaxed, and the store is a
release.  The object of a `new` is not atomic; each caller reads what it got.

* `Phase`: how far the instance is, with what the threads know of it.
* `Inv`: the phase, and who owns the mutex.
* `one_object`: no run has a data race, and every caller gets the one object.
-/

namespace Cpp20Examples.MemoryOrders.DoubleChecked

open Lib Lib.WeakMemory

/-! ### The program -/

/-- The object of a `new`, by the thread that made it and the calls that the thread has left. -/
abbrev Object := Nat × Nat

/-- Where a thread is that has `calls` left after this one. -/
inductive Place
  | call (calls : Nat)
  | lock (calls : Nat)
  | check (calls : Nat)
  | new (calls : Nat)
  | store (sin : Object) (calls : Nat)
  | unlock (sin : Object) (calls : Nat)
  | use (sin : Object) (calls : Nat)
  | broken
  | ended
  deriving DecidableEq

/-- `getInstance`, once for each call -/
def op (t : Nat) : Place → Op Unit Object (Option Object) Bool Place
  | .call 0 => .exit .ended
  | .call (calls + 1) => .load .acquire () fun
      | none => .lock calls
      | some sin => .use sin calls
  | .lock calls => .lock (.check calls)
  | .check calls => .load .relaxed () fun
      | none => .new calls
      | some sin => .unlock sin calls
  | .new calls => .write (t, calls) (fun _ => true) (.store (t, calls) calls)
  | .store sin calls => .store .release () (some sin) (.unlock sin calls)
  | .unlock sin calls => .unlock (.use sin calls)
  -- an object that no constructor was run for is broken
  | .use sin calls => .read sin false fun made => if made then .call calls else .broken
  | .broken | .ended => .stop

def memory : Memory Unit Object (Option Object) Bool where
  history _ := [{ value := none }]
  cells _ := { value := false }

def program (calls : List Nat) : System (State Unit Object (Option Object) Bool Place) Act :=
  system op memory (calls.map .call)

/-! ### The invariant -/

/-- Between the lock and the unlock. -/
def Place.inside : Place → Bool
  | .check _ | .new _ | .store _ _ | .unlock _ _ => true
  | _ => false

/-- The thread has no object. -/
def Place.Before : Place → Prop
  | .call _ | .lock _ | .check _ | .new _ | .ended => True
  | _ => False

variable {m m' : Memory Unit Object (Option Object) Bool} {threads : List (Thread Unit Place)}
  {th th' : Thread Unit Place} {t : Nat} {c : Act} {v v' : View Unit} {o : Object}
  {msg : Message Unit (Option Object)}

/-- The view has the constructor of `o`. -/
def Made (m : Memory Unit Object (Option Object) Bool) (o : Object) (v : View Unit) : Prop :=
  v.Knows ((m.cells o).accesses.filter Access.writes)

/-- The view has the constructor of `o`, and the store of `instance`. -/
def Has (m : Memory Unit Object (Option Object) Bool) (msg : Message Unit (Option Object))
    (o : Object) (v : View Unit) : Prop :=
  msg.hi ≤ v (.inl ()) ∧ Made m o v

/-- What a thread knows of the object `o` that `msg` points to. -/
def Sees (m : Memory Unit Object (Option Object) Bool) (msg : Message Unit (Option Object))
    (o : Object) (th : Thread Unit Place) : Prop :=
  match th.place with
  | .call _ | .lock _ | .ended => True
  | .check _ => Has m msg o th.view
  | .unlock sin _ => sin = o ∧ Has m msg o th.view
  | .use sin _ => sin = o ∧ Made m o th.view
  | _ => False

/-- How far the instance is: there is none, its object has been made, or it was stored. -/
inductive Phase (m : Memory Unit Object (Option Object) Bool) (threads : List (Thread Unit Place)) :
    Prop
  | missing : m.history () = [{ value := none }] → (∀ o, m.cells o = { value := false }) →
      (∀ (t : Nat) th, threads[t]? = some th → th.place.Before) → Phase m threads
  | made (t : Nat) (th : Thread Unit Place) (o : Object) (calls : Nat) :
      m.history () = [{ value := none }] → threads[t]? = some th → th.place = .store o calls →
      (∀ (u : Nat) w, threads[u]? = some w → u ≠ t → w.place.Before) → (m.cells o).value = true →
      (∀ o', o' ≠ o → m.cells o' = { value := false }) → Made m o th.view → Phase m threads
  | stored (msg : Message Unit (Option Object)) (o : Object) :
      m.history () = [msg, { value := none }] → msg.value = some o → 0 < msg.hi →
      (m.cells o).value = true → (∀ o', o' ≠ o → m.cells o' = { value := false }) →
      Made m o msg.view → (m.owner = none → Has m msg o m.released) →
      (∀ (t : Nat) th, threads[t]? = some th → Sees m msg o th) → Phase m threads

/-- What is known of `instance` is a place of a message, at most `n`. -/
structure Bound (m : Memory Unit Object (Option Object) Bool) (threads : List (Thread Unit Place))
    (n : Nat) : Prop where
  top : ∃ msg ∈ m.history (), msg.hi = n
  threads : ∀ th ∈ threads, th.view (.inl ()) ≤ n
  messages : ∀ msg ∈ m.history (), msg.hi ≤ n ∧ msg.view (.inl ()) ≤ n
  released : m.released (.inl ()) ≤ n

structure Inv (m : Memory Unit Object (Option Object) Bool) (threads : List (Thread Unit Place)) :
    Prop where
  raced : m.raced = false
  owns : Owns (fun _ => Place.inside) m.owner threads
  bound : ∃ n, Bound m threads n
  phase : Phase m threads

/-! ### The steps -/

theorem Made.mono (h : Made m o v) (hle : v ≤ v') : Made m o v' := View.Knows.mono h hle

theorem Has.mono (h : Has m msg o v) (hle : v ≤ v') : Has m msg o v' :=
  ⟨le_trans h.1 (hle _), h.2.mono hle⟩

theorem made_congr (hcells : m'.cells = m.cells) : Made m' = Made m := by
  funext o v
  rw [Made, hcells, Made]

theorem has_congr (hcells : m'.cells = m.cells) : Has m' = Has m := by
  funext msg o v
  rw [Has, made_congr hcells, Has]

theorem sees_congr (hcells : m'.cells = m.cells) : Sees m' = Sees m := by
  funext msg o th
  rw [Sees, has_congr hcells, made_congr hcells, Sees]

theorem Bound.set {n : Nat} (h : Bound m threads n) (hview : th'.view (.inl ()) ≤ n) :
    Bound m (threads.set t th') n := by
  refine ⟨h.top, ?_, h.messages, h.released⟩
  intro w hw
  rcases List.mem_or_eq_of_mem_set hw with hw | rfl
  · exact h.threads w hw
  · exact hview

theorem Phase.move (h : Phase m threads) (hth : threads[t]? = some th)
    (hstore : ∀ o calls, th.place ≠ .store o calls) (hhist : m'.history () = m.history ())
    (hcells : m'.cells = m.cells)
    (hbefore : m.history () = [{ value := none }] → th.place.Before → th'.place.Before)
    (hsees : ∀ msg o, m.history () = [msg, { value := none }] → msg.value = some o → 0 < msg.hi →
      Made m o msg.view → (m.owner = none → Has m msg o m.released) → Sees m msg o th →
      Sees m msg o th' ∧ (m'.owner = none → Has m msg o m'.released)) :
    Phase m' (threads.set t th') := by
  cases h with
  | missing hh hfresh hplaces =>
    refine .missing (hhist.trans hh) (fun o => by rw [hcells, hfresh]) ?_
    intro u w hw
    rcases getElem?_set_cases hw with ⟨rfl, rfl⟩ | ⟨-, hw⟩
    · exact hbefore hh (hplaces u th hth)
    · exact hplaces u w hw
  | made u w o calls hh hw hplace hothers hmade hfresh hview =>
    have hne : t ≠ u := by
      rintro rfl
      obtain rfl := Option.some.inj (hth.symm.trans hw)
      exact hstore o calls hplace
    refine .made u w o calls (hhist.trans hh) ?_ hplace ?_ (by rw [hcells, hmade])
      (fun o' ho => by rw [hcells, hfresh o' ho]) (by rw [made_congr hcells]; exact hview)
    · rw [List.getElem?_set_ne hne]
      exact hw
    · intro u' w' hw' hne'
      rcases getElem?_set_cases hw' with ⟨rfl, rfl⟩ | ⟨-, hw'⟩
      · exact hbefore hh (hothers u' th hth hne')
      · exact hothers u' w' hw' hne'
  | stored msg o hh hvalue hhi hmade hfresh hview hreleased hthreads =>
    obtain ⟨hth', hreleased'⟩ := hsees msg o hh hvalue hhi hview hreleased (hthreads t th hth)
    refine .stored msg o (hhist.trans hh) hvalue hhi (by rw [hcells, hmade])
      (fun o' ho => by rw [hcells, hfresh o' ho]) (by rw [made_congr hcells]; exact hview) ?_ ?_
    · rw [has_congr hcells]
      exact hreleased'
    · rw [sees_congr hcells]
      intro u w hw
      rcases getElem?_set_cases hw with ⟨rfl, rfl⟩ | ⟨-, hw⟩
      · exact hth'
      · exact hthreads u w hw

/-- **A load.**  It reads that there is no instance, or the instance. -/
theorem load_step (h : Inv m threads) (hth : threads[t]? = some th) {order : Order}
    (hmsg : msg ∈ m.history ())
    (hview : th'.view = th.view ⊔ .upTo () msg.hi ⊔ (if order.acquires then msg.view else ⊥))
    (hstore : ∀ o calls, th.place ≠ .store o calls)
    (hinside : th'.place.inside = th.place.inside) (hnone : msg.value = none → th'.place.Before)
    (hsees : ∀ newest o, newest.value = some o → 0 < newest.hi → Made m o newest.view →
      Sees m newest o th → msg.value = none ∧ msg.hi = 0 ∨ msg = newest → Sees m newest o th') :
    Inv m (threads.set t th') := by
  obtain ⟨n, hn⟩ := h.bound
  refine ⟨h.raced, h.owns.set hth hinside, ⟨n, hn.set ?_⟩, ?_⟩
  · have hmessage := hn.messages msg hmsg
    have hold := hn.threads th (List.mem_of_getElem? hth)
    rw [hview]
    refine sup_le (sup_le hold ?_) ?_
    · rw [View.upTo_self]
      exact hmessage.1
    · split
      · exact hmessage.2
      · exact Nat.zero_le _
  · refine h.phase.move hth hstore rfl rfl ?_ ?_
    · intro hh _
      rw [hh] at hmsg
      exact hnone (by rw [List.mem_singleton.mp hmsg])
    · intro newest o hh hvalue hhi hmade hreleased hold
      refine ⟨hsees newest o hvalue hhi hmade hold ?_, hreleased⟩
      rw [hh] at hmsg
      rcases List.mem_cons.mp hmsg with rfl | hmsg
      · exact .inr rfl
      · rw [List.mem_singleton.mp hmsg]
        exact .inl ⟨rfl, rfl⟩

/-- Who makes the object, or stores it, has the mutex. -/
theorem Phase.of_new (h : Phase m threads) (howns : Owns (fun _ => Place.inside) m.owner threads)
    (hth : threads[t]? = some th) {calls : Nat} (hplace : th.place = .new calls) :
    m.history () = [{ value := none }] ∧ (∀ o, m.cells o = { value := false }) ∧
      ∀ (u : Nat) w, threads[u]? = some w → w.place.Before := by
  cases h with
  | missing hh hfresh hplaces => exact ⟨hh, hfresh, hplaces⟩
  | made u w o calls hh hw hstore hothers =>
    have heq := howns.eq hth hw (by rw [hplace]; rfl) (by rw [hstore]; rfl)
    subst heq
    obtain rfl := Option.some.inj (hth.symm.trans hw)
    simp [hplace] at hstore
  | stored msg o hh hvalue hhi hmade hfresh hview hreleased hthreads =>
    have hsees := hthreads t th hth
    rw [Sees, hplace] at hsees
    exact hsees.elim

theorem Phase.of_store (h : Phase m threads) (hth : threads[t]? = some th) {calls : Nat}
    (hplace : th.place = .store o calls) :
    m.history () = [{ value := none }] ∧ (m.cells o).value = true ∧
      (∀ o', o' ≠ o → m.cells o' = { value := false }) ∧ Made m o th.view ∧
      ∀ (u : Nat) w, threads[u]? = some w → u ≠ t → w.place.Before := by
  cases h with
  | missing hh hfresh hplaces =>
    have hbefore := hplaces t th hth
    rw [hplace] at hbefore
    exact hbefore.elim
  | made u w o' calls hh hw hstore hothers hmade hfresh hview =>
    have heq : t = u := by
      by_contra hne
      have hbefore := hothers t th hth hne
      rw [hplace] at hbefore
      exact hbefore.elim
    subst heq
    obtain rfl := Option.some.inj (hth.symm.trans hw)
    obtain ⟨rfl, rfl⟩ := Place.store.inj (hplace.symm.trans hstore)
    exact ⟨hh, hmade, hfresh, hview, hothers⟩
  | stored msg o hh hvalue hhi hmade hfresh hview hreleased hthreads =>
    have hsees := hthreads t th hth
    rw [Sees, hplace] at hsees
    exact hsees.elim

theorem Phase.of_use (h : Phase m threads) (hth : threads[t]? = some th) {calls : Nat}
    (hplace : th.place = .use o calls) :
    ∃ msg, m.history () = [msg, { value := none }] ∧ msg.value = some o ∧ 0 < msg.hi ∧
      (m.cells o).value = true ∧ (∀ o', o' ≠ o → m.cells o' = { value := false }) ∧
      Made m o msg.view ∧ (m.owner = none → Has m msg o m.released) ∧
      (∀ (t : Nat) th, threads[t]? = some th → Sees m msg o th) ∧ Made m o th.view := by
  cases h with
  | missing hh hfresh hplaces =>
    have hbefore := hplaces t th hth
    rw [hplace] at hbefore
    exact hbefore.elim
  | made u w o' calls hh hw hstore hothers =>
    by_cases heq : t = u
    · subst heq
      obtain rfl := Option.some.inj (hth.symm.trans hw)
      simp [hplace] at hstore
    · have hbefore := hothers t th hth heq
      rw [hplace] at hbefore
      exact hbefore.elim
  | stored msg o' hh hvalue hhi hmade hfresh hview hreleased hthreads =>
    have hsees := hthreads t th hth
    rw [Sees, hplace] at hsees
    obtain ⟨rfl, hknows⟩ := hsees
    exact ⟨msg, hh, hvalue, hhi, hmade, hfresh, hview, hreleased, hthreads, hknows⟩

theorem made_read (m : Memory Unit Object (Option Object) Bool) (o : Object) (t n : Nat) :
    Made (m.access o (m.cells o).value ⟨t, n, false⟩) = Made m := by
  funext o' v
  by_cases ho : o' = o
  · rw [Made, Made, ho, access_cells_self, List.filter_cons_of_neg (by simp)]
  · rw [Made, Made, access_cells_of_ne _ ho]

theorem has_read (m : Memory Unit Object (Option Object) Bool) (o : Object) (t n : Nat) :
    Has (m.access o (m.cells o).value ⟨t, n, false⟩) = Has m := by
  funext msg o' v
  rw [Has, made_read, Has]

theorem sees_read (m : Memory Unit Object (Option Object) Bool) (o : Object) (t n : Nat) :
    Sees (m.access o (m.cells o).value ⟨t, n, false⟩) = Sees m := by
  funext msg o' th
  rw [Sees, has_read, made_read, Sees]

theorem inv_step (h : Inv m threads) (hth : threads[c.thread]? = some th)
    (hp : perform m th c (op c.thread th.place) = some (m', th')) :
    Inv m' (threads.set c.thread th') := by
  obtain ⟨n, hn⟩ := h.bound
  have hold := hn.threads th (List.mem_of_getElem? hth)
  have hview := view_le_of_perform hp
  cases hplace : th.place with
  | call calls =>
    have hstore : ∀ o calls, th.place ≠ .store o calls := by
      rw [hplace]
      nofun
    rw [hplace] at hp
    cases calls with
    | zero =>
      obtain ⟨rfl, rfl⟩ := exit_cases hp
      have hbound : Bound m (threads.set c.thread { th with place := .ended }) n := hn.set hold
      refine ⟨h.raced, h.owns.set hth (by rw [hplace]; rfl), ⟨n, hbound.top, hbound.threads,
        hbound.messages, hbound.released⟩, h.phase.move hth hstore rfl rfl ?_ ?_⟩
      · exact fun _ _ => trivial
      · exact fun _ _ _ _ _ _ hreleased _ => ⟨trivial, hreleased⟩
    | succ calls =>
      obtain ⟨msg, hmsg, hle, rfl, rfl⟩ := load_cases hp
      refine load_step h hth hmsg rfl hstore ?_ ?_ ?_
      · rw [hplace]
        cases msg.value <;> rfl
      · intro hnone
        rw [hnone]
        trivial
      · rintro newest o hvalue - hmade - (⟨hnone, -⟩ | rfl)
        · rw [Sees, hnone]
          trivial
        · rw [Sees, hvalue]
          exact ⟨rfl, hmade.mono le_sup_right⟩
  | lock calls =>
    have hstore : ∀ o calls, th.place ≠ .store o calls := by
      rw [hplace]
      nofun
    rw [hplace] at hp
    obtain ⟨hfree, rfl, rfl⟩ := lock_cases hp
    have howns := h.owns
    rw [hfree] at howns
    have hbound : Bound m (threads.set c.thread
        ⟨.check calls, th.view ⊔ m.released, th.dependency⟩) n := hn.set (sup_le hold hn.released)
    refine ⟨h.raced, howns.lock rfl, ⟨n, hbound.top, hbound.threads, hbound.messages,
      hbound.released⟩, h.phase.move hth hstore rfl rfl ?_ ?_⟩
    · exact fun _ _ => trivial
    · exact fun _ _ _ _ _ _ hreleased _ => ⟨(hreleased hfree).mono le_sup_right, nofun⟩
  | check calls =>
    have hstore : ∀ o calls, th.place ≠ .store o calls := by
      rw [hplace]
      nofun
    rw [hplace] at hp
    obtain ⟨msg, hmsg, hle, rfl, rfl⟩ := load_cases hp
    refine load_step h hth hmsg rfl hstore ?_ ?_ ?_
    · rw [hplace]
      cases msg.value <;> rfl
    · intro hnone
      rw [hnone]
      trivial
    · rintro newest o hvalue hhi hmade hsees hread
      rw [Sees, hplace] at hsees
      rcases hread with ⟨-, hzero⟩ | rfl
      · have hseen := hsees.1
        omega
      · rw [Sees, hvalue]
        exact ⟨rfl, hsees.mono hview⟩
  | new calls =>
    obtain ⟨hh, hfresh, hplaces⟩ := h.phase.of_new h.owns hth hplace
    rw [hplace] at hp
    rcases write_cases hp with ⟨hknows, rfl, rfl⟩ | ⟨hrace, -, -⟩
    · have hbound : Bound m (threads.set c.thread
          ⟨.store (c.thread, calls) calls, th.view.tick c.thread, th.dependency⟩) n := hn.set hold
      refine ⟨h.raced, h.owns.set hth (by rw [hplace]; rfl), ⟨n, hbound.top, hbound.threads,
        hbound.messages, hbound.released⟩, .made c.thread _ (c.thread, calls) calls hh
        (getElem?_set_of_some hth _) rfl ?_ ?_ ?_ ?_⟩
      · intro u w hw hne
        rcases getElem?_set_cases hw with ⟨rfl, -⟩ | ⟨-, hw⟩
        · exact absurd rfl hne
        · exact hplaces u w hw
      · rw [access_cells_self]
      · intro o' ho
        rw [access_cells_of_ne _ ho]
        exact hfresh o'
      · rw [Made, access_cells_self]
        exact (hknows.tick c.thread true).filter _
    · rw [hfresh] at hrace
      exact absurd (fun e he => nomatch he) hrace
  | store o calls =>
    obtain ⟨hh, hmade, hfresh, hknows, hothers⟩ := h.phase.of_store hth hplace
    rw [hplace] at hp
    obtain ⟨-, hlt, -, rfl, rfl⟩ := store_cases hp
    have hzero : n = 0 := by
      obtain ⟨msg, hmsg, rfl⟩ := hn.top
      rw [hh] at hmsg
      rw [List.mem_singleton.mp hmsg]
    subst hzero
    have hhist : (m.post () ⟨some o, c.lo, c.hi, th.view ⊔ .upTo () c.hi⟩).history ()
        = [⟨some o, c.lo, c.hi, th.view ⊔ .upTo () c.hi⟩, { value := none }] := by
      rw [post_history_self, hh]
    have hviewhi : (th.view ⊔ .upTo () c.hi : View Unit) (.inl ()) ≤ c.hi :=
      sup_le (le_trans hold (Nat.zero_le _)) (Nat.le_of_eq (View.upTo_self ..))
    have hinside : m.owner = some c.thread := (h.owns _ _ hth).mp (by rw [hplace]; rfl)
    have hmessage : ∀ msg,
        msg ∈ (m.post () ⟨some o, c.lo, c.hi, th.view ⊔ .upTo () c.hi⟩).history () ↔
        msg = ⟨some o, c.lo, c.hi, th.view ⊔ .upTo () c.hi⟩ ∨ msg ∈ m.history () := by
      intro msg
      rw [post_history_self, List.mem_cons]
    refine ⟨h.raced, h.owns.set hth (by rw [hplace]; rfl),
      ⟨c.hi, ⟨_, (hmessage _).mpr (.inl rfl), rfl⟩,
        ?_, ?_, ?_⟩,
      .stored _ o hhist rfl (Nat.zero_lt_of_lt hlt) hmade hfresh (hknows.mono le_sup_left) ?_ ?_⟩
    · intro w hw
      rcases List.mem_or_eq_of_mem_set hw with hw | rfl
      · exact le_trans (hn.threads w hw) (Nat.zero_le _)
      · exact hviewhi
    · intro msg hmsg
      rcases (hmessage msg).mp hmsg with rfl | hmsg
      · exact ⟨le_rfl, hviewhi⟩
      · exact (hn.messages msg hmsg).imp (le_trans · (Nat.zero_le _)) (le_trans · (Nat.zero_le _))
    · exact le_trans hn.released (Nat.zero_le _)
    · intro hfree
      exact absurd (hinside.symm.trans hfree) nofun
    · intro u w hw
      rcases getElem?_set_cases hw with ⟨rfl, rfl⟩ | ⟨hne, hw⟩
      · refine ⟨rfl, ?_, hknows.mono le_sup_left⟩
        exact le_trans (Nat.le_of_eq (View.upTo_self ..).symm) (le_sup_right (a := th.view) _)
      · have hbefore := hothers u w hw hne
        have hout : w.place.inside = false := by
          rw [← Bool.not_eq_true]
          intro hin
          exact hne (Option.some.inj (((h.owns u w hw).mp hin).symm.trans hinside))
        rw [Sees]
        cases hp : w.place <;> rw [hp] at hbefore hout <;> trivial
  | unlock sin calls =>
    have hstore : ∀ o calls, th.place ≠ .store o calls := by
      rw [hplace]
      nofun
    rw [hplace] at hp
    obtain ⟨hown, rfl, rfl⟩ := unlock_cases hp
    have howns := h.owns
    rw [hown] at howns
    have hbound : Bound m (threads.set c.thread { th with place := .use sin calls }) n :=
      hn.set hold
    refine ⟨h.raced, howns.unlock rfl, ⟨n, hbound.top, hbound.threads, hbound.messages, hold⟩,
      h.phase.move hth hstore rfl rfl ?_ ?_⟩
    · rw [hplace]
      exact fun _ hbefore => hbefore.elim
    · intro msg o _ _ _ _ _ hsees
      rw [Sees, hplace] at hsees
      exact ⟨⟨hsees.1, hsees.2.2⟩, fun _ => hsees.2⟩
  | use o calls =>
    obtain ⟨msg, hh, hvalue, hhi, hmade, hfresh, hknows, hreleased, hthreads, hseen⟩ :=
      h.phase.of_use hth hplace
    rw [hplace] at hp
    rcases read_cases hp with ⟨-, rfl, rfl⟩ | ⟨hrace, -, -⟩
    · rw [hmade, if_pos rfl]
      have hbound : Bound m (threads.set c.thread
          ⟨.call calls, th.view.tick c.thread, th.dependency⟩) n := hn.set hold
      refine ⟨h.raced, h.owns.set hth (by rw [hplace]; rfl), ⟨n, hbound.top, hbound.threads,
        hbound.messages, hbound.released⟩, .stored msg o hh hvalue hhi ?_ ?_ ?_ ?_ ?_⟩
      · rw [access_cells_self]
      · intro o' ho
        rw [access_cells_of_ne _ ho]
        exact hfresh o' ho
      · rw [← hmade, made_read]
        exact hknows
      · rw [← hmade, has_read]
        exact hreleased
      · rw [← hmade, sees_read]
        intro u w hw
        rcases getElem?_set_cases hw with ⟨rfl, rfl⟩ | ⟨-, hw⟩
        · trivial
        · exact hthreads u w hw
    · exact absurd hseen hrace
  | _ =>
    rw [hplace] at hp
    cases hp

/-! ### The runs -/

variable {calls : List Nat} {s : State Unit Object (Option Object) Bool Place}

theorem inv_init (calls : List Nat) : Inv memory (program calls).init.threads := by
  have hthread : ∀ th ∈ (program calls).init.threads, ∃ n, th = { place := .call n } := by
    intro th hth
    simp only [program, system, List.mem_map] at hth
    obtain ⟨p, ⟨n, -, rfl⟩, rfl⟩ := hth
    exact ⟨n, rfl⟩
  refine ⟨rfl, ?_, ⟨0, ⟨_, List.mem_singleton.mpr rfl, rfl⟩, ?_, ?_, Nat.le_refl 0⟩,
    .missing rfl (fun _ => rfl) ?_⟩
  · intro t th hth
    obtain ⟨n, rfl⟩ := hthread th (List.mem_of_getElem? hth)
    exact iff_of_false nofun nofun
  · intro th hth
    obtain ⟨n, rfl⟩ := hthread th hth
    exact Nat.le_refl 0
  · intro msg hmsg
    rw [List.mem_singleton.mp hmsg]
    exact ⟨Nat.le_refl 0, Nat.le_refl 0⟩
  · intro t th hth
    obtain ⟨n, rfl⟩ := hthread th (List.mem_of_getElem? hth)
    trivial

theorem inv (hs : (program calls).Reachable s) : Inv s.memory s.threads := by
  refine hs.invariant (inv_init calls) ?_ (I := fun s => Inv s.memory s.threads)
  intro s c s' h _ hst
  obtain ⟨-, th, m, th', hth, hp, rfl⟩ := step_cases hst
  exact inv_step h hth hp

theorem Phase.not_broken (h : Phase m threads) (hth : threads[t]? = some th) :
    th.place ≠ .broken := by
  intro hplace
  cases h with
  | missing hh hfresh hplaces =>
    have hbefore := hplaces t th hth
    rw [hplace] at hbefore
    exact hbefore
  | made u w o calls hh hw hstore hothers =>
    by_cases heq : t = u
    · subst heq
      obtain rfl := Option.some.inj (hth.symm.trans hw)
      simp [hplace] at hstore
    · have hbefore := hothers t th hth heq
      rw [hplace] at hbefore
      exact hbefore
  | stored msg o hh hvalue hhi hmade hfresh hview hreleased hthreads =>
    have hsees := hthreads t th hth
    rw [Sees, hplace] at hsees
    exact hsees

theorem Phase.made_eq (h : Phase m threads) {o o' : Object} (ho : (m.cells o).value = true)
    (ho' : (m.cells o').value = true) : o = o' := by
  have heq : ∀ {x : Object}, (∀ o', o' ≠ x → m.cells o' = { value := false }) → o = o' := by
    intro x hfresh
    have hx : ∀ {o : Object}, (m.cells o).value = true → o = x := by
      intro o ho
      by_contra hne
      rw [hfresh o hne] at ho
      cases ho
    exact (hx ho).trans (hx ho').symm
  cases h with
  | missing hh hfresh =>
    rw [hfresh o] at ho
    cases ho
  | made u w x calls hh hw hstore hothers hmade hfresh => exact heq hfresh
  | stored msg x hh hvalue hhi hmade hfresh => exact heq hfresh

/-- A thread can move, unless it waits for the mutex. -/
theorem Inv.exists_perform (h : Inv m threads) (hth : threads[t]? = some th)
    (hended : th.place ≠ .ended) (hlock : ∀ n, th.place = .lock n → m.owner = none) :
    ∃ c, c.thread = t ∧ (perform m th c (op t th.place)).isSome = true := by
  obtain ⟨n, ⟨top, htop, rfl⟩, hthreads, hmessages, -⟩ := h.bound
  obtain ⟨i, hi⟩ := List.mem_iff_getElem?.mp htop
  have hview := hthreads th (List.mem_of_getElem? hth)
  cases hplace : th.place with
  | call n =>
    cases n with
    | zero => exact ⟨⟨t, 0, 0, 0⟩, rfl, rfl⟩
    | succ n =>
      refine ⟨⟨t, i, 0, 0⟩, rfl, ?_⟩
      rw [op, perform, hi, Option.bind_some, if_pos hview]
      rfl
  | lock n =>
    refine ⟨⟨t, 0, 0, 0⟩, rfl, ?_⟩
    rw [op, perform, if_pos (hlock n hplace)]
    rfl
  | check n =>
    refine ⟨⟨t, i, 0, 0⟩, rfl, ?_⟩
    rw [op, perform, hi, Option.bind_some, if_pos hview]
    rfl
  | new n =>
    by_cases hknows : th.view.Knows (m.cells (t, n)).accesses
    · refine ⟨⟨t, 0, 0, 0⟩, rfl, ?_⟩
      rw [op, perform, if_pos hknows]
      rfl
    · refine ⟨⟨t, 0, 0, 0⟩, rfl, ?_⟩
      rw [op, perform, if_neg hknows]
      rfl
  | store o n =>
    refine ⟨⟨t, 0, top.hi, top.hi + 1⟩, rfl, ?_⟩
    rw [op, perform,
      if_pos ⟨hview, Nat.lt_succ_self _, fun msg hmsg => .inl (hmessages msg hmsg).1⟩]
    rfl
  | unlock o n =>
    refine ⟨⟨t, 0, 0, 0⟩, rfl, ?_⟩
    rw [op, perform, if_pos ((h.owns t th hth).mp (by rw [hplace]; rfl))]
    rfl
  | use o n =>
    by_cases hknows : (th.seen false).Knows ((m.cells o).accesses.filter Access.writes)
    · refine ⟨⟨t, 0, 0, 0⟩, rfl, ?_⟩
      rw [op, perform, if_pos hknows]
      rfl
    · refine ⟨⟨t, 0, 0, 0⟩, rfl, ?_⟩
      rw [op, perform, if_neg hknows]
      rfl
  | broken => exact absurd hplace (h.phase.not_broken hth)
  | ended => exact absurd hplace hended

/-- The steps of a thread. -/
def Place.steps : Place → Nat
  | .call n => 7 * n + 1
  | .lock n => 7 * n + 7
  | .check n => 7 * n + 6
  | .new n => 7 * n + 5
  | .store _ n => 7 * n + 4
  | .unlock _ n => 7 * n + 3
  | .use _ n => 7 * n + 2
  | .broken | .ended => 0

theorem steps_lt (hp : perform m th c (op t th.place) = some (m', th')) :
    th'.place.steps < th.place.steps ∨ th' = th ∧ m'.raced = true := by
  cases hplace : th.place with
  | call n =>
    rw [hplace] at hp
    cases n with
    | zero =>
      obtain ⟨-, rfl⟩ := exit_cases hp
      exact .inl (Nat.succ_pos _)
    | succ n =>
      obtain ⟨msg, -, -, -, rfl⟩ := load_cases hp
      left
      cases msg.value <;> simp only [Place.steps] <;> omega
  | lock n =>
    rw [hplace] at hp
    obtain ⟨-, -, rfl⟩ := lock_cases hp
    exact .inl (Nat.lt_succ_self _)
  | check n =>
    rw [hplace] at hp
    obtain ⟨msg, -, -, -, rfl⟩ := load_cases hp
    left
    cases msg.value <;> simp only [Place.steps] <;> omega
  | new n =>
    rw [hplace] at hp
    rcases write_cases hp with ⟨-, -, rfl⟩ | ⟨-, rfl, rfl⟩
    · exact .inl (Nat.lt_succ_self _)
    · exact .inr ⟨rfl, rfl⟩
  | store o n =>
    rw [hplace] at hp
    obtain ⟨-, -, -, -, rfl⟩ := store_cases hp
    exact .inl (Nat.lt_succ_self _)
  | unlock o n =>
    rw [hplace] at hp
    obtain ⟨-, -, rfl⟩ := unlock_cases hp
    exact .inl (Nat.lt_succ_self _)
  | use o n =>
    rw [hplace] at hp
    rcases read_cases hp with ⟨-, -, rfl⟩ | ⟨-, rfl, rfl⟩
    · left
      cases (m.cells o).value <;> simp only [Place.steps] <;> simp
    · exact .inr ⟨rfl, rfl⟩
  | _ =>
    rw [hplace] at hp
    cases hp

/-- **The double check needs no more than acquire and release.**  No run has a data race, no
caller gets an object that was not made, only one object is made, and all runs end, with the
calls of all threads. -/
theorem one_object (calls : List Nat) :
    (∀ s, (program calls).Reachable s → s.memory.raced = false ∧
      (∀ th ∈ s.threads, th.place ≠ .broken) ∧
      (∀ o o', (s.memory.cells o).value = true → (s.memory.cells o').value = true → o = o') ∧
      ∀ th ∈ s.threads, ∀ o n, th.place = .use o n → (s.memory.cells o).value = true) ∧
    (∀ cs s, (program calls).run (program calls).init cs = some s →
      cs.length ≤ (calls.map fun n => 7 * n + 1).sum + 1) ∧
    ∀ s, (program calls).Reachable s →
      (∀ th ∈ s.threads, th.place = .ended) ∨ ∃ c s', (program calls).step s c = some s' := by
  refine ⟨?_, ?_, ?_⟩
  · intro s hs
    have h := inv hs
    refine ⟨h.raced, ?_, fun o o' => h.phase.made_eq, ?_⟩
    · intro th hth
      obtain ⟨t, ht⟩ := List.mem_iff_getElem?.mp hth
      exact h.phase.not_broken ht
    · intro th hth o n hplace
      obtain ⟨t, ht⟩ := List.mem_iff_getElem?.mp hth
      obtain ⟨msg, -, -, -, hmade, -⟩ := h.phase.of_use ht hplace
      exact hmade
  · intro cs s hrun
    refine le_trans (run_length_le (fun m th c m' th' hp => steps_lt hp) hrun) ?_
    simp [program, system, Place.steps, Function.comp_def]
  · intro s hs
    have h := inv hs
    by_cases hend : ∀ th ∈ s.threads, th.place = .ended
    · exact .inl hend
    · right
      obtain ⟨t, th, hth, hended, hlock⟩ : ∃ (t : Nat) (th : Thread Unit Place),
          s.threads[t]? = some th ∧ th.place ≠ .ended ∧
            ∀ n, th.place = .lock n → s.memory.owner = none := by
        cases howner : s.memory.owner with
        | none =>
          obtain ⟨th, hmem, hne⟩ := by simpa using hend
          obtain ⟨t, hth⟩ := List.mem_iff_getElem?.mp hmem
          exact ⟨t, th, hth, hne, fun _ _ => rfl⟩
        | some t =>
          -- who owns the mutex does not wait for it
          have hth := List.getElem?_eq_getElem (owner_lt rfl hs howner)
          have hinside := (h.owns t _ hth).mpr howner
          refine ⟨t, _, hth, ?_, ?_⟩
          · intro hplace
            rw [hplace] at hinside
            cases hinside
          · intro n hplace
            rw [hplace] at hinside
            cases hinside
      obtain ⟨c, rfl, hr⟩ := h.exists_perform hth hended hlock
      obtain ⟨r, hr⟩ := Option.isSome_iff_exists.mp hr
      exact ⟨c, _, step_of_perform h.raced hth hr⟩

end Cpp20Examples.MemoryOrders.DoubleChecked
