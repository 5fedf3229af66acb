import Cpp20Examples.Concurrency.ActiveObject.IsPrime
import Cpp20Examples.Lib.Monitor

/-!
# `activeObject`

Clients call `enqueueTask`; the servant of `run` takes the tasks out of the
activation list and executes them until it finds the list empty.  The test and the
removal are two critical sections; only the servant removes, so what it has found not
to be empty stays so.

The thread 0 is the servant, the others are the clients.  Its own variables are kept
with the shared ones; nobody else reads them.

* `Phase`: where the servant is, and what holds of the list there.
* `Books`: what becomes of the tasks.
* `Good`: both, and a bound on the number of steps that are left.
* `good_step`: a step keeps it, and lowers the bound.
-/

namespace Cpp20Examples.ActiveObject

open Lib Lib.Monitor

/-- A task in the activation list: `future` is the shared state of its future, the call of
a client that enqueued it. -/
structure Job where
  future : Nat × Nat
  i : Int
  deriving DecidableEq

/-- `empty` is what `isEmpty` returned, `myTask` is the task that was dequeued.  The last
three are history: the tasks enqueued, those executed, and those that were enqueued when
`run` began. -/
structure Shared where
  activationList : List Job := []
  futures : Nat × Nat → Option (Bool × Int) := fun _ => none
  empty : Bool := true
  myTask : Option Job := none
  pushed : List Job := []
  executed : List Job := []
  begun : List Job := []

inductive Op
  | push (j : Job)
  | begin
  | readEmpty
  | dequeue
  | execute
  deriving DecidableEq

/-- `myTask.first(myTask.second)`: a task that has been executed throws, and so does none. -/
def Shared.execute (d : Shared) : Option Shared :=
  match d.myTask with
  | none => none
  | some j =>
    match d.futures j.future, isPrime j.i with
    | none, some r => some { d with
        futures := Function.update d.futures j.future (some r)
        myTask := none
        executed := d.executed ++ [j] }
    | _, _ => none

def sem (o : Op) (d : Shared) (v : Unit) : Option (Shared × Unit) :=
  match o with
  | .push j => some ({ d with
      activationList := d.activationList ++ [j]
      pushed := d.pushed ++ [j] }, v)
  | .begin => some ({ d with begun := d.pushed }, v)
  | .readEmpty => some ({ d with empty := d.activationList.isEmpty }, v)
  | .dequeue =>
    match d.activationList with
    | [] => none
    | j :: rest => some ({ d with activationList := rest, myTask := some j }, v)
  | .execute => d.execute.map fun d => (d, v)

abbrev ACode := Code Op Unit Shared

abbrev AThread := Thread Op Unit Shared Unit

abbrev AState := State Op Unit Shared Unit

def enqueueTask (j : Job) : ACode := [.lock, .exec (.push j), .unlock]

def isEmpty : ACode := [.lock, .exec .readEmpty, .unlock]

def dequeueTask : ACode := [.lock, .exec .dequeue, .unlock]

/-- `while (!isEmpty())`, behind the call of `isEmpty`. -/
def loop : ACode :=
  [.loop (fun d => !d.empty) (dequeueTask ++ [.exec .execute] ++ isEmpty)]

/-- The servant of `run`. -/
def run : ACode := [.exec .begin] ++ isEmpty ++ loop

/-- The calls of one client. -/
def program (jobs : List Job) : ACode := jobs.flatMap enqueueTask

/-- The tasks of the client `c`, which calls `enqueueTask` on the numbers. -/
def jobsOf (c : Nat) (is : List Int) : List Job := is.mapIdx fun k i => ⟨(c, k), i⟩

/-- The tasks of all clients, in the order of `futures` in `main`. -/
def allJobs (clients : List (List Int)) : List Job := (clients.mapIdx jobsOf).flatten

/-- The servant, and the clients with their numbers. -/
def system (clients : List (List Int)) : System AState Act :=
  Monitor.system sem {} (⟨run, .running, ()⟩ ::
    clients.mapIdx fun c is => ⟨program (jobsOf c is), .running, ()⟩)

/-! ### Where the servant is -/

inductive Phase
  | begin
  | lockEmpty
  | readEmpty
  | unlockEmpty
  | test
  | lockDequeue
  | dequeue
  | unlockDequeue
  | execute
  | ended

def Phase.code : Phase → ACode
  | .begin => run
  | .lockEmpty => isEmpty ++ loop
  | .readEmpty => .exec .readEmpty :: .unlock :: loop
  | .unlockEmpty => .unlock :: loop
  | .test => loop
  | .lockDequeue => dequeueTask ++ .exec .execute :: (isEmpty ++ loop)
  | .dequeue => .exec .dequeue :: .unlock :: .exec .execute :: (isEmpty ++ loop)
  | .unlockDequeue => .unlock :: .exec .execute :: (isEmpty ++ loop)
  | .execute => .exec .execute :: (isEmpty ++ loop)
  | .ended => []

/-- What the servant knows: an answer that the list is not empty stays true, and with the
other one all that was enqueued before `run` began is executed. -/
def Phase.Knows (d : Shared) : Phase → Prop
  | .begin | .lockEmpty | .readEmpty => d.myTask = none
  | .unlockEmpty | .test =>
    d.myTask = none ∧ if d.empty then d.begun <+: d.executed else d.activationList ≠ []
  | .lockDequeue | .dequeue => d.myTask = none ∧ d.activationList ≠ []
  | .unlockDequeue | .execute => d.myTask.isSome = true
  | .ended => d.begun <+: d.executed

/-- How many steps the servant has still to take, were the list empty but for the task that
it is about to dequeue. -/
def Phase.left : Phase → Nat
  | .begin => 10
  | .lockEmpty => 9
  | .readEmpty => 8
  | .unlockEmpty => 7
  | .test => 6
  | .lockDequeue => 5
  | .dequeue => 4
  | .unlockDequeue => 13
  | .execute => 12
  | .ended => 0

def callsLeft (th : AThread) : Nat := th.code.length

/-- What bounds the number of steps that all threads have still to take: each task in the
list is one more turn of the loop, and so is each call. -/
def bound (ph : Phase) (s : AState) : Nat :=
  ph.left + 10 * s.data.activationList.length + 11 * total callsLeft s.threads.tail

/-- Where a client is. -/
def ClientAt (code : ACode) : Prop :=
  ∃ jobs, code = program jobs ∨ (∃ j, code = .exec (.push j) :: .unlock :: program jobs) ∨
    code = .unlock :: program jobs

/-! ### The tasks -/

/-- The task is one of the client's call that its future belongs to. -/
def Issued (clients : List (List Int)) (j : Job) : Prop :=
  ∃ is, clients[j.future.1]? = some is ∧ is[j.future.2]? = some j.i

def value (i : Int) : Bool × Int := (decide i.toNat.Prime, i)

structure Books (clients : List (List Int)) (d : Shared) : Prop where
  order : d.pushed = d.executed ++ d.myTask.toList ++ d.activationList
  nodup : d.pushed.Nodup
  issued : ∀ j ∈ d.pushed, Issued clients j
  begun : d.begun <+: d.pushed
  fulfilled : ∀ j ∈ d.executed, d.futures j.future = some (value j.i)
  waiting : ∀ f, (∀ j ∈ d.executed, j.future ≠ f) → d.futures f = none

/-- How often the code pushes the task. -/
def pushes (x : Job) : ACode → Nat
  | [] => 0
  | .exec (.push j) :: c => (if j = x then 1 else 0) + pushes x c
  | _ :: c => pushes x c

def owes (x : Job) (th : AThread) : Nat := pushes x th.code

/-- `count`: each task is enqueued once, or is still to be.  At most `n` steps are left. -/
structure Good (clients : List (List Int)) (n : Nat) (s : AState) : Prop where
  own : Ownership s.owner s.threads
  safe : s.fault = false
  books : Books clients s.data
  servant : ∃ ph : Phase, s.threads[0]? = some ⟨ph.code, .running, ()⟩ ∧ ph.Knows s.data ∧
    bound ph s ≤ n
  clients_at : ∀ t th, s.threads[t + 1]? = some th → th.status = .running ∧ ClientAt th.code
  count : ∀ x, s.data.pushed.count x + total (owes x) s.threads = (allJobs clients).count x

/-! ### The calls of the clients -/

theorem pushes_servant (x : Job) (ph : Phase) : pushes x ph.code = 0 := by
  cases ph <;> rfl

theorem pushes_program (x : Job) (jobs : List Job) : pushes x (program jobs) = jobs.count x := by
  induction jobs with
  | nil => rfl
  | cons j jobs ih =>
    have hcons : program (j :: jobs) = .lock :: .exec (.push j) :: .unlock :: program jobs := rfl
    simp only [hcons, pushes, ih, List.count_cons, beq_iff_eq, Nat.add_comm]

theorem mem_allJobs {clients : List (List Int)} {j : Job} (h : j ∈ allJobs clients) :
    Issued clients j := by
  obtain ⟨l, hl, hj⟩ := List.mem_flatten.mp h
  obtain ⟨c, hc, rfl⟩ := List.mem_mapIdx.mp hl
  obtain ⟨k, hk, rfl⟩ := List.mem_mapIdx.mp hj
  exact ⟨clients[c], List.getElem?_eq_getElem hc, List.getElem?_eq_getElem hk⟩

theorem Issued.eq {clients : List (List Int)} {j j' : Job} (h : Issued clients j)
    (h' : Issued clients j') (hf : j'.future = j.future) : j' = j := by
  obtain ⟨is, hc, hi⟩ := h
  obtain ⟨is', hc', hi'⟩ := h'
  rw [hf] at hc' hi'
  obtain rfl := Option.some.inj (hc.symm.trans hc')
  have hi := Option.some.inj (hi.symm.trans hi')
  cases j
  cases j'
  simp_all

theorem nodup_jobsOf (c : Nat) (is : List Int) : (jobsOf c is).Nodup := by
  have hfutures : (jobsOf c is).map (fun j => j.future.2) = List.range is.length := by
    apply List.ext_getElem (by simp [jobsOf])
    intro k _ _
    simp [jobsOf]
  exact List.Nodup.of_map _ (hfutures ▸ List.nodup_range)

theorem nodup_allJobs (clients : List (List Int)) : (allJobs clients).Nodup := by
  rw [allJobs, List.nodup_flatten]
  constructor
  · intro l hl
    obtain ⟨c, hc, rfl⟩ := List.mem_mapIdx.mp hl
    exact nodup_jobsOf c _
  · rw [List.pairwise_iff_getElem]
    intro c c' hc hc' hlt j hj hj'
    simp only [List.getElem_mapIdx, jobsOf] at hj hj'
    obtain ⟨k, hk, rfl⟩ := List.mem_mapIdx.mp hj
    obtain ⟨k', hk', heq⟩ := List.mem_mapIdx.mp hj'
    have hfuture := congrArg (fun j : Job => j.future.1) heq
    exact absurd hfuture (Nat.ne_of_gt hlt)

theorem Good.push {clients : List (List Int)} {n : Nat} {s : AState} (hg : Good clients n s)
    {t : Nat} {j : Job} {c : ACode} {v : Unit}
    (hth : s.threads[t]? = some ⟨.exec (.push j) :: c, .running, v⟩) :
    j ∉ s.data.pushed ∧ Issued clients j := by
  have hle := le_total (owes j) hth
  have hcount := hg.count j
  have hnodup := List.nodup_iff_count_le_one.mp (nodup_allJobs clients) j
  simp only [owes, pushes, if_true] at hle
  refine ⟨List.count_eq_zero.mp (by omega), mem_allJobs (List.count_pos_iff.mp (by omega))⟩

/-! ### What each operation keeps -/

section Books

variable {clients : List (List Int)} {d : Shared} {j : Job}

theorem Books.push (hb : Books clients d) (hnew : j ∉ d.pushed) (hissued : Issued clients j) :
    Books clients { d with
      activationList := d.activationList ++ [j], pushed := d.pushed ++ [j] } where
  order := by
    rw [hb.order]
    simp only [List.append_assoc]
  nodup := by
    refine List.nodup_append.mpr ⟨hb.nodup, List.nodup_singleton j, ?_⟩
    intro x hx y hy
    obtain rfl := List.mem_singleton.mp hy
    rintro rfl
    exact hnew hx
  issued x hx := by
    rcases List.mem_append.mp hx with hx | hx
    · exact hb.issued x hx
    · obtain rfl := List.mem_singleton.mp hx
      exact hissued
  begun := hb.begun.trans (List.prefix_append _ _)
  fulfilled := hb.fulfilled
  waiting := hb.waiting

theorem Books.dequeue {rest : List Job} (hb : Books clients d) (htask : d.myTask = none)
    (hlist : d.activationList = j :: rest) :
    Books clients { d with activationList := rest, myTask := some j } where
  order := by
    rw [hb.order, htask, hlist]
    simp
  nodup := hb.nodup
  issued := hb.issued
  begun := hb.begun
  fulfilled := hb.fulfilled
  waiting := hb.waiting

/-- A dequeued task was not executed, and fulfils its own future only. -/
theorem Books.execute (hb : Books clients d) (htask : d.myTask = some j)
    (hprime : isPrime j.i = some (value j.i)) :
    ∃ d', d.execute = some d' ∧ Books clients d' ∧ d'.myTask = none ∧ d'.pushed = d.pushed ∧
      d'.activationList = d.activationList := by
  have horder := hb.order
  rw [htask] at horder
  have hmem : j ∈ d.pushed := by simp [horder]
  have hother : ∀ x ∈ d.executed, x.future ≠ j.future := by
    intro x hx hf
    have hxmem : x ∈ d.pushed := by simp [horder, hx]
    obtain rfl := (hb.issued j hmem).eq (hb.issued x hxmem) hf
    have hnodup := hb.nodup
    rw [horder, List.append_assoc] at hnodup
    exact (List.nodup_append.mp hnodup).2.2 x hx x (by simp) rfl
  have hexecute : d.execute = some { d with
      futures := Function.update d.futures j.future (some (value j.i))
      myTask := none
      executed := d.executed ++ [j] } := by
    simp only [Shared.execute, htask, hb.waiting _ hother, hprime]
  refine ⟨_, hexecute, ?_, rfl, rfl, rfl⟩
  refine ⟨by rw [horder]; simp, hb.nodup, hb.issued, hb.begun, ?_, ?_⟩
  · intro x hx
    rcases List.mem_append.mp hx with hx | hx
    · exact (Function.update_of_ne (hother x hx) _ _).trans (hb.fulfilled x hx)
    · obtain rfl := List.mem_singleton.mp hx
      exact Function.update_self _ _ _
  · intro f hf
    have hne : f ≠ j.future := fun heq => hf j (by simp) heq.symm
    refine (Function.update_of_ne hne _ _).trans (hb.waiting f fun x hx => hf x ?_)
    exact List.mem_append_left _ hx

end Books

/-! ### The steps -/

section Step

variable {clients : List (List Int)} {n : Nat} {s s' : AState}

theorem Good.servant_moves (hg : Good clients n s) {ph : Phase}
    (hph : s.threads[0]? = some ⟨ph.code, .running, ()⟩) (hbound : bound ph s ≤ n) (ph' : Phase)
    (hthreads : s'.threads = s.threads.set 0 ⟨ph'.code, .running, ()⟩)
    (hown : Ownership s'.owner s'.threads) (hfault : s'.fault = false)
    (hbooks : Books clients s'.data) (hknows : ph'.Knows s'.data)
    (hpushed : s'.data.pushed = s.data.pushed)
    (hless : ph'.left + 10 * s'.data.activationList.length <
      ph.left + 10 * s.data.activationList.length) : ∃ m < n, Good clients m s' := by
  have hcalls : s'.threads.tail = s.threads.tail := by
    rw [hthreads]
    cases s.threads <;> rfl
  have hlt : bound ph' s' < bound ph s := by
    simp only [bound, hcalls]
    omega
  refine ⟨bound ph' s', Nat.lt_of_lt_of_le hlt hbound, hown, hfault, hbooks, ?_, ?_, ?_⟩
  · have hlt := (List.getElem?_eq_some_iff.mp hph).1
    exact ⟨ph', by rw [hthreads, List.getElem?_set_self hlt], hknows, Nat.le_refl _⟩
  · intro t th hth
    rw [hthreads, List.getElem?_set_ne (Nat.succ_ne_zero t).symm] at hth
    exact hg.clients_at t th hth
  · intro x
    have htotal : total (owes x) s'.threads = total (owes x) s.threads := by
      rw [hthreads]
      exact total_set_of_eq hph ((pushes_servant x ph').trans (pushes_servant x ph).symm)
    rw [hpushed, htotal, hg.count x]

theorem Good.client_moves (hg : Good clients n s) {t : Nat} {c c' : ACode} {v : Unit}
    (hth : s.threads[t + 1]? = some ⟨c, .running, v⟩)
    (hthreads : s'.threads = s.threads.set (t + 1) ⟨c', .running, v⟩) (hclient : ClientAt c')
    (hown : Ownership s'.owner s'.threads) (hfault : s'.fault = false)
    (hbooks : Books clients s'.data) (hknows : ∀ ph : Phase, ph.Knows s.data → ph.Knows s'.data)
    (hcount : ∀ x, s'.data.pushed.count x + pushes x c' = s.data.pushed.count x + pushes x c)
    (hlength : c.length = c'.length + 1)
    (hlist : s'.data.activationList.length ≤ s.data.activationList.length + 1) :
    ∃ m < n, Good clients m s' := by
  obtain ⟨ph, hph, hk, hbound⟩ := hg.servant
  have hlt : bound ph s' < bound ph s := by
    have hx : s.threads.tail[t]? = some ⟨c, .running, v⟩ := by rwa [List.getElem?_tail]
    have htail : s'.threads.tail = s.threads.tail.set t ⟨c', .running, v⟩ := by
      rw [hthreads, List.set_tail]
    have htotal := total_set callsLeft hx ⟨c', .running, v⟩
    simp only [← htail, callsLeft] at htotal
    simp only [bound]
    omega
  refine ⟨bound ph s', Nat.lt_of_lt_of_le hlt hbound, hown, hfault, hbooks, ?_, ?_, ?_⟩
  · refine ⟨ph, ?_, hknows ph hk, Nat.le_refl _⟩
    rw [hthreads, List.getElem?_set_ne (Nat.succ_ne_zero t), hph]
  · intro u th hu
    rw [hthreads] at hu
    rcases getElem?_set_cases hu with ⟨-, rfl⟩ | ⟨-, hu⟩
    · exact ⟨rfl, hclient⟩
    · exact hg.clients_at u th hu
  · intro x
    have htotal := total_set (owes x) hth ⟨c', .running, v⟩
    have hx := hcount x
    have hold := hg.count x
    rw [hthreads]
    simp only [owes] at htotal
    omega

/-- The numbers are the callers'. -/
def InRange (clients : List (List Int)) : Prop :=
  ∀ is ∈ clients, ∀ i ∈ is, 1000000 ≤ i ∧ i ≤ 1000000000

theorem isPrime_issued (hrange : InRange clients) {j : Job} (hj : Issued clients j) :
    isPrime j.i = some (value j.i) := by
  obtain ⟨is, hc, hi⟩ := hj
  obtain ⟨hlo, hhi⟩ := hrange is (List.mem_of_getElem? hc) j.i (List.mem_of_getElem? hi)
  exact isPrime_eq (by omega) (by omega)

theorem good_servant (hrange : InRange clients) (hg : Good clients n s) {w : Nat} {ph : Phase}
    (hph : s.threads[0]? = some ⟨ph.code, .running, ()⟩) (hknows : ph.Knows s.data)
    (hbound : bound ph s ≤ n) (hst : instr sem s 0 w () ph.code = some s')
    (hown : Ownership s'.owner s'.threads) : ∃ m < n, Good clients m s' := by
  have hb := hg.books
  have hself := hg.own 0 _ hph
  cases ph with
  | begin =>
    obtain rfl := Option.some.inj hst
    refine hg.servant_moves hph hbound .lockEmpty rfl hown hg.safe ?_ hknows rfl
      (Nat.add_lt_add_right (by decide) _)
    exact ⟨hb.order, hb.nodup, hb.issued, List.prefix_refl _, hb.fulfilled, hb.waiting⟩
  | lockEmpty =>
    obtain ⟨-, hst⟩ := Option.ite_none_right_eq_some.mp hst
    obtain rfl := Option.some.inj hst
    exact hg.servant_moves hph hbound .readEmpty rfl hown hg.safe hb hknows rfl
      (Nat.add_lt_add_right (by decide) _)
  | readEmpty =>
    obtain rfl := Option.some.inj hst
    refine hg.servant_moves hph hbound .unlockEmpty rfl hown hg.safe ?_ ⟨hknows, ?_⟩ rfl
      (Nat.add_lt_add_right (by decide) _)
    · exact ⟨hb.order, hb.nodup, hb.issued, hb.begun, hb.fulfilled, hb.waiting⟩
    · have htask : s.data.myTask = none := hknows
      have horder := hb.order
      rw [htask] at horder
      cases hlist : s.data.activationList with
      | nil =>
        rw [hlist, Option.toList_none, List.append_nil, List.append_nil] at horder
        simpa [horder] using hb.begun
      | cons j rest => simp
  | unlockEmpty =>
    have hst : stepThread sem s 0 w ⟨Phase.unlockEmpty.code, .running, ()⟩ = some s' := hst
    obtain rfl := stepThread_unlock hself hst
    exact hg.servant_moves hph hbound .test rfl hown hg.safe hb hknows rfl
      (Nat.add_lt_add_right (by decide) _)
  | test =>
    obtain rfl := Option.some.inj hst
    cases hempty : s.data.empty with
    | true =>
      have hbegun : s.data.begun <+: s.data.executed := by simpa [hempty] using hknows.2
      exact hg.servant_moves hph hbound .ended (by simp [hempty, Phase.code]) hown hg.safe hb hbegun
        rfl (Nat.add_lt_add_right (by decide) _)
    | false =>
      refine hg.servant_moves hph hbound .lockDequeue (by simp [hempty]; rfl) hown hg.safe hb
        ⟨hknows.1, ?_⟩ rfl (Nat.add_lt_add_right (by decide) _)
      simpa [hempty] using hknows.2
  | lockDequeue =>
    obtain ⟨-, hst⟩ := Option.ite_none_right_eq_some.mp hst
    obtain rfl := Option.some.inj hst
    exact hg.servant_moves hph hbound .dequeue rfl hown hg.safe hb hknows rfl
      (Nat.add_lt_add_right (by decide) _)
  | dequeue =>
    obtain ⟨htask, hne⟩ := hknows
    cases hlist : s.data.activationList with
    | nil => exact absurd hlist hne
    | cons j rest =>
      simp only [Phase.code, instr, sem, hlist, Option.some.injEq] at hst
      subst hst
      exact hg.servant_moves hph hbound .unlockDequeue rfl hown hg.safe (hb.dequeue htask hlist) rfl
        rfl (by simp [Phase.left, hlist]; omega)
  | unlockDequeue =>
    have hst : stepThread sem s 0 w ⟨Phase.unlockDequeue.code, .running, ()⟩ = some s' := hst
    obtain rfl := stepThread_unlock hself hst
    exact hg.servant_moves hph hbound .execute rfl hown hg.safe hb hknows rfl
      (Nat.add_lt_add_right (by decide) _)
  | execute =>
    obtain ⟨j, htask⟩ := Option.isSome_iff_exists.mp hknows
    have hmem : j ∈ s.data.pushed := by simp [hb.order, htask]
    obtain ⟨d', hexecute, hb', htask', hpushed, hlist⟩ :=
      hb.execute htask (isPrime_issued hrange (hb.issued j hmem))
    simp only [Phase.code, instr, sem, hexecute, Option.map_some, Option.some.injEq] at hst
    subst hst
    exact hg.servant_moves hph hbound .lockEmpty rfl hown hg.safe hb' htask' hpushed
      (by simp [Phase.left, hlist])
  | ended => exact absurd hst (by simp [Phase.code, instr])

/-- The answer of `isEmpty` stays true when a task is enqueued. -/
theorem answer_push {d : Shared} {j : Job}
    (h : if d.empty then d.begun <+: d.executed else d.activationList ≠ []) :
    if d.empty then d.begun <+: d.executed else d.activationList ++ [j] ≠ [] := by
  split
  · rename_i hempty
    rwa [if_pos hempty] at h
  · simp

theorem good_client (hg : Good clients n s) {t w : Nat} {c : ACode} {v : Unit}
    (hth : s.threads[t + 1]? = some ⟨c, .running, v⟩) (hclient : ClientAt c)
    (hst : instr sem s (t + 1) w v c = some s') (hown : Ownership s'.owner s'.threads) :
    ∃ m < n, Good clients m s' := by
  have hself := hg.own (t + 1) _ hth
  obtain ⟨jobs, rfl | ⟨j, rfl⟩ | rfl⟩ := hclient
  · cases jobs with
    | nil => exact absurd hst (by simp [program, instr])
    | cons j jobs =>
      obtain ⟨-, hst⟩ := Option.ite_none_right_eq_some.mp hst
      obtain rfl := Option.some.inj hst
      exact hg.client_moves hth rfl ⟨jobs, .inr (.inl ⟨j, rfl⟩)⟩ hown hg.safe hg.books
        (fun _ hk => hk) (fun _ => rfl) rfl (Nat.le_succ _)
  · obtain rfl := Option.some.inj hst
    obtain ⟨hnew, hissued⟩ := hg.push hth
    refine hg.client_moves hth rfl ⟨jobs, .inr (.inr rfl)⟩ hown hg.safe (hg.books.push hnew hissued)
      ?_ ?_ rfl (by simp)
    · intro ph hk
      -- what the servant knows stays true
      cases ph with
      | unlockEmpty => exact ⟨hk.1, answer_push hk.2⟩
      | test => exact ⟨hk.1, answer_push hk.2⟩
      | lockDequeue => exact ⟨hk.1, by simp⟩
      | dequeue => exact ⟨hk.1, by simp⟩
      | _ => exact hk
    · intro x
      simp only [pushes, List.count_append, List.count_singleton, beq_iff_eq]
      omega
  · have hst : stepThread sem s (t + 1) w ⟨.unlock :: program jobs, .running, v⟩ = some s' := hst
    obtain rfl := stepThread_unlock hself hst
    exact hg.client_moves hth rfl ⟨jobs, .inl rfl⟩ hown hg.safe hg.books (fun _ hk => hk)
      (fun _ => rfl) rfl (Nat.le_succ _)

/-- **A step keeps the invariant**, and is one of those that were left. -/
theorem good_step (hrange : InRange clients) (hg : Good clients n s) {a : Act}
    (hst : Monitor.step sem s a = some s') : ∃ m < n, Good clients m s' := by
  have hown := ownership_step hg.own hst
  have hrunning : ∀ (t : Nat) (th : AThread), s.threads[t]? = some th → th.status = .running := by
    intro t th hth
    cases t with
    | zero =>
      obtain ⟨ph, hph, -⟩ := hg.servant
      obtain rfl := Option.some.inj (hph.symm.trans hth)
      rfl
    | succ t => exact (hg.clients_at t th hth).1
  simp only [Monitor.step, hg.safe, if_neg Bool.false_ne_true] at hst
  cases a with
  | spurious t =>
    obtain ⟨th, hth, hst⟩ := Option.bind_eq_some_iff.mp hst
    simp [wake, hrunning t th hth] at hst
  | run t w =>
    obtain ⟨th, hth, hst⟩ := Option.bind_eq_some_iff.mp hst
    simp only [stepThread, hrunning t th hth] at hst
    cases t with
    | zero =>
      obtain ⟨ph, hph, hknows, hbound⟩ := hg.servant
      obtain rfl := Option.some.inj (hph.symm.trans hth)
      exact good_servant hrange hg hph hknows hbound hst hown
    | succ t =>
      obtain ⟨hstatus, hclient⟩ := hg.clients_at t th hth
      obtain ⟨c, st, v⟩ := th
      obtain rfl : st = .running := hstatus
      exact good_client hg hth hclient hst hown

end Step

end Cpp20Examples.ActiveObject
