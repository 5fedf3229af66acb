import Cpp20Examples.Lib.System
import Mathlib.Algebra.Order.BigOperators.Group.List
import Mathlib.Algebra.Order.Group.Nat
import Mathlib.Algebra.GroupWithZero.Nat

/-!
# Threads that share a mutex

A thread runs a list of instructions on a shared memory `σ` and its own
variables `ℓ`.  One step of the system is one instruction of one thread, so an
interleaving is the order of the `Act.run`s, and the memory is sequentially
consistent.

* `exec o` is one atomic operation; `sem o` says what it does, and `none` is an
  operation outside its domain: the system is then at `fault` and stops.
* `await p` is enabled where `p` holds: an atomic `wait`, a semaphore's test.
* `lock`, `unlock` are those of the one mutex.
* `wait cv p` is the wait of a condition variable with a predicate, under the
  mutex: it passes on when `p` holds, else it gives the mutex up and sleeps.  A
  sleeper is woken by `notifyOne` or spuriously, takes the mutex again
  (`retesting`) and is back at its test.
* `notifyOne cv` wakes one sleeper if there is one: the second number of `run`
  is the sleeper that it wakes.
* `loop p body` is `while (p) body`, its test one step of its own.

`Balanced` says that a code brackets its critical sections.  `ownership`: when
all codes do, the owner of the mutex is the thread that is inside a section, in
every reachable state.
-/

namespace Lib.Monitor

/-- One instruction: `ι` names the atomic operations, `κ` the condition
variables, `σ` is the shared memory. -/
inductive Instr (ι κ σ : Type)
  | exec (o : ι)
  | await (p : σ → Bool)
  | lock
  | unlock
  | wait (cv : κ) (p : σ → Bool)
  | notifyOne (cv : κ)
  | loop (p : σ → Bool) (body : List (Instr ι κ σ))

abbrev Code (ι κ σ : Type) := List (Instr ι κ σ)

inductive Status (κ : Type)
  | running
  | asleep (cv : κ)
  | woken
  | retesting
  deriving DecidableEq

structure Thread (ι κ σ ℓ : Type) where
  code : Code ι κ σ
  status : Status κ := .running
  vars : ℓ

structure State (ι κ σ ℓ : Type) where
  data : σ
  owner : Option Nat := none
  threads : List (Thread ι κ σ ℓ)
  fault : Bool := false

/-- `run t w`: thread `t` takes a step, and `w` is the sleeper it wakes if the
step is a notification.  `spurious t`: the sleeper `t` wakes up by itself. -/
inductive Act
  | run (t w : Nat)
  | spurious (t : Nat)

def Act.thread : Act → Nat
  | run t _ => t
  | spurious t => t

variable {ι κ σ ℓ : Type}

def State.set (s : State ι κ σ ℓ) (t : Nat) (th : Thread ι κ σ ℓ) : State ι κ σ ℓ :=
  { s with threads := s.threads.set t th }

@[simp] theorem State.set_data (s : State ι κ σ ℓ) (t : Nat) (th : Thread ι κ σ ℓ) :
    (s.set t th).data = s.data := rfl
@[simp] theorem State.set_owner (s : State ι κ σ ℓ) (t : Nat) (th : Thread ι κ σ ℓ) :
    (s.set t th).owner = s.owner := rfl
@[simp] theorem State.set_threads (s : State ι κ σ ℓ) (t : Nat) (th : Thread ι κ σ ℓ) :
    (s.set t th).threads = s.threads.set t th := rfl
@[simp] theorem State.set_fault (s : State ι κ σ ℓ) (t : Nat) (th : Thread ι κ σ ℓ) :
    (s.set t th).fault = s.fault := rfl

/-- A thread is asleep on `cv`. -/
def Thread.sleepsOn [DecidableEq κ] (cv : κ) (th : Thread ι κ σ ℓ) : Bool :=
  th.status = .asleep cv

section Step

variable [DecidableEq κ] (sem : ι → σ → ℓ → Option (σ × ℓ))

/-- The notification of `cv` by a thread of which the rest is `th`: it wakes the
sleeper `w`, and nobody when nobody sleeps. -/
def notify (cv : κ) (s : State ι κ σ ℓ) (t w : Nat) (th : Thread ι κ σ ℓ) :
    Option (State ι κ σ ℓ) :=
  if s.threads.any (Thread.sleepsOn cv) then
    match s.threads[w]? with
    | some sleeper =>
      if sleeper.sleepsOn cv then some ((s.set t th).set w { sleeper with status := .woken })
      else none
    | none => none
  else some (s.set t th)

/-- The instruction at the head of the code of a thread that is not suspended. -/
def instr (s : State ι κ σ ℓ) (t w : Nat) (v : ℓ) :
    Code ι κ σ → Option (State ι κ σ ℓ)
  | [] => none
  | .exec o :: c =>
    match sem o s.data v with
    | some (d, v) => some { s.set t ⟨c, .running, v⟩ with data := d }
    | none => some { s with fault := true }
  | .await p :: c => if p s.data then some (s.set t ⟨c, .running, v⟩) else none
  | .lock :: c =>
    if s.owner = none then some { s.set t ⟨c, .running, v⟩ with owner := some t } else none
  | .unlock :: c =>
    if s.owner = some t then some { s.set t ⟨c, .running, v⟩ with owner := none }
    else some { s with fault := true }
  | .wait cv p :: c =>
    if s.owner = some t then
      if p s.data then some (s.set t ⟨c, .running, v⟩)
      else some { s.set t ⟨.wait cv p :: c, .asleep cv, v⟩ with owner := none }
    else some { s with fault := true }
  | .notifyOne cv :: c => notify cv s t w ⟨c, .running, v⟩
  | .loop p body :: c =>
    some (s.set t ⟨if p s.data then body ++ .loop p body :: c else c, .running, v⟩)

def stepThread (s : State ι κ σ ℓ) (t w : Nat) (th : Thread ι κ σ ℓ) :
    Option (State ι κ σ ℓ) :=
  match th.status with
  | .asleep _ => none
  | .woken =>
    if s.owner = none then some { s.set t { th with status := .retesting } with owner := some t }
    else none
  | .running | .retesting => instr sem s t w th.vars th.code

/-- A spurious wake-up. -/
def wake (s : State ι κ σ ℓ) (t : Nat) (th : Thread ι κ σ ℓ) : Option (State ι κ σ ℓ) :=
  match th.status with
  | .asleep _ => some (s.set t { th with status := .woken })
  | _ => none

def step (s : State ι κ σ ℓ) (a : Act) : Option (State ι κ σ ℓ) :=
  if s.fault then none
  else
    match a with
    | .run t w => s.threads[t]?.bind (stepThread sem s t w)
    | .spurious t => s.threads[t]?.bind (wake s t)

/-- The system of the threads `threads` on the memory `data`. -/
def system (data : σ) (threads : List (Thread ι κ σ ℓ)) : System (State ι κ σ ℓ) Act where
  init := { data, threads }
  step := step sem

/-- Thread `t` can take a step. -/
def CanRun (s : State ι κ σ ℓ) (t : Nat) : Prop := ∃ w s', step sem s (.run t w) = some s'

end Step

section Inversion

variable [DecidableEq κ] {sem : ι → σ → ℓ → Option (σ × ℓ)} {s s' : State ι κ σ ℓ} {t w : Nat}

theorem notify_cases {cv : κ} {th : Thread ι κ σ ℓ} (h : notify cv s t w th = some s') :
    (∃ sleeper, s.threads[w]? = some sleeper ∧ sleeper.sleepsOn cv = true ∧
      s' = (s.set t th).set w { sleeper with status := .woken }) ∨
    ((∀ x ∈ s.threads, x.sleepsOn cv = false) ∧ s' = s.set t th) := by
  unfold notify at h
  split at h
  · split at h
    · rename_i sleeper hw
      obtain ⟨hsl, h⟩ := Option.ite_none_right_eq_some.mp h
      exact .inl ⟨sleeper, hw, hsl, (Option.some.inj h).symm⟩
    · exact absurd h (by simp)
  · rename_i hany
    refine .inr ⟨?_, (Option.some.inj h).symm⟩
    simpa using hany

theorem canRun_of_isSome (h : (step sem s (.run t w)).isSome = true) : CanRun sem s t :=
  ⟨w, _, Option.eq_some_of_isSome h⟩

theorem exists_notify (cv : κ) (s : State ι κ σ ℓ) (t : Nat) (th : Thread ι κ σ ℓ) :
    ∃ w s', notify cv s t w th = some s' := by
  by_cases hany : s.threads.any (Thread.sleepsOn cv) = true
  · obtain ⟨sleeper, hmem, hsl⟩ := List.any_eq_true.mp hany
    obtain ⟨w, hw⟩ := List.mem_iff_getElem?.mp hmem
    exact ⟨w, _, by rw [notify, if_pos hany, hw]; exact if_pos hsl⟩
  · exact ⟨0, _, by rw [notify, if_neg hany]⟩

end Inversion

theorem wake_cases {s s' : State ι κ σ ℓ} {t : Nat} {th : Thread ι κ σ ℓ}
    (h : wake s t th = some s') :
    ∃ cv, th.status = .asleep cv ∧ s' = s.set t { th with status := .woken } := by
  unfold wake at h
  split at h
  · rename_i cv hst
    exact ⟨cv, hst, (Option.some.inj h).symm⟩
  · exact absurd h (by simp)

/-- Every critical section is one step: while the mutex is owned, only its owner
moves. -/
def Uninterrupted (s : State ι κ σ ℓ) (a : Act) : Bool :=
  s.owner = none ∨ s.owner = some a.thread

theorem getElem?_pair_cases {α : Type} {x y z : α} {t : Nat} (h : [x, y][t]? = some z) :
    (t = 0 ∧ z = x) ∨ (t = 1 ∧ z = y) := by
  rcases t with _ | _ | t
  · exact .inl ⟨rfl, (Option.some.inj h).symm⟩
  · exact .inr ⟨rfl, (Option.some.inj h).symm⟩
  · exact absurd h (by simp)

/-! ### Critical sections -/

/-- A code that brackets its critical sections; the flag says whether it starts
inside one.  Loops stay outside. -/
inductive Balanced : Bool → Code ι κ σ → Prop
  | nil : Balanced false []
  | exec {b : Bool} {o : ι} {c : Code ι κ σ} : Balanced b c → Balanced b (.exec o :: c)
  | await {b : Bool} {p : σ → Bool} {c : Code ι κ σ} : Balanced b c → Balanced b (.await p :: c)
  | lock {c : Code ι κ σ} : Balanced true c → Balanced false (.lock :: c)
  | unlock {c : Code ι κ σ} : Balanced false c → Balanced true (.unlock :: c)
  | wait {cv : κ} {p : σ → Bool} {c : Code ι κ σ} : Balanced true c →
      Balanced true (.wait cv p :: c)
  | notifyOne {b : Bool} {cv : κ} {c : Code ι κ σ} : Balanced b c →
      Balanced b (.notifyOne cv :: c)
  | loop {p : σ → Bool} {body c : Code ι κ σ} : Balanced false body → Balanced false c →
      Balanced false (.loop p body :: c)

@[simp] theorem balanced_nil {b : Bool} : Balanced b ([] : Code ι κ σ) ↔ b = false :=
  ⟨fun h => by cases h; rfl, fun h => h ▸ .nil⟩

@[simp] theorem balanced_exec {b : Bool} {o : ι} {c : Code ι κ σ} :
    Balanced b (.exec o :: c) ↔ Balanced b c :=
  ⟨fun h => by cases h; assumption, .exec⟩

@[simp] theorem balanced_await {b : Bool} {p : σ → Bool} {c : Code ι κ σ} :
    Balanced b (.await p :: c) ↔ Balanced b c :=
  ⟨fun h => by cases h; assumption, .await⟩

@[simp] theorem balanced_lock {b : Bool} {c : Code ι κ σ} :
    Balanced b (.lock :: c) ↔ b = false ∧ Balanced true c :=
  ⟨fun h => by cases h; exact ⟨rfl, ‹_›⟩, fun h => h.1 ▸ .lock h.2⟩

@[simp] theorem balanced_unlock {b : Bool} {c : Code ι κ σ} :
    Balanced b (.unlock :: c) ↔ b = true ∧ Balanced false c :=
  ⟨fun h => by cases h; exact ⟨rfl, ‹_›⟩, fun h => h.1 ▸ .unlock h.2⟩

@[simp] theorem balanced_wait {b : Bool} {cv : κ} {p : σ → Bool} {c : Code ι κ σ} :
    Balanced b (.wait cv p :: c) ↔ b = true ∧ Balanced true c :=
  ⟨fun h => by cases h; exact ⟨rfl, ‹_›⟩, fun h => h.1 ▸ .wait h.2⟩

@[simp] theorem balanced_notifyOne {b : Bool} {cv : κ} {c : Code ι κ σ} :
    Balanced b (.notifyOne cv :: c) ↔ Balanced b c :=
  ⟨fun h => by cases h; assumption, .notifyOne⟩

@[simp] theorem balanced_loop {b : Bool} {p : σ → Bool} {body c : Code ι κ σ} :
    Balanced b (.loop p body :: c) ↔ b = false ∧ Balanced false body ∧ Balanced false c :=
  ⟨fun h => by cases h; exact ⟨rfl, ‹_›, ‹_›⟩, fun h => h.1 ▸ .loop h.2.1 h.2.2⟩

theorem Balanced.append {b : Bool} {c₁ c₂ : Code ι κ σ} (h₁ : Balanced b c₁)
    (h₂ : Balanced false c₂) : Balanced b (c₁ ++ c₂) := by
  induction h₁ with
  | nil => exact h₂
  | exec _ ih => exact .exec ih
  | await _ ih => exact .await ih
  | lock _ ih => exact .lock ih
  | unlock _ ih => exact .unlock ih
  | wait _ ih => exact .wait ih
  | notifyOne _ ih => exact .notifyOne ih
  | loop hb _ _ ih => exact .loop hb ih

theorem Balanced.flatten {cs : List (Code ι κ σ)} (h : ∀ c ∈ cs, Balanced false c) :
    Balanced false cs.flatten := by
  induction cs with
  | nil => exact .nil
  | cons c cs ih =>
    exact (h c (List.mem_cons_self ..)).append (ih fun d hd => h d (List.mem_cons_of_mem c hd))

/-- A code starts inside a section or outside one. -/
theorem Balanced.unique {b b' : Bool} {c : Code ι κ σ} (h : Balanced b c) (h' : Balanced b' c) :
    b = b' := by
  induction h with
  | nil => exact (balanced_nil.mp h').symm
  | exec _ ih => exact ih (balanced_exec.mp h')
  | await _ ih => exact ih (balanced_await.mp h')
  | lock _ _ => exact (balanced_lock.mp h').1.symm
  | unlock _ _ => exact (balanced_unlock.mp h').1.symm
  | wait _ _ => exact (balanced_wait.mp h').1.symm
  | notifyOne _ ih => exact ih (balanced_notifyOne.mp h')
  | loop _ _ _ _ => exact (balanced_loop.mp h').1.symm

/-- Thread `t` owns the mutex exactly when its code is inside a section; a
suspended thread is inside its section and does not own the mutex. -/
def Holds (owner : Option Nat) (t : Nat) (th : Thread ι κ σ ℓ) : Prop :=
  match th.status with
  | .running | .retesting => Balanced (decide (owner = some t)) th.code
  | .asleep _ | .woken => owner ≠ some t ∧ Balanced true th.code

/-- What `ownership` proves of the reachable states. -/
def Ownership (owner : Option Nat) (threads : List (Thread ι κ σ ℓ)) : Prop :=
  ∀ t th, threads[t]? = some th → Holds owner t th

theorem Holds.congr {owner owner' : Option Nat} {t : Nat} {th : Thread ι κ σ ℓ}
    (h : Holds owner t th) (ho : owner' = some t ↔ owner = some t) : Holds owner' t th := by
  unfold Holds at h ⊢
  simpa only [ne_eq, ho] using h

theorem Ownership.set {owner owner' : Option Nat} {threads : List (Thread ι κ σ ℓ)}
    (h : Ownership owner threads) {t : Nat} (th : Thread ι κ σ ℓ) (ht : Holds owner' t th)
    (ho : ∀ u, u ≠ t → (owner' = some u ↔ owner = some u)) :
    Ownership owner' (threads.set t th) := by
  intro u x hx
  rcases getElem?_set_cases hx with ⟨rfl, rfl⟩ | ⟨hu, hx⟩
  · exact ht
  · exact (h u x hx).congr (ho u hu)

section Ownership

variable [DecidableEq κ] {sem : ι → σ → ℓ → Option (σ × ℓ)} {s s' : State ι κ σ ℓ}

theorem ownership_instr {t w : Nat} {v : ℓ} {c : Code ι κ σ} (h : Ownership s.owner s.threads)
    (hc : Balanced (decide (s.owner = some t)) c) (hst : instr sem s t w v c = some s') :
    Ownership s'.owner s'.threads := by
  have same : ∀ u, u ≠ t → (s.owner = some u ↔ s.owner = some u) := fun _ _ => Iff.rfl
  cases c with
  | nil => exact absurd hst (by simp [instr])
  | cons i c =>
    cases i with
    | exec o =>
      simp only [balanced_exec] at hc
      simp only [instr] at hst
      split at hst <;> obtain rfl := Option.some.inj hst
      · exact h.set ⟨c, .running, _⟩ hc same
      · exact h
    | await p =>
      simp only [balanced_await] at hc
      simp only [instr, Option.ite_none_right_eq_some] at hst
      obtain rfl := Option.some.inj hst.2
      exact h.set ⟨c, .running, _⟩ hc same
    | lock =>
      simp only [balanced_lock, decide_eq_false_iff_not] at hc
      simp only [instr, Option.ite_none_right_eq_some] at hst
      obtain ⟨ho, hst⟩ := hst
      obtain rfl := Option.some.inj hst
      apply h.set ⟨c, .running, _⟩ (by simpa [Holds] using hc.2)
      intro u hu
      simp [ho, Ne.symm hu]
    | unlock =>
      simp only [balanced_unlock, decide_eq_true_eq] at hc
      obtain ⟨ho, hc⟩ := hc
      simp only [instr, ho, if_true] at hst
      obtain rfl := Option.some.inj hst
      apply h.set ⟨c, .running, _⟩ (by simpa [Holds] using hc)
      intro u hu
      simp [ho, Ne.symm hu]
    | wait cv p =>
      simp only [balanced_wait, decide_eq_true_eq] at hc
      obtain ⟨ho, hc⟩ := hc
      simp only [instr, ho, if_true] at hst
      split at hst <;> obtain rfl := Option.some.inj hst
      · exact h.set ⟨c, .running, _⟩ (by simpa [Holds, ho] using hc) same
      · refine h.set ⟨.wait cv p :: c, .asleep cv, _⟩ (by simpa [Holds] using hc)
          ?_
        intro u hu
        simp [ho, Ne.symm hu]
    | notifyOne cv =>
      simp only [balanced_notifyOne] at hc
      have hset : Ownership s.owner (s.threads.set t ⟨c, .running, v⟩) :=
        h.set ⟨c, .running, _⟩ hc same
      rcases notify_cases hst with ⟨sleeper, hw, hsl, rfl⟩ | ⟨_, rfl⟩
      · have hsl : sleeper.status = .asleep cv := by simpa [Thread.sleepsOn] using hsl
        have hw := h w sleeper hw
        simp only [Holds, hsl] at hw
        exact hset.set { sleeper with status := .woken } hw fun _ _ => Iff.rfl
      · exact hset
    | loop p body =>
      simp only [balanced_loop, decide_eq_false_iff_not] at hc
      obtain ⟨ho, hbody, hc⟩ := hc
      obtain rfl := Option.some.inj hst
      refine h.set _ ?_ same
      simp only [Holds, State.set_owner, ho, decide_false]
      split
      · exact hbody.append (.loop hbody hc)
      · exact hc

theorem ownership_step {a : Act} (h : Ownership s.owner s.threads)
    (hst : step sem s a = some s') : Ownership s'.owner s'.threads := by
  unfold step at hst
  split at hst
  · exact absurd hst (by simp)
  · cases a with
    | run t w =>
      obtain ⟨th, hth, hst⟩ := Option.bind_eq_some_iff.mp hst
      have ht := h t th hth
      unfold stepThread at hst
      unfold Holds at ht
      cases hs : th.status with
      | asleep cv => simp [hs] at hst
      | woken =>
        simp only [hs, Option.ite_none_right_eq_some] at hst ht
        obtain ⟨ho, hst⟩ := hst
        obtain rfl := Option.some.inj hst
        apply h.set _ (by simpa [Holds] using ht.2)
        intro u hu
        simp [ho, Ne.symm hu]
      | running => simp only [hs] at hst ht; exact ownership_instr h ht hst
      | retesting => simp only [hs] at hst ht; exact ownership_instr h ht hst
    | spurious t =>
      obtain ⟨th, hth, hst⟩ := Option.bind_eq_some_iff.mp hst
      have ht := h t th hth
      unfold wake at hst
      cases hs : th.status with
      | asleep cv =>
        simp only [hs] at hst
        simp only [Holds, hs] at ht
        obtain rfl := Option.some.inj hst
        exact h.set { th with status := .woken } ht fun _ _ => Iff.rfl
      | woken => simp [hs] at hst
      | running => simp [hs] at hst
      | retesting => simp [hs] at hst

/-- **Mutual exclusion.**  When every thread starts outside its sections and
brackets them, the owner of the mutex is the thread inside a section. -/
theorem ownership {data : σ} {threads : List (Thread ι κ σ ℓ)} {ok : State ι κ σ ℓ → Act → Prop}
    (h0 : ∀ th ∈ threads, th.status = .running ∧ Balanced false th.code)
    (h : (system sem data threads).ReachableBy ok s) : Ownership s.owner s.threads := by
  refine h.invariant (I := fun s => Ownership s.owner s.threads) ?_ ?_
  · intro t th hth
    obtain ⟨hs, hb⟩ := h0 th (List.mem_of_getElem? hth)
    simpa [Holds, hs, system] using hb
  · intro s a s' hs _ hst
    exact ownership_step hs hst

theorem instr_owner_lt {t w : Nat} {v : ℓ} {c : Code ι κ σ} (ht : t < s.threads.length)
    (h : ∀ u, s.owner = some u → u < s.threads.length) (hst : instr sem s t w v c = some s') :
    ∀ u, s'.owner = some u → u < s'.threads.length := by
  cases c with
  | nil => exact absurd hst (by simp [instr])
  | cons i c =>
    cases i with
    | exec o =>
      simp only [instr] at hst
      split at hst <;> obtain rfl := Option.some.inj hst
      · simpa using h
      · exact h
    | await p =>
      obtain ⟨-, hst⟩ := Option.ite_none_right_eq_some.mp hst
      obtain rfl := Option.some.inj hst
      simpa using h
    | lock =>
      obtain ⟨-, hst⟩ := Option.ite_none_right_eq_some.mp hst
      obtain rfl := Option.some.inj hst
      simpa using ht
    | unlock =>
      simp only [instr] at hst
      split at hst <;> obtain rfl := Option.some.inj hst
      · simp
      · exact h
    | wait cv p =>
      simp only [instr] at hst
      split at hst
      · split at hst <;> obtain rfl := Option.some.inj hst
        · simpa using h
        · simp
      · obtain rfl := Option.some.inj hst
        exact h
    | notifyOne cv =>
      rcases notify_cases hst with ⟨sleeper, -, -, rfl⟩ | ⟨-, rfl⟩ <;> simpa using h
    | loop p body =>
      obtain rfl := Option.some.inj hst
      simpa using h

theorem owner_lt {data : σ} {threads : List (Thread ι κ σ ℓ)} {ok : State ι κ σ ℓ → Act → Prop}
    (hs : (system sem data threads).ReachableBy ok s) :
    ∀ u, s.owner = some u → u < s.threads.length := by
  refine hs.invariant (I := fun s => ∀ u, s.owner = some u → u < s.threads.length) ?_ ?_
  · exact fun u hu => absurd hu (by simp [system])
  · intro s a s' h _ hst
    simp only [system, step] at hst
    split at hst
    · exact absurd hst (by simp)
    · cases a with
      | run t w =>
        obtain ⟨th, hth, hst⟩ := Option.bind_eq_some_iff.mp hst
        have ht := (List.getElem?_eq_some_iff.mp hth).1
        unfold stepThread at hst
        split at hst
        · exact absurd hst (by simp)
        · obtain ⟨-, hst⟩ := Option.ite_none_right_eq_some.mp hst
          obtain rfl := Option.some.inj hst
          simpa using ht
        · exact instr_owner_lt ht h hst
        · exact instr_owner_lt ht h hst
      | spurious t =>
        obtain ⟨th, -, hst⟩ := Option.bind_eq_some_iff.mp hst
        unfold wake at hst
        split at hst
        · obtain rfl := Option.some.inj hst
          simpa using h
        · exact absurd hst (by simp)

/-- **A thread in the wait of a condition variable** takes the mutex again, passes
its test, or goes to sleep. -/
theorem stepThread_wait {t w : Nat} {cv : κ} {p : σ → Bool} {c : Code ι κ σ} {st : Status κ} {v : ℓ}
    (hown : Holds s.owner t ⟨.wait cv p :: c, st, v⟩)
    (h : stepThread sem s t w ⟨.wait cv p :: c, st, v⟩ = some s') :
    (st = .woken ∧ s.owner = none ∧
      s' = { s.set t ⟨.wait cv p :: c, .retesting, v⟩ with owner := some t }) ∨
    ((st = .running ∨ st = .retesting) ∧ p s.data = true ∧ s' = s.set t ⟨c, .running, v⟩) ∨
    ((st = .running ∨ st = .retesting) ∧ p s.data = false ∧
      s' = { s.set t ⟨.wait cv p :: c, .asleep cv, v⟩ with owner := none }) := by
  have test : (st = .running ∨ st = .retesting) → s.owner = some t →
      instr sem s t w v (.wait cv p :: c) = some s' →
      ((st = .running ∨ st = .retesting) ∧ p s.data = true ∧ s' = s.set t ⟨c, .running, v⟩) ∨
      ((st = .running ∨ st = .retesting) ∧ p s.data = false ∧
        s' = { s.set t ⟨.wait cv p :: c, .asleep cv, v⟩ with owner := none }) := by
    intro hst ho h
    rw [instr, if_pos ho] at h
    split at h <;> rename_i hp
    · exact .inl ⟨hst, hp, (Option.some.inj h).symm⟩
    · exact .inr ⟨hst, eq_false_of_ne_true hp, (Option.some.inj h).symm⟩
  cases st with
  | asleep cv' => exact absurd h (by simp [stepThread])
  | woken =>
    obtain ⟨ho, h⟩ := Option.ite_none_right_eq_some.mp h
    exact .inl ⟨rfl, ho, (Option.some.inj h).symm⟩
  | running => exact .inr (test (.inl rfl) (of_decide_eq_true (balanced_wait.mp hown).1) h)
  | retesting => exact .inr (test (.inr rfl) (of_decide_eq_true (balanced_wait.mp hown).1) h)

theorem stepThread_unlock {t w : Nat} {c : Code ι κ σ} {v : ℓ}
    (hown : Holds s.owner t ⟨.unlock :: c, .running, v⟩)
    (h : stepThread sem s t w ⟨.unlock :: c, .running, v⟩ = some s') :
    s' = { s.set t ⟨c, .running, v⟩ with owner := none } := by
  have ho : s.owner = some t := of_decide_eq_true (balanced_unlock.mp hown).1
  have h : instr sem s t w v (.unlock :: c) = some s' := h
  rw [instr, if_pos ho] at h
  exact (Option.some.inj h).symm

end Ownership

/-! ### Counting threads -/

theorem forall_mem_set {α : Type} {P : α → Prop} {l : List α} (h : ∀ x ∈ l, P x) {y : α} (hy : P y)
    (t : Nat) : ∀ x ∈ l.set t y, P x := by
  intro x hx
  rcases List.mem_or_eq_of_mem_set hx with hx | rfl
  · exact h x hx
  · exact hy

section Totals

variable {α M : Type} [AddCommMonoid M]

/-- The sum of a weight over the threads. -/
def total (w : α → M) (l : List α) : M := (l.map w).sum

theorem total_set (w : α → M) {l : List α} {t : Nat} {x : α} (h : l[t]? = some x) (y : α) :
    total w (l.set t y) + w x = total w l + w y := by
  obtain ⟨r, hr, hset⟩ := exists_rest w h
  rw [total, total, hr, hset, add_comm, add_left_comm, add_comm]

theorem total_set_of_eq {w : α → M} {l : List α} {t : Nat} {x y : α} (h : l[t]? = some x)
    (hw : w y = w x) : total w (l.set t y) = total w l := by
  obtain ⟨r, hr, hset⟩ := exists_rest w h
  rw [total, total, hr, hset, hw]

theorem le_total (w : α → Nat) {l : List α} {t : Nat} {x : α} (h : l[t]? = some x) :
    w x ≤ total w l :=
  List.le_sum_of_mem (List.mem_map_of_mem (List.mem_of_getElem? h))

theorem total_eq_zero {w : α → M} {l : List α} (h : ∀ x ∈ l, w x = 0) : total w l = 0 :=
  List.sum_eq_zero (by simpa using h)

theorem total_append (w : α → M) (l l' : List α) : total w (l ++ l') = total w l + total w l' := by
  simp [total]

theorem total_replicate (w : α → M) (n : Nat) (x : α) :
    total w (List.replicate n x) = n • w x := by
  simp [total]

end Totals

end Lib.Monitor
