import Cpp20Examples.Lib.Threads

/-!
# A barrier

A barrier counts the threads that are still to arrive in its phase.  The phase is complete
when all have arrived, and the next one begins.  A thread that has arrived waits until its
phase is complete, or has dropped out, and then the phases that follow expect one less.

* `Parties`: where the threads of a system are at a barrier.
* `InPhase`: the barrier has counted them, and no thread is ahead by more than one phase.
* `inPhase_step`, `inPhase`: every step keeps this.
* `InPhase.arrived`: the threads have arrived in the phases that are complete.
* `InPhase.exists_behind`: in the current phase somebody is still to arrive.
-/

namespace Lib.Threads

/-- `std::barrier`: how many are expected in the next phases, and how many are still to
arrive in this one. -/
structure Barrier where
  expected : Nat
  pending : Nat
  phase : Nat := 0
  deriving DecidableEq

namespace Barrier

/-- A barrier that expects so many threads. -/
def new (expected : Nat) : Barrier := ⟨expected, expected, 0⟩

/-- `arrive`: the last one completes the phase. -/
def arrive (b : Barrier) : Barrier :=
  if b.pending = 1 then { b with pending := b.expected, phase := b.phase + 1 }
  else { b with pending := b.pending - 1 }

/-- `arrive_and_drop` -/
def arriveAndDrop (b : Barrier) : Barrier := { b with expected := b.expected - 1 }.arrive

end Barrier

variable {σ ℓ : Type} {next : Next σ ℓ} {data : σ} {threads : List ℓ}
  {ok : State σ ℓ → Nat → Prop} {s s' : State σ ℓ} {t : Nat}

/-- The barrier, how often a thread has arrived, the phase for the end of which it waits,
and whether it has dropped out. -/
structure Parties (σ ℓ : Type) where
  barrier : σ → Barrier
  arrivals : ℓ → Nat
  token : ℓ → Option Nat
  dropped : ℓ → Bool

namespace Parties

variable {m : Parties σ ℓ}

/-- What a step does at the barrier. -/
inductive Move (m : Parties σ ℓ) (d : σ) (v : ℓ) (d' : σ) (v' : ℓ) : Prop
  | keep (hbarrier : m.barrier d' = m.barrier d) (harrivals : m.arrivals v' = m.arrivals v)
      (htoken : m.token v' = m.token v) (hdropped : m.dropped v' = m.dropped v)
  | arrive (hhere : m.dropped v = false) (hworks : m.token v = none)
      (hbarrier : m.barrier d' = (m.barrier d).arrive)
      (harrivals : m.arrivals v' = m.arrivals v + 1)
      (htoken : m.token v' = some (m.barrier d).phase) (hdropped : m.dropped v' = false)
  | drop (hhere : m.dropped v = false) (hworks : m.token v = none)
      (hbarrier : m.barrier d' = (m.barrier d).arriveAndDrop) (hdropped : m.dropped v' = true)
  | leave (k : Nat) (hwaits : m.token v = some k) (hcomplete : k ≠ (m.barrier d).phase)
      (hbarrier : m.barrier d' = m.barrier d) (harrivals : m.arrivals v' = m.arrivals v)
      (htoken : m.token v' = none) (hdropped : m.dropped v' = m.dropped v)

def Respected (m : Parties σ ℓ) (next : Next σ ℓ) : Prop :=
  ∀ {t d v d' v'}, next t d v = some (d', v') → m.Move d v d' v'

/-- The thread has not dropped out. -/
def here (m : Parties σ ℓ) (v : ℓ) : Bool := !m.dropped v

/-- The thread is still to arrive in the phase `k`. -/
def behind (m : Parties σ ℓ) (k : Nat) (v : ℓ) : Bool := m.here v && m.arrivals v == k

/-- Where a thread can be in the phase `k`: it has dropped out, it is still to arrive, or it
has arrived and waits. -/
structure Placed (m : Parties σ ℓ) (k : Nat) (v : ℓ) : Prop where
  place : m.here v = false ∨ m.arrivals v = k ∨ (m.arrivals v = k + 1 ∧ m.token v = some k)
  token : m.here v = true → ∀ i, m.token v = some i → i + 1 = m.arrivals v

/-- The barrier has counted the threads. -/
structure InPhase (m : Parties σ ℓ) (b : Barrier) (threads : List ℓ) : Prop where
  expected : b.expected = threads.countP m.here
  pending : b.pending = threads.countP (m.behind b.phase)
  placed : ∀ v ∈ threads, m.Placed b.phase v
  pos : 0 < b.pending ∨ b.expected = 0

theorem behind_iff {k : Nat} {v : ℓ} :
    m.behind k v = true ↔ m.here v = true ∧ m.arrivals v = k := by
  rw [behind, Bool.and_eq_true, beq_iff_eq]

/-- A thread that is still to arrive does not wait for the end of this phase. -/
theorem Placed.token_ne {k : Nat} {v : ℓ} (h : m.Placed k v) (hbehind : m.behind k v = true) :
    m.token v ≠ some k := by
  intro htoken
  obtain ⟨hhere, harrivals⟩ := behind_iff.mp hbehind
  have hnext := h.token hhere k htoken
  omega

theorem Placed.of_not_behind {k : Nat} {v : ℓ} (h : m.Placed k v) (hbehind : m.behind k v = false) :
    m.Placed (k + 1) v ∧ (m.here v = m.behind (k + 1) v) := by
  have hnot : ¬(m.here v = true ∧ m.arrivals v = k) := fun hboth =>
    absurd (behind_iff.mpr hboth) (by simp [hbehind])
  rcases h.place with hgone | hsame | ⟨hahead, htoken⟩
  · exact ⟨⟨.inl hgone, h.token⟩, by rw [behind, hgone, Bool.false_and]⟩
  · have hgone : m.here v = false := eq_false_of_ne_true fun hhere => hnot ⟨hhere, hsame⟩
    exact ⟨⟨.inl hgone, h.token⟩, by rw [behind, hgone, Bool.false_and]⟩
  · refine ⟨⟨.inr (.inl hahead), h.token⟩, ?_⟩
    rw [behind, hahead, beq_self_eq_true, Bool.and_true]

/-- **An arrival.**  The threads are counted without the one that arrives. -/
theorem inPhase_arrive {b : Barrier} {threads : List ℓ}
    (hexpected : b.expected = threads.countP m.here)
    (hpending : b.pending = threads.countP (m.behind b.phase) + 1)
    (hplaced : ∀ v ∈ threads, m.Placed b.phase v) : m.InPhase b.arrive threads := by
  rw [Barrier.arrive]
  split
  · -- the last one: the next phase begins, and all are still to arrive
    rename_i hone
    have hnone : threads.countP (m.behind b.phase) = 0 := by omega
    have hnext : ∀ v ∈ threads, m.Placed (b.phase + 1) v ∧ m.here v = m.behind (b.phase + 1) v := by
      intro v hv
      exact (hplaced v hv).of_not_behind (eq_false_of_ne_true (List.countP_eq_zero.mp hnone v hv))
    refine ⟨hexpected, ?_, fun v hv => (hnext v hv).1, ?_⟩
    · show b.expected = threads.countP (m.behind (b.phase + 1))
      rw [hexpected]
      exact List.countP_congr fun v hv => by rw [(hnext v hv).2]
    · show 0 < b.expected ∨ b.expected = 0
      omega
  · refine ⟨hexpected, ?_, hplaced, .inl ?_⟩
    · show b.pending - 1 = threads.countP (m.behind b.phase)
      omega
    · show 0 < b.pending - 1
      omega

theorem behind_of_works {k : Nat} {v : ℓ} (h : m.Placed k v) (hhere : m.here v = true)
    (hworks : m.token v = none) : m.behind k v = true := by
  refine behind_iff.mpr ⟨hhere, ?_⟩
  rcases h.place with hgone | hsame | ⟨-, htoken⟩
  · exact absurd (hgone.symm.trans hhere) (by decide)
  · exact hsame
  · exact absurd (hworks.symm.trans htoken) (by simp)

theorem forall_set {P : ℓ → Prop} {l : List ℓ} {v' : ℓ} (h : ∀ w ∈ l, P w) (hv' : P v') :
    ∀ w ∈ l.set t v', P w := by
  intro w hw
  rcases List.mem_or_eq_of_mem_set hw with hw | rfl
  · exact h w hw
  · exact hv'

theorem InPhase.unmoved {b : Barrier} {l : List ℓ} {v v' : ℓ} (h : m.InPhase b l)
    (hv : l[t]? = some v) (hhere : m.here v' = m.here v)
    (hbehind : m.behind b.phase v' = m.behind b.phase v) (hplaced : m.Placed b.phase v') :
    m.InPhase b (l.set t v') := by
  have hall := countP_set (p := m.here) hv v'
  have hcount := countP_set (p := m.behind b.phase) hv v'
  rw [hhere] at hall
  rw [hbehind] at hcount
  refine ⟨?_, ?_, forall_set h.placed hplaced, h.pos⟩
  · rw [h.expected]
    omega
  · rw [h.pending]
    omega

theorem InPhase.pending_set {b : Barrier} {l : List ℓ} {v v' : ℓ} (h : m.InPhase b l)
    (hv : l[t]? = some v) (hbehind : m.behind b.phase v = true)
    (hnot : m.behind b.phase v' = false) :
    b.pending = (l.set t v').countP (m.behind b.phase) + 1 := by
  have hcount := countP_set (p := m.behind b.phase) hv v'
  rw [hbehind, hnot, Bool.toNat_true, Bool.toNat_false] at hcount
  rw [h.pending]
  omega

theorem inPhase_step {d d' : σ} {l : List ℓ} {v v' : ℓ} (h : m.InPhase (m.barrier d) l)
    (hv : l[t]? = some v) (hmove : m.Move d v d' v') : m.InPhase (m.barrier d') (l.set t v') := by
  have hplaced := h.placed v (List.mem_of_getElem? hv)
  cases hmove with
  | keep hbarrier harrivals htoken hdropped =>
    have hhere : m.here v' = m.here v := by rw [here, hdropped, here]
    rw [hbarrier]
    refine h.unmoved hv hhere (by rw [behind, hhere, harrivals, behind]) ⟨?_, ?_⟩
    · rw [hhere, harrivals, htoken]
      exact hplaced.place
    · rw [hhere, harrivals, htoken]
      exact hplaced.token
  | leave k hwaits hcomplete hbarrier harrivals htoken hdropped =>
    have hhere : m.here v' = m.here v := by rw [here, hdropped, here]
    rw [hbarrier]
    refine h.unmoved hv hhere (by rw [behind, hhere, harrivals, behind]) ⟨?_, ?_⟩
    · rw [hhere, harrivals]
      rcases hplaced.place with hgone | hsame | ⟨-, htoken'⟩
      · exact .inl hgone
      · exact .inr (.inl hsame)
      · exact absurd (Option.some.inj (hwaits.symm.trans htoken')) hcomplete
    · intro _ i hi
      rw [htoken] at hi
      cases hi
  | arrive hhere hworks hbarrier harrivals htoken hdropped =>
    have hhere : m.here v = true := by rw [here, hhere, Bool.not_false]
    have hhere' : m.here v' = true := by rw [here, hdropped, Bool.not_false]
    have hbehind := behind_of_works hplaced hhere hworks
    obtain ⟨-, hphase⟩ := behind_iff.mp hbehind
    have hnot : m.behind (m.barrier d).phase v' = false := by
      rw [behind, harrivals, hphase, beq_false_of_ne (Nat.succ_ne_self _), Bool.and_false]
    have hall := countP_set (p := m.here) hv v'
    rw [hhere, hhere'] at hall
    rw [hbarrier]
    refine inPhase_arrive ?_ (h.pending_set hv hbehind hnot)
      (forall_set h.placed ⟨.inr (.inr ⟨?_, htoken⟩), ?_⟩)
    · rw [h.expected]
      omega
    · rw [harrivals, hphase]
    · intro _ i hi
      rw [htoken] at hi
      rw [harrivals, hphase, ← Option.some.inj hi]
  | drop hhere hworks hbarrier hdropped =>
    have hhere : m.here v = true := by rw [here, hhere, Bool.not_false]
    have hgone : m.here v' = false := by rw [here, hdropped, Bool.not_true]
    have hbehind := behind_of_works hplaced hhere hworks
    have hnot : m.behind (m.barrier d).phase v' = false := by rw [behind, hgone, Bool.false_and]
    have hall := countP_set (p := m.here) hv v'
    rw [hhere, hgone, Bool.toNat_true, Bool.toNat_false] at hall
    have hexpected := h.expected
    rw [hbarrier]
    refine inPhase_arrive ?_ (h.pending_set hv hbehind hnot)
      (forall_set h.placed ⟨.inl hgone, ?_⟩)
    · show (m.barrier d).expected - 1 = _
      omega
    · intro hin
      exact absurd (hgone.symm.trans hin) (by decide)

/-- The barrier expects all threads, and none has arrived. -/
structure Start (m : Parties σ ℓ) (data : σ) (threads : List ℓ) : Prop where
  barrier : m.barrier data = .new threads.length
  arrivals : ∀ v ∈ threads, m.arrivals v = 0
  token : ∀ v ∈ threads, m.token v = none
  dropped : ∀ v ∈ threads, m.dropped v = false

theorem Start.inPhase (h0 : m.Start data threads) : m.InPhase (m.barrier data) threads := by
  have hhere : ∀ v ∈ threads, m.here v = true := by
    intro v hv
    rw [here, h0.dropped v hv, Bool.not_false]
  rw [h0.barrier]
  refine ⟨(List.countP_eq_length.mpr hhere).symm, ?_, fun v hv => ⟨?_, ?_⟩, ?_⟩
  · refine (List.countP_eq_length.mpr ?_).symm
    intro v hv
    exact behind_iff.mpr ⟨hhere v hv, h0.arrivals v hv⟩
  · exact .inr (.inl (h0.arrivals v hv))
  · intro _ i hi
    exact absurd ((h0.token v hv).symm.trans hi) (by simp)
  · exact (Nat.eq_zero_or_pos threads.length).symm

/-- **The barrier counts the threads**, in every state. -/
theorem inPhase (h : m.Respected next) (h0 : m.Start data threads)
    (hs : (system next data threads).ReachableBy ok s) :
    m.InPhase (m.barrier s.data) s.threads := by
  apply hs.invariant (I := fun s => m.InPhase (m.barrier s.data) s.threads) h0.inPhase
  intro s t s' hs _ hst
  obtain ⟨v, d, v', hv, hnext, rfl⟩ := step_cases hst
  exact inPhase_step hs hv (h hnext)

section InPhase

variable {b : Barrier} {l : List ℓ} {v : ℓ}

/-- **A complete phase**: the threads have arrived in it, or dropped out. -/
theorem InPhase.arrived (h : m.InPhase b l) {k : Nat} (hk : k < b.phase) (hv : v ∈ l) :
    m.dropped v = true ∨ k < m.arrivals v := by
  rcases (h.placed v hv).place with hgone | hsame | ⟨hahead, -⟩
  · rw [here, Bool.not_eq_false'] at hgone
    exact .inl hgone
  · exact .inr (by omega)
  · exact .inr (by omega)

/-- **In the current phase** somebody is still to arrive, when not all have dropped out, and
does not wait for the end of this phase. -/
theorem InPhase.exists_behind (h : m.InPhase b l) (hv : v ∈ l) (hhere : m.dropped v = false) :
    ∃ w ∈ l, m.dropped w = false ∧ m.arrivals w = b.phase ∧ m.token w ≠ some b.phase := by
  have hin : m.here v = true := by rw [here, hhere, Bool.not_false]
  have hpos : 0 < b.pending := by
    apply h.pos.resolve_right
    intro hzero
    rw [h.expected, List.countP_eq_zero] at hzero
    exact hzero v hv hin
  rw [h.pending, List.countP_pos_iff] at hpos
  obtain ⟨w, hw, hbehind⟩ := hpos
  obtain ⟨hinw, harrivals⟩ := behind_iff.mp hbehind
  rw [here, Bool.not_eq_true'] at hinw
  exact ⟨w, hw, hinw, harrivals, (h.placed w hw).token_ne hbehind⟩

end InPhase

end Parties

end Lib.Threads
