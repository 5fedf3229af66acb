import Cpp20Examples.Lib.Threads

/-!
# A shared mutex

A mutex that one thread owns, or that several threads share.  A thread is inside an
exclusive section, inside a shared one, or inside none.

* `SharedMutex.owned`: the owner is the thread inside an exclusive section.
* `SharedMutex.sharers_eq`: the sharers are the threads inside a shared section.
* `SharedMutex.not_shared`: while one thread is inside an exclusive section, none is inside
  a shared one.
* `SharedMutex.resource`: what holds while nobody owns the mutex.
-/

namespace Lib.Threads

variable {σ ℓ : Type} {next : Next σ ℓ} {data : σ} {threads : List ℓ}
  {ok : State σ ℓ → Nat → Prop} {s s' : State σ ℓ} {t : Nat}

/-- Who owns the mutex, how many share it, and where a thread is inside a section. -/
structure SharedMutex (σ ℓ : Type) where
  owner : σ → Option Nat
  sharers : σ → Nat
  exclusive : ℓ → Bool
  shared : ℓ → Bool

namespace SharedMutex

variable {m : SharedMutex σ ℓ}

/-- What a step does with the mutex. -/
inductive Move (m : SharedMutex σ ℓ) (t : Nat) (d : σ) (v : ℓ) (d' : σ) (v' : ℓ) : Prop
  | keep (hexclusive : m.exclusive v' = m.exclusive v) (hshared : m.shared v' = m.shared v)
      (howner : m.owner d' = m.owner d) (hsharers : m.sharers d' = m.sharers d)
  | lock (hout : m.exclusive v = false) (hfree : m.owner d = none) (hnone : m.sharers d = 0)
      (hin : m.exclusive v' = true) (hshared : m.shared v' = m.shared v)
      (howner : m.owner d' = some t) (hsharers : m.sharers d' = 0)
  | unlock (hin : m.exclusive v = true) (hout : m.exclusive v' = false)
      (hshared : m.shared v' = m.shared v) (howner : m.owner d' = none)
      (hsharers : m.sharers d' = m.sharers d)
  | lockShared (hout : m.shared v = false) (hfree : m.owner d = none) (hin : m.shared v' = true)
      (hexclusive : m.exclusive v' = m.exclusive v) (howner : m.owner d' = none)
      (hsharers : m.sharers d' = m.sharers d + 1)
  | unlockShared (hin : m.shared v = true) (hout : m.shared v' = false)
      (hexclusive : m.exclusive v' = m.exclusive v) (howner : m.owner d' = m.owner d)
      (hsharers : m.sharers d' = m.sharers d - 1)

def Respected (m : SharedMutex σ ℓ) (next : Next σ ℓ) : Prop :=
  ∀ {t d v d' v'}, next t d v = some (d', v') → m.Move t d v d' v'

/-- The exclusive sections alone. -/
def toMutex (m : SharedMutex σ ℓ) : Mutex σ ℓ := ⟨m.owner, m.exclusive⟩

theorem Respected.toMutex (h : m.Respected next) : m.toMutex.Respected next := by
  refine ⟨fun hnext => ?_⟩
  cases h hnext with
  | keep hexclusive _ howner _ => exact .inl ⟨hexclusive, howner⟩
  | lock hout hfree _ hin _ howner _ => exact .inr (.inl ⟨hout, hfree, hin, howner⟩)
  | unlock hin hout _ howner _ => exact .inr (.inr ⟨hin, hout, howner⟩)
  | lockShared _ hfree _ hexclusive howner _ => exact .inl ⟨hexclusive, howner.trans hfree.symm⟩
  | unlockShared _ _ hexclusive howner _ => exact .inl ⟨hexclusive, howner⟩

/-- Nobody is inside, and the mutex is free. -/
structure Free (m : SharedMutex σ ℓ) (data : σ) (threads : List ℓ) : Prop where
  owner : m.owner data = none
  sharers : m.sharers data = 0
  exclusive : ∀ v ∈ threads, m.exclusive v = false
  shared : ∀ v ∈ threads, m.shared v = false

/-- **The owner** is the thread inside an exclusive section. -/
theorem owned (h : m.Respected next) (h0 : m.Free data threads)
    (hs : (system next data threads).ReachableBy ok s) {v : ℓ} (hv : s.threads[t]? = some v) :
    m.exclusive v = true ↔ m.owner s.data = some t :=
  Mutex.owned h.toMutex h0.owner h0.exclusive hs hv

/-- **The sharers** are the threads inside a shared section. -/
theorem sharers_eq (h : m.Respected next) (h0 : m.Free data threads)
    (hs : (system next data threads).ReachableBy ok s) :
    m.sharers s.data = s.threads.countP m.shared := by
  induction hs with
  | init =>
    show m.sharers data = threads.countP m.shared
    rw [h0.sharers, eq_comm, List.countP_eq_zero]
    intro v hv
    rw [h0.shared v hv]
    decide
  | @step s s' t _ _ hst ih =>
    obtain ⟨v, d, v', hv, hnext, rfl⟩ := step_cases hst
    have hcount := countP_set (p := m.shared) hv v'
    cases h hnext with
    | keep _ hshared _ hsharers =>
      rw [hshared] at hcount
      show m.sharers d = (s.threads.set t v').countP m.shared
      omega
    | lock _ _ hnone _ hshared _ hsharers =>
      rw [hshared] at hcount
      show m.sharers d = (s.threads.set t v').countP m.shared
      omega
    | unlock _ _ hshared _ hsharers =>
      rw [hshared] at hcount
      show m.sharers d = (s.threads.set t v').countP m.shared
      omega
    | lockShared hout _ hin _ _ hsharers =>
      rw [hout, hin, Bool.toNat_false, Bool.toNat_true] at hcount
      show m.sharers d = (s.threads.set t v').countP m.shared
      omega
    | unlockShared hin hout _ _ hsharers =>
      rw [hout, hin, Bool.toNat_false, Bool.toNat_true] at hcount
      show m.sharers d = (s.threads.set t v').countP m.shared
      omega

theorem free_or_not_shared (h : m.Respected next) (h0 : m.Free data threads)
    (hs : (system next data threads).ReachableBy ok s) :
    m.owner s.data = none ∨ m.sharers s.data = 0 := by
  induction hs with
  | init => exact .inl h0.owner
  | step _ _ hst ih =>
    obtain ⟨v, d, v', -, hnext, rfl⟩ := step_cases hst
    cases h hnext with
    | keep _ _ howner hsharers => rwa [howner, hsharers]
    | lock _ _ _ _ _ _ hsharers => exact .inr hsharers
    | unlock _ _ _ howner _ => exact .inl howner
    | lockShared _ _ _ _ howner _ => exact .inl howner
    | unlockShared _ _ _ howner hsharers =>
      rcases ih with hfree | hnone
      · exact .inl (howner.trans hfree)
      · exact .inr (hsharers.trans (by rw [hnone]))

/-- **Exclusion.**  While a thread is inside an exclusive section, none is inside a shared
one. -/
theorem not_shared (h : m.Respected next) (h0 : m.Free data threads)
    (hs : (system next data threads).ReachableBy ok s) {v w : ℓ} (hv : s.threads[t]? = some v)
    (hin : m.exclusive v = true) (hw : w ∈ s.threads) : m.shared w = false := by
  have howner := (owned h h0 hs hv).mp hin
  have hnone : m.sharers s.data = 0 := by
    rcases free_or_not_shared h h0 hs with hfree | hnone
    · exact absurd (hfree.symm.trans howner) (by simp)
    · exact hnone
  rw [sharers_eq h h0 hs, List.countP_eq_zero] at hnone
  exact eq_false_of_ne_true (hnone w hw)

/-- **What the mutex protects.**  `I` holds while nobody owns the mutex, and `L` of the
owner; the threads outside an exclusive section keep both. -/
theorem resource (h : m.Respected next) (h0 : m.Free data threads) {I : σ → Prop}
    {L : σ → ℓ → Prop} (hI : I data)
    (hlock : ∀ t d v d' v', next t d v = some (d', v') → m.exclusive v = false →
      m.exclusive v' = true → I d → L d' v')
    (hinside : ∀ t d v d' v', next t d v = some (d', v') → m.exclusive v = true →
      m.exclusive v' = true → L d v → L d' v')
    (hunlock : ∀ t d v d' v', next t d v = some (d', v') → m.exclusive v = true →
      m.exclusive v' = false → L d v → I d')
    (houtside : ∀ s t v d' v', ok s t → s.threads[t]? = some v →
      next t s.data v = some (d', v') → m.exclusive v = false → m.exclusive v' = false →
      (I s.data → I d') ∧ ∀ w, L s.data w → L d' w)
    (hs : (system next data threads).ReachableBy ok s) :
    (m.owner s.data = none → I s.data) ∧
      ∀ (t : Nat) v, s.threads[t]? = some v → m.exclusive v = true → L s.data v := by
  refine invariant (I := fun d => m.owner d = none → I d)
    (L := fun _ d v => m.exclusive v = true → L d v) (fun _ => hI) ?_
    ?_ hs
  · intro t v hv hin
    rw [h0.exclusive v (List.mem_of_getElem? hv)] at hin
    cases hin
  · intro s t v d v' hs hok hI hL hv hnext
    have howned := owned h h0 hs hv
    have hone : ∀ u w, u ≠ t → s.threads[u]? = some w → m.exclusive w = true →
        m.owner s.data = none ∨ m.owner s.data = some t → False := by
      intro u w hne hw hin hor
      have hu := (owned h h0 hs hw).mp hin
      rcases hor with hnone | hsome
      · exact absurd (hnone.symm.trans hu) (by simp)
      · exact hne (Option.some.inj (hu.symm.trans hsome))
    rcases h.toMutex.step hnext with ⟨hsame, howner⟩ | ⟨hout, hfree, hin, howner⟩ |
      ⟨hin, hout, howner⟩
    · by_cases hin : m.exclusive v = true
      · refine ⟨?_, fun _ => hinside t _ v d v' hnext hin (hsame.trans hin) (hL hin),
          fun u w hne hw _ hinw => (hone u w hne hw hinw (.inr (howned.mp hin))).elim⟩
        intro hnone
        exact absurd ((howned.mp hin).symm.trans (howner.symm.trans hnone)) (by simp)
      · have hout := eq_false_of_ne_true hin
        obtain ⟨hkeepI, hkeepL⟩ := houtside s t v d v' hok hv hnext hout (hsame.trans hout)
        exact ⟨fun hnone => hkeepI (hI (howner.symm.trans hnone)),
          fun hin' => absurd (hsame.symm.trans hin') hin, fun u w _ _ hw hinw => hkeepL w (hw hinw)⟩
    · refine ⟨fun hnone => absurd (howner.symm.trans hnone) (by simp),
        fun _ => hlock t _ v d v' hnext hout hin (hI hfree),
        fun u w hne hw _ hinw => (hone u w hne hw hinw (.inl hfree)).elim⟩
    · exact ⟨fun _ => hunlock t _ v d v' hnext hin hout (hL hin),
        fun hin' => absurd (hout.symm.trans hin') (by simp),
        fun u w hne hw _ hinw => (hone u w hne hw hinw (.inr (howned.mp hin))).elim⟩

end SharedMutex

end Lib.Threads
