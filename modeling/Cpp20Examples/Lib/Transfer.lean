import Cpp20Examples.Lib.Coroutine

/-!
# Symmetric transfer

In a design with symmetric transfer the awaited child runs at once, knows its
caller, and passes control back to it from its final suspend point.

* `Symmetric.runs`: a body without suspensions runs to its end, does the effects
  of plain depth-first calls, and control goes on to its continuation;
  `Symmetric.runs_unfolds` says so of the programs that unfold to one.
* `Symmetric.parks`: a body that is suspended somewhere leaves control with
  whoever resumed the machine, while it and all its callers are unfinished.
-/

namespace Lib.Coroutine

variable {ε κ ν P C : Type} {ρ : κ → Type}

/-- The laws of symmetric transfer; `link c h k` is the promise of a child `c` that
`h` awaits. -/
structure Symmetric (D : Design κ ν P ρ) (value : (k : κ) → ν → ρ k) : Prop where
  caller : ∀ c h k q, (D.awaitSuspend c h (D.promise k) q).2.1 = q
  transfer : ∀ c h k q, (D.awaitSuspend c h (D.promise k) q).2.2 = some c
  resumes : ∀ c h k q v,
    D.finalSuspend (D.returnValue k v (D.awaitSuspend c h (D.promise k) q).1) = some h
  observes : ∀ c h k q v,
    D.awaitResume k (D.returnValue k v (D.awaitSuspend c h (D.promise k) q).1) = some (value k v)

variable {D : Design κ ν P ρ} {value : (k : κ) → ν → ρ k}

/-- What the run of a body as coroutine `h` adds to the events: its effects, and that it
and its descendants have finished. -/
structure Ran (value : (k : κ) → ν → ρ k) (b : Body ε κ ν ρ) (h n n' : Handle)
    (es es' : List (Event ε κ ν ρ)) : Prop where
  fresh : n ≤ n'
  effects : effectsOf es' = effectsOf es ++ b.effects value
  sound : Sound value es → Sound value es'
  finished : .finished h (b.result value) ∈ es'
  others : ∀ c v, .finished c v ∈ es' → .finished c v ∈ es ∨ c = h ∨ n ≤ c
  below : h < n → (∀ c v, .finished c v ∈ es → c < n) → ∀ c v, .finished c v ∈ es' → c < n'

theorem ran_coReturn (v : ν) (h n : Handle) (es : List (Event ε κ ν ρ)) :
    Ran value (.coReturn v) h n n es (.finished h v :: es) where
  fresh := Nat.le_refl n
  effects := by rw [effectsOf, Body.effects, List.append_nil]
  sound := id
  finished := .head _
  others := by
    intro c v' hc
    rcases List.mem_cons.mp hc with heq | hc
    · cases heq
      exact .inr (.inl rfl)
    · exact .inl hc
  below := by
    intro hn hes c v' hc
    rcases List.mem_cons.mp hc with heq | hc
    · cases heq
      exact hn
    · exact hes c v' hc

theorem Ran.effect {e : ε} {rest : Body ε κ ν ρ} {h n n' : Handle} {es es' : List (Event ε κ ν ρ)}
    (hran : Ran value rest h n n' (.effect e :: es) es') :
    Ran value (.effect e rest) h n n' es es' where
  fresh := hran.fresh
  effects := by
    rw [hran.effects, effectsOf, Body.effects, List.append_assoc]
    rfl
  sound := hran.sound
  finished := hran.finished
  others := by
    intro c v hc
    rcases hran.others c v hc with hc | hc
    · exact .inl (by simpa using hc)
    · exact .inr hc
  below := fun hn hes => hran.below hn fun c v hc => hes c v (by simpa using hc)

theorem Ran.await {k : κ} {child : Body ε κ ν ρ} {rest : ρ k → Body ε κ ν ρ} {h n n₁ n₂ : Handle}
    {es es₁ es₂ : List (Event ε κ ν ρ)} (hchild : Ran value child n (n + 1) n₁ es es₁)
    (hrest : Ran value (rest (value k (child.result value))) h n₁ n₂
      (.destroyed n :: .passed n k (some (value k (child.result value))) :: es₁) es₂) :
    Ran value (.await k child rest) h n n₂ es es₂ where
  fresh := by
    have h₁ := hchild.fresh
    have h₂ := hrest.fresh
    exact Nat.le_of_succ_le (Nat.le_trans h₁ h₂)
  effects := by
    rw [hrest.effects, effectsOf, effectsOf, hchild.effects, Body.effects, List.append_assoc]
  sound := by
    intro hs
    have hfin := hchild.finished
    exact hrest.sound ⟨⟨_, .tail _ hfin⟩, ⟨_, hfin, rfl⟩, hchild.sound hs⟩
  finished := hrest.finished
  others := by
    intro c v hc
    rcases hrest.others c v hc with hc | hc | hc
    · have hc : .finished c v ∈ es₁ := by simpa using hc
      rcases hchild.others c v hc with hc | rfl | hc
      · exact .inl hc
      · exact .inr (.inr (Nat.le_refl c))
      · exact .inr (.inr (Nat.le_of_succ_le hc))
    · exact .inr (.inl hc)
    · exact .inr (.inr (Nat.le_trans (Nat.le_of_succ_le hchild.fresh) hc))
  below := by
    intro hn hes
    have hn₁ : n < n₁ := hchild.fresh
    apply hrest.below (Nat.lt_trans hn hn₁)
    intro c v hc
    have hc : .finished c v ∈ es₁ := by simpa using hc
    exact hchild.below (Nat.lt_succ_self n) (fun c v hc => Nat.lt_succ_of_lt (hes c v hc)) c v hc

/-- The coroutines from `n` on that were created until `n'` have finished. -/
def AllFinished (n n' : Handle) (es : List (Event ε κ ν ρ)) : Prop :=
  ∀ c, n ≤ c → c < n' → ∃ v, .finished c v ∈ es

theorem AllFinished.mono {n n' : Handle} {es es' : List (Event ε κ ν ρ)}
    (h : AllFinished n n' es) (hle : es <:+ es') : AllFinished n n' es' := by
  intro c hc hc'
  exact (h c hc hc').imp fun v hv => hle.subset hv

theorem AllFinished.await {n n₁ n₂ : Handle} {v : ν} {es₁ es₂ : List (Event ε κ ν ρ)}
    (hself : .finished n v ∈ es₁) (hchild : AllFinished (n + 1) n₁ es₁) (hle : es₁ <:+ es₂)
    (hrest : AllFinished n₁ n₂ es₂) : AllFinished n n₂ es₂ := by
  intro c hc hc'
  rcases Nat.eq_or_lt_of_le hc with rfl | hlt
  · exact ⟨v, hle.subset hself⟩
  · rcases Nat.lt_or_ge c n₁ with hlt₁ | hge
    · exact hchild.mono hle c hlt hlt₁
    · exact hrest c hge hc'

section Symmetric

variable (hD : Symmetric D value) {next : C → Instr ε κ ν ρ C}

include hD

theorem Symmetric.step_await (H : Heap κ P ρ C) {h n : Handle} {k k' : κ} {p : P}
    {es : List (Event ε κ ν ρ)} {b child : C} {rest : ρ k' → C}
    (hb : next b = .await k' child rest) :
    step next D ⟨(h, ⟨k, p, .body b⟩) :: H, n, some h, es, none⟩ =
      some ⟨(n, ⟨k', (D.awaitSuspend n h (D.promise k') p).1, .body child⟩) ::
        (h, ⟨k, p, .awaiting n k' rest⟩) :: H, n + 1, some n, es, none⟩ := by
  rw [Coroutine.step_await hb, hD.caller, hD.transfer]

/-- When the child runs to its end, the parent gets past its `co_await`. -/
theorem Symmetric.awaits {H : Heap κ P ρ C} {h n n' : Handle} {k k' : κ} {p : P} {v : ν}
    {es es' : List (Event ε κ ν ρ)} {b child : C} {rest : ρ k' → C}
    (hb : next b = .await k' child rest) (hn : h < n) (hn' : n < n')
    (hrun : Steps (step next D)
      ⟨(n, ⟨k', (D.awaitSuspend n h (D.promise k') p).1, .body child⟩) ::
        (h, ⟨k, p, .awaiting n k' rest⟩) :: H, n + 1, some n, es, none⟩
      ⟨(n, ⟨k', D.returnValue k' v (D.awaitSuspend n h (D.promise k') p).1, .final⟩) ::
        (h, ⟨k, p, .awaiting n k' rest⟩) :: H, n',
        D.finalSuspend (D.returnValue k' v (D.awaitSuspend n h (D.promise k') p).1), es',
        none⟩) :
    Steps (step next D) ⟨(h, ⟨k, p, .body b⟩) :: H, n, some h, es, none⟩
      ⟨(h, ⟨k, p, .body (rest (value k' v))⟩) :: H, n', some h,
        .destroyed n :: .passed n k' (some (value k' v)) :: es', none⟩ := by
  rw [hD.resumes] at hrun
  have hobs := hD.observes n h k' p v
  exact .head (hD.step_await H hb)
    (hrun.tail (step_pass (Nat.ne_of_gt hn) (Nat.zero_lt_of_lt hn') hobs))

/-- **A program that unfolds to a body without suspensions runs to its end**, and so do all
coroutines that it creates. -/
theorem Symmetric.runs_unfolds {c : C} {b : Body ε κ ν ρ} (hu : Unfolds next c b)
    (hb : b.Quiet value) (H : Heap κ P ρ C) {h n : Handle} (k : κ) (p : P)
    (es : List (Event ε κ ν ρ)) (hn : h < n) :
    ∃ n' es', Steps (step next D) ⟨(h, ⟨k, p, .body c⟩) :: H, n, some h, es, none⟩
      ⟨(h, ⟨k, D.returnValue k (b.result value) p, .final⟩) :: H, n',
        D.finalSuspend (D.returnValue k (b.result value) p), es', none⟩ ∧
      Ran value b h n n' es es' ∧ es <:+ es' ∧ AllFinished n n' es' := by
  induction hu generalizing H h n k p es with
  | @coReturn c v hnext =>
    refine ⟨n, _, .single (step_coReturn hnext), ran_coReturn v h n es,
      List.suffix_cons _ es, ?_⟩
    intro g hg hg'
    exact absurd hg' (Nat.not_lt.mpr hg)
  | effect hnext _ ih =>
    obtain ⟨n', es', hsteps, hran, hle, hfinished⟩ := ih hb H k p (.effect _ :: es) hn
    exact ⟨n', es', .head (step_effect hnext) hsteps, hran.effect,
      (List.suffix_cons _ es).trans hle, hfinished⟩
  | suspend => exact absurd hb id
  | @await _ _ k' rest child _ hnext _ _ ihc ihr =>
    obtain ⟨hchild, hrest⟩ := hb
    -- the child runs to its end, control comes back to `h`, which goes past its `co_await`
    obtain ⟨n₁, es₁, hsteps₁, hran₁, hle₁, hfinished₁⟩ := ihc hchild
      ((h, ⟨k, p, .awaiting n k' rest⟩) :: H) k' _ es (Nat.lt_succ_self n)
    have hn₁ : n < n₁ := hran₁.fresh
    obtain ⟨n₂, es₂, hsteps₂, hran₂, hle₂, hfinished₂⟩ := ihr _ hrest H k p
      (.destroyed n :: .passed n k' (some (value k' (child.result value))) :: es₁)
      (Nat.lt_trans hn hn₁)
    have hle : es₁ <:+ es₂ := ((List.suffix_cons _ es₁).trans (List.suffix_cons _ _)).trans hle₂
    exact ⟨n₂, es₂, (hD.awaits hnext hn hn₁ hsteps₁).trans hsteps₂, hran₁.await hran₂,
      hle₁.trans hle, .await hran₁.finished hfinished₁ hle hfinished₂⟩

theorem Symmetric.runs {b : Body ε κ ν ρ} (hb : b.Quiet value) (H : Heap κ P ρ (Body ε κ ν ρ))
    {h n : Handle} (k : κ) (p : P) (es : List (Event ε κ ν ρ)) (hn : h < n) :
    ∃ n' es', Steps (step Body.next D) ⟨(h, ⟨k, p, .body b⟩) :: H, n, some h, es, none⟩
      ⟨(h, ⟨k, D.returnValue k (b.result value) p, .final⟩) :: H, n',
        D.finalSuspend (D.returnValue k (b.result value) p), es', none⟩ ∧
      Ran value b h n n' es es' := by
  obtain ⟨n', es', hsteps, hran, -, -⟩ := hD.runs_unfolds b.unfolds hb H k p es hn
  exact ⟨n', es', hsteps, hran⟩

/-- **A suspended body leaves control with whoever resumed the machine.**  The
frames below it stay, those above it are newer, and neither it nor a caller of
it has finished. -/
theorem Symmetric.parks {b : Body ε κ ν ρ} (hb : ¬ b.Quiet value) (H : Heap κ P ρ (Body ε κ ν ρ))
    {h n : Handle} (k : κ) (p : P) (es : List (Event ε κ ν ρ)) (hn : h < n) :
    ∃ above f n' es', Steps (step Body.next D) ⟨(h, ⟨k, p, .body b⟩) :: H, n, some h, es, none⟩
      ⟨above ++ (h, f) :: H, n', none, es', none⟩ ∧ (∀ q ∈ above, n ≤ q.1) ∧
      (∀ c v, .finished c v ∈ es' → .finished c v ∈ es ∨ n ≤ c) := by
  induction b generalizing H h n k p es with
  | coReturn => exact absurd trivial hb
  | effect e rest ih =>
    obtain ⟨above, f, n', es', hsteps, habove, hes⟩ := ih hb H k p (.effect e :: es) hn
    refine ⟨above, f, n', es', .head (step_effect rfl) hsteps, habove, ?_⟩
    intro c v hc
    exact (hes c v hc).imp (fun hc => by simpa using hc) id
  | suspend rest =>
    exact ⟨[], _, n, es, .single (step_suspend rfl), fun q hq => absurd hq (by simp),
      fun _ _ => .inl⟩
  | await k' child rest ihc ihr =>
    by_cases hchild : child.Quiet value
    · obtain ⟨n₁, es₁, hsteps₁, hran₁⟩ := hD.runs hchild
        ((h, ⟨k, p, .awaiting n k' rest⟩) :: H) k' _ es (Nat.lt_succ_self n)
      have hn₁ : n < n₁ := hran₁.fresh
      obtain ⟨above, f, n₂, es₂, hsteps₂, habove, hes⟩ :=
        ihr _ (fun hrest => hb ⟨hchild, hrest⟩) H k p _ (Nat.lt_trans hn hn₁)
      refine ⟨above, f, n₂, es₂, (hD.awaits rfl hn hn₁ hsteps₁).trans hsteps₂,
        fun q hq => Nat.le_trans (Nat.le_of_lt hn₁) (habove q hq), ?_⟩
      intro c v hc
      rcases hes c v hc with hc | hc
      · rcases hran₁.others c v (by simpa using hc) with hc | rfl | hc
        · exact .inl hc
        · exact .inr (Nat.le_refl c)
        · exact .inr (Nat.le_of_succ_le hc)
      · exact .inr (Nat.le_trans (Nat.le_of_lt hn₁) hc)
    · -- the child is parked, and `h` waits for it below
      obtain ⟨above, f, n', es', hsteps, habove, hes⟩ := ihc hchild
        ((h, ⟨k, p, .awaiting n k' rest⟩) :: H) k' _ es (Nat.lt_succ_self n)
      refine ⟨above ++ [(n, f)], _, n', es', .head (hD.step_await H rfl)
        (by rw [List.append_assoc]; exact hsteps), ?_,
        fun c v hc => (hes c v hc).imp id Nat.le_of_succ_le⟩
      intro q hq
      rcases List.mem_append.mp hq with hq | hq
      · exact Nat.le_of_succ_le (habove q hq)
      · obtain rfl := List.mem_singleton.mp hq
        exact Nat.le_refl n

end Symmetric

end Lib.Coroutine
