import Cpp20Examples.Lib.Latches

/-!
# Scopes

What the threads of `Lib.Latches` write at once: in a scope with the mutex, or by one operation.

* `Whole`: some of the threads write in scopes only, or none of these has a scope.
* `exists_scoped`: what these threads write is one scope after the other, each thread's in their
  order.
-/

namespace Lib.Latches

open Lib.Threads

variable {ι α : Type}

/-! ### Scopes -/

/-- What the statement writes at once. -/
def Stmt.scopes : Stmt ι α → List (List α)
  | op o => [o.text].filter fun xs => !xs.isEmpty
  | locked body => [body.flatMap Op.text]

/-- The texts of the scopes that are not left; `ahead` is written of the one where the thread
is now. -/
def Thread.scopes (ahead : List α) (v : Thread ι α) : List (List α) :=
  (match v.scope with
    | some body => [ahead ++ body.flatMap Op.text]
    | none => []) ++ v.rest.flatMap Stmt.scopes

/-- The thread writes in scopes only. -/
def Thread.Guarded (v : Thread ι α) : Prop := ∀ o, .op o ∈ v.rest → o.text = []

/-- The thread has no scopes. -/
def Thread.Plain (v : Thread ι α) : Prop := v.scope = none ∧ ∀ body, .locked body ∉ v.rest

/-- The threads `g` write in scopes only, or have no scopes. -/
def Whole (g : Nat → Bool) (threads : List (Thread ι α)) : Prop :=
  (∀ (t : Nat) (v : Thread ι α), g t = true → threads[t]? = some v → v.Guarded) ∨
    ∀ (t : Nat) (v : Thread ι α), g t = true → threads[t]? = some v → v.Plain

theorem Stmt.scopes_of_text {o : Op ι α} (h : o.text = []) :
    (Stmt.op o : Stmt ι α).scopes = [] := by
  rw [Stmt.scopes, h]
  rfl

theorem Stmt.scopes_of_ne {o : Op ι α} (h : o.text ≠ []) :
    (Stmt.op o : Stmt ι α).scopes = [o.text] := by
  rw [Stmt.scopes, List.filter_cons_of_pos, List.filter_nil]
  rw [List.isEmpty_eq_false_iff.mpr h]
  rfl

/-- The threads `g` have left the scopes `closed` in this order, and `ahead` is written of the
one that the owner of the mutex is in. -/
structure Scoped (g : Nat → Bool) (data : Shared ι α) (threads : List (Thread ι α))
    (closed : List (Nat × List α)) (ahead : List α) (s : State (Shared ι α) (Thread ι α)) :
    Prop where
  out : ∃ m, s.data.out = data.out ++ m ∧
    m.filter (fun p => g p.1) = closed.flatMap (fun c => c.2.map fun x => (c.1, x)) ++
      (s.data.mutex.toList.filter g).flatMap fun u => ahead.map fun x => (u, x)
  scopes : ∀ (t : Nat) (v w : Thread ι α), g t = true → s.threads[t]? = some v →
    threads[t]? = some w → own t closed ++ v.scopes ahead = w.scopes []
  members : ∀ c ∈ closed, g c.1 = true ∧ c.1 < threads.length

section Scoped

variable {g : Nat → Bool} {closed : List (Nat × List α)} {ahead : List α} {t u : Nat}
  {d : Shared ι α} {v v' w : Thread ι α} {data : Shared ι α} {threads : List (Thread ι α)}
  {s : State (Shared ι α) (Thread ι α)}

theorem Thread.scopes_of_outside (h : v.scope.isSome = false) (a b : List α) :
    v.scopes a = v.scopes b := by
  obtain ⟨rest, scope⟩ := v
  cases scope with
  | none => rfl
  | some body => cases h

theorem filter_own (hg : g t = true) (xs : List α) :
    (xs.map fun x => (t, x)).filter (fun p => g p.1) = xs.map fun x => (t, x) := by
  rw [List.filter_eq_self]
  intro p hp
  obtain ⟨x, -, rfl⟩ := List.mem_map.mp hp
  exact hg

/-- A thread outside of `g` changes nothing of the scopes, and one of `g` that writes nothing. -/
theorem Scoped.quiet (h : Scoped g data threads closed ahead s) (hv : s.threads[t]? = some v)
    {xs : List α} (hout : d.out = s.data.out ++ xs.map fun x => (t, x))
    (hxs : g t = true → xs = []) (hmutex : d.mutex = s.data.mutex)
    (hscopes : g t = true → v'.scopes ahead = v.scopes ahead) :
    Scoped g data threads closed ahead ⟨d, s.threads.set t v'⟩ := by
  obtain ⟨m, hm, hfilter⟩ := h.out
  refine ⟨⟨m ++ xs.map fun x => (t, x), ?_, ?_⟩, ?_, h.members⟩
  · rw [hout, hm, List.append_assoc]
  · have hnone : (xs.map fun x => (t, x)).filter (fun p => g p.1) = [] := by
      rw [List.filter_eq_nil_iff]
      intro p hp hg
      obtain ⟨x, hx, rfl⟩ := List.mem_map.mp hp
      rw [hxs hg] at hx
      cases hx
    rw [List.filter_append, hnone, List.append_nil, hfilter]
    show _ = _ ++ (d.mutex.toList.filter g).flatMap _
    rw [hmutex]
  · intro u w' w hg hw' hw
    rcases getElem?_set_cases hw' with ⟨rfl, rfl⟩ | ⟨-, hu⟩
    · rw [hscopes hg]
      exact h.scopes _ v w hg hv hw
    · exact h.scopes u w' w hg hu hw

theorem Scoped.put (h : Scoped g data threads closed ahead s) (hg : g t = true)
    {rest : List (Stmt ι α)} {o : Op ι α} (hv : s.threads[t]? = some ⟨.op o :: rest, none⟩)
    (htext : o.text ≠ []) (hout : d.out = s.data.out ++ o.text.map fun x => (t, x))
    (hmutex : d.mutex = s.data.mutex) (hnone : s.data.mutex.toList.filter g = [])
    (hlen : t < threads.length) :
    Scoped g data threads (closed ++ [(t, o.text)]) ahead ⟨d, s.threads.set t ⟨rest, none⟩⟩ := by
  obtain ⟨m, hm, hfilter⟩ := h.out
  refine ⟨⟨m ++ o.text.map fun x => (t, x), ?_, ?_⟩, ?_, ?_⟩
  · rw [hout, hm, List.append_assoc]
  · have hown := filter_own hg o.text
    rw [hnone, List.flatMap_nil, List.append_nil] at hfilter
    show _ = _ ++ (d.mutex.toList.filter g).flatMap _
    rw [hmutex, hnone, List.flatMap_nil, List.append_nil, List.filter_append, hown, hfilter,
      List.flatMap_append, List.flatMap_singleton]
  · intro u w' w hg' hw' hw
    rw [own_append]
    rcases getElem?_set_cases hw' with ⟨rfl, rfl⟩ | ⟨hne, hu⟩
    · have hself : own u [(u, o.text)] = [o.text] := own_self u [o.text]
      rw [← h.scopes _ _ w hg' hv hw, hself, List.append_assoc]
      show _ ++ ([o.text] ++ _) = _ ++ ((Stmt.op o).scopes ++ _)
      rw [Stmt.scopes_of_ne htext]
      rfl
    · have hother : own u [(t, o.text)] = [] := own_other hne [o.text]
      rw [hother, List.append_nil]
      exact h.scopes u w' w hg' hu hw
  · intro c hc
    rcases List.mem_append.mp hc with hc | hc
    · exact h.members c hc
    · obtain rfl := List.mem_singleton.mp hc
      exact ⟨hg, hlen⟩

theorem Scoped.write (h : Scoped g data threads closed ahead s) (hg : g t = true)
    {rest : List (Stmt ι α)} {o : Op ι α} {body : List (Op ι α)}
    (hv : s.threads[t]? = some ⟨rest, some (o :: body)⟩) (howner : s.data.mutex = some t)
    (hothers : ∀ (u : Nat) (w : Thread ι α), u ≠ t → s.threads[u]? = some w →
      w.scope.isSome = false)
    (hout : d.out = s.data.out ++ o.text.map fun x => (t, x)) (hmutex : d.mutex = some t) :
    Scoped g data threads closed (ahead ++ o.text) ⟨d, s.threads.set t ⟨rest, some body⟩⟩ := by
  obtain ⟨m, hm, hfilter⟩ := h.out
  refine ⟨⟨m ++ o.text.map fun x => (t, x), ?_, ?_⟩, ?_, h.members⟩
  · rw [hout, hm, List.append_assoc]
  · have hown := filter_own hg o.text
    have htoList : (some t).toList.filter g = [t] := List.filter_cons_of_pos hg
    rw [howner, htoList, List.flatMap_singleton] at hfilter
    show _ = _ ++ (d.mutex.toList.filter g).flatMap _
    rw [hmutex, htoList, List.flatMap_singleton, List.filter_append, hown, hfilter,
      List.map_append, List.append_assoc]
  · intro u w' w hg' hw' hw
    rcases getElem?_set_cases hw' with ⟨rfl, rfl⟩ | ⟨hne, hu⟩
    · rw [← h.scopes _ _ w hg' hv hw]
      show _ ++ ([(ahead ++ o.text) ++ _] ++ _) = _ ++ ([ahead ++ (o.text ++ _)] ++ _)
      rw [List.append_assoc ahead]
      rfl
    · rw [Thread.scopes_of_outside (hothers u w' hne hu) (ahead ++ o.text) ahead]
      exact h.scopes u w' w hg' hu hw

theorem Scoped.lock (h : Scoped g data threads closed ahead s) {rest : List (Stmt ι α)}
    {body : List (Op ι α)} (hv : s.threads[t]? = some ⟨.locked body :: rest, none⟩)
    (hfree : s.data.mutex = none)
    (hothers : ∀ (u : Nat) (w : Thread ι α), u ≠ t → s.threads[u]? = some w →
      w.scope.isSome = false) :
    Scoped g data threads closed []
      ⟨{ s.data with mutex := some t }, s.threads.set t ⟨rest, some body⟩⟩ := by
  obtain ⟨m, hm, hfilter⟩ := h.out
  refine ⟨⟨m, hm, ?_⟩, ?_, h.members⟩
  · have hnil : ((some t).toList.filter g).flatMap (fun u => ([] : List α).map fun x => (u, x)) =
        [] := List.flatMap_eq_nil_iff.mpr fun _ _ => rfl
    rw [hfilter, hfree]
    exact congrArg (_ ++ ·) hnil.symm
  · intro u w' w hg hw' hw
    rcases getElem?_set_cases hw' with ⟨rfl, rfl⟩ | ⟨hne, hu⟩
    · exact h.scopes _ _ w hg hv hw
    · rw [Thread.scopes_of_outside (hothers u w' hne hu) [] ahead]
      exact h.scopes u w' w hg hu hw

theorem Scoped.unlock (h : Scoped g data threads closed ahead s) (hg : g t = true)
    {rest : List (Stmt ι α)} (hv : s.threads[t]? = some ⟨rest, some []⟩)
    (howner : s.data.mutex = some t)
    (hothers : ∀ (u : Nat) (w : Thread ι α), u ≠ t → s.threads[u]? = some w →
      w.scope.isSome = false) (hlen : t < threads.length) :
    Scoped g data threads (closed ++ [(t, ahead)]) []
      ⟨{ s.data with mutex := none }, s.threads.set t ⟨rest, none⟩⟩ := by
  obtain ⟨m, hm, hfilter⟩ := h.out
  refine ⟨⟨m, hm, ?_⟩, ?_, ?_⟩
  · have htoList : (some t).toList.filter g = [t] := List.filter_cons_of_pos hg
    have hnone : (none : Option Nat).toList.filter g = [] := rfl
    rw [hfilter, howner, htoList]
    show _ = _ ++ ((none : Option Nat).toList.filter g).flatMap _
    rw [hnone, List.flatMap_append, List.flatMap_singleton, List.flatMap_singleton,
      List.flatMap_nil, List.append_nil]
  · intro u w' w hg' hw' hw
    rw [own_append]
    rcases getElem?_set_cases hw' with ⟨rfl, rfl⟩ | ⟨hne, hu⟩
    · have hself : own u [(u, ahead)] = [ahead] := own_self u [ahead]
      rw [← h.scopes _ _ w hg' hv hw, hself, List.append_assoc]
      show _ ++ ([ahead] ++ _) = _ ++ ([ahead ++ []] ++ _)
      rw [List.append_nil]
      rfl
    · have hother : own u [(t, ahead)] = [] := own_other hne [ahead]
      rw [hother, List.append_nil, Thread.scopes_of_outside (hothers u w' hne hu) [] ahead]
      exact h.scopes u w' w hg' hu hw
  · intro c hc
    rcases List.mem_append.mp hc with hc | hc
    · exact h.members c hc
    · obtain rfl := List.mem_singleton.mp hc
      exact ⟨hg, hlen⟩

/-- The scopes of the other threads do not matter here. -/
theorem Scoped.unlock_other (h : Scoped g data threads closed ahead s) (hg : g t = false)
    {rest : List (Stmt ι α)} (howner : s.data.mutex = some t) :
    Scoped g data threads closed ahead
      ⟨{ s.data with mutex := none }, s.threads.set t ⟨rest, none⟩⟩ := by
  obtain ⟨m, hm, hfilter⟩ := h.out
  refine ⟨⟨m, hm, ?_⟩, ?_, h.members⟩
  · have htoList : (some t).toList.filter g = [] := by
      rw [Option.toList_some, List.filter_cons_of_neg (ne_true_of_eq_false hg), List.filter_nil]
    rw [hfilter, howner, htoList]
    rfl
  · intro u w' w hg' hw' hw
    rcases getElem?_set_cases hw' with ⟨rfl, rfl⟩ | ⟨-, hu⟩
    · exact absurd (hg.symm.trans hg') nofun
    · exact h.scopes u w' w hg' hu hw

end Scoped

/-! ### Scopes that are left -/

variable [DecidableEq ι] {t : Nat} {d d' : Shared ι α} {v v' : Thread ι α}

theorem Step.guarded (h : Step t d v d' v') (hv : v.Guarded) : v'.Guarded := by
  cases h with
  | outside hd => exact fun o ho => hv o (List.mem_cons_of_mem _ ho)
  | inside hd => exact hv
  | lock hfree => exact fun o ho => hv o (List.mem_cons_of_mem _ ho)
  | unlock => exact hv

theorem Step.plain (h : Step t d v d' v') (hv : v.Plain) : v'.Plain := by
  cases h with
  | outside hd => exact ⟨rfl, fun body hbody => hv.2 body (List.mem_cons_of_mem _ hbody)⟩
  | inside hd => cases hv.1
  | lock hfree => exact absurd (List.mem_cons_self ..) (hv.2 _)
  | unlock => exact ⟨rfl, hv.2⟩

section Runs

variable {data : Shared ι α} {threads : List (Thread ι α)} {s s' : State (Shared ι α) (Thread ι α)}
  {ok : State (Shared ι α) (Thread ι α) → Nat → Prop} {g : Nat → Bool}
  {closed : List (Nat × List α)} {ahead : List α}

theorem forall_threads {P : Thread ι α → Prop}
    (hstep : ∀ {t d v d' v'}, Step t d v d' v' → P v → P v')
    (h0 : ∀ (t : Nat) (v : Thread ι α), g t = true → threads[t]? = some v → P v)
    (hs : (Threads.system next data threads).ReachableBy ok s) (t : Nat) (v : Thread ι α)
    (hg : g t = true) (hv : s.threads[t]? = some v) : P v := by
  refine (Threads.invariant (I := fun _ => True) (L := fun t _ v => g t = true → P v)
    trivial ?_ ?_ hs).2 t v hv hg
  · intro t v hv hg
    exact h0 t v hg hv
  · intro s t v d v' _ _ _ hL _ hnext
    exact ⟨trivial, fun hg => hstep (step_of hnext) (hL hg), fun _ _ _ _ hu => hu⟩

theorem whole (h0 : Whole g threads) (hs : (Threads.system next data threads).ReachableBy ok s) :
    Whole g s.threads :=
  h0.imp (fun h => forall_threads Step.guarded h hs) fun h => forall_threads Step.plain h hs

/-- A step writes nothing, or it is one of the owner of the mutex, or it locks or unlocks. -/
theorem Scoped.step (h : Scoped g data threads closed ahead s) (hwhole : Whole g s.threads)
    (hv : s.threads[t]? = some v)
    (howner_lt : ∀ u, s.data.mutex = some u → u < s.threads.length)
    (howned : ∀ (u : Nat) (w : Thread ι α), s.threads[u]? = some w →
      (w.scope.isSome = true ↔ s.data.mutex = some u)) (hlen : t < threads.length)
    (hstep : Step t s.data v d v') :
    ∃ closed ahead, Scoped g data threads closed ahead ⟨d, s.threads.set t v'⟩ := by
  have hothers : ∀ (u : Nat) (w : Thread ι α), (∀ u', s.data.mutex = some u' → u' = t) → u ≠ t →
      s.threads[u]? = some w → w.scope.isSome = false := by
    intro u w howner hne hw
    by_contra hsome
    exact hne (howner u ((howned u w hw).mp (eq_true_of_ne_false hsome)))
  cases hstep with
  | @outside o rest d' hd =>
    by_cases hquiet : g t = true → o.text = []
    · refine ⟨closed, ahead, h.quiet hv (perform_out hd) hquiet (perform_mutex hd) ?_⟩
      intro hg
      show _ = [] ++ ((Stmt.op o).scopes ++ _)
      rw [Stmt.scopes_of_text (hquiet hg)]
      rfl
    · push Not at hquiet
      obtain ⟨hg, htext⟩ := hquiet
      rcases hwhole with hguarded | hplain
      · exact absurd (hguarded t _ hg hv o (List.mem_cons_self ..)) htext
      · refine ⟨_, ahead, h.put hg hv htext (perform_out hd) (perform_mutex hd) ?_ hlen⟩
        rw [List.filter_eq_nil_iff]
        intro u hu hg'
        have howner : s.data.mutex = some u := Option.mem_toList.mp hu
        have hget := List.getElem?_eq_getElem (howner_lt u howner)
        have hinside := (howned u _ hget).mpr howner
        rw [(hplain u _ hg' hget).1] at hinside
        cases hinside
  | inside hd =>
    have howner := (howned t _ hv).mp rfl
    have hall := fun u w => hothers u w fun u' hu' => Option.some.inj (hu'.symm.trans howner)
    cases hg : g t with
    | true =>
      exact ⟨closed, _, h.write hg hv howner hall (perform_out hd)
        ((perform_mutex hd).trans howner)⟩
    | false =>
      refine ⟨closed, ahead, h.quiet hv (perform_out hd) ?_ (perform_mutex hd) ?_⟩
      · intro hg'
        exact absurd (hg.symm.trans hg') nofun
      · intro hg'
        exact absurd (hg.symm.trans hg') nofun
  | lock hfree =>
    exact ⟨closed, [], h.lock hv hfree fun u w => hothers u w fun u' hu' =>
      absurd (hfree.symm.trans hu') nofun⟩
  | unlock =>
    have howner := (howned t _ hv).mp rfl
    have hall := fun u w => hothers u w fun u' hu' => Option.some.inj (hu'.symm.trans howner)
    cases hg : g t with
    | true => exact ⟨_, [], h.unlock hg hv howner hall hlen⟩
    | false => exact ⟨closed, ahead, h.unlock_other hg howner⟩

/-- **Scopes are not interrupted** by other scopes: what the threads `g` write is one scope
after the other, each thread's in their order. -/
theorem exists_scoped (hfree : data.mutex = none) (houtside : ∀ v ∈ threads, v.scope.isSome = false)
    (h0 : Whole g threads) (hs : (Threads.system next data threads).ReachableBy ok s) :
    ∃ closed ahead, Scoped g data threads closed ahead s := by
  induction hs with
  | init =>
    refine ⟨[], [], ⟨[], (List.append_nil _).symm, ?_⟩, ?_, nofun⟩
    · show _ = _ ++ (data.mutex.toList.filter g).flatMap _
      rw [hfree]
      rfl
    · intro t v w hg hv hw
      obtain rfl := Option.some.inj (hv.symm.trans hw)
      rfl
  | @step s s' t hs hok hst ih =>
    obtain ⟨closed, ahead, h⟩ := ih
    obtain ⟨v, d, v', hv, hnext, rfl⟩ := step_cases hst
    have hlt : t < threads.length := by
      rw [← length_threads hs]
      exact (List.getElem?_eq_some_iff.mp hv).1
    exact h.step (whole h0 hs) hv (fun u hu => mutex.owner_lt mutex_respected hfree hs hu)
      (fun u w hw => mutex.owned mutex_respected hfree houtside hs hw) hlt (step_of hnext)

end Runs

end Lib.Latches
