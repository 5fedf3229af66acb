import Cpp20Examples.Lib.Threads
import Mathlib.Algebra.Order.Group.Multiset
import Mathlib.Data.Multiset.Basic

/-!
# An append in two atomic steps

`atomicSharedPtr`: each thread makes a new string of the one that `sharString` points to
and its own word, and stores it.  The load and the store are atomic, but another thread may
store between them.

* `fresh`: a store finds the string that was loaded.
* `appended`: while all do, the string is the initial one with the words that were stored.
* `no_update_lost`: what the threads leave behind, and what a store that is not fresh does.
-/

namespace Cpp20Examples.AtomicSharedPtr

open Lib Lib.Threads

abbrev Word := List Char

/-- The string that `sharString` points to, and the words that were stored, newest first;
each store installs a new object, so their number says which object it is. -/
structure Shared where
  sharString : List Char
  stored : List Word := []
  deriving DecidableEq

/-- A thread appends its word: in front of the load, in front of the store with what it has
loaded and the object it was, or finished. -/
inductive Appender
  | load (word : Word)
  | store (word : Word) (loaded : List Char) (object : Nat)
  | done
  deriving DecidableEq

/-- A step of `sharString.store(make_shared(*sharString.load() + word))`. -/
def append (_ : Nat) (d : Shared) : Appender → Option (Shared × Appender)
  | .load word => some (d, .store word d.sharString d.stored.length)
  | .store word loaded _ => some (⟨loaded ++ word, word :: d.stored⟩, .done)
  | .done => none

/-- Threads with these words. -/
def system (init : List Char) (words : List Word) : System (State Shared Appender) Nat :=
  Threads.system append ⟨init, []⟩ (words.map .load)

/-- The object that the thread has loaded is the one that its store replaces. -/
def Appender.fresh (d : Shared) : Appender → Bool
  | .store _ _ object => object == d.stored.length
  | .load _ | .done => true

def fresh (s : State Shared Appender) (t : Nat) : Bool :=
  s.threads[t]?.all fun a => a.fresh s.data

/-! ### The words -/

/-- The word that a thread has still to store. -/
def Appender.pending : Appender → Multiset Word
  | .load word | .store word _ _ => {word}
  | .done => 0

section Words

variable {t : Nat} {d d' : Shared} {a a' : Appender}

theorem pending_step (h : append t d a = some (d', a')) :
    (d'.stored : Multiset Word) + a'.pending = d.stored + a.pending := by
  cases a with
  | load word => cases h; rfl
  | store word loaded object =>
    cases h
    simp [Appender.pending, ← Multiset.cons_coe, ← Multiset.singleton_add, add_comm]
  | done => cases h

end Words

section Accounted

variable {init : List Char} {words : List Word} {ok : State Shared Appender → Nat → Prop}
  {s : State Shared Appender}

/-- **Each word is stored once**, whatever it is appended to. -/
theorem stored_perm (hs : (system init words).ReachableBy ok s)
    (hdone : ∀ a ∈ s.threads, a = .done) : s.data.stored.Perm words := by
  have hsum := conserved (M := Multiset Word) (f := fun d : Shared => (d.stored : Multiset Word))
    (w := Appender.pending) (fun s t a d a' _ _ _ h => pending_step h) hs
  have hzero : (s.threads.map Appender.pending).sum = 0 := List.sum_eq_zero fun m hm => by
    obtain ⟨a, ha, rfl⟩ := List.mem_map.mp hm
    rw [hdone a ha]
    rfl
  have hall : ∀ ws : List Word, ((ws.map Appender.load).map Appender.pending).sum =
      (ws : Multiset Word) := by
    intro ws
    induction ws with
    | nil => rfl
    | cons w ws ih =>
      rw [List.map_cons, List.map_cons, List.sum_cons, ih]
      exact Multiset.singleton_add w ws
  rw [hzero, add_zero, hall] at hsum
  exact Multiset.coe_eq_coe.mp (hsum.trans (zero_add _))

end Accounted

/-! ### The runs of fresh stores -/

/-- What a thread has loaded is what `sharString` is, unless another store came between. -/
def Appender.Loaded (d : Shared) : Appender → Prop
  | .store _ loaded object =>
    object ≤ d.stored.length ∧ (object = d.stored.length → loaded = d.sharString)
  | .load _ | .done => True

section Fresh

variable {t : Nat} {d d' : Shared} {a a' w : Appender} {init : List Char} {words : List Word}
  {s : State Shared Appender}

theorem loaded_step (h : append t d a = some (d', a')) : a'.Loaded d' := by
  cases a with
  | load word => cases h; exact ⟨le_rfl, fun _ => rfl⟩
  | store word loaded object => cases h; trivial
  | done => cases h

/-- A store makes what the others have loaded an old object. -/
theorem loaded_others (hw : w.Loaded d) (h : append t d a = some (d', a')) : w.Loaded d' := by
  cases a with
  | load word => cases h; exact hw
  | store word loaded object =>
    cases h
    cases w with
    | store word' loaded' object' =>
      have hlt : object' < d.stored.length + 1 := Nat.lt_succ_of_le hw.1
      exact ⟨hlt.le, fun he => absurd he hlt.ne⟩
    | _ => trivial
  | done => cases h

theorem fresh_iff {b : Bool} (ha : s.threads[t]? = some a) :
    fresh s t = b ↔ a.fresh s.data = b := by
  rw [fresh, ha, Option.all_some]

theorem appended (hs : (system init words).ReachableBy (fun s t => fresh s t) s) :
    s.data.sharString = init ++ s.data.stored.reverse.flatten := by
  refine (invariant (I := fun d : Shared => d.sharString = init ++ d.stored.reverse.flatten)
    (L := fun _ d (a : Appender) => a.Loaded d) (by simp) ?_
    ?_ hs).1
  · intro t a ha
    obtain ⟨word, -, rfl⟩ := List.mem_map.mp (List.mem_of_getElem? ha)
    trivial
  · intro s t a d a' _ hok hI hk ha hnext
    refine ⟨?_, loaded_step hnext, fun u w _ _ hw => loaded_others hw hnext⟩
    cases a with
    | load word => cases hnext; exact hI
    | store word loaded object =>
      have hobject : object = s.data.stored.length := by
        simpa [Appender.fresh] using (fresh_iff ha).mp hok
      cases hnext
      rw [hk.2 hobject, hI]
      simp
    | done => cases hnext

end Fresh

/-! ### The other stores -/

/-- The length of the string when no word is lost. -/
def Shared.full (init : List Char) (d : Shared) : Nat := init.length + d.stored.flatten.length

/-- A thread has loaded at most the words that were stored, and not all of them when another
store came between; its own word is not empty. -/
def Appender.Behind (init : List Char) (d : Shared) : Appender → Prop
  | .load word => word ≠ []
  | .store word loaded object => word ≠ [] ∧ object ≤ d.stored.length ∧
    loaded.length + (if object = d.stored.length then 0 else 1) ≤ d.full init
  | .done => True

/-- A thread that will not store all words. -/
def Appender.Lost (init : List Char) (d : Shared) : Appender → Prop
  | .store _ loaded _ => loaded.length < d.full init
  | .load _ | .done => True

section Lost

variable {t : Nat} {d d' : Shared} {a a' w : Appender} {init : List Char} {words : List Word}
  {s s' : State Shared Appender}

theorem full_store (d : Shared) (word : Word) (string : List Char) :
    Shared.full init ⟨string, word :: d.stored⟩ = d.full init + word.length := by
  simp only [Shared.full, List.flatten_cons, List.length_append]
  omega

theorem behind_step (hd : d.sharString.length ≤ d.full init) (ha : a.Behind init d)
    (h : append t d a = some (d', a')) :
    d'.sharString.length ≤ d'.full init ∧ a'.Behind init d' := by
  cases a with
  | load word =>
    cases h
    exact ⟨hd, ha, le_rfl, by simpa using hd⟩
  | store word loaded object =>
    obtain ⟨-, -, hle⟩ := ha
    cases h
    refine ⟨?_, trivial⟩
    rw [full_store, List.length_append]
    omega
  | done => cases h

theorem behind_others (ha : a.Behind init d) (hw : w.Behind init d)
    (h : append t d a = some (d', a')) : w.Behind init d' := by
  cases a with
  | load word => cases h; exact hw
  | store word loaded object =>
    have hpos : 0 < word.length := List.length_pos_iff.mpr ha.1
    cases h
    cases w with
    | store word' loaded' object' =>
      obtain ⟨hne, hle, hlen⟩ := hw
      refine ⟨hne, hle.trans (Nat.le_succ _), ?_⟩
      rw [full_store]
      split <;> omega
    | load word' => exact hw
    | done => trivial
  | done => cases h

/-- **A store that is not fresh** loses a word, for the others too. -/
theorem lost_of_not_fresh (hfresh : a.fresh d = false) (ha : a.Behind init d)
    (h : append t d a = some (d', a')) :
    d'.sharString.length < d'.full init ∧ a'.Lost init d' ∧
      (w.Behind init d → w.Lost init d') := by
  cases a with
  | store word loaded object =>
    obtain ⟨hne, -, hle⟩ := ha
    have hpos : 0 < word.length := List.length_pos_iff.mpr hne
    have hold : object ≠ d.stored.length := by simpa [Appender.fresh] using hfresh
    rw [if_neg hold] at hle
    cases h
    refine ⟨?_, trivial, ?_⟩
    · rw [full_store, List.length_append]
      omega
    · intro hw
      cases w with
      | store word' loaded' object' =>
        have hlen := hw.2.2
        show loaded'.length < _
        rw [full_store]
        omega
      | _ => trivial
  | _ => cases hfresh

theorem lost_step (hd : d.sharString.length < d.full init) (ha : a.Lost init d)
    (h : append t d a = some (d', a')) :
    d'.sharString.length < d'.full init ∧ a'.Lost init d' ∧ (w.Lost init d → w.Lost init d') := by
  cases a with
  | load word => cases h; exact ⟨hd, hd, id⟩
  | store word loaded object =>
    have hlt : loaded.length < d.full init := ha
    cases h
    refine ⟨?_, trivial, ?_⟩
    · rw [full_store, List.length_append]
      omega
    · intro hw
      cases w with
      | store word' loaded' object' =>
        have hlen : loaded'.length < d.full init := hw
        show loaded'.length < _
        rw [full_store]
        omega
      | _ => trivial
  | done => cases h

theorem behind (hwords : ∀ word ∈ words, word ≠ []) (hs : (system init words).Reachable s) :
    s.data.sharString.length ≤ s.data.full init ∧
      ∀ (t : Nat) (a : Appender), s.threads[t]? = some a → a.Behind init s.data := by
  refine invariant (I := fun d : Shared => d.sharString.length ≤ d.full init)
    (L := fun _ d (a : Appender) => a.Behind init d) (Nat.le_add_right _ _) ?_
    ?_ hs
  · intro t a ha
    obtain ⟨word, hword, rfl⟩ := List.mem_map.mp (List.mem_of_getElem? ha)
    exact hwords word hword
  · intro s t a d a' _ _ hI hk ha hnext
    obtain ⟨hI', hk'⟩ := behind_step hI hk hnext
    exact ⟨hI', hk', fun u w _ _ hw => behind_others hk hw hnext⟩

/-- A state in which a word is lost. -/
structure SomeLost (init : List Char) (s : State Shared Appender) : Prop where
  short : s.data.sharString.length < s.data.full init
  threads : ∀ (t : Nat) (a : Appender), s.threads[t]? = some a → a.Lost init s.data

theorem someLost_of_not_fresh (hwords : ∀ word ∈ words, word ≠ [])
    (hs : (system init words).Reachable s) (hfresh : fresh s t = false)
    (hst : (system init words).step s t = some s') : SomeLost init s' := by
  obtain ⟨a, d, a', ha, hnext, rfl⟩ := step_cases hst
  have hbehind := (behind hwords hs).2
  have hold : a.fresh s.data = false := (fresh_iff ha).mp hfresh
  have hstep := fun w => lost_of_not_fresh (w := w) hold (hbehind t a ha) hnext
  refine ⟨(hstep a).1, ?_⟩
  intro u w hw
  rcases getElem?_set_cases hw with ⟨-, rfl⟩ | ⟨-, hw⟩
  · exact (hstep a).2.1
  · exact (hstep w).2.2 (hbehind u w hw)

theorem someLost_step (hs : SomeLost init s) (hst : (system init words).step s t = some s') :
    SomeLost init s' := by
  obtain ⟨a, d, a', ha, hnext, rfl⟩ := step_cases hst
  have hstep := fun w => lost_step (w := w) hs.short (hs.threads t a ha) hnext
  refine ⟨(hstep a).1, ?_⟩
  intro u w hw
  rcases getElem?_set_cases hw with ⟨-, rfl⟩ | ⟨-, hw⟩
  · exact (hstep a).2.1
  · exact (hstep w).2.2 (hs.threads u w hw)

end Lost

/-- What the appends should do: the string is the initial one with all words. -/
def AllAppended (init : List Char) (words : List Word) (d : Shared) : Prop :=
  ∃ ws : List Word, ws.Perm words ∧ d.sharString = init ++ ws.flatten

/-- **No update is lost in the runs of fresh stores.**  When all threads have finished, the
string is the initial one with the words in some order.  After a store that is not fresh it
is not, if no word is empty. -/
theorem no_update_lost (init : List Char) (words : List Word) :
    (∀ s, (system init words).ReachableBy (fun s t => fresh s t) s →
      (∀ a ∈ s.threads, a = .done) → AllAppended init words s.data) ∧
    ((∀ word ∈ words, word ≠ []) → ∀ s t s' as s'', (system init words).Reachable s →
      fresh s t = false → (system init words).step s t = some s' →
      (system init words).run s' as = some s'' → (∀ a ∈ s''.threads, a = .done) →
      ¬AllAppended init words s''.data) := by
  refine ⟨fun s hs hdone => ⟨_, (List.reverse_perm _).trans (stored_perm hs hdone), appended hs⟩,
    ?_⟩
  intro hwords s t s' as s'' hs hfresh hst hrun hdone
  have hs' : (system init words).Reachable s' := .step hs trivial hst
  have hlost := hs'.run_invariant (I := SomeLost init)
    (fun _ _ _ _ hlost hst => someLost_step hlost hst) hrun
    (someLost_of_not_fresh hwords hs hfresh hst)
  rintro ⟨ws, hws, hall⟩
  have hperm := hws.trans (stored_perm (hs'.run hrun) hdone).symm
  have hlength : ws.flatten.length = s''.data.stored.flatten.length := by
    rw [List.length_flatten, List.length_flatten]
    exact (hperm.map List.length).sum_eq
  have hshort := hlost.short
  rw [hall, Shared.full, List.length_append, hlength] at hshort
  exact lt_irrefl _ hshort

/-- Two threads of `main`, the second one first. -/
theorem no_update_lost_two :
    ∃ s, (system "Zero".toList ["One".toList, "Two".toList]).ReachableBy (fun s t => fresh s t) s ∧
      AllAppended "Zero".toList ["One".toList, "Two".toList] s.data := by
  obtain ⟨s, hs, hp⟩ := System.exists_reachableBy
    (M := system "Zero".toList ["One".toList, "Two".toList]) fresh
    (p := fun s => s.threads.all fun a => a == .done) [1, 1, 0, 0] (by decide) (by decide)
  exact ⟨s, hs, (no_update_lost _ _).1 s hs (by simpa using hp)⟩

/-- Both threads load the initial string, and the second store replaces the first one. -/
theorem update_lost :
    ¬∀ s, (system "Zero".toList ["One".toList, "Two".toList]).Reachable s →
      (∀ a ∈ s.threads, a = .done) →
      AllAppended "Zero".toList ["One".toList, "Two".toList] s.data := by
  intro h
  obtain ⟨ws, hws, hall⟩ := h _ (System.reachable_of_run [0, 1, 0, 1] rfl) (by decide)
  have hlength : ws.flatten.length = 6 := by
    rw [List.length_flatten, (hws.map List.length).sum_eq]
    decide
  have htotal : 7 = ("Zero".toList ++ ws.flatten).length := congrArg List.length hall
  rw [List.length_append, hlength] at htotal
  exact absurd htotal (by decide)

end Cpp20Examples.AtomicSharedPtr
