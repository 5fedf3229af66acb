import Cpp20Examples.Lib.SharedMutex

/-!
# The telephone book

`readerWriterLock`: `addToTeleBook` writes to `teleBook` while it owns `teleBookMutex`, and
`printNumber` looks a name up while it shares it.  The lookup is `teleBook[na]`, which
inserts a name that is not in the book.

* `finds`: a name that is looked up is in the book.
* `keeps_iff_finds`: the steps of a run that leave the book to the readers as it is.
* `updated`: the book after the calls of `addToTeleBook`, in the order of their locks.
* `readers_keep_iff`: the runs in which the readers do not change the book.
-/

namespace Cpp20Examples.ReaderWriterLock

open Lib Lib.Threads

/-- A `std::map` from names to numbers. -/
abbrev TeleBook := String → Option Int32

/-- `operator[]`: the number of a name, and the book, into which the name is inserted when
it is not there. -/
def subscript (book : TeleBook) (na : String) : TeleBook × Int32 :=
  match book na with
  | some tele => (book, tele)
  | none => (Function.update book na (some 0), 0)

/-- `book[na] = tele`. -/
def assign (book : TeleBook) (na : String) (tele : Int32) : TeleBook :=
  Function.update book na (some tele)

inductive Call
  | addToTeleBook (na : String) (tele : Int32)
  | printNumber (na : String)
  deriving DecidableEq

inductive Output
  | starting (na : String)
  | ending (na : String)
  | number (na : String) (tele : Int32)
  deriving DecidableEq

/-- `writer` and `readers` are the state of `teleBookMutex`, `cout` is newest first.  In
`added` are the calls of `addToTeleBook` that have locked it, newest first. -/
structure Shared where
  teleBook : TeleBook
  writer : Option Nat := none
  readers : Nat := 0
  cout : List Output := []
  added : List (String × Int32) := []

/-- Where a thread is: in front of the two outputs of `addToTeleBook`, the assignment
between them or the end of its `writerLock`, or of the output of `printNumber` or the end
of its `readerLock`. -/
inductive Point
  | outside
  | starting (na : String) (tele : Int32)
  | assign (na : String) (tele : Int32)
  | ending (na : String)
  | unlock
  | print (na : String)
  | unlockShared
  deriving DecidableEq

/-- A thread, with the calls that it is still to make. -/
structure Caller where
  calls : List Call
  point : Point := .outside
  deriving DecidableEq

/-- A step of `addToTeleBook` or `printNumber`. -/
def step (t : Nat) (d : Shared) (c : Caller) : Option (Shared × Caller) :=
  match c.point with
  | .outside =>
    match c.calls with
    | [] => none
    | .addToTeleBook na tele :: calls =>
      if d.writer = none ∧ d.readers = 0 then
        some ({ d with writer := some t, added := (na, tele) :: d.added },
          ⟨calls, .starting na tele⟩)
      else none
    | .printNumber na :: calls =>
      if d.writer = none then some ({ d with readers := d.readers + 1 }, ⟨calls, .print na⟩)
      else none
  | .starting na tele =>
    some ({ d with cout := .starting na :: d.cout }, { c with point := .assign na tele })
  | .assign na tele =>
    some ({ d with teleBook := assign d.teleBook na tele }, { c with point := .ending na })
  | .ending na => some ({ d with cout := .ending na :: d.cout }, { c with point := .unlock })
  | .unlock => some ({ d with writer := none }, { c with point := .outside })
  | .print na =>
    let (teleBook, tele) := subscript d.teleBook na
    some ({ d with teleBook, cout := .number na tele :: d.cout }, { c with point := .unlockShared })
  | .unlockShared => some ({ d with readers := d.readers - 1 }, { c with point := .outside })

/-- Inside `addToTeleBook`, with the lock. -/
def Caller.writing (c : Caller) : Bool :=
  match c.point with
  | .starting .. | .assign .. | .ending _ | .unlock => true
  | _ => false

/-- Inside `printNumber`, with the lock. -/
def Caller.reading (c : Caller) : Bool :=
  match c.point with
  | .print _ | .unlockShared => true
  | _ => false

def Caller.finished (c : Caller) : Bool := c.calls.isEmpty && decide (c.point = .outside)

/-- The threads with these calls, on a book. -/
def system (book : TeleBook) (calls : List (List Call)) : System (State Shared Caller) Nat :=
  Threads.system step ⟨book, none, 0, [], []⟩ (calls.map fun cs => ⟨cs, .outside⟩)

/-! ### The steps -/

inductive Step (t : Nat) (d : Shared) : Caller → Shared → Caller → Prop
  | lock {na tele calls} (hfree : d.writer = none) (hnone : d.readers = 0) :
      Step t d ⟨.addToTeleBook na tele :: calls, .outside⟩
        { d with writer := some t, added := (na, tele) :: d.added } ⟨calls, .starting na tele⟩
  | lockShared {na calls} (hfree : d.writer = none) :
      Step t d ⟨.printNumber na :: calls, .outside⟩ { d with readers := d.readers + 1 }
        ⟨calls, .print na⟩
  | starting {na tele calls} : Step t d ⟨calls, .starting na tele⟩
      { d with cout := .starting na :: d.cout } ⟨calls, .assign na tele⟩
  | assign {na tele calls} : Step t d ⟨calls, .assign na tele⟩
      { d with teleBook := assign d.teleBook na tele } ⟨calls, .ending na⟩
  | ending {na calls} : Step t d ⟨calls, .ending na⟩ { d with cout := .ending na :: d.cout }
      ⟨calls, .unlock⟩
  | unlock {calls} : Step t d ⟨calls, .unlock⟩ { d with writer := none } ⟨calls, .outside⟩
  | print {na calls} : Step t d ⟨calls, .print na⟩
      { d with
        teleBook := (subscript d.teleBook na).1
        cout := .number na (subscript d.teleBook na).2 :: d.cout }
      ⟨calls, .unlockShared⟩
  | unlockShared {calls} : Step t d ⟨calls, .unlockShared⟩ { d with readers := d.readers - 1 }
      ⟨calls, .outside⟩

theorem step_of {t : Nat} {d d' : Shared} {c c' : Caller} (h : step t d c = some (d', c')) :
    Step t d c d' c' := by
  obtain ⟨calls, p⟩ := c
  cases p with
  | outside =>
    cases calls with
    | nil => cases h
    | cons call calls =>
      cases call with
      | addToTeleBook na tele =>
        simp only [step] at h
        split at h
        · rename_i hfree
          cases h
          exact .lock hfree.1 hfree.2
        · cases h
      | printNumber na =>
        simp only [step] at h
        split at h
        · rename_i hfree
          cases h
          exact .lockShared hfree
        · cases h
  | starting na tele => cases h; exact .starting
  | assign na tele => cases h; exact .assign
  | ending na => cases h; exact .ending
  | unlock => cases h; exact .unlock
  | print na => cases h; exact .print
  | unlockShared => cases h; exact .unlockShared

def teleBookMutex : SharedMutex Shared Caller where
  owner := Shared.writer
  sharers := Shared.readers
  exclusive := Caller.writing
  shared := Caller.reading

theorem respected : teleBookMutex.Respected step := by
  intro t d c d' c' h
  cases step_of h with
  | lock hfree hnone => exact .lock rfl hfree hnone rfl rfl rfl hnone
  | lockShared hfree => exact .lockShared rfl hfree rfl rfl hfree rfl
  | unlock => exact .unlock rfl rfl rfl rfl rfl
  | unlockShared => exact .unlockShared rfl rfl rfl rfl rfl
  | starting | assign | ending | print => exact .keep rfl rfl rfl rfl

variable {book : TeleBook} {calls : List (List Call)} {s s' : State Shared Caller} {t : Nat}

theorem free : teleBookMutex.Free ⟨book, none, 0, [], []⟩ (calls.map fun cs => ⟨cs, .outside⟩) where
  owner := rfl
  sharers := rfl
  exclusive c hc := by
    obtain ⟨cs, -, rfl⟩ := List.mem_map.mp hc
    rfl
  shared c hc := by
    obtain ⟨cs, -, rfl⟩ := List.mem_map.mp hc
    rfl

/-! ### Lookups -/

/-- The names that are looked up are in the book. -/
def Caller.finds (d : Shared) (c : Caller) : Bool :=
  match c.point with
  | .print na => (d.teleBook na).isSome
  | _ => true

/-- The thread that moves does not look up a name that is not in the book. -/
def finds (s : State Shared Caller) (t : Nat) : Bool := s.threads[t]?.all fun c => c.finds s.data

theorem subscript_eq_iff {book : TeleBook} {na : String} :
    (subscript book na).1 = book ↔ (book na).isSome = true := by
  rw [subscript]
  cases hbook : book na with
  | some tele => exact ⟨fun _ => rfl, fun _ => rfl⟩
  | none =>
    constructor
    · intro heq
      have hsome := congrFun heq na
      simp only [Function.update_self] at hsome
      rw [hbook] at hsome
      cases hsome
    · intro h
      cases h

/-- While a thread is reading, the book stays as it is. -/
def KeepsReading (s : State Shared Caller) (_ : Nat) (s' : State Shared Caller) : Prop :=
  (∃ c ∈ s.threads, c.reading = true) → s'.data.teleBook = s.data.teleBook

/-- **The steps that keep the book** are those that find the names they look up. -/
theorem keeps_iff_finds (hs : (system book calls).Reachable s)
    (hst : (system book calls).step s t = some s') :
    KeepsReading s t s' ↔ finds s t = true := by
  obtain ⟨c, d, c', hc, hnext, rfl⟩ := step_cases hst
  have hmem : c ∈ s.threads := List.mem_of_getElem? hc
  rw [finds, hc, Option.all_some]
  cases step_of hnext with
  | print =>
    exact ⟨fun hkeeps => subscript_eq_iff.mp (hkeeps ⟨_, hmem, rfl⟩),
      fun hfinds _ => subscript_eq_iff.mpr hfinds⟩
  | assign =>
    refine ⟨fun _ => rfl, ?_⟩
    intro _ hreader
    obtain ⟨w, hw, hreading⟩ := hreader
    have hnot := SharedMutex.not_shared respected free hs hc rfl hw
    exact absurd (hnot.symm.trans hreading) (by decide)
  | _ => exact ⟨fun _ => rfl, fun _ _ => rfl⟩

/-! ### The final book -/

/-- The book after some calls of `addToTeleBook`, of which the newest one is first. -/
def updated (book : TeleBook) (added : List (String × Int32)) : TeleBook :=
  added.foldr (fun x b => assign b x.1 x.2) book

/-- The book as the thread that owns the lock knows it. -/
def Caller.Owns (book : TeleBook) (d : Shared) (c : Caller) : Prop :=
  match c.point with
  | .starting na tele | .assign na tele =>
    ∃ earlier, d.added = (na, tele) :: earlier ∧ d.teleBook = updated book earlier
  | _ => d.teleBook = updated book d.added

theorem Caller.Owns.congr {d d' : Shared} {c : Caller} (h : c.Owns book d)
    (hbook : d'.teleBook = d.teleBook) (hadded : d'.added = d.added) : c.Owns book d' := by
  obtain ⟨cs, p⟩ := c
  cases p with
  | starting | assign =>
    obtain ⟨earlier, hcons, hupdated⟩ := h
    exact ⟨earlier, hadded.trans hcons, hbook.trans hupdated⟩
  | _ =>
    show d'.teleBook = updated book d'.added
    rw [hbook, hadded]
    exact h

/-- **The book is the initial one with the calls of `addToTeleBook`** while nobody owns the
lock, when all names that were looked up have been found. -/
theorem teleBook_eq (hs : (system book calls).ReachableBy (fun s t => finds s t) s) :
    s.data.writer = none → s.data.teleBook = updated book s.data.added := by
  refine (SharedMutex.resource respected free
    (I := fun d => d.teleBook = updated book d.added) (L := Caller.Owns book) rfl
    ?_ ?_
    ?_
    ?_ hs).1
  · intro t d c d' c' hnext hout hin hI
    cases step_of hnext with
    | lock => exact ⟨_, rfl, hI⟩
    | starting | assign | ending => cases hout
    | _ => cases hin
  · intro t d c d' c' hnext hin hin' hL
    cases step_of hnext with
    | starting => exact hL
    | assign =>
      obtain ⟨earlier, hadded, hbook⟩ := hL
      show assign _ _ _ = updated book _
      rw [hadded, hbook]
      rfl
    | ending => exact hL
    | unlock => cases hin'
    | _ => cases hin
  · intro t d c d' c' hnext hin hout hL
    cases step_of hnext with
    | unlock => exact hL
    | starting | assign | ending => cases hout
    | _ => cases hin
  · intro s t c d' c' hok hc hnext hout hout'
    cases step_of hnext with
    | print =>
      rw [finds, hc] at hok
      have hsame := subscript_eq_iff.mpr hok
      exact ⟨fun hbook => hsame.trans hbook, fun w hw => hw.congr hsame rfl⟩
    | lockShared | unlockShared => exact ⟨fun h => h, fun _ h => h⟩
    | lock => cases hout'
    | _ => cases hout

theorem not_writing_of_finished {c : Caller} (h : c.finished = true) : c.writing = false := by
  rw [Caller.finished, Bool.and_eq_true, decide_eq_true_iff] at h
  rw [Caller.writing, h.2]

theorem writer_eq_none (hs : (system book calls).Reachable s)
    (hfin : ∀ c ∈ s.threads, c.finished = true) : s.data.writer = none := by
  cases howner : s.data.writer with
  | none => rfl
  | some t =>
    have hc := List.getElem?_eq_getElem (Mutex.owner_lt respected.toMutex rfl hs howner)
    have hwriting := (SharedMutex.owned respected free hs hc).mpr howner
    have hnot := not_writing_of_finished (hfin _ (List.mem_of_getElem? hc))
    exact absurd (hnot.symm.trans hwriting) (by decide)

/-! ### The calls that have locked the mutex -/

/-- The entries that a list of calls adds. -/
def entries (calls : List Call) : List (String × Int32) :=
  calls.filterMap fun
    | .addToTeleBook na tele => some (na, tele)
    | .printNumber _ => none

/-- The calls of `addToTeleBook` have locked the mutex, or are still to be made. -/
theorem added_perm (hs : (system book calls).Reachable s) :
    (s.data.added ++ s.threads.flatMap fun c => entries c.calls).Perm (calls.flatMap entries) := by
  apply List.perm_iff_count.mpr
  intro x
  have hsum := conserved (f := fun d : Shared => d.added.count x)
    (w := fun c : Caller => (entries c.calls).count x) (fun s t c d c' _ _ _ hnext => ?_) hs
  · rw [List.map_map, List.count_nil, Nat.zero_add] at hsum
    rw [List.count_append, List.count_flatMap, List.count_flatMap]
    exact hsum
  · cases step_of hnext with
    | @lock na tele calls =>
      show ((na, tele) :: s.data.added).count x + (entries calls).count x =
        s.data.added.count x + ((na, tele) :: entries calls).count x
      rw [List.count_cons, List.count_cons]
      omega
    | _ => rfl

theorem added_perm_of_finished (hs : (system book calls).Reachable s)
    (hfin : ∀ c ∈ s.threads, c.finished = true) :
    s.data.added.Perm (calls.flatMap entries) := by
  have hnil : (s.threads.flatMap fun c => entries c.calls) = [] := by
    apply List.flatMap_eq_nil_iff.mpr
    intro c hc
    have hcalls := hfin c hc
    rw [Caller.finished, Bool.and_eq_true, List.isEmpty_iff] at hcalls
    rw [hcalls.1]
    rfl
  have hperm := added_perm hs
  rwa [hnil, List.append_nil] at hperm

/-- What the readers should leave as it is: the book while one of them is inside, and in the
end the entries that were added, in the order of the locks. -/
structure ReadersKeep (book : TeleBook) (calls : List (List Call)) (as : List Nat)
    (s : State Shared Caller) : Prop where
  reading : (system book calls).EachStep KeepsReading (system book calls).init as
  final : (∀ c ∈ s.threads, c.finished = true) →
    s.data.teleBook = updated book s.data.added ∧ s.data.added.Perm (calls.flatMap entries)

/-- **The readers do not change the book** exactly in the runs in which each name that
`printNumber` looks up is in the book then. -/
theorem readers_keep_iff {as : List Nat}
    (h : (system book calls).run (system book calls).init as = some s) :
    ReadersKeep book calls as s ↔
      (system book calls).AllOk finds (system book calls).init as = true := by
  have hs : (system book calls).Reachable s := System.reachable_of_run as h
  have hstep : ∀ s t s', (system book calls).Reachable s → (system book calls).step s t = some s' →
      (KeepsReading s t s' ↔ finds s t = true) := fun _ _ _ hs hst => keeps_iff_finds hs hst
  have heach := System.Reachable.eachStep_iff .init hstep (Option.isSome_of_eq_some h)
  constructor
  · intro hkeep
    exact heach.mp hkeep.reading
  · intro hok
    have hgood : (system book calls).ReachableBy (fun s t => finds s t) s := .run .init hok h
    exact ⟨heach.mpr hok, fun hfin =>
      ⟨teleBook_eq hgood (writer_eq_none hs hfin), added_perm_of_finished hs hfin⟩⟩

/-! ### The calls of `main` -/

/-- `teleBook` at the start. -/
def initial : TeleBook :=
  assign (assign (assign (fun _ => none) "Dijkstra" 1972) "Scott" 1976) "Ritchie" 1983

/-- The threads of `main`, in the order in which they are started. -/
def mainCalls : List (List Call) :=
  [[.printNumber "Scott"], [.printNumber "Ritchie"], [.addToTeleBook "Scott" 1968],
    [.printNumber "Dijkstra"], [.printNumber "Scott"], [.addToTeleBook "Bjarne" 1965],
    [.printNumber "Scott"], [.printNumber "Ritchie"], [.printNumber "Scott"],
    [.printNumber "Bjarne"]]

/-- The threads one after the other, with two readers at once. -/
def inOrder : List Nat :=
  [0, 1, 0, 1, 1, 0, 2, 2, 2, 2, 2, 3, 3, 3, 4, 4, 4, 5, 5, 5, 5, 5, 6, 6, 6, 7, 7, 7, 8, 8, 8,
    9, 9, 9]

theorem readers_keep_iff_main :
    ∃ s, (system initial mainCalls).run (system initial mainCalls).init inOrder = some s ∧
      s.data.teleBook "Bjarne" = some 1965 ∧ ReadersKeep initial mainCalls inOrder s := by
  have hend : ∃ s, (system initial mainCalls).run (system initial mainCalls).init inOrder = some s ∧
      s.data.teleBook "Bjarne" = some 1965 := ⟨_, rfl, rfl⟩
  obtain ⟨s, hrun, hbook⟩ := hend
  exact ⟨s, hrun, hbook, (readers_keep_iff hrun).mpr (by decide)⟩

/-- The last reader comes first, and inserts "Bjarne" with the number 0. -/
theorem reader_inserts :
    ¬∀ as s, (system initial mainCalls).run (system initial mainCalls).init as = some s →
      ReadersKeep initial mainCalls as s := by
  intro h
  have hrun := (h [9, 9] _ rfl).reading
  obtain ⟨hkeeps, -⟩ := (hrun _ rfl).2 _ rfl
  have hbook := congrFun (hkeeps ⟨⟨[], .print "Bjarne"⟩, by decide, rfl⟩) "Bjarne"
  exact absurd hbook (by decide)

end Cpp20Examples.ReaderWriterLock
