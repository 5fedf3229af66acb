import Mathlib.Algebra.Ring.Parity
import Mathlib.Data.List.Basic
import Mathlib.Tactic.Common

/-!
# `coroutine_chat`

Both `listen` and `answer` resume the coroutine, which runs to its next `co_yield`;
`co_await` takes the message that is there and does not suspend.  In the second round
`listen` therefore resumes the coroutine a round too early: its unread message is
overwritten, and it receives the empty string of the message it took before
(`overwritten`).

* `session_heard`: what the listens return, and what the coroutine receives.
* `delivered_iff`: every message gets through in a single round, and in more only when
  all messages behind the first round are empty.
-/

namespace Cpp20Examples.CoroutineChat

/-- What is left of a coroutine. -/
inductive Body
  | coReturn (msg : String)
  | coYield (msg : String) (rest : Body)
  | coAwait (rest : String → Body)

/-- `promise_type` -/
structure Promise where
  _msgOut : String := ""
  _msgIn : String := ""

/-- `body` is `none` at the final suspend point; `received` are the messages that the
coroutine got, in order. -/
structure Chat where
  promise : Promise := {}
  body : Option Body
  received : List String := []

/-- The coroutine runs until it is suspended; a message that is taken is moved from. -/
def resume (c : Chat) : Body → Chat
  | .coReturn msg => { c with promise := { c.promise with _msgOut := msg }, body := none }
  | .coYield msg rest => { c with promise := { c.promise with _msgOut := msg }, body := some rest }
  | .coAwait rest =>
    resume { c with
      promise := { c.promise with _msgIn := "" }
      received := c.received ++ [c.promise._msgIn] } (rest c.promise._msgIn)

/-- `if (not mHandle.done()) mHandle.resume();` -/
def activate (c : Chat) : Chat :=
  match c.body with
  | none => c
  | some b => resume c b

def listen (c : Chat) : String × Chat :=
  let c := activate c
  (c.promise._msgOut, { c with promise := { c.promise with _msgOut := "" } })

def answer (msg : String) (c : Chat) : Chat :=
  activate { c with promise := { c.promise with _msgIn := msg } }

/-- `listen()`, and for each message `answer(m)` and `listen()`: what the listens
return, and the chat behind them. -/
def session (c : Chat) : List String → List String × Chat
  | [] => ([(listen c).1], (listen c).2)
  | m :: ms =>
    let rest := session (answer m (listen c).2) ms
    ((listen c).1 :: rest.1, rest.2)

/-- The body of `n` more rounds; `say` is what it says next when it has received the
messages. -/
def rounds (say : List String → String) : Nat → List String → Body
  | 0, received => .coReturn (say received)
  | n + 1, received =>
    .coYield (say received) (.coAwait fun m => rounds say n (received ++ [m]))

/-- The chat that has just been called. -/
def call (say : List String → String) (n : Nat) : Chat := { body := some (rounds say n []) }

variable {say : List String → String}

/-- The chat behind a `listen` with `n` rounds to go. -/
def heard (say : List String → String) : Nat → Chat → List String → Prop
  | 0, c, received => c.body = none ∧ c.promise._msgOut = "" ∧ c.received = received
  | n + 1, c, received =>
    c = ⟨⟨"", ""⟩, some (.coAwait fun m => rounds say n (received ++ [m])), received⟩

/-- The messages that the coroutine gets: each answer, and the empty string. -/
def offered (ms : List String) : List String := ms.flatMap fun m => [m, ""]

/-- What a listen returns behind `i + 1` answers with `n` rounds to go. -/
def returned (say : List String → String) (n : Nat) (received ms : List String) (i : Nat) :
    String :=
  if 2 * i + 2 ≤ n then say (received ++ (offered ms).take (2 * i + 2))
  else if 2 * i + 1 = n then say (received ++ (offered ms).take n)
  else ""

theorem offered_cons (m : String) (ms : List String) : offered (m :: ms) = m :: "" :: offered ms :=
  rfl

/-! ### One round -/

section Round

variable {n : Nat} {c : Chat} {received : List String}

theorem heard_call (n : Nat) :
    (listen (call say n)).1 = say [] ∧ heard say n (listen (call say n)).2 [] := by
  cases n with
  | zero => exact ⟨rfl, rfl, rfl, rfl⟩
  | succ n => exact ⟨rfl, rfl⟩

theorem heard_received (h : heard say n c received) : c.received = received := by
  cases n with
  | zero => exact h.2.2
  | succ n => rw [heard.eq_2] at h; rw [h]

/-- Two rounds to go, or more: `answer` and `listen` each take one. -/
theorem heard_two (h : heard say (n + 2) c received) (m : String) :
    (listen (answer m c)).1 = say (received ++ [m, ""]) ∧
      heard say n (listen (answer m c)).2 (received ++ [m, ""]) := by
  have hc : c = ⟨⟨"", ""⟩, some (.coAwait fun m => rounds say (n + 1) (received ++ [m])),
    received⟩ := h
  subst hc
  have happend : received ++ [m, ""] = received ++ [m] ++ [""] := by simp
  rw [happend]
  cases n with
  | zero => exact ⟨rfl, rfl, rfl, rfl⟩
  | succ n => exact ⟨rfl, rfl⟩

/-- The last round: `listen` finds the message that `co_return` left. -/
theorem heard_one (h : heard say 1 c received) (m : String) :
    (listen (answer m c)).1 = say (received ++ [m]) ∧
      heard say 0 (listen (answer m c)).2 (received ++ [m]) := by
  have hc : c = ⟨⟨"", ""⟩, some (.coAwait fun m => rounds say 0 (received ++ [m])), received⟩ := h
  subst hc
  exact ⟨rfl, rfl, rfl, rfl⟩

theorem heard_zero (h : heard say 0 c received) (m : String) :
    (listen (answer m c)).1 = "" ∧ heard say 0 (listen (answer m c)).2 received := by
  obtain ⟨hbody, hout, hreceived⟩ := h
  obtain ⟨⟨out, inn⟩, body, r⟩ := c
  subst hbody hout hreceived
  exact ⟨rfl, rfl, rfl, rfl⟩

/-- Behind the next `answer` and `listen` there are two rounds less, or none. -/
theorem next_round (h : heard say n c received) (m : String) (ms : List String) :
    ∃ n' received', heard say n' (listen (answer m c)).2 received' ∧
      (listen (answer m c)).1 = returned say n received (m :: ms) 0 ∧
      (∀ i, returned say n received (m :: ms) (i + 1) = returned say n' received' ms i) ∧
      received' ++ (offered ms).take n' = received ++ (offered (m :: ms)).take n := by
  match n, h with
  | 0, h =>
    obtain ⟨hfirst, hnext⟩ := heard_zero h m
    exact ⟨0, received, hnext, by simpa [returned] using hfirst, by simp [returned], by simp⟩
  | 1, h =>
    obtain ⟨hfirst, hnext⟩ := heard_one h m
    refine ⟨0, received ++ [m], hnext, ?_, by simp [returned], by simp [offered_cons]⟩
    simpa [returned, offered_cons] using hfirst
  | n + 2, h =>
    obtain ⟨hfirst, hnext⟩ := heard_two h m
    refine ⟨n, received ++ [m, ""], hnext, ?_, ?_, by simp [offered_cons]⟩
    · simpa [returned, offered_cons] using hfirst
    · intro i
      have hmore : 2 * (i + 1) + 2 ≤ n + 2 ↔ 2 * i + 2 ≤ n := by omega
      have hlast : 2 * (i + 1) + 1 = n + 2 ↔ 2 * i + 1 = n := by omega
      have htake : (offered (m :: ms)).take (2 * (i + 1) + 2) =
          m :: "" :: (offered ms).take (2 * i + 2) := rfl
      have htake' : (offered (m :: ms)).take (n + 2) = m :: "" :: (offered ms).take n := rfl
      simp only [returned, hmore, hlast, htake, htake', List.append_assoc, List.cons_append,
        List.nil_append]

end Round

/-- **What the listens return, and what the coroutine receives.** -/
theorem session_heard (ms : List String) {n : Nat} {c : Chat} {received : List String}
    (h : heard say n (listen c).2 received) :
    (session c ms).1 =
      (listen c).1 :: (List.range ms.length).map (returned say n received ms) ∧
    (session c ms).2.received = received ++ (offered ms).take n := by
  induction ms generalizing n c received with
  | nil => exact ⟨rfl, by simpa [offered, session] using heard_received h⟩
  | cons m ms ih =>
    obtain ⟨n', received', hnext, hfirst, hothers, htake⟩ := next_round h m ms
    obtain ⟨houts, hreceived⟩ := ih hnext
    refine ⟨?_, hreceived.trans htake⟩
    rw [List.length_cons, List.range_succ_eq_map, List.map_cons, List.map_map, ← hfirst]
    refine congrArg ((listen c).1 :: ·) (houts.trans ?_)
    exact congrArg (_ :: ·) (List.map_congr_left fun i _ => (hothers i).symm)

/-! ### When all messages get through -/

/-- What the coroutine says in all when it receives the messages. -/
def said (say : List String → String) (ms : List String) : List String :=
  (List.range (ms.length + 1)).map fun i => say (ms.take i)

/-- The listens return what is said, and the coroutine receives what is answered. -/
def Delivered (say : List String → String) (ms : List String) : Prop :=
  (session (call say ms.length) ms).1 = said say ms ∧
    (session (call say ms.length) ms).2.received = ms

theorem offered_even (ms : List String) (i : Nat) : (offered ms)[2 * i]? = ms[i]? := by
  induction ms generalizing i with
  | nil => rfl
  | cons m ms ih =>
    cases i with
    | zero => rfl
    | succ i => exact ih i

theorem offered_odd (ms : List String) (i : Nat) :
    (offered ms)[2 * i + 1]? = ms[i]?.map fun _ => "" := by
  induction ms generalizing i with
  | nil => rfl
  | cons m ms ih =>
    cases i with
    | zero => rfl
    | succ i => exact ih i

theorem tail_empty_iff (l : List String) :
    (∀ m ∈ l.tail, m = "") ↔ ∀ j m, l[j + 1]? = some m → m = "" := by
  simp only [List.mem_iff_getElem?, List.getElem?_tail, forall_exists_index]
  exact forall_comm

/-- The coroutine receives each message when all but the first are empty. -/
theorem received_iff (ms : List String) :
    (offered ms).take ms.length = ms ↔ ∀ m ∈ ms.tail, m = "" := by
  rw [tail_empty_iff]
  constructor
  · intro heq j
    have hget : ∀ k < ms.length, (offered ms)[k]? = ms[k]? := by
      intro k hk
      rw [← List.getElem?_take_of_lt hk, heq]
    induction j using Nat.strong_induction_on with
    | _ j ih =>
      intro m hm
      have hlt := (List.getElem?_eq_some_iff.mp hm).1
      have hoffered := hget (j + 1) hlt
      rw [hm] at hoffered
      rcases Nat.even_or_odd' j with ⟨i, rfl | rfl⟩
      · rw [offered_odd, Option.map_eq_some_iff] at hoffered
        obtain ⟨-, -, rfl⟩ := hoffered
        rfl
      · -- the message is that of an earlier answer
        have htwice : 2 * i + 1 + 1 = 2 * (i + 1) := rfl
        rw [htwice, offered_even] at hoffered
        exact ih i (by omega) m hoffered
  · intro hempty
    have hrest : ∀ j, j + 1 < ms.length → ms[j + 1]? = some "" := by
      intro j hj
      rw [List.getElem?_eq_getElem hj, hempty j _ (List.getElem?_eq_getElem hj)]
    apply List.ext_getElem?
    intro j
    rcases Nat.lt_or_ge j ms.length with hj | hj
    · rw [List.getElem?_take_of_lt hj]
      rcases Nat.even_or_odd' j with ⟨i, rfl | rfl⟩
      · rw [offered_even]
        cases i with
        | zero => rfl
        | succ i => exact (hrest i (by omega)).trans (hrest (2 * i + 1) hj).symm
      · rw [offered_odd, hrest _ hj, List.getElem?_eq_getElem (by omega)]
        rfl
    · rw [List.getElem?_eq_none hj, List.getElem?_take_eq_none hj]

/-- The listens skip messages: all that they return fit only when they are all empty. -/
theorem skipping_iff (out : Nat → String) {n : Nat} (hn : n ≠ 1) :
    (∀ i < n, (if 2 * i + 2 ≤ n then out (2 * i + 2) else if 2 * i + 1 = n then out n else "") =
      out (i + 1)) ↔ ∀ i < n, out (i + 1) = "" := by
  constructor
  · -- a later message is heard instead, down from the last one
    intro heq i hi
    induction hk : n - i using Nat.strong_induction_on generalizing i with
    | _ k ih =>
      have hi' := heq i hi
      split at hi'
      · rw [← hi']
        exact ih (n - (2 * i + 1)) (by omega) (2 * i + 1) (by omega) rfl
      · split at hi'
        · rw [← hi', show n = n - 1 + 1 by omega]
          exact ih (n - (n - 1)) (by omega) (n - 1) (by omega) rfl
        · exact hi'.symm
  · intro hempty i hi
    rw [hempty i hi]
    split
    · exact hempty _ (by omega)
    · split
      · rw [show n = n - 1 + 1 by omega]
        exact hempty _ (by omega)
      · rfl

theorem said_eq (say : List String → String) (ms : List String) :
    said say ms = say [] :: (List.range ms.length).map fun i => say (ms.take (i + 1)) := by
  rw [said, List.range_succ_eq_map, List.map_cons, List.map_map]
  rfl

theorem returned_eq {ms : List String} (hms : (offered ms).take ms.length = ms) {i : Nat} :
    returned say ms.length [] ms i =
      if 2 * i + 2 ≤ ms.length then say (ms.take (2 * i + 2))
      else if 2 * i + 1 = ms.length then say (ms.take ms.length) else "" := by
  have htake : ∀ k ≤ ms.length, (offered ms).take k = ms.take k := by
    intro k hk
    conv_rhs => rw [← hms, List.take_take, Nat.min_eq_left hk]
  unfold returned
  split
  · rename_i hle
    rw [List.nil_append, htake _ hle]
  · rw [List.nil_append, hms, List.take_length]

/-- **Every message is delivered if there is one round, or if all messages behind the
first round are empty, and otherwise not.** -/
theorem delivered_iff (say : List String → String) (ms : List String) :
    Delivered say ms ↔
      ms.length = 1 ∨ (∀ m ∈ ms.tail, m = "") ∧ ∀ msg ∈ (said say ms).tail, msg = "" := by
  obtain ⟨hfirst, hheard⟩ := @heard_call say ms.length
  obtain ⟨houts, hreceived⟩ := session_heard ms hheard
  have hsaid : (∀ msg ∈ (said say ms).tail, msg = "") ↔
      ∀ i < ms.length, say (ms.take (i + 1)) = "" := by
    rw [said_eq]
    simp
  rw [hsaid, Delivered, houts, hreceived, hfirst, List.nil_append, received_iff, said_eq,
    List.cons.injEq, and_iff_right rfl, List.map_inj_left]
  simp only [List.mem_range]
  by_cases hone : ms.length = 1
  · obtain ⟨m, rfl⟩ := List.length_eq_one_iff.mp hone
    simp [returned, offered_cons]
  · rw [or_iff_right hone]
    have hskipping := skipping_iff (fun j => say (ms.take j)) hone
    constructor
    · rintro ⟨heq, hms⟩
      refine ⟨hms, hskipping.mp ?_⟩
      intro i hi
      exact (returned_eq ((received_iff ms).mpr hms)).symm.trans (heq i hi)
    · rintro ⟨hms, hempty⟩
      refine ⟨?_, hms⟩
      intro i hi
      rw [returned_eq ((received_iff ms).mpr hms)]
      exact hskipping.mpr hempty i hi

/-- Two rounds: `main`'s `answer` and `listen` once more. -/
def twoRounds (received : List String) : String :=
  match received with
  | [] => "Hello!\n"
  | [_] => "Here!\n"
  | _ => "There!\n"

theorem overwritten : ¬ ∀ say ms, ms ≠ [] → Delivered say ms := by
  intro h
  have hd := (h twoRounds ["Where are you?\n", "Where?\n"] (by simp)).2
  exact absurd hd (by decide)

/-- The second message to the coroutine arrives as the empty string, and its own second
message is never heard. -/
example : session (call twoRounds 2) ["Where are you?\n", "Where?\n"] =
    (["Hello!\n", "There!\n", ""],
      ⟨⟨"", "Where?\n"⟩, none, ["Where are you?\n", ""]⟩) := rfl

end Cpp20Examples.CoroutineChat
