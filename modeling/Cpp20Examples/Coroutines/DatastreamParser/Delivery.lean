import Cpp20Examples.Coroutines.DatastreamParser.Parse

/-!
# What `Parse` delivers

Between two bytes the promise holds no value, so the coroutine is its suspension
point: `scan` is `ProcessStream` on the point alone, and `processStream_eq` says
that it is the same.  A partly read frame is a `Point.pre`, the bytes of the
stream that led to the point since the start of the frame; `contains_scan`
carries it through the stream.

* `contains_processStreams`: what is delivered was framed in the stream, in this
  order.
* `scan_frame`: from the hunt for a start, a frame is delivered and the coroutine
  is at its `co_yield`; `scan_filler_frame`: from there, or from a fresh
  coroutine, one byte is lost and the next frame is delivered.
* `scan_sync`: `ESC x ESC x` leads from every point to the hunt for a start.
* `roundTrip_iff`: without a byte to lose in front of it, a frame is not
  delivered.
-/

namespace Cpp20Examples.DatastreamParser

open Lib

/-! ### The coroutine between two bytes -/

/-- The frame that a byte completes. -/
def Point.emit (q : Point) (b : Byte) : Option Str :=
  match q with
  | .awaitEscaped frame => if SOF = b then some frame else none
  | _ => none

/-- The suspension point after a byte. -/
def Point.next (q : Point) (b : Byte) : Point :=
  (Generator.sendData ⟨{}, q⟩ b).point

def scan : Point → List Byte → List Str × Point
  | q, [] => ([], q)
  | q, b :: s => ((q.emit b).toList ++ (scan (q.next b) s).1, (scan (q.next b) s).2)

theorem scan_cons {q : Point} {b : Byte} (h : q.emit b = none) (s : List Byte) :
    scan q (b :: s) = scan (q.next b) s := by
  simp [scan, h]

theorem scan_append (q : Point) (s t : List Byte) :
    scan q (s ++ t) = ((scan q s).1 ++ (scan (scan q s).2 t).1, (scan (scan q s).2 t).2) := by
  induction s generalizing q with
  | nil => rfl
  | cons b s ih => simp only [List.cons_append, scan, ih, List.append_assoc]

@[simp] theorem sof_ne_esc : SOF ≠ ESC := by decide

@[simp] theorem esc_ne_sof : ESC ≠ SOF := by decide

section Byte

attribute [local simp] Generator.sendData Generator.done Generator.resume Generator.call
  Generator.yieldValue Point.emit Point.next

/-- One byte: what `operator()` returns, and the coroutine that it leaves. -/
theorem sendData_call (g : Generator) (h : g.promise.mValue = none) (b : Byte) :
    (g.sendData b).call = (g.point.emit b, ⟨⟨none, b⟩, g.point.next b⟩) := by
  obtain ⟨⟨_, last⟩, q⟩ := g
  obtain rfl : _ = none := h
  cases q with
  | initialSuspend => rfl
  | awaitStart => by_cases h : ESC ≠ b <;> simp [h]
  | awaitSof => by_cases h : SOF ≠ b <;> simp [h]
  | awaitByte frame => by_cases h : ESC = b <;> simp [h]
  | awaitEscaped frame =>
    by_cases h : SOF = b
    · simp [h]
    · by_cases h' : ESC ≠ b <;> simp [h, h']
  | yielded => rfl

/-! The next suspension point, one lemma for each branch of the body. -/

@[simp] theorem next_initialSuspend (b : Byte) : Point.initialSuspend.next b = .awaitStart := rfl

@[simp] theorem next_yielded (b : Byte) : Point.yielded.next b = .awaitStart := rfl

@[simp] theorem next_awaitStart (b : Byte) :
    Point.awaitStart.next b = if b = ESC then .awaitSof else .awaitStart := by
  by_cases h : b = ESC <;> simp [h, eq_comm]

@[simp] theorem next_awaitSof (b : Byte) :
    Point.awaitSof.next b = if b = SOF then .awaitByte [] else .awaitStart := by
  by_cases h : b = SOF <;> simp [h, eq_comm]

@[simp] theorem next_awaitByte (frame : Str) (b : Byte) :
    (Point.awaitByte frame).next b
      = if b = ESC then .awaitEscaped frame else .awaitByte (frame ++ [b]) := by
  by_cases h : b = ESC <;> simp [h, eq_comm]

@[simp] theorem next_awaitEscaped (frame : Str) (b : Byte) :
    (Point.awaitEscaped frame).next b
      = if b = SOF then .yielded else if b = ESC then .awaitByte (frame ++ [ESC])
        else .awaitStart := by
  by_cases h : b = SOF
  · simp [h]
  · by_cases h' : b = ESC
    · simp [h']
    · simp [h, h', Ne.symm h, Ne.symm h']

end Byte

@[simp] theorem emit_awaitEscaped (frame : Str) (b : Byte) :
    (Point.awaitEscaped frame).emit b = if b = SOF then some frame else none := by
  simp [Point.emit, eq_comm]

/-- **`ProcessStream` is `scan`.** -/
theorem processStream_eq (s : List Byte) (g : Generator) (h : g.promise.mValue = none) :
    (processStream s g).1 = (scan g.point s).1 ∧
      (processStream s g).2.point = (scan g.point s).2 ∧
      (processStream s g).2.promise.mValue = none := by
  induction s generalizing g with
  | nil => exact ⟨rfl, rfl, h⟩
  | cons b s ih =>
    obtain ⟨h1, h2, h3⟩ := ih ⟨⟨none, b⟩, g.point.next b⟩ rfl
    simp only [processStream, sendData_call g h, scan]
    exact ⟨by rw [h1], h2, h3⟩

/-- **How a stream is split over the calls makes no difference.** -/
theorem processStreams_eq (ss : List (List Byte)) (g : Generator) (h : g.promise.mValue = none) :
    (processStreams ss g).1 = (scan g.point ss.flatten).1 := by
  induction ss generalizing g with
  | nil => rfl
  | cons s ss ih =>
    obtain ⟨h1, h2, h3⟩ := processStream_eq s g h
    simp only [processStreams, List.flatten_cons, scan_append]
    rw [h1, ih _ h3, h2]

theorem processStream_parse (s : List Byte) :
    (processStream s parse).1 = (scan .initialSuspend s).1 :=
  (processStream_eq s parse rfl).1

/-! ### What is delivered was framed -/

/-- The bytes of the stream since the start of the frame that is being read. -/
def Point.pre : Point → List Byte
  | .awaitSof => [ESC]
  | .awaitByte frame => ESC :: SOF :: stuff frame
  | .awaitEscaped frame => ESC :: SOF :: (stuff frame ++ [ESC])
  | _ => []

/-- **The invariant of the hunt**: behind the bytes of the frame that is being
read, the stream holds the frames that `scan` delivers. -/
theorem contains_scan (s : List Byte) (q : Point) :
    Framing.Contains ESC SOF (q.pre ++ s) (scan q s).1 := by
  induction s generalizing q with
  | nil => exact trivial
  | cons b s ih =>
    have ih := ih (q.next b)
    simp only [scan]
    cases q with
    | initialSuspend => exact ih.cons b
    | yielded => exact ih.cons b
    | awaitStart =>
      rw [next_awaitStart] at ih ⊢
      split at ih
      · rename_i h
        simpa [h, Point.emit, Point.pre] using ih
      · rename_i h
        simpa [h, Point.emit, Point.pre] using ih.cons b
    | awaitSof =>
      rw [next_awaitSof] at ih ⊢
      split at ih
      · rename_i h
        simpa [h, Point.emit, Point.pre, stuff] using ih
      · rename_i h
        simpa [h, Point.emit, Point.pre] using (ih.cons b).cons ESC
    | awaitByte frame =>
      rw [next_awaitByte] at ih ⊢
      split at ih
      · rename_i h
        simpa [h, Point.emit, Point.pre] using ih
      · rename_i h
        simpa [h, Point.emit, Point.pre, stuff, Framing.stuff_concat_of_ne ESC h] using ih
    | awaitEscaped frame =>
      rw [next_awaitEscaped] at ih ⊢
      split at ih
      · rename_i h
        -- the frame is complete: its bytes and the start of the stream are `frame frame`
        simpa [h, Point.pre, Framing.frame, stuff] using ih.frame frame
      · rename_i hs
        split at ih
        · rename_i h
          simpa [h, Point.pre, stuff, Framing.stuff_concat_esc] using ih
        · rename_i h
          -- #D: the bytes of the aborted frame become a gap
          simpa [hs, h, Point.pre] using
            ih.append_left (ESC :: SOF :: (stuff frame ++ [ESC, b]))

/-- **Soundness on any input.**  Whatever the bytes and the calls, the strings
handed to `HandleFrame` are the payloads of disjoint frames of the stream, in the
order of the stream. -/
theorem contains_processStreams (ss : List (List Byte)) :
    Framing.Contains ESC SOF ss.flatten (processStreams ss parse).1 := by
  rw [processStreams_eq ss parse rfl]
  exact contains_scan ss.flatten .initialSuspend

/-! ### Delivery of a frame -/

theorem scan_stuff (p : Str) : ∀ frame : Str,
    scan (.awaitByte frame) (stuff p) = ([], .awaitByte (frame ++ p)) := by
  induction p with
  | nil => intro frame; simp [stuff, scan]
  | cons b p ih =>
    intro frame
    have hp : frame ++ b :: p = frame ++ [b] ++ p := by simp
    by_cases h : b = ESC
    · have hs : stuff (b :: p) = ESC :: ESC :: stuff p := by simp [stuff, Framing.stuff, h]
      rw [hs, scan_cons rfl, next_awaitByte, if_pos rfl, scan_cons (by simp), next_awaitEscaped,
        if_neg esc_ne_sof, if_pos rfl, ih, hp, h]
    · have hs : stuff (b :: p) = b :: stuff p := by simp [stuff, Framing.stuff, h]
      rw [hs, scan_cons rfl, next_awaitByte, if_neg h, ih, hp]

/-- **A frame is delivered from the hunt for a start.** -/
theorem scan_frame (p : Str) : scan .awaitStart (frame p) = ([p], .yielded) := by
  have hp : frame p = ESC :: SOF :: (stuff p ++ [ESC, SOF]) := rfl
  rw [hp, scan_cons rfl, next_awaitStart, if_pos rfl, scan_cons rfl, next_awaitSof, if_pos rfl,
    scan_append, scan_stuff]
  simp [scan, Point.emit]

/-- Behind a frame, and in a fresh coroutine, one byte is lost. -/
theorem scan_filler_frame {q : Point} (hq : q = .initialSuspend ∨ q = .yielded) (y : Byte)
    (p : Str) : scan q (y :: frame p) = ([p], .yielded) := by
  rcases hq with rfl | rfl <;> simp [scan, Point.emit, scan_frame]

/-- Frames with a byte in front of each. -/
def spaced (ps : List (Byte × Str)) : List Byte :=
  ps.flatMap fun yp => yp.1 :: frame yp.2

theorem scan_spaced (ps : List (Byte × Str)) : ∀ {q : Point},
    q = .initialSuspend ∨ q = .yielded → (scan q (spaced ps)).1 = ps.map Prod.snd := by
  induction ps with
  | nil => intro q _; rfl
  | cons yp ps ih =>
    intro q hq
    rw [spaced, List.flatMap_cons, scan_append, scan_filler_frame hq]
    simpa [spaced] using ih (.inr rfl)

/-- **Round trip with a byte to lose.**  Frames with any byte in front of each,
split in any way over calls on a fresh coroutine, are delivered. -/
theorem roundTrip_spaced (ps : List (Byte × Str)) (ss : List (List Byte))
    (h : ss.flatten = spaced ps) : (processStreams ss parse).1 = ps.map Prod.snd := by
  rw [processStreams_eq ss parse rfl, h]
  exact scan_spaced ps (.inl rfl)

/-- The two streams of `main`. -/
example :
    (processStreams
      [[0x70, ESC, SOF, ESC, 'H'.toUInt8, 'e'.toUInt8, 'l'.toUInt8, 'l'.toUInt8, 'o'.toUInt8,
        ESC, SOF, 0x7, ESC, SOF],
       ['W'.toUInt8, 'o'.toUInt8, 'r'.toUInt8, 'l'.toUInt8, 'd'.toUInt8, ESC, SOF, 0x99]]
      parse).1 =
    ["Hello".toList.map Char.toUInt8, "World".toList.map Char.toUInt8] := by decide

/-! ### Resynchronisation -/

/-- **`ESC x ESC x` leads to the hunt for a start, from every point.** -/
theorem scan_sync {x : Byte} (he : x ≠ ESC) (hs : x ≠ SOF) (q : Point) :
    scan q [ESC, x, ESC, x] = ([], .awaitStart) := by
  cases q <;> simp [scan, Point.emit, he, hs, eq_comm]

/-- `frame(p1) ++ [y2] ++ frame(p2) ++ … ++ [yn] ++ frame(pn)`; the first filler
is not used. -/
def separated : List (Byte × Str) → List Byte
  | [] => []
  | (_, p) :: ps => frame p ++ spaced ps

theorem scan_separated (ps : List (Byte × Str)) :
    (scan .awaitStart (separated ps)).1 = ps.map Prod.snd := by
  cases ps with
  | nil => rfl
  | cons yp ps =>
    rw [separated, scan_append, scan_frame]
    simp [scan_spaced ps (.inr rfl)]

/-- **Resynchronisation.**  After any history `h`, the bytes `ESC x ESC x` and
then frames with one byte between them, the frames of the history are followed
by exactly these. -/
theorem resynchronisation (h : List Byte) {x : Byte} (he : x ≠ ESC) (hs : x ≠ SOF)
    (ps : List (Byte × Str)) :
    (processStream (h ++ [ESC, x, ESC, x] ++ separated ps) parse).1
      = (processStream h parse).1 ++ ps.map Prod.snd := by
  rw [processStream_parse, processStream_parse, List.append_assoc, scan_append, scan_append,
    scan_sync he hs, List.nil_append, scan_separated]

/-- A history that ends inside a frame. -/
theorem resynchronisation_aborted :
    (processStream ([0, ESC, SOF, 1] ++ [ESC, 2, ESC, 2] ++ separated [(0, [3]), (4, [ESC])])
      parse).1 = (processStream [0, ESC, SOF, 1] parse).1 ++ [[3], [ESC]] :=
  resynchronisation [0, ESC, SOF, 1] (by decide) (by decide) [(0, [3]), (4, [ESC])]

/-! ### Frames without a byte to lose -/

/-- **A fresh coroutine delivers the frames that were sent only when none was.**
The first byte is lost in the resumption from `initial_suspend`, so what is left
of the stream is too short for the frames of the payloads. -/
theorem roundTrip_iff (ps : List Str) (ss : List (List Byte))
    (h : ss.flatten = ps.flatMap frame) :
    ((processStreams ss parse).1 = ps ↔ ps = []) ∧
      (swallowed ss.flatten parse = [] ↔ ps = []) := by
  rw [processStreams_eq ss parse rfl]
  cases hs : ss.flatten with
  | nil =>
    have hps : ps = [] := by
      cases ps with
      | nil => rfl
      | cons p ps => simp [hs, frame, Framing.frame] at h
    subst hps
    exact ⟨by simp [scan], by simp [swallowed]⟩
  | cons b s =>
    have hps : ps ≠ [] := by
      rintro rfl
      simp [hs] at h
    refine ⟨iff_of_false ?_ hps, iff_of_false (by simp [swallowed, parse, Generator.awaiting]) hps⟩
    intro hd
    have hc := contains_scan s .awaitStart
    rw [parse, scan_cons rfl, next_initialSuspend] at hd
    rw [hd] at hc
    have hlen := Framing.length_of_contains hc
    rw [hs] at h
    have := congrArg List.length h
    simp only [List.length_cons] at this
    change (ps.flatMap frame).length ≤ s.length at hlen
    omega

/-- One frame, sent in one call. -/
theorem roundTrip_iff_hello :
    [frame [0x68, 0x69]].flatten = [[0x68, 0x69]].flatMap frame ∧
      (((processStreams [frame [0x68, 0x69]] parse).1 = [[0x68, 0x69]] ↔
          ([[0x68, 0x69]] : List Str) = []) ∧
        (swallowed [frame [0x68, 0x69]].flatten parse = [] ↔ ([[0x68, 0x69]] : List Str) = [])) :=
  ⟨by decide, roundTrip_iff [[0x68, 0x69]] [frame [0x68, 0x69]] (by decide)⟩

/-- The frame of one payload is not delivered, and its first byte is lost. -/
theorem roundTrip_fails :
    ¬ ∀ (ps : List Str) (ss : List (List Byte)), ss.flatten = ps.flatMap frame →
      (processStreams ss parse).1 = ps ∧ swallowed ss.flatten parse = [] := by
  intro h
  have := (h [[0x68, 0x69]] [frame [0x68, 0x69]] (by decide)).1
  exact absurd this (by decide)

end Cpp20Examples.DatastreamParser
