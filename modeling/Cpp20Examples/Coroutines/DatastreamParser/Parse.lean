import Cpp20Examples.Lib.Framing

/-!
# `coroutines/datastream_parser`

`Parse` is a coroutine that hunts for frames in a stream of bytes.  It is
resumed by `SendData`, once for every byte, and what it does with the byte
depends on where it is suspended: a `co_await` reads it from `mLastByte`, but the
resumption from `initial_suspend` and the one from the `co_yield` of a frame run
on to the next `co_await` without reading it.

A `Point` is a suspension point with the local variables that live across it,
and `Generator.resume` is the body from one suspension point to the next.
`ProcessStream` sends the bytes of a stream and hands over each frame that has
become available.
-/

namespace Cpp20Examples.DatastreamParser

open Lib

/-- `std::byte`, and the `char`s of a `std::string`. -/
abbrev Byte := UInt8

abbrev Str := List Byte

def ESC : Byte := 'H'.toUInt8
def SOF : Byte := 0x10

/-- `Generator::promise_type`. -/
structure Promise where
  mValue : Option Str := none
  mLastByte : Byte := 0
  deriving DecidableEq

/-- Where `Parse` is suspended. -/
inductive Point
  /-- `initial_suspend` -/
  | initialSuspend
  /-- `byte b = co_await byte{};` -/
  | awaitStart
  /-- `b = co_await byte{}; SOF != b` (#A) -/
  | awaitSof
  /-- `b = co_await byte{};` at the head of the inner loop (#B) -/
  | awaitByte (frame : Str)
  /-- `b = co_await byte{};` behind an `ESC` (#C) -/
  | awaitEscaped (frame : Str)
  /-- `co_yield frame;` -/
  | yielded
  deriving DecidableEq

structure Generator where
  promise : Promise
  point : Point
  deriving DecidableEq

/-- `promise_type::yield_value`, and the suspension at the `co_yield`. -/
def Generator.yieldValue (g : Generator) (value : Str) : Generator :=
  { g with promise.mValue := some value, point := .yielded }

/-- The body of `Parse` from its suspension point to the next one. -/
def Generator.resume (g : Generator) : Generator :=
  -- what `await_resume` returns where the body is in a `co_await`
  let b := g.promise.mLastByte
  match g.point with
  | .initialSuspend => { g with point := .awaitStart }
  | .awaitStart =>
    if ESC ≠ b then { g with point := .awaitStart } else { g with point := .awaitSof }
  | .awaitSof =>
    if SOF ≠ b then { g with point := .awaitStart } else { g with point := .awaitByte [] }
  | .awaitByte frame =>
    if ESC = b then { g with point := .awaitEscaped frame }
    else { g with point := .awaitByte (frame ++ [b]) }
  | .awaitEscaped frame =>
    if SOF = b then g.yieldValue frame
    else if ESC ≠ b then { g with point := .awaitStart } -- #D out of sync
    else { g with point := .awaitByte (frame ++ [b]) }
  | .yielded => { g with point := .awaitStart }

/-- `mCoroHdl.done()`: the body never leaves its outer loop, so no suspension
point is the final one. -/
def Generator.done (_ : Generator) : Bool := false

/-- `Generator::SendData`. -/
def Generator.sendData (g : Generator) (b : Byte) : Generator :=
  let g := { g with promise.mLastByte := b }
  if not g.done then g.resume else g

/-- `Generator::operator()`: the value that was yielded, which is taken out of
the promise. -/
def Generator.call (g : Generator) : Option Str × Generator :=
  (g.promise.mValue, { g with promise.mValue := none })

/-- The coroutine that `Parse()` returns. -/
def parse : Generator := { promise := {}, point := .initialSuspend }

/-- `ProcessStream`: the strings handed to `HandleFrame`, in order, and the
coroutine afterwards. -/
def processStream : List Byte → Generator → List Str × Generator
  | [], g => ([], g)
  | b :: stream, g =>
    let (res, g) := (g.sendData b).call
    let (frames, g) := processStream stream g
    (res.toList ++ frames, g)

/-- Successive calls of `ProcessStream` on one coroutine. -/
def processStreams : List (List Byte) → Generator → List Str × Generator
  | [], g => ([], g)
  | stream :: streams, g =>
    let (frames, g) := processStream stream g
    let (frames', g) := processStreams streams g
    (frames ++ frames', g)

/-- The coroutine waits in a `co_await`, so the next byte is read. -/
def Generator.awaiting (g : Generator) : Bool :=
  match g.point with
  | .initialSuspend | .yielded => false
  | _ => true

/-- The bytes of a stream that reach the coroutine while it does not wait in a
`co_await`. -/
def swallowed : List Byte → Generator → List Byte
  | [], _ => []
  | b :: stream, g =>
    (if g.awaiting then [] else [b]) ++ swallowed stream (g.sendData b).call.2

/-- Every `ESC` doubled. -/
def stuff : Str → List Byte := Framing.stuff ESC

/-- `ESC SOF stuff(p) ESC SOF`. -/
def frame : Str → List Byte := Framing.frame ESC SOF

end Cpp20Examples.DatastreamParser
