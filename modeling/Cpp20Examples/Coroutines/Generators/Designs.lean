import Cpp20Examples.Lib.Generator

/-!
# Three designs of generators

The `Generator`s of `utils/generator`, `utils/generator_range` and `generator_2`, and the loops
that drain them.  The first two start lazily: `exhausted` resumes before each read, `begin`
and `++` of the iterator before each test.  The third one starts eagerly, so its loops read
before they resume.

* `generators_deliver`: each of the four loops uses exactly the values that the body yields.
-/

namespace Cpp20Examples.Generators

open Lib Lib.Generator

/-! ### The lazy generators -/

/-- `GeneratorPromise`; `result_` is not set before the first `co_yield`. -/
structure GeneratorPromise (T : Type) where
  result : Option T := none

/-- The promise of `utils/generator` and `utils/generator_range`. -/
def generatorPromise (T : Type) : Design T Unit (GeneratorPromise T) where
  promise := {}
  eager := false
  yieldValue _ result := ⟨some result⟩
  returnValue p _ := p
  unhandledException p := some p

namespace Generator

section Definitions

variable {T C : Type}

/-- `if (not handle_.done()) handle_.resume(); return handle_.done();` -/
def exhausted (next : Code T Unit C) (f : Frame (GeneratorPromise T) C) :
    Option (Bool × Frame (GeneratorPromise T) C) :=
  (if f.done then some f else (generatorPromise T).resume next f).map fun f' => (f'.done, f')

def get (f : Frame (GeneratorPromise T) C) : Option T := f.promise.result

/-- `while (not x.exhausted()) use(x.get())` -/
def loop (next : Code T Unit C) : Loop (Frame (GeneratorPromise T) C) T :=
  whileLoop (fun f => (exhausted next f).map fun r => (!r.1, r.2)) get some

end Definitions

end Generator

namespace GeneratorRange

section Definitions

variable {T C : Type}

/-- `begin` resumes the generator, whose handle the iterator then has. -/
def begin_ (next : Code T Unit C) (f : Frame (GeneratorPromise T) C) :
    Option (Frame (GeneratorPromise T) C) :=
  (generatorPromise T).resume next f

/-- The comparison with the sentinel. -/
def atEnd (i : Frame (GeneratorPromise T) C) : Bool := i.done

/-- `operator*` -/
def deref (i : Frame (GeneratorPromise T) C) : Option T := i.promise.result

/-- `operator++`, with its assertion. -/
def increment (next : Code T Unit C) (i : Frame (GeneratorPromise T) C) :
    Option (Frame (GeneratorPromise T) C) :=
  if i.done then none else (generatorPromise T).resume next i

/-- The range-based for loop. -/
def loop (next : Code T Unit C) : Loop (Frame (GeneratorPromise T) C) T :=
  whileLoop (fun i => some (!atEnd i, i)) deref (increment next)

end Definitions

end GeneratorRange

/-! ### The eager generator -/

namespace Generator2

structure Promise where
  val : Int32 := 0
  deriving DecidableEq

def promiseType : Design Int32 Unit Promise where
  promise := {}
  eager := true
  yieldValue _ v := ⟨v⟩
  returnValue p _ := p
  unhandledException p := some p

section Definitions

variable {C : Type}

def value (g : Frame Promise C) : Int32 := g.promise.val

def finished (g : Frame Promise C) : Bool := g.done

/-- `if(not finished()) { mHandle.resume(); }` -/
def resume (next : Code Int32 Unit C) (g : Frame Promise C) : Option (Frame Promise C) :=
  if finished g then some g else promiseType.resume next g

/-- `while (not g.finished()) { use(g.value()); g.resume(); }` -/
def loop (next : Code Int32 Unit C) : Loop (Frame Promise C) Int32 :=
  whileLoop (fun g => some (!finished g, g)) (fun g => some (value g)) (resume next)

/-- `operator++` of the iterator -/
def increment (next : Code Int32 Unit C) (i : Frame Promise C) : Option (Frame Promise C) :=
  promiseType.resume next i

/-- The range-based for loop, with the frame of the generator in the iterator. -/
def rangeLoop (next : Code Int32 Unit C) : Loop (Frame Promise C) Int32 :=
  whileLoop (fun i => some (!i.done, i)) (fun i => some (value i)) (increment next)

end Definitions

end Generator2

/-! ### What the loops use -/

section Values

variable {T C : Type} {next : Code T Unit C} {ending : Ending Unit} {c : C} {L : List T}

/-- Each of the lazy generators shows what was yielded last. -/
theorem result_yieldValue (p : GeneratorPromise T) (v : T) :
    ((generatorPromise T).yieldValue p v).result = some v := rfl

theorem generatorPromise_finish (p : GeneratorPromise T) :
    ((generatorPromise T).finish p ending).isSome = true := by cases ending <;> rfl

/-- **`utils/generator`**, however the body ends. -/
theorem Generator.delivers (h : Produces next ending c L) :
    Delivers (Generator.loop next) ((generatorPromise T).call next c) L
      fun f => f.done = true := by
  refine Delivers.mono (.of_before (D := generatorPromise T) result_yieldValue
    generatorPromise_finish ?_ (call_before rfl h)) fun _ => Design.Ended.done
  intro f hf
  rw [Generator.exhausted, hf, if_neg (by decide), Option.map_map]
  rfl

/-- **`utils/generator_range`**, however the body ends. -/
theorem GeneratorRange.delivers (h : Produces next ending c L) :
    Delivers (GeneratorRange.loop next)
      (((generatorPromise T).call next c).bind (GeneratorRange.begin_ next)) L
      fun i => i.done = true := by
  obtain ⟨f, hcall, hbefore⟩ := call_before (D := generatorPromise T) rfl h
  rw [hcall]
  have hbegin : ∃ i, GeneratorRange.begin_ next f = some i ∧
      Landed (generatorPromise T) next ending GeneratorPromise.result L i :=
    resume_landed result_yieldValue generatorPromise_finish hbefore
  refine Delivers.mono (.of_landed result_yieldValue generatorPromise_finish ?_ hbegin)
    fun _ => Design.Ended.done
  intro i hi
  rw [GeneratorRange.increment, if_neg (by rw [hi]; decide)]

end Values

namespace Generator2

variable {C : Type} {next : Code Int32 Unit C} {ending : Ending Unit} {c : C} {L : List Int32}

theorem value_yieldValue (p : Promise) (v : Int32) :
    some (promiseType.yieldValue p v).val = some v := rfl

theorem promiseType_finish (p : Promise) : (promiseType.finish p ending).isSome = true := by
  cases ending <;> rfl

theorem called (h : Produces next ending c L) : ∃ g, promiseType.call next c = some g ∧
    Landed promiseType next ending (fun p => some p.val) L g :=
  call_landed rfl value_yieldValue promiseType_finish h

/-- **The loop of `main` over `generator_2`**, however the body ends. -/
theorem delivers (h : Produces next ending c L) :
    Delivers (loop next) (promiseType.call next c) L fun g => g.done = true := by
  refine Delivers.mono (.of_landed value_yieldValue promiseType_finish ?_ (called h))
    fun _ => Design.Ended.done
  intro g hg
  rw [resume, finished, if_neg (by rw [hg]; decide)]

/-- **The loop of `UseIterator` over `generator_2`**, however the body ends. -/
theorem rangeDelivers (h : Produces next ending c L) :
    Delivers (rangeLoop next) (promiseType.call next c) L fun g => g.done = true :=
  Delivers.mono (.of_landed value_yieldValue promiseType_finish (fun _ _ => rfl) (called h))
    fun _ => Design.Ended.done

end Generator2

/-- **The designs deliver the same values**: those that the body yields, each once and in
order.  The loops end, and no generator is resumed at its final suspend point. -/
theorem generators_deliver {T C C' : Type} {next : Code T Unit C} {c : C} {L : List T}
    {next' : Code Int32 Unit C'} {c' : C'} {L' : List Int32}
    (h : Produces next (.coReturn ()) c L) (h' : Produces next' (.coReturn ()) c' L') :
    Delivers (Generator.loop next) ((generatorPromise T).call next c) L
      (fun f => f.done = true) ∧
    Delivers (GeneratorRange.loop next)
      (((generatorPromise T).call next c).bind (GeneratorRange.begin_ next)) L
      (fun i => i.done = true) ∧
    Delivers (Generator2.loop next') (Generator2.promiseType.call next' c') L'
      (fun g => g.done = true) ∧
    Delivers (Generator2.rangeLoop next') (Generator2.promiseType.call next' c') L'
      (fun g => g.done = true) :=
  ⟨Generator.delivers h, GeneratorRange.delivers h, Generator2.delivers h',
    Generator2.rangeDelivers h'⟩

/-- Three values, and a generator without values. -/
theorem generators_deliver_three :
    Delivers (Generator.loop (yielding (.coReturn ())))
      ((generatorPromise Nat).call (yielding (.coReturn ())) [1, 2, 3]) [1, 2, 3]
      (fun f => f.done = true) ∧
    Delivers (Generator2.loop (yielding (.coReturn ())))
      (Generator2.promiseType.call (yielding (.coReturn ())) []) []
      (fun g => g.done = true) :=
  have h := generators_deliver (produces_yielding (.coReturn ()) [1, 2, 3])
    (produces_yielding (.coReturn ()) [])
  ⟨h.1, h.2.2.1⟩

end Cpp20Examples.Generators
