import Quill.Machine.Step

/-! # Runs

A machine calls the entry point of a module as often as it is asked to. What one call leaves of
the input is there for the next, and so is the output.
-/
namespace Quill

open Ir (Module)

structure Machine where
  module : Module
  world : World

namespace Machine

def start (module : Module) (input : Input) (sink : Sink) : Machine :=
  ⟨module, { input, sink, records := #[] }⟩

/-- Flushes at the end of a run; a failing flush is the outcome then. -/
def flushed (r : Except Halt Value) (w : World) : Except Halt Value :=
  match r, w.sink.flushFailure with
  | .error (.fault f), _ => .error (.fault f)
  | _, some reason => .error (.trap (.io reason))
  | r, none => r

/-- Calls the function `main` of the module, for at most `fuel` steps. None if it is still
running. The result is the exit code. -/
def runMain (fuel : Nat) (m : Machine) : Option (Except Halt Int64 × Machine) :=
  match m.module.lookup? "main" with
  | none => some (.error (.trap .noEntryPoint), m)
  | some id =>
    match m.module.function id with
    | .error f => some (.error (.fault f), m)
    | .ok f =>
      match f.entryBlock? with
      | none => some ((flushed (.error (.trap (.missingBody f.name))) m.world).map Value.toInt, m)
      | some start =>
        let world := { m.world with
          records := m.world.records.push (.trace s!"entering {f.name}") }
        match Config.run m.module fuel ⟨.enter f start [], [], world⟩ with
        | none => none
        | some (r, world) => some ((flushed r world).map Value.toInt, { m with world })

end Machine

end Quill
