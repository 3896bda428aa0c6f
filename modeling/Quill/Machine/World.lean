import Quill.Ir.Module
import Quill.Machine.Input
import Quill.Text.Quoted

/-! # The surroundings of a machine

Standard input and output, and the ways in which a run ends other than by returning.
-/
namespace Quill

open Ir (Fault)

/-! ### Standard output -/

/-- A sink takes bytes, perhaps only up to a limit, and may fail when it is flushed. -/
structure Sink where
  written : Array UInt8
  /-- How many bytes fit in all, and how a write that does not fit fails. -/
  limit : Option (Nat × String)
  flushFailure : Option String
deriving Repr

namespace Sink

def unlimited : Sink := ⟨#[], none, none⟩

/-- A write that does not fit leaves nothing; an empty one is not made. -/
def write (s : Sink) (bytes : List UInt8) : Option String × Sink :=
  let full : Option String :=
    match s.limit with
    | some (most, reason) => if s.written.size + bytes.length > most then some reason else none
    | none => none
  if bytes.isEmpty then (none, s)
  else
    match full with
    | some reason => (some reason, s)
    | none => (none, { s with written := s.written ++ bytes.toArray })

end Sink

/-- What a machine shares with its surroundings. -/
structure World where
  input : Input
  sink : Sink
  records : Array Record

/-! ### Ends of a run -/

inductive Trap where
  | abort
  | noEntryPoint
  | missingBody (function : String)
  | divisionByZero (function : String)
  | unreachable (function : String)
  | stackOverflow
  /-- A format text that cannot be followed, or what stood in its place. -/
  | format (text : String)
  | io (reason : String)
deriving DecidableEq, Repr

def Trap.message : Trap → String
  | abort => "program aborted"
  | noEntryPoint => "module has no main function"
  | missingBody f => s!"function {f} is declared but never defined"
  | divisionByZero f => s!"division by zero in {f}"
  | unreachable f => s!"reached unreachable code in {f}"
  | stackOverflow => "call stack exhausted"
  | format text => s!"unsupported format string {Quoted.quote text}"
  | io reason => s!"i/o error: {reason}"

/-- Why a run cannot go on. A fault is an index that names nothing. -/
inductive Halt where
  | trap (t : Trap)
  | fault (f : Fault)
deriving DecidableEq, Repr

end Quill
