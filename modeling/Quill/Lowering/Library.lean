import Quill.Ir.Type

/-! # The outside library

The three outside functions that lowered programs call, and the format texts they pass on.
-/
namespace Quill.Library

open Ir (Ty)

def printName : String := "printf"

def readName : String := "scanf"

def abortName : String := "abort"

def isReserved (name : String) : Bool :=
  name == printName || name == readName || name == abortName

inductive Direction where
  | input | output
deriving DecidableEq, Repr

/-- The conversion of one value. Printed booleans and short words count as plain words; a read
character skips blanks before it. -/
def conversion (ty : Ty) (d : Direction) : String :=
  match ty.prim, d with
  | .i1, _ | .i32, _ => "%d"
  | .i8, .input => " %c"
  | .i8, .output => "%c"
  | .i64, _ => "%ld"
  | .f32, _ => "%f"
  | .f64, _ | .void, _ => "%lf"

/-- The format text that reads one value, or prints one value and ends the line. -/
def format (ty : Ty) (d : Direction) : String :=
  match d with
  | .input => conversion ty d
  | .output => conversion ty d ++ "\n"

end Quill.Library
