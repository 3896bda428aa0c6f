import Quill.Lowering.Library
import Quill.Machine.Activation
import Quill.Machine.Conversion
import Quill.Machine.World

/-! # Calls of the outside library

Calls of functions without a body: printing, reading and aborting, known by their names.
-/
namespace Quill

open Ir (Fault Module SlotId)

namespace Library

/-- The format text that a call passes first. -/
def formatText (m : Module) (args : List Value) : Except Halt String :=
  match args with
  | .ptr (.global id) :: _ => Ir.Global.text <$> (m.global id).mapError .fault
  | v :: _ => .error (.trap (.format s!"Some({v.text})"))
  | [] => .error (.trap (.format "None"))

/-- Prints the arguments behind the format in one write, and gives the number of bytes. -/
def print (m : Module) (w : World) (args : List Value) : Except Halt Value × World :=
  match formatText m args with
  | .error h => (.error h, w)
  | .ok text =>
    match formatBytes? (FormatPiece.ofText text) args.tail with
    | none => (.error (.trap (.format text)), w)
    | some bytes =>
      match w.sink.write bytes with
      | (some reason, sink) => (.error (.trap (.io reason)), { w with sink })
      | (none, sink) => (.ok (.int (Int64.ofNat bytes.length)), { w with sink })

/-- What became of one conversion: a value, nothing of the form asked for, the end of the input,
or no such conversion. -/
inductive Scanned where
  | value (v : Value)
  | mismatch
  | atEnd
  | unsupported

def scanOne (ty : Ir.Ty) (longs : Nat) (letter : Char) (i : Input) :
    Except String Scanned × Input :=
  if longs = 0 ∧ letter = 'c' then
    match i.readChar with
    | (.error reason, i) => (.error reason, i)
    | (.ok none, i) => (.ok .mismatch, i)
    | (.ok (some b), i) => (.ok (.value (.int b.toInt8.toInt64)), i)
  else
    match i.readWord with
    | (.error reason, i) => (.error reason, i)
    | (.ok none, i) => (.ok .atEnd, i)
    | (.ok (some word), i) =>
      match Value.ofWord? ty longs letter word with
      | none => (.ok .unsupported, i)
      | some none => (.ok .mismatch, i)
      | some (some v) => (.ok (.value v), i)

/-- Follows the pieces of a format. Each conversion stores into the slot its argument points to;
the first that yields no value ends the call, which gives the number of values stored. -/
def readPieces (text : String) (pieces : List FormatPiece) (targets : List Value)
    (count : Int64) (a : Activation) (i : Input) : Except Halt Value × Activation × Input :=
  match pieces with
  | [] => (.ok (.int count), a, i)
  | .char _ :: rest => readPieces text rest targets count a i
  | .cutOff :: _ => (.error (.trap (.format text)), a, i)
  | .conversion longs letter :: rest =>
    match targets with
    | .ptr (.slot id) :: targets =>
      match a.function.slot id with
      | .error f => (.error (.fault f), a, i)
      | .ok slot =>
        match scanOne slot.ty longs letter i with
        | (.error reason, i) => (.error (.trap (.io reason)), a, i)
        | (.ok .unsupported, i) => (.error (.trap (.format text)), a, i)
        | (.ok .mismatch, i) => (.ok (.int count), a, i)
        | (.ok .atEnd, i) => (.ok (.int (if count = 0 then -1 else count)), a, i)
        | (.ok (.value v), i) =>
          match a.setSlot id v with
          | .error f => (.error (.fault f), a, i)
          | .ok a => readPieces text rest targets (count + 1) a i
    | _ => (.error (.trap (.format text)), a, i)

def read (m : Module) (w : World) (a : Activation) (args : List Value) :
    Except Halt Value × Activation × World :=
  match formatText m args with
  | .error h => (.error h, a, w)
  | .ok text =>
    let (r, a, input) := readPieces text (FormatPiece.ofText text) args.tail 0 a w.input
    (r, a, { w with input })

def call (m : Module) (name : String) (w : World) (a : Activation) (args : List Value) :
    Except Halt Value × Activation × World :=
  if name = Library.abortName then (.error (.trap .abort), a, w)
  else if name = Library.printName then
    let (r, w) := print m w args
    (r, a, w)
  else if name = Library.readName then read m w a args
  else (.error (.trap (.missingBody name)), a, w)

end Library

end Quill
