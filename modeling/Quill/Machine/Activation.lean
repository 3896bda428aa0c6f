import Quill.Machine.Arithmetic

/-! # Activations

One call of a defined function: its arguments, its slots, the results of its instructions and
the place it has reached.
-/
namespace Quill

open Ir (BlockId Fault Function Operand SlotId ValueId entry)

structure Activation where
  function : Function
  args : Array Value
  slots : Array Value
  values : Array Value
  block : BlockId
  /-- How many instructions of the block are done. -/
  position : Nat

namespace Activation

/-- A call that begins in a block. Nothing is stored yet. -/
def enter (f : Function) (start : BlockId) (args : List Value) : Activation where
  function := f
  args := args.toArray
  slots := Array.replicate f.slots.size .void
  values := Array.replicate f.values.size .void
  block := start
  position := 0

def get (a : Activation) (v : Operand) : Except Fault Value :=
  match v with
  | .inst id => entry a.values id.index
  | .param n => entry a.args n
  | .int _ n => .ok (.int n)
  | .float _ x => .ok (.float x)
  | .global id => .ok (.ptr (.global id))
  | .slotAddr id => .ok (.ptr (.slot id))
  | .void => .ok .void

def slot (a : Activation) (id : SlotId) : Except Fault Value := entry a.slots id.index

def setSlot (a : Activation) (id : SlotId) (v : Value) : Except Fault Activation :=
  if id.index < a.slots.size then .ok { a with slots := a.slots.set! id.index v }
  else .error (.outOfRange a.slots.size id.index)

/-- Notes the result of the instruction at hand and goes on to the next. -/
def complete (a : Activation) (result : Option ValueId) (v : Value) : Except Fault Activation :=
  match result with
  | none => .ok { a with position := a.position + 1 }
  | some id =>
    if id.index < a.values.size then
      .ok { a with values := a.values.set! id.index v, position := a.position + 1 }
    else .error (.outOfRange a.values.size id.index)

def jump (a : Activation) (dest : BlockId) : Activation := { a with block := dest, position := 0 }

end Activation

end Quill
