import Quill.Decimal.Text
import Quill.Ir.Module

/-! # Values of the machine

What slots and results hold while a module runs, and how a value of one kind is read as another.
-/
namespace Quill

open Ir (GlobalId SlotId Ty)

inductive Pointer where
  | null
  | global (id : GlobalId)
  /-- A slot of whichever activation uses the pointer. -/
  | slot (id : SlotId)
deriving DecidableEq, Repr

inductive Value where
  | int (v : Int64)
  | float (x : Float)
  | ptr (p : Pointer)
  | void
deriving Repr

instance : Inhabited Value := ⟨.void⟩

namespace Pointer

def text : Pointer → String
  | null => "Null"
  | global id => s!"Global(GlobalId({id.index}))"
  | slot id => s!"Slot(SlotId({id.index}))"

end Pointer

namespace Value

def zero (t : Ty) : Value :=
  if t.isPointer then ptr .null else if t.isFloat then float 0.0 else int 0

/-- The value as a word: fractions are cut off, and what is no number is zero. -/
def toInt : Value → Int64
  | int v => v
  | float x => x.toInt64
  | ptr _ | void => 0

/-- The value as a double; what is no number is zero. -/
def toFloat : Value → Float
  | float x => x
  | int v => v.toFloat
  | ptr _ | void => 0.0

def text : Value → String
  | int v => s!"Int({v.toInt})"
  | float x => s!"Float({Decimal.Layout.telling.text x})"
  | ptr p => s!"Ptr({p.text})"
  | void => "Void"

end Value

end Quill
