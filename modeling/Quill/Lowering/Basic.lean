import Quill.Basic
import Quill.Ir.Builder
import Quill.Lowering.Failure
import Quill.Lowering.Library

/-! # The state of lowering

Lowering works on a builder, the scopes of the body at hand and a few tables, and stops at the
first error. What it has built by then stays.
-/
namespace Quill

open Ir (BlockId FuncId Operand SlotId Ty)
open Library (Direction)

/-! ### Scopes -/

/-- The variables in sight at one level of nesting. -/
abbrev ScopeFrame := List (String × SlotId)

/-- One frame for each level, the innermost first. A name may be bound once in a frame and hides
the bindings of outer frames. -/
abbrev Scopes := List ScopeFrame

namespace Scopes

def enter (s : Scopes) : Scopes := [] :: s

def leave (s : Scopes) : Scopes := s.tail

def definedHere (s : Scopes) (name : String) : Bool :=
  s.head?.any fun frame => (frame.lookup name).isSome

def find? (s : Scopes) (name : String) : Option SlotId := s.findSome? (List.lookup name)

end Scopes

/-! ### States -/

structure BodyFrame where
  /-- Holds the only return, and is appended after the body. -/
  exit : BlockId
  /-- Where the result is kept; functions that give nothing have none. -/
  result : Option SlotId
deriving DecidableEq, Repr

/-- The outside functions, declared before all others. -/
structure LibraryIds where
  print : FuncId
  read : FuncId
  abort : FuncId
deriving DecidableEq, Repr

structure Lowering where
  builder : Ir.Builder
  scopes : Scopes
  /-- The functions that may be called. -/
  functions : List (String × FuncId)
  library : LibraryIds
  /-- The format texts made so far, one for each type and direction. -/
  formats : List ((Ty × Direction) × Operand)
  frame : Option BodyFrame
  /-- Whether constants are cast at once. Otherwise every cast is an instruction. -/
  folds : Bool
  records : Array Record

/-- A step of lowering. The state outlives a stop. -/
abbrev Lower := ExceptT Stop (StateM Lowering)

namespace Lower

def reject {α : Type} (span : Span) (e : LoweringError) : Lower α := throw (.rejected (span.at e))

def misuse {α : Type} (m : Misuse) : Lower α := throw (.misuse m)

def build {α : Type} (x : Ir.Build α) : Lower α := do
  let s ← get
  match x s.builder with
  | .ok (a, builder) =>
    set { s with builder }
    return a
  | .error f => misuse (.build f)

def record (r : Record) : Lower Unit := modify fun s => { s with records := s.records.push r }

/-- Lowers in a scope frame of its own, which goes whether lowering stops or not. -/
def nested {α : Type} (x : Lower α) : Lower α := do
  modify fun s => { s with scopes := s.scopes.enter }
  let r ← observing x
  modify fun s => { s with scopes := s.scopes.leave }
  ExceptT.mk (pure r)
where
  observing (x : Lower α) : Lower (Except Stop α) := ExceptT.lift (ExceptT.run x)

def find? (name : String) : Lower (Option SlotId) := return (← get).scopes.find? name

def define (x : Ident) (slot : SlotId) : Lower Unit := do
  let s ← get
  match s.scopes with
  | [] => misuse .noScope
  | frame :: outer =>
    if (frame.lookup x.text).isSome then reject x.span (.redefinition x.text)
    set { s with scopes := ((x.text, slot) :: frame) :: outer }

def typeOf (v : Operand) : Lower Ty := build (Ir.Build.typeOf v)

def slotTy (s : SlotId) : Lower Ty :=
  build do
    let f ← Ir.Build.currentFunction
    Ir.Slot.ty <$> Ir.Build.ofExcept (f.slot s)

def newBlock (label : String) : Lower BlockId :=
  build do
    let id ← Ir.Build.createBlock label
    Ir.Build.appendBlock id
    return id

/-- Goes on in a block that no edge reaches. -/
def continueUnreachable (label : String) : Lower Unit := do
  let id ← newBlock label
  build (Ir.Build.markUnreachable id)
  build (Ir.Build.switchTo id)

/-- The format text for one value of a numeric type, made when first asked for. -/
def format (ty : Ty) (d : Direction) : Lower Operand := do
  let s ← get
  match s.formats.lookup (ty, d) with
  | some v => return v
  | none =>
    if !ty.isInt && !ty.isFloat then misuse (.noFormat ty)
    let v ← build (Ir.Build.addString "format" (Library.format ty d))
    modify fun s => { s with formats := ((ty, d), v) :: s.formats }
    return v

/-- The cast between two different numeric types. Booleans are unsigned. -/
def castOp (source target : Ty) : Ir.CastOp :=
  match source.isFloat, target.isFloat with
  | false, false =>
    if source.bits < target.bits then if source = .i1 then .zext else .sext else .trunc
  | true, false => .fpToSi
  | false, true => if source = .i1 then .uiToFp else .siToFp
  | true, true => if source.bits < target.bits then .fpExt else .fpTrunc

def cast (op : Ir.CastOp) (v : Operand) (target : Ty) : Lower Operand := do
  if (← get).folds then build (Ir.Build.cast op v target)
  else build (Ir.Build.emitCast op v target)

def convert (v : Operand) (target : Ty) : Lower Operand := do
  let source ← typeOf v
  if source = target then return v
  cast (castOp source target) v target

/-- Converts a value where the language does so by itself: between numeric types. -/
def coerce? (v : Operand) (target : Ty) : Lower (Option Operand) := do
  let source ← typeOf v
  if source = target then return some v
  if source.isPointer || target.isPointer || source.isVoid || target.isVoid then return none
  return some (← convert v target)

/-- Converts a value or rejects the program, with the type that was found. -/
def coerce (v : Operand) (target : Ty) (span : Span) (e : Ty → LoweringError) :
    Lower Operand := do
  let found ← typeOf v
  match ← coerce? v target with
  | some v => return v
  | none => reject span (e found)

end Lower

end Quill
