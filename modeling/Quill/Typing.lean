import Quill.Ir.Type
import Quill.Syntax.Basic

/-! # Types of expressions

Which scalar a written type is, and which type both operands of an operation are brought to.
-/
namespace Quill

open Ir (Ty Prim)

def BaseType.prim : BaseType → Prim
  | integer => .i64
  | char => .i8
  | bool => .i1
  | float => .f32
  | double => .f64
  | void => .void

def TypeExpr.ty (t : TypeExpr) : Ty := ⟨t.base.prim, t.isPointer⟩

/-- The name of a scalar in the source language. The width of short literals has none and keeps
its own. -/
def Ir.Prim.sourceName : Prim → String
  | i64 => "integer"
  | i8 => "char"
  | i1 => "bool"
  | f32 => "float"
  | f64 => "double"
  | void => "void"
  | i32 => "i32"

def Ir.Ty.sourceName (t : Ty) : String :=
  if t.isPointer then s!"*{t.prim.sourceName}" else t.prim.sourceName

inductive TypeError where
  | void
  | mixedPointer
  | pointerCast
deriving DecidableEq, Repr

def TypeError.message : TypeError → String
  | void => "cannot operate on void"
  | mixedPointer => "cannot mix pointer and non-pointer"
  | pointerCast => "cannot cast between pointer types"

/-- The type both operands of an operation are converted to. Fractions win over whole numbers,
and the wider type among fractions or among whole numbers. Two pointers must agree. -/
def resultType (l r : Ty) : Except TypeError Ty :=
  if l.isVoid || r.isVoid then .error .void
  else if l.isPointer != r.isPointer then .error .mixedPointer
  else if l.isPointer then if l == r then .ok l else .error .pointerCast
  else if l.isFloat == r.isFloat then .ok (if l.bits ≥ r.bits then l else r)
  else .ok (if l.isFloat then l else r)

end Quill
