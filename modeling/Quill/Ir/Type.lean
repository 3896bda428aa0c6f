import Quill.Basic

/-! # Types of the intermediate representation

Scalars and pointers to them, and the arithmetic of fitting a word or a double to a scalar.
-/
namespace Quill.Ir

inductive Prim where
  | void | i1 | i8 | i32 | i64 | f32 | f64
deriving DecidableEq, Repr, Inhabited

def Prim.text : Prim → String
  | void => "void"
  | i1 => "i1"
  | i8 => "i8"
  | i32 => "i32"
  | i64 => "i64"
  | f32 => "float"
  | f64 => "double"

def Prim.all : List Prim := [.void, .i1, .i8, .i32, .i64, .f32, .f64]

structure Ty where
  prim : Prim
  isPointer : Bool
deriving DecidableEq, Repr, Inhabited

namespace Ty

def void : Ty := ⟨.void, false⟩

def i1 : Ty := ⟨.i1, false⟩

def i8 : Ty := ⟨.i8, false⟩

def i32 : Ty := ⟨.i32, false⟩

def i64 : Ty := ⟨.i64, false⟩

def f32 : Ty := ⟨.f32, false⟩

def f64 : Ty := ⟨.f64, false⟩

def pointerTo (p : Prim) : Ty := ⟨p, true⟩

def text (t : Ty) : String := t.prim.text ++ if t.isPointer then "*" else ""

def isVoid (t : Ty) : Bool := t == void

def isInt (t : Ty) : Bool :=
  !t.isPointer && (t.prim == .i1 || t.prim == .i8 || t.prim == .i32 || t.prim == .i64)

def isFloat (t : Ty) : Bool := !t.isPointer && (t.prim == .f32 || t.prim == .f64)

/-- The width of a number; zero for everything else. -/
def bits (t : Ty) : Nat :=
  if t.isPointer then 0
  else
    match t.prim with
    | .void => 0
    | .i1 => 1
    | .i8 => 8
    | .i32 | .f32 => 32
    | .i64 | .f64 => 64

/-- The word with the same low bits that is in range; booleans are 0 and 1. -/
def wrap (t : Ty) (v : Int64) : Int64 :=
  match t.prim with
  | .i1 => v &&& 1
  | .i8 => v.toInt8.toInt64
  | .i32 => v.toInt32.toInt64
  | _ => v

/-- Rounds to single precision where the scalar has it. -/
def round (t : Ty) (x : Float) : Float := if t.prim = .f32 then x.toFloat32.toFloat else x

/-- The low bits of a word, read without a sign. -/
def unsigned (t : Ty) (v : Int64) : UInt64 :=
  if 0 < t.bits ∧ t.bits < 64 then v.toUInt64 % UInt64.ofNat (2 ^ t.bits) else v.toUInt64

end Ty

end Quill.Ir
