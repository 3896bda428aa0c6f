import Quill.Machine.Value

/-! # Arithmetic of the machine

Words wrap around at the width of the type at hand, and fractions are rounded to its precision.
-/
namespace Quill

open Ir (BinaryOp CastOp Predicate Ty)

namespace Value

/-- None if a word is divided by zero. -/
def binary? (op : BinaryOp) (ty : Ty) (l r : Value) : Option Value :=
  match op with
  | .add => some (int (ty.wrap (l.toInt + r.toInt)))
  | .sub => some (int (ty.wrap (l.toInt - r.toInt)))
  | .mul => some (int (ty.wrap (l.toInt * r.toInt)))
  | .sdiv => if r.toInt = 0 then none else some (int (ty.wrap (l.toInt / r.toInt)))
  | .shl => some (int (ty.wrap (l.toInt <<< r.toInt)))
  | .ashr => some (int (ty.wrap (l.toInt >>> r.toInt)))
  | .fadd => some (float (ty.round (l.toFloat + r.toFloat)))
  | .fsub => some (float (ty.round (l.toFloat - r.toFloat)))
  | .fmul => some (float (ty.round (l.toFloat * r.toFloat)))
  | .fdiv => some (float (ty.round (l.toFloat / r.toFloat)))

def compareNumbers (pred : Predicate) (l r : Value) : Bool :=
  match pred with
  | .ieq => l.toInt == r.toInt
  | .ine => l.toInt != r.toInt
  | .islt => l.toInt < r.toInt
  | .isgt => r.toInt < l.toInt
  | .isle => l.toInt ≤ r.toInt
  | .isge => r.toInt ≤ l.toInt
  | .foeq => l.toFloat == r.toFloat
  | .fune => l.toFloat != r.toFloat
  | .folt => l.toFloat < r.toFloat
  | .fogt => r.toFloat < l.toFloat
  | .fole => l.toFloat ≤ r.toFloat
  | .foge => r.toFloat ≤ l.toFloat

/-- Two pointers are equal or not, whatever is asked. -/
def compare (pred : Predicate) (l r : Value) : Bool :=
  match l, r with
  | ptr p, ptr q => if pred = .ine then p != q else p == q
  | _, _ => compareNumbers pred l r

def ofBool (b : Bool) : Value := int (if b then 1 else 0)

def cast (op : CastOp) (source target : Ty) (v : Value) : Value :=
  match op with
  | .sext | .trunc => int (target.wrap v.toInt)
  | .zext => int (target.wrap (source.unsigned v.toInt).toInt64)
  | .fpToSi => int (target.wrap v.toFloat.toInt64)
  | .siToFp => float (target.round v.toInt.toFloat)
  | .uiToFp => float (target.round (source.unsigned v.toInt).toFloat)
  | .fpExt | .fpTrunc => float (target.round v.toFloat)

end Value

end Quill
