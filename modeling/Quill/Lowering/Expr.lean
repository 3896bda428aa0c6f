import Quill.Lowering.Basic

/-! # Lowering of expressions

Operands and arguments are lowered from left to right.
-/
namespace Quill.Lower

open Ir (BinaryOp Build Operand Predicate Ty)

inductive Operation where
  | arithmetic (op : BinaryOp)
  | comparison (pred : Predicate)
deriving DecidableEq, Repr

def wholeOperation : Operator → Operation
  | .add => .arithmetic .add
  | .sub => .arithmetic .sub
  | .mul => .arithmetic .mul
  | .div => .arithmetic .sdiv
  | .shl => .arithmetic .shl
  | .shr => .arithmetic .ashr
  | .lt => .comparison .islt
  | .gt => .comparison .isgt
  | .le => .comparison .isle
  | .ge => .comparison .isge
  | .eq => .comparison .ieq

/-- Fractions are not shifted. -/
def fractionOperation? : Operator → Option Operation
  | .add => some (.arithmetic .fadd)
  | .sub => some (.arithmetic .fsub)
  | .mul => some (.arithmetic .fmul)
  | .div => some (.arithmetic .fdiv)
  | .shl | .shr => none
  | .lt => some (.comparison .folt)
  | .gt => some (.comparison .fogt)
  | .le => some (.comparison .fole)
  | .ge => some (.comparison .foge)
  | .eq => some (.comparison .foeq)

def operate (operation : Operation) (lhs rhs : Operand) : Lower Operand :=
  match operation with
  | .arithmetic op => build (Build.binary op lhs rhs)
  | .comparison pred => build (Build.compare pred lhs rhs)

/-- Literals of up to 31 bits are short words. -/
def literal (n : UInt64) : Operand :=
  if n.toNat < 2 ^ (31 : Nat) then .int .i32 n.toInt64 else .int .i64 n.toInt64

def load (x : Ident) : Lower Operand := do
  match ← find? x.text with
  | some slot => build (Build.load slot)
  | none => reject x.span (.undefinedVariable x.text)

/-- Pointers are compared for equality; numbers are brought to one type first. -/
def binary (span : Span) (op : Operator) (lhs rhs : Operand) : Lower Operand := do
  match resultType (← typeOf lhs) (← typeOf rhs) with
  | .error e => reject span (.types e)
  | .ok ty =>
    if ty.isPointer then
      if op = .eq then build (Build.compare .ieq lhs rhs)
      else reject span .pointerArithmetic
    else
      let lhs ← convert lhs ty
      let rhs ← convert rhs ty
      if ty.isFloat then
        match fractionOperation? op with
        | some operation => operate operation lhs rhs
        | none => reject span .floatShift
      else operate (wholeOperation op) lhs rhs

/-- A call of a function of the program, once it is known how to lower arguments for parameters
of given types. -/
def callWith (span : Span) (callee : Ident) (count : Nat)
    (args : List Ty → Lower (List Operand)) : Lower Operand := do
  match (← get).functions.lookup callee.text with
  | none => reject callee.span (.undefinedFunction callee.text)
  | some id =>
    let f ← build (do Build.ofExcept ((← MonadState.get).module.function id))
    let types := f.params.map Ir.Param.ty
    if types.length ≠ count then
      reject span (.argumentCount callee.text types.length count)
    build (Build.call id (← args types))

mutual

def expr (e : Expr) : Lower Operand :=
  match e with
  | .int n _ => return literal n
  | .float x _ => return .float .f64 x
  | .var x => load x
  | .binary op lhs rhs => do
    let l ← expr lhs
    let r ← expr rhs
    binary (lhs.span.through rhs.span) op l r
  | .semi op lead rhs span => do
    let l ← load lead
    let r ← expr rhs
    binary span op l r
  | .call callee args span =>
    callWith span callee args.length fun types => arguments callee.text args types

def arguments (callee : String) (args : List Expr) (types : List Ty) : Lower (List Operand) :=
  match args, types with
  | arg :: args, ty :: types => do
    let v ← expr arg
    let v ← coerce v ty arg.span (.argumentType callee ty)
    return v :: (← arguments callee args types)
  | _, _ => return []

end

/-- Turns a value into a truth value. Comparisons are one, and other numbers are compared with
zero. -/
def truth (span : Span) (v : Operand) : Lower Operand := do
  if ← build (Build.isComparison v) then return v
  let ty ← typeOf v
  if ty.isInt then build (Build.compare .ine v (.zero ty))
  else if ty.isFloat then build (Build.compare .fune v (.zero ty))
  else reject span (.condition ty)

def condition (e : Expr) : Lower Operand := do truth e.span (← expr e)

end Quill.Lower
