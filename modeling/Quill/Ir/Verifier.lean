import Quill.Ir.Module

/-! # Verification

A defined function passes if each of its blocks ends in a terminator whose targets belong to the
layout, exactly one block returns, and the operands have the types their instructions ask for.
-/
namespace Quill.Ir

inductive OperandError where
  | void
  | paramOutOfRange (n : Nat)
  | undefinedValue (id : ValueId)
  | undefinedSlot (id : SlotId)
deriving DecidableEq, Repr

def OperandError.message : OperandError → String
  | void => "void value used as an operand"
  | paramOutOfRange n => s!"parameter {n} out of range"
  | undefinedValue id => s!"value %{id.index} is not defined"
  | undefinedSlot id => s!"slot {id.index} is not defined"

inductive InstError where
  | operand (e : OperandError)
  | storeType (value slot : Ty)
  /-- The two operands of an operation differ in type. -/
  | operandsDiffer (op : String) (l r : Ty)
  | notApplicable (op : String) (ty : Ty)
  | illegalCast (op : CastOp) (source target : Ty)
  | argumentCount (callee : String) (found fixed : Nat)
  | argumentType (callee : String) (index : Nat) (found expected : Ty)
deriving DecidableEq, Repr

def InstError.message : InstError → String
  | operand e => e.message
  | storeType v s => s!"storing {v.text} into slot of type {s.text}"
  | operandsDiffer op l r => s!"operands of {op} differ: {l.text} and {r.text}"
  | notApplicable op t => s!"{op} applied to {t.text}"
  | illegalCast op s t => s!"cannot {op.name} from {s.text} to {t.text}"
  | argumentCount callee found fixed =>
    s!"call to {callee} with {found} argument(s), expected {fixed}"
  | argumentType callee i found expected =>
    s!"argument {i} of call to {callee} has type {found.text}, expected {expected.text}"

inductive Violation where
  | inst (label : String) (e : InstError)
  | noTerminator (label : String) (id : BlockId)
  | detachedTarget (label : String)
  /-- An operand of a terminator. -/
  | operand (e : OperandError)
  | conditionType (label : String) (ty : Ty)
  | returnType (found declared : Ty)
  | returnCount (found : Nat)
deriving DecidableEq, Repr

def Violation.message : Violation → String
  | inst label e => s!"{label}: {e.message}"
  | noTerminator label id => s!"block {label}.{id.index} has no terminator"
  | detachedTarget label => s!"{label} branches to a detached block"
  | operand e => e.message
  | conditionType label t => s!"{label}: branch condition has type {t.text}"
  | returnType found declared => s!"returns {found.text}, declared {declared.text}"
  | returnCount n => s!"expected one return, found {n}"

structure VerifyError where
  function : String
  violation : Violation
deriving DecidableEq, Repr

def VerifyError.message (e : VerifyError) : String :=
  s!"in function {e.function}: {e.violation.message}"

/-- Why a check did not pass: a rule is violated, or an index of the function names nothing. -/
inductive Doubt (ε : Type) where
  | violated (e : ε)
  | fault (f : Fault)
deriving DecidableEq, Repr

namespace Doubt

def map {α β : Type} (f : α → β) : Doubt α → Doubt β
  | violated e => violated (f e)
  | fault f => fault f

end Doubt

abbrev Check (ε : Type) := Except (Doubt ε)

namespace Check

def violated {ε α : Type} (e : ε) : Check ε α := .error (.violated e)

def ofFault {ε α : Type} (x : Except Fault α) : Check ε α := x.mapError .fault

def within {ε δ α : Type} (f : ε → δ) (x : Check ε α) : Check δ α := x.mapError (Doubt.map f)

def require {ε : Type} (p : Bool) (e : ε) : Check ε Unit := if p then .ok () else violated e

end Check

open Check

namespace Function

def usedType (f : Function) (v : Operand) : Check OperandError Ty :=
  match v with
  | .void => violated .void
  | .param n =>
    if n ≥ f.params.length then violated (.paramOutOfRange n) else ofFault (f.typeOf v)
  | .inst id =>
    if id.index ≥ f.values.size then violated (.undefinedValue id) else ofFault (f.typeOf v)
  | .slotAddr id =>
    if id.index ≥ f.slots.size then violated (.undefinedSlot id) else ofFault (f.typeOf v)
  | _ => ofFault (f.typeOf v)

def operandType (f : Function) (v : Operand) : Check InstError Ty :=
  within .operand (f.usedType v)

end Function

def CastOp.isLegal (op : CastOp) (source target : Ty) : Bool :=
  match op with
  | sext | zext => source.isInt && target.isInt && source.bits < target.bits
  | trunc => source.isInt && target.isInt && source.bits > target.bits
  | fpToSi => source.isFloat && target.isInt
  | siToFp | uiToFp => source.isInt && target.isFloat
  | fpExt => source.isFloat && target.isFloat && source.bits < target.bits
  | fpTrunc => source.isFloat && target.isFloat && source.bits > target.bits

/-- Each argument is an operand, and those that have a parameter are of its type. -/
def checkArgs (f callee : Function) (index : Nat) : List Operand → Check InstError Unit
  | [] => .ok ()
  | arg :: rest => do
    let ty ← f.operandType arg
    match callee.params[index]? with
    | some p => require (p.ty == ty) (.argumentType callee.name index ty p.ty)
    | none => .ok ()
    checkArgs f callee (index + 1) rest

def Action.check (m : Module) (f : Function) : Action → Check InstError Unit
  | alloca _ | load _ => .ok ()
  | store s v => do
    let ty ← f.operandType v
    let slot ← ofFault (f.slot s)
    require (ty == slot.ty) (.storeType ty slot.ty)
  | binary op lhs rhs => do
    let l ← f.operandType lhs
    let r ← f.operandType rhs
    require (l == r) (.operandsDiffer op.name l r)
    require (if op.isFloat then l.isFloat else l.isInt) (.notApplicable op.name l)
  | compare pred lhs rhs => do
    let l ← f.operandType lhs
    let r ← f.operandType rhs
    require (l == r) (.operandsDiffer pred.name l r)
    require (if pred.isFloat then l.isFloat else l.isInt || l.isPointer)
      (.notApplicable pred.name l)
  | cast op v target => do
    let ty ← f.operandType v
    require (op.isLegal ty target) (.illegalCast op ty target)
  | call callee args => do
    let callee ← ofFault (m.function callee)
    let fixed := callee.params.length
    require (if callee.isVariadic then args.length ≥ fixed else args.length == fixed)
      (.argumentCount callee.name args.length fixed)
    checkArgs f callee 0 args

def Terminator.check (f : Function) (label : String) : Terminator → Check Violation Unit
  | condBr c _ _ => do
    let ty ← within .operand (f.usedType c)
    require (ty == .i1) (.conditionType label ty)
  | ret value => do
    let ty ← match value with
      | some v => within .operand (f.usedType v)
      | none => pure .void
    require (ty == f.ret) (.returnType ty f.ret)
  | br _ | unreachable => .ok ()

def Terminator.isReturn : Terminator → Bool
  | ret _ => true
  | _ => false

/-- Checks one block of the layout. Gives whether it returns. -/
def Function.checkBlock (m : Module) (f : Function) (id : BlockId) : Check Violation Bool := do
  let b ← ofFault (f.block id)
  b.insts.forM fun i => within (.inst b.label) (i.action.check m f)
  match b.terminator with
  | none => violated (.noTerminator b.label id)
  | some t =>
    require (t.successors.all f.isAttached) (.detachedTarget b.label)
    t.check f b.label
    return t.isReturn

def Function.check (m : Module) (f : Function) : Check Violation Unit := do
  if f.isDeclaration then return
  let returns ← f.layout.toList.mapM (f.checkBlock m)
  let count := returns.countP id
  require (count == 1) (.returnCount count)

def Module.verify (m : Module) (id : FuncId) : Check VerifyError Unit := do
  let f ← ofFault (m.function id)
  within (VerifyError.mk f.name) (f.check m)

end Quill.Ir
