import Quill.Ir.Type

/-! # Modules of the intermediate representation

A module holds functions and constant texts. A function holds blocks of instructions, and says
in its layout which of them belong to it and in what order; variables live in stack slots, and
each instruction with a result has a value of its own. Everything is named by its index.
-/
namespace Quill.Ir

structure FuncId where
  index : Nat
deriving DecidableEq, Repr, Inhabited

structure BlockId where
  index : Nat
deriving DecidableEq, Repr, Inhabited

structure ValueId where
  index : Nat
deriving DecidableEq, Repr, Inhabited

structure SlotId where
  index : Nat
deriving DecidableEq, Repr, Inhabited

structure GlobalId where
  index : Nat
deriving DecidableEq, Repr, Inhabited

inductive Operand where
  | inst (id : ValueId)
  | param (n : Nat)
  | int (ty : Ty) (value : Int64)
  | float (ty : Ty) (value : Float)
  /-- The address of a constant text. -/
  | global (id : GlobalId)
  /-- The address of a slot. -/
  | slotAddr (id : SlotId)
  /-- What a call without a result gives. -/
  | void
deriving Repr, Inhabited

namespace Operand

def zero (t : Ty) : Operand :=
  match t.prim with
  | .f32 | .f64 => float t 0.0
  | _ => int t 0

end Operand

inductive BinaryOp where
  | add | sub | mul | sdiv | shl | ashr | fadd | fsub | fmul | fdiv
deriving DecidableEq, Repr

namespace BinaryOp

def isFloat : BinaryOp → Bool
  | fadd | fsub | fmul | fdiv => true
  | _ => false

def text : BinaryOp → String
  | add => "add"
  | sub => "sub"
  | mul => "mul"
  | sdiv => "sdiv"
  | shl => "shl"
  | ashr => "ashr"
  | fadd => "fadd"
  | fsub => "fsub"
  | fmul => "fmul"
  | fdiv => "fdiv"

def name : BinaryOp → String
  | add => "Add"
  | sub => "Sub"
  | mul => "Mul"
  | sdiv => "SDiv"
  | shl => "Shl"
  | ashr => "AShr"
  | fadd => "FAdd"
  | fsub => "FSub"
  | fmul => "FMul"
  | fdiv => "FDiv"

def all : List BinaryOp := [add, sub, mul, sdiv, shl, ashr, fadd, fsub, fmul, fdiv]

end BinaryOp

/-- What a comparison asks. Whole numbers are signed; of two pointers only equality is asked.
Of the questions about doubles only `fune` is answered yes when one of them is no number. -/
inductive Predicate where
  | ieq | ine | islt | isgt | isle | isge | foeq | fune | folt | fogt | fole | foge
deriving DecidableEq, Repr

namespace Predicate

def isFloat : Predicate → Bool
  | foeq | fune | folt | fogt | fole | foge => true
  | _ => false

def text : Predicate → String
  | ieq => "icmp eq"
  | ine => "icmp ne"
  | islt => "icmp slt"
  | isgt => "icmp sgt"
  | isle => "icmp sle"
  | isge => "icmp sge"
  | foeq => "fcmp oeq"
  | fune => "fcmp une"
  | folt => "fcmp olt"
  | fogt => "fcmp ogt"
  | fole => "fcmp ole"
  | foge => "fcmp oge"

def name : Predicate → String
  | ieq => "IEq"
  | ine => "INe"
  | islt => "ISlt"
  | isgt => "ISgt"
  | isle => "ISle"
  | isge => "ISge"
  | foeq => "FOeq"
  | fune => "FUne"
  | folt => "FOlt"
  | fogt => "FOgt"
  | fole => "FOle"
  | foge => "FOge"

def all : List Predicate :=
  [ieq, ine, islt, isgt, isle, isge, foeq, fune, folt, fogt, fole, foge]

end Predicate

inductive CastOp where
  | sext | zext | trunc | fpToSi | siToFp | uiToFp | fpExt | fpTrunc
deriving DecidableEq, Repr

namespace CastOp

def text : CastOp → String
  | sext => "sext"
  | zext => "zext"
  | trunc => "trunc"
  | fpToSi => "fptosi"
  | siToFp => "sitofp"
  | uiToFp => "uitofp"
  | fpExt => "fpext"
  | fpTrunc => "fptrunc"

def name : CastOp → String
  | sext => "SExt"
  | zext => "ZExt"
  | trunc => "Trunc"
  | fpToSi => "FpToSi"
  | siToFp => "SiToFp"
  | uiToFp => "UiToFp"
  | fpExt => "FpExt"
  | fpTrunc => "FpTrunc"

def all : List CastOp := [sext, zext, trunc, fpToSi, siToFp, uiToFp, fpExt, fpTrunc]

end CastOp

inductive Action where
  | alloca (slot : SlotId)
  | load (slot : SlotId)
  | store (slot : SlotId) (value : Operand)
  | binary (op : BinaryOp) (lhs rhs : Operand)
  | compare (pred : Predicate) (lhs rhs : Operand)
  | cast (op : CastOp) (value : Operand) (target : Ty)
  | call (callee : FuncId) (args : List Operand)
deriving Repr, Inhabited

structure Inst where
  /-- The value that holds the result, if the action has one. -/
  result : Option ValueId
  action : Action
deriving Repr, Inhabited

inductive Terminator where
  | br (dest : BlockId)
  | condBr (cond : Operand) (thenDest elseDest : BlockId)
  | ret (value : Option Operand)
  | unreachable
deriving Repr, Inhabited

def Terminator.successors : Terminator → List BlockId
  | br dest => [dest]
  | condBr _ t e => [t, e]
  | ret _ | unreachable => []

structure Block where
  label : String
  insts : Array Inst
  terminator : Option Terminator
  /-- Set on blocks that begin after a return or an abort, which no edge reaches. -/
  isUnreachable : Bool
deriving Repr, Inhabited

structure Slot where
  name : String
  ty : Ty
deriving DecidableEq, Repr, Inhabited

structure Param where
  name : String
  ty : Ty
deriving DecidableEq, Repr, Inhabited

structure ValueInfo where
  ty : Ty
  /-- Whether the value is the direct result of a comparison. -/
  isComparison : Bool
deriving DecidableEq, Repr, Inhabited

structure Function where
  name : String
  params : List Param
  ret : Ty
  isVariadic : Bool
  /-- Calls of the function never return. -/
  isNoReturn : Bool
  blocks : Array Block
  /-- The blocks that belong to the function, in order; none for a declaration. -/
  layout : Array BlockId
  slots : Array Slot
  values : Array ValueInfo
deriving Repr, Inhabited

/-- A constant text; the NUL at its end is not part of it. -/
structure Global where
  name : String
  text : String
deriving DecidableEq, Repr, Inhabited

structure Module where
  name : String
  functions : Array Function
  globals : Array Global
  /-- The function of each name that was declared. -/
  byName : List (String × FuncId)
deriving Repr, Inhabited

/-- A broken rule of construction: not an error in a source, but a misuse of the operations. -/
inductive Fault where
  | noFunction
  | noBlock
  | appendedTwice
  | terminatedTwice
  | afterTerminator
  /-- An index that names nothing in a table of that size. -/
  | outOfRange (size index : Nat)
deriving DecidableEq, Repr

def Fault.message : Fault → String
  | noFunction => "no function is being built"
  | noBlock => "no insertion block"
  | appendedTwice => "block appended twice"
  | terminatedTwice => "block terminated twice"
  | afterTerminator => "instruction after terminator"
  | outOfRange size index => s!"index out of bounds: the len is {size} but the index is {index}"

/-- The entry of a table, or the fault that there is none. -/
def entry {α : Type} (table : Array α) (index : Nat) : Except Fault α :=
  match table[index]? with
  | some a => .ok a
  | none => .error (.outOfRange table.size index)

namespace Function

def declared (name : String) (params : List Param) (ret : Ty) : Function where
  name
  params
  ret
  isVariadic := false
  isNoReturn := false
  blocks := #[]
  layout := #[]
  slots := #[]
  values := #[]

def isDeclaration (f : Function) : Bool := f.layout.isEmpty

/-- The block in which a call begins. -/
def entryBlock? (f : Function) : Option BlockId := f.layout[0]?

def isAttached (f : Function) (id : BlockId) : Bool := f.layout.contains id

def block (f : Function) (id : BlockId) : Except Fault Block := entry f.blocks id.index

def slot (f : Function) (id : SlotId) : Except Fault Slot := entry f.slots id.index

def value (f : Function) (id : ValueId) : Except Fault ValueInfo := entry f.values id.index

def param (f : Function) (n : Nat) : Except Fault Param := entry f.params.toArray n

def typeOf (f : Function) (v : Operand) : Except Fault Ty :=
  match v with
  | .inst id => ValueInfo.ty <$> f.value id
  | .param n => Param.ty <$> f.param n
  | .int ty _ | .float ty _ => .ok ty
  | .global _ => .ok (.pointerTo .i8)
  | .slotAddr s => (fun s => .pointerTo s.ty.prim) <$> f.slot s
  | .void => .ok .void

def isComparison (f : Function) (v : Operand) : Except Fault Bool :=
  match v with
  | .inst id => ValueInfo.isComparison <$> f.value id
  | _ => .ok false

end Function

namespace Module

def empty (name : String) : Module := ⟨name, #[], #[], []⟩

def lookup? (m : Module) (name : String) : Option FuncId := m.byName.lookup name

/-- Adds a function behind the others, under its name. -/
def declare (m : Module) (f : Function) : Module :=
  { m with
    functions := m.functions.push f
    byName := (f.name, ⟨m.functions.size⟩) :: m.byName }

def function (m : Module) (id : FuncId) : Except Fault Function := entry m.functions id.index

def global (m : Module) (id : GlobalId) : Except Fault Global := entry m.globals id.index

end Module

end Quill.Ir
