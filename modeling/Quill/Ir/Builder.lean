import Quill.Ir.Module

/-! # Building modules

A builder adds one instruction at a time to the end of its current block. Blocks are made
detached and join their function, in order, when they are appended. Breaking a rule is a fault.
-/
namespace Quill.Ir

structure Builder where
  module : Module
  function? : Option FuncId
  block? : Option BlockId
deriving Repr

namespace Builder

def empty (name : String) : Builder := ⟨.empty name, none, none⟩

end Builder

abbrev Build := StateT Builder (Except Fault)

/-- Casts a constant, if the operation fits it. -/
def foldCast (op : CastOp) (source : Ty) (v : Operand) (target : Ty) : Option Operand :=
  match op, v with
  | .sext, .int _ n | .trunc, .int _ n => some (.int target (target.wrap n))
  | .zext, .int _ n => some (.int target (target.wrap (source.unsigned n).toInt64))
  | .siToFp, .int _ n => some (.float target (target.round n.toFloat))
  | .uiToFp, .int _ n => some (.float target (target.round (source.unsigned n).toFloat))
  | .fpToSi, .float _ x => some (.int target (target.wrap x.toInt64))
  | .fpExt, .float _ x | .fpTrunc, .float _ x => some (.float target (target.round x))
  | _, _ => none

namespace Build

def fault {α : Type} (f : Fault) : Build α := throw f

def ofExcept {α : Type} (e : Except Fault α) : Build α := fun b => e.map (·, b)

/-- Declares a function. None if the name is taken. -/
def declareFunction (name : String) (params : List Param) (ret : Ty) :
    Build (Option FuncId) := do
  let b ← get
  if (b.module.lookup? name).isSome then return none
  set { b with module := b.module.declare (.declared name params ret) }
  return some ⟨b.module.functions.size⟩

def modifyFunction (id : FuncId) (change : Function → Function) : Build Unit := do
  discard (ofExcept ((← get).module.function id))
  modify fun b =>
    { b with module := { b.module with functions := b.module.functions.modify id.index change } }

def setVariadic (id : FuncId) : Build Unit :=
  modifyFunction id fun f => { f with isVariadic := true }

def setNoReturn (id : FuncId) : Build Unit :=
  modifyFunction id fun f => { f with isNoReturn := true }

/-- Adds a constant text, named after its index, and gives its address. -/
def addString (name text : String) : Build Operand := do
  let b ← get
  let index := b.module.globals.size
  let globals := b.module.globals.push ⟨s!"{name}.{index}", text⟩
  set { b with module := { b.module with globals } }
  return .global ⟨index⟩

/-- Directs what follows to a function; a block of it has to be chosen next. -/
def enterFunction (id : FuncId) : Build Unit :=
  modify fun b => { b with function? := some id, block? := none }

def currentFunctionId : Build FuncId := do
  match (← get).function? with
  | some id => return id
  | none => fault .noFunction

def currentFunction : Build Function := do
  let id ← currentFunctionId
  ofExcept ((← get).module.function id)

def currentBlockId : Build BlockId := do
  match (← get).block? with
  | some id => return id
  | none => fault .noBlock

def update (change : Function → Function) : Build Unit := do
  modifyFunction (← currentFunctionId) change

def updateBlock (id : BlockId) (change : Block → Block) : Build Unit :=
  update fun f => { f with blocks := f.blocks.modify id.index change }

/-- Makes a block that does not belong to the layout yet. -/
def createBlock (label : String) : Build BlockId := do
  let f ← currentFunction
  let block : Block := { label, insts := #[], terminator := none, isUnreachable := false }
  update fun f => { f with blocks := f.blocks.push block }
  return ⟨f.blocks.size⟩

def appendBlock (id : BlockId) : Build Unit := do
  let f ← currentFunction
  if f.isAttached id then fault .appendedTwice
  update fun f => { f with layout := f.layout.push id }

/-- Further instructions go to the end of that block. -/
def switchTo (id : BlockId) : Build Unit := modify fun b => { b with block? := some id }

def markUnreachable (id : BlockId) : Build Unit := do
  let f ← currentFunction
  discard (ofExcept (f.block id))
  updateBlock id fun b => { b with isUnreachable := true }

def typeOf (v : Operand) : Build Ty := do
  let f ← currentFunction
  ofExcept (f.typeOf v)

def isComparison (v : Operand) : Build Bool := do
  let f ← currentFunction
  ofExcept (f.isComparison v)

/-- Adds an instruction to the current block; with `info?` it gets a value of its own. -/
def push (action : Action) (info? : Option ValueInfo) : Build (Option ValueId) := do
  let id ← currentBlockId
  let f ← currentFunction
  let block ← ofExcept (f.block id)
  if block.terminator.isSome then fault .afterTerminator
  let result := info?.map fun _ => (⟨f.values.size⟩ : ValueId)
  update fun f => { f with values := f.values ++ info?.toArray }
  updateBlock id fun b => { b with insts := b.insts.push ⟨result, action⟩ }
  return result

def pushValue (action : Action) (ty : Ty) (isComparison : Bool) : Build Operand := do
  match ← push action (some ⟨ty, isComparison⟩) with
  | some id => return .inst id
  | none => return .void

def alloca (name : String) (ty : Ty) : Build SlotId := do
  let f ← currentFunction
  let slot : SlotId := ⟨f.slots.size⟩
  update fun f => { f with slots := f.slots.push ⟨name, ty⟩ }
  discard (push (.alloca slot) none)
  return slot

def load (slot : SlotId) : Build Operand := do
  let f ← currentFunction
  let s ← ofExcept (f.slot slot)
  pushValue (.load slot) s.ty false

def store (slot : SlotId) (value : Operand) : Build Unit := discard (push (.store slot value) none)

/-- The result has the type of the left operand. -/
def binary (op : BinaryOp) (lhs rhs : Operand) : Build Operand := do
  let ty ← typeOf lhs
  pushValue (.binary op lhs rhs) ty false

def compare (pred : Predicate) (lhs rhs : Operand) : Build Operand :=
  pushValue (.compare pred lhs rhs) .i1 true

/-- Casts by an instruction, whatever the value is. -/
def emitCast (op : CastOp) (value : Operand) (target : Ty) : Build Operand :=
  pushValue (.cast op value target) target false

/-- Constants are cast at once. -/
def cast (op : CastOp) (value : Operand) (target : Ty) : Build Operand := do
  let source ← typeOf value
  match foldCast op source value target with
  | some folded => return folded
  | none => emitCast op value target

def call (callee : FuncId) (args : List Operand) : Build Operand := do
  let f ← ofExcept ((← get).module.function callee)
  if f.ret.isVoid then
    discard (push (.call callee args) none)
    return .void
  else pushValue (.call callee args) f.ret false

def terminate (t : Terminator) : Build Unit := do
  let id ← currentBlockId
  let f ← currentFunction
  let block ← ofExcept (f.block id)
  if block.terminator.isSome then fault .terminatedTwice
  updateBlock id fun b => { b with terminator := some t }

def br (dest : BlockId) : Build Unit := terminate (.br dest)

def condBr (cond : Operand) (thenDest elseDest : BlockId) : Build Unit :=
  terminate (.condBr cond thenDest elseDest)

def ret (value : Option Operand) : Build Unit := terminate (.ret value)

def unreachable : Build Unit := terminate .unreachable

end Build

end Quill.Ir
