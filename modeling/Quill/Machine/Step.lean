import Quill.Machine.Library

/-! # Steps of the machine

A configuration is the activation at work, those that wait for it, and the world. A step performs
one instruction or one terminator.
-/
namespace Quill

open Ir (Action BlockId Fault FuncId Function Inst Module Operand Terminator)

/-- Calls may be nested that deep. -/
def maxDepth : Nat := 512

structure Config where
  current : Activation
  /-- The activations that wait for a call to return, the latest first. -/
  callers : List Activation
  world : World

namespace Config

def depth (c : Config) : Nat := c.callers.length + 1

end Config

inductive Step where
  | running (c : Config)
  /-- The first activation has returned. -/
  | returned (v : Value) (w : World)
  | halted (h : Halt) (w : World)

namespace Step

def ofExcept (w : World) : Except Halt Config → Step
  | .ok c => running c
  | .error h => halted h w

def trapped (t : Trap) (w : World) : Step := halted (.trap t) w

def faulted (f : Fault) (w : World) : Step := halted (.fault f) w

end Step

/-- Performs an action that stays within its activation. A call is none of these. -/
def Activation.perform (a : Activation) (action : Action) : Except Halt (Value × Activation) := do
  let lift {α : Type} (x : Except Fault α) : Except Halt α := x.mapError .fault
  match action with
  | .alloca s =>
    let slot ← lift (a.function.slot s)
    let a ← lift (a.setSlot s (.zero slot.ty))
    return (.void, a)
  | .load s => return (← lift (a.slot s), a)
  | .store s v =>
    let v ← lift (a.get v)
    let a ← lift (a.setSlot s v)
    return (.void, a)
  | .binary op l r =>
    let ty ← lift (a.function.typeOf l)
    let l ← lift (a.get l)
    let r ← lift (a.get r)
    match Value.binary? op ty l r with
    | some v => return (v, a)
    | none => .error (.trap (.divisionByZero a.function.name))
  | .compare pred l r =>
    let l ← lift (a.get l)
    let r ← lift (a.get r)
    return (.ofBool (Value.compare pred l r), a)
  | .cast op v target =>
    let source ← lift (a.function.typeOf v)
    let v ← lift (a.get v)
    return (v.cast op source target, a)
  | .call _ _ => return (.void, a)

def Activation.getAll (a : Activation) (vs : List Operand) : Except Fault (List Value) :=
  vs.mapM a.get

namespace Config

/-- Calls a function: an outside one at once, a defined one in an activation of its own. -/
def call (m : Module) (c : Config) (inst : Inst) (callee : FuncId) (args : List Operand) : Step :=
  match c.current.getAll args, m.function callee with
  | .error f, _ | _, .error f => .faulted f c.world
  | .ok args, .ok f =>
    match f.entryBlock? with
    | none =>
      match Library.call m f.name c.world c.current args with
      | (.error h, _, w) => .halted h w
      | (.ok v, a, w) =>
        match a.complete inst.result v with
        | .error f => .faulted f w
        | .ok a => .running { c with current := a, world := w }
    | some start =>
      if c.depth ≥ maxDepth then .trapped .stackOverflow c.world
      else
        let records := c.world.records.push (.trace s!"entering {f.name}")
        .running
          { current := .enter f start args
            callers := c.current :: c.callers
            world := { c.world with records } }

def giveBack (c : Config) (v : Value) : Step :=
  match c.callers with
  | [] => .returned v c.world
  | a :: callers =>
    match a.function.block a.block with
    | .error f => .faulted f c.world
    | .ok b =>
      let result := (b.insts[a.position]?).bind Inst.result
      match a.complete result v with
      | .error f => .faulted f c.world
      | .ok a => .running { c with current := a, callers }

def terminate (c : Config) (t : Option Terminator) : Step :=
  let a := c.current
  match t with
  | some (.br dest) => .running { c with current := a.jump dest }
  | some (.condBr cond t e) =>
    match a.get cond with
    | .error f => .faulted f c.world
    | .ok v => .running { c with current := a.jump (if v.toInt ≠ 0 then t else e) }
  | some (.ret none) => c.giveBack .void
  | some (.ret (some v)) =>
    match a.get v with
    | .error f => .faulted f c.world
    | .ok v => c.giveBack v
  | some .unreachable | none => .trapped (.unreachable a.function.name) c.world

/-- Performs the next instruction, or the terminator behind the last one. -/
def step (m : Module) (c : Config) : Step :=
  let a := c.current
  match a.function.block a.block with
  | .error f => .faulted f c.world
  | .ok b =>
    match b.insts[a.position]? with
    | none => c.terminate b.terminator
    | some ⟨result, .call callee args⟩ => c.call m ⟨result, .call callee args⟩ callee args
    | some ⟨result, action⟩ =>
      match a.perform action with
      | .error h => .halted h c.world
      | .ok (v, a) =>
        match a.complete result v with
        | .error f => .faulted f c.world
        | .ok a => .running { c with current := a }

/-- At most `fuel` steps. None if the run is not over by then. -/
def run (m : Module) (fuel : Nat) (c : Config) : Option (Except Halt Value × World) :=
  match fuel with
  | 0 => none
  | fuel + 1 =>
    match c.step m with
    | .running c => run m fuel c
    | .returned v w => some (.ok v, w)
    | .halted h w => some (.error h, w)

end Config

end Quill
