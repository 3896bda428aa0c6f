import Quill.Decimal.Text
import Quill.Ir.Module
import Quill.Text.Utf8

/-! # Modules as text

The constants first, then each function: a line for a declaration, and for a definition its
blocks in layout order with one instruction a line. A slot, a block or a constant is written with
its index behind its name, a value by its index alone.
-/
namespace Quill.Ir

def commaSeparated (parts : List String) : String := ", ".intercalate parts

def upperHex (n : Nat) : Char := if n < 10 then Char.ofNat (48 + n) else Char.ofNat (55 + n)

/-- Visible ASCII as it is, but the quote and the backslash and all other bytes in hexadecimal. -/
def escapeByte (b : UInt8) : List Char :=
  if 32 ≤ b ∧ b ≤ 126 ∧ b ≠ 34 ∧ b ≠ 92 then [Char.ofNat b.toNat]
  else ['\\', upperHex (b.toNat / 16), upperHex (b.toNat % 16)]

def escapeText (s : String) : String := String.ofList ((Utf8.encode s).flatMap escapeByte)

def Global.print (g : Global) : String := s!"@{g.name} = constant \"{escapeText g.text}\\00\"\n"

namespace Function

def blockText (f : Function) (id : BlockId) : String :=
  let label := ((f.blocks[id.index]?).map Block.label).getD ""
  s!"{label}.{id.index}"

def slotText (f : Function) (id : SlotId) : String :=
  let name := ((f.slots[id.index]?).map Slot.name).getD ""
  s!"%{name}.{id.index}"

def slotTy (f : Function) (id : SlotId) : Ty := ((f.slots[id.index]?).map Slot.ty).getD .void

end Function

namespace Operand

def print (m : Module) (f : Function) : Operand → String
  | inst id => s!"%{id.index}"
  | param n => "%" ++ ((f.params[n]?).map Param.name).getD ""
  | int _ v => toString v.toInt
  | float _ x => Decimal.Layout.telling.text x
  | global id => "@" ++ ((m.globals[id.index]?).map Global.name).getD ""
  | slotAddr id => f.slotText id
  | void => "void"

def printTyped (m : Module) (f : Function) (v : Operand) : String :=
  let ty := match f.typeOf v with
    | .ok ty => ty
    | .error _ => .void
  s!"{ty.text} {v.print m f}"

end Operand

def Action.print (m : Module) (f : Function) : Action → String
  | alloca s => s!"{f.slotText s} = alloca {(f.slotTy s).text}"
  | load s =>
    let ty := (f.slotTy s).text
    s!"load {ty}, {ty}* {f.slotText s}"
  | store s v => s!"store {v.printTyped m f}, {(f.slotTy s).text}* {f.slotText s}"
  | binary op l r => s!"{op.text} {l.printTyped m f}, {r.print m f}"
  | compare p l r => s!"{p.text} {l.printTyped m f}, {r.print m f}"
  | cast op v target => s!"{op.text} {v.printTyped m f} to {target.text}"
  | call callee args =>
    let callee := (m.functions[callee.index]?).getD default
    let args := commaSeparated (args.map (·.printTyped m f))
    s!"call {callee.ret.text} @{callee.name}({args})"

def Inst.print (m : Module) (f : Function) (i : Inst) : String :=
  let result := match i.result with
    | some id => s!"%{id.index} = "
    | none => ""
  s!"  {result}{i.action.print m f}\n"

def Terminator.print (m : Module) (f : Function) : Terminator → String
  | br d => s!"br label %{f.blockText d}"
  | condBr c t e =>
    s!"br {c.printTyped m f}, label %{f.blockText t}, label %{f.blockText e}"
  | ret (some v) => s!"ret {v.printTyped m f}"
  | ret none => "ret void"
  | unreachable => "unreachable"

def Block.print (m : Module) (f : Function) (title : String) (b : Block) : String :=
  let mark := if b.isUnreachable then "  ; unreachable" else ""
  let insts := String.join (b.insts.toList.map (·.print m f))
  let last := match b.terminator with
    | some t => s!"  {t.print m f}\n"
    | none => ""
  s!"{title}:{mark}\n{insts}{last}"

namespace Function

def printDeclaration (f : Function) : String :=
  let params := commaSeparated (f.params.map (·.ty.text))
  let variadic := if f.isVariadic then ", ..." else ""
  let noReturn := if f.isNoReturn then " noreturn" else ""
  s!"declare {f.ret.text} @{f.name}({params}{variadic}){noReturn}\n"

def printBlock (m : Module) (f : Function) (id : BlockId) : String :=
  ((f.blocks[id.index]?).getD default).print m f (f.blockText id)

def printDefinition (m : Module) (f : Function) : String :=
  let params := commaSeparated (f.params.map fun p => s!"{p.ty.text} %{p.name}")
  let blocks := String.join (f.layout.toList.map (f.printBlock m))
  s!"define {f.ret.text} @{f.name}({params}) \x7b\n{blocks}\x7d\n"

def print (m : Module) (f : Function) : String :=
  if f.isDeclaration then f.printDeclaration else f.printDefinition m

end Function

def Module.print (m : Module) : String :=
  let globals := String.join (m.globals.toList.map Global.print)
  let functions := String.join (m.functions.toList.map fun f => "\n" ++ f.print m)
  s!"; module {m.name}\n{globals}{functions}"

end Quill.Ir
