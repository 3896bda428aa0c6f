import Quill.Lowering.Expr

/-! # Lowering of statements

Each statement continues the current block and leaves a block in which the next one continues.
-/
namespace Quill.Lower

open Ir (Build Operand Ty)

def abort : Lower Unit := do
  discard (build (Build.call (← get).library.abort []))
  build Build.unreachable

def assert (c : Expr) : Lower Unit := do
  let check ← newBlock "assert.check"
  let fail ← newBlock "assert.fail"
  let success ← newBlock "assert.success"
  build (Build.br check)
  build (Build.switchTo check)
  let c ← condition c
  build (Build.condBr c success fail)
  build (Build.switchTo fail)
  abort
  build (Build.switchTo success)

/-- Reads a value into a variable. For a boolean a word is read, and its truth kept. -/
def read (x : Ident) : Lower Unit := do
  match ← find? x.text with
  | none => reject x.span (.readUndefined x.text)
  | some slot =>
    let ty ← slotTy slot
    if !ty.isInt && !ty.isFloat then reject x.span .notReadable
    let format ← format ty .input
    let reader := (← get).library.read
    if ty = .i1 then
      let word ← build (Build.alloca "input" .i32)
      discard (build (Build.call reader [format, .slotAddr word]))
      let v ← build (Build.load word)
      let v ← build (Build.compare .ine v (.zero .i32))
      build (Build.store slot v)
    else discard (build (Build.call reader [format, .slotAddr slot]))

/-- Values passed to an outside function without a declared type are at least a plain word, or a
double. -/
def promote (v : Operand) (ty : Ty) : Lower Operand :=
  if ty.isInt && ty.bits < 32 then cast .zext v .i32
  else if ty = .f32 then cast .fpExt v .f64
  else return v

def print (e : Expr) : Lower Unit := do
  let v ← expr e
  let ty ← typeOf v
  if !ty.isInt && !ty.isFloat then reject e.span .notPrintable
  let v ← promote v ty
  let format ← format ty .output
  discard (build (Build.call (← get).library.print [format, v]))

def assign (x : Ident) (e : Expr) : Lower Unit := do
  let v ← expr e
  match ← find? x.text with
  | none => reject x.span (.assignUndefined x.text)
  | some slot =>
    let ty ← slotTy slot
    let v ← coerce v ty e.span (.assignType ty)
    build (Build.store slot v)

def initial (ty : Ty) (e : Expr) : Lower Operand := do
  coerce (← expr e) ty e.span (.initType ty)

/-- The name is bound after its first value is computed, which still sees what it hides. -/
def declare (x : Ident) (type : TypeExpr) (init : Option Expr) : Lower Unit := do
  let ty := type.ty
  if ty.isVoid then reject x.span (.voidVariable x.text)
  if (← get).scopes.definedHere x.text then reject x.span (.redefinition x.text)
  let v ← init.mapM (initial ty)
  let slot ← build (Build.alloca x.text ty)
  define x slot
  match v with
  | some v => build (Build.store slot v)
  | none => return

/-- Keeps the result and leaves for the exit. -/
def ret (value : Option Expr) : Lower Unit := do
  match (← get).frame with
  | none => misuse .noBody
  | some frame =>
    match value, frame.result with
    | some e, some slot =>
      let v ← expr e
      let ty ← build (Ir.Function.ret <$> Build.currentFunction)
      let v ← coerce v ty e.span (.returnType ty)
      build (Build.store slot v)
    | some e, none => reject e.span .returnValueFromVoid
    | none, _ => pure ()
    build (Build.br frame.exit)
    continueUnreachable "return.after"

mutual

def stmt (s : Stmt) : Lower Unit :=
  match s with
  | .assert c _ => assert c
  | .read x _ => read x
  | .abort _ => do
    abort
    continueUnreachable "abort.after"
  | .call callee args span => discard (expr (.call callee args span))
  | .print e _ => print e
  | .assign x e _ => assign x e
  | .declare x type init _ => declare x type init
  | .loop body c _ => do
    let bodyBlock ← newBlock "loop.body"
    build (Build.br bodyBlock)
    build (Build.switchTo bodyBlock)
    nested (stmts body)
    let conditionBlock ← newBlock "loop.condition"
    build (Build.br conditionBlock)
    build (Build.switchTo conditionBlock)
    let c ← condition c
    let after ← build (Build.createBlock "loop.after")
    build (Build.condBr c bodyBlock after)
    build (Build.appendBlock after)
    build (Build.switchTo after)
  | .branch _ cs otherwise _ => do
    let exit ← build (Build.createBlock "branch.after")
    let first ← newBlock "branch.case.cond"
    build (Build.br first)
    build (Build.switchTo first)
    cases exit cs
    match otherwise with
    | none => pure ()
    | some body =>
      let block ← newBlock "branch.else"
      build (Build.br block)
      build (Build.switchTo block)
      nested (stmts body)
    build (Build.br exit)
    build (Build.appendBlock exit)
    build (Build.switchTo exit)
  | .ret value _ => ret value

def stmts (ss : List Stmt) : Lower Unit :=
  match ss with
  | [] => return
  | s :: rest => do
    stmt s
    stmts rest

/-- Tries the cases in turn. A body leaves for `exit`, and what follows the cases is reached when
none holds. -/
def cases (exit : Ir.BlockId) (cs : List Case) : Lower Unit :=
  match cs with
  | [] => return
  | .mk c body :: rest => do
    let c ← condition c
    let next ← build (Build.createBlock "branch.case.cond")
    let bodyBlock ← newBlock "branch.case.body"
    build (Build.condBr c bodyBlock next)
    build (Build.switchTo bodyBlock)
    nested (stmts body)
    build (Build.br exit)
    build (Build.appendBlock next)
    build (Build.switchTo next)
    cases exit rest

end

end Quill.Lower
