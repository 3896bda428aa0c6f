import Quill.Lowering.Stmt

/-! # Lowering of programs

All functions are declared before any body is lowered, so a body may call what follows it.
-/
namespace Quill

open Ir (Build FuncId Module Operand Ty)

/-- What lowering needs of a function or of the entry point. -/
structure Routine where
  name : String
  /-- Where errors about the name are reported. -/
  nameSpan : Span
  result : TypeExpr
  params : List Param
  body : List Stmt
  span : Span
  /-- Whether a result that is never set is zero. -/
  isEntry : Bool

def FunctionDecl.routine (f : FunctionDecl) : Routine where
  name := f.name.text
  nameSpan := f.name.span
  result := f.result
  params := f.params
  body := f.body
  span := f.span
  isEntry := false

def EntryPoint.routine (m : EntryPoint) : Routine where
  name := "main"
  nameSpan := m.span
  result := .integer
  params := []
  body := m.body
  span := m.span
  isEntry := true

/-- The functions in source order and the entry point after them. -/
def Program.routines (p : Program) : List Routine :=
  p.functions.map FunctionDecl.routine ++ (p.main.map EntryPoint.routine).toList

namespace Lower

def declareRoutine (r : Routine) : Lower FuncId := do
  if Library.isReserved r.name then reject r.nameSpan (.reservedName r.name)
  let params := r.params.map fun p => (⟨p.name.text, p.type.ty⟩ : Ir.Param)
  match ← build (Build.declareFunction r.name params r.result.ty) with
  | none => reject r.nameSpan (.functionRedefinition r.name)
  | some id =>
    if !r.isEntry then
      modify fun s => { s with functions := (r.name, id) :: s.functions }
    record (.debug s!"declared {r.name}: {r.result.ty.text}")
    return id

def bindParams (index : Nat) : List Param → Lower Unit
  | [] => return
  | p :: rest => do
    let slot ← build (Build.alloca p.name.text p.type.ty)
    build (Build.store slot (.param index))
    define p.name slot
    bindParams (index + 1) rest

/-- The room for the result. Only the entry point's begins as zero. -/
def resultSlot (r : Routine) : Lower (Option Ir.SlotId) := do
  let ty := r.result.ty
  if ty.isVoid then return none
  let slot ← build (Build.alloca "result" ty)
  if r.isEntry then build (Build.store slot (.zero ty))
  return some slot

/-- The blocks of a body, from its entry to its exit, where the result is returned. -/
def body (r : Routine) : Lower Unit := do
  let result ← resultSlot r
  bindParams 0 r.params
  let exit ← build (Build.createBlock "exit")
  modify fun s => { s with frame := some ⟨exit, result⟩ }
  stmts r.body
  build (Build.br exit)
  build (Build.appendBlock exit)
  build (Build.switchTo exit)
  let v ← result.mapM fun slot => build (Build.load slot)
  build (Build.ret v)
  modify fun s => { s with frame := none }

def verify (id : FuncId) (span : Span) : Lower Unit := do
  match (← get).builder.module.verify id with
  | .ok () => return
  | .error (.violated e) => reject span (.verify e)
  | .error (.fault f) => misuse (.build f)

/-- Lowers the body of a declared routine, unless it has none. -/
def defineRoutine (r : Routine) (id : FuncId) : Lower Unit := do
  if r.body.isEmpty then return
  build (Build.enterFunction id)
  let entry ← newBlock "entry"
  build (Build.switchTo entry)
  nested (body r)
  verify id r.span
  record (.debug s!"defined {r.name}")

/-- Declares the routines, and then defines each under the number it got. -/
def routines (rs : List Routine) : Lower Unit := do
  let ids ← rs.mapM declareRoutine
  (rs.zip ids).forM fun (r, id) => defineRoutine r id

end Lower

namespace Lowering

/-- The builder's first steps: the outside functions. -/
def declareLibrary : Build (Option LibraryIds) := do
  let format : List Ir.Param := [⟨"format", .pointerTo .i8⟩]
  let print? ← Build.declareFunction Library.printName format .i32
  let read? ← Build.declareFunction Library.readName format .i32
  let abort? ← Build.declareFunction Library.abortName [] .void
  match print?, read?, abort? with
  | some print, some read, some abort =>
    Build.setVariadic print
    Build.setVariadic read
    Build.setNoReturn abort
    return some ⟨print, read, abort⟩
  | _, _, _ => return none

def start (name : String) : Lowering :=
  let (library, builder) :=
    match declareLibrary (.empty name) with
    | .ok (some library, builder) => (library, builder)
    | _ => (⟨⟨0⟩, ⟨1⟩, ⟨2⟩⟩, .empty name)
  { builder, scopes := [], functions := [], library, formats := [], frame := none, folds := true
    records := #[] }

end Lowering

/-- The outcome of lowering: the module or what stopped it, and the records. -/
structure Lowered where
  outcome : Except Stop Module
  records : List Record

/-- Lowers a program from a state in which nothing of it is declared. -/
def Program.lowerFrom (p : Program) (s : Lowering) : Lowered :=
  let (outcome, s) := (Lower.routines p.routines).run s
  { outcome := outcome.map fun _ => s.builder.module, records := s.records.toList }

def Program.lower (p : Program) : Lowered := p.lowerFrom (.start p.fileName)

end Quill
