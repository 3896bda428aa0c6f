import Quill.Lowering.Program
import Quill.Machine.Run

/-! # The meaning of programs

An evaluator that follows the syntax tree. Variables live in nested frames, operands and arguments
are evaluated from left to right, and every value has a type of its own that says how it is
converted, printed and read. The evaluator knows nothing of the intermediate representation.
-/
namespace Quill

open Ir (Ty)

namespace Meaning

structure Typed where
  ty : Ty
  value : Value
deriving Repr

namespace Typed

/-- Literals of up to 31 bits are short words. -/
def literal (n : UInt64) : Typed :=
  if n.toNat < 2 ^ (31 : Nat) then ⟨.i32, .int n.toInt64⟩ else ⟨.i64, .int n.toInt64⟩

def bool (b : Bool) : Typed := ⟨.i1, .int (if b then 1 else 0)⟩

/-- The value in another type. Only numbers change: whole ones wrap around, fractions are cut off
or rounded, and a boolean has no sign. -/
def convert? (v : Typed) (target : Ty) : Option Value :=
  if v.ty = target then some v.value
  else
    match v.value with
    | .int n =>
      if target.isInt then some (.int (target.wrap n))
      else if target.isFloat then
        let x := if v.ty = .i1 then (v.ty.unsigned n).toFloat else n.toFloat
        some (.float (target.round x))
      else none
    | .float x =>
      if target.isInt then some (.int (target.wrap x.toInt64))
      else if target.isFloat then some (.float (target.round x))
      else none
    | .ptr _ | .void => none

/-- Numbers other than zero are true. -/
def truth? (v : Typed) : Option Bool :=
  match v.value with
  | .int n => some (n != 0)
  | .float x => some (x != 0.0)
  | .ptr _ | .void => none

/-- How a number is printed: characters as a byte, other whole numbers in digits and fractions
with six places. -/
def shown? (v : Typed) : Option (List UInt8) :=
  match v.value with
  | .int n =>
    some (if v.ty = .i8 then [n.toUInt64.toUInt8] else Utf8.encode (toString n.toInt))
  | .float x => some (Utf8.encode (Decimal.fixed 6 x))
  | .ptr _ | .void => none

end Typed

/-- What an operator makes of two whole numbers of a type. None if zero divides. -/
def whole? (op : Operator) (ty : Ty) (a b : Int64) : Option Typed :=
  match op with
  | .add => some ⟨ty, .int (ty.wrap (a + b))⟩
  | .sub => some ⟨ty, .int (ty.wrap (a - b))⟩
  | .mul => some ⟨ty, .int (ty.wrap (a * b))⟩
  | .div => if b = 0 then none else some ⟨ty, .int (ty.wrap (a / b))⟩
  | .shl => some ⟨ty, .int (ty.wrap (a <<< b))⟩
  | .shr => some ⟨ty, .int (ty.wrap (a >>> b))⟩
  | .lt => some (.bool (a < b))
  | .gt => some (.bool (a > b))
  | .le => some (.bool (a ≤ b))
  | .ge => some (.bool (a ≥ b))
  | .eq => some (.bool (a == b))

/-- What an operator makes of two fractions of a type. They are not shifted. -/
def fraction? (op : Operator) (ty : Ty) (x y : Float) : Option Typed :=
  match op with
  | .add => some ⟨ty, .float (ty.round (x + y))⟩
  | .sub => some ⟨ty, .float (ty.round (x - y))⟩
  | .mul => some ⟨ty, .float (ty.round (x * y))⟩
  | .div => some ⟨ty, .float (ty.round (x / y))⟩
  | .shl | .shr => none
  | .lt => some (.bool (x < y))
  | .gt => some (.bool (x > y))
  | .le => some (.bool (x ≤ y))
  | .ge => some (.bool (x ≥ y))
  | .eq => some (.bool (x == y))

/-! ### The evaluation monad -/

/-- What is left to read, and what has been written. -/
structure Console where
  input : Input
  sink : Sink

inductive Break where
  | trap (t : Trap)
  /-- A loop has gone round as often as it may. -/
  | outOfFuel
  /-- No rule says how to go on. -/
  | stuck
deriving Repr

abbrev Eval := ExceptT Break (StateM Console)

def trap {α : Type} (t : Trap) : Eval α := throw (.trap t)

def stuck {α : Type} : Eval α := throw .stuck

def known {α : Type} (x : Option α) : Eval α :=
  match x with
  | some a => return a
  | none => stuck

def consume {α : Type} (f : Input → Except String α × Input) : Eval α := do
  let k ← get
  let r := f k.input
  set { k with input := r.2 }
  match r.1 with
  | .ok a => return a
  | .error reason => trap (.io reason)

def emit (bytes : List UInt8) : Eval Unit := do
  let k ← get
  let r := k.sink.write bytes
  set { k with sink := r.2 }
  match r.1 with
  | none => return
  | some reason => trap (.io reason)

/-- Reads a value of a type. None if the input holds nothing of its form there. -/
def scan (ty : Ty) : Eval (Option Value) := do
  if ty = .i8 then
    return (← consume Input.readChar).map fun b => .int b.toInt8.toInt64
  else
    return (← consume Input.readWord).bind fun word =>
      if ty.isFloat then (Decimal.readFloat? word).map fun x => .float (ty.round x)
      else (Decimal.readInt64? word).map fun n => .int (ty.wrap n)

def print (v : Typed) : Eval Unit := do
  emit ((← known v.shown?) ++ [10])

/-- What an operator makes of two values of one type, in the function of that name. -/
def combine (function : String) (op : Operator) (ty : Ty) (l r : Value) : Eval Typed :=
  match l, r with
  | .int a, .int b =>
    match whole? op ty a b with
    | some v => return v
    | none => trap (.divisionByZero function)
  | .float x, .float y => known (fraction? op ty x y)
  | .ptr p, .ptr q => if op = .eq then return .bool (p == q) else stuck
  | _, _ => stuck

/-- Both operands are brought to one type. -/
def operate (function : String) (op : Operator) (l r : Typed) : Eval Typed := do
  let ty ← known (resultType l.ty r.ty).toOption
  combine function op ty (← known (l.convert? ty)) (← known (r.convert? ty))

/-! ### Variables -/

/-- The variables in sight, the innermost frame first. -/
abbrev Env := List (List (String × Typed))

namespace Env

def find? (env : Env) (x : String) : Option Typed := env.findSome? (List.lookup x)

/-- Gives a new value to the first variable of that name in a frame. -/
def setIn (x : String) (v : Value) : List (String × Typed) → List (String × Typed)
  | [] => []
  | (y, w) :: rest => if x == y then (y, ⟨w.ty, v⟩) :: rest else (y, w) :: setIn x v rest

def set (x : String) (v : Value) : Env → Env
  | [] => []
  | frame :: outer =>
    if (frame.lookup x).isSome then setIn x v frame :: outer else frame :: set x v outer

def declare (env : Env) (x : String) (v : Typed) : Env := ((x, v) :: env.headD []) :: env.tail

end Env

/-! ### Expressions -/

/-- What the evaluation of a body depends on besides its variables. -/
structure Setting where
  routines : List Routine
  /-- The name of the function and the type of its result. -/
  name : String
  result : Ty
  /-- How often a loop may go round. -/
  fuel : Nat
  /-- Runs a function on arguments. -/
  call : Routine → List Value → Eval Value

/-- The function that is called by a name. The entry point is not. -/
def Setting.callable? (S : Setting) (name : String) : Option Routine :=
  S.routines.find? fun r => !r.isEntry && r.name == name

section

variable (S : Setting)

mutual

def expr (env : Env) : Expr → Eval Typed
  | .int n _ => return .literal n
  | .float x _ => return ⟨.f64, .float x⟩
  | .var x => known (env.find? x.text)
  | .binary op lhs rhs => do
    let l ← expr env lhs
    let r ← expr env rhs
    operate S.name op l r
  | .semi op lead rhs _ => do
    let l ← known (env.find? lead.text)
    let r ← expr env rhs
    operate S.name op l r
  | .call callee args _ => do
    let r ← known (S.callable? callee.text)
    let vs ← arguments env args (r.params.map (·.type.ty))
    return ⟨r.result.ty, ← S.call r vs⟩

/-- Each argument in the type of its parameter. -/
def arguments (env : Env) : List Expr → List Ty → Eval (List Value)
  | [], [] => return []
  | arg :: args, ty :: types => do
    let v ← known ((← expr env arg).convert? ty)
    return v :: (← arguments env args types)
  | _, _ => stuck

end

def condition (env : Env) (c : Expr) : Eval Bool := do
  known (← expr S env c).truth?

/-! ### Statements -/

/-- How a statement is left: for the next one, or for the end of the function with the result
that was given, if any. -/
inductive Flow where
  | next (env : Env)
  | left (result : Option Value)

/-- Runs a block in a frame of its own. -/
def nested (block : Env → Eval Flow) (env : Env) : Eval Flow := do
  match ← block ([] :: env) with
  | .next env => return .next env.tail
  | .left result => return .left result

def iterate (block : Env → Eval Flow) (test : Env → Eval Bool) : Nat → Env → Eval Flow
  | 0, _ => throw .outOfFuel
  | fuel + 1, env => do
    match ← block env with
    | .left result => return .left result
    | .next env => if ← test env then iterate block test fuel env else return .next env

/-- Reads a variable. What cannot be read leaves it as it is, but makes a boolean false. -/
def readInto (env : Env) (x : String) : Eval Flow := do
  let old ← known (env.find? x)
  if old.ty = .i1 then
    let word ← scan .i32
    return .next (env.set x (Typed.bool ((word.getD (.int 0)).toInt != 0)).value)
  else
    match ← scan old.ty with
    | some v => return .next (env.set x v)
    | none => return .next env

/-- The first value of a variable: zero, or that of an expression in which the variable is not
in sight yet. -/
def initial (env : Env) (ty : Ty) (init : Option Expr) : Eval Value := do
  match init with
  | none => return .zero ty
  | some e => known ((← expr S env e).convert? ty)

mutual

def stmt (env : Env) : Stmt → Eval Flow
  | .assert c _ => do
    if ← condition S env c then return .next env else trap .abort
  | .read x _ => readInto env x.text
  | .abort _ => trap .abort
  | .call callee args span => do
    discard (expr S env (.call callee args span))
    return .next env
  | .print e _ => do
    print (← expr S env e)
    return .next env
  | .assign x e _ => do
    let v ← expr S env e
    let old ← known (env.find? x.text)
    return .next (env.set x.text (← known (v.convert? old.ty)))
  | .declare x type init _ => do
    let v ← initial S env type.ty init
    return .next (env.declare x.text ⟨type.ty, v⟩)
  | .loop body c _ => iterate (nested fun env => stmts env body) (condition S · c) S.fuel env
  | .branch _ cs otherwise _ => do
    match ← cases env cs with
    | some flow => return flow
    | none =>
      match otherwise with
      | none => return .next env
      | some body => nested (fun env => stmts env body) env
  | .ret none _ => return .left none
  | .ret (some e) _ => do
    return .left (some (← known ((← expr S env e).convert? S.result)))

def stmts (env : Env) : List Stmt → Eval Flow
  | [] => return .next env
  | s :: rest => do
    match ← stmt env s with
    | .next env => stmts env rest
    | .left result => return .left result

/-- Runs the first case whose condition holds. None if there is none. -/
def cases (env : Env) : List Case → Eval (Option Flow)
  | [] => return none
  | .mk c body :: rest => do
    if ← condition S env c then some <$> nested (fun env => stmts env body) env
    else cases env rest

end

end

/-! ### Programs -/

def parameters : Env → List Param → List Value → Env
  | env, p :: ps, v :: vs => parameters (env.declare p.name.text ⟨p.type.ty, v⟩) ps vs
  | env, _, _ => env

/-- What a function gives that was left with or without a result. -/
def resultOf (ty : Ty) : Flow → Value
  | .left (some v) => v
  | _ => if ty.isVoid then .void else .zero ty

/-- Runs a function on arguments. Functions without a body cannot be run, and calls nest only as
deep as there is room. -/
def run (routines : List Routine) (fuel : Nat) : Nat → Routine → List Value → Eval Value
  | room, r, args => do
    if r.body.isEmpty then trap (.missingBody r.name)
    else
      match room with
      | 0 => trap .stackOverflow
      | room + 1 =>
        let S : Setting := ⟨routines, r.name, r.result.ty, fuel, run routines fuel room⟩
        return resultOf r.result.ty (← stmts S (parameters [[]] r.params args) r.body)

/-- At the end the output is flushed; that this fails is the outcome then. -/
def flushed (k : Console) (r : Except Break Value) : Except Break Value :=
  match r, k.sink.flushFailure with
  | .ok _, some reason | .error (.trap _), some reason => .error (.trap (.io reason))
  | r, _ => r

/-- Runs the entry point, with loops that go round at most `fuel` times. -/
def evaluate (p : Program) (fuel : Nat) (k : Console) : Except Break Int64 × Console :=
  match p.main with
  | none => (.error (.trap .noEntryPoint), k)
  | some main =>
    let r := (run p.routines fuel maxDepth main.routine []).run k
    ((flushed r.2 r.1).map Value.toInt, r.2)

end Meaning

end Quill
