import Quill.Decimal.Text
import Quill.Syntax.Basic

/-! # Outlines of syntax trees

One line for each node, indented by its depth. Expressions carry their spans.
-/
namespace Quill

namespace Outline

def line (depth : Nat) (text : String) : String :=
  String.ofList (List.replicate (2 * depth) ' ') ++ text ++ "\n"

def ident (depth : Nat) (x : Ident) : String := line depth s!"ident {x.text} ({x.span.text})"

mutual

def expr (depth : Nat) (e : Expr) : String :=
  match e with
  | .int n s => line depth s!"int {n.toNat} ({s.text})"
  | .float x s => line depth s!"float {Decimal.Layout.plain.text x} ({s.text})"
  | .var x => ident depth x
  | .binary op lhs rhs =>
    line depth s!"binary {op.name} ({(Expr.binary op lhs rhs).span.text})" ++
      expr (depth + 1) lhs ++ expr (depth + 1) rhs
  | .semi op lead rhs s =>
    line depth s!"semi {op.name} ({s.text})" ++ ident (depth + 1) lead ++ expr (depth + 1) rhs
  | .call callee args s =>
    line depth s!"call {callee.text} ({s.text})" ++ exprs (depth + 1) args

def exprs (depth : Nat) (es : List Expr) : String :=
  match es with
  | [] => ""
  | e :: rest => expr depth e ++ exprs depth rest

end

mutual

def stmt (depth : Nat) (s : Stmt) : String :=
  match s with
  | .assert c _ => line depth "assert" ++ expr (depth + 1) c
  | .read x _ => line depth s!"read {x.text}"
  | .abort _ => line depth "abort"
  | .call callee args span => line depth "expression" ++ expr (depth + 1) (.call callee args span)
  | .print e _ => line depth "print" ++ expr (depth + 1) e
  | .assign x e _ => line depth s!"assign {x.text}" ++ expr (depth + 1) e
  | .declare x t none _ => line depth s!"var {x.text}: {t.text}"
  | .declare x t (some e) _ =>
    line depth s!"var {x.text}: {t.text} (initialized)" ++ expr (depth + 1) e
  | .loop body c _ =>
    line depth "do" ++ stmts (depth + 1) body ++ line depth "while" ++ expr (depth + 1) c
  | .branch lead cs otherwise _ =>
    line depth s!"branch {lead.text}" ++ cases (depth + 1) cs ++
      match otherwise with
      | none => ""
      | some body => line (depth + 1) "otherwise" ++ stmts (depth + 2) body
  | .ret none _ => line depth "return"
  | .ret (some e) _ => line depth "return" ++ expr (depth + 1) e

def stmts (depth : Nat) (ss : List Stmt) : String :=
  match ss with
  | [] => ""
  | s :: rest => stmt depth s ++ stmts depth rest

def cases (depth : Nat) (cs : List Case) : String :=
  match cs with
  | [] => ""
  | .mk c body :: rest =>
    line depth "case" ++ expr (depth + 1) c ++ line (depth + 1) "then" ++ stmts (depth + 2) body ++
      cases depth rest

end

def param (p : Param) : String := line 1 s!"param {p.name.text}: {p.type.text}"

/-- A function or the entry point: its title, what it gives, and its body. -/
def routine (title : String) (result : TypeExpr) (params : List Param) (body : List Stmt) :
    String :=
  let declared := if body.isEmpty then " (declared)" else ""
  line 0 s!"{title} -> {result.text}{declared}" ++ String.join (params.map param) ++ stmts 1 body

end Outline

def Expr.outline (e : Expr) : String := Outline.expr 0 e

def FunctionDecl.outline (f : FunctionDecl) : String :=
  Outline.routine s!"function {f.name.text}" f.result f.params f.body

def EntryPoint.outline (m : EntryPoint) : String := Outline.routine "main" .integer [] m.body

/-- The functions in source order, and the entry point after them. -/
def Program.outline (p : Program) : String :=
  String.join (p.functions.map FunctionDecl.outline) ++
    match p.main with
    | none => ""
    | some m => m.outline

end Quill
