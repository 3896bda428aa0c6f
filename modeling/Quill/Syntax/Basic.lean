import Quill.Token

/-! # Syntax trees

What a source file says, with the place of each part. A branch names its lead variable once; the
conditions of its cases share it as their left operand.
-/
namespace Quill

/-- A name where it stands in the source. -/
structure Ident where
  text : String
  span : Span
deriving DecidableEq, Repr

/-- A type as written: a base type or a pointer to it. -/
structure TypeExpr where
  base : BaseType
  isPointer : Bool
deriving DecidableEq, Repr

namespace TypeExpr

def void : TypeExpr := ⟨.void, false⟩

def integer : TypeExpr := ⟨.integer, false⟩

def isVoid (t : TypeExpr) : Bool := t == void

def text (t : TypeExpr) : String := (if t.isPointer then "*" else "") ++ t.base.text

end TypeExpr

inductive Expr where
  | int (value : UInt64) (span : Span)
  | float (value : Float) (span : Span)
  | var (name : Ident)
  | binary (op : Operator) (lhs rhs : Expr)
  /-- The condition of a case. Its left operand is the lead variable, which is written at the head of
  the branch only; the span covers the operator, if that is written, and the right operand. -/
  | semi (op : Operator) (lead : Ident) (rhs : Expr) (span : Span)
  | call (callee : Ident) (args : List Expr) (span : Span)
deriving Repr

namespace Expr

def span : Expr → Span
  | int _ s | float _ s | semi _ _ _ s | call _ _ s => s
  | var x => x.span
  | binary _ lhs rhs => lhs.span.through rhs.span

end Expr

mutual

inductive Stmt where
  | assert (condition : Expr) (span : Span)
  | read (target : Ident) (span : Span)
  | abort (span : Span)
  /-- A call for its effects. -/
  | call (callee : Ident) (args : List Expr) (span : Span)
  | print (value : Expr) (span : Span)
  | assign (target : Ident) (value : Expr) (span : Span)
  | declare (target : Ident) (type : TypeExpr) (init : Option Expr) (span : Span)
  /-- Runs the body, and again as long as the condition holds. -/
  | loop (body : List Stmt) (condition : Expr) (span : Span)
  | branch (lead : Ident) (cases : List Case) (otherwise : Option (List Stmt)) (span : Span)
  | ret (value : Option Expr) (span : Span)

inductive Case where
  | mk (condition : Expr) (body : List Stmt)

end

namespace Stmt

def span : Stmt → Span
  | assert _ s | read _ s | abort s | call _ _ s | print _ s | assign _ _ s | declare _ _ _ s
  | loop _ _ s | branch _ _ _ s | ret _ s => s

end Stmt

structure Param where
  name : Ident
  type : TypeExpr
deriving DecidableEq, Repr

structure FunctionDecl where
  name : Ident
  result : TypeExpr
  params : List Param
  /-- An empty body declares the function without defining it. -/
  body : List Stmt
  span : Span

/-- The entry point: it takes nothing and gives an integer. -/
structure EntryPoint where
  body : List Stmt
  span : Span

structure Program where
  /-- The functions in source order. -/
  functions : List FunctionDecl
  main : Option EntryPoint
  fileName : String

end Quill
