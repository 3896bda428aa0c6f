import Quill.Lowering.Program
import Quill.Proofs.Syntax.Grammar

/-! # Trees without their places

Two sources that say the same in different places have trees that differ in nothing but spans. The
bare tree is what remains when every span is forgotten.
-/
namespace Quill

def Span.nowhere : Span := .point .start

def Ident.bare (x : Ident) : Ident := ⟨x.text, .nowhere⟩

namespace Expr

mutual

def bare : Expr → Expr
  | int n _ => int n .nowhere
  | float x _ => float x .nowhere
  | var x => var x.bare
  | binary op lhs rhs => binary op lhs.bare rhs.bare
  | semi op lead rhs _ => semi op lead.bare rhs.bare .nowhere
  | call callee args _ => call callee.bare (bareAll args) .nowhere

def bareAll : List Expr → List Expr
  | [] => []
  | e :: rest => e.bare :: bareAll rest

end

theorem level_bare (e : Expr) : e.bare.level = e.level := by
  cases e <;> simp [bare, level]

mutual

/-- Whether operators are grouped by precedence is no matter of places. -/
theorem isGrouped_bare (e : Expr) : e.bare.IsGrouped ↔ e.IsGrouped := by
  match e with
  | int .. => exact Iff.rfl
  | float .. => exact Iff.rfl
  | var _ => exact Iff.rfl
  | binary op lhs rhs =>
    simp only [bare, IsGrouped, isGrouped_bare lhs, isGrouped_bare rhs, level_bare]
  | semi .. => exact Iff.rfl
  | call callee args span => exact allGrouped_bareAll args

theorem allGrouped_bareAll (es : List Expr) : AllGrouped (bareAll es) ↔ AllGrouped es := by
  match es with
  | [] => exact Iff.rfl
  | e :: rest => simp only [bareAll, AllGrouped, isGrouped_bare e, allGrouped_bareAll rest]

end

end Expr

mutual

def Stmt.bare : Stmt → Stmt
  | .assert c _ => .assert c.bare .nowhere
  | .read x _ => .read x.bare .nowhere
  | .abort _ => .abort .nowhere
  | .call callee args _ => .call callee.bare (Expr.bareAll args) .nowhere
  | .print e _ => .print e.bare .nowhere
  | .assign x e _ => .assign x.bare e.bare .nowhere
  | .declare x type init _ => .declare x.bare type (init.map Expr.bare) .nowhere
  | .loop body c _ => .loop (Stmt.bareAll body) c.bare .nowhere
  | .branch lead cs none _ => .branch lead.bare (Case.bareAll cs) none .nowhere
  | .branch lead cs (some body) _ =>
    .branch lead.bare (Case.bareAll cs) (some (Stmt.bareAll body)) .nowhere
  | .ret value _ => .ret (value.map Expr.bare) .nowhere

def Stmt.bareAll : List Stmt → List Stmt
  | [] => []
  | s :: rest => s.bare :: Stmt.bareAll rest

def Case.bareAll : List Case → List Case
  | [] => []
  | .mk c body :: rest => .mk c.bare (Stmt.bareAll body) :: Case.bareAll rest

end

theorem Stmt.isEmpty_bareAll (body : List Stmt) : (Stmt.bareAll body).isEmpty = body.isEmpty := by
  cases body <;> rfl

def Param.bare (p : Param) : Param := ⟨p.name.bare, p.type⟩

def FunctionDecl.bare (f : FunctionDecl) : FunctionDecl :=
  ⟨f.name.bare, f.result, f.params.map Param.bare, Stmt.bareAll f.body, .nowhere⟩

def EntryPoint.bare (m : EntryPoint) : EntryPoint := ⟨Stmt.bareAll m.body, .nowhere⟩

namespace Routine

def bare (r : Routine) : Routine :=
  ⟨r.name, .nowhere, r.result, r.params.map Param.bare, Stmt.bareAll r.body, .nowhere, r.isEntry⟩

@[simp] theorem name_bare (r : Routine) : r.bare.name = r.name := rfl

@[simp] theorem result_bare (r : Routine) : r.bare.result = r.result := rfl

@[simp] theorem isEntry_bare (r : Routine) : r.bare.isEntry = r.isEntry := rfl

@[simp] theorem body_bare (r : Routine) : r.bare.body = Stmt.bareAll r.body := rfl

theorem paramTypes_bare (r : Routine) :
    r.bare.params.map (·.type.ty) = r.params.map (·.type.ty) := by
  simp [bare, Param.bare, Function.comp_def]

end Routine

theorem EntryPoint.routine_bare (m : EntryPoint) : m.bare.routine = m.routine.bare := rfl

end Quill
