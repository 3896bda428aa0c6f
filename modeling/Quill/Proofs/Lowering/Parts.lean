import Quill.Proofs.Lowering.Code

/-! # Statements within statements

The code of a body holds code of every statement within it, however deep.
-/
namespace Quill

open Ir (BlockId FuncId Function Module)

mutual

def Stmt.parts : Stmt → List Stmt
  | .loop body c span => .loop body c span :: Stmt.partsAll body
  | .branch lead cs none span => .branch lead cs none span :: Case.partsAll cs
  | .branch lead cs (some body) span =>
    .branch lead cs (some body) span :: (Case.partsAll cs ++ Stmt.partsAll body)
  | s => [s]

def Stmt.partsAll : List Stmt → List Stmt
  | [] => []
  | s :: rest => s.parts ++ Stmt.partsAll rest

def Case.partsAll : List Case → List Stmt
  | [] => []
  | .mk _ body :: rest => Stmt.partsAll body ++ Case.partsAll rest

end

section

variable (m : Module) (table : List (String × FuncId)) (f : Function) (frame : BodyFrame)

/-- There is code of the statement somewhere. -/
def HasStmtCode (a : Stmt) : Prop := ∃ s p s' q, StmtCode m table f frame a s p s' q

end

mutual

theorem StmtCode.parts {m : Module} {table : List (String × FuncId)} {f : Function}
    {frame : BodyFrame} {a : Stmt} {s s' : Scopes} {p q : Spot}
    (h : StmtCode m table f frame a s p s' q) : ∀ b ∈ a.parts, HasStmtCode m table f frame b := by
  have hself : HasStmtCode m table f frame a := ⟨s, p, s', q, h⟩
  cases h with
  | loop _ hbody _ _ => exact List.forall_mem_cons.2 ⟨hself, hbody.parts⟩
  | branch _ hcases _ => exact List.forall_mem_cons.2 ⟨hself, hcases.parts⟩
  | branchElse _ hcases _ hbody _ =>
    exact List.forall_mem_cons.2 ⟨hself, List.forall_mem_append.2 ⟨hcases.parts, hbody.parts⟩⟩
  | _ => exact List.forall_mem_singleton.2 hself

theorem StmtsCode.parts {m : Module} {table : List (String × FuncId)} {f : Function}
    {frame : BodyFrame} {body : List Stmt} {s s' : Scopes} {p q : Spot}
    (h : StmtsCode m table f frame body s p s' q) :
    ∀ b ∈ Stmt.partsAll body, HasStmtCode m table f frame b := by
  cases h with
  | nil => exact List.forall_mem_nil _
  | cons ha hrest => exact List.forall_mem_append.2 ⟨ha.parts, hrest.parts⟩

theorem CasesCode.parts {m : Module} {table : List (String × FuncId)} {f : Function}
    {frame : BodyFrame} {exit : BlockId} {cs : List Case} {s : Scopes} {p q : Spot}
    (h : CasesCode m table f frame exit cs s p q) :
    ∀ b ∈ Case.partsAll cs, HasStmtCode m table f frame b := by
  cases h with
  | nil => exact List.forall_mem_nil _
  | cons _ _ hbody _ hrest => exact List.forall_mem_append.2 ⟨hbody.parts, hrest.parts⟩

end

end Quill
