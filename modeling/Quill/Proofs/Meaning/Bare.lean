import Quill.Proofs.Meaning.Evaluator
import Quill.Proofs.Syntax.Bare

/-! # Meaning has no places

The evaluator never looks at a span. So bodies that are the same but for their places are evaluated
alike, if calls find functions that are the same but for their places.
-/
namespace Quill

namespace Meaning

/-- The settings are the same up to the places of the functions that can be called. -/
structure Setting.Alike (S S' : Setting) : Prop where
  name : S.name = S'.name
  result : S.result = S'.result
  fuel : S.fuel = S'.fuel
  callable : ∀ x, (S.callable? x).map Routine.bare = (S'.callable? x).map Routine.bare
  call : ∀ r r' vs, r.bare = r'.bare → S.call r vs = S'.call r' vs

theorem known_none_bind {α β : Type} (f : α → Eval β) : known none >>= f = stuck := rfl

variable {S S' : Setting}

mutual

theorem expr_bare (h : S.Alike S') (e : Expr) (env : Env) :
    expr S env e = expr S' env e.bare := by
  match e with
  | .int .. => simp only [expr, Expr.bare]
  | .float .. => simp only [expr, Expr.bare]
  | .var _ => simp only [expr, Expr.bare, Ident.bare]
  | .binary op lhs rhs => simp only [expr, Expr.bare, expr_bare h lhs, expr_bare h rhs, h.name]
  | .semi op lead rhs _ => simp only [expr, Expr.bare, Ident.bare, expr_bare h rhs, h.name]
  | .call callee args _ =>
    simp only [expr, Expr.bare, Ident.bare]
    have hcallable := h.callable callee.text
    cases hr : S.callable? callee.text with
    | none =>
      rw [hr, Option.map_none] at hcallable
      rw [Option.map_eq_none_iff.1 hcallable.symm, known_none_bind, known_none_bind]
    | some r =>
      rw [hr, Option.map_some] at hcallable
      obtain ⟨r', hr', hbare⟩ := Option.map_eq_some_iff.1 hcallable.symm
      have htypes : r.params.map (·.type.ty) = r'.params.map (·.type.ty) := by
        rw [← r.paramTypes_bare, ← hbare, r'.paramTypes_bare]
      have hresult : r.bare.result = r'.bare.result := congrArg Routine.result hbare.symm
      rw [Routine.result_bare, Routine.result_bare] at hresult
      simp only [hr', known, pure_bind, arguments_bare h args, htypes, hresult,
        h.call r r' _ hbare.symm]

theorem arguments_bare (h : S.Alike S') (args : List Expr) (env : Env) (types : List Ir.Ty) :
    arguments S env args types = arguments S' env (Expr.bareAll args) types := by
  match args, types with
  | [], [] => simp only [arguments, Expr.bareAll]
  | [], _ :: _ => simp only [arguments, Expr.bareAll]
  | _ :: _, [] => simp only [arguments, Expr.bareAll]
  | arg :: args, ty :: types =>
    simp only [arguments, Expr.bareAll, expr_bare h arg, arguments_bare h args]

end

theorem condition_bare (h : S.Alike S') (c : Expr) (env : Env) :
    condition S env c = condition S' env c.bare := by
  simp only [condition, expr_bare h c]

theorem initial_bare (h : S.Alike S') (init : Option Expr) (env : Env) (ty : Ir.Ty) :
    initial S env ty init = initial S' env ty (init.map Expr.bare) := by
  cases init with
  | none => rfl
  | some e => simp only [initial, Option.map_some, expr_bare h e]

mutual

theorem stmt_bare (h : S.Alike S') (s : Stmt) (env : Env) :
    stmt S env s = stmt S' env s.bare := by
  match s with
  | .assert c _ => simp only [stmt, Stmt.bare, condition_bare h c]
  | .read .. => simp only [stmt, Stmt.bare, Ident.bare]
  | .abort _ => simp only [stmt, Stmt.bare]
  | .call callee args span =>
    have hcall := expr_bare h (.call callee args span) env
    simp only [stmt, Stmt.bare, hcall, Expr.bare]
  | .print e _ => simp only [stmt, Stmt.bare, expr_bare h e]
  | .assign x e _ => simp only [stmt, Stmt.bare, expr_bare h e, Ident.bare]
  | .declare x type init _ => simp only [stmt, Stmt.bare, initial_bare h init, Ident.bare]
  | .loop body c _ =>
    simp only [stmt, Stmt.bare, stmts_bare h body, condition_bare h c, h.fuel]
  | .branch lead cs none _ => simp only [stmt, Stmt.bare, cases_bare h cs]
  | .branch lead cs (some body) _ =>
    simp only [stmt, Stmt.bare, cases_bare h cs, stmts_bare h body]
  | .ret none _ => simp only [stmt, Stmt.bare, Option.map_none]
  | .ret (some e) _ => simp only [stmt, Stmt.bare, Option.map_some, expr_bare h e, h.result]

theorem stmts_bare (h : S.Alike S') (body : List Stmt) (env : Env) :
    stmts S env body = stmts S' env (Stmt.bareAll body) := by
  match body with
  | [] => simp only [stmts, Stmt.bareAll]
  | s :: rest => simp only [stmts, Stmt.bareAll, stmt_bare h s, stmts_bare h rest]

theorem cases_bare (h : S.Alike S') (cs : List Case) (env : Env) :
    cases S env cs = cases S' env (Case.bareAll cs) := by
  match cs with
  | [] => simp only [cases, Case.bareAll]
  | .mk c body :: rest =>
    simp only [cases, Case.bareAll, condition_bare h c, stmts_bare h body, cases_bare h rest]

end

/-! ### Programs -/

theorem parameters_bare (ps : List Param) (env : Env) (vs : List Value) :
    parameters env ps vs = parameters env (ps.map Param.bare) vs := by
  induction ps generalizing env vs with
  | nil => rfl
  | cons p ps ih =>
    cases vs with
    | nil => rfl
    | cons v vs => exact ih (env.declare p.name.text ⟨p.type.ty, v⟩) vs

/-- Up to places, a name calls the same function in both lists. -/
def SameCallables (rs rs' : List Routine) : Prop :=
  ∀ x, (rs.find? fun r => !r.isEntry && r.name == x).map Routine.bare =
    (rs'.find? fun r => !r.isEntry && r.name == x).map Routine.bare

variable {rs rs' : List Routine}

theorem SameCallables.refl (rs : List Routine) : SameCallables rs rs := fun _ => rfl

/-- One step into a function; deeper calls are taken to be alike. -/
theorem run_body {fuel room : Nat} (h : SameCallables rs rs')
    (hcall : ∀ r r' vs, r.bare = r'.bare → run rs fuel room r vs = run rs' fuel room r' vs)
    (r : Routine) (vs : List Value) :
    run rs fuel (room + 1) r vs = run rs' fuel (room + 1) r.bare vs := by
  have halike : Setting.Alike ⟨rs, r.name, r.result.ty, fuel, run rs fuel room⟩
      ⟨rs', r.name, r.result.ty, fuel, run rs' fuel room⟩ := ⟨rfl, rfl, rfl, h, hcall⟩
  simp only [run, Routine.body_bare, Routine.name_bare, Routine.result_bare, Stmt.isEmpty_bareAll,
    stmts_bare halike r.body, parameters_bare r.params]
  rfl

theorem run_bare {fuel room : Nat} (h : SameCallables rs rs') {r r' : Routine}
    (hr : r.bare = r'.bare) (vs : List Value) :
    run rs fuel room r vs = run rs' fuel room r' vs := by
  induction room generalizing rs rs' r r' vs with
  | zero =>
    have hname : r.bare.name = r'.bare.name := congrArg Routine.name hr
    have hbody : r.bare.body.isEmpty = r'.bare.body.isEmpty := congrArg (·.body.isEmpty) hr
    rw [Routine.name_bare, Routine.name_bare] at hname
    simp only [Routine.body_bare, Stmt.isEmpty_bareAll] at hbody
    simp only [run, hname, hbody]
  | succ room ih =>
    rw [run_body h (fun r r' vs hr => ih h hr vs) r vs, hr]
    exact (run_body (.refl rs') (fun r r' vs hr => ih (.refl rs') hr vs) r' vs).symm

theorem evaluate_bare {p q : Program} (hmain : p.main.map EntryPoint.bare = q.main.map EntryPoint.bare)
    (h : SameCallables p.routines q.routines) (fuel : Nat) (k : Console) :
    evaluate p fuel k = evaluate q fuel k := by
  unfold evaluate
  cases hm : p.main with
  | none =>
    rw [hm, Option.map_none] at hmain
    rw [Option.map_eq_none_iff.1 hmain.symm]
  | some m =>
    rw [hm, Option.map_some] at hmain
    obtain ⟨m', hm', hbare⟩ := Option.map_eq_some_iff.1 hmain.symm
    have hroutine : m.routine.bare = m'.routine.bare := by
      rw [← m.routine_bare, ← hbare, m'.routine_bare]
    rw [hm']
    simp only [run_bare h hroutine]

end Meaning

end Quill
