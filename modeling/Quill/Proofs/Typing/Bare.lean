import Mathlib.Tactic.MkIffOfInductiveProp
import Quill.Proofs.Syntax.Bare
import Quill.Proofs.Typing.Rules

/-! # Types have no places

The static rules never look at a span, nor at the order of the functions that may be called. So
what is the same but for these is typed alike.
-/
namespace Quill

open Ir (Ty)

/-- The function can be called by the name with values of the types, and gives a value of type
`result`. -/
def FunctionDecl.HasSignature (g : FunctionDecl) (name : String) (types : List Ty) (result : Ty) :
    Prop :=
  g.name.text = name ∧ g.params.map (·.type.ty) = types ∧ g.result.ty = result

/-- The same calls can be made of both lists of functions. -/
def SameSignatures (fs fs' : List FunctionDecl) : Prop :=
  ∀ name types result, (∃ g ∈ fs, g.HasSignature name types result) ↔
    ∃ g ∈ fs', g.HasSignature name types result

variable {fs fs' : List FunctionDecl}

theorem SameSignatures.refl (fs : List FunctionDecl) : SameSignatures fs fs :=
  fun _ _ _ => Iff.rfl

theorem exprTyped_call {Γ : Context} {callee : Ident} {args : List Expr} {span : Span} {ty : Ty} :
    ExprTyped fs Γ (.call callee args span) ty ↔
      ∃ types, (∃ g ∈ fs, g.HasSignature callee.text types ty) ∧ ArgsTyped fs Γ args types := by
  constructor
  · rintro (_ | _ | _ | _ | _ | ⟨hg, hname, hargs⟩)
    exact ⟨_, ⟨_, hg, hname, rfl, rfl⟩, hargs⟩
  · rintro ⟨types, ⟨g, hg, hname, rfl, rfl⟩, hargs⟩
    exact .call hg hname hargs

mutual

theorem exprTyped_bare (h : SameSignatures fs fs') (e : Expr) (Γ : Context) (ty : Ty) :
    ExprTyped fs Γ e ty ↔ ExprTyped fs' Γ e.bare ty := by
  match e with
  | .int .. =>
    constructor
    · rintro ⟨⟩
      exact .int
    · rintro ⟨⟩
      exact .int
  | .float .. =>
    constructor
    · rintro ⟨⟩
      exact .float
    · rintro ⟨⟩
      exact .float
  | .var x =>
    constructor
    · rintro (_ | _ | hx)
      exact .var hx
    · rintro (_ | _ | hx)
      exact .var hx
  | .binary op lhs rhs =>
    constructor
    · rintro (_ | _ | _ | ⟨hl, hr, hres, hop⟩)
      exact .binary ((exprTyped_bare h lhs Γ _).1 hl) ((exprTyped_bare h rhs Γ _).1 hr) hres hop
    · rintro (_ | _ | _ | ⟨hl, hr, hres, hop⟩)
      exact .binary ((exprTyped_bare h lhs Γ _).2 hl) ((exprTyped_bare h rhs Γ _).2 hr) hres hop
  | .semi op lead rhs span =>
    constructor
    · rintro (_ | _ | _ | _ | ⟨hl, hr, hres, hop⟩)
      exact .semi hl ((exprTyped_bare h rhs Γ _).1 hr) hres hop
    · rintro (_ | _ | _ | _ | ⟨hl, hr, hres, hop⟩)
      exact .semi hl ((exprTyped_bare h rhs Γ _).2 hr) hres hop
  | .call callee args span =>
    simp only [Expr.bare, exprTyped_call, h _ _ _, argsTyped_bare h args Γ, Ident.bare]

theorem argsTyped_bare (h : SameSignatures fs fs') (args : List Expr) (Γ : Context)
    (types : List Ty) : ArgsTyped fs Γ args types ↔ ArgsTyped fs' Γ (Expr.bareAll args) types := by
  match args with
  | [] =>
    constructor
    · rintro ⟨⟩
      exact .nil
    · rintro ⟨⟩
      exact .nil
  | arg :: args =>
    constructor
    · rintro (_ | ⟨harg, hconverts, hargs⟩)
      exact .cons ((exprTyped_bare h arg Γ _).1 harg) hconverts ((argsTyped_bare h args Γ _).1 hargs)
    · rintro (_ | ⟨harg, hconverts, hargs⟩)
      exact .cons ((exprTyped_bare h arg Γ _).2 harg) hconverts ((argsTyped_bare h args Γ _).2 hargs)

end

variable {Γ : Context} {result : Ty}

theorem exprNumber_bare (h : SameSignatures fs fs') (e : Expr) :
    ExprNumber fs Γ e ↔ ExprNumber fs' Γ e.bare := by
  simp only [ExprNumber, exprTyped_bare h e]

theorem exprFits_bare (h : SameSignatures fs fs') (e : Expr) (ty : Ty) :
    ExprFits fs Γ e ty ↔ ExprFits fs' Γ e.bare ty := by
  simp only [ExprFits, exprTyped_bare h e]

theorem Stmt.after_bare (s : Stmt) : s.bare.after Γ = s.after Γ := by
  match s with
  | .branch _ _ none _ => rfl
  | .branch _ _ (some _) _ => rfl
  | .assert .. | .read .. | .abort _ | .call .. | .print .. | .assign .. | .declare .. | .loop ..
  | .ret .. => rfl

-- what the rules ask of a statement, as one equivalence
attribute [mk_iff] StmtTyped

mutual

theorem stmtTyped_bare (h : SameSignatures fs fs') (s : Stmt) (Γ : Context) :
    StmtTyped fs result Γ s ↔ StmtTyped fs' result Γ s.bare := by
  match s with
  | .assert c _ => simp [stmtTyped_iff, Stmt.bare, exprNumber_bare h]
  | .read .. => simp [stmtTyped_iff, Stmt.bare, Ident.bare]
  | .abort _ => simp [stmtTyped_iff, Stmt.bare]
  | .call callee args span =>
    have hcall := exprTyped_bare h (.call callee args span) Γ
    simp only [Expr.bare] at hcall
    simp [stmtTyped_iff, Stmt.bare, hcall]
  | .print e _ => simp [stmtTyped_iff, Stmt.bare, exprNumber_bare h]
  | .assign x e _ => simp [stmtTyped_iff, Stmt.bare, Ident.bare, exprFits_bare h]
  | .declare .. => simp [stmtTyped_iff, Stmt.bare, Ident.bare, exprFits_bare h]
  | .loop body c _ =>
    simp [stmtTyped_iff, Stmt.bare, exprNumber_bare h, stmtsTyped_bare h body]
  | .branch lead cs none _ => simp [stmtTyped_iff, Stmt.bare, casesTyped_bare h cs Γ]
  | .branch lead cs (some body) _ =>
    simp [stmtTyped_iff, Stmt.bare, casesTyped_bare h cs Γ, stmtsTyped_bare h body]
  | .ret none _ => simp [stmtTyped_iff, Stmt.bare]
  | .ret (some e) _ => simp [stmtTyped_iff, Stmt.bare, exprFits_bare h]

theorem stmtsTyped_bare (h : SameSignatures fs fs') (body : List Stmt) (Γ : Context) :
    StmtsTyped fs result Γ body ↔ StmtsTyped fs' result Γ (Stmt.bareAll body) := by
  match body with
  | [] =>
    constructor
    · rintro ⟨⟩
      exact .nil
    · rintro ⟨⟩
      exact .nil
  | s :: rest =>
    have hs := stmtTyped_bare h s Γ
    have hrest := stmtsTyped_bare h rest (s.after Γ)
    constructor
    · intro hbody
      cases hbody with
      | cons hfirst hafter => exact .cons (hs.1 hfirst) (s.after_bare ▸ hrest.1 hafter)
    · intro hbody
      cases hbody with
      | cons hfirst hafter => exact .cons (hs.2 hfirst) (hrest.2 (s.after_bare ▸ hafter))

theorem casesTyped_bare (h : SameSignatures fs fs') (cs : List Case) (Γ : Context) :
    CasesTyped fs result Γ cs ↔ CasesTyped fs' result Γ (Case.bareAll cs) := by
  match cs with
  | [] =>
    constructor
    · rintro ⟨⟩
      exact .nil
    · rintro ⟨⟩
      exact .nil
  | .mk c body :: rest =>
    have hcondition := exprNumber_bare (Γ := Γ) h c
    have hbody := stmtsTyped_bare h body Γ.enter
    have hrest := casesTyped_bare h rest Γ
    constructor
    · intro hcs
      cases hcs with
      | cons hc hb hr => exact .cons (hcondition.1 hc) (hbody.1 hb) (hrest.1 hr)
    · intro hcs
      cases hcs with
      | cons hc hb hr => exact .cons (hcondition.2 hc) (hbody.2 hb) (hrest.2 hr)

end

/-! ### Programs -/

theorem Context.ofParams_bare (ps : List Param) :
    ofParams (ps.map Param.bare) = ofParams ps := by
  simp [ofParams, Param.bare, Ident.bare, Function.comp_def]

theorem Routine.wellTyped_bare (h : SameSignatures fs fs') (r : Routine) :
    r.WellTyped fs ↔ r.bare.WellTyped fs' := by
  have hempty : Stmt.bareAll r.body = [] ↔ r.body = [] := by
    rw [← List.isEmpty_iff, Stmt.isEmpty_bareAll, List.isEmpty_iff]
  have hnames : (r.params.map Param.bare).map (·.name.text) = r.params.map (·.name.text) := by
    simp [Param.bare, Ident.bare, Function.comp_def]
  simp only [WellTyped, bare, hempty, hnames, Context.ofParams_bare, stmtsTyped_bare h r.body, ne_eq]

end Quill
