import Mathlib.Data.List.Nodup
import Quill.Lowering.Program
import Quill.Proofs.Lowering.Numbers

/-! # Static rules

Which programs are well typed, said on the syntax tree alone. An expression has at most one type;
a statement is well typed in a context, and a declaration extends the context of what follows it.
-/
namespace Quill

open Ir (Ty)

/-- The variables in sight with their types, one frame for each level of nesting, the innermost
first. -/
abbrev Context := List (List (String × Ty))

namespace Context

def enter (Γ : Context) : Context := [] :: Γ

def bind (Γ : Context) (x : String) (ty : Ty) : Context := ((x, ty) :: Γ.headD []) :: Γ.tail

def definedHere (Γ : Context) (x : String) : Bool :=
  Γ.head?.any fun frame => (frame.lookup x).isSome

def find? (Γ : Context) (x : String) : Option Ty := Γ.findSome? (List.lookup x)

def ofParams (ps : List Param) : Context :=
  [(ps.map fun x => (x.name.text, x.type.ty)).reverse]

end Context

/-- Values are converted between numbers, and left alone otherwise. -/
def Ir.Ty.Converts (source target : Ty) : Prop :=
  source = target ∨ (source.isNumber = true ∧ target.isNumber = true)

namespace Operator

/-- Pointers are only compared for equality, and fractions are not shifted. -/
def Admits (op : Operator) (ty : Ty) : Prop :=
  (ty.isPointer = true → op = eq) ∧ (ty.isFloat = true → op.isShift = false)

/-- The type of the result for operands of one type. -/
def resultTy (op : Operator) (ty : Ty) : Ty := if op.isComparison then .i1 else ty

end Operator

def literalTy (n : UInt64) : Ty := if n.toNat < 2 ^ (31 : Nat) then .i32 else .i64

section

/- The functions that may be called, declared anywhere in the program. -/
variable (fs : List FunctionDecl)

mutual

inductive ExprTyped (Γ : Context) : Expr → Ty → Prop
  | int {n span} : ExprTyped Γ (.int n span) (literalTy n)
  | float {x span} : ExprTyped Γ (.float x span) .f64
  | var {x ty} : Γ.find? x.text = some ty → ExprTyped Γ (.var x) ty
  | binary {op lhs rhs tl tr ty} : ExprTyped Γ lhs tl → ExprTyped Γ rhs tr →
      resultType tl tr = .ok ty → op.Admits ty → ExprTyped Γ (.binary op lhs rhs) (op.resultTy ty)
  | semi {op lead rhs span tl tr ty} : Γ.find? lead.text = some tl → ExprTyped Γ rhs tr →
      resultType tl tr = .ok ty → op.Admits ty →
      ExprTyped Γ (.semi op lead rhs span) (op.resultTy ty)
  | call {callee args span g} : g ∈ fs → g.name.text = callee.text →
      ArgsTyped Γ args (g.params.map fun x => x.type.ty) →
      ExprTyped Γ (.call callee args span) g.result.ty

/-- As many arguments as there are types, each of which can be converted to its type. -/
inductive ArgsTyped (Γ : Context) : List Expr → List Ty → Prop
  | nil : ArgsTyped Γ [] []
  | cons {arg args source ty types} : ExprTyped Γ arg source → source.Converts ty →
      ArgsTyped Γ args types → ArgsTyped Γ (arg :: args) (ty :: types)

end

/-- The value of the expression can be converted to the type. -/
def ExprFits (Γ : Context) (e : Expr) (ty : Ty) : Prop :=
  ∃ source, ExprTyped fs Γ e source ∧ source.Converts ty

/-- The expression is a number: it can be printed, and serves as a condition. -/
def ExprNumber (Γ : Context) (e : Expr) : Prop := ∃ ty, ExprTyped fs Γ e ty ∧ ty.isNumber = true

def Stmt.after (Γ : Context) : Stmt → Context
  | .declare x type _ _ => Γ.bind x.text type.ty
  | _ => Γ

/- The type that the function gives. -/
variable (result : Ty)

mutual

inductive StmtTyped : Context → Stmt → Prop
  | assert {Γ c span} : ExprNumber fs Γ c → StmtTyped Γ (.assert c span)
  | read {Γ x ty span} : Γ.find? x.text = some ty → ty.isNumber = true →
      StmtTyped Γ (.read x span)
  | abort {Γ span} : StmtTyped Γ (.abort span)
  | call {Γ callee args span ty} : ExprTyped fs Γ (.call callee args span) ty →
      StmtTyped Γ (.call callee args span)
  | print {Γ e span} : ExprNumber fs Γ e → StmtTyped Γ (.print e span)
  | assign {Γ x e ty span} : Γ.find? x.text = some ty → ExprFits fs Γ e ty →
      StmtTyped Γ (.assign x e span)
  | declare {Γ x type init span} : type.ty ≠ .void → Γ.definedHere x.text = false →
      (∀ e ∈ init, ExprFits fs Γ e type.ty) → StmtTyped Γ (.declare x type init span)
  | loop {Γ body c span} : StmtsTyped Γ.enter body → ExprNumber fs Γ c →
      StmtTyped Γ (.loop body c span)
  | branch {Γ lead cs span} : CasesTyped Γ cs → StmtTyped Γ (.branch lead cs none span)
  | branchElse {Γ lead cs body span} : CasesTyped Γ cs → StmtsTyped Γ.enter body →
      StmtTyped Γ (.branch lead cs (some body) span)
  | ret {Γ span} : StmtTyped Γ (.ret none span)
  | retAs {Γ e span} : result ≠ .void → ExprFits fs Γ e result → StmtTyped Γ (.ret (some e) span)

inductive StmtsTyped : Context → List Stmt → Prop
  | nil {Γ} : StmtsTyped Γ []
  | cons {Γ s rest} : StmtTyped Γ s → StmtsTyped (s.after Γ) rest → StmtsTyped Γ (s :: rest)

/-- Each condition is outside of the frame of its body. -/
inductive CasesTyped : Context → List Case → Prop
  | nil {Γ} : CasesTyped Γ []
  | cons {Γ c body rest} : ExprNumber fs Γ c → StmtsTyped Γ.enter body → CasesTyped Γ rest →
      CasesTyped Γ (.mk c body :: rest)

end

end

/-- A body, if there is one, is well typed in a frame that holds the parameters. -/
def Routine.WellTyped (fs : List FunctionDecl) (r : Routine) : Prop :=
  r.body ≠ [] → (r.params.map fun x => x.name.text).Nodup ∧
    StmtsTyped fs r.result.ty (.ofParams r.params) r.body

structure Program.WellTyped (p : Program) : Prop where
  notReserved : ∀ f ∈ p.functions, f.name.text ∉ ["printf", "scanf", "abort"]
  names : (p.functions.map fun f => f.name.text).Nodup
  bodies : ∀ r ∈ p.routines, r.WellTyped p.functions

/-! ### Types are unique -/

section

variable {fs : List FunctionDecl} {Γ : Context}

theorem ArgsTyped.length_eq : ∀ {args : List Expr} {types : List Ty}, ArgsTyped fs Γ args types →
    args.length = types.length
  | _, _, .nil => rfl
  | _, _, .cons _ _ h => congrArg (· + 1) h.length_eq

/-- An expression has one type, as functions have names of their own. -/
theorem ExprTyped.unique (hfs : (fs.map fun f => f.name.text).Nodup) {e : Expr} {s t : Ty}
    (hs : ExprTyped fs Γ e s) (ht : ExprTyped fs Γ e t) : s = t := by
  match e, hs, ht with
  | .int .., .int, .int => rfl
  | .float .., .float, .float => rfl
  | .var x, .var hs, .var ht => exact Option.some.inj (hs.symm.trans ht)
  | .binary op lhs rhs, .binary hl hr hres _, .binary hl' hr' hres' _ =>
    obtain rfl := unique hfs hl hl'
    obtain rfl := unique hfs hr hr'
    rw [Except.ok.inj (hres.symm.trans hres')]
  | .semi op lead rhs span, .semi hl hr hres _, .semi hl' hr' hres' _ =>
    obtain rfl := Option.some.inj (hl.symm.trans hl')
    obtain rfl := unique hfs hr hr'
    rw [Except.ok.inj (hres.symm.trans hres')]
  | .call callee args span, .call hg hname _, .call hg' hname' _ =>
    rw [List.inj_on_of_nodup_map hfs hg hg' (hname.trans hname'.symm)]

theorem ExprTyped.semi_iff {op : Operator} {lead : Ident} {rhs : Expr} {span : Span} {ty : Ty} :
    ExprTyped fs Γ (.semi op lead rhs span) ty ↔
      ExprTyped fs Γ (.binary op (.var lead) rhs) ty := by
  constructor
  · rintro (_ | _ | _ | _ | ⟨hlead, hrhs, hres, hadmits⟩ | _)
    exact .binary (.var hlead) hrhs hres hadmits
  · rintro (_ | _ | _ | ⟨hlhs, hrhs, hres, hadmits⟩ | _ | _)
    cases hlhs with
    | var hlead => exact .semi hlead hrhs hres hadmits

/-! ### Expressions without a type -/

def Untyped (fs : List FunctionDecl) (Γ : Context) (e : Expr) : Prop :=
  ∀ ty, ¬ExprTyped fs Γ e ty

namespace Untyped

variable {op : Operator} {lhs rhs e : Expr}

theorem of_lhs (h : Untyped fs Γ lhs) : Untyped fs Γ (.binary op lhs rhs) := by
  rintro ty (_ | _ | _ | ⟨hlhs, -, -, -⟩ | _ | _)
  exact h _ hlhs

theorem of_rhs (h : Untyped fs Γ rhs) : Untyped fs Γ (.binary op lhs rhs) := by
  rintro ty (_ | _ | _ | ⟨-, hrhs, -, -⟩ | _ | _)
  exact h _ hrhs

theorem semi_iff {lead : Ident} {span : Span} :
    Untyped fs Γ (.semi op lead rhs span) ↔ Untyped fs Γ (.binary op (.var lead) rhs) :=
  forall_congr' fun _ => not_congr ExprTyped.semi_iff

theorem not_number (h : Untyped fs Γ e) : ¬ExprNumber fs Γ e :=
  fun ⟨ty, he, _⟩ => h ty he

theorem not_fits {ty : Ty} (h : Untyped fs Γ e) : ¬ExprFits fs Γ e ty :=
  fun ⟨source, he, _⟩ => h source he

end Untyped

/-! ### Expressions with a type -/

theorem ExprFits.of_typed (hfs : (fs.map fun f => f.name.text).Nodup) {e : Expr} {s : Ty}
    (hs : ExprTyped fs Γ e s) (ty : Ty) : ExprFits fs Γ e ty ↔ s.Converts ty := by
  constructor
  · rintro ⟨s', hs', hc⟩
    exact hs.unique hfs hs' ▸ hc
  · exact fun hc => ⟨s, hs, hc⟩

theorem ExprNumber.of_typed (hfs : (fs.map fun f => f.name.text).Nodup) {e : Expr} {s : Ty}
    (hs : ExprTyped fs Γ e s) : ExprNumber fs Γ e ↔ s.isNumber = true := by
  constructor
  · rintro ⟨s', hs', hn⟩
    exact hs.unique hfs hs' ▸ hn
  · exact fun hn => ⟨s, hs, hn⟩

end

end Quill
