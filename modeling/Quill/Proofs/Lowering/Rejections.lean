import Quill.Proofs.Lowering.Outcomes
import Quill.Proofs.Syntax.Placed

/-! # Where lowering rejects

Whatever is wrong with a program, the error stands at one of the places that its tree holds.
-/
namespace Quill

open Ir (Build FuncId Operand Ty)

namespace Lower

variable {α : Type} {P : Span → Prop}

/-- If `x` rejects the program, then at a place for which `P` holds. -/
abbrev RejectsAt (P : Span → Prop) (x : Lower α) : Prop := Rejects (fun e => P e.span) x

namespace Rejects

theorem coerce {v : Operand} {target : Ty} {span : Span} {e : Ty → LoweringError} (h : P span) :
    RejectsAt P (Lower.coerce v target span e) := by
  refine (typeOf v).bind fun _ => (coerce? v target).bind fun r => ?_
  cases r with
  | some v => exact pure v
  | none => exact reject h

theorem find? (name : String) : RejectsAt P (Lower.find? name) := get.bind fun _ => pure _

theorem define {x : Ident} {slot : Ir.SlotId} (h : P x.span) :
    RejectsAt P (Lower.define x slot) := by
  refine get.bind fun t => ?_
  split
  · exact misuse _
  · exact guard (reject h) (set _)

/-! ### Expressions -/

theorem load {x : Ident} (h : P x.span) : RejectsAt P (Lower.load x) := by
  refine (find? _).bind fun r => ?_
  cases r with
  | some slot => exact build _
  | none => exact reject h

theorem binary {span : Span} {op : Operator} {l r : Operand} (h : P span) :
    RejectsAt P (Lower.binary span op l r) := by
  refine (typeOf l).bind fun _ => (typeOf r).bind fun _ => ?_
  split
  · exact reject h
  · refine ite (ite (build _) (reject h)) ?_
    refine (convert l _).bind fun l => (convert r _).bind fun r => ite ?_ (operate _ l r)
    split
    · exact operate _ l r
    · exact reject h

theorem callWith {span : Span} {callee : Ident} {count : Nat}
    {args : List Ty → Lower (List Operand)} (h : P span) (hcallee : P callee.span)
    (hargs : ∀ types, RejectsAt P (args types)) :
    RejectsAt P (Lower.callWith span callee count args) := by
  refine get.bind fun t => ?_
  split
  · exact reject hcallee
  · exact (build _).bind fun f => guard (reject h) ((hargs _).bind fun vs => build _)

mutual

theorem expr {e : Expr} (h : e.Placed P) : RejectsAt P (Lower.expr e) := by
  match e with
  | .int .. =>
    unfold Lower.expr
    exact pure _
  | .float .. =>
    unfold Lower.expr
    exact pure _
  | .var x =>
    unfold Lower.expr
    exact load h
  | .binary op lhs rhs =>
    unfold Lower.expr
    exact (expr h.2.1).bind fun l => (expr h.2.2).bind fun r => binary h.1
  | .semi op lead rhs span =>
    unfold Lower.expr
    exact (load h.2.1).bind fun l => (expr h.2.2).bind fun r => binary h.1
  | .call callee args span =>
    unfold Lower.expr
    exact callWith h.1 h.2.1 fun types => arguments h.2.2

theorem arguments {callee : String} {args : List Expr} {types : List Ty}
    (h : Expr.AllPlaced P args) : RejectsAt P (Lower.arguments callee args types) := by
  match args, types with
  | [], _ =>
    unfold Lower.arguments
    exact pure _
  | arg :: args, [] =>
    unfold Lower.arguments
    exact pure _
  | arg :: args, ty :: types =>
    unfold Lower.arguments
    exact (expr h.1).bind fun v => (coerce h.1.span).bind fun v =>
      (arguments h.2).bind fun vs => pure _

end

theorem truth {span : Span} {v : Operand} (h : P span) : RejectsAt P (Lower.truth span v) :=
  (build _).bind fun _ => ite (pure _) ((typeOf v).bind fun _ =>
    ite (build _) (ite (build _) (reject h)))

theorem condition {e : Expr} (h : e.Placed P) : RejectsAt P (Lower.condition e) :=
  (expr h).bind fun _ => truth h.span

/-! ### Statements -/

theorem assert {c : Expr} (h : c.Placed P) : RejectsAt P (Lower.assert c) := by
  refine (newBlock _).bind fun check => (newBlock _).bind fun fail => (newBlock _).bind fun ok => ?_
  refine (build _).bind fun _ => (build _).bind fun _ => (condition h).bind fun c => ?_
  exact (build _).bind fun _ => (build _).bind fun _ => abort.bind fun _ => build _

theorem read {x : Ident} (h : P x.span) : RejectsAt P (Lower.read x) := by
  refine (find? _).bind fun r => ?_
  cases r with
  | none => exact reject h
  | some slot =>
    refine (build _).bind fun ty => guard (reject h) ?_
    refine (format ty _).bind fun _ => get.bind fun t => ite ?_ (build _).discard
    exact (build _).bind fun _ => (build _).discard.bind fun _ =>
      (build _).bind fun _ => (build _).bind fun _ => build _

theorem print {e : Expr} (h : e.Placed P) : RejectsAt P (Lower.print e) := by
  refine (expr h).bind fun v => (typeOf v).bind fun ty => guard (reject h.span) ?_
  exact (promote v ty).bind fun _ => (format ty _).bind fun _ => get.bind fun _ =>
    (build _).discard

theorem assign {x : Ident} {e : Expr} (hx : P x.span) (he : e.Placed P) :
    RejectsAt P (Lower.assign x e) := by
  refine (expr he).bind fun v => (find? _).bind fun r => ?_
  cases r with
  | none => exact reject hx
  | some slot => exact (build _).bind fun ty => (coerce he.span).bind fun v => build _

theorem initial {ty : Ty} {e : Expr} (h : e.Placed P) : RejectsAt P (Lower.initial ty e) :=
  (expr h).bind fun _ => coerce h.span

theorem mapM {β γ : Type} {f : β → Lower γ} {b? : Option β} (h : ∀ b ∈ b?, RejectsAt P (f b)) :
    RejectsAt P (b?.mapM f) := by
  cases b? with
  | none => exact pure _
  | some b => exact (h b rfl).map

theorem declare {x : Ident} {type : TypeExpr} {init : Option Expr} (hx : P x.span)
    (hinit : ∀ e ∈ init, e.Placed P) : RejectsAt P (Lower.declare x type init) := by
  refine guard (reject hx) (get.bind fun t => guard (reject hx) ?_)
  refine (mapM fun e he => initial (hinit e he)).bind fun v => (build _).bind fun slot =>
    (define hx).bind fun _ => ?_
  cases v with
  | none => exact pure _
  | some v => exact build _

theorem ret {value : Option Expr} (h : ∀ e ∈ value, e.Placed P) :
    RejectsAt P (Lower.ret value) := by
  refine get.bind fun t => ?_
  split
  · exact misuse _
  · rename_i frame _
    have hleave : RejectsAt P (do
        Lower.build (Build.br frame.exit)
        Lower.continueUnreachable "return.after") :=
      (build _).bind fun _ => continueUnreachable _
    dsimp only
    split
    · rename_i e slot _
      have he := h e rfl
      exact (expr he).bind fun v => (build _).bind fun ty => (coerce he.span).bind fun v =>
        (build _).bind fun _ => hleave
    · rename_i e _
      exact (reject (h e rfl).span).bind fun _ => hleave
    · exact hleave

mutual

theorem stmt {s : Stmt} (h : s.Placed P) : RejectsAt P (Lower.stmt s) := by
  match s with
  | .assert c _ =>
    unfold Lower.stmt
    exact assert h.2
  | .read x _ =>
    unfold Lower.stmt
    exact read h.2
  | .abort _ =>
    unfold Lower.stmt
    exact abort.bind fun _ => continueUnreachable _
  | .call callee args span =>
    unfold Lower.stmt
    exact (expr h).discard
  | .print e _ =>
    unfold Lower.stmt
    exact print h.2
  | .assign x e _ =>
    unfold Lower.stmt
    exact assign h.2.1 h.2.2
  | .declare x type none _ =>
    unfold Lower.stmt
    exact declare h.2 (by simp)
  | .declare x type (some e) _ =>
    unfold Lower.stmt
    exact declare h.2.1 (by simpa using h.2.2)
  | .loop body c _ =>
    unfold Lower.stmt
    refine (newBlock _).bind fun bodyBlock => (build _).bind fun _ => (build _).bind fun _ =>
      (stmts h.2.1).nested.bind fun _ => ?_
    refine (newBlock _).bind fun conditionBlock => (build _).bind fun _ => (build _).bind fun _ =>
      (condition h.2.2).bind fun c => ?_
    exact (build _).bind fun after => (build _).bind fun _ => (build _).bind fun _ => build _
  | .branch lead cs none _ =>
    unfold Lower.stmt
    refine (build _).bind fun exit => (newBlock _).bind fun first => (build _).bind fun _ =>
      (build _).bind fun _ => (cases h.2.2).bind fun _ => ?_
    exact (build _).bind fun _ => (build _).bind fun _ => build _
  | .branch lead cs (some body) _ =>
    unfold Lower.stmt
    refine (build _).bind fun exit => (newBlock _).bind fun first => (build _).bind fun _ =>
      (build _).bind fun _ => (cases h.2.2.1).bind fun _ => ?_
    refine (newBlock _).bind fun block => (build _).bind fun _ => (build _).bind fun _ =>
      (stmts h.2.2.2).nested.bind fun _ => ?_
    exact (build _).bind fun _ => (build _).bind fun _ => build _
  | .ret none _ =>
    unfold Lower.stmt
    exact ret (by simp)
  | .ret (some e) _ =>
    unfold Lower.stmt
    exact ret (by simpa using h.2)

theorem stmts {ss : List Stmt} (h : Stmt.AllPlaced P ss) : RejectsAt P (Lower.stmts ss) := by
  match ss with
  | [] =>
    unfold Lower.stmts
    exact pure _
  | s :: rest =>
    unfold Lower.stmts
    exact (stmt h.1).bind fun _ => stmts h.2

theorem cases {exit : Ir.BlockId} {cs : List Case} (h : Case.AllPlaced P cs) :
    RejectsAt P (Lower.cases exit cs) := by
  match cs with
  | [] =>
    unfold Lower.cases
    exact pure _
  | .mk c body :: rest =>
    obtain ⟨⟨hc, hbody⟩, hrest⟩ := h
    unfold Lower.cases
    refine (condition hc).bind fun c => (build _).bind fun next =>
      (newBlock _).bind fun bodyBlock => (build _).bind fun _ => (build _).bind fun _ =>
      (stmts hbody).nested.bind fun _ => ?_
    exact (build _).bind fun _ => (build _).bind fun _ => (build _).bind fun _ => cases hrest

end

/-! ### Programs -/

theorem declareRoutine {r : Routine} (h : P r.nameSpan) : RejectsAt P (Lower.declareRoutine r) := by
  refine guard (reject h) ((build _).bind fun id? => ?_)
  cases id? with
  | none => exact reject h
  | some id =>
    exact ite ((change _).bind fun _ => (change _).bind fun _ => pure _)
      ((change _).bind fun _ => pure _)

theorem bindParams {ps : List Param} (index : Nat) (h : ∀ p ∈ ps, P p.name.span) :
    RejectsAt P (Lower.bindParams index ps) := by
  induction ps generalizing index with
  | nil => exact pure _
  | cons p ps ih =>
    obtain ⟨hp, hps⟩ := List.forall_mem_cons.1 h
    exact (build _).bind fun _ => (build _).bind fun _ => (define hp).bind fun _ => ih _ hps

theorem body {r : Routine} (h : r.Placed P) : RejectsAt P (Lower.body r) := by
  refine (resultSlot r).bind fun result => (bindParams 0 h.params).bind fun _ =>
    (build _).bind fun exit => (change _).bind fun _ => (stmts h.body).bind fun _ => ?_
  refine (build _).bind fun _ => (build _).bind fun _ => (build _).bind fun _ => ?_
  exact (mapM fun _ _ => build _).bind fun v => (build _).bind fun _ => change _

theorem defineRoutine {r : Routine} {id : FuncId} (h : r.Placed P) :
    RejectsAt P (Lower.defineRoutine r id) := by
  refine ite (pure _) ((build _).bind fun _ => (newBlock _).bind fun entry => ?_)
  exact (build _).bind fun _ => (body h).nested.bind fun _ =>
    (verify fun _ => h.whole).bind fun _ => change _

theorem mapM_list {β γ : Type} {f : β → Lower γ} {bs : List β} (h : ∀ b ∈ bs, RejectsAt P (f b)) :
    RejectsAt P (bs.mapM f) := by
  induction bs with
  | nil => exact pure _
  | cons b bs ih =>
    obtain ⟨hb, hbs⟩ := List.forall_mem_cons.1 h
    rw [List.mapM_cons]
    exact hb.bind fun c => (ih hbs).bind fun cs => pure _

theorem forM_list {β : Type} {f : β → Lower PUnit} {bs : List β} (h : ∀ b ∈ bs, RejectsAt P (f b)) :
    RejectsAt P (bs.forM f) := by
  induction bs with
  | nil => exact pure _
  | cons b bs ih =>
    obtain ⟨hb, hbs⟩ := List.forall_mem_cons.1 h
    exact hb.bind fun _ => ih hbs

theorem routines {rs : List Routine} (h : ∀ r ∈ rs, r.Placed P) :
    RejectsAt P (Lower.routines rs) := by
  refine (mapM_list fun r hr => declareRoutine (h r hr).name).bind fun ids => forM_list ?_
  rintro ⟨r, id⟩ hmem
  exact defineRoutine (h r (List.of_mem_zip hmem).1)

end Rejects

end Lower

/-- Every rejection of a program stands at a place in its tree. -/
theorem Program.lower_rejects {P : Span → Prop} {p : Program} {e : Spanned LoweringError}
    (hp : p.Placed P) (h : p.lower.outcome = .error (.rejected e)) : P e.span := by
  have hroutines : Lower.RejectsAt P (Lower.routines p.routines) := .routines hp
  unfold lower lowerFrom at h
  cases hrun : (Lower.routines p.routines).run (.start p.fileName) with
  | mk outcome t =>
    rw [hrun] at h
    cases outcome with
    | ok _ => cases h
    | error stop =>
      cases h
      exact hroutines _ e t hrun

end Quill
