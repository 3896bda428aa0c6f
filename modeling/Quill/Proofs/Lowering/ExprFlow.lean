import Quill.Lowering.Program
import Quill.Proofs.Lowering.ChartSteps

/-! # The control flow of expressions

How expressions take a chart on: they are straight code in the current block, and the value of
each may be used behind it.
-/
namespace Quill.Lower

open Ir (Action BlockId Build FuncId Function Name Operand SlotId Terminator Ty ValueInfo)
open Library (Direction)

variable {π : Place} {c c' : Chart}

/-! ### Values -/

theorem cast_draws (op : Ir.CastOp) {v : Operand} (hv : c.Offers v) (target : Ty) :
    π.Draws (cast op v target) c c.Yields := by
  refine .get fun t _ => ?_
  split
  · exact .build (Place.cast_makes op target hv)
  · exact .build (Place.emitCast_makes op target hv)

theorem convert_draws {v : Operand} (hv : c.Offers v) (target : Ty) :
    π.Draws (convert v target) c c.Yields := by
  unfold convert
  refine .look (.typeOf v) fun source => ?_
  split
  · exact .pure ⟨.refl c, hv⟩
  · exact cast_draws _ hv target

theorem coerce_draws {v : Operand} (hv : c.Offers v) (target : Ty) (span : Span)
    (e : Ty → LoweringError) : π.Draws (coerce v target span e) c c.Yields := by
  unfold coerce coerce?
  refine .look (.typeOf v) fun found => ?_
  refine .bind (Q := fun r c' => c.Straight c' ∧ ∀ w, r = some w → c'.Offers w) ?_ ?_
  · refine .look (.typeOf v) fun source => ?_
    split
    · refine .pure ⟨.refl c, ?_⟩
      rintro _ ⟨⟩
      exact hv
    · split
      · exact .pure ⟨.refl c, fun _ h => by cases h⟩
      · refine (convert_draws hv target).bind fun w c' h => .pure ⟨h.straight, ?_⟩
        rintro _ ⟨⟩
        exact h.offers
  · intro r c' h
    cases r with
    | some w => exact .pure ⟨h.1, h.2 w rfl⟩
    | none => exact .reject

theorem operate_draws (operation : Operation) {l r : Operand} (hl : c.Offers l)
    (hr : c.Offers r) : π.Draws (operate operation l r) c c.Yields := by
  cases operation with
  | arithmetic op => exact .build (Place.binary_makes op hl hr)
  | comparison pred => exact .build (Place.compare_makes pred hl hr)

theorem binary_draws (span : Span) (op : Operator) {l r : Operand} (hl : c.Offers l)
    (hr : c.Offers r) : π.Draws (binary span op l r) c c.Yields := by
  unfold binary
  refine .look (.typeOf l) fun tl => .look (.typeOf r) fun tr => ?_
  split
  · exact .reject
  · rename_i ty _
    split
    · split
      · exact .build (Place.compare_makes _ hl hr)
      · exact .reject
    · refine (convert_draws hl ty).bind fun l' c₁ h₁ => ?_
      refine (convert_draws (h₁.straight.offers hr) ty).bind fun r' c₂ h₂ => ?_
      have hl' := h₂.straight.offers h₁.offers
      have hoperate (operation : Operation) :
          π.Draws (operate operation l' r') c₂ c.Yields :=
        (operate_draws operation hl' h₂.offers).mono fun _ _ h => (h₁.trans h₂).trans h
      split
      · split
        · exact hoperate _
        · exact .reject
      · exact hoperate _

theorem find?_draws (name : String) :
    π.Draws (find? name) c fun r c' => c' = c ∧ r = c.scopes.find? name := by
  refine .get fun t ht => .pure ⟨rfl, ?_⟩
  rw [ht.scopes]

theorem load_draws (hc : c.Sees) (x : Ident) : π.Draws (load x) c c.Yields := by
  unfold load
  refine (find?_draws x.text).bind fun r c₁ h => ?_
  obtain ⟨rfl, hr⟩ := h
  cases r with
  | none => exact .reject
  | some slot =>
    exact .build (Place.load_makes (hc slot (Scopes.mem_slots_of_find? hr.symm)))

/-- Operands that are all to be used at once. -/
structure YieldsAll (c : Chart) (vs : List Operand) (c' : Chart) : Prop where
  straight : c.Straight c'
  offers : ∀ v ∈ vs, c'.Offers v

theorem callWith_draws (span : Span) (callee : Ident) (count : Nat)
    {args : List Ty → Lower (List Operand)}
    (hargs : ∀ types, π.Draws (args types) c (YieldsAll c)) :
    π.Draws (callWith span callee count args) c c.Yields := by
  unfold callWith
  refine .get fun t ht => ?_
  split
  · exact .reject
  · refine .look (.bind .get fun b => .ofExcept _) fun f => .guard .reject ?_
    refine (hargs _).bind fun vs c₁ h => ?_
    exact (Place.Draws.build (Place.call_makes _ h.offers)).mono fun v c' h' =>
      ⟨h.straight.straight h'.1.straight, h'.1.offers⟩

mutual

theorem expr_draws {c : Chart} (hc : c.Sees) (e : Expr) : π.Draws (expr e) c c.Yields := by
  cases e with
  | int n span =>
    unfold expr
    refine .pure ⟨.refl c, ?_⟩
    unfold literal
    split <;> exact List.nil_subset _
  | float x span =>
    unfold expr
    exact .pure ⟨.refl c, List.nil_subset _⟩
  | var x =>
    unfold expr
    exact load_draws hc x
  | binary op lhs rhs =>
    unfold expr
    refine (expr_draws hc lhs).bind fun l c₁ h₁ => ?_
    refine (expr_draws (h₁.straight.sees hc) rhs).bind fun r c₂ h₂ => ?_
    refine (binary_draws _ op (h₂.straight.offers h₁.offers) h₂.offers).mono fun v c' h => ?_
    exact (h₁.trans h₂).trans h
  | semi op lead rhs span =>
    unfold expr
    refine (load_draws hc lead).bind fun l c₁ h₁ => ?_
    refine (expr_draws (h₁.straight.sees hc) rhs).bind fun r c₂ h₂ => ?_
    refine (binary_draws _ op (h₂.straight.offers h₁.offers) h₂.offers).mono fun v c' h => ?_
    exact (h₁.trans h₂).trans h
  | call callee args span =>
    unfold expr
    exact callWith_draws span callee _ fun types => arguments_draws hc callee.text args types

theorem arguments_draws {c : Chart} (hc : c.Sees) (callee : String) (args : List Expr)
    (types : List Ty) : π.Draws (arguments callee args types) c (YieldsAll c) := by
  cases args with
  | nil =>
    unfold arguments
    exact .pure ⟨.refl c, List.forall_mem_nil _⟩
  | cons arg args =>
    cases types with
    | nil =>
      unfold arguments
      exact .pure ⟨.refl c, List.forall_mem_nil _⟩
    | cons ty types =>
      unfold arguments
      refine (expr_draws hc arg).bind fun v c₁ h₁ => ?_
      refine (coerce_draws h₁.offers ty _ _).bind fun w c₂ h₂ => ?_
      have h := h₁.trans h₂
      refine (arguments_draws (h.straight.sees hc) callee args types).bind fun ws c' h' => ?_
      refine .pure ⟨h.straight.straight h'.straight, ?_⟩
      exact List.forall_mem_cons.2 ⟨h'.straight.offers h.offers, h'.offers⟩

end

theorem truth_draws (span : Span) {v : Operand} (hv : c.Offers v) :
    π.Draws (truth span v) c c.Yields := by
  unfold truth
  refine .look (.isComparison v) fun compared => ?_
  split
  · exact .pure ⟨.refl c, hv⟩
  · refine .look (.typeOf v) fun ty => ?_
    split
    · exact .build (Place.compare_makes _ hv (c.offers_zero ty))
    · split
      · exact .build (Place.compare_makes _ hv (c.offers_zero ty))
      · exact .reject

theorem condition_draws (hc : c.Sees) (e : Expr) : π.Draws (condition e) c c.Yields :=
  (expr_draws hc e).bind fun _ _ h => (truth_draws e.span h.offers).mono fun _ _ h' => h.trans h'

end Quill.Lower
