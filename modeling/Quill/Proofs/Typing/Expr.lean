import Quill.Proofs.Lowering.Expr
import Quill.Proofs.Typing.Decides
import Quill.Proofs.Typing.Rules

/-! # Expressions are lowered if they are typed

The operand of an expression has the type that the static rules give it, and an expression without
a type is rejected.
-/
namespace Quill

open Ir (Build FuncId Function Operand SlotId Ty)

/-! ### Variables -/

/-- The frames bind the same names in the same order, to slots of the types. -/
def ScopesMatch (f : Function) (s : Scopes) (Γ : Context) : Prop :=
  List.Forall₂ (List.Forall₂ fun b c => b.1 = c.1 ∧ f.HasSlot b.2 c.2) s Γ

theorem lookup_rel {f : Function} {frame : ScopeFrame} {types : List (String × Ty)}
    (h : List.Forall₂ (fun b c => b.1 = c.1 ∧ f.HasSlot b.2 c.2) frame types) (x : String) :
    Option.Rel f.HasSlot (frame.lookup x) (types.lookup x) := by
  induction h with
  | nil => exact .none
  | @cons b c _ _ hbc _ ih =>
    obtain ⟨hname, hslot⟩ := hbc
    rw [show b = (c.1, b.2) from Prod.ext hname rfl, List.lookup_cons, List.lookup_cons]
    cases x == c.1 with
    | true => exact .some hslot
    | false => exact ih

namespace ScopesMatch

variable {f g : Function} {s : Scopes} {Γ : Context}

theorem mono (h : ScopesMatch f s Γ) (hfg : f.Continues g) : ScopesMatch g s Γ :=
  List.Forall₂.imp (fun _ _ => List.Forall₂.imp fun _ _ hbc => hbc.imp_right hfg.hasSlot) h

theorem enter (h : ScopesMatch f s Γ) : ScopesMatch f s.enter Γ.enter := .cons .nil h

theorem bind (h : ScopesMatch f s Γ) (x : String) {slot : SlotId} {ty : Ty}
    (hslot : f.HasSlot slot ty) : ScopesMatch f (s.bind x slot) (Γ.bind x ty) := by
  cases h with
  | nil => exact .cons (.cons ⟨rfl, hslot⟩ .nil) .nil
  | cons hframe houter => exact .cons (.cons ⟨rfl, hslot⟩ hframe) houter

/-- A variable in sight is found with its type, and no other is. -/
theorem find? (h : ScopesMatch f s Γ) (x : String) :
    Option.Rel f.HasSlot (s.find? x) (Γ.find? x) := by
  induction h with
  | nil => exact .none
  | @cons frame types outer _ hframe _ ih =>
    unfold Scopes.find? Context.find?
    rw [List.findSome?_cons, List.findSome?_cons]
    match frame.lookup x, types.lookup x, lookup_rel hframe x with
    | _, _, .none => exact ih
    | _, _, .some hslot => exact .some hslot

theorem find?_cases (h : ScopesMatch f s Γ) (x : String) :
    (s.find? x = none ∧ Γ.find? x = none) ∨
      ∃ slot ty, s.find? x = some slot ∧ Γ.find? x = some ty ∧ f.HasSlot slot ty := by
  match s.find? x, Γ.find? x, h.find? x with
  | _, _, .none => exact .inl ⟨rfl, rfl⟩
  | _, _, .some hslot => exact .inr ⟨_, _, rfl, rfl, hslot⟩

theorem definedHere (h : ScopesMatch f s Γ) (x : String) : s.definedHere x = Γ.definedHere x := by
  cases h with
  | nil => rfl
  | @cons frame types outer _ hframe _ =>
    simp only [Scopes.definedHere, Context.definedHere, List.head?_cons, Option.any_some]
    have hlookup := lookup_rel hframe x
    generalize frame.lookup x = slot, types.lookup x = ty at hlookup ⊢
    cases hlookup <;> rfl

end ScopesMatch

theorem Site.Straight.scopesMatch {σ : Site} {d d' : Draft} {Γ : Context} (h : σ.Straight d d')
    (hΓ : ScopesMatch d.function d.scopes Γ) : ScopesMatch d'.function d'.scopes Γ :=
  h.scopes ▸ hΓ.mono h.work.continues

/-! ### Functions -/

/-- The functions that may be called are those of the program. -/
structure Site.Knows (σ : Site) (fs : List FunctionDecl) : Prop where
  names : (fs.map fun g => g.name.text).Nodup
  listed : ∀ x id, σ.state.functions.lookup x = some id → ∃ g ∈ fs, g.name.text = x
  found : ∀ g ∈ fs, ∃ id, σ.state.functions.lookup g.name.text = some id ∧
    (σ.module.functions[id.index]?).map Function.signature = some g.routine.declared.signature

theorem FunctionDecl.declared_types (g : FunctionDecl) :
    g.routine.declared.params.map Ir.Param.ty = g.params.map fun x => x.type.ty := by
  simp [Routine.declared, Function.declared, FunctionDecl.routine]

namespace Site.Knows

variable {σ : Site} {fs : List FunctionDecl}

theorem lookup_eq_none (h : σ.Knows fs) {x : String}
    (hx : σ.state.functions.lookup x = none) : ∀ g ∈ fs, g.name.text ≠ x := by
  rintro g hg rfl
  obtain ⟨id, hid, -⟩ := h.found g hg
  simp [hid] at hx

/-- A function that is found under a name is declared in the program as the module says. -/
theorem lookup_eq_some (h : σ.Knows fs) {x : String} {id : FuncId}
    (hx : σ.state.functions.lookup x = some id) :
    ∃ g ∈ fs, g.name.text = x ∧ ∃ hid : id.index < σ.module.functions.size,
      σ.module.functions[id.index].signature = g.routine.declared.signature := by
  obtain ⟨g, hg, rfl⟩ := h.listed x id hx
  obtain ⟨id', hid', hsig⟩ := h.found g hg
  obtain rfl := Option.some.inj (hx.symm.trans hid')
  have hid : id.index < σ.module.functions.size := σ.callable _ _ hx
  refine ⟨g, hg, rfl, hid, ?_⟩
  rw [Array.getElem?_eq_getElem hid] at hsig
  exact Option.some.inj hsig

end Site.Knows

/-! ### Conversions and operators -/

theorem Ir.Ty.converts_iff {s t : Ty} (hne : s ≠ t) :
    s.Converts t ↔ (s.isPointer || t.isPointer || s.isVoid || t.isVoid) = false := by
  obtain ⟨p, ps⟩ := s
  obtain ⟨q, qs⟩ := t
  cases ps <;> cases qs <;> cases p <;> cases q <;> simp_all [Ty.Converts] <;> decide

namespace Operator

variable {op : Operator} {ty : Ty} {operation : Lower.Operation}

theorem operation?_eq_none :
    Lower.operation? op ty = none ↔ ty.isFloat = true ∧ op.isShift = true := by
  unfold Lower.operation?
  by_cases hf : ty.isFloat = true
  · rw [if_pos hf]
    cases op <;> simp [Lower.fractionOperation?, isShift, hf]
  · simp [hf]

theorem resultTy_operation? (h : Lower.operation? op ty = some operation) :
    operation.resultTy ty = op.resultTy ty := by
  unfold Lower.operation? at h
  split at h
  · cases op <;> simp only [Lower.fractionOperation?, Option.some.injEq, reduceCtorEq] at h <;>
      subst h <;> rfl
  · obtain rfl := Option.some.inj h
    cases op <;> rfl

end Operator

namespace Lower

open Site

variable {σ : Site} {d : Draft} {fs : List FunctionDecl} {Γ : Context}

theorem coerce?_leads (h : σ.Ready d) {v : Operand} {source target : Ty}
    (hv : d.function.typeOf v = .ok source) :
    σ.Leads (coerce? v target) d fun v? _ => v?.isSome = true ↔ source.Converts target := by
  unfold coerce?
  refine .step (typeOf_lower_run hv) ?_
  by_cases heq : source = target
  · rw [if_pos heq]
    exact .pure (by simp [Ty.Converts, heq])
  · rw [if_neg heq]
    have hiff := Ty.converts_iff heq
    by_cases hbad : (source.isPointer || target.isPointer || source.isVoid || target.isVoid) = true
    · rw [if_pos hbad]
      exact .pure (by simp [hiff, hbad])
    · rw [if_neg hbad]
      have hconverts : source.Converts target := hiff.2 (by simpa using hbad)
      refine (convert_leads h hv fun hne => hconverts.resolve_left hne).bind fun v' d' _ => ?_
      exact .pure (by simp [hconverts])

theorem coerce_decides (h : σ.Ready d) {v : Operand} {source target : Ty} {span : Span}
    {e : Ty → LoweringError} (hv : d.function.typeOf v = .ok source) :
    σ.Decides (coerce v target span e) d (fun _ _ => source.Converts target)
      (¬source.Converts target) := by
  unfold coerce
  refine .step (typeOf_lower_run hv) ?_
  refine .after (coerce?_leads h hv) (.coerce? _ _) fun v? d' hv? => ?_
  cases v? with
  | none => exact .reject fun hc => Bool.false_ne_true (hv?.2 hc)
  | some v' => exact .pure (hv?.1 rfl)

theorem binary_decides (h : σ.Ready d) {span : Span} {op : Operator} {l r : Operand} {tl tr : Ty}
    (hl : d.function.typeOf l = .ok tl) (hr : d.function.typeOf r = .ok tr) :
    σ.Decides (binary span op l r) d
      (fun v d' => ∃ ty, resultType tl tr = .ok ty ∧ op.Admits ty ∧
        d'.function.typeOf v = .ok (op.resultTy ty))
      (∀ ty, resultType tl tr = .ok ty → ¬op.Admits ty) := by
  unfold binary
  refine .step (typeOf_lower_run hl) (.step (typeOf_lower_run hr) ?_)
  cases hres : resultType tl tr with
  | error e => exact .reject fun ty hty => nomatch hty
  | ok ty =>
    obtain ⟨hlv, -, ⟨hp, rfl, rfl⟩ | ⟨hp, hln, hrn, hn⟩⟩ := resultType_cases hres
    · simp only [hp, ↓reduceIte]
      by_cases hop : op = .eq
      · subst hop
        rw [if_pos rfl]
        refine .of_leads ((compare_leads h hl hr hlv (by simp [Ir.Predicate.isFloat, hp])).mono
          fun v d' hv => ⟨_, rfl, ⟨fun _ => rfl, fun _ => rfl⟩, hv.typeOf⟩) (.build _)
      · rw [if_neg hop]
        refine .reject fun ty hty hadmits => hop (hadmits.1 ?_)
        rwa [← Except.ok.inj hty]
    · simp only [hp, Bool.false_eq_true, ↓reduceIte]
      refine .after (convert_leads h hl fun _ => ⟨hln, hn⟩) (.convert _ _) fun l' d₁ hl' => ?_
      refine .after (convert_leads hl'.ready (hl'.straight.typeOf hr) fun _ => ⟨hrn, hn⟩)
        (.convert _ _) fun r' d₂ hr' => ?_
      have hlast {operation : Operation} (hop : operation? op ty = some operation) :
          σ.Decides (operate operation l' r') d₂
            (fun v d' => ∃ ty', Except.ok ty = (Except.ok ty' : Except TypeError Ty) ∧
              op.Admits ty' ∧ d'.function.typeOf v = .ok (op.resultTy ty'))
            (∀ ty', Except.ok ty = (Except.ok ty' : Except TypeError Ty) → ¬op.Admits ty') := by
        have hshift : ty.isFloat = true → op.isShift = false := fun hf =>
          Bool.eq_false_iff.2 fun hs => by simp [Operator.operation?_eq_none.2 ⟨hf, hs⟩] at hop
        refine .of_leads ((operate_leads hr'.ready (hr'.straight.typeOf hl'.typeOf) hr'.typeOf
          (Ty.ne_void_of_isNumber hn) (operation?_fits hn hop)).mono fun v d' hv => ?_)
          (.operate _ _ _)
        exact ⟨ty, rfl, ⟨fun hp' => by simp [hp] at hp', hshift⟩,
          Operator.resultTy_operation? hop ▸ hv.typeOf⟩
      by_cases hfloat : ty.isFloat = true
      · simp only [hfloat, ↓reduceIte]
        cases hop : fractionOperation? op with
        | none =>
          have hnone : operation? op ty = none := by simp [operation?, hfloat, hop]
          refine .reject fun ty' hty' hadmits => ?_
          obtain rfl := Except.ok.inj hty'
          exact Bool.false_ne_true
            ((hadmits.2 hfloat).symm.trans (Operator.operation?_eq_none.1 hnone).2)
        | some operation => exact hlast (by simp [operation?, hfloat, hop])
      · simp only [hfloat, Bool.false_eq_true, ↓reduceIte]
        exact hlast (by simp [operation?, hfloat])

theorem truth_decides (h : σ.Ready d) {span : Span} {v : Operand} {ty : Ty}
    (hv : d.function.typeOf v = .ok ty) :
    σ.Decides (truth span v) d (fun _ _ => ty.isNumber = true) (¬ty.isNumber = true) := by
  obtain ⟨c, hc⟩ := Function.isComparison_ok hv
  unfold truth
  refine .step (build_run (isComparison_run hc)) ?_
  cases c with
  | true =>
    obtain rfl := Except.ok.inj (hv.symm.trans (typeOf_comparison h hc))
    exact .pure rfl
  | false =>
    simp only [Bool.false_eq_true, ↓reduceIte]
    refine .step (typeOf_lower_run hv) ?_
    by_cases hi : ty.isInt = true
    · rw [if_pos hi]
      exact .of_plain (.build _) fun _ _ => Ty.isNumber_of_isInt hi
    · rw [if_neg hi]
      by_cases hfl : ty.isFloat = true
      · rw [if_pos hfl]
        exact .of_plain (.build _) fun _ _ => Ty.isNumber_of_isFloat hfl
      · rw [if_neg hfl]
        exact .reject fun hn => (Ty.isNumber_cases hn).elim hi hfl

/-! ### Expressions -/

def Types (fs : List FunctionDecl) (Γ : Context) (e : Expr) (v : Operand) (d : Draft) : Prop :=
  ∃ ty, d.function.typeOf v = .ok ty ∧ ExprTyped fs Γ e ty

theorem load_decides (h : σ.Ready d) (hΓ : ScopesMatch d.function d.scopes Γ) (x : Ident) :
    σ.Decides (load x) d (Types fs Γ (.var x)) (Untyped fs Γ (.var x)) := by
  unfold load
  refine .step (find?_run x.text) ?_
  obtain ⟨hx, hty⟩ | ⟨slot, ty, hx, hty, hslot⟩ := hΓ.find?_cases x.text
  · rw [hx]
    exact .reject fun ty' (.var hty') => by simp [hty] at hty'
  · rw [hx]
    exact .of_leads ((load_leads h hslot).mono fun v d' hv => ⟨ty, hv.typeOf, .var hty⟩)
      (.build _)

/-- The two operands of an operator are lowered; it remains to apply it. -/
theorem operands_decide (hσ : σ.Knows fs) (h : σ.Ready d) {span : Span} {op : Operator}
    {lhs rhs : Expr} {l r : Operand} (hl : Types fs Γ lhs l d) (hr : Types fs Γ rhs r d) :
    σ.Decides (binary span op l r) d (Types fs Γ (.binary op lhs rhs))
      (Untyped fs Γ (.binary op lhs rhs)) := by
  obtain ⟨tl, htl, hlhs⟩ := hl
  obtain ⟨tr, htr, hrhs⟩ := hr
  refine (binary_decides h htl htr).mono ?_ ?_
  · rintro v d' ⟨ty, hres, hadmits, hv⟩
    exact ⟨_, hv, .binary hlhs hrhs hres hadmits⟩
  · rintro hno ty hty
    cases hty with
    | binary hlhs' hrhs' hres hadmits =>
      obtain rfl := hlhs.unique hσ.names hlhs'
      obtain rfl := hrhs.unique hσ.names hrhs'
      exact hno _ hres hadmits

theorem Types.semi_iff {op : Operator} {lead : Ident} {rhs : Expr} {span : Span} {v : Operand} :
    Types fs Γ (.semi op lead rhs span) v d ↔ Types fs Γ (.binary op (.var lead) rhs) v d :=
  exists_congr fun _ => and_congr_right fun _ => ExprTyped.semi_iff

theorem Types.mono {e : Expr} {v : Operand} {d' : Draft} (h : Types fs Γ e v d)
    (hd : σ.Straight d d') : Types fs Γ e v d' := by
  obtain ⟨ty, hv, hty⟩ := h
  exact ⟨ty, hd.typeOf hv, hty⟩

theorem callWith_decides (hσ : σ.Knows fs) (h : σ.Ready d) {span : Span} {name : Ident}
    {args : List Expr} {lowerArgs : List Ty → Lower (List Operand)}
    (hreach : ∀ types, types.length = args.length →
      σ.Leads (lowerArgs types) d (GivesArgs σ d args types))
    (hargs : ∀ types, types.length = args.length →
      σ.Decides (lowerArgs types) d (fun _ _ => ArgsTyped fs Γ args types)
        (¬ArgsTyped fs Γ args types)) :
    σ.Decides (callWith span name args.length lowerArgs) d (Types fs Γ (.call name args span))
      (Untyped fs Γ (.call name args span)) := by
  unfold callWith
  refine .step (a := σ.working d) rfl ?_
  cases hlookup : σ.state.functions.lookup name.text with
  | none =>
    simp only [Site.working, hlookup]
    refine .reject fun ty hty => ?_
    cases hty with
    | call hg hname _ => exact hσ.lookup_eq_none hlookup _ hg hname
  | some id =>
    obtain ⟨g, hg, hname, hid, hsig⟩ := hσ.lookup_eq_some hlookup
    have hno (hargs : ¬ArgsTyped fs Γ args (g.params.map fun x => x.type.ty)) :
        Untyped fs Γ (.call name args span) := by
      rintro ty (_ | _ | _ | _ | _ | ⟨hg', hname', hargs'⟩)
      obtain rfl := List.inj_on_of_nodup_map hσ.names hg hg' (hname.trans hname'.symm)
      exact hargs hargs'
    obtain ⟨f, hf, hfsig⟩ := callee h hid
    have hrun : (build (do Build.ofExcept ((← MonadState.get).module.function id))).run
        (σ.working d) = (.ok f, σ.working d) := by
      refine build_run ?_
      rw [Ir.Build.bind_of_ok _ (Ir.Build.get_apply _), Ir.Build.ofExcept_apply, hf]
      rfl
    have htypes : f.params.map Ir.Param.ty = g.params.map fun x => x.type.ty := by
      rw [show f.params = g.routine.declared.params from
        congrArg Ir.Signature.params (hfsig.trans hsig), g.declared_types]
    simp only [Site.working, hlookup]
    refine .step hrun ?_
    rw [htypes]
    by_cases hcount : (g.params.map fun x => x.type.ty).length ≠ args.length
    · rw [if_pos hcount]
      refine .reject_bind (hno fun hargs => hcount ?_)
      exact hargs.length_eq.symm
    · rw [if_neg hcount]
      have hlen : (g.params.map fun x => x.type.ty).length = args.length :=
        Decidable.of_not_not hcount
      refine .bind (hreach _ hlen) (hargs _ hlen) hno fun vs d₁ hvs ha => ?_
      have hoperands := hvs.operands
      rw [← g.declared_types] at hoperands
      exact .of_leads ((call_leads hvs.straight.ready hid hsig hoperands).mono fun v d' hv =>
        ⟨_, hv.typeOf, .call hg hname ha⟩) (.build _)

mutual

theorem expr_decides {σ : Site} {d : Draft} (hσ : σ.Knows fs) (h : σ.Ready d)
    (hΓ : ScopesMatch d.function d.scopes Γ) (e : Expr) :
    σ.Decides (expr e) d (Types fs Γ e) (Untyped fs Γ e) := by
  match e with
  | .int n span =>
    unfold expr
    refine .pure ⟨literalTy n, ?_, .int⟩
    unfold literal literalTy
    split <;> rfl
  | .float x span =>
    unfold expr
    exact .pure ⟨.f64, rfl, .float⟩
  | .var x =>
    unfold expr
    exact load_decides h hΓ x
  | .binary op lhs rhs =>
    unfold expr
    refine .bind (expr_leads h lhs) (expr_decides hσ h hΓ lhs) .of_lhs fun l d₁ ⟨_, hl⟩ hlhs => ?_
    refine .bind (expr_leads hl.ready rhs)
      (expr_decides hσ hl.ready (hl.straight.scopesMatch hΓ) rhs) .of_rhs
      fun r d₂ ⟨_, hr⟩ hrhs => ?_
    exact operands_decide hσ hr.ready (hlhs.mono hr.straight) hrhs
  | .semi op lead rhs span =>
    unfold expr
    refine .bind (load_variable h lead) (load_decides h hΓ lead) (fun hno => .semi_iff.2 hno.of_lhs)
      fun l d₁ ⟨_, hl⟩ hlead => ?_
    refine .bind (expr_leads hl.ready rhs)
      (expr_decides hσ hl.ready (hl.straight.scopesMatch hΓ) rhs)
      (fun hno => .semi_iff.2 hno.of_rhs) fun r d₂ ⟨_, hr⟩ hrhs => ?_
    exact (operands_decide hσ hr.ready (hlead.mono hr.straight) hrhs).mono
      (fun _ _ hv => Types.semi_iff.2 hv) Untyped.semi_iff.2
  | .call callee args span =>
    unfold expr
    exact callWith_decides hσ h
      (fun types hlen => arguments_leads h callee.text args types hlen.symm)
      fun types hlen => arguments_decides hσ h hΓ callee.text args types hlen.symm

theorem arguments_decides {σ : Site} {d : Draft} (hσ : σ.Knows fs) (h : σ.Ready d)
    (hΓ : ScopesMatch d.function d.scopes Γ) (callee : String) (args : List Expr)
    (types : List Ty) (hlen : args.length = types.length) :
    σ.Decides (arguments callee args types) d (fun _ _ => ArgsTyped fs Γ args types)
      (¬ArgsTyped fs Γ args types) := by
  match args, types with
  | [], [] =>
    unfold arguments
    exact .pure .nil
  | arg :: args, ty :: types =>
    unfold arguments
    refine .bind (expr_leads h arg) (expr_decides hσ h hΓ arg) ?_
      fun v d₁ ⟨_, hv⟩ ⟨source, hsource, harg⟩ => ?_
    · rintro hno (_ | ⟨harg, -, -⟩)
      exact hno _ harg
    refine .bind (coerce_leads hv.ready (by simp [LoweringError.IsUserFacing]) hsource)
      (coerce_decides hv.ready hsource) ?_ fun v' d₂ hv' hconverts => ?_
    · rintro hno (_ | ⟨harg', hconverts, -⟩)
      exact hno (harg.unique hσ.names harg' ▸ hconverts)
    have hstraight := hv.straight.trans hv'.straight
    refine .bind (arguments_leads hv'.ready callee args types (by simpa using hlen))
      (arguments_decides hσ hv'.ready (hstraight.scopesMatch hΓ) callee args types
        (by simpa using hlen)) ?_ fun vs d' _ hrest => ?_
    · rintro hno (_ | ⟨-, -, hrest⟩)
      exact hno hrest
    exact .pure (.cons harg hconverts hrest)
  | [], _ :: _ => simp at hlen
  | _ :: _, [] => simp at hlen

end

theorem truthOf_decides (hσ : σ.Knows fs) (h : σ.Ready d) {span : Span} {e : Expr} {v : Operand}
    (hv : Types fs Γ e v d) :
    σ.Decides (truth span v) d (fun _ _ => ExprNumber fs Γ e) (¬ExprNumber fs Γ e) := by
  obtain ⟨ty, hty, he⟩ := hv
  have hiff := ExprNumber.of_typed hσ.names he
  exact (truth_decides h hty).mono (fun _ _ => hiff.2) (mt hiff.1)

theorem condition_decides (hσ : σ.Knows fs) (h : σ.Ready d)
    (hΓ : ScopesMatch d.function d.scopes Γ) (e : Expr) :
    σ.Decides (condition e) d (fun _ _ => ExprNumber fs Γ e) (¬ExprNumber fs Γ e) := by
  unfold condition
  exact .bind (expr_leads h e) (expr_decides hσ h hΓ e) Untyped.not_number
    fun v d₁ ⟨_, hv⟩ he => truthOf_decides hσ hv.ready he

theorem exprAs_decides (hσ : σ.Knows fs) (h : σ.Ready d)
    (hΓ : ScopesMatch d.function d.scopes Γ) (e : Expr) {ty : Ty} {span : Span}
    {err : Ty → LoweringError} :
    σ.Decides (do coerce (← expr e) ty span err) d (fun _ _ => ExprFits fs Γ e ty)
      (¬ExprFits fs Γ e ty) := by
  refine .bind (expr_leads h e) (expr_decides hσ h hΓ e) Untyped.not_fits
    fun v d₁ ⟨_, hv⟩ ⟨source, hsource, he⟩ => ?_
  have hiff := ExprFits.of_typed hσ.names he ty
  exact (coerce_decides hv.ready hsource).mono (fun _ _ => hiff.2) (mt hiff.1)

end Lower

end Quill
