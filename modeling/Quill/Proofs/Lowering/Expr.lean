import Mathlib.Data.List.Forall2
import Quill.Proofs.Ir.Checks
import Quill.Proofs.Lowering.Work

/-! # Expressions become code

Lowering an expression adds instructions to the current block and nothing else. The operand that
comes out has a type, and the instructions are code of the expression.
-/
namespace Quill

open Ir (Action Block BlockId Build FuncId Function Global Module Operand SlotId Slot Ty ValueInfo)
open Library (Direction)

/-! ### Straight lines -/

namespace Site

variable (σ : Site)

/-- The draft goes on in the same block with the same variables in sight. -/
structure Straight (d d' : Draft) : Prop where
  work : σ.Work d [] [] d'
  isOpen : d'.function.IsOpen d'.block
  block : d'.block = d.block
  scopes : d'.scopes = d.scopes

variable {σ} {d d' d₁ d₂ : Draft}

namespace Straight

theorem ready (h : σ.Straight d d') : σ.Ready d' := ⟨h.work.sane, h.isOpen⟩

theorem refl (h : σ.Ready d) : σ.Straight d d := ⟨.refl h, h.isOpen, rfl, rfl⟩

theorem trans (h : σ.Straight d d₁) (h' : σ.Straight d₁ d₂) : σ.Straight d d₂ :=
  ⟨h.work.trans h'.work, h'.isOpen, h'.block.trans h.block, h'.scopes.trans h.scopes⟩

theorem typeOf (h : σ.Straight d d') {v : Operand} {ty : Ty} (hv : d.function.typeOf v = .ok ty) :
    d'.function.typeOf v = .ok ty :=
  h.work.continues.typeOf hv

theorem earlier (h : σ.Straight d d') {m : Module} {f : Function} (hf : σ.Final d' m f) :
    σ.Final d m f :=
  h.work.earlier hf

theorem emit (h : σ.Ready d) {action : Action}
    (hcheck : ∀ m f, σ.Final d m f → action.check m f = .ok ()) :
    σ.Straight d (d.emit action none) :=
  ⟨.emit h (by simp) hcheck, d.isOpen_emit h.isOpen _ _, rfl, rfl⟩

theorem emitValue (h : σ.Ready d) {action : Action} {ty : Ty} {c : Bool} (hty : ty ≠ .void)
    (hc : c = true → ty = .i1) (hcheck : ∀ m f, σ.Final d m f → action.check m f = .ok ()) :
    σ.Straight d (d.emit action (some ⟨ty, c⟩)) := by
  refine ⟨.emit h ?_ hcheck, d.isOpen_emit h.isOpen _ _, rfl, rfl⟩
  rintro _ ⟨⟩
  exact ⟨hty, hc⟩

end Straight

end Site

theorem Draft.typeOf_nextValue (d : Draft) (action : Action) (info : ValueInfo) :
    (d.emit action (some info)).function.typeOf d.nextValue = .ok info.ty :=
  Function.typeOf_emit_value

namespace Lower

open Site

variable {σ : Site} {d : Draft}

/-- Where an expression has led: straight on, to an operand that has a type. -/
structure Gives (σ : Site) (d : Draft) (code : Module → Function → Spot → Operand → Spot → Prop)
    (ty : Ty) (v : Operand) (d' : Draft) : Prop where
  straight : σ.Straight d d'
  typeOf : d'.function.typeOf v = .ok ty
  code : ∀ m f, σ.Final d' m f → code m f d.spot v d'.spot

theorem Gives.ready {code ty v d'} (h : Gives σ d code ty v d') : σ.Ready d' := h.straight.ready

theorem computes_leads (h : σ.Ready d) {x : Build Operand} {action : Action} {ty : Ty} {c : Bool}
    (hrun : x (σ.builder d) = .ok (d.nextValue, σ.builder (d.emit action (some ⟨ty, c⟩))))
    (hty : ty ≠ .void) (hc : c = true → ty = .i1)
    (hcheck : ∀ m f, σ.Final d m f → action.check m f = .ok ()) :
    σ.Leads (build x) d
      (Gives σ d (fun _ f => f.Makes action ty) ty) :=
  .of_run (build_run hrun)
    { straight := .emitValue h hty hc hcheck
      typeOf := d.typeOf_nextValue _ _
      code := fun _ _ hf => ⟨hf.computes h.isOpen, rfl, Draft.spot_emit_value h.isOpen⟩ }

theorem load_leads (h : σ.Ready d) {slot : SlotId} {ty : Ty} (hs : d.function.HasSlot slot ty) :
    σ.Leads (build (Build.load slot)) d
      (Gives σ d (fun _ f => f.Makes (.load slot) ty) ty) := by
  obtain ⟨name, hname⟩ := hs
  exact computes_leads h (load_run h.isOpen hname) (h.slots _ _ hname) (by simp) fun _ _ _ => rfl

theorem compare_leads (h : σ.Ready d) {pred : Ir.Predicate} {l r : Operand} {ty : Ty}
    (hl : d.function.typeOf l = .ok ty) (hr : d.function.typeOf r = .ok ty) (hty : ty ≠ .void)
    (hpred : (if pred.isFloat then ty.isFloat else ty.isInt || ty.isPointer) = true) :
    σ.Leads (build (Build.compare pred l r)) d
      (Gives σ d (fun _ f => f.Makes (.compare pred l r) .i1) .i1) :=
  computes_leads h (compare_run h.isOpen pred l r) (by decide) (fun _ => rfl) fun _ _ hf =>
    Function.check_compare (hf.continues.typeOf hl) (hf.continues.typeOf hr) hty hpred

theorem cast_leads (h : σ.Ready d) {op : Ir.CastOp} {v : Operand} {source target : Ty}
    (hv : d.function.typeOf v = .ok source) (hop : op.isLegal source target = true)
    (hsource : source ≠ .void) (htarget : target ≠ .void) :
    σ.Leads (cast op v target) d
      (Gives σ d (fun _ f => CastCode f op source target v) target) := by
  have hemit {x : Build Operand} (hx : x (σ.builder d) =
      .ok (d.nextValue, σ.builder (d.emit (.cast op v target) (some ⟨target, false⟩)))) :
      σ.Leads (build x) d (Gives σ d (fun _ f => CastCode f op source target v) target) := by
    refine (computes_leads h hx htarget (by simp) fun _ _ hf =>
      Function.check_cast (hf.continues.typeOf hv) hsource hop).mono fun v' d' hg => ?_
    refine ⟨hg.straight, hg.typeOf, fun m f hf => ?_⟩
    obtain ⟨hcode, rfl, hspot⟩ := hg.code m f hf
    rw [hspot]
    exact .cast hcode
  unfold cast
  refine .step (a := σ.working d) rfl ?_
  split
  · cases hfold : Ir.foldCast op source v target with
    | some v' =>
      exact .of_run (build_run (cast_folded hv hfold))
        ⟨.refl h, Ir.foldCast_typeOf hfold, fun _ _ _ => .folded hfold⟩
    | none => exact hemit (cast_run h.isOpen hv hfold)
  · exact hemit (emitCast_run h.isOpen op v target)

theorem convert_leads (h : σ.Ready d) {v : Operand} {source target : Ty}
    (hv : d.function.typeOf v = .ok source)
    (hnum : source ≠ target → source.isNumber = true ∧ target.isNumber = true) :
    σ.Leads (convert v target) d
      (Gives σ d (fun _ f => ConvertCode f source target v) target) := by
  unfold convert
  refine .step (typeOf_lower_run hv) ?_
  by_cases heq : source = target
  · rw [if_pos heq]
    exact .pure ⟨.refl h, heq ▸ hv, fun _ _ _ => .same heq⟩
  · rw [if_neg heq]
    obtain ⟨hs, ht⟩ := hnum heq
    refine (cast_leads h hv (castOp_isLegal hs ht heq) (Ty.ne_void_of_isNumber hs)
      (Ty.ne_void_of_isNumber ht)).mono fun v' d' hg => ?_
    exact ⟨hg.straight, hg.typeOf, fun m f hf => .numbers heq hs ht (hg.code m f hf)⟩

theorem coerce_leads (h : σ.Ready d) {v : Operand} {source target : Ty} {span : Span}
    {e : Ty → LoweringError} (he : ∀ t, (e t).IsUserFacing)
    (hv : d.function.typeOf v = .ok source) :
    σ.Leads (coerce v target span e) d
      (Gives σ d (fun _ f => ConvertCode f source target v) target) := by
  have hcoerce : σ.Leads (coerce? v target) d fun v? d' => ∀ v', v? = some v' →
      Gives σ d (fun _ f => ConvertCode f source target v) target v' d' := by
    unfold coerce?
    refine .step (typeOf_lower_run hv) ?_
    by_cases heq : source = target
    · rw [if_pos heq]
      refine .pure ?_
      rintro _ ⟨⟩
      exact ⟨.refl h, heq ▸ hv, fun _ _ _ => .same heq⟩
    · rw [if_neg heq]
      by_cases hbad : (source.isPointer || target.isPointer || source.isVoid || target.isVoid) = true
      · simp only [hbad, ↓reduceIte]
        exact .pure (by simp)
      · simp only [hbad, Bool.false_eq_true, ↓reduceIte]
        have hs : source.isNumber := by
          refine Ty.isNumber_of (by simp_all) ?_
          rintro rfl
          simp [Ty.isVoid] at hbad
        have ht : target.isNumber := by
          refine Ty.isNumber_of (by simp_all) ?_
          rintro rfl
          simp [Ty.isVoid] at hbad
        refine (convert_leads h hv fun _ => ⟨hs, ht⟩).bind fun v' d' hg => .pure ?_
        rintro _ ⟨⟩
        exact hg
  unfold coerce
  refine .step (typeOf_lower_run hv) (hcoerce.bind fun v? d' hg => ?_)
  cases v? with
  | none => exact .reject (he source)
  | some v' => exact .pure (hg v' rfl)

/-! ### Operators -/

/-- The operation is defined on numbers of the type. -/
def Operation.Fits (ty : Ty) : Operation → Prop
  | arithmetic op => (if op.isFloat then ty.isFloat else ty.isInt) = true
  | comparison pred => (if pred.isFloat then ty.isFloat else ty.isInt || ty.isPointer) = true

theorem operation?_fits {op : Operator} {ty : Ty} {operation : Operation} (hty : ty.isNumber)
    (h : operation? op ty = some operation) : operation.Fits ty := by
  unfold operation? at h
  by_cases hf : ty.isFloat = true
  · rw [if_pos hf] at h
    cases op <;> simp only [fractionOperation?, Option.some.injEq, reduceCtorEq] at h <;>
      subst h <;> exact hf
  · have hi : ty.isInt = true := by simpa [Ty.isNumber, hf] using hty
    rw [if_neg hf] at h
    obtain rfl := Option.some.inj h
    cases op <;> simp [wholeOperation, Operation.Fits, Ir.BinaryOp.isFloat, Ir.Predicate.isFloat, hi]

theorem operate_leads (h : σ.Ready d) {operation : Operation} {l r : Operand} {ty : Ty}
    (hl : d.function.typeOf l = .ok ty) (hr : d.function.typeOf r = .ok ty) (hty : ty ≠ .void)
    (hfits : operation.Fits ty) :
    σ.Leads (operate operation l r) d (Gives σ d
      (fun _ f => f.Makes (operation.action l r) (operation.resultTy ty)) (operation.resultTy ty)) := by
  cases operation with
  | arithmetic op =>
    exact computes_leads h (binary_run h.isOpen hl) hty (by simp) fun _ _ hf =>
      Function.check_binary (hf.continues.typeOf hl) (hf.continues.typeOf hr) hty hfits
  | comparison pred => exact compare_leads h hl hr hty hfits

theorem binary_leads (h : σ.Ready d) {span : Span} {op : Operator} {l r : Operand} {tl tr : Ty}
    (hl : d.function.typeOf l = .ok tl) (hr : d.function.typeOf r = .ok tr) :
    σ.Leads (binary span op l r) d fun v d' =>
      ∃ ty, Gives σ d (fun _ f => BinaryCode f op l r) ty v d' := by
  unfold binary
  refine .step (typeOf_lower_run hl) (.step (typeOf_lower_run hr) ?_)
  cases hres : resultType tl tr with
  | error e => exact .reject
  | ok ty =>
    obtain ⟨hlv, hrv, ⟨hp, rfl, rfl⟩ | ⟨hp, hln, hrn, hn⟩⟩ := resultType_cases hres
    · simp only [hp, ↓reduceIte]
      by_cases hop : op = .eq
      · rw [if_pos hop]
        refine (compare_leads h hl hr hlv (by simp [Ir.Predicate.isFloat, hp])).mono
          fun v d' hg => ⟨.i1, hg.straight, hg.typeOf, fun m f hf => ?_⟩
        obtain ⟨hcode, rfl, hspot⟩ := hg.code m f hf
        rw [hspot]
        have hd := hg.straight.earlier hf
        exact .pointers (hd.continues.typeOf hl) (hd.continues.typeOf hr) hp hop hcode
      · rw [if_neg hop]
        exact .reject
    · simp only [hp, Bool.false_eq_true, ↓reduceIte]
      refine (convert_leads h hl fun _ => ⟨hln, hn⟩).bind fun l' d₁ hg₁ => ?_
      have hr₁ := hg₁.straight.typeOf hr
      refine (convert_leads hg₁.ready hr₁ fun _ => ⟨hrn, hn⟩).bind fun r' d₂ hg₂ => ?_
      have hl₂ := hg₂.straight.typeOf hg₁.typeOf
      have hlast {operation : Operation} (hop : operation? op ty = some operation) :
          σ.Leads (operate operation l' r') d₂ fun v d' =>
            ∃ ty, Gives σ d (fun _ f => BinaryCode f op l r) ty v d' := by
        refine (operate_leads hg₂.ready hl₂ hg₂.typeOf (Ty.ne_void_of_isNumber hn)
          (operation?_fits hn hop)).mono fun v d' hg => ?_
        refine ⟨_, hg₁.straight.trans (hg₂.straight.trans hg.straight), hg.typeOf,
          fun m f hf => ?_⟩
        obtain ⟨hcode, rfl, hspot⟩ := hg.code m f hf
        have hf₂ := hg.straight.earlier hf
        have hf₁ := hg₂.straight.earlier hf₂
        have hf₀ := hg₁.straight.earlier hf₁
        rw [hspot]
        exact .numbers (hf₀.continues.typeOf hl) (hf₀.continues.typeOf hr) hres hp
          (hg₁.code m f hf₁) (hg₂.code m f hf₂) hop hcode
      by_cases hfloat : ty.isFloat = true
      · simp only [hfloat, ↓reduceIte]
        cases hop : fractionOperation? op with
        | none => exact .reject
        | some operation => exact hlast (by simp [operation?, hfloat, hop])
      · simp only [hfloat, Bool.false_eq_true, ↓reduceIte]
        exact hlast (by simp [operation?, hfloat])

theorem typeOf_comparison (h : σ.Ready d) {v : Operand}
    (hc : d.function.isComparison v = .ok true) : d.function.typeOf v = .ok .i1 := by
  cases v with
  | inst id =>
    simp only [Function.isComparison, Function.typeOf, Function.value, Ir.map_eq_ok,
      Ir.entry_eq_ok] at hc ⊢
    obtain ⟨info, hinfo, hflag⟩ := hc
    exact ⟨info, hinfo, (h.values _ _ hinfo).2 hflag⟩
  | _ => cases hc

/-- A truth value for an operand, unless it is neither number nor comparison. -/
theorem truth_leads (h : σ.Ready d) {span : Span} {v : Operand} {ty : Ty}
    (hv : d.function.typeOf v = .ok ty) :
    σ.Leads (truth span v) d (Gives σ d (fun _ f => TruthCode f v) .i1) := by
  obtain ⟨c, hc⟩ := Function.isComparison_ok hv
  unfold truth
  refine .step (build_run (isComparison_run hc)) ?_
  cases c with
  | true =>
    have hi1 := typeOf_comparison h hc
    exact .pure ⟨.refl h, hi1, fun m f hf => .comparison (hf.continues.typeOf hi1)⟩
  | false =>
    simp only [Bool.false_eq_true, ↓reduceIte]
    refine .step (typeOf_lower_run hv) ?_
    by_cases hi : ty.isInt = true
    · have hn : ty.isNumber := by simp [Ty.isNumber, hi]
      rw [if_pos hi]
      refine (compare_leads h hv (Ir.typeOf_zero _ _) (Ty.ne_void_of_isNumber hn)
        (by simp [Ir.Predicate.isFloat, hi])).mono fun t d' hg => ?_
      refine ⟨hg.straight, hg.typeOf, fun m f hf => ?_⟩
      obtain ⟨hcode, rfl, hspot⟩ := hg.code m f hf
      rw [hspot]
      exact .whole ((hg.straight.earlier hf).continues.typeOf hv) hi hcode
    · rw [if_neg hi]
      by_cases hfl : ty.isFloat = true
      · have hn : ty.isNumber := by simp [Ty.isNumber, hfl]
        rw [if_pos hfl]
        refine (compare_leads h hv (Ir.typeOf_zero _ _) (Ty.ne_void_of_isNumber hn)
          (by simp [Ir.Predicate.isFloat, hfl])).mono fun t d' hg => ?_
        refine ⟨hg.straight, hg.typeOf, fun m f hf => ?_⟩
        obtain ⟨hcode, rfl, hspot⟩ := hg.code m f hf
        rw [hspot]
        exact .fraction ((hg.straight.earlier hf).continues.typeOf hv) hfl hcode
      · rw [if_neg hfl]
        exact .reject

/-! ### Calls -/

/-- A declared function looks the same to its callers at any time. -/
theorem callee (h : σ.Ready d) {id : FuncId} (hid : id.index < σ.module.functions.size) :
    ∃ g, (σ.builder d).module.function id = .ok g ∧
      g.signature = σ.module.functions[id.index].signature := by
  have hsignature := signatures_builder h.signature id.index
  rw [Array.getElem?_eq_getElem hid] at hsignature
  obtain ⟨g, hg, hgs⟩ := Option.map_eq_some_iff.1 hsignature
  exact ⟨g, Ir.entry_eq_ok.2 hg, hgs⟩

theorem final_callee {m : Module} {f : Function} (hf : σ.Final d m f) {id : FuncId}
    (hid : id.index < σ.module.functions.size) :
    ∃ g, m.functions[id.index]? = some g ∧
      g.signature = σ.module.functions[id.index].signature := by
  have := hf.signatures id.index
  rw [Array.getElem?_eq_getElem hid] at this
  simpa using this

def Operands (f : Function) (vs : List Operand) (types : List Ty) : Prop :=
  List.Forall₂ (fun v ty => f.typeOf v = .ok ty) vs types

theorem check_operands {m : Module} {f g : Function} {id : FuncId} {vs : List Operand}
    (hid : m.functions[id.index]? = some g) (hparams : ∀ p ∈ g.params, p.ty ≠ .void)
    (h : Operands f vs (g.params.map Ir.Param.ty)) : (Action.call id vs).check m f = .ok () := by
  refine Function.check_call hid (.inl ?_) fun k v hv => ?_
  · simpa using h.length_eq
  · have hk := (List.getElem?_eq_some_iff.1 hv).1
    have hk' : k < g.params.length := by simpa [h.length_eq] using hk
    have hget := h.get hk (by simpa using hk')
    obtain rfl : vs[k] = v := (List.getElem?_eq_some_iff.1 hv).2
    refine ⟨g.params[k].ty, by simpa using hget, hparams _ (List.getElem_mem hk'), ?_⟩
    intro p hp
    rw [List.getElem?_eq_getElem hk'] at hp
    cases hp
    rfl

theorem call_leads (h : σ.Ready d) {id : FuncId} (hid : id.index < σ.module.functions.size)
    {vs : List Operand} {s : Ir.Signature} (hs : σ.module.functions[id.index].signature = s)
    (hvs : Operands d.function vs (s.params.map Ir.Param.ty)) :
    σ.Leads (build (Build.call id vs)) d (Gives σ d (fun _ f => CallCode f id s.ret vs) s.ret) := by
  obtain ⟨g, hg, hsig⟩ := callee h hid
  have hret : g.ret = s.ret := congrArg Ir.Signature.ret (hsig.trans hs)
  have hcheck (m f) (hf : σ.Final d m f) : (Action.call id vs).check m f = .ok () := by
    obtain ⟨g', hg', hsig'⟩ := final_callee hf hid
    have hparams : g'.params = s.params := congrArg Ir.Signature.params (hsig'.trans hs)
    have hdeclared : σ.module.functions[id.index].params = s.params :=
      congrArg Ir.Signature.params hs
    refine check_operands hg' (fun p hp => ?_) ?_
    · exact σ.params _ (Array.getElem_mem hid) p (by rwa [hdeclared, ← hparams])
    · rw [hparams]
      exact hvs.imp fun v ty hv => hf.continues.typeOf hv
  have hrun := call_run h.isOpen hg vs
  rw [← hret]
  by_cases hvoid : g.ret = .void
  · have hinfo : callInfo? g = none := by simp [callInfo?, hvoid, Ty.isVoid]
    have hop : callOperand d g = .void := by simp [callOperand, hvoid, Ty.isVoid]
    rw [hinfo, hop] at hrun
    refine .of_run (build_run hrun) ⟨.emit h hcheck, by simp [Function.typeOf, hvoid], ?_⟩
    intro m f hf
    rw [Draft.spot_emit h.isOpen]
    exact .void hvoid (hf.performs h.isOpen)
  · have hinfo : callInfo? g = some ⟨g.ret, false⟩ := by simp [callInfo?, hvoid, Ty.isVoid]
    have hop : callOperand d g = d.nextValue := by simp [callOperand, hvoid, Ty.isVoid]
    rw [hinfo, hop] at hrun
    refine (computes_leads h hrun hvoid (by simp) hcheck).mono fun v d' hgives => ?_
    refine ⟨hgives.straight, hgives.typeOf, fun m f hf => ?_⟩
    obtain ⟨hcode, rfl, hspot⟩ := hgives.code m f hf
    rw [hspot]
    exact .value hvoid hcode

/-- The operand is the value of the expression. -/
def GivesExpr (σ : Site) (d : Draft) (e : Expr) (v : Operand) (d' : Draft) : Prop :=
  ∃ ty, Gives σ d (fun m f => ExprCode m σ.state.functions f d.scopes e) ty v d'

structure GivesArgs (σ : Site) (d : Draft) (args : List Expr) (types : List Ty) (vs : List Operand)
    (d' : Draft) : Prop where
  straight : σ.Straight d d'
  operands : Operands d'.function vs types
  code : ∀ m f, σ.Final d' m f →
    ArgsCode m σ.state.functions f d.scopes args types d.spot vs d'.spot

theorem callWith_leads (h : σ.Ready d) {span : Span} {name : Ident} {args : List Expr}
    {lowerArgs : List Ty → Lower (List Operand)}
    (hargs : ∀ types, types.length = args.length →
      σ.Leads (lowerArgs types) d (GivesArgs σ d args types)) :
    σ.Leads (callWith span name args.length lowerArgs) d (GivesExpr σ d (.call name args span)) := by
  unfold callWith
  refine .step (a := σ.working d) rfl ?_
  cases hlookup : σ.state.functions.lookup name.text with
  | none =>
    simp only [Site.working, hlookup]
    exact .reject
  | some id =>
    have hid := σ.callable _ _ hlookup
    obtain ⟨g, hg, hsig⟩ := callee h hid
    have hrun : (build (do Build.ofExcept ((← MonadState.get).module.function id))).run
        (σ.working d) = (.ok g, σ.working d) := by
      refine build_run ?_
      rw [Ir.Build.bind_of_ok _ (Ir.Build.get_apply _), Ir.Build.ofExcept_apply, hg]
      rfl
    simp only [Site.working, hlookup]
    refine .step hrun ?_
    by_cases hcount : (g.params.map Ir.Param.ty).length ≠ args.length
    · rw [if_pos hcount]
      exact .reject_bind
    · rw [if_neg hcount]
      have hlen : (g.params.map Ir.Param.ty).length = args.length := Decidable.of_not_not hcount
      refine (hargs _ hlen).bind fun vs d₁ hvs => ?_
      refine (call_leads hvs.straight.ready hid hsig.symm hvs.operands).mono fun v d' hgives => ?_
      refine ⟨g.ret, hvs.straight.trans hgives.straight, hgives.typeOf, fun m f hf => ?_⟩
      obtain ⟨g', hg', hsig'⟩ := final_callee hf hid
      have hparams : g'.params = g.params :=
        congrArg Ir.Signature.params (hsig'.trans hsig.symm)
      have hret : g'.ret = g.ret := congrArg Ir.Signature.ret (hsig'.trans hsig.symm)
      have hcode := hvs.code m f (hgives.straight.earlier hf)
      refine .call hlookup hg' (by simpa [hparams] using hlen) (hparams ▸ hcode) ?_
      rw [hret]
      exact hgives.code m f hf

/-! ### Expressions -/

theorem hasSlot_of_find? (h : σ.Ready d) {x : String} {slot : SlotId}
    (hx : d.scopes.find? x = some slot) : ∃ ty, d.function.HasSlot slot ty := by
  have hlt := h.bound slot (Scopes.mem_slots_of_find? hx)
  exact ⟨_, _, Array.getElem?_eq_getElem hlt⟩

theorem load_variable (h : σ.Ready d) (x : Ident) :
    σ.Leads (load x) d (GivesExpr σ d (.var x)) := by
  unfold load
  refine .step (find?_run x.text) ?_
  cases hx : d.scopes.find? x.text with
  | none => exact .reject
  | some slot =>
    obtain ⟨ty, hty⟩ := hasSlot_of_find? h hx
    refine (load_leads h hty).mono fun v d' hg => ?_
    refine ⟨ty, hg.straight, hg.typeOf, fun m f hf => ?_⟩
    obtain ⟨hcode, rfl, hspot⟩ := hg.code m f hf
    rw [hspot]
    exact .var hx ((hg.straight.earlier hf).continues.hasSlot hty) hcode

/-- With both operands of an expression `e` lowered it remains to apply the operator. -/
theorem operands_lead {span : Span} {op : Operator} {lhs rhs e : Expr} {l r : Operand}
    {d₁ d₂ : Draft} (hl : GivesExpr σ d lhs l d₁) (hr : GivesExpr σ d₁ rhs r d₂)
    (hcode : ∀ {m f p l p₁ r p₂ v q}, ExprCode m σ.state.functions f d.scopes lhs p l p₁ →
      ExprCode m σ.state.functions f d.scopes rhs p₁ r p₂ → BinaryCode f op l r p₂ v q →
      ExprCode m σ.state.functions f d.scopes e p v q) :
    σ.Leads (binary span op l r) d₂ (GivesExpr σ d e) := by
  obtain ⟨tl, hl⟩ := hl
  obtain ⟨tr, hr⟩ := hr
  refine (binary_leads hr.ready (hr.straight.typeOf hl.typeOf) hr.typeOf).mono
    fun v d' ⟨ty, hv⟩ => ?_
  refine ⟨ty, hl.straight.trans (hr.straight.trans hv.straight), hv.typeOf, fun m f hf => ?_⟩
  have hf₂ := hv.straight.earlier hf
  have hf₁ := hr.straight.earlier hf₂
  have hrhs := hr.code m f hf₂
  rw [hl.straight.scopes] at hrhs
  exact hcode (hl.code m f hf₁) hrhs (hv.code m f hf)

mutual

theorem expr_leads {σ : Site} {d : Draft} (h : σ.Ready d) (e : Expr) :
    σ.Leads (expr e) d (GivesExpr σ d e) := by
  match e with
  | .int n span =>
    unfold expr
    have hty : ∃ ty, d.function.typeOf (literal n) = .ok ty := by
      unfold literal
      split <;> exact ⟨_, rfl⟩
    obtain ⟨ty, hty⟩ := hty
    exact .pure ⟨ty, .refl h, hty, fun _ _ _ => .int⟩
  | .float x span =>
    unfold expr
    exact .pure ⟨.f64, .refl h, rfl, fun _ _ _ => .float⟩
  | .var x =>
    unfold expr
    exact load_variable h x
  | .binary op lhs rhs =>
    unfold expr
    refine (expr_leads h lhs).bind fun l d₁ ⟨tl, hl⟩ => ?_
    refine (expr_leads hl.ready rhs).bind fun r d₂ hr => ?_
    exact operands_lead ⟨tl, hl⟩ hr .binary
  | .semi op lead rhs span =>
    unfold expr
    refine (load_variable h lead).bind fun l d₁ ⟨tl, hl⟩ => ?_
    refine (expr_leads hl.ready rhs).bind fun r d₂ hr => ?_
    exact operands_lead ⟨tl, hl⟩ hr .semi
  | .call callee args span =>
    unfold expr
    exact callWith_leads h fun types hlen => arguments_leads h callee.text args types hlen.symm

theorem arguments_leads {σ : Site} {d : Draft} (h : σ.Ready d) (callee : String)
    (args : List Expr) (types : List Ty) (hlen : args.length = types.length) :
    σ.Leads (arguments callee args types) d (GivesArgs σ d args types) := by
  match args, types with
  | [], [] =>
    unfold arguments
    exact .pure ⟨.refl h, .nil, fun _ _ _ => .nil⟩
  | arg :: args, ty :: types =>
    unfold arguments
    refine (expr_leads h arg).bind fun v d₁ ⟨source, hv⟩ => ?_
    refine (coerce_leads hv.ready (by simp [LoweringError.IsUserFacing]) hv.typeOf).bind
      fun v' d₂ hv' => ?_
    refine (arguments_leads hv'.ready callee args types (by simpa using hlen)).bind
      fun vs d' hvs => .pure ?_
    refine ⟨hv.straight.trans (hv'.straight.trans hvs.straight),
      .cons (hvs.straight.typeOf hv'.typeOf) hvs.operands, fun m f hf => ?_⟩
    have hf₂ := hvs.straight.earlier hf
    have hf₁ := hv'.straight.earlier hf₂
    have hrest := hvs.code m f hf
    rw [hv'.straight.scopes, hv.straight.scopes] at hrest
    exact .cons (hv.code m f hf₁) (hf₁.continues.typeOf hv.typeOf) (hv'.code m f hf₂) hrest
  | [], _ :: _ => simp at hlen
  | _ :: _, [] => simp at hlen

end

theorem condition_leads (h : σ.Ready d) (e : Expr) :
    σ.Leads (condition e) d
      (Gives σ d (fun m f => ConditionCode m σ.state.functions f d.scopes e) .i1) := by
  unfold condition
  refine (expr_leads h e).bind fun v d₁ ⟨ty, hv⟩ => ?_
  refine (truth_leads hv.ready hv.typeOf).mono fun t d' ht => ?_
  refine ⟨hv.straight.trans ht.straight, ht.typeOf, fun m f hf => ?_⟩
  exact ⟨v, d₁.spot, hv.code m f (ht.straight.earlier hf), ht.code m f hf⟩

theorem exprAs_leads (h : σ.Ready d) (e : Expr) {ty : Ty} {span : Span} {err : Ty → LoweringError}
    (herr : ∀ t, (err t).IsUserFacing) :
    σ.Leads (do coerce (← expr e) ty span err) d
      (Gives σ d (fun m f => CoerceCode m σ.state.functions f d.scopes e ty) ty) := by
  refine (expr_leads h e).bind fun v d₁ ⟨source, hv⟩ => ?_
  refine (coerce_leads hv.ready herr hv.typeOf).mono fun v' d' hv' => ?_
  refine ⟨hv.straight.trans hv'.straight, hv'.typeOf, fun m f hf => ?_⟩
  have hf₁ := hv'.straight.earlier hf
  exact ⟨v, d₁.spot, source, hv.code m f hf₁, hf₁.continues.typeOf hv.typeOf, hv'.code m f hf⟩

end Lower

end Quill
