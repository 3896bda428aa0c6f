import Quill.Proofs.Lowering.Expr
import Quill.Proofs.Machine.Words

/-! # Operators from any state

An operator of words needs no more of the state of lowering than a function with an open block.
What it adds there is its code, however the function is built further.
-/
namespace Quill

open Ir (Action BlockId Build Builder FuncId Function Operand Ty)

theorem resultType_wider {l r : Ty} (hl : l.isInt) (hr : r.isInt) :
    resultType l r = .ok (l.wider r) := by
  rcases Ty.isInt_cases hl with rfl | rfl | rfl | rfl <;>
    rcases Ty.isInt_cases hr with rfl | rfl | rfl | rfl <;> rfl

theorem Ir.Builder.WorksOn.withFunction_self {b : Builder} {id : FuncId} {f : Function}
    (h : b.WorksOn id f) : b.withFunction id f = b := by
  have hself : b.module.functions.setIfInBounds id.index f = b.module.functions := by
    apply Array.ext_getElem?
    intro k
    rw [Array.getElem?_setIfInBounds]
    split
    · rename_i heq
      subst heq
      rw [if_pos (Array.getElem?_eq_some_iff.1 h.2).1, h.2]
    · rfl
  simp only [Builder.withFunction, hself]

/-- The state with another function in that place. -/
def Lowering.withFunction (s : Lowering) (id : FuncId) (g : Function) : Lowering :=
  { s with builder := s.builder.withFunction id g }

@[simp] theorem Lowering.withFunction_withFunction (s : Lowering) (id : FuncId) (f g : Function) :
    (s.withFunction id f).withFunction id g = s.withFunction id g := by
  simp [withFunction]

namespace Lower

/-- From a state at the end of block `k` of `f`, lowering gives the operand `v` and has added its
code to the block. -/
structure Adds (x : Lower Operand) (s : Lowering) (id : FuncId) (f : Function) (k : BlockId)
    (code : Function → Spot → Operand → Spot → Prop) (ty : Ty) (v : Operand) (f' : Function) :
    Prop where
  run : x.run s = (.ok v, s.withFunction id f')
  continues : f.Continues f'
  isOpen : f'.IsOpen k
  typeOf : f'.typeOf v = .ok ty
  code : ∀ g, f'.Continues g → code g (f.spot k) v (f'.spot k)

section

variable {s : Lowering} {id : FuncId} {f f' : Function} {k : BlockId} {x : Lower Operand}
  {code : Function → Spot → Operand → Spot → Prop} {source target ty : Ty} {v v' : Operand}

theorem Adds.isIn (h : Adds x s id f k code ty v f') (hs : s.builder.IsIn id f k) :
    (s.withFunction id f').builder.IsIn id f' k :=
  hs.withFunction h.isOpen

theorem Adds.here (hs : s.builder.IsIn id f k) (hv : f.typeOf v = .ok ty)
    (hrun : x.run s = (.ok v, s)) (hcode : ∀ g, f.Continues g → code g (f.spot k) v (f.spot k)) :
    Adds x s id f k code ty v f where
  run := by rw [hrun, Lowering.withFunction, hs.worksOn.withFunction_self]
  continues := .refl f
  isOpen := hs.isOpen
  typeOf := hv
  code := hcode

theorem typeOf_run (hs : s.builder.IsIn id f k) (hv : f.typeOf v = .ok ty) :
    (typeOf v).run s = (.ok ty, s) :=
  build_ok (Build.typeOf_ok hs.worksOn hv)

theorem computes_adds (hs : s.builder.IsIn id f k) {x : Build Operand} {action : Action}
    {c : Bool} (hx : x s.builder = Build.pushValue action ty c s.builder) :
    Adds (build x) s id f k (fun g => g.Makes action ty) ty (f.spot k).value
      (f.emit k action (some ⟨ty, c⟩)) where
  run := build_ok (hx.trans (Build.pushValue_ok hs action ty c))
  continues := .emit hs.isOpen _ _
  isOpen := Function.isOpen_emit hs.isOpen _ _
  typeOf := Function.typeOf_emit_value
  code := fun _ hg => ⟨hg.computes hs.isOpen, rfl, Function.spot_emit_value hs.isOpen⟩

/-- A cast by an instruction, where the builder does not cast at once. -/
theorem emitCast_adds (hs : s.builder.IsIn id f k) {x : Build Operand} (op : Ir.CastOp)
    (source target : Ty) (hx : x s.builder = Build.emitCast op v target s.builder) :
    ∃ v' f', Adds (build x) s id f k (fun g => CastCode g op source target v) target v' f' := by
  have hadds := computes_adds hs hx
  refine ⟨_, _, hadds.run, hadds.continues, hadds.isOpen, hadds.typeOf, fun g hg => ?_⟩
  obtain ⟨hcomputes, -, hspot⟩ := hadds.code g hg
  rw [hspot]
  exact .cast hcomputes

theorem foldCast_adds (hs : s.builder.IsIn id f k) (op : Ir.CastOp) (target : Ty)
    (hv : f.typeOf v = .ok source) :
    ∃ v' f', Adds (build (Build.cast op v target)) s id f k
      (fun g => CastCode g op source target v) target v' f' := by
  have hty := Build.typeOf_ok hs.worksOn hv
  cases hfold : Ir.foldCast op source v target with
  | some folded =>
    have hcast : Build.cast op v target s.builder = .ok (folded, s.builder) := by
      unfold Build.cast
      rw [Build.bind_of_ok _ hty, hfold]
      rfl
    exact ⟨folded, f, .here hs (Ir.foldCast_typeOf hfold) (build_ok hcast) fun _ _ => .folded hfold⟩
  | none =>
    refine emitCast_adds hs op source target ?_
    unfold Build.cast
    rw [Build.bind_of_ok _ hty, hfold]

theorem cast_adds (hs : s.builder.IsIn id f k) (op : Ir.CastOp) (target : Ty)
    (hv : f.typeOf v = .ok source) :
    ∃ v' f', Adds (cast op v target) s id f k (fun g => CastCode g op source target v) target
      v' f' := by
  obtain ⟨x, hx, hrun⟩ : ∃ x : Build Operand, (∃ v' f', Adds (build x) s id f k
      (fun g => CastCode g op source target v) target v' f') ∧
      (cast op v target).run s = (build x).run s := by
    cases hfolds : s.folds with
    | true =>
      refine ⟨Build.cast op v target, foldCast_adds hs op target hv, ?_⟩
      rw [cast, get_bind_run, hfolds]
      rfl
    | false =>
      refine ⟨Build.emitCast op v target, emitCast_adds hs op source target rfl, ?_⟩
      rw [cast, get_bind_run, hfolds]
      rfl
  obtain ⟨v', f', hadds⟩ := hx
  exact ⟨v', f', hrun.trans hadds.run, hadds.continues, hadds.isOpen, hadds.typeOf, hadds.code⟩

theorem convert_adds (hs : s.builder.IsIn id f k) (hv : f.typeOf v = .ok source)
    (hsource : source.isNumber) (htarget : target.isNumber) :
    ∃ v' f', Adds (convert v target) s id f k
      (fun g => ConvertCode g source target v) target v' f' := by
  have hrun : (convert v target).run s =
      (if source = target then pure v
        else cast (castOp source target) v target : Lower Operand).run s :=
    bind_run_of_ok (typeOf_run hs hv) _
  by_cases heq : source = target
  · rw [if_pos heq] at hrun
    exact ⟨v, f, .here hs (heq ▸ hv) hrun fun _ _ => .same heq⟩
  · rw [if_neg heq] at hrun
    obtain ⟨v', f', hadds⟩ := cast_adds hs (castOp source target) target hv
    exact ⟨v', f', hrun.trans hadds.run, hadds.continues, hadds.isOpen, hadds.typeOf,
      fun g hg => .numbers heq hsource htarget (hadds.code g hg)⟩

theorem operate_adds (hs : s.builder.IsIn id f k) (operation : Operation) {l r : Operand}
    (hl : f.typeOf l = .ok ty) :
    ∃ v f', Adds (operate operation l r) s id f k
      (fun g => g.Makes (operation.action l r) (operation.resultTy ty)) (operation.resultTy ty)
      v f' := by
  cases operation with
  | arithmetic op =>
    exact ⟨_, _, computes_adds hs (c := false)
      (Build.bind_of_ok _ (Build.typeOf_ok hs.worksOn hl) _)⟩
  | comparison pred => exact ⟨_, _, computes_adds hs rfl⟩

/-- An operator of two words is lowered, to a result of the wider type or to a truth value. -/
theorem binary_adds (hs : s.builder.IsIn id f k) {span : Span} (op : Operator) {l r : Operand}
    {tl tr : Ty} (hl : f.typeOf l = .ok tl) (hr : f.typeOf r = .ok tr) (htl : tl.isInt)
    (htr : tr.isInt) :
    ∃ v f', Adds (binary span op l r) s id f k (fun g => BinaryCode g op l r)
      ((wholeOperation op).resultTy (tl.wider tr)) v f' := by
  have hty := Ty.isInt_wider htl htr
  have hnumber := Ty.isNumber_of_isInt hty
  obtain ⟨l', f₁, hadds₁⟩ := convert_adds hs hl (Ty.isNumber_of_isInt htl) hnumber
  have hs₁ := hadds₁.isIn hs
  obtain ⟨r', f₂, hadds₂⟩ := convert_adds hs₁
    (hadds₁.continues.typeOf hr) (Ty.isNumber_of_isInt htr) hnumber
  have hs₂ := hadds₂.isIn hs₁
  obtain ⟨v, f₃, hadds₃⟩ := operate_adds (r := r') hs₂ (wholeOperation op)
    (hadds₂.continues.typeOf hadds₁.typeOf)
  refine ⟨v, f₃, ?_, (hadds₁.continues.trans hadds₂.continues).trans hadds₃.continues,
    hadds₃.isOpen, hadds₃.typeOf, fun g hg => ?_⟩
  · unfold binary
    rw [bind_run_of_ok (typeOf_run hs hl), bind_run_of_ok (typeOf_run hs hr),
      resultType_wider htl htr]
    simp only [Ty.isPointer_of_isInt hty, Ty.isFloat_of_isInt hty, Bool.false_eq_true, ↓reduceIte]
    rw [bind_run_of_ok hadds₁.run, bind_run_of_ok hadds₂.run, hadds₃.run]
    simp only [Lowering.withFunction_withFunction]
  · have hg₂ := hadds₃.continues.trans hg
    have hg₁ := hadds₂.continues.trans hg₂
    have hg₀ := hadds₁.continues.trans hg₁
    obtain ⟨hcomputes, rfl, hspot⟩ := hadds₃.code g hg
    rw [hspot]
    exact .numbers (hg₀.typeOf hl) (hg₀.typeOf hr) (resultType_wider htl htr)
      (Ty.isPointer_of_isInt hty) (hadds₁.code g hg₁) (hadds₂.code g hg₂)
      (by simp [operation?, Ty.isFloat_of_isInt hty]) hcomputes

end

end Lower

end Quill
