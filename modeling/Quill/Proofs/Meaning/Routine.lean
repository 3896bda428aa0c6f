import Quill.Proofs.Meaning.Stmt

/-! # Code of routines does what they do

An activation that begins with arguments gives back the result of the routine, and a call gives it
to the activation that waits. Calls run out of room in the machine when they do in the evaluator.
-/
namespace Quill

open Ir (BlockId FuncId Function Module Operand SlotId Ty)
open Meaning (Env Eval Flow Setting Simulates Typed consoleOf)

variable {f g : Function} {frame : BodyFrame} {callers : List Activation} {m : Module}
  {c c' : Config} {p q : Spot} {v : Operand} {env : Env} {scopes s' : Scopes} {slot : SlotId}
  {ty : Ty} {fuel : Nat} {table : List (String × FuncId)} {S : Setting} {r : Routine}
  {args : List Value}

/-! ### The beginning of a body -/

/-- From one place to another the machine takes some steps without a word. -/
def Arranges (m : Module) (c : Config) (P : Config → Prop) : Prop :=
  ∃ n c', c.Steps m n c' ∧ c'.world = c.world ∧ c'.current.args = c.current.args ∧ P c'

namespace Arranges

variable {P Q : Config → Prop}

theorem here (h : P c) : Arranges m c P := ⟨0, c, .refl, rfl, rfl, h⟩

theorem step (hstep : c.Steps m 1 c') (hworld : c'.world = c.world)
    (hargs : c'.current.args = c.current.args) (h : Arranges m c' P) : Arranges m c P := by
  obtain ⟨n, c₂, hsteps, hworld₂, hargs₂, hP⟩ := h
  exact ⟨_, c₂, hstep.trans hsteps, hworld₂.trans hworld, hargs₂.trans hargs, hP⟩

theorem trans (h : Arranges m c P)
    (hP : ∀ c', c'.current.args = c.current.args → P c' → Arranges m c' Q) : Arranges m c Q := by
  obtain ⟨n, c₁, hsteps, hworld, hargs, h₁⟩ := h
  obtain ⟨n', c₂, hsteps', hworld', hargs', h₂⟩ := hP c₁ hargs h₁
  exact ⟨_, c₂, hsteps.trans hsteps', hworld'.trans hworld, hargs'.trans hargs, h₂⟩

theorem simulates {α : Type} {x : Eval α} {R : α → Config → Prop} (h : Arranges m c P)
    (hx : ∀ c', P c' → Simulates m fuel x c' R) : Simulates m fuel x c R := by
  obtain ⟨n, c', hsteps, hworld, -, hP⟩ := h
  exact (hx c' hP).steps hsteps (congrArg consoleOf hworld)

end Arranges

theorem gives_zero (hty : ty.isNumber) : Gives f c p (.zero ty) ⟨ty, .zero ty⟩ := by
  have hvoid := Ir.Ty.ne_void_of_isNumber hty
  refine ⟨?_, Ir.typeOf_zero f ty, fun _ => .zero hvoid, ?_⟩
  · unfold Value.zero
    rcases Ir.Ty.isNumber_cases hty with hint | hfloat
    · rw [get_zero hint, Ir.Ty.isPointer_of_isInt hint, Ir.Ty.isFloat_of_isInt hint]
      rfl
    · rw [get_zero_float hfloat, Ir.Ty.isPointer_of_isFloat hfloat, if_pos hfloat]
      rfl
  · obtain ⟨prim, isPointer⟩ := ty
    cases prim <;> trivial

theorem Inside.start (hat : c.At f p) (hcallers : c.callers = callers)
    (hresult : ResultIs f frame c (.zero f.ret)) : Inside f frame callers c p [[]] [[]] where
  arrives := hat
  callers := hcallers
  binds := .cons .nil .nil
  nodup := .nil
  notResult := by simp [Scopes.slots]
  result := hresult

theorem resultIs_stored (hat : c.At f p) (hslot : f.HasSlot slot f.ret) (hvoid : f.ret ≠ .void)
    (hframe : frame.result = some slot) :
    ResultIs f frame (c.stored slot (.zero f.ret)) (.zero f.ret) := by
  intro s hs
  obtain rfl := Option.some.inj (hframe.symm.trans hs)
  obtain ⟨name, hdeclared⟩ := hslot
  have hlt : slot.index < c.current.slots.size :=
    hat.slots ▸ (Array.getElem?_eq_some_iff.1 hdeclared).1
  refine ⟨⟨name, hdeclared⟩, ?_, .zero hvoid⟩
  change (c.current.slots.set! _ _)[_]? = _
  simp [hlt]

theorem result_arranges (hret : f.ret = r.result.ty) (hentry : r.isEntry → r.result.ty.isNumber)
    (hcode : ResultCode f r frame.result p q) (hat : c.At f p) (hcallers : c.callers = callers) :
    Arranges m c fun c' => Inside f frame callers c' q [[]] [[]] := by
  generalize hframe : frame.result = result at hcode
  rw [← hret] at hentry
  cases hcode with
  | void _ =>
    apply Arranges.here
    apply Inside.start hat hcallers
    intro s hs
    cases hframe.symm.trans hs
  | zero hvoid _ hslot halloca =>
    rw [← hret] at hvoid hslot
    apply Arranges.step (alloca_steps hat halloca hslot) rfl rfl
    exact .here (.start (hat.stored _ _) hcallers (resultIs_stored hat hslot hvoid hframe))
  | @entry slot _ hvoid hmain hslot halloca hstore =>
    rw [← hret] at hvoid hslot hstore
    have hroom := hat.stored slot (.zero f.ret)
    apply Arranges.step (alloca_steps hat halloca hslot) rfl rfl
    have hsteps := store_steps (m := m) hroom hstore hslot (gives_zero (hentry hmain)) hvoid
    apply Arranges.step hsteps rfl rfl
    exact .here (.start (hroom.stored _ _) hcallers (resultIs_stored hroom hslot hvoid hframe))

theorem gives_param {index : Nat} {x : Ir.Param} {y : Value} (hx : f.params[index]? = some x)
    (hy : c.current.args[index]? = some y) (hty : y.HasType x.ty) :
    Gives f c p (.param index) ⟨x.ty, y⟩ where
  get := Ir.entry_eq_ok.2 hy
  typeOf := by
    have hparam : f.param index = .ok x := Ir.entry_eq_ok.2 (by simpa using hx)
    change Ir.Param.ty <$> f.param index = _
    rw [hparam]
    rfl
  hasType _ := hty
  below := trivial

theorem params_arrange {index : Nat} {params : List Param} {vals : List Value}
    (hcode : ParamsCode f frame index params scopes p s' q)
    (h : Inside f frame callers c p env scopes)
    (hparams : f.params.drop index = params.map fun x => ⟨x.name.text, x.type.ty⟩)
    (hvals : c.current.args.toList.drop index = vals)
    (htyped : List.Forall₂ (fun x y => y.HasType x.type.ty) params vals) :
    Arranges m c fun c' => Inside f frame callers c' q (Meaning.parameters env params vals) s' := by
  induction params generalizing c p env scopes index vals with
  | nil =>
    cases hcode
    cases htyped
    exact .here h
  | cons x rest ih =>
    cases hcode with
    | @cons _ _ _ _ _ slot _ _ hundefined hfresh halloca hstore hrest =>
      cases htyped with
      | @cons _ y _ vals hy hrestTyped =>
        have hx : f.params[index]? = some ⟨x.name.text, x.type.ty⟩ := by
          have := congrArg (·[0]?) hparams
          simpa using this
        have hval : c.current.args[index]? = some y := by
          have := congrArg (·[0]?) hvals
          simpa using this
        have hlater : ∀ {α : Type} {xs : List α} {z zs}, xs.drop index = z :: zs →
            xs.drop (index + 1) = zs := by
          intro α xs z zs hxs
          rw [← List.drop_drop, hxs, List.drop_succ_cons, List.drop_zero]
        obtain ⟨hsteps, hinside⟩ := h.alloca_steps (m := m) halloca hfresh
        apply Arranges.step hsteps rfl rfl
        have hgives : Gives f (c.stored slot (.zero x.type.ty)) p.next (.param index)
            ⟨x.type.ty, y⟩ := gives_param hx hval hy
        have hstored := store_steps (m := m) hinside.arrives hstore hfresh.type hgives hfresh.nonVoid
        apply Arranges.step hstored rfl rfl
        have hat := hinside.arrives.stored slot y
        have hdeclared := hinside.declared hfresh hy hat rfl rfl x.name.text
        exact ih hrest hdeclared (hlater hparams) (hlater hvals) hrestTyped

/-! ### The end of a body -/

/-- The machine is about to give back the value. -/
structure GivesBack (m : Module) (ty : Ty) (callers : List Activation) (y : Value) (c : Config) :
    Prop where
  isTyped : c.current.IsTyped
  step : c.step m = c.giveBack y
  callers : c.callers = callers
  hasType : ty ≠ .void → y.HasType ty
  void : ty = .void → y = .void

theorem ResultCode.ret_eq_void {result : Option SlotId} (h : ResultCode f r result p q)
    (hnone : result = none) : r.result.ty = .void := by
  cases h with
  | void hvoid => exact hvoid
  | zero => cases hnone
  | entry => cases hnone

theorem exit_arranges {y : Option Value} (h : Leaves f frame callers c y) (hcode : ExitCode f frame)
    (hvoid : frame.result = none → f.ret = .void) :
    Arranges m c (GivesBack m f.ret callers (Meaning.resultOf f.ret (.left y))) := by
  obtain ⟨harrives, hcallers, hresult, hnone⟩ := h
  cases hcode with
  | @void exit n hend =>
    have hret := hvoid rfl
    obtain rfl : y = none := hnone rfl
    have hy : Meaning.resultOf f.ret (.left none) = .void := by
      rw [hret]
      rfl
    rw [hy]
    apply Arranges.here
    constructor
    · apply (harrives n).isTyped_end hend
      intro w hw
      cases hw
    · exact (harrives n).step_end hend
    · exact hcallers
    · exact fun hne => absurd hret hne
    · exact fun _ => rfl
  | @value exit slot n hload hend =>
    have hin := hresult slot rfl
    have hret := hin.hasType.ne_void
    have hy : Meaning.resultOf f.ret (.left y) = y.getD (.zero f.ret) := by
      cases y with
      | some y => rfl
      | none => exact if_neg (by simpa [Ir.Ty.isVoid] using hret)
    rw [hy]
    obtain ⟨hsteps, hpasses, hgives⟩ := load_steps (m := m) (harrives n) hload hin.declared hin.value
      hin.hasType
    apply Arranges.step hsteps rfl rfl
    apply Arranges.here
    constructor
    · apply hpasses.arrives.isTyped_end hend
      intro w hw
      rw [List.mem_singleton.1 hw]
      exact ⟨_, _, hgives.reads hpasses.arrives.function hret⟩
    · rw [hpasses.arrives.step_end hend]
      simp only [Config.terminate, hgives.get]
    · exact hpasses.callers.trans hcallers
    · exact fun _ => hin.hasType
    · exact fun hne => absurd hne hret

/-- An activation that begins with arguments gives back the result of the routine. -/
theorem body_simulates (hS : Stage m table f S callers.length) {start : BlockId}
    (hcode : RoutineCode m table r f) (hbody : r.body ≠ []) (hstart : f.entryBlock? = some start)
    (hentry : r.isEntry → r.result.ty.isNumber) (hcurrent : c.current = .enter f start args)
    (hcallers : c.callers = callers)
    (htyped : List.Forall₂ (fun x y => y.HasType x.type.ty) r.params args) :
    Simulates m S.fuel (do
      return Meaning.resultOf r.result.ty
        (← Meaning.stmts S (Meaning.parameters [[]] r.params args) r.body)) c
      (GivesBack m f.ret callers) := by
  have hret : f.ret = r.result.ty := congrArg Ir.Signature.ret hcode.signature
  have hparams : f.params = r.params.map fun x => ⟨x.name.text, x.type.ty⟩ :=
    congrArg Ir.Signature.params hcode.signature
  obtain ⟨entry, n, frame, p₁, s, p₂, s', p₃, hblock, hresult, hparamsCode, hstmts, hend, hexit⟩ :=
    hcode.defined hbody
  obtain rfl : entry = start := Option.some.inj (hblock.symm.trans hstart)
  have hat : c.At f (.start entry n) := by
    constructor <;> rw [hcurrent] <;> simp [Activation.enter, Spot.start]
  have hvoid : frame.result = none → f.ret = .void := fun hnone => hret.trans (hresult.ret_eq_void hnone)
  have harranged : Arranges m c fun c' =>
      Inside f frame callers c' p₂ (Meaning.parameters [[]] r.params args) s := by
    apply (result_arranges hret hentry hresult hat hcallers).trans
    intro c₁ hargs hinside
    apply params_arrange hparamsCode hinside _ _ htyped
    · rw [hparams, List.drop_zero]
    · rw [hargs, hcurrent]
      rfl
  apply harranged.simulates
  intro c₁ hinside
  rw [← hret]
  apply (stmts_simulates hS hstmts hinside).bind
  rintro (env | y) c₂ h₂
  · have h₂ : Inside f frame callers c₂ p₃ env s' := h₂
    apply Simulates.steps (br_steps h₂.arrives hend) rfl
    exact (exit_arranges h₂.left hexit hvoid).simulates fun c₃ h₃ => .pure h₃
  · exact (exit_arranges h₂ hexit hvoid).simulates fun c₃ h₃ => .pure h₃

end Quill
