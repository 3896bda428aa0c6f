import Quill.Proofs.Meaning.Routine

/-! # Calls of routines do what the routines do

The induction is on how much room for calls is left. It runs out in the machine when it does in
the evaluator.
-/
namespace Quill

open Ir (BlockId FuncId Function Module Operand Ty)
open Meaning (Eval Setting Simulates Typed consoleOf)

variable {f g : Function} {m : Module} {c c' : Config} {p q : Spot} {v : Operand} {fuel : Nat}
  {table : List (String × FuncId)} {r : Routine} {rs : List Routine} {vs : List Operand}
  {xs : List Typed} {callee : FuncId} {y : Value}

/-! ### Arguments -/

theorem args_hasType {params : List Param} (htypes : xs.map Typed.ty = params.map (·.type.ty))
    (hvoid : ∀ x ∈ params, x.type.ty ≠ .void) (hgives : List.Forall₂ (Gives f c p) vs xs) :
    List.Forall₂ (fun x y => y.HasType x.type.ty) params (xs.map Typed.value) := by
  induction hgives generalizing params with
  | nil =>
    obtain rfl := List.map_eq_nil_iff.1 htypes.symm
    exact .nil
  | @cons v x vs xs hx _ ih =>
    cases params with
    | nil => cases htypes
    | cons param params =>
      obtain ⟨hty, htypes⟩ := List.cons.inj htypes
      have hty : x.ty = param.type.ty := hty
      have hparam : param.type.ty ≠ .void := hvoid param List.mem_cons_self
      constructor
      · rw [← hty]
        exact hx.hasType (hty ▸ hparam)
      · exact ih htypes fun x hx => hvoid x (List.mem_cons_of_mem _ hx)

theorem args_read (hc : c.current.function = f) (hvoid : ∀ x ∈ xs, x.ty ≠ .void)
    (hgives : List.Forall₂ (Gives f c p) vs xs) : ∀ w ∈ vs, ∃ y t, c.current.Reads w y t := by
  induction hgives with
  | nil =>
    intro w hw
    cases hw
  | @cons v x vs xs hx _ ih =>
    intro w hw
    rcases List.mem_cons.1 hw with rfl | hw
    · exact ⟨_, _, hx.reads hc (hvoid x List.mem_cons_self)⟩
    · exact ih (fun x hx => hvoid x (List.mem_cons_of_mem _ hx)) w hw

theorem args_get (hgives : List.Forall₂ (Gives f c p) vs xs) :
    c.current.getAll vs = .ok (xs.map Typed.value) := by
  apply getAll_eq_ok
  rw [List.forall₂_map_right_iff]
  exact hgives.imp fun _ _ h => h.get

/-! ### The steps of a call -/

theorem CallCode.inst {ret : Ty} (h : CallCode f callee ret vs p v q) :
    ∃ result b, f.blocks[p.block.index]? = some b ∧
      b.insts[p.position]? = some ⟨result, .call callee vs⟩ := by
  cases h with
  | void _ hperforms => exact ⟨none, hperforms⟩
  | value _ hcomputes => exact ⟨_, hcomputes.1⟩

/-- The activation of a function begins when there is room for it. -/
theorem step_defined {start : BlockId} {args : List Value} (h : c.At f p)
    (hi : ∃ result b, f.blocks[p.block.index]? = some b ∧
      b.insts[p.position]? = some ⟨result, .call callee vs⟩)
    (hg : m.functions[callee.index]? = some g) (hstart : g.entryBlock? = some start)
    (hargs : c.current.getAll vs = .ok args) :
    c.step m =
      if c.depth ≥ maxDepth then .halted (.trap .stackOverflow) c.world
      else .running ⟨.enter g start args, c.current :: c.callers,
        { c.world with records := c.world.records.push (.trace s!"entering {g.name}") }⟩ := by
  obtain ⟨result, hi⟩ := hi
  have hfunction : m.function callee = .ok g := Ir.entry_eq_ok.2 hg
  rw [h.step_call hi]
  unfold Config.call
  rw [hargs, hfunction]
  simp only [hstart]
  rfl

theorem GivesBack.step_eq {result : Option Ir.ValueId} {action : Ir.Action} {ty : Ty} {c₁ : Config}
    (hback : GivesBack m ty (c.current :: c.callers) y c₁) (h : c.At f p)
    (hi : ∃ b, f.blocks[p.block.index]? = some b ∧ b.insts[p.position]? = some ⟨result, action⟩) :
    c₁.step m = c.completed result y c.current c₁.world := by
  obtain ⟨b, hb, hinst⟩ := hi
  have hblock : c.current.function.block c.current.block = .ok b := by
    rw [h.function, h.block]
    exact Ir.entry_eq_ok.2 hb
  rw [hback.step]
  unfold Config.giveBack
  rw [hback.callers]
  simp only [hblock, h.position, hinst, Option.bind_some]
  rfl

theorem giveBack_steps {c₁ : Config} (h : c.At f p) (hcode : CallCode f callee g.ret vs p v q)
    (hback : GivesBack m g.ret (c.current :: c.callers) y c₁) :
    ∃ c', c₁.Steps m 1 c' ∧ c'.world = c₁.world ∧ Arrives f c p q v ⟨g.ret, y⟩ c' := by
  cases hcode with
  | void hret hperforms =>
    have hstep : c₁.step m = .running { c.passed with world := c₁.world } :=
      hback.step_eq h hperforms
    have hpasses := h.passed.world c₁.world
    obtain rfl := hback.void hret
    refine ⟨_, .one hback.isTyped hstep, rfl, hpasses, rfl, ?_, ?_, trivial⟩
    · rw [hret]
      rfl
    · exact fun hne => absurd hret hne
  | value hret hcomputes =>
    have hstep : c₁.step m = .running { c.noted p.fresh y with world := c₁.world } := by
      rw [hback.step_eq h hcomputes.1]
      simp only [Config.completed, Activation.complete, h.fresh_lt hcomputes, ↓reduceIte]
      rfl
    have hgives := h.gives hcomputes fun hne => hback.hasType hne
    exact ⟨_, .one hback.isTyped hstep, rfl, (h.noted y).world c₁.world, hgives.world c₁.world⟩

/-! ### Calls -/

theorem call_missing {name : String} (h : Library.isReserved name = false) (w : World)
    (a : Activation) (args : List Value) :
    Library.call m name w a args = (.error (.trap (.missingBody name)), a, w) := by
  simp only [Library.isReserved, Bool.or_eq_false_iff, beq_eq_false_iff_ne] at h
  unfold Library.call
  rw [if_neg h.2, if_neg h.1.1, if_neg h.1.2]

/-- What the callers of routines rely on. -/
structure Callable (m : Module) (rs : List Routine) : Prop where
  code : RoutinesCode m rs
  params : ∀ r ∈ rs, ∀ x ∈ r.params, x.type.ty ≠ .void
  entry : ∀ r ∈ rs, r.isEntry → r.result.ty.isNumber

/-- A function of the module is code of its routine, and the calls in it can be run as those of the
routine can. -/
theorem Callable.stage (h : Callable m rs) {k : Nat} (hr : rs[k]? = some r)
    (hg : m.functions[3 + k]? = some g) :
    ∃ table, RoutineCode m table r g ∧ ∀ {fuel depth call}, CallsSimulate m rs fuel depth call →
      Stage m table g ⟨rs, r.name, r.result.ty, fuel, call⟩ depth := by
  obtain ⟨table, htable, hcode⟩ := h.code.code
  have hroutine {k : Nat} {r : Routine} {g : Function} (hr : rs[k]? = some r)
      (hg : m.functions[3 + k]? = some g) : RoutineCode m table r g := by
    obtain ⟨g', hg', hroutine⟩ := hcode k r hr
    exact Option.some.inj (hg'.symm.trans hg) ▸ hroutine
  refine ⟨table, hroutine hr hg, fun hcall => ?_⟩
  constructor
  · exact congrArg Ir.Signature.name (hroutine hr hg).signature
  · exact congrArg Ir.Signature.ret (hroutine hr hg).signature
  · exact h.code.names
  · exact htable
  · exact fun k r g hr hg => (hroutine hr hg).signature
  · exact h.params
  · exact h.code.outside
  · exact hcall

section

variable {k : Nat}

theorem call_isTyped (h : Callable m rs) (hat : c.At f p) (hr : rs[k]? = some r)
    (hcode : CallCode f callee g.ret vs p v q) (htypes : xs.map Typed.ty = r.params.map (·.type.ty))
    (hgives : List.Forall₂ (Gives f c p) vs xs) : c.current.IsTyped := by
  obtain ⟨result, hi⟩ := hcode.inst
  have hvoid : ∀ x ∈ xs, x.ty ≠ .void := by
    intro x hx
    have hty : x.ty ∈ r.params.map (·.type.ty) := htypes ▸ List.mem_map_of_mem hx
    obtain ⟨param, hparam, heq⟩ := List.mem_map.1 hty
    rw [← heq]
    exact h.params r (List.mem_of_getElem? hr) param hparam
  apply hat.isTyped hi
  constructor
  · exact args_read hat.function hvoid hgives
  · intro s hs
    cases hs

theorem declared_simulates {Q : Value → Config → Prop} (h : Callable m rs) (hat : c.At f p)
    (hr : rs[k]? = some r) (hg : m.functions[3 + k]? = some g) (hbody : r.body = [])
    (hcode : CallCode f ⟨3 + k⟩ g.ret vs p v q) (htyped : c.current.IsTyped)
    (hgives : List.Forall₂ (Gives f c p) vs xs) :
    Simulates m fuel (Meaning.trap (.missingBody r.name)) c Q := by
  obtain ⟨table, hroutine, -⟩ := h.stage hr hg
  obtain rfl := hroutine.declared hbody
  have hreserved : Library.isReserved r.declared.name = false :=
    h.code.notReserved r (List.mem_of_getElem? hr)
  obtain ⟨result, hi⟩ := hcode.inst
  have hstep := step_outside hat hi hg rfl (args_get hgives)
  rw [call_missing hreserved] at hstep
  have ht : (Trap.missingBody r.name).IsOrdinary := trivial
  exact .trap ht htyped hstep rfl

/-- A call of a routine does what the evaluator does, with as much room for more calls. -/
theorem call_simulates (h : Callable m rs) {room depth : Nat} (hroom : depth + 1 + room = maxDepth) :
    CallsSimulate m rs fuel depth (Meaning.run rs fuel room) := by
  induction room generalizing depth with
  | zero =>
    intro f c p q v k r g vs xs hat hdepth hr hg hcode htypes hgives
    have htyped := call_isTyped h hat hr hcode htypes hgives
    rw [Meaning.run]
    by_cases hbody : r.body = []
    · rw [if_pos (by rw [hbody]; rfl)]
      exact declared_simulates h hat hr hg hbody hcode htyped hgives
    · rw [if_neg (by simpa using hbody)]
      obtain ⟨table, hroutine, -⟩ := h.stage hr hg
      obtain ⟨start, -, -, -, -, -, -, -, hstart, -⟩ := hroutine.defined hbody
      have hstep := step_defined (m := m) hat hcode.inst hg hstart (args_get hgives)
      have hfull : c.depth ≥ maxDepth := by
        unfold Config.depth
        omega
      rw [if_pos hfull] at hstep
      have ht : Trap.stackOverflow.IsOrdinary := trivial
      exact .trap ht htyped hstep rfl
  | succ room ih =>
    intro f c p q v k r g vs xs hat hdepth hr hg hcode htypes hgives
    subst hdepth
    have htyped := call_isTyped h hat hr hcode htypes hgives
    rw [Meaning.run]
    by_cases hbody : r.body = []
    · rw [if_pos (by rw [hbody]; rfl)]
      exact declared_simulates h hat hr hg hbody hcode htyped hgives
    · rw [if_neg (by simpa using hbody)]
      have hmem := List.mem_of_getElem? hr
      obtain ⟨table, hroutine, hstage⟩ := h.stage hr hg
      have hcalls : CallsSimulate m rs fuel (c.callers.length + 1) (Meaning.run rs fuel room) :=
        ih (by omega)
      have hS := hstage hcalls
      obtain ⟨start, -, -, -, -, -, -, -, hstart, -⟩ := hroutine.defined hbody
      have hstep := step_defined (m := m) hat hcode.inst hg hstart (args_get hgives)
      have hfree : ¬c.depth ≥ maxDepth := by
        unfold Config.depth
        omega
      rw [if_neg hfree] at hstep
      have hargs := args_hasType htypes (h.params r hmem) hgives
      have hret : g.ret = r.result.ty := hS.ret
      apply Simulates.steps (.one htyped hstep) rfl
      apply (body_simulates hS hroutine hbody hstart (h.entry r hmem) rfl rfl hargs).followed
      intro y c₂ hback
      obtain ⟨c', hsteps, hworld, harrives⟩ := giveBack_steps hat hcode hback
      exact ⟨1, c', hsteps, congrArg consoleOf hworld, hret ▸ harrives⟩

end

end Quill
