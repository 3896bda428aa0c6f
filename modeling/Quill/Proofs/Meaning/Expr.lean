import Mathlib.Data.List.Nodup
import Quill.Proofs.Meaning.Variables

/-! # Code of expressions computes their values

From the place where the code of an expression begins the machine arrives at its end with an
operand that is worth what the evaluator says.
-/
namespace Quill

open Ir (Action CastOp FuncId Function Module Operand SlotId Ty)
open Meaning (Break Console Env Eval Setting Simulates Typed consoleOf)

variable {m : Module} {f : Function} {c c' : Config} {p q : Spot} {v v' : Operand}

/-! ### Conversions -/

/-- Without a word the machine arrives at `q`, where the operand is worth `x`. -/
def Computed (m : Module) (f : Function) (c : Config) (p q : Spot) (v : Operand) (x : Typed) :
    Prop :=
  ∃ n c', c.Steps m n c' ∧ c'.world = c.world ∧ Passes f c p c' q ∧ Gives f c' q v x

theorem Computed.here {x : Typed} (h : c.At f p) (hv : Gives f c p v x) : Computed m f c p p v x :=
  ⟨0, c, .refl, rfl, .refl h, hv⟩

theorem Computed.simulates {α : Type} {fuel : Nat} {x : Typed} {e : Eval α}
    {Q : α → Config → Prop} (h : Computed m f c p q v x)
    (he : ∀ c', Passes f c p c' q → Gives f c' q v x → Simulates m fuel e c' Q) :
    Simulates m fuel e c Q := by
  obtain ⟨n, c', hsteps, hworld, hpasses, hgives⟩ := h
  exact (he c' hpasses hgives).steps hsteps (congrArg consoleOf hworld)

theorem get_constant {a : Activation} {y : Value} (h : v.constant? = some y) :
    a.get v = .ok y := by
  cases v <;> cases h <;> rfl

theorem below_constant {y : Value} {n : Nat} (h : v.constant? = some y) : v.Below n := by
  cases v <;> trivial

theorem cast_computed {op : CastOp} {source target : Ty} {y : Value} (h : c.At f p)
    (hv : Gives f c p v ⟨source, y⟩) (hsource : source ≠ .void)
    (hcast : (y.cast op source target).HasType target)
    (hcode : CastCode f op source target v p v' q) :
    Computed m f c p q v' ⟨target, y.cast op source target⟩ := by
  cases hcode with
  | folded hfold =>
    obtain ⟨z, hz, hz'⟩ := foldCast_constant hfold
    obtain rfl : y = z := Except.ok.inj (hv.get.symm.trans (get_constant hz))
    refine .here h ⟨get_constant hz', Ir.foldCast_typeOf hfold, fun _ => hcast, below_constant hz'⟩
  | cast hcomputes =>
    have hreads := hv.reads h.function hsource
    obtain ⟨hsteps, hpasses, hgives⟩ := computes_steps (m := m) h hcomputes (by simp)
      ⟨fun w hw => List.mem_singleton.1 hw ▸ ⟨_, _, hreads⟩, by simp⟩ hcast
      (perform_cast hv.get hreads.2.1)
    exact ⟨1, _, hsteps, rfl, hpasses, hgives⟩

/-- A converted operand is worth what the evaluator converts the value to. -/
theorem convert_computed {source target : Ty} {y : Value} (h : c.At f p)
    (hv : Gives f c p v ⟨source, y⟩) (hsource : source ≠ .void)
    (hcode : ConvertCode f source target v p v' q) :
    ∃ z, (Typed.mk source y).convert? target = some z ∧ Computed m f c p q v' ⟨target, z⟩ := by
  cases hcode with
  | same heq =>
    subst heq
    exact ⟨y, by simp [Typed.convert?], .here h hv⟩
  | numbers hne hs ht hcast =>
    obtain ⟨hconvert, htyped⟩ := convert?_cast (hv.hasType hsource) hs ht hne
    exact ⟨_, hconvert, cast_computed h hv hsource htyped hcast⟩

/-! ### Truth -/

theorem get_zero {a : Activation} {t : Ty} (ht : t.isInt) : a.get (.zero t) = .ok (.int 0) := by
  obtain ⟨p, q⟩ := t
  cases p <;> first | rfl | (cases q <;> cases ht)

theorem get_zero_float {a : Activation} {t : Ty} (ht : t.isFloat) :
    a.get (.zero t) = .ok (.float 0.0) := by
  obtain ⟨p, q⟩ := t
  cases p <;> first | rfl | (cases q <;> cases ht)

theorem reads_zero {a : Activation} {t : Ty} (ht : t.isNumber) :
    ∃ y, a.Reads (.zero t) y t := by
  rcases Ir.Ty.isNumber_cases ht with hi | hf
  · exact ⟨_, get_zero hi, Ir.typeOf_zero _ t, .whole hi (by unfold Ir.Ty.wrap; cases t.prim <;> decide)⟩
  · exact ⟨_, get_zero_float hf, Ir.typeOf_zero _ t, .fraction hf⟩

theorem compare_computed {pred : Ir.Predicate} {l r : Operand} {y z : Value} {s t : Ty}
    (h : c.At f p) (hl : c.current.Reads l y s) (hr : c.current.Reads r z t)
    (hc : f.Computes p (.compare pred l r) .i1) :
    Computed m f c p p.past p.value (.bool (Value.compare pred y z)) := by
  have hcan : c.current.CanPerform (.compare pred l r) := by
    refine ⟨fun w hw => ?_, by simp⟩
    rcases List.mem_cons.1 hw with rfl | hw
    · exact ⟨_, _, hl⟩
    · exact List.mem_singleton.1 hw ▸ ⟨_, _, hr⟩
  obtain ⟨hsteps, hpasses, hgives⟩ := computes_steps (m := m) h hc (by simp) hcan (.bool _)
    (perform_compare hl.1 hr.1)
  exact ⟨1, _, hsteps, rfl, hpasses, hgives⟩

theorem truth_computed {x : Typed} (h : c.At f p) (hv : Gives f c p v x)
    (hcode : TruthCode f v p v' q) :
    ∃ b, x.truth? = some b ∧ Computed m f c p q v' (.bool b) := by
  cases hcode with
  | comparison hty =>
    have hx : x.ty = .i1 := Except.ok.inj (hv.typeOf.symm.trans hty)
    obtain ⟨n, hn, hbit⟩ := (hx ▸ hv.hasType (by rw [hx]; decide)).of_isInt rfl
    refine ⟨n != 0, by simp [Typed.truth?, hn], ?_⟩
    have hbool : x = .bool (n != 0) := by
      obtain ⟨ty, value⟩ := x
      cases hx
      cases hn
      rcases Ir.Ty.wrap_i1 n with h0 | h1
      · rw [hbit] at h0
        subst h0
        rfl
      · rw [hbit] at h1
        subst h1
        rfl
    rw [← hbool]
    exact .here h hv
  | @whole ty _ hty hint hcomputes =>
    have hx : x.ty = ty := Except.ok.inj (hv.typeOf.symm.trans hty)
    have hvoid : x.ty ≠ .void := by
      rw [hx]
      rintro rfl
      cases hint
    obtain ⟨n, hn, -⟩ := (hv.hasType hvoid).of_isInt (hx ▸ hint)
    obtain ⟨z, hz⟩ := reads_zero (a := c.current) (Ir.Ty.isNumber_of_isInt hint)
    obtain rfl : .int 0 = z := Except.ok.inj ((get_zero hint).symm.trans hz.1)
    have hcompared := compare_computed (m := m) h (hv.reads h.function hvoid) hz hcomputes
    rw [hn] at hcompared
    exact ⟨n != 0, by simp [Typed.truth?, hn], hcompared⟩
  | @fraction ty _ hty hfloat hcomputes =>
    have hx : x.ty = ty := Except.ok.inj (hv.typeOf.symm.trans hty)
    have hvoid : x.ty ≠ .void := by
      rw [hx]
      rintro rfl
      cases hfloat
    obtain ⟨y, hy⟩ := (hv.hasType hvoid).of_isFloat (hx ▸ hfloat)
    obtain ⟨z, hz⟩ := reads_zero (a := c.current) (Ir.Ty.isNumber_of_isFloat hfloat)
    obtain rfl : .float 0.0 = z := Except.ok.inj ((get_zero_float hfloat).symm.trans hz.1)
    have hcompared := compare_computed (m := m) h (hv.reads h.function hvoid) hz hcomputes
    rw [hy] at hcompared
    exact ⟨y != 0.0, by simp [Typed.truth?, hy], hcompared⟩

/-! ### Operators -/

/-- The machine arrives at `q` and gives the value of the evaluation. -/
def Arrives (f : Function) (c : Config) (p q : Spot) (v : Operand) (x : Typed) (c' : Config) :
    Prop :=
  Passes f c p c' q ∧ Gives f c' q v x

theorem resultType_self {ty : Ty} (h : ty.isPointer) : resultType ty ty = .ok ty := by
  obtain ⟨p, q⟩ := ty
  obtain rfl : q = true := h
  simp [resultType, Ty.isVoid, Ty.void]

theorem operation_simulates {op : Operator} {operation : Lower.Operation} {ty : Ty}
    {l r : Operand} {y z : Value} {fuel : Nat} (h : c.At f p) (hty : ty.isNumber)
    (hl : Gives f c p l ⟨ty, y⟩) (hr : Gives f c p r ⟨ty, z⟩)
    (hoperation : Lower.operation? op ty = some operation)
    (hc : f.Computes p (operation.action l r) (operation.resultTy ty)) :
    Simulates m fuel (Meaning.combine f.name op ty y z) c (Arrives f c p p.past p.value) := by
  have hvoid := Ir.Ty.ne_void_of_isNumber hty
  have hlr := hl.reads h.function hvoid
  have hrr := hr.reads h.function hvoid
  have hcall : ∀ callee args, operation.action l r ≠ .call callee args := by
    cases operation <;> simp [Lower.Operation.action]
  have hcan : c.current.CanPerform (operation.action l r) := by
    refine ⟨fun w hw => ?_, by cases operation <;> simp [Lower.Operation.action]⟩
    have hw : w = l ∨ w = r := by
      cases operation <;> simpa [Lower.Operation.action, Action.operands] using hw
    rcases hw with rfl | rfl
    · exact ⟨_, _, hlr⟩
    · exact ⟨_, _, hrr⟩
  have hperform : c.current.perform (operation.action l r) = _ :=
    perform_operation hlr.2.1 hl.get hr.get
  have hgives (w : Typed) (hvalue : operation.value? ty y z = some w.value)
      (hwty : w.ty = operation.resultTy ty) (hw : w.value.HasType w.ty) :
      Simulates m fuel (pure w) c (Arrives f c p p.past p.value) := by
    rw [hvalue] at hperform
    obtain ⟨wty, wvalue⟩ := w
    cases hwty
    obtain ⟨hsteps, hpasses, hgives⟩ := computes_steps (m := m) h hc hcall hcan hw hperform
    exact (Simulates.pure ⟨hpasses, hgives⟩).steps hsteps rfl
  rcases Ir.Ty.isNumber_cases hty with hint | hfloat
  · obtain ⟨a, rfl, -⟩ := (hl.hasType hvoid).of_isInt hint
    obtain ⟨b, rfl, -⟩ := (hr.hasType hvoid).of_isInt hint
    have hwhole : operation = Lower.wholeOperation op := by
      simpa [Lower.operation?, Ir.Ty.isFloat_of_isInt hint] using hoperation.symm
    subst hwhole
    have hvalue : (Lower.wholeOperation op).value? ty (.int a) (.int b) = _ := value?_whole a b
    cases hw : Meaning.whole? op ty a b with
    | some w =>
      obtain ⟨hwty, hwtyped⟩ := whole?_hasType hint hw
      simp only [Meaning.combine, hw]
      exact hgives w (by rw [hvalue, hw]; rfl) hwty hwtyped
    | none =>
      rw [hvalue, hw] at hperform
      simp only [Meaning.combine, hw]
      refine .trap trivial (h.isTyped hc.1 hcan) ?_ rfl
      rw [h.step_eq hc.1 hcall, hperform, h.function]
      rfl
  · obtain ⟨a, rfl⟩ := (hl.hasType hvoid).of_isFloat hfloat
    obtain ⟨b, rfl⟩ := (hr.hasType hvoid).of_isFloat hfloat
    have hfraction : Lower.fractionOperation? op = some operation := by
      simpa [Lower.operation?, hfloat] using hoperation
    obtain ⟨w, hw, hvalue, hwty, hwtyped⟩ := value?_fraction hfraction hfloat a b
    simp only [Meaning.combine, hw]
    exact hgives w hvalue hwty hwtyped

/-- An operator of the program does what the evaluator makes of it. -/
theorem binary_simulates {op : Operator} {l r : Operand} {x y : Typed} {fuel : Nat}
    (h : c.At f p) (hl : Gives f c p l x) (hr : Gives f c p r y)
    (hcode : BinaryCode f op l r p v q) :
    Simulates m fuel (Meaning.operate f.name op x y) c (Arrives f c p q v) := by
  cases hcode with
  | @pointers ty _ htl htr hpointer hop hcomputes =>
    have hx : x.ty = ty := Except.ok.inj (hl.typeOf.symm.trans htl)
    have hy : y.ty = ty := Except.ok.inj (hr.typeOf.symm.trans htr)
    have hvoid : ty ≠ .void := by
      rintro rfl
      cases hpointer
    obtain ⟨a, ha⟩ := (hl.hasType (hx ▸ hvoid)).of_isPointer (hx ▸ hpointer)
    obtain ⟨b, hb⟩ := (hr.hasType (hy ▸ hvoid)).of_isPointer (hy ▸ hpointer)
    unfold Meaning.operate
    refine .bindKnown (a := ty) (by rw [hx, hy, resultType_self hpointer]; rfl) ?_
    refine .bindKnown (a := .ptr a) (by simp [Typed.convert?, hx, ha]) ?_
    refine .bindKnown (a := .ptr b) (by simp [Typed.convert?, hy, hb]) ?_
    have hcompared := compare_computed (m := m) h (hl.reads h.function (hx ▸ hvoid))
      (hr.reads h.function (hy ▸ hvoid)) hcomputes
    rw [ha, hb] at hcompared
    simp only [Meaning.combine, hop, ↓reduceIte]
    exact hcompared.simulates fun c' hpasses hgives => .pure ⟨hpasses, hgives⟩
  | @numbers tl tr ty _ l' p₁ r' p₂ operation htl htr hresult _ hcl hcr hoperation hcomputes =>
    obtain ⟨xty, x⟩ := x
    obtain ⟨yty, y⟩ := y
    obtain rfl : xty = tl := Except.ok.inj (hl.typeOf.symm.trans htl)
    obtain rfl : yty = tr := Except.ok.inj (hr.typeOf.symm.trans htr)
    obtain ⟨hxvoid, hyvoid, hnumbers⟩ := resultType_cases hresult
    have hty : ty.isNumber := by
      rcases hnumbers with ⟨hp, -⟩ | ⟨-, -, -, hty⟩
      · simp_all
      · exact hty
    unfold Meaning.operate
    refine .bindKnown (a := ty) (by rw [hresult]; rfl) ?_
    obtain ⟨z, hz, hlc⟩ := convert_computed (m := m) h hl hxvoid hcl
    refine .bindKnown hz (hlc.simulates fun c₁ hpasses₁ hl₁ => ?_)
    obtain ⟨w, hw, hrc⟩ := convert_computed (m := m) hpasses₁.arrives (hr.later hpasses₁) hyvoid hcr
    refine .bindKnown hw (hrc.simulates fun c₂ hpasses₂ hr₂ => ?_)
    refine (operation_simulates hpasses₂.arrives hty (hl₁.later hpasses₂) hr₂ hoperation
      hcomputes).mono ?_
    rintro v c' ⟨hpasses, hgives⟩
    exact ⟨(hpasses₁.trans hpasses₂).trans hpasses, hgives⟩

/-- What an operator makes of two operands, one behind the other, comes after both. -/
theorem Arrives.operate {op : Operator} {l r : Operand} {x y : Typed} {fuel : Nat} {p₁ p₂ : Spot}
    {c₁ c₂ : Config} (hl : Arrives f c p p₁ l x c₁) (hr : Arrives f c₁ p₁ p₂ r y c₂)
    (hcode : BinaryCode f op l r p₂ v q) :
    Simulates m fuel (Meaning.operate f.name op x y) c₂ (Arrives f c p q v) := by
  obtain ⟨hpasses₁, hx⟩ := hl
  obtain ⟨hpasses₂, hy⟩ := hr
  refine (binary_simulates hpasses₂.arrives (hx.later hpasses₂) hy hcode).mono ?_
  rintro z c₃ ⟨hpasses₃, hz⟩
  exact ⟨(hpasses₁.trans hpasses₂).trans hpasses₃, hz⟩

/-! ### Expressions -/

/-- With so many activations waiting, a call of a routine does what the evaluator does. -/
def CallsSimulate (m : Module) (rs : List Routine) (fuel depth : Nat)
    (call : Routine → List Value → Eval Value) : Prop :=
  ∀ {f : Function} {c : Config} {p q : Spot} {v : Operand} {k : Nat} {r : Routine} {g : Function}
    {vs : List Operand} {xs : List Typed},
    c.At f p → c.callers.length = depth → rs[k]? = some r → m.functions[3 + k]? = some g →
    CallCode f ⟨3 + k⟩ g.ret vs p v q → xs.map Typed.ty = r.params.map (·.type.ty) →
    List.Forall₂ (Gives f c p) vs xs →
    Simulates m fuel (call r (xs.map Typed.value)) c fun y => Arrives f c p q v ⟨r.result.ty, y⟩

/-- The body of `f` is run as the evaluator runs it in the setting `S`, and what it calls is there
in the module. -/
structure Stage (m : Module) (table : List (String × FuncId)) (f : Function) (S : Setting)
    (depth : Nat) : Prop where
  name : f.name = S.name
  ret : f.ret = S.result
  names : (S.routines.map Routine.name).Nodup
  lookup : ∀ x id, table.lookup x = some id ↔
    ∃ k r, S.routines[k]? = some r ∧ r.isEntry = false ∧ r.name = x ∧ id = ⟨3 + k⟩
  signature : ∀ (k : Nat) (r : Routine) (g : Function), S.routines[k]? = some r →
    m.functions[3 + k]? = some g → g.signature = r.declared.signature
  params : ∀ r ∈ S.routines, ∀ x ∈ r.params, x.type.ty ≠ .void
  outside : Library.IsIn m
  call : CallsSimulate m S.routines S.fuel depth S.call

theorem callable?_eq_some {S : Setting} {k : Nat} {r : Routine}
    (hnames : (S.routines.map Routine.name).Nodup) (hr : S.routines[k]? = some r)
    (hentry : r.isEntry = false) : S.callable? r.name = some r := by
  unfold Setting.callable?
  have hmem := List.mem_of_getElem? hr
  cases hfind : S.routines.find? fun q => !q.isEntry && q.name == r.name with
  | none =>
    have := List.find?_eq_none.1 hfind r hmem
    simp [hentry] at this
  | some q =>
    have hq := List.find?_some hfind
    simp only [Bool.and_eq_true, beq_iff_eq] at hq
    rw [List.inj_on_of_nodup_map hnames (List.mem_of_find?_eq_some hfind) hmem hq.2]

theorem ConvertCode.source_ne_void {source target : Ty}
    (h : ConvertCode f source target v p v' q) (ht : target ≠ .void) : source ≠ .void := by
  cases h with
  | same heq => exact heq ▸ ht
  | numbers _ hs => exact Ir.Ty.ne_void_of_isNumber hs

variable {table : List (String × FuncId)} {S : Setting} {depth : Nat} {env : Env} {scopes : Scopes}

theorem var_simulates {x : Ident} {fuel : Nat} (hcode : ExprCode m table f scopes (.var x) p v q)
    (h : c.At f p) (hvars : Binds f c.current.slots env scopes) :
    Simulates m fuel (Meaning.known (env.find? x.text)) c (Arrives f c p q v) := by
  cases hcode with
  | var hx hslot hcomputes =>
    obtain ⟨w, hw, hin⟩ := hvars.find? hx
    obtain rfl := hin.declared.unique hslot
    obtain ⟨hsteps, harrives⟩ := load_steps (m := m) h hcomputes hslot hin.value hin.hasType
    exact (Simulates.known hw harrives).steps hsteps rfl

mutual

theorem expr_simulates {m : Module} {f : Function} {c : Config} {p q : Spot} {v : Operand}
    {table : List (String × FuncId)} {S : Setting} {depth : Nat} {env : Env} {scopes : Scopes}
    (hS : Stage m table f S depth) {e : Expr} (hcode : ExprCode m table f scopes e p v q)
    (h : c.At f p) (hdepth : c.callers.length = depth)
    (hvars : Binds f c.current.slots env scopes) :
    Simulates m S.fuel (Meaning.expr S env e) c (Arrives f c p q v) := by
  match e, hcode with
  | .int n _, .int =>
    refine .pure ⟨.refl h, ?_⟩
    have hty := Typed.literal_hasType n
    unfold Lower.literal Typed.literal at *
    split at hty <;> rename_i hn <;> simp only [hn, ↓reduceIte] <;>
      exact ⟨rfl, rfl, fun _ => hty, trivial⟩
  | .float x _, .float => exact .pure ⟨.refl h, rfl, rfl, fun _ => .fraction rfl, trivial⟩
  | .var x, hcode => exact var_simulates hcode h hvars
  | .binary op lhs rhs, .binary hl hr hop =>
    refine (expr_simulates hS hl h hdepth hvars).bind fun x c₁ hx => ?_
    refine (expr_simulates hS hr hx.1.arrives (hx.1.callers ▸ hdepth) (hx.1.slots ▸ hvars)).bind
      fun y c₂ hy => ?_
    rw [← hS.name]
    exact hx.operate hy hop
  | .semi op lead rhs _, .semi hl hr hop =>
    refine (var_simulates hl h hvars).bind fun x c₁ hx => ?_
    refine (expr_simulates hS hr hx.1.arrives (hx.1.callers ▸ hdepth) (hx.1.slots ▸ hvars)).bind
      fun y c₂ hy => ?_
    rw [← hS.name]
    exact hx.operate hy hop
  | .call callee args _, .call (g := g) hlookup hg hlength hargs hcall =>
    obtain ⟨k, r, hr, hentry, hname, rfl⟩ := (hS.lookup _ _).1 hlookup
    have hsig := hS.signature k r _ hr hg
    have hparams := congrArg (fun s : Ir.Signature => s.params.map Ir.Param.ty) hsig
    have htypes : (r.params.map fun x => x.type.ty) = g.params.map Ir.Param.ty :=
      (List.map_map (f := fun x : Param => (⟨x.name.text, x.type.ty⟩ : Ir.Param))
        (g := Ir.Param.ty)).symm.trans hparams.symm
    refine .bindKnown (hname ▸ callable?_eq_some hS.names hr hentry) ?_
    rw [htypes]
    have hvoid : ∀ t ∈ g.params.map Ir.Param.ty, t ≠ Ty.void := by
      intro t ht
      rw [← htypes] at ht
      obtain ⟨x, hx, rfl⟩ := List.mem_map.1 ht
      exact hS.params r (List.mem_of_getElem? hr) x hx
    refine (arguments_simulate hS hargs hvoid h hdepth hvars).bind ?_
    rintro _ c₁ ⟨hpasses₁, xs, rfl, hxs, hgives⟩
    refine (hS.call hpasses₁.arrives (hpasses₁.callers ▸ hdepth) hr hg hcall
      (hxs.trans htypes.symm) hgives).bind fun y c₂ ⟨hpasses₂, hy⟩ => ?_
    exact .pure ⟨hpasses₁.trans hpasses₂, hy⟩

theorem arguments_simulate {m : Module} {f : Function} {c : Config} {p q : Spot}
    {table : List (String × FuncId)} {S : Setting} {depth : Nat} {env : Env} {scopes : Scopes}
    (hS : Stage m table f S depth) {args : List Expr} {types : List Ty} {vs : List Operand}
    (hcode : ArgsCode m table f scopes args types p vs q) (htypes : ∀ t ∈ types, t ≠ .void)
    (h : c.At f p) (hdepth : c.callers.length = depth)
    (hvars : Binds f c.current.slots env scopes) :
    Simulates m S.fuel (Meaning.arguments S env args types) c fun ys c' =>
      Passes f c p c' q ∧ ∃ xs : List Typed, ys = xs.map Typed.value ∧
        xs.map Typed.ty = types ∧ List.Forall₂ (Gives f c' q) vs xs := by
  match args, types, hcode with
  | [], [], .nil => exact .pure ⟨.refl h, [], rfl, rfl, .nil⟩
  | arg :: args, ty :: types, .cons harg hsource hconvert hargs =>
    refine (expr_simulates hS harg h hdepth hvars).bind fun x c₁ ⟨hpasses₁, hx⟩ => ?_
    have hty := htypes ty List.mem_cons_self
    obtain ⟨xty, x⟩ := x
    obtain rfl := Except.ok.inj (hx.typeOf.symm.trans hsource)
    obtain ⟨y, hy, hcomputed⟩ := convert_computed (m := m) hpasses₁.arrives hx
      (hconvert.source_ne_void hty) hconvert
    refine .bindKnown hy (hcomputed.simulates fun c₂ hpasses₂ hgives => ?_)
    have hpasses := hpasses₁.trans hpasses₂
    refine (arguments_simulate hS hargs (fun t ht => htypes t (List.mem_cons_of_mem _ ht))
      hpasses₂.arrives (hpasses.callers ▸ hdepth) (hpasses.slots ▸ hvars)).bind ?_
    rintro _ c₃ ⟨hpasses₃, xs, rfl, hxs, hrest⟩
    refine .pure ⟨hpasses.trans hpasses₃, ⟨ty, y⟩ :: xs, rfl, ?_, ?_⟩
    · rw [List.map_cons, hxs]
    · exact .cons (hgives.later hpasses₃) hrest

end

end Quill
