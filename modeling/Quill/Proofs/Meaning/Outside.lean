import Quill.Proofs.Meaning.Console
import Quill.Proofs.Meaning.Expr

/-! # Calls of outside functions

A machine that calls one of the three outside functions prints, scans or aborts as the evaluator
does.
-/
namespace Quill

open Ir (FuncId Function Module Operand SlotId Ty)
open Meaning (Break Console Eval Simulates Typed consoleOf)

variable {m : Module} {f g : Function} {c c' : Config} {p q : Spot} {v v' : Operand}
  {args : List Operand} {xs : List Value} {ty : Ty} {fuel : Nat}

theorem getAll_eq_ok {a : Activation} (h : List.Forall₂ (fun v x => a.get v = .ok x) args xs) :
    a.getAll args = .ok xs := by
  unfold Activation.getAll
  induction h with
  | nil => rfl
  | cons hv _ ih =>
    rw [List.mapM_cons, hv, ih]
    rfl

theorem Config.At.step_call {result : Option Ir.ValueId} {callee : FuncId} (h : c.At f p)
    (hi : ∃ b, f.blocks[p.block.index]? = some b ∧
      b.insts[p.position]? = some ⟨result, .call callee args⟩) :
    c.step m = c.call m ⟨result, .call callee args⟩ callee args := by
  obtain ⟨b, hb, hinst⟩ := hi
  have hblock : c.current.function.block c.current.block = .ok b := by
    rw [h.function, h.block]
    exact Ir.entry_eq_ok.2 hb
  unfold Config.step
  simp only [hblock, h.position, hinst]

theorem step_outside {result : Option Ir.ValueId} {callee : FuncId} (h : c.At f p)
    (hi : ∃ b, f.blocks[p.block.index]? = some b ∧
      b.insts[p.position]? = some ⟨result, .call callee args⟩)
    (hg : m.functions[callee.index]? = some g) (hlayout : g.layout = #[])
    (hargs : c.current.getAll args = .ok xs) :
    c.step m = match Library.call m g.name c.world c.current xs with
      | (.error h, _, w) => .halted h w
      | (.ok v, a, w) => c.completed result v a w := by
  have hentry : g.entryBlock? = none := by
    rw [Function.entryBlock?, hlayout]
    rfl
  have hfunction : m.function callee = .ok g := Ir.entry_eq_ok.2 hg
  rw [h.step_call hi]
  unfold Config.call
  rw [hargs, hfunction]
  simp only [hentry]
  rfl

theorem Activation.CanPerform.call {a : Activation} {callee : FuncId}
    (h : ∀ v ∈ args, ∃ x t, a.Reads v x t) : a.CanPerform (.call callee args) :=
  ⟨h, by simp⟩

/-! ### Aborting -/

theorem abort_simulates {α : Type} {Q : α → Config → Prop} (hm : Library.IsIn m) (h : c.At f p)
    (hcode : AbortCode f p) : Simulates m fuel (Meaning.trap .abort) c Q := by
  have hstep := step_outside h hcode.call hm.abort rfl (getAll_eq_ok .nil)
  have hcan : c.current.CanPerform (.call Library.abortId []) := .call (by simp)
  have ht : Trap.abort.IsOrdinary := trivial
  exact .trap ht (h.isTyped hcode.call hcan) hstep rfl

/-! ### Formats -/

theorem reads_global {a : Activation} (id : Ir.GlobalId) :
    a.Reads (.global id) (.ptr (.global id)) (.pointerTo .i8) := ⟨rfl, rfl, .pointer rfl⟩

/-- A format goes ahead of what is printed, or of the place that is read into. -/
theorem Activation.CanPerform.withFormat {a : Activation} {callee : FuncId} {x : Value} {t : Ty}
    (id : Ir.GlobalId) (h : a.Reads v x t) : a.CanPerform (.call callee [.global id, v]) := by
  refine .call fun w hw => ?_
  rcases List.mem_cons.1 hw with rfl | hw
  · exact ⟨_, _, reads_global id⟩
  · exact List.mem_singleton.1 hw ▸ ⟨x, t, h⟩

theorem getAll_withFormat {a : Activation} {x : Value} (id : Ir.GlobalId) (h : a.get v = .ok x) :
    a.getAll [.global id, v] = .ok [.ptr (.global id), x] :=
  getAll_eq_ok (.cons rfl (.cons h .nil))

theorem formatText_global {id : Ir.GlobalId} {name text : String}
    (h : m.globals[id.index]? = some ⟨name, text⟩) (xs : List Value) :
    Library.formatText m (.ptr (.global id) :: xs) = .ok text := by
  have hread : m.global id = .ok ⟨name, text⟩ := Ir.entry_eq_ok.2 h
  simp only [Library.formatText, hread]
  rfl

/-! ### Printing -/

theorem promote_computed {x : Value} (h : c.At f p) (hv : Gives f c p v ⟨ty, x⟩)
    (hty : ty.isNumber) (hcode : PromoteCode f ty v p v' q) :
    ∃ t, t ≠ .void ∧ Computed m f c p q v' ⟨t, x.promoted ty⟩ := by
  have hvoid := Ir.Ty.ne_void_of_isNumber hty
  unfold Value.promoted
  cases hcode with
  | whole hint hbits hcast =>
    rw [if_pos ⟨hint, hbits⟩]
    exact ⟨.i32, by decide, cast_computed h hv hvoid (.wrapped rfl _) hcast⟩
  | fraction hf32 hcast =>
    subst hf32
    rw [if_neg (by decide), if_pos rfl]
    exact ⟨.f64, by decide, cast_computed h hv hvoid (.fraction rfl) hcast⟩
  | same hwhole hf32 =>
    rw [if_neg hwhole, if_neg hf32]
    exact ⟨ty, hvoid, .here h hv⟩

theorem Meaning.emit_run (bytes : List UInt8) (k : Console) :
    (Meaning.emit bytes).run k =
      match k.sink.write bytes with
      | (none, sink) => (.ok (), { k with sink })
      | (some reason, sink) => (.error (.trap (.io reason)), { k with sink }) := by
  rw [Meaning.emit, Meaning.get_bind_run]
  cases k.sink.write bytes with
  | mk r sink => cases r <;> rfl

theorem shown?_of_isNumber {x : Value} (hx : x.HasType ty) (hty : ty.isNumber) :
    ∃ bytes, (Typed.mk ty x).shown? = some bytes := by
  rcases Ir.Ty.isNumber_cases hty with hint | hfloat
  · obtain ⟨n, rfl, -⟩ := hx.of_isInt hint
    exact ⟨_, rfl⟩
  · obtain ⟨y, rfl⟩ := hx.of_isFloat hfloat
    exact ⟨_, rfl⟩

/-- What is printed is the promoted number, in the format of its type. -/
theorem print_simulates {x : Value} {t : Ty} {format : Operand} (hm : Library.IsIn m)
    (h : c.At f p) (hx : x.HasType ty) (hty : ty.isNumber) (hformat : m.HasFormat ty .output format)
    (hv : Gives f c p v ⟨t, x.promoted ty⟩) (ht : t ≠ .void)
    (hcode : f.Computes p (.call Library.printId [format, v]) .i32) :
    Simulates m fuel (Meaning.print ⟨ty, x⟩) c fun _ c' => Passes f c p c' p.past := by
  obtain ⟨id, name, rfl, hglobal⟩ := hformat
  obtain ⟨bytes, hbytes⟩ := shown?_of_isNumber hx hty
  apply Simulates.bindKnown hbytes
  apply Simulates.act (h.isTyped hcode.1 (.withFormat id (hv.reads h.function ht)))
  have hcall : Library.call m Library.printName c.world c.current
      [.ptr (.global id), x.promoted ty] =
        ((Library.print m c.world [.ptr (.global id), x.promoted ty]).1, c.current,
          (Library.print m c.world [.ptr (.global id), x.promoted ty]).2) := rfl
  have hstep := step_outside h hcode.1 hm.print rfl (getAll_withFormat id hv.get)
  have hname : Library.printFunction.name = Library.printName := rfl
  have hshown := formatBytes?_output hx hty
  rw [hbytes] at hshown
  rw [hname, hcall] at hstep
  rw [hstep, Meaning.emit_run]
  unfold Library.print
  rw [formatText_global hglobal]
  simp only [List.tail_cons, hshown, Option.map_some, consoleOf]
  match c.world.sink.write (bytes ++ [10]) with
  | (some reason, sink) => exact ⟨rfl, trivial, rfl⟩
  | (none, sink) =>
    simp only [Config.completed, Activation.complete, h.fresh_lt hcode, ↓reduceIte]
    have hpasses := (h.noted (.int (Int64.ofNat (bytes ++ [10]).length))).world { c.world with sink }
    exact ⟨trivial, hpasses⟩

/-! ### Reading -/

/-- The slot holds what was read, if anything was. -/
structure Scans (f : Function) (c : Config) (q : Spot) (slot : SlotId) (ty : Ty) (r : Option Value)
    (c' : Config) : Prop where
  arrives : c'.At f q
  callers : c'.callers = c.callers
  slots : c'.current.slots = match r with
    | none => c.current.slots
    | some y => c.current.slots.set! slot.index y
  hasType : ∀ y, r = some y → y.HasType ty

theorem reads_slotAddr {a : Activation} {slot : SlotId} (h : a.function.HasSlot slot ty) :
    ∃ t, a.Reads (.slotAddr slot) (.ptr (.slot slot)) t := by
  obtain ⟨name, hslot⟩ := h
  have hdeclared : a.function.slot slot = .ok ⟨name, ty⟩ := Ir.entry_eq_ok.2 hslot
  refine ⟨.pointerTo ty.prim, rfl, ?_, .pointer rfl⟩
  change (fun s : Ir.Slot => Ty.pointerTo s.ty.prim) <$> a.function.slot slot = _
  rw [hdeclared]
  rfl

theorem Meaning.consoleOf_input {w : World} {k : Console} (h : k.sink = w.sink) :
    consoleOf { w with input := k.input } = k := by
  obtain ⟨input, sink⟩ := k
  cases h
  rfl

/-- What is read into a slot is what the evaluator scans, in a format for values of its type. -/
theorem scan_simulates {source : Ty} {format : Operand} {slot : SlotId} (hm : Library.IsIn m)
    (h : c.At f p) (hsource : Library.Reads source ty) (hformat : m.HasFormat source .input format)
    (hslot : f.HasSlot slot ty)
    (hcode : f.Computes p (.call Library.readId [format, .slotAddr slot]) .i32) :
    Simulates m fuel (Meaning.scan ty) c (Scans f c p.past slot ty) := by
  obtain ⟨id, name, rfl, hglobal⟩ := hformat
  have hk := h.fresh_lt hcode
  obtain ⟨t, haddr⟩ := reads_slotAddr (a := c.current) (h.function ▸ hslot)
  obtain ⟨slotName, hdeclared⟩ := hslot
  have hlt : slot.index < c.current.slots.size :=
    h.slots ▸ (Array.getElem?_eq_some_iff.1 hdeclared).1
  have hdeclared : c.current.function.slot slot = .ok ⟨slotName, ty⟩ :=
    h.function ▸ Ir.entry_eq_ok.2 hdeclared
  have hread := readPieces_input hsource hdeclared rfl hlt (consoleOf c.world)
  have hcall : Library.call m Library.readName c.world c.current
      [.ptr (.global id), .ptr (.slot slot)] =
        Library.read m c.world c.current [.ptr (.global id), .ptr (.slot slot)] := rfl
  have hstep := step_outside h hcode.1 hm.read rfl (getAll_withFormat id haddr.1)
  have hname : Library.readFunction.name = Library.readName := rfl
  rw [hname, hcall] at hstep
  unfold Library.read at hstep
  rw [formatText_global hglobal] at hstep
  apply Simulates.act (h.isTyped hcode.1 (.withFormat id haddr))
  rw [hstep]
  simp only [List.tail_cons]
  match (Meaning.scan ty).run (consoleOf c.world), hread with
  | (.ok none, k), ⟨hsink, n, hr⟩ =>
    have hr : Library.readPieces _ _ _ _ _ c.world.input = _ := hr
    have hworld := Meaning.consoleOf_input hsink
    simp only [hr, Config.completed, Activation.complete, hk, ↓reduceIte]
    have hpasses := (h.noted (.int n)).world { c.world with input := k.input }
    exact ⟨hworld, hpasses.arrives, hpasses.callers, hpasses.slots, by simp⟩
  | (.ok (some y), k), ⟨hsink, hy, n, hr⟩ =>
    have hr : Library.readPieces _ _ _ _ _ c.world.input = _ := hr
    have hworld := Meaning.consoleOf_input hsink
    simp only [hr, Config.completed, Activation.complete, hk, ↓reduceIte]
    refine ⟨hworld, ?_, rfl, rfl, fun z hz => Option.some.inj hz ▸ hy⟩
    exact ⟨h.function, h.block, congrArg (· + 1) h.position, by simpa using h.slots,
      by simpa using h.values⟩
  | (.error (.trap (.io reason)), k), ⟨hsink, hr⟩ =>
    have hr : Library.readPieces _ _ _ _ _ c.world.input = _ := hr
    have hworld := Meaning.consoleOf_input hsink
    simp only [hr]
    exact ⟨trivial, trivial, hworld⟩

end Quill
