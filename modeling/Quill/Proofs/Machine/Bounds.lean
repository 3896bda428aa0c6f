import Mathlib
import Quill.Proofs.Ir.Requests
import Quill.Proofs.Machine.Transitions

/-! # Runs of verified modules

Some indices are looked at by building and some by verification, and together they are all that a
run relies on: however long it is and whatever it reads, control stays in blocks that end, and
nothing that code names is out of range.
-/
namespace Quill

open Ir (Action Block BlockId Built Builder Fault FuncId Function Inst Module Operand SlotId Terminator)

/-! ### What is relied on -/

def Ir.Action.slot? : Action → Option SlotId
  | alloca s | load s | store s _ => some s
  | _ => none

namespace Activation

/-- What the operand names is in the tables in which the activation looks it up. -/
def Finds (m : Module) (a : Activation) : Operand → Prop
  | .inst id => id.index < a.values.size
  | .param n => n < a.function.params.length ∧ n < a.args.size
  | .slotAddr s => s.index < a.slots.size
  | .global g => g.index < m.globals.size
  | .int .. | .float .. | .void => True

/-- What the instruction names is in the tables, and if it is a call, it has an argument for every
declared parameter. -/
structure Covers (m : Module) (a : Activation) (i : Inst) : Prop where
  operands : ∀ v ∈ i.action.operands, a.Finds m v
  slot : ∀ s, i.action.slot? = some s → s.index < a.slots.size
  result : ∀ id, i.result = some id → id.index < a.values.size
  call : ∀ callee args, i.action = .call callee args →
    ∃ f, m.function callee = .ok f ∧ f.params.length ≤ args.length

/-- Control is in a block of the layout that ends in a terminator, every declared parameter has an
argument, there is a slot and a value for each of the function, and what comes next is covered. -/
structure IsGuarded (m : Module) (a : Activation) : Prop where
  attached : a.function.isAttached a.block = true
  block : ∃ b t, a.function.block a.block = .ok b ∧ b.terminator = some t
  args : a.function.params.length ≤ a.args.size
  slots : a.slots.size = a.function.slots.size
  values : a.values.size = a.function.values.size
  inst : ∀ i, a.Performs i → a.Covers m i
  terminator : ∀ t, a.Ends (some t) → ∀ v ∈ t.operands, a.Finds m v

structure IsPlaced (m : Module) (a : Activation) : Prop where
  function : a.function ∈ m.functions
  block : a.block ∈ a.function.layout
  args : a.function.params.length ≤ a.args.size
  slots : a.slots.size = a.function.slots.size
  values : a.values.size = a.function.values.size

/-- There are as many slots and values as the function has. -/
structure IsSized (a : Activation) : Prop where
  slots : a.slots.size = a.function.slots.size
  values : a.values.size = a.function.values.size

theorem IsSized.keeps {a a' : Activation} (h : a.IsSized) (hkeeps : a.Keeps a') : a'.IsSized := by
  constructor
  · rw [hkeeps.function, hkeeps.slots]
    exact h.slots
  · rw [hkeeps.function, hkeeps.values]
    exact h.values

theorem IsSized.enter (f : Function) (start : BlockId) (args : List Value) :
    (Activation.enter f start args).IsSized :=
  ⟨by simp [Activation.enter], by simp [Activation.enter]⟩

end Activation

/-- Every function with a body passes verification. -/
def Ir.Module.IsVerified (m : Module) : Prop :=
  ∀ id f, m.function id = .ok f → f.isDeclaration = false → m.verify id = .ok ()

/-! ### What building and verification say of a place -/

section
variable {m : Module} {f : Function}

theorem Ir.Module.IsVerified.passes (h : m.IsVerified) (hf : f ∈ m.functions) {id : BlockId}
    (hid : id ∈ f.layout) : ∃ b t, f.block id = .ok b ∧ b.Passes m f t := by
  obtain ⟨k, hk⟩ := Array.mem_iff_getElem?.1 hf
  have hfunction : m.function ⟨k⟩ = .ok f := Ir.entry_eq_ok.2 hk
  have hdefined : f.isDeclaration = false := by
    simp only [Function.isDeclaration, Array.isEmpty_eq_false_iff]
    rintro hempty
    simp [hempty] at hid
  exact Ir.Function.passes_of_check
    (Ir.Module.check_of_verify hfunction (h ⟨k⟩ f hfunction hdefined)) hid

namespace Activation

variable {a : Activation}

theorem IsPlaced.finds (h : a.IsPlaced m) {v : Operand} (hnames : a.function.Names v)
    (htext : v.TextBelow m.globals.size) : a.Finds m v := by
  cases v with
  | inst id => exact Nat.lt_of_lt_of_eq hnames h.values.symm
  | param n => exact ⟨hnames, Nat.lt_of_lt_of_le hnames h.args⟩
  | slotAddr s => exact Nat.lt_of_lt_of_eq hnames h.slots.symm
  | global g => exact htext
  | int | float | void => trivial

theorem IsPlaced.isGuarded (h : a.IsPlaced m) (hbuilt : m.IsBuilt) (hverified : m.IsVerified) :
    a.IsGuarded m := by
  obtain ⟨b, t, hb, hpasses⟩ := hverified.passes h.function h.block
  have hmem : b ∈ a.function.blocks := Array.mem_of_getElem? (Ir.entry_eq_ok.1 hb)
  have hsound := hbuilt a.function h.function b hmem
  refine ⟨by simpa [Function.isAttached] using h.block, ⟨b, t, hb, hpasses.terminator⟩, h.args,
    h.slots, h.values, ?_, ?_⟩
  · rintro i ⟨b', hb', hi⟩
    obtain rfl := Except.ok.inj (hb.symm.trans hb')
    have hi := Array.mem_of_getElem? hi
    have hcheck := hpasses.insts i hi
    refine ⟨fun v hv => ?_, fun s hs => ?_, fun id hid => ?_, fun callee args hcall => ?_⟩
    · exact h.finds (Ir.Function.names_of_check hcheck v hv) ((hsound.insts i hi).operands v hv)
    · rw [h.slots]
      cases haction : i.action with
      | alloca s' | load s' =>
        rw [haction] at hs
        obtain rfl := Option.some.inj hs
        exact (hsound.insts i hi).slot s' (by simp [haction])
      | store s' v =>
        rw [haction] at hs hcheck
        obtain rfl := Option.some.inj hs
        exact Ir.Function.slot_of_check_store hcheck
      | _ =>
        rw [haction] at hs
        cases hs
    · rw [h.values]
      exact (hsound.insts i hi).result id hid
    · rw [hcall] at hcheck
      exact Ir.Function.supplies_of_check_call hcheck
  · rintro t' ⟨b', hb', -, ht'⟩ v hv
    obtain rfl := Except.ok.inj (hb.symm.trans hb')
    obtain rfl := Option.some.inj (hpasses.terminator.symm.trans ht')
    exact h.finds (hpasses.operands v hv) (hsound.terminator t ht' v hv)

theorem IsPlaced.keeps {a' : Activation} (h : a.IsPlaced m) (hkeeps : a.Keeps a') :
    a'.IsPlaced m := by
  refine ⟨?_, ?_, ?_, ?_, ?_⟩
  · rw [hkeeps.function]
    exact h.function
  · rw [hkeeps.function, hkeeps.block]
    exact h.block
  · rw [hkeeps.function, hkeeps.args]
    exact h.args
  · rw [hkeeps.function, hkeeps.slots]
    exact h.slots
  · rw [hkeeps.function, hkeeps.values]
    exact h.values

theorem IsPlaced.enter {start : BlockId} {args : List Value} (hf : f ∈ m.functions)
    (hstart : f.entryBlock? = some start) (hargs : f.params.length ≤ args.length) :
    (Activation.enter f start args).IsPlaced m where
  function := hf
  block := Array.mem_of_getElem? hstart
  args := by simpa [Activation.enter] using hargs
  slots := by simp [Activation.enter]
  values := by simp [Activation.enter]

end Activation

end

/-! ### Steps and runs -/

namespace Config

variable {m : Module} {c c' : Config}

def activations (c : Config) : List Activation := c.current :: c.callers

def IsPlaced (m : Module) (c : Config) : Prop := ∀ a ∈ c.activations, a.IsPlaced m

theorem IsPlaced.step (h : c.IsPlaced m) (hbuilt : m.IsBuilt) (hverified : m.IsVerified)
    (hstep : c.step m = .running c') : c'.IsPlaced m := by
  obtain ⟨hcurrent, hcallers⟩ := List.forall_mem_cons.1 h
  have hguarded := hcurrent.isGuarded hbuilt hverified
  cases goes_of_step hstep with
  | inside _ hacts hcomplete =>
    have hkeeps := hacts.keeps.trans (Activation.complete_keeps hcomplete)
    exact List.forall_mem_cons.2 ⟨hcurrent.keeps hkeeps, hcallers⟩
  | outside _ _ _ _ _ hlibrary hcomplete =>
    have hkeeps := Activation.complete_keeps hcomplete
    rcases (Library.call_scans hlibrary).1 with rfl | ⟨-, hscans⟩
    · exact List.forall_mem_cons.2 ⟨hcurrent.keeps hkeeps, hcallers⟩
    · exact List.forall_mem_cons.2 ⟨hcurrent.keeps (hscans.keeps.trans hkeeps), hcallers⟩
  | @enter i callee args f start values hi hcall hvalues hf hstart =>
    have hmem : f ∈ m.functions := Array.mem_of_getElem? (Ir.entry_eq_ok.1 hf)
    obtain ⟨g, hg, hsupplies⟩ := (hguarded.inst i hi).call callee args hcall
    obtain rfl := Except.ok.inj (hf.symm.trans hg)
    have hlength : values.length = args.length := (Ir.mapM_eq_ok hvalues).1
    exact List.forall_mem_cons.2 ⟨.enter hmem hstart (hlength ▸ hsupplies), h⟩
  | @jump t dest hend hdest =>
    obtain ⟨b, t', hb, hpasses⟩ := hverified.passes hcurrent.function hcurrent.block
    obtain ⟨b', hb', -, ht⟩ := hend
    obtain rfl := Except.ok.inj (hb.symm.trans hb')
    obtain rfl := Option.some.inj (hpasses.terminator.symm.trans ht)
    refine List.forall_mem_cons.2 ⟨?_, hcallers⟩
    exact ⟨hcurrent.function, hpasses.targets dest hdest, hcurrent.args, hcurrent.slots,
      hcurrent.values⟩
  | @back value v a a' b callers _ _ _ hwaiting hb hcomplete =>
    rw [hwaiting] at hcallers
    obtain ⟨ha, hcallers⟩ := List.forall_mem_cons.1 hcallers
    exact List.forall_mem_cons.2 ⟨ha.keeps (Activation.complete_keeps hcomplete), hcallers⟩

/-- In all activations slots and values are as many as the function says. -/
def IsSized (c : Config) : Prop := ∀ a ∈ c.activations, a.IsSized

theorem IsSized.step (h : c.IsSized) (hstep : c.step m = .running c') : c'.IsSized := by
  obtain ⟨hcurrent, hcallers⟩ := List.forall_mem_cons.1 h
  cases goes_of_step hstep with
  | inside _ hacts hcomplete =>
    have hkeeps := hacts.keeps.trans (Activation.complete_keeps hcomplete)
    exact List.forall_mem_cons.2 ⟨hcurrent.keeps hkeeps, hcallers⟩
  | outside _ _ _ _ _ hlibrary hcomplete =>
    have hkeeps := Activation.complete_keeps hcomplete
    rcases (Library.call_scans hlibrary).1 with rfl | ⟨-, hscans⟩
    · exact List.forall_mem_cons.2 ⟨hcurrent.keeps hkeeps, hcallers⟩
    · exact List.forall_mem_cons.2 ⟨hcurrent.keeps (hscans.keeps.trans hkeeps), hcallers⟩
  | enter => exact List.forall_mem_cons.2 ⟨.enter _ _ _, h⟩
  | jump => exact List.forall_mem_cons.2 ⟨⟨hcurrent.slots, hcurrent.values⟩, hcallers⟩
  | back _ _ _ hwaiting _ hcomplete =>
    rw [hwaiting] at hcallers
    obtain ⟨ha, hcallers⟩ := List.forall_mem_cons.1 hcallers
    exact List.forall_mem_cons.2 ⟨ha.keeps (Activation.complete_keeps hcomplete), hcallers⟩

/-- What holds at first and is kept by every step holds all along. -/
theorem after_invariant {P : Config → Prop} (hstep : ∀ c c', P c → c.step m = .running c' → P c')
    {n : Nat} (h : P c) (hafter : c.after m n = some c') : P c' := by
  induction n generalizing c with
  | zero => exact Option.some.inj hafter ▸ h
  | succ n ih =>
    rw [after] at hafter
    split at hafter
    · rename_i c₁ hc₁
      exact ih (hstep c c₁ h hc₁) hafter
    · cases hafter

theorem after_of_run_error {n : Nat} {e : Halt} {w : World} (h : c.run m n = some (.error e, w)) :
    ∃ k c', c.after m k = some c' ∧ c'.step m = .halted e w := by
  induction n generalizing c with
  | zero => cases h
  | succ n ih =>
    rw [run] at h
    split at h
    · rename_i c₁ hc₁
      obtain ⟨k, c', hafter, hhalted⟩ := ih h
      refine ⟨k + 1, c', ?_, hhalted⟩
      rw [after, hc₁]
      exact hafter
    · cases h
    · rename_i e' w' hhalted
      cases h
      exact ⟨0, c, rfl, hhalted⟩

end Config

/-! ### Lookups that cannot fail -/

namespace Activation

variable {m : Module} {a : Activation} {v : Operand} {s : SlotId} {f : Fault}

theorem Finds.get_ok (h : a.Finds m v) : ∃ x, a.get v = .ok x := by
  cases v with
  | inst id => exact ⟨_, Ir.entry_eq_ok.2 (Array.getElem?_eq_getElem h)⟩
  | param n => exact ⟨_, Ir.entry_eq_ok.2 (Array.getElem?_eq_getElem h.2)⟩
  | _ => exact ⟨_, rfl⟩

theorem getAll_ok {vs : List Operand} (h : ∀ v ∈ vs, a.Finds m v) :
    ∃ xs, a.getAll vs = .ok xs := by
  unfold getAll
  induction vs with
  | nil => exact ⟨[], rfl⟩
  | cons v rest ih =>
    obtain ⟨hv, hrest⟩ := List.forall_mem_cons.1 h
    obtain ⟨x, hx⟩ := hv.get_ok
    obtain ⟨xs, hxs⟩ := ih hrest
    refine ⟨x :: xs, ?_⟩
    rw [List.mapM_cons, hx, hxs]
    rfl

theorem setSlot_ok (h : s.index < a.slots.size) (x : Value) : ∃ a', a.setSlot s x = .ok a' := by
  unfold setSlot
  rw [if_pos h]
  exact ⟨_, rfl⟩

theorem complete_ok {result : Option Ir.ValueId}
    (h : ∀ id, result = some id → id.index < a.values.size) (x : Value) :
    ∃ a', a.complete result x = .ok a' := by
  unfold complete
  cases result with
  | none => exact ⟨_, rfl⟩
  | some id =>
    dsimp only
    rw [if_pos (h id rfl)]
    exact ⟨_, rfl⟩

theorem IsGuarded.typeOf_ok (h : a.IsGuarded m) (hv : a.Finds m v) :
    ∃ ty, a.function.typeOf v = .ok ty := by
  cases v with
  | inst id =>
    have hlt := Nat.lt_of_lt_of_eq hv h.values
    exact ⟨_, Ir.map_eq_ok.2 ⟨_, Ir.entry_eq_ok.2 (Array.getElem?_eq_getElem hlt), rfl⟩⟩
  | param n =>
    have hlt : n < a.function.params.toArray.size := by simpa using hv.1
    exact ⟨_, Ir.map_eq_ok.2 ⟨_, Ir.entry_eq_ok.2 (Array.getElem?_eq_getElem hlt), rfl⟩⟩
  | slotAddr s =>
    have hlt := Nat.lt_of_lt_of_eq hv h.slots
    exact ⟨_, Ir.map_eq_ok.2 ⟨_, Ir.entry_eq_ok.2 (Array.getElem?_eq_getElem hlt), rfl⟩⟩
  | _ => exact ⟨_, rfl⟩

theorem lookup_ne_fault {α β : Type} {x : Except Fault α} {g : α → Except Halt β}
    (hx : ∃ y, x = .ok y) (h : ∀ y, g y ≠ .error (.fault f)) :
    x.mapError Halt.fault >>= g ≠ .error (.fault f) := by
  obtain ⟨y, rfl⟩ := hx
  exact h y

theorem IsGuarded.perform_ne_fault (h : a.IsGuarded m) {i : Inst} (hi : a.Performs i) :
    a.perform i.action ≠ .error (.fault f) := by
  have hcovers := h.inst i hi
  have hoperands := hcovers.operands
  have hslot := hcovers.slot
  unfold perform
  cases haction : i.action with
  | alloca s =>
    have hs := hslot s (by rw [haction]; rfl)
    have hdeclared : ∃ slot, a.function.slot s = .ok slot :=
      ⟨_, Ir.entry_eq_ok.2 (Array.getElem?_eq_getElem (Nat.lt_of_lt_of_eq hs h.slots))⟩
    refine lookup_ne_fault hdeclared fun slot => lookup_ne_fault (setSlot_ok hs _) fun _ he => ?_
    cases he
  | load s =>
    have hs := hslot s (by rw [haction]; rfl)
    have hread : ∃ x, a.slot s = .ok x := ⟨_, Ir.entry_eq_ok.2 (Array.getElem?_eq_getElem hs)⟩
    refine lookup_ne_fault hread fun _ he => ?_
    cases he
  | store s u =>
    have hs := hslot s (by rw [haction]; rfl)
    rw [haction] at hoperands
    have hu := hoperands u (by simp [Action.operands])
    refine lookup_ne_fault hu.get_ok fun x => lookup_ne_fault (setSlot_ok hs x) fun _ he => ?_
    cases he
  | binary op l r =>
    rw [haction] at hoperands
    have hl := hoperands l (by simp [Action.operands])
    have hr := hoperands r (by simp [Action.operands])
    refine lookup_ne_fault (h.typeOf_ok hl) fun ty => lookup_ne_fault hl.get_ok fun x =>
      lookup_ne_fault hr.get_ok fun y he => ?_
    split at he <;> cases he
  | compare pred l r =>
    rw [haction] at hoperands
    have hl := hoperands l (by simp [Action.operands])
    have hr := hoperands r (by simp [Action.operands])
    refine lookup_ne_fault hl.get_ok fun x => lookup_ne_fault hr.get_ok fun y he => ?_
    cases he
  | cast op u target =>
    rw [haction] at hoperands
    have hu := hoperands u (by simp [Action.operands])
    refine lookup_ne_fault (h.typeOf_ok hu) fun ty => lookup_ne_fault hu.get_ok fun x he => ?_
    cases he
  | call callee args =>
    intro he
    cases he

end Activation

namespace Config

variable {m : Module} {c : Config}

/-- The next instruction is a call of a function without a body. -/
def CallsOutside (m : Module) (c : Config) : Prop :=
  ∃ i callee args f, c.current.Performs i ∧ i.action = .call callee args ∧
    m.function callee = .ok f ∧ f.isDeclaration = true

theorem call_fault {i : Inst} {callee : FuncId} {args : List Operand} {e : Fault} {w : World}
    (hguarded : c.current.IsGuarded m) (hi : c.current.Performs i)
    (hcall : i.action = .call callee args) (h : c.call m i callee args = .halted (.fault e) w) :
    c.CallsOutside m := by
  have hcovers := hguarded.inst i hi
  have hoperands := hcovers.operands
  rw [hcall] at hoperands
  obtain ⟨values, hvalues⟩ : ∃ values, c.current.getAll args = .ok values :=
    Activation.getAll_ok hoperands
  obtain ⟨f, hf, -⟩ := hcovers.call callee args hcall
  unfold call at h
  rw [hvalues, hf] at h
  dsimp only at h
  cases hentry : f.entryBlock? with
  | none =>
    refine ⟨i, callee, args, f, hi, hcall, hf, ?_⟩
    simpa [Function.isDeclaration, Function.entryBlock?] using hentry
  | some start =>
    rw [hentry] at h
    dsimp only at h
    split at h <;> cases h

theorem giveBack_ne_fault {v : Value} {e : Fault} {w : World}
    (h : ∀ a ∈ c.callers, a.IsGuarded m) : c.giveBack v ≠ .halted (.fault e) w := by
  unfold giveBack
  cases hcallers : c.callers with
  | nil =>
    intro h
    cases h
  | cons a callers =>
    have ha := h a (by simp [hcallers])
    obtain ⟨b, t, hb, -⟩ := ha.block
    have hresult : ∀ id, (b.insts[a.position]?).bind Inst.result = some id →
        id.index < a.values.size := by
      intro id hid
      obtain ⟨i, hi, hid⟩ := Option.bind_eq_some_iff.1 hid
      exact (ha.inst i ⟨b, hb, hi⟩).result id hid
    obtain ⟨a', hcomplete⟩ := Activation.complete_ok hresult v
    simp [hb, hcomplete]

theorem terminate_ne_fault {t : Terminator} {e : Fault} {w : World}
    (h : ∀ a ∈ c.activations, a.IsGuarded m) (hend : c.current.Ends (some t)) :
    c.terminate (some t) ≠ .halted (.fault e) w := by
  obtain ⟨hguarded, hcallers⟩ := List.forall_mem_cons.1 h
  have hoperands := hguarded.terminator t hend
  cases t with
  | br dest | unreachable =>
    intro h
    cases h
  | condBr cond t e =>
    obtain ⟨x, hx⟩ := (hoperands cond (by simp [Terminator.operands])).get_ok
    simp [terminate, hx]
  | ret value =>
    cases value with
    | none => exact giveBack_ne_fault hcallers
    | some u =>
      obtain ⟨x, hx⟩ := (hoperands u (by simp [Terminator.operands])).get_ok
      simp only [terminate, hx]
      exact giveBack_ne_fault hcallers

theorem callsOutside_of_fault {e : Fault} {w : World} (h : ∀ a ∈ c.activations, a.IsGuarded m)
    (hstep : c.step m = .halted (.fault e) w) : c.CallsOutside m := by
  obtain ⟨hguarded, -⟩ := List.forall_mem_cons.1 h
  obtain ⟨b, t, hb, ht⟩ := hguarded.block
  rcases next_cases (m := m) c with ⟨f, hf, -⟩ | ⟨i, callee, args, hi, hcall⟩ | ⟨i, hi, hcall⟩ |
    ⟨t', hend⟩
  · cases hb.symm.trans hf
  · exact call_fault hguarded hi hcall ((step_of_call hi hcall).symm.trans hstep)
  · rw [step_of_performs hi hcall] at hstep
    cases hperform : c.current.perform i.action with
    | error e' =>
      rw [hperform] at hstep
      cases hstep
      exact absurd hperform (hguarded.perform_ne_fault hi)
    | ok r =>
      obtain ⟨x, a⟩ := r
      have hkeeps := (Activation.acts_of_perform hperform hcall).keeps
      obtain ⟨a', hcomplete⟩ := Activation.complete_ok
        (fun id hid => hkeeps.values ▸ (hguarded.inst i hi).result id hid) x
      rw [hperform, goOn, hcomplete] at hstep
      cases hstep
  · obtain ⟨b', hb', hinst, ht'⟩ := hend
    obtain rfl := Except.ok.inj (hb.symm.trans hb')
    obtain rfl := ht.symm.trans ht'
    have hend : c.current.Ends (some t) := ⟨b, hb, hinst, ht⟩
    exact absurd ((step_of_ends hend).symm.trans hstep) (terminate_ne_fault h hend)

end Config

/-! ### Runs of the entry point -/

/-- The entry point, if there is one, takes no parameters. -/
def Ir.Module.HasPlainMain (m : Module) : Prop :=
  ∀ id f, m.lookup? "main" = some id → m.function id = .ok f → f.params = []

namespace Machine

variable {machine machine' : Machine} {c : Config}

/-- A run of the entry point comes to the configuration. -/
def Reaches (machine : Machine) (c : Config) : Prop :=
  ∃ c₀ n, machine.first? = some c₀ ∧ c₀.after machine.module n = some c

theorem first?_isPlaced (h : machine.first? = some c) (hmain : machine.module.HasPlainMain) :
    c.IsPlaced machine.module := by
  unfold first? at h
  obtain ⟨id, hid, h⟩ := Option.bind_eq_some_iff.1 h
  obtain ⟨f, hf, h⟩ := Option.bind_eq_some_iff.1 h
  obtain ⟨start, hstart, h⟩ := Option.bind_eq_some_iff.1 h
  cases hfunction : machine.module.function id with
  | error e =>
    rw [hfunction] at hf
    cases hf
  | ok g =>
    rw [hfunction] at hf
    cases hf
    cases h
    have hmem : f ∈ machine.module.functions := Array.mem_of_getElem? (Ir.entry_eq_ok.1 hfunction)
    exact List.forall_mem_singleton.2 (.enter hmem hstart (by simp [hmain id f hid hfunction]))

theorem first?_isSized (h : machine.first? = some c) : c.IsSized := by
  unfold first? at h
  obtain ⟨id, -, h⟩ := Option.bind_eq_some_iff.1 h
  obtain ⟨f, -, h⟩ := Option.bind_eq_some_iff.1 h
  obtain ⟨start, -, h⟩ := Option.bind_eq_some_iff.1 h
  cases h
  exact List.forall_mem_singleton.2 (.enter f start [])

theorem Reaches.isSized (h : machine.Reaches c) : c.IsSized := by
  obtain ⟨c₀, n, hfirst, hafter⟩ := h
  exact Config.after_invariant (fun _ _ hc hstep => hc.step hstep) (first?_isSized hfirst) hafter

theorem Reaches.isPlaced (h : machine.Reaches c) (hmain : machine.module.HasPlainMain)
    (hbuilt : machine.module.IsBuilt) (hverified : machine.module.IsVerified) :
    c.IsPlaced machine.module := by
  obtain ⟨c₀, n, hfirst, hafter⟩ := h
  exact Config.after_invariant (fun _ _ hc hstep => hc.step hbuilt hverified hstep)
    (first?_isPlaced hfirst hmain) hafter

theorem unreachable_of_flushed {r : Except Halt Value} {w : World} {name : String}
    (h : (flushed r w).map Value.toInt = .error (.trap (.unreachable name))) :
    r = .error (.trap (.unreachable name)) := by
  cases r with
  | ok v =>
    unfold flushed at h
    split at h <;> cases h
  | error e =>
    unfold flushed at h
    split at h <;> cases h
    rfl

theorem step_of_unreachable {n : Nat} {name : String}
    (h : machine.runMain n = some (.error (.trap (.unreachable name)), machine')) :
    ∃ c w, machine.Reaches c ∧ c.step machine.module = .halted (.trap (.unreachable name)) w := by
  cases hfirst : machine.first? with
  | none =>
    unfold runMain at h
    split at h
    · cases h
    · split at h
      · cases h
      · split at h
        · have h := congrArg Prod.fst (Option.some.inj h)
          cases unreachable_of_flushed h
        · simp_all [first?, Except.toOption]
  | some c₀ =>
    rw [runMain_of_first? hfirst] at h
    obtain ⟨⟨r, w⟩, hout, hend⟩ := Option.map_eq_some_iff.1 h
    obtain rfl := unreachable_of_flushed (congrArg Prod.fst hend)
    obtain ⟨k, c, hafter, hhalted⟩ := Config.after_of_run_error hout
    exact ⟨c, w, ⟨c₀, k, hfirst, hafter⟩, hhalted⟩

/-- Whatever has been built, by whichever requests, and has passed verification runs as it should,
on any input and for any time: all activations are guarded, code traps as unreachable only where a
block ends so, and only calls of outside functions can fault. -/
theorem verified_runs_guarded {name : String} {hand : List Operand} {b : Builder}
    (hbuilt : Built name hand b) (hmodule : machine.module = b.module)
    (hverified : b.module.IsVerified) (hmain : b.module.HasPlainMain) :
    (∀ c, machine.Reaches c → ∀ a ∈ c.activations, a.IsGuarded b.module) ∧
      (∀ n f machine', machine.runMain n = some (.error (.trap (.unreachable f)), machine') →
        ∃ c, machine.Reaches c ∧ c.current.function.name = f ∧
          c.current.Ends (some .unreachable)) ∧
      ∀ c f w, machine.Reaches c → c.step b.module = .halted (.fault f) w →
        c.CallsOutside b.module := by
  have hbuilt := hbuilt.isBuilt.1
  rw [← hmodule] at hbuilt hverified hmain ⊢
  have hguarded : ∀ c, machine.Reaches c → ∀ a ∈ c.activations, a.IsGuarded machine.module :=
    fun c hc a ha => ((hc.isPlaced hmain hbuilt hverified) a ha).isGuarded hbuilt hverified
  refine ⟨hguarded, fun n f machine' hrun => ?_, fun c f w hc hstep => ?_⟩
  · obtain ⟨c, w, hc, hstep⟩ := step_of_unreachable hrun
    obtain ⟨hname, hend⟩ := Config.ends_of_unreachable hstep
    refine ⟨c, hc, hname.symm, hend.resolve_left fun hnone => ?_⟩
    obtain ⟨body, t, hbody, ht⟩ := (hguarded c hc c.current List.mem_cons_self).block
    obtain ⟨body', hbody', -, hnone⟩ := hnone
    obtain rfl := Except.ok.inj (hbody.symm.trans hbody')
    cases ht.symm.trans hnone
  · exact Config.callsOutside_of_fault (hguarded c hc) hstep

theorem reaches_of_any {n : Nat} {p : Config → Bool}
    (h : (machine.first?.bind (·.after machine.module n)).any p = true) :
    ∃ c, machine.Reaches c ∧ p c = true := by
  obtain ⟨c, hc, hp⟩ := (Option.any_eq_true _ _).1 h
  obtain ⟨c₀, hfirst, hafter⟩ := Option.bind_eq_some_iff.1 hc
  exact ⟨c, ⟨c₀, n, hfirst, hafter⟩, hp⟩

/-- A module that stores a number, loads it and passes it through a function. Its runs come to the
activation of that function. -/
theorem sample_built : ∃ hand b, Built "sample" hand b ∧ b.module.IsVerified ∧
    b.module.HasPlainMain ∧
    ∃ c, (Machine.start b.module (.ofFeed (.whole [])) .unlimited).Reaches c ∧
      (c.callers.length == 1) = true := by
  have h : Built "sample" [] _ := .empty
  replace h := h.request (.declareFunction "id" [⟨"x", .i64⟩] .i64) (List.forall_mem_nil _) (by cbv)
  replace h := h.request (.enterFunction ⟨0⟩) (List.forall_mem_nil _) (by cbv)
  replace h := h.request (.createBlock "entry") (List.forall_mem_nil _) (by cbv)
  replace h := h.request (.appendBlock ⟨0⟩) (List.forall_mem_nil _) (by cbv)
  replace h := h.request (.switchTo ⟨0⟩) (List.forall_mem_nil _) (by cbv)
  replace h := h.request (.ret (some (.param 0))) (List.forall_mem_singleton.2 trivial) (by cbv)
  replace h := h.request (.declareFunction "main" [] .i64) (List.forall_mem_nil _) (by cbv)
  replace h := h.request (.enterFunction ⟨1⟩) (List.forall_mem_nil _) (by cbv)
  replace h := h.request (.createBlock "entry") (List.forall_mem_nil _) (by cbv)
  replace h := h.request (.appendBlock ⟨0⟩) (List.forall_mem_nil _) (by cbv)
  replace h := h.request (.switchTo ⟨0⟩) (List.forall_mem_nil _) (by cbv)
  replace h := h.request (.alloca "n" .i64) (List.forall_mem_nil _) (by cbv)
  replace h := h.request (.store ⟨0⟩ (.int .i64 7)) (List.forall_mem_singleton.2 trivial) (by cbv)
  replace h := h.request (.load ⟨0⟩) (List.forall_mem_nil _) (by cbv)
  replace h := h.request (.call ⟨0⟩ [.inst ⟨0⟩])
    (List.forall_mem_singleton.2 List.mem_cons_self) (by cbv)
  replace h := h.request (.ret (some (.inst ⟨1⟩)))
    (List.forall_mem_singleton.2 List.mem_cons_self) (by cbv)
  refine ⟨_, _, h, ?_, ?_, ?_⟩
  · rintro ⟨k⟩ f hf -
    have hk : k < 2 := (Array.getElem?_eq_some_iff.1 (Ir.entry_eq_ok.1 hf)).1
    obtain rfl | rfl : k = 0 ∨ k = 1 := by omega
    · cbv
    · cbv
  · intro id f hid hf
    obtain rfl : ⟨1⟩ = id := Option.some.inj (Eq.trans (by cbv) hid)
    obtain rfl := Except.ok.inj hf
    rfl
  · exact reaches_of_any (n := 4) (by cbv)

theorem verified_runs_guarded_sample : ∃ (b : Builder) (machine : Machine) (c : Config),
    machine.module = b.module ∧ machine.Reaches c ∧ c.callers.length = 1 ∧
    (∀ a ∈ c.activations, a.IsGuarded b.module) ∧
    ∀ f w, c.step b.module = .halted (.fault f) w → c.CallsOutside b.module := by
  obtain ⟨hand, b, hbuilt, hverified, hmain, c, hc, hcallers⟩ := sample_built
  have hmodule : (Machine.start b.module (.ofFeed (.whole [])) .unlimited).module = b.module := rfl
  obtain ⟨hguarded, -, hfault⟩ := verified_runs_guarded hbuilt hmodule hverified hmain
  exact ⟨b, _, c, hmodule, hc, by simpa using hcallers, hguarded c hc,
    fun f w => hfault c f w hc⟩

end Machine

end Quill
