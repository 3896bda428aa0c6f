import Quill.Proofs.Ir.Growth
import Quill.Proofs.Machine.Steps

/-! # What verification says

In every block of the layout of a function that passes there is a terminator with targets in the
layout, and what the instructions and the terminator name is in the tables of the function. Two
things are not looked at and left to building: the addresses of constant texts, and the slots of
reservations and loads.
-/
namespace Quill.Ir

section
variable {ε δ α β : Type}

theorem bind_eq_ok {x : Except ε α} {g : α → Except ε β} {b : β} :
    x >>= g = .ok b ↔ ∃ a, x = .ok a ∧ g a = .ok b := by
  cases x <;> simp [bind, Except.bind]

theorem mapError_eq_ok {g : ε → δ} {x : Except ε α} {a : α} :
    x.mapError g = .ok a ↔ x = .ok a := by
  cases x with
  | ok b =>
    rw [mapError_ok, Except.ok.injEq, Except.ok.injEq]
  | error _ => exact ⟨nofun, nofun⟩

theorem require_eq_ok {p : Bool} {e : ε} {u : Unit} : Check.require p e = .ok u ↔ p = true := by
  cases p <;> simp [Check.require, Check.violated]

theorem forM_eq_ok {g : α → Except ε Unit} {xs : List α} (h : forM xs g = .ok ()) :
    ∀ a ∈ xs, g a = .ok () := by
  induction xs with
  | nil => exact List.forall_mem_nil _
  | cons a rest ih =>
    rw [List.forM_cons, bind_eq_ok] at h
    obtain ⟨_, ha, hrest⟩ := h
    exact List.forall_mem_cons.2 ⟨ha, ih hrest⟩

theorem mapM_eq_ok {g : α → Except ε β} {xs : List α} {ys : List β} (h : xs.mapM g = .ok ys) :
    ys.length = xs.length ∧ ∀ a ∈ xs, ∃ b, g a = .ok b := by
  induction xs generalizing ys with
  | nil =>
    rw [List.mapM_nil] at h
    cases h
    exact ⟨rfl, List.forall_mem_nil _⟩
  | cons a rest ih =>
    rw [List.mapM_cons, bind_eq_ok] at h
    obtain ⟨b, ha, h⟩ := h
    obtain ⟨bs, hrest, hys⟩ := bind_eq_ok.1 h
    cases hys
    obtain ⟨hlength, hall⟩ := ih hrest
    exact ⟨congrArg (· + 1) hlength, List.forall_mem_cons.2 ⟨⟨b, ha⟩, hall⟩⟩

end

namespace Function

variable {m : Module} {f : Function} {v : Operand} {ty : Ty}

/-- What the operand names is in the tables of the function. -/
def Names (f : Function) : Operand → Prop
  | .inst id => id.index < f.values.size
  | .param n => n < f.params.length
  | .slotAddr s => s.index < f.slots.size
  | .int .. | .float .. | .global _ | .void => True

theorem names_of_usedType (h : f.usedType v = .ok ty) : f.Names v := by
  cases v with
  | inst _ | param _ | slotAddr _ =>
    simp only [usedType] at h
    split at h
    · cases h
    · exact Nat.lt_of_not_ge ‹_›
  | _ => trivial

theorem used_of_operandType (h : f.operandType v = .ok ty) : ∃ ty, f.usedType v = .ok ty :=
  ⟨ty, mapError_eq_ok.1 h⟩

theorem used_of_checkArgs {callee : Function} {args : List Operand} {index : Nat}
    (h : checkArgs f callee index args = .ok ()) : ∀ v ∈ args, ∃ ty, f.usedType v = .ok ty := by
  induction args generalizing index with
  | nil => exact List.forall_mem_nil _
  | cons v rest ih =>
    rw [checkArgs, bind_eq_ok] at h
    obtain ⟨ty, hv, h⟩ := h
    have hrest : checkArgs f callee (index + 1) rest = .ok () := by
      dsimp only at h
      split at h
      · exact (bind_eq_ok.1 h).choose_spec.2
      · exact h
    exact List.forall_mem_cons.2 ⟨used_of_operandType hv, ih hrest⟩

/-- The operands of an instruction that passes are used as operands may be. -/
theorem used_of_check {action : Action} (h : action.check m f = .ok ()) :
    ∀ v ∈ action.operands, ∃ ty, f.usedType v = .ok ty := by
  cases action with
  | alloca s | load s => exact List.forall_mem_nil _
  | store s v | cast op v target =>
    obtain ⟨_, hv, -⟩ := bind_eq_ok.1 h
    exact List.forall_mem_singleton.2 (used_of_operandType hv)
  | binary op l r | compare pred l r =>
    obtain ⟨_, hl, h⟩ := bind_eq_ok.1 h
    obtain ⟨_, hr, -⟩ := bind_eq_ok.1 h
    exact List.forall_mem_cons.2
      ⟨used_of_operandType hl, List.forall_mem_singleton.2 (used_of_operandType hr)⟩
  | call callee args =>
    obtain ⟨_, -, h⟩ := bind_eq_ok.1 h
    obtain ⟨_, -, hargs⟩ := bind_eq_ok.1 h
    exact used_of_checkArgs hargs

theorem names_of_check {action : Action} (h : action.check m f = .ok ()) :
    ∀ v ∈ action.operands, f.Names v := by
  intro v hv
  obtain ⟨ty, hty⟩ := used_of_check h v hv
  exact names_of_usedType hty

theorem slot_of_check_store {s : SlotId} (h : (Action.store s v).check m f = .ok ()) :
    s.index < f.slots.size := by
  obtain ⟨_, -, h⟩ := bind_eq_ok.1 h
  obtain ⟨slot, hslot, -⟩ := bind_eq_ok.1 h
  exact (Array.getElem?_eq_some_iff.1 (entry_eq_ok.1 (mapError_eq_ok.1 hslot))).1

/-- A call that passes supplies an argument for every declared parameter. -/
theorem supplies_of_check_call {callee : FuncId} {args : List Operand}
    (h : (Action.call callee args).check m f = .ok ()) :
    ∃ g, m.function callee = .ok g ∧ g.params.length ≤ args.length := by
  obtain ⟨g, hg, h⟩ := bind_eq_ok.1 h
  obtain ⟨_, hcount, -⟩ := bind_eq_ok.1 h
  refine ⟨g, mapError_eq_ok.1 hg, ?_⟩
  have hcount := require_eq_ok.1 hcount
  split at hcount
  · exact of_decide_eq_true hcount
  · exact Nat.le_of_eq (beq_iff_eq.1 hcount).symm

theorem used_of_check_terminator {label : String} {t : Terminator}
    (h : t.check f label = .ok ()) : ∀ v ∈ t.operands, ∃ ty, f.usedType v = .ok ty := by
  cases t with
  | br dest | unreachable => exact List.forall_mem_nil _
  | condBr c s e =>
    obtain ⟨_, hc, -⟩ := bind_eq_ok.1 h
    exact List.forall_mem_singleton.2 ⟨_, mapError_eq_ok.1 hc⟩
  | ret value =>
    cases value with
    | none => exact List.forall_mem_nil _
    | some v =>
      obtain ⟨_, hv, -⟩ := bind_eq_ok.1 h
      exact List.forall_mem_singleton.2 ⟨_, mapError_eq_ok.1 hv⟩

end Function

/-! ### Blocks and functions -/

/-- What a block that passes has been found to be: it ends, and it does not lead out of the
layout. -/
structure Block.Passes (m : Module) (f : Function) (b : Block) (t : Terminator) : Prop where
  terminator : b.terminator = some t
  targets : ∀ s ∈ t.successors, s ∈ f.layout
  insts : ∀ i ∈ b.insts, i.action.check m f = .ok ()
  operands : ∀ v ∈ t.operands, f.Names v

namespace Function

variable {m : Module} {f : Function} {id : BlockId}

theorem checkBlock_eq_ok {r : Bool} (h : f.checkBlock m id = .ok r) :
    ∃ b t, f.block id = .ok b ∧ b.terminator = some t ∧ (∀ s ∈ t.successors, s ∈ f.layout) ∧
      (∀ i ∈ b.insts, i.action.check m f = .ok ()) ∧ t.check f b.label = .ok () := by
  obtain ⟨b, hb, h⟩ := bind_eq_ok.1 h
  obtain ⟨_, hinsts, h⟩ := bind_eq_ok.1 h
  cases ht : b.terminator with
  | none =>
    rw [ht] at h
    cases h
  | some t =>
    rw [ht] at h
    obtain ⟨_, htargets, h⟩ := bind_eq_ok.1 h
    obtain ⟨_, hcheck, -⟩ := bind_eq_ok.1 h
    refine ⟨b, t, mapError_eq_ok.1 hb, ht, ?_, fun i hi => ?_, hcheck⟩
    · simpa [isAttached] using require_eq_ok.1 htargets
    · rw [Array.forM_eq_forM, ← @Array.toArray_toList _ b.insts, List.forM_toArray] at hinsts
      exact mapError_eq_ok.1 (forM_eq_ok hinsts i (Array.mem_toList_iff.2 hi))

theorem checkBlock_of_check (h : f.check m = .ok ()) (hid : id ∈ f.layout) :
    ∃ r, f.checkBlock m id = .ok r := by
  have hdefined : f.isDeclaration = false := by
    simp only [isDeclaration, Array.isEmpty_eq_false_iff]
    rintro hempty
    simp [hempty] at hid
  unfold check at h
  simp only [hdefined, Bool.false_eq_true, ↓reduceIte] at h
  obtain ⟨returns, hreturns, -⟩ := bind_eq_ok.1 h
  exact (mapM_eq_ok hreturns).2 id (Array.mem_toList_iff.2 hid)

theorem passes_of_check (h : f.check m = .ok ()) (hid : id ∈ f.layout) :
    ∃ b t, f.block id = .ok b ∧ b.Passes m f t := by
  obtain ⟨r, hblock⟩ := checkBlock_of_check h hid
  obtain ⟨b, t, hb, ht, htargets, hinsts, hcheck⟩ := checkBlock_eq_ok hblock
  refine ⟨b, t, hb, ht, htargets, hinsts, fun v hv => ?_⟩
  obtain ⟨ty, hty⟩ := used_of_check_terminator hcheck v hv
  exact names_of_usedType hty

end Function

theorem Module.check_of_verify {m : Module} {id : FuncId} {f : Function}
    (hf : m.function id = .ok f) (h : m.verify id = .ok ()) : f.check m = .ok () := by
  unfold verify at h
  rw [hf] at h
  exact mapError_eq_ok.1 h

end Quill.Ir
