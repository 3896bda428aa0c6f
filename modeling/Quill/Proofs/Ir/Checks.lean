import Quill.Proofs.Ir.Growth

/-! # Instructions that pass

Each check of verification, for operands whose types are known.
-/
namespace Quill.Ir

open Check

@[simp] theorem require_true {ε : Type} {e : ε} : require true e = .ok () := rfl

namespace Function

variable {m : Module} {f : Function} {v l r : Operand} {ty : Ty}

/-- An operand with a result can be asked whether it is a comparison. -/
theorem isComparison_ok (h : f.typeOf v = .ok ty) : ∃ c, f.isComparison v = .ok c := by
  cases v with
  | inst id =>
    simp only [typeOf, value, map_eq_ok, entry_eq_ok] at h
    obtain ⟨info, hinfo, -⟩ := h
    refine ⟨info.isComparison, ?_⟩
    simp only [isComparison, value, map_eq_ok, entry_eq_ok]
    exact ⟨info, hinfo, rfl⟩
  | _ => exact ⟨false, rfl⟩

theorem check_store {s : SlotId} {name : String} (hv : f.typeOf v = .ok ty) (hty : ty ≠ .void)
    (hs : f.slots[s.index]? = some ⟨name, ty⟩) : (Action.store s v).check m f = .ok () := by
  have hslot : f.slot s = .ok ⟨name, ty⟩ := entry_eq_ok.2 hs
  simp [Action.check, operandType_eq hv hty, hslot, ofFault, mapError_ok, bind, Except.bind]

theorem check_binary {op : BinaryOp} (hl : f.typeOf l = .ok ty) (hr : f.typeOf r = .ok ty)
    (hty : ty ≠ .void) (hop : (if op.isFloat then ty.isFloat else ty.isInt) = true) :
    (Action.binary op l r).check m f = .ok () := by
  simp [Action.check, operandType_eq hl hty, operandType_eq hr hty, hop, bind, Except.bind]

theorem check_compare {pred : Predicate} (hl : f.typeOf l = .ok ty) (hr : f.typeOf r = .ok ty)
    (hty : ty ≠ .void)
    (hpred : (if pred.isFloat then ty.isFloat else ty.isInt || ty.isPointer) = true) :
    (Action.compare pred l r).check m f = .ok () := by
  simp [Action.check, operandType_eq hl hty, operandType_eq hr hty, hpred, bind, Except.bind]

theorem check_cast {op : CastOp} {target : Ty} (hv : f.typeOf v = .ok ty) (hty : ty ≠ .void)
    (hop : op.isLegal ty target = true) : (Action.cast op v target).check m f = .ok () := by
  simp [Action.check, operandType_eq hv hty, hop, bind, Except.bind]

theorem checkArgs_ok {callee : Function} {args : List Operand} (index : Nat)
    (h : ∀ (k : Nat) v, args[k]? = some v → ∃ ty, f.typeOf v = .ok ty ∧ ty ≠ .void ∧
      ∀ p : Param, callee.params[index + k]? = some p → p.ty = ty) :
    checkArgs f callee index args = .ok () := by
  induction args generalizing index with
  | nil => rfl
  | cons v rest ih =>
    obtain ⟨ty, hv, hty, hp⟩ := h 0 v rfl
    have hrest := ih (index + 1) fun k w hw => by
      have := h (k + 1) w hw
      rwa [show index + (k + 1) = index + 1 + k by omega] at this
    unfold checkArgs
    cases hparam : callee.params[index]? with
    | none => simp [operandType_eq hv hty, hrest, bind, Except.bind]
    | some p => simp [operandType_eq hv hty, hrest, bind, Except.bind, hp p hparam]

theorem check_call {id : FuncId} {callee : Function} {args : List Operand}
    (hid : m.functions[id.index]? = some callee)
    (hcount : args.length = callee.params.length ∨
      callee.isVariadic = true ∧ callee.params.length ≤ args.length)
    (h : ∀ (k : Nat) v, args[k]? = some v → ∃ ty, f.typeOf v = .ok ty ∧ ty ≠ .void ∧
      ∀ p : Param, callee.params[k]? = some p → p.ty = ty) :
    (Action.call id args).check m f = .ok () := by
  have hcallee : m.function id = .ok callee := entry_eq_ok.2 hid
  have hargs : checkArgs f callee 0 args = .ok () := checkArgs_ok 0 (by simpa using h)
  have harity : (if callee.isVariadic then decide (args.length ≥ callee.params.length)
      else args.length == callee.params.length) = true := by
    rcases hcount with heq | ⟨hvar, hle⟩
    · split <;> simp [heq]
    · simp [hvar, hle]
  simp only [Action.check, hcallee, ofFault, mapError_ok, bind, Except.bind, harity,
    require_true]
  exact hargs

theorem check_condBr {label : String} {t e : BlockId} (hv : f.typeOf v = .ok .i1) :
    (Terminator.condBr v t e).check f label = .ok () := by
  simp [Terminator.check, usedType_eq hv (by decide), within, mapError_ok, bind, Except.bind]

theorem check_ret {label : String} (hv : f.typeOf v = .ok f.ret) (hret : f.ret ≠ .void) :
    (Terminator.ret (some v)).check f label = .ok () := by
  simp [Terminator.check, usedType_eq hv hret, within, mapError_ok, bind, Except.bind]

theorem check_retVoid {label : String} (hret : f.ret = .void) :
    (Terminator.ret none).check f label = .ok () := by
  simp [Terminator.check, hret, bind, Except.bind, pure, Except.pure]

/-! ### Blocks and functions -/

theorem forM_ok {α ε : Type} {g : α → Except ε PUnit} {xs : List α} (h : ∀ a ∈ xs, g a = .ok ()) :
    forM xs g = .ok () := by
  induction xs with
  | nil => rfl
  | cons a rest ih =>
    have hrest := ih fun b hb => h b (List.mem_cons_of_mem a hb)
    rw [List.forM_cons, h a (List.mem_cons_self ..)]
    exact hrest

theorem mapM_ok {α β ε : Type} {g : α → Except ε β} {p : α → β} {xs : List α}
    (h : ∀ a ∈ xs, g a = .ok (p a)) : xs.mapM g = .ok (xs.map p) := by
  induction xs with
  | nil => rfl
  | cons a rest ih =>
    have hrest := ih fun b hb => h b (List.mem_cons_of_mem a hb)
    rw [List.mapM_cons, h a (List.mem_cons_self ..)]
    simp only [bind, Except.bind, hrest]
    rfl

/-- A block passes that ends in a passing terminator with targets in the layout. -/
theorem checkBlock_ok {id : BlockId} {b : Block} {t : Terminator}
    (hb : f.blocks[id.index]? = some b) (hinsts : ∀ i ∈ b.insts, i.action.check m f = .ok ())
    (ht : b.terminator = some t) (htargets : ∀ s ∈ t.successors, s ∈ f.layout)
    (hcheck : t.check f b.label = .ok ()) : f.checkBlock m id = .ok t.isReturn := by
  have hblock : f.block id = .ok b := entry_eq_ok.2 hb
  have hforM : b.insts.forM (fun i => within (Violation.inst b.label) (i.action.check m f)) =
      .ok () := by
    rw [Array.forM_eq_forM, ← @Array.toArray_toList _ b.insts, List.forM_toArray]
    refine forM_ok fun i hi => ?_
    rw [hinsts i (Array.mem_toList_iff.1 hi)]
    rfl
  have hall : t.successors.all f.isAttached = true := by
    simpa [isAttached] using htargets
  unfold checkBlock
  simp only [hblock, ofFault, mapError_ok, bind, Except.bind, hforM, ht, hall, require_true,
    hcheck]
  rfl

/-- A function passes if its blocks do and `exit` is the one that returns. -/
theorem check_ok {exit : BlockId} (hexit : exit ∈ f.layout) (hnodup : f.layout.toList.Nodup)
    (hblocks : ∀ id ∈ f.layout, f.checkBlock m id = .ok (id == exit)) : f.check m = .ok () := by
  have hdefined : f.isDeclaration = false := by
    simp only [isDeclaration, Array.isEmpty_eq_false_iff]
    rintro hempty
    simp [hempty] at hexit
  have hreturns : f.layout.toList.mapM (f.checkBlock m) =
      .ok (f.layout.toList.map (· == exit)) :=
    mapM_ok fun id hid => hblocks id (Array.mem_toList_iff.1 hid)
  have hcount : (f.layout.toList.map (· == exit)).countP (fun r => r) = 1 := by
    rw [List.countP_map]
    have := hnodup.count (a := exit)
    rw [if_pos (Array.mem_toList_iff.2 hexit)] at this
    exact this
  unfold check
  simp only [hdefined, Bool.false_eq_true, ↓reduceIte, hreturns, bind, Except.bind]
  change require (List.countP (fun r => r) _ == 1) _ = _
  rw [hcount]
  rfl

end Function

end Quill.Ir
