import Quill.Proofs.Ir.Changes
import Quill.Proofs.Ir.Lines

/-! # Lines that are read back

Equal lines, in functions around which the names are the same, are lines of equal instructions or of
equal terminators. The operand on the right has the type of the one on the left, which is written.
-/
namespace Quill.Ir

/-- Each in its module, two functions around whose code the names are the same. -/
structure Function.IsLike (m : Module) (f : Function) (n : Module) (g : Function) : Prop where
  left : f.IsClear m
  right : g.IsClear n
  params : f.params.map Param.name = g.params.map Param.name
  functions : m.functions.toList.map Function.name = n.functions.toList.map Function.name
  doubles : m.TellDoubles n

variable {m n : Module} {f g : Function}

theorem Function.typeOf_eq_ty {v : Operand} (hv : v.IsFound m f) : f.typeOf v = .ok (f.ty v) := by
  have htype : ∃ t, f.typeOf v = .ok t := by
    cases v with
    | inst id => exact ⟨_, by simp [typeOf, value, entry, Array.getElem?_eq_getElem hv]; rfl⟩
    | param k => exact ⟨_, by simp [typeOf, param, entry, List.getElem?_eq_getElem hv]; rfl⟩
    | slotAddr id => exact ⟨_, by simp [typeOf, slot, entry, Array.getElem?_eq_getElem hv]; rfl⟩
    | int | float | global => exact ⟨_, rfl⟩
    | void => cases hv
  obtain ⟨t, ht⟩ := htype
  rw [ht, ty_eq ht]

/-- An operand behind its type tells what it is, and which type it has. -/
theorem typedWords_append_inj (h : f.IsLike m n g) {v w : Operand} (hv : v.IsFound m f)
    (hw : w.IsFound n g) {rs ss : List (List Char)}
    (heq : v.typedWords m f ++ rs = w.typedWords n g ++ ss) :
    v = w ∧ f.typeOf v = g.typeOf w ∧ rs = ss := by
  simp only [Operand.typedWords, List.cons_append, List.nil_append, List.cons.injEq] at heq
  obtain ⟨hty, htext, hrest⟩ := heq
  have htype : f.typeOf v = g.typeOf w := by
    rw [Function.typeOf_eq_ty hv, Function.typeOf_eq_ty hw, Ty.text_inj hty]
  exact ⟨Operand.print_inj h.left.told h.right.told h.left.texts h.right.texts h.params h.doubles
    hv hw htype (String.toList_inj.1 htext), htype, hrest⟩

theorem print_right_inj (h : f.IsLike m n g) {v w : Operand} (hv : v.IsFound m f)
    (hw : w.IsFound n g) (htype : f.typeOf v = g.typeOf w)
    (heq : [[], (v.print m f).toList] = [[], (w.print n g).toList]) : v = w := by
  simp only [List.cons.injEq, and_true, true_and] at heq
  exact Operand.print_inj h.left.told h.right.told h.left.texts h.right.texts h.params h.doubles
    hv hw htype (String.toList_inj.1 heq)

theorem map_typedWords_inj (h : f.IsLike m n g) {vs ws : List Operand}
    (hvs : ∀ v ∈ vs, v.IsFound m f) (hws : ∀ w ∈ ws, w.IsFound n g)
    (heq : vs.map (Operand.typedWords m f) = ws.map (Operand.typedWords n g)) : vs = ws := by
  have hsame : vs.map id = ws.map id := map_eq_map_of heq fun v hv w hw hvw =>
    (typedWords_append_inj h (hvs v hv) (hws w hw) (congrArg (· ++ []) hvw)).1
  simpa using hsame

theorem slot_inj {s s' : SlotId} (hs : s.index < f.slots.size) (hs' : s'.index < g.slots.size)
    (htext : (f.slotText s).toList = (g.slotText s').toList) (hty : f.slotTy s = g.slotTy s') :
    s = s' ∧ f.slots[s.index]? = g.slots[s'.index]? := by
  rw [Function.toList_slotText, Function.toList_slotText] at htext
  obtain ⟨hname, hindex⟩ := numbered_inj (List.cons.inj htext).2
  refine ⟨congrArg SlotId.mk hindex, ?_⟩
  simp only [Function.slotName, Function.slotTy, Array.getElem?_eq_getElem hs,
    Array.getElem?_eq_getElem hs', Option.map_some, Option.getD_some] at hname hty ⊢
  generalize f.slots[s.index] = slot at hname hty
  generalize g.slots[s'.index] = slot' at hname hty
  cases slot
  cases slot'
  simp_all

theorem callee_inj (h : f.IsLike m n g) {c d : FuncId} (hc : c.index < m.functions.size)
    (hd : d.index < n.functions.size)
    (hname : ((m.functions[c.index]?).getD default).name =
      ((n.functions[d.index]?).getD default).name) : c = d := by
  rw [Array.getElem?_eq_getElem hc, Array.getElem?_eq_getElem hd] at hname
  have hget : (m.functions.toList.map Function.name)[c.index]? =
      (m.functions.toList.map Function.name)[d.index]? := by
    conv_rhs => rw [h.functions]
    simpa [hc, hd] using hname
  have hlt : c.index < (m.functions.toList.map Function.name).length := by simpa using hc
  exact congrArg FuncId.mk ((List.getElem?_inj hlt h.left.distinct).1 hget)

/-! ### Lists -/

/-- A type and `k` more words. -/
def IsItem (k : Nat) (x : List (List Char)) : Prop :=
  x.length = k + 1 ∧ ∃ t : Ty, x.head? = some t.text.toList

theorem Ty.text_ne_nil (t : Ty) : t.text.toList ≠ [] := by
  obtain ⟨p, b⟩ := t
  cases p <;> cases b <;> decide

theorem listed_append_inj {k : Nat} {xs ys : List (List (List Char))} (hxs : ∀ x ∈ xs, IsItem k x)
    (hys : ∀ y ∈ ys, IsItem k y) {rs ss : List (List Char)}
    (hrs : ∀ t : Ty, rs.head? ≠ some t.text.toList)
    (hss : ∀ t : Ty, ss.head? ≠ some t.text.toList)
    (h : listed xs ++ [] :: rs = listed ys ++ [] :: ss) : xs = ys ∧ rs = ss := by
  have hhead {x : List (List Char)} (hx : IsItem k x) (xs : List (List (List Char)))
      (rs : List (List Char)) : ∃ t : Ty, (listed (x :: xs) ++ rs).head? = some t.text.toList := by
    obtain ⟨hlength, t, ht⟩ := hx
    refine ⟨t, ?_⟩
    cases x with
    | nil => cases ht
    | cons w ws => simpa [listed] using ht
  induction xs generalizing ys with
  | nil =>
    cases ys with
    | nil => exact ⟨rfl, (List.cons.inj (List.cons.inj h).2).2⟩
    | cons y ys =>
      obtain ⟨t, ht⟩ := hhead (hys y List.mem_cons_self) ys ([] :: ss)
      rw [← h] at ht
      exact absurd (Option.some.inj ht).symm t.text_ne_nil
  | cons x xs ih =>
    obtain ⟨hx, hxs⟩ := List.forall_mem_cons.1 hxs
    cases ys with
    | nil =>
      obtain ⟨t, ht⟩ := hhead hx xs ([] :: rs)
      rw [h] at ht
      exact absurd (Option.some.inj ht).symm t.text_ne_nil
    | cons y ys =>
      obtain ⟨hy, hys'⟩ := List.forall_mem_cons.1 hys
      rw [listed, listed, List.append_assoc, List.append_assoc] at h
      obtain ⟨rfl, hrest⟩ := List.append_inj h (hx.1.trans hy.1.symm)
      cases xs with
      | nil =>
        cases ys with
        | nil => exact ⟨rfl, (List.cons.inj hrest).2⟩
        | cons z ys =>
          obtain ⟨t, ht⟩ := hhead (hys' z List.mem_cons_self) ys ([] :: ss)
          exact absurd ((congrArg List.head? (List.cons.inj hrest).2).trans ht) (hrs t)
      | cons z xs =>
        cases ys with
        | nil =>
          obtain ⟨t, ht⟩ := hhead (hxs z List.mem_cons_self) xs ([] :: rs)
          exact absurd ((congrArg List.head? (List.cons.inj hrest).2).symm.trans ht) (hss t)
        | cons z' ys =>
          obtain ⟨heq, hlast⟩ := ih hxs hys' (List.cons.inj hrest).2
          exact ⟨congrArg (x :: ·) heq, hlast⟩

/-! ### Instructions and terminators -/

theorem slotText_append_inj {s s' : SlotId} (hs : s.index < f.slots.size)
    (hs' : s'.index < g.slots.size)
    (h : [(f.slotTy s).text.toList ++ ['*'], (f.slotText s).toList] =
      [(g.slotTy s').text.toList ++ ['*'], (g.slotText s').toList]) :
    s = s' ∧ f.slotTy s = g.slotTy s' := by
  simp only [List.cons.injEq, and_true, List.append_left_inj] at h
  have hty := Ty.text_inj h.1
  exact ⟨(slot_inj hs hs' h.2 hty).1, hty⟩

theorem resultType_load {s : SlotId} (hs : s.index < f.slots.size) :
    (Action.load s).resultType m f = .ok (some (f.slotTy s)) := by
  simp [Action.resultType, Function.slot, entry, Function.slotTy, Array.getElem?_eq_getElem hs]

theorem resultType_call {callee : FuncId} {args : List Operand}
    (h : callee.index < m.functions.size) :
    (Action.call callee args).resultType m f =
      .ok (let g := (m.functions[callee.index]?).getD default
        if g.ret.isVoid then none else some g.ret) := by
  simp [Action.resultType, Module.function, entry, Array.getElem?_eq_getElem h]

/-- The action gives a result of the same type in both functions, or makes room for the same
slot. -/
def Action.Agrees (m : Module) (f : Function) (n : Module) (g : Function) (a : Action) : Prop :=
  a.resultType m f = a.resultType n g ∧
    ∀ s, a = alloca s → f.slots[s.index]? = g.slots[s.index]?

/-- What an instruction does, and with what, is told by its words. -/
theorem details_inj (h : f.IsLike m n g) {a b : Action} (ha : a.IsClear m f) (hb : b.IsClear n g)
    (hop : a.opcode = b.opcode) (htarget : a.target f = b.target g)
    (hdetails : a.details m f = b.details n g) : a = b ∧ a.Agrees m f n g := by
  cases a with
  | alloca s =>
    cases b with
    | alloca s' =>
      simp only [Action.target, Action.details, List.cons.injEq, and_true] at htarget hdetails
      obtain ⟨rfl, hslot⟩ := slot_inj ha hb htarget (Ty.text_inj hdetails)
      refine ⟨rfl, rfl, fun s' hs' => ?_⟩
      obtain rfl := Action.alloca.inj hs'
      exact hslot
    | _ => cases hop
  | load s =>
    cases b with
    | load s' =>
      have hslot := (List.cons.inj (List.cons.inj hdetails).2).2
      obtain ⟨rfl, hty⟩ := slotText_append_inj ha hb hslot
      refine ⟨rfl, ?_, fun s' hs' => nomatch hs'⟩
      rw [resultType_load ha, resultType_load hb, hty]
    | _ => cases hop
  | store s v =>
    cases b with
    | store s' v' =>
      obtain ⟨rfl, -, hslot⟩ := typedWords_append_inj h ha.2 hb.2 hdetails
      obtain ⟨rfl, -⟩ := slotText_append_inj ha.1 hb.1 (List.cons.inj hslot).2
      exact ⟨rfl, rfl, fun s' hs' => nomatch hs'⟩
    | _ => cases hop
  | binary op l r =>
    cases b with
    | binary op' l' r' =>
      obtain rfl := Opcode.binary.inj hop
      obtain ⟨hl, hr, hdiffer⟩ := ha
      obtain ⟨hl', hr', hdiffer'⟩ := hb
      obtain ⟨rfl, hty, hright⟩ := typedWords_append_inj h hl hl' hdetails
      obtain rfl := print_right_inj h hr hr' (hdiffer.trans (hty.trans hdiffer'.symm)) hright
      exact ⟨rfl, congrArg (some <$> ·) hty, fun s hs => nomatch hs⟩
    | _ => cases hop
  | compare pred l r =>
    cases b with
    | compare pred' l' r' =>
      obtain rfl := Opcode.compare.inj hop
      obtain ⟨hl, hr, hdiffer⟩ := ha
      obtain ⟨hl', hr', hdiffer'⟩ := hb
      obtain ⟨rfl, hty, hright⟩ := typedWords_append_inj h hl hl' hdetails
      obtain rfl := print_right_inj h hr hr' (hdiffer.trans (hty.trans hdiffer'.symm)) hright
      exact ⟨rfl, rfl, fun s hs => nomatch hs⟩
    | _ => cases hop
  | cast op v target =>
    cases b with
    | cast op' v' target' =>
      obtain rfl := Opcode.cast.inj hop
      obtain ⟨rfl, -, hlast⟩ := typedWords_append_inj h ha hb hdetails
      simp only [List.cons.injEq, true_and, and_true] at hlast
      obtain rfl := Ty.text_inj hlast
      exact ⟨rfl, rfl, fun s hs => nomatch hs⟩
    | _ => cases hop
  | call callee args =>
    cases b with
    | call callee' args' =>
      simp only [Action.details, List.cons_append, List.nil_append, List.cons.injEq, true_and]
        at hdetails
      obtain ⟨hret, hname, hlist⟩ := hdetails
      obtain rfl := callee_inj h ha.1 hb.1 (String.toList_inj.1 hname)
      have hitems {m : Module} {f : Function} {args : List Operand} :
          ∀ x ∈ args.map (Operand.typedWords m f), IsItem 1 x := by
        intro x hx
        obtain ⟨v, -, rfl⟩ := List.mem_map.1 hx
        exact ⟨rfl, _, rfl⟩
      have hargs := (listed_append_inj hitems hitems (by simp) (by simp) hlist).1
      obtain rfl := map_typedWords_inj h ha.2 hb.2 hargs
      refine ⟨rfl, ?_, fun s hs => nomatch hs⟩
      simp only [resultType_call ha.1, resultType_call hb.1, Ty.text_inj hret]
    | _ => cases hop

theorem Action.target_eq_nil_iff_of_opcode {a b : Action} (hop : a.opcode = b.opcode) :
    a.target f = [] ↔ b.target g = [] := by
  have halloca {f : Function} (a : Action) : a.target f = [] ↔ a.opcode ≠ .alloca := by
    cases a <;> simp [target, opcode]
  rw [halloca, halloca, hop]

/-- The target begins like an operand, and the operation does not. -/
theorem target_append_inj {i j : Inst} {ws vs : List (List Char)}
    (hwords : ∃ w rest, ws = w :: rest ∧ ∀ cs, w ≠ '%' :: cs)
    (hwords' : ∃ w rest, vs = w :: rest ∧ ∀ cs, w ≠ '%' :: cs)
    (h : i.target f ++ ws = j.target g ++ vs) : i.target f = j.target g ∧ ws = vs := by
  have htarget {f : Function} (i : Inst) :
      i.target f = [] ∨ ∃ cs, i.target f = ['%' :: cs, ['=']] := by
    unfold Inst.target
    split
    · exact .inr ⟨_, rfl⟩
    · cases i.action with
      | alloca s => exact .inr ⟨_, by rw [Action.target, Function.toList_slotText]⟩
      | _ => exact .inl rfl
  obtain ⟨w, rest, rfl, hw⟩ := hwords
  obtain ⟨v, rest', rfl, hv⟩ := hwords'
  rcases htarget (f := f) i with hi | ⟨cs, hi⟩ <;> rcases htarget (f := g) j with hj | ⟨ds, hj⟩ <;>
    rw [hi, hj] at h ⊢
  · exact ⟨rfl, h⟩
  · exact absurd (List.cons.inj h).1 (hw ds)
  · exact absurd (List.cons.inj h).1.symm (hv cs)
  · simpa using h

theorem Inst.line_inj (h : f.IsLike m n g) {i j : Inst} (hi : i.action.IsClear m f)
    (hj : j.action.IsClear n g) (hires : i.result ≠ none → i.action.target f = [])
    (hjres : j.result ≠ none → j.action.target g = []) (hline : i.line m f = j.line n g) :
    i = j ∧ i.action.Agrees m f n g := by
  have hwords := congrArg words hline
  rw [i.words_line h.left hi hires, j.words_line h.right hj hjres, List.append_assoc,
    List.append_assoc] at hwords
  have hfirst {a : Action} (ws : List (List Char)) :
      ∃ w rest, a.opcode.words ++ ws = w :: rest ∧ ∀ cs, w ≠ '%' :: cs := by
    obtain ⟨w, rest, hw, hno⟩ := a.opcode.exists_words
    exact ⟨w, rest ++ ws, by rw [hw, List.cons_append], hno⟩
  obtain ⟨htarget, hrest⟩ := target_append_inj (hfirst _) (hfirst _)
    (List.cons.inj (List.cons.inj hwords).2).2
  obtain ⟨hop, hdetails⟩ := Opcode.append_inj hrest
  obtain ⟨result, a⟩ := i
  obtain ⟨result', b⟩ := j
  have hsame : result = result' ∧ a.target f = b.target g := by
    cases result with
    | none =>
      cases result' with
      | none => exact ⟨rfl, htarget⟩
      | some id' =>
        have ha : a.target f = [] :=
          (Action.target_eq_nil_iff_of_opcode hop).2 (hjres (Option.some_ne_none id'))
        exact absurd (htarget.symm.trans ha) (List.cons_ne_nil _ _)
    | some id =>
      have ha := hires (Option.some_ne_none id)
      cases result' with
      | none =>
        have hb : b.target g = [] := (Action.target_eq_nil_iff_of_opcode hop).1 ha
        exact absurd (htarget.trans hb) (List.cons_ne_nil _ _)
      | some id' =>
        have hdigits := (List.cons.inj (List.cons.inj htarget).1).2
        exact ⟨congrArg (some ∘ ValueId.mk) (toDigits_inj hdigits),
          ha.trans (hjres (Option.some_ne_none id')).symm⟩
  obtain ⟨rfl, haction⟩ := hsame
  obtain ⟨rfl, hagrees⟩ := details_inj h hi hj hop haction hdetails
  exact ⟨rfl, hagrees⟩

theorem Terminator.line_inj (h : f.IsLike m n g) {s t : Terminator}
    (hs : ∀ v ∈ s.operands, v.IsFound m f) (ht : ∀ v ∈ t.operands, v.IsFound n g)
    (hline : s.line m f = t.line n g) : s = t := by
  have hwords := congrArg words hline
  rw [s.words_line h.left hs, t.words_line h.right ht] at hwords
  have hcode := (List.cons.inj (List.cons.inj hwords).2).2
  have hblock {d e : BlockId} (h : '%' :: (f.blockText d).toList = '%' :: (g.blockText e).toList) :
      d = e := Function.blockText_inj (String.toList_inj.1 (List.cons.inj h).2)
  cases s with
  | br d =>
    cases t with
    | br d' =>
      simp only [code, List.cons.injEq, true_and, and_true] at hcode
      rw [Function.blockText_inj (String.toList_inj.1 hcode)]
    | ret v? => cases v? <;> simp [code, Operand.typedWords] at hcode
    | _ => simp [code, Operand.typedWords] at hcode
  | condBr c d e =>
    cases t with
    | condBr c' d' e' =>
      obtain ⟨rfl, -, htargets⟩ := typedWords_append_inj h (hs c List.mem_cons_self)
        (ht c' List.mem_cons_self) (List.cons.inj hcode).2
      simp only [List.cons.injEq, true_and, and_true] at htargets
      rw [Function.blockText_inj (String.toList_inj.1 htargets.1),
        Function.blockText_inj (String.toList_inj.1 htargets.2)]
    | ret v? => cases v? <;> simp [code, Operand.typedWords] at hcode
    | _ => simp [code, Operand.typedWords] at hcode
  | ret v? =>
    cases t with
    | ret w? =>
      cases v? with
      | none =>
        cases w? with
        | none => rfl
        | some w => simp [code, Operand.typedWords] at hcode
      | some v =>
        cases w? with
        | none => simp [code, Operand.typedWords] at hcode
        | some w =>
          obtain ⟨rfl, -, -⟩ := typedWords_append_inj h (hs v List.mem_cons_self)
            (ht w List.mem_cons_self) (congrArg (· ++ []) (List.cons.inj hcode).2)
          rfl
    | _ => cases v? <;> simp [code, Operand.typedWords] at hcode
  | unreachable =>
    cases t with
    | unreachable => rfl
    | ret w? => cases w? <;> simp [code, Operand.typedWords] at hcode
    | _ => simp [code, Operand.typedWords] at hcode

end Quill.Ir
