import Mathlib
import Quill.Ir.Printer
import Quill.Proofs.Ir.Paths
import Quill.Proofs.Text.Decimals

/-! # How modules are spelled

Types, operands, blocks and constant texts are written so that they can be read back: names begin
with no digit and hold no point, numbers stand alone or behind the last point, and bytes that are
not shown are in hexadecimal.
-/
namespace Quill.Ir

/-! ### Constant texts -/

def hexDigit (c : Char) : Nat := if c.isDigit then c.toNat - 48 else c.toNat - 55

/-- The bytes of which a text is the escaped text. -/
def unescape : List Char → List UInt8
  | [] => []
  | c :: rest =>
    if c = '\\' then
      UInt8.ofNat (16 * hexDigit (rest.headD '0') + hexDigit (rest.tail.headD '0')) ::
        unescape (rest.drop 2)
    else UInt8.ofNat c.toNat :: unescape rest
termination_by cs => cs.length
decreasing_by
  · simp only [List.length_drop, List.length_cons]
    omega
  · simp

theorem hexDigit_upperHex : ∀ n < 16, hexDigit (upperHex n) = n := by decide

theorem upperHex_ne_newline : ∀ n < 16, upperHex n ≠ '\n' := by decide

theorem visible_ofNat : ∀ b : UInt8, (32 ≤ b ∧ b ≤ 126 ∧ b ≠ 34 ∧ b ≠ 92) →
    Char.ofNat b.toNat ≠ '\\' ∧ Char.ofNat b.toNat ≠ '\n' ∧
      UInt8.ofNat (Char.ofNat b.toNat).toNat = b := by
  decide +kernel

theorem unescape_escapeByte (b : UInt8) (rest : List Char) :
    unescape (escapeByte b ++ rest) = b :: unescape rest := by
  unfold escapeByte
  split
  · rename_i hvisible
    obtain ⟨hslash, -, hvalue⟩ := visible_ofNat b hvisible
    rw [List.singleton_append, unescape, if_neg hslash, hvalue]
  · have hlt := b.toNat_lt
    have hhigh := hexDigit_upperHex (b.toNat / 16) (by omega)
    have hlow := hexDigit_upperHex (b.toNat % 16) (Nat.mod_lt _ (by decide))
    rw [List.cons_append, unescape, if_pos rfl]
    simp only [List.cons_append, List.nil_append, List.headD_cons, List.tail_cons, hhigh, hlow,
      Nat.div_add_mod, UInt8.ofNat_toNat, List.drop_succ_cons, List.drop_zero]

theorem unescape_flatMap (bs : List UInt8) : unescape (bs.flatMap escapeByte) = bs := by
  induction bs with
  | nil => rw [List.flatMap_nil, unescape]
  | cons b bs ih => rw [List.flatMap_cons, unescape_escapeByte, ih]

theorem unescape_escapeText (s : String) : unescape (escapeText s).toList = Utf8.encode s := by
  rw [escapeText, String.toList_ofList, unescape_flatMap]

theorem escapeText_inj {s t : String} (h : escapeText s = escapeText t) : s = t := by
  have hbytes : Utf8.encode s = Utf8.encode t := by
    rw [← unescape_escapeText, ← unescape_escapeText, h]
  rw [← Utf8.decodeLossy_encode s, ← Utf8.decodeLossy_encode t, hbytes]

theorem noLine_escapeText (s : String) : '\n' ∉ (escapeText s).toList := by
  rw [escapeText, String.toList_ofList, List.mem_flatMap]
  rintro ⟨b, -, hb⟩
  unfold escapeByte at hb
  split at hb
  · rename_i hvisible
    exact (visible_ofNat b hvisible).2.1 (List.mem_singleton.1 hb).symm
  · have hlt := b.toNat_lt
    have hhigh := upperHex_ne_newline (b.toNat / 16) (by omega)
    have hlow := upperHex_ne_newline (b.toNat % 16) (Nat.mod_lt _ (by decide))
    simp [hhigh.symm, hlow.symm] at hb

/-! ### Types -/

theorem Ty.text_inj {t t' : Ty} (h : t.text.toList = t'.text.toList) : t = t' := by
  revert h
  obtain ⟨p, b⟩ := t
  obtain ⟨p', b'⟩ := t'
  cases p <;> cases p' <;> cases b <;> cases b' <;> decide

theorem Ty.isSolid_text (t : Ty) : IsSolid t.text.toList := by
  obtain ⟨p, b⟩ := t
  cases p <;> cases b <;> decide

/-! ### Names with numbers -/

def numbered (x : String) (k : Nat) : List Char := x.toList ++ '.' :: Nat.toDigits 10 k

theorem point_not_digit (k : Nat) : '.' ∉ Nat.toDigits 10 k := fun h =>
  absurd (isDigit_toDigits h) (by decide)

theorem numbered_inj {x y : String} {k l : Nat} (h : numbered x k = numbered y l) :
    x = y ∧ k = l := by
  have hreverse := congrArg List.reverse h
  simp only [numbered, List.reverse_append, List.reverse_cons, List.append_assoc,
    List.singleton_append] at hreverse
  -- The number stands behind the last point, also if there are points in the name.
  have hpoint (k : Nat) : '.' ∉ (Nat.toDigits 10 k).reverse := fun hmem =>
    point_not_digit k (List.mem_reverse.1 hmem)
  obtain ⟨hdigits, hname⟩ := append_cons_inj (hpoint k) (hpoint l) hreverse
  exact ⟨String.toList_inj.1 (List.reverse_injective hname),
    toDigits_inj (List.reverse_injective hdigits)⟩

theorem point_mem_numbered (x : String) (k : Nat) : '.' ∈ numbered x k := by
  simp [numbered]

theorem isSolid_numbered {x : String} (hx : IsSolid x.toList) (k : Nat) :
    IsSolid (numbered x k) := by
  simp [numbered, hx, isSolid_toDigits, isBreak]

theorem point_not_name {x : String} (hx : isName x) : '.' ∉ x.toList := fun h =>
  absurd (isNameChar_of_mem hx h) (by decide)

theorem digits_ne_name {x : String} (hx : isName x) (k : Nat) : Nat.toDigits 10 k ≠ x.toList := by
  intro h
  obtain ⟨c, cs, hcs, hdigit, -⟩ := exists_cons_of_isName hx
  have hmem : c ∈ Nat.toDigits 10 k := by simp [h, hcs]
  simp [isDigit_toDigits hmem] at hdigit

namespace Function

variable (f : Function)

def slotName (id : SlotId) : String := ((f.slots[id.index]?).map Slot.name).getD ""

def label (id : BlockId) : String := ((f.blocks[id.index]?).map Block.label).getD ""

theorem toList_slotText (id : SlotId) :
    (f.slotText id).toList = '%' :: numbered (f.slotName id) id.index := by
  simp [slotText, slotName, numbered]

theorem toList_blockText (id : BlockId) :
    (f.blockText id).toList = numbered (f.label id) id.index := by
  simp [blockText, label, numbered]

theorem blockText_inj {f g : Function} {id id' : BlockId} (h : f.blockText id = g.blockText id') :
    id = id' := by
  have hlist := String.toList_inj.2 h
  rw [toList_blockText, toList_blockText] at hlist
  exact congrArg BlockId.mk (numbered_inj hlist).2

end Function

/-! ### Operands -/

/-- The names in a function tell its parameters and its slots apart from each other and from
results. -/
structure Function.IsTold (f : Function) : Prop where
  params : (f.params.map Param.name).Nodup
  paramNames : ∀ p ∈ f.params, isName p.name
  slots : ∀ s ∈ f.slots, isName s.name

/-- Each constant text is named by a name and its number. -/
def Module.TellsTexts (m : Module) : Prop := ∀ (k : Nat) (t : Global), m.globals[k]? = some t →
  ∃ base, isName base ∧ t.name = s!"{base}.{k}"

def Operand.doubles : Operand → List Float
  | float _ x => [x]
  | _ => []

def Block.operands (b : Block) : List Operand :=
  b.insts.toList.flatMap (·.action.operands) ++ b.terminator.toList.flatMap Terminator.operands

def Module.doubles (m : Module) : List Float :=
  m.functions.toList.flatMap fun f => f.blocks.toList.flatMap fun b =>
    b.operands.flatMap Operand.doubles

/-- Doubles of the two modules are the same if they are written alike. -/
def Module.TellDoubles (m n : Module) : Prop := ∀ x ∈ m.doubles, ∀ y ∈ n.doubles,
  Decimal.Layout.telling.text x = Decimal.Layout.telling.text y → x = y

namespace Operand

/-- What an operand names is in the tables. -/
def IsFound (m : Module) (f : Function) : Operand → Prop
  | inst id => id.index < f.values.size
  | param n => n < f.params.length
  | global id => id.index < m.globals.size
  | slotAddr id => id.index < f.slots.size
  | float _ x => x ∈ m.doubles
  | int .. => True
  | void => False

/-- What stands behind the percent sign, for parameters, slots and results. -/
def local? (f : Function) : Operand → Option (List Char)
  | inst id => some (Nat.toDigits 10 id.index)
  | param n => some (((f.params[n]?).map Param.name).getD "").toList
  | slotAddr id => some (numbered (f.slotName id) id.index)
  | int .. | float .. | global _ | void => none

variable {m n : Module} {f g : Function} {v w : Operand} {cs : List Char}

theorem print_of_local (h : v.local? f = some cs) : (v.print m f).toList = '%' :: cs := by
  cases v with
  | inst | param =>
    obtain rfl := Option.some.inj h
    simp [print]
  | slotAddr id =>
    obtain rfl := Option.some.inj h
    exact f.toList_slotText id
  | _ => cases h

theorem isName_slotName {id : SlotId} (hf : f.IsTold) (h : id.index < f.slots.size) :
    isName (f.slotName id) := by
  simpa [Function.slotName, h] using hf.slots _ (Array.getElem_mem h)

theorem exists_param (hf : f.IsTold) {k : Nat} (h : k < f.params.length) :
    ∃ x, (f.params.map Param.name)[k]? = some x ∧ isName x ∧
      (param k).local? f = some x.toList := by
  refine ⟨f.params[k].name, by simp [h], hf.paramNames _ (List.getElem_mem h), ?_⟩
  simp [local?, h]

/-- No two of the parameters, slots and results of a function are written alike. -/
theorem local_inj (hf : f.IsTold) (hg : g.IsTold)
    (hparams : f.params.map Param.name = g.params.map Param.name) (hv : v.IsFound m f)
    (hw : w.IsFound n g) (h : v.local? f = some cs) (h' : w.local? g = some cs) : v = w := by
  have hresult {k : Nat} (h : Nat.toDigits 10 k = cs) : '.' ∉ cs := h ▸ point_not_digit k
  have hslot {x : String} {k : Nat} (h : numbered x k = cs) : '.' ∈ cs := h ▸ point_mem_numbered x k
  cases v with
  | inst id =>
    have hid := Option.some.inj h
    cases w with
    | inst id' =>
      have hdigits := hid.trans (Option.some.inj h').symm
      exact congrArg (inst ∘ ValueId.mk) (toDigits_inj hdigits)
    | param k =>
      obtain ⟨x, -, hx, hlocal⟩ := exists_param hg hw
      exact absurd (hid.trans (Option.some.inj (h'.symm.trans hlocal))) (digits_ne_name hx _)
    | slotAddr s => exact absurd (hslot (Option.some.inj h')) (hresult hid)
    | _ => cases h'
  | param k =>
    obtain ⟨x, hget, hx, hlocal⟩ := exists_param hf hv
    have hcs : x.toList = cs := Option.some.inj (hlocal.symm.trans h)
    cases w with
    | inst id => exact absurd ((Option.some.inj h').trans hcs.symm) (digits_ne_name hx _)
    | param l =>
      obtain ⟨y, hget', -, hlocal'⟩ := exists_param hg hw
      have hcs' : y.toList = cs := Option.some.inj (hlocal'.symm.trans h')
      rw [← hparams, ← String.toList_inj.1 (hcs.trans hcs'.symm), ← hget] at hget'
      have hlt : l < (f.params.map Param.name).length := by
        rw [hparams, List.length_map]
        exact hw
      exact congrArg param ((List.getElem?_inj hlt hf.params).1 hget').symm
    | slotAddr s => exact absurd (hcs ▸ hslot (Option.some.inj h')) (point_not_name hx)
    | _ => cases h'
  | slotAddr s =>
    have hs := Option.some.inj h
    cases w with
    | inst id => exact absurd (hslot hs) (hresult (Option.some.inj h'))
    | param k =>
      obtain ⟨x, -, hx, hlocal⟩ := exists_param hg hw
      have hcs : x.toList = cs := Option.some.inj (hlocal.symm.trans h')
      exact absurd (hcs ▸ hslot hs) (point_not_name hx)
    | slotAddr s' =>
      exact congrArg (slotAddr ∘ SlotId.mk) (numbered_inj (hs.trans (Option.some.inj h').symm)).2
    | _ => cases h'
  | _ => cases h

theorem print_global (hm : m.TellsTexts) {id : GlobalId} (h : id.index < m.globals.size) :
    ∃ base, isName base ∧ ((global id).print m f).toList = '@' :: numbered base id.index := by
  obtain ⟨base, hbase, hname⟩ := hm id.index _ (Array.getElem?_eq_getElem h)
  exact ⟨base, hbase, by simp [print, h, hname, numbered]⟩

/-- Numbers are written as numbers are, and each is told from the others. -/
def IsConstant : Operand → Prop
  | int .. | float .. => True
  | _ => False

theorem isWritten_print (h : v.IsConstant) : Decimal.IsWritten (v.print m f).toList := by
  cases v with
  | int ty k => exact .intRepr _
  | float ty x => exact Decimal.isWritten_text _ _
  | _ => cases h

theorem constant_inj (hdoubles : m.TellDoubles n) (hv : v.IsFound m f) (hw : w.IsFound n g)
    (hv' : v.IsConstant) (hw' : w.IsConstant) (htype : f.typeOf v = g.typeOf w)
    (h : v.print m f = w.print n g) : v = w := by
  cases v with
  | int ty k =>
    cases w with
    | int ty' k' =>
      have hvalue : k.toInt.repr = k'.toInt.repr := h
      rw [Except.ok.inj htype, Int64.toInt_inj.1 (Int.repr_inj.1 hvalue)]
    | float ty' x =>
      have htext : k.toInt.repr = Decimal.Layout.telling.text x := h
      exact absurd (htext ▸ Decimal.tellsFraction_text x) (Decimal.not_tellsFraction_intRepr _)
    | _ => cases hw'
  | float ty x =>
    cases w with
    | int ty' k =>
      have htext : Decimal.Layout.telling.text x = k.toInt.repr := h
      exact absurd (htext ▸ Decimal.tellsFraction_text x) (Decimal.not_tellsFraction_intRepr _)
    | float ty' y => rw [Except.ok.inj htype, hdoubles x hv y hw h]
    | _ => cases hw'
  | _ => cases hv'

/-- The text of an operand tells which one it is, once its type is known if it is a constant. -/
theorem print_inj (hf : f.IsTold) (hg : g.IsTold) (hm : m.TellsTexts) (hn : n.TellsTexts)
    (hparams : f.params.map Param.name = g.params.map Param.name) (hdoubles : m.TellDoubles n)
    (hv : v.IsFound m f) (hw : w.IsFound n g) (htype : f.typeOf v = g.typeOf w)
    (h : v.print m f = w.print n g) : v = w := by
  have htext := String.toList_inj.2 h
  have hcases {m : Module} {f : Function} {v : Operand} (hm : m.TellsTexts) (hv : v.IsFound m f) :
      v.IsConstant ∨ (∃ cs, v.local? f = some cs) ∨ ∃ id base, v = global id ∧
        isName base ∧ (v.print m f).toList = '@' :: numbered base id.index := by
    cases v with
    | int | float => exact .inl trivial
    | inst | param | slotAddr => exact .inr (.inl ⟨_, rfl⟩)
    | global id =>
      obtain ⟨base, hbase, hprint⟩ := print_global (f := f) hm hv
      exact .inr (.inr ⟨id, base, rfl, hbase, hprint⟩)
    | void => cases hv
  have hwritten {cs : List Char} {c : Char} (hcs : Decimal.IsWritten (c :: cs))
      (hc : Decimal.isWritten c = false) : False := by
    simp [hcs c List.mem_cons_self] at hc
  rcases hcases hm hv with hv' | ⟨cs, hlocal⟩ | ⟨id, base, rfl, hbase, hprint⟩
  · rcases hcases hn hw with hw' | ⟨cs', hlocal'⟩ | ⟨id', base', rfl, hbase', hprint'⟩
    · exact constant_inj hdoubles hv hw hv' hw' htype h
    · rw [print_of_local hlocal'] at htext
      exact (hwritten (htext ▸ isWritten_print hv') (by decide)).elim
    · rw [hprint'] at htext
      exact (hwritten (htext ▸ isWritten_print hv') (by decide)).elim
  · rw [print_of_local hlocal] at htext
    rcases hcases hn hw with hw' | ⟨cs', hlocal'⟩ | ⟨id', base', rfl, hbase', hprint'⟩
    · exact (hwritten (htext ▸ isWritten_print hw') (by decide)).elim
    · rw [print_of_local hlocal'] at htext
      obtain rfl := (List.cons.inj htext).2
      exact local_inj hf hg hparams hv hw hlocal hlocal'
    · rw [hprint'] at htext
      cases (List.cons.inj htext).1
  · rw [hprint] at htext
    rcases hcases hn hw with hw' | ⟨cs', hlocal'⟩ | ⟨id', base', rfl, hbase', hprint'⟩
    · exact (hwritten (htext ▸ isWritten_print hw') (by decide)).elim
    · rw [print_of_local hlocal'] at htext
      cases (List.cons.inj htext).1
    · rw [hprint'] at htext
      exact congrArg (global ∘ GlobalId.mk) (numbered_inj (List.cons.inj htext).2).2

theorem isSolid_print (hf : f.IsTold) (hm : m.TellsTexts) (hv : v.IsFound m f) :
    IsSolid (v.print m f).toList := by
  cases v with
  | inst id => simpa [print, isBreak] using isSolid_toDigits id.index
  | param k =>
    obtain ⟨x, -, hx, hlocal⟩ := exists_param hf hv
    rw [print_of_local hlocal]
    exact IsSolid.cons_iff.2 ⟨by decide, isSolid_name hx⟩
  | slotAddr id =>
    rw [print_of_local rfl]
    exact IsSolid.cons_iff.2 ⟨by decide, isSolid_numbered (isSolid_name (isName_slotName hf hv)) _⟩
  | global id =>
    obtain ⟨base, hbase, hprint⟩ := print_global (f := f) hm hv
    rw [hprint]
    exact IsSolid.cons_iff.2 ⟨by decide, isSolid_numbered (isSolid_name hbase) _⟩
  | int ty k => exact (isWritten_print (v := int ty k) trivial).solid
  | float ty x => exact (isWritten_print (v := float ty x) trivial).solid
  | void => cases hv

end Operand

end Quill.Ir
