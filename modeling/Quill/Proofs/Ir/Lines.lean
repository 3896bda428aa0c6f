import Quill.Proofs.Ir.Spelling

/-! # Lines of instructions

The line of an instruction or of a terminator is its words: what is made, what is done, and what
with, where each operand but the one on the right stands behind its type.
-/
namespace Quill.Ir

/-! ### Operations -/

/-- What an action does, apart from what with. -/
inductive Opcode where
  | alloca | load | store | call
  | binary (op : BinaryOp)
  | compare (pred : Predicate)
  | cast (op : CastOp)
deriving DecidableEq

namespace Opcode

def text : Opcode → String
  | alloca => "alloca"
  | load => "load"
  | store => "store"
  | call => "call"
  | binary op => op.text
  | compare pred => pred.text
  | cast op => op.text

def words (o : Opcode) : List (List Char) := Quill.words o.text.toList

def all : List Opcode := [alloca, load, store, call] ++ BinaryOp.all.map binary ++
  Predicate.all.map compare ++ CastOp.all.map cast

theorem mem_all (o : Opcode) : o ∈ all := by
  cases o with
  | binary op => cases op <;> decide
  | compare pred => cases pred <;> decide
  | cast op => cases op <;> decide
  | _ => decide

theorem eq_of_prefix_all :
    ∀ o ∈ all, ∀ p ∈ all, o.words.isPrefixOf p.words = true → o = p := by
  decide +kernel

theorem append_inj {o p : Opcode} {ws vs : List (List Char)} (h : o.words ++ ws = p.words ++ vs) :
    o = p ∧ ws = vs := by
  have hsame : o = p := by
    have hprefix : o.words <+: p.words ++ vs := h ▸ List.prefix_append _ _
    rcases List.prefix_or_prefix_of_prefix hprefix (List.prefix_append _ _) with hop | hpo
    · exact eq_of_prefix_all o o.mem_all p p.mem_all (List.isPrefixOf_iff_prefix.2 hop)
    · exact (eq_of_prefix_all p p.mem_all o o.mem_all (List.isPrefixOf_iff_prefix.2 hpo)).symm
  subst hsame
  exact ⟨rfl, List.append_cancel_left h⟩

theorem words_all : ∀ o ∈ all, (∀ w ∈ o.words, IsSolid w) ∧
    o.words.head?.any (fun w => w.head? != some '%') := by
  decide +kernel

theorem exists_words (o : Opcode) : ∃ w ws, o.words = w :: ws ∧ ∀ cs, w ≠ '%' :: cs := by
  have hhead := (words_all o o.mem_all).2
  cases hwords : o.words with
  | nil => simp [hwords] at hhead
  | cons w ws =>
    refine ⟨w, ws, rfl, ?_⟩
    rintro cs rfl
    simp [hwords] at hhead

end Opcode

def Action.opcode : Action → Opcode
  | alloca _ => .alloca
  | load _ => .load
  | store .. => .store
  | binary op .. => .binary op
  | compare pred .. => .compare pred
  | cast op .. => .cast op
  | call .. => .call

/-! ### Words -/

/-- Lists of words with an empty word between two of them, as a comma and a blank leave it. -/
def listed : List (List (List Char)) → List (List Char)
  | [] => [[]]
  | ws :: rest => ws ++ if rest.isEmpty then [] else [] :: listed rest

theorem words_commaSeparated (parts : List String) :
    words (commaSeparated parts).toList = listed (parts.map fun s => words s.toList) := by
  induction parts with
  | nil => rfl
  | cons s parts ih =>
    cases parts with
    | nil => simp [commaSeparated, listed]
    | cons s' parts =>
      have hsplit : (commaSeparated (s :: s' :: parts)).toList =
          s.toList ++ ',' :: ' ' :: (commaSeparated (s' :: parts)).toList := by
        simp [commaSeparated, List.intercalate]
      rw [hsplit, words_break _ _ rfl, words_cons, ih]
      simp [listed, isBreak]

/-- The type of an operand, as far as it has one. -/
def Function.ty (f : Function) (v : Operand) : Ty := (f.typeOf v).toOption.getD .void

theorem Function.ty_eq {f : Function} {v : Operand} {t : Ty} (h : f.typeOf v = .ok t) :
    f.ty v = t := by
  simp [ty, h, Except.toOption]

def Operand.typedWords (m : Module) (f : Function) (v : Operand) : List (List Char) :=
  [(f.ty v).text.toList, (v.print m f).toList]

theorem Operand.toList_printTyped (m : Module) (f : Function) (v : Operand) :
    (v.printTyped m f).toList = (f.ty v).text.toList ++ ' ' :: (v.print m f).toList := by
  unfold Operand.printTyped Function.ty
  cases f.typeOf v <;> simp [Except.toOption]

/-- What stands behind the operation. -/
def Action.details (m : Module) (f : Function) : Action → List (List Char)
  | alloca s => [(f.slotTy s).text.toList]
  | load s =>
    [(f.slotTy s).text.toList, [], (f.slotTy s).text.toList ++ ['*'], (f.slotText s).toList]
  | store s v =>
    v.typedWords m f ++ [[], (f.slotTy s).text.toList ++ ['*'], (f.slotText s).toList]
  | binary _ l r | compare _ l r => l.typedWords m f ++ [[], (r.print m f).toList]
  | cast _ v target => v.typedWords m f ++ [['t', 'o'], target.text.toList]
  | call callee args =>
    let g := (m.functions[callee.index]?).getD default
    [g.ret.text.toList, '@' :: g.name.toList] ++ listed (args.map (Operand.typedWords m f)) ++ [[]]

/-- The slot that is made, in front of the equals sign. -/
def Action.target (f : Function) : Action → List (List Char)
  | alloca s => [(f.slotText s).toList, ['=']]
  | _ => []

namespace Inst

def target (f : Function) (i : Inst) : List (List Char) :=
  match i.result with
  | some id => ['%' :: Nat.toDigits 10 id.index, ['=']]
  | none => i.action.target f

def line (m : Module) (f : Function) (i : Inst) : List Char :=
  let result := match i.result with
    | some id => s!"%{id.index} = "
    | none => ""
  ' ' :: ' ' :: (result ++ i.action.print m f).toList

theorem toList_print (m : Module) (f : Function) (i : Inst) :
    (i.print m f).toList = i.line m f ++ ['\n'] := by
  cases hresult : i.result <;> simp [print, line, hresult]

end Inst

/-! ### Code that can be read back -/

/-- Constant texts and functions can be told apart by their names. -/
structure Module.IsClear (m : Module) : Prop where
  texts : m.TellsTexts
  names : ∀ g ∈ m.functions, isName g.name
  distinct : (m.functions.toList.map Function.name).Nodup

/-- The names in and around the code of a function can be told apart, and labels are single
words. -/
structure Function.IsClear (m : Module) (f : Function) : Prop extends m.IsClear where
  told : f.IsTold
  labels : ∀ b ∈ f.blocks, IsSolid b.label.toList

/-- Slots, operands and callees of an action are in the tables, and operands without a type of
their own have that of the other. -/
def Action.IsClear (m : Module) (f : Function) : Action → Prop
  | alloca s | load s => s.index < f.slots.size
  | store s v => s.index < f.slots.size ∧ v.IsFound m f
  | binary _ l r | compare _ l r =>
    l.IsFound m f ∧ r.IsFound m f ∧ f.typeOf r = f.typeOf l
  | cast _ v _ => v.IsFound m f
  | call callee args => callee.index < m.functions.size ∧ ∀ v ∈ args, v.IsFound m f

section
variable {m : Module} {f : Function} {v : Operand}

theorem isSolid_slotText (hf : f.IsTold) {s : SlotId} (hs : s.index < f.slots.size) :
    IsSolid (f.slotText s).toList := by
  rw [Function.toList_slotText]
  exact IsSolid.cons_iff.2
    ⟨by decide, isSolid_numbered (isSolid_name (Operand.isName_slotName hf hs)) _⟩

theorem words_printTyped (h : f.IsClear m) (hv : v.IsFound m f) :
    words (v.printTyped m f).toList = v.typedWords m f := by
  rw [Operand.toList_printTyped, words_break _ _ rfl, (Ty.isSolid_text _).words,
    (Operand.isSolid_print h.told h.texts hv).words]
  rfl

theorem isSolid_typedWords (h : f.IsClear m) (hv : v.IsFound m f) :
    ∀ w ∈ v.typedWords m f, IsSolid w :=
  List.forall_mem_cons.2 ⟨Ty.isSolid_text _,
    List.forall_mem_singleton.2 (Operand.isSolid_print h.told h.texts hv)⟩

theorem isSolid_listed {xs : List (List (List Char))} (h : ∀ x ∈ xs, ∀ w ∈ x, IsSolid w) :
    ∀ w ∈ listed xs, IsSolid w := by
  induction xs with
  | nil => exact List.forall_mem_singleton.2 .nil
  | cons x xs ih =>
    obtain ⟨hx, hxs⟩ := List.forall_mem_cons.1 h
    refine List.forall_mem_append.2 ⟨hx, ?_⟩
    split
    · exact List.forall_mem_nil _
    · exact List.forall_mem_cons.2 ⟨.nil, ih hxs⟩

theorem isName_callee (h : f.IsClear m) {callee : FuncId} (hc : callee.index < m.functions.size) :
    isName ((m.functions[callee.index]?).getD default).name := by
  rw [Array.getElem?_eq_getElem hc]
  exact h.names _ (Array.getElem_mem hc)

theorem words_arguments (h : f.IsClear m) {args : List Operand}
    (hargs : ∀ v ∈ args, v.IsFound m f) :
    words (commaSeparated (args.map (·.printTyped m f))).toList =
      listed (args.map (Operand.typedWords m f)) := by
  rw [words_commaSeparated, List.map_map]
  exact congrArg listed (List.map_congr_left fun v hv => words_printTyped h (hargs v hv))

section
attribute [local simp] Action.print Action.target Action.opcode Opcode.words Opcode.text
  Action.details words_cons isBreak words_space words_comma words_close

theorem words_action (h : f.IsClear m) {a : Action} (ha : a.IsClear m f) :
    words (a.print m f).toList = a.target f ++ a.opcode.words ++ a.details m f := by
  have htype (t : Ty) := t.isSolid_text.words
  have htypes (t : Ty) := words_append t.isSolid_text
  cases a with
  | alloca s =>
    have hs := words_append (isSolid_slotText h.told ha)
    simp [hs, htype]
  | load s =>
    have hs := (isSolid_slotText h.told ha).words
    simp [hs, htypes]
  | store s v =>
    have hs := (isSolid_slotText h.told ha.1).words
    have hv := words_printTyped h ha.2
    simp [hs, htypes, hv]
  | binary op l r =>
    have hl := words_printTyped h ha.1
    have hr := (Operand.isSolid_print h.told h.texts ha.2.1).words
    simp [hl, hr]
  | compare pred l r =>
    have hl := words_printTyped h ha.1
    have hr := (Operand.isSolid_print h.told h.texts ha.2.1).words
    simp [hl, hr]
  | cast op v target =>
    have hv := words_printTyped h ha
    simp [htype, hv]
  | call callee args =>
    have hname := words_append (isSolid_name (isName_callee h ha.1))
    have hargs := words_arguments h ha.2
    simp [htype, hname, hargs]

end

/-- The words of a line: two blanks, the target, the operation, and what it is done with. -/
theorem Inst.words_line (h : f.IsClear m) {i : Inst} (hi : i.action.IsClear m f)
    (hresult : i.result ≠ none → i.action.target f = []) :
    words (i.line m f) =
      [] :: [] :: (i.target f ++ i.action.opcode.words ++ i.action.details m f) := by
  have hwords := words_action h hi
  cases hr : i.result with
  | none => simp [line, target, hr, words_cons, isBreak, hwords]
  | some id =>
    have hid := words_append (isSolid_toDigits id.index)
    rw [hresult (by simp [hr]), List.nil_append] at hwords
    simp [line, target, hr, words_cons, isBreak, hwords, hid]

theorem isSolid_action (h : f.IsClear m) {a : Action} (ha : a.IsClear m f) :
    ∀ w ∈ a.target f ++ a.opcode.words ++ a.details m f, IsSolid w := by
  have htype (t : Ty) := t.isSolid_text
  refine List.forall_mem_append.2 ⟨List.forall_mem_append.2 ⟨?_, ?_⟩, ?_⟩
  · cases a with
    | alloca s => simpa [Action.target, isBreak] using isSolid_slotText h.told ha
    | _ => exact List.forall_mem_nil _
  · exact (Opcode.words_all _ (Opcode.mem_all _)).1
  · cases a with
    | alloca s => simp [Action.details, htype]
    | load s => simp [Action.details, htype, isSolid_slotText h.told ha, isBreak]
    | store s v =>
      refine List.forall_mem_append.2 ⟨isSolid_typedWords h ha.2, ?_⟩
      simp [htype, isSolid_slotText h.told ha.1, isBreak]
    | binary op l r | compare pred l r =>
      refine List.forall_mem_append.2 ⟨isSolid_typedWords h ha.1, ?_⟩
      simp [Operand.isSolid_print h.told h.texts ha.2.1]
    | cast op v target =>
      refine List.forall_mem_append.2 ⟨isSolid_typedWords h ha, ?_⟩
      simp [htype, isBreak]
    | call callee args =>
      have hargs : ∀ w ∈ listed (args.map (Operand.typedWords m f)), IsSolid w := by
        refine isSolid_listed fun x hx => ?_
        obtain ⟨v, hv, rfl⟩ := List.mem_map.1 hx
        exact isSolid_typedWords h (ha.2 v hv)
      have hname := isSolid_name (isName_callee h ha.1)
      refine List.forall_mem_append.2 ⟨List.forall_mem_append.2 ⟨?_, hargs⟩, by simp⟩
      simp [htype, hname, isBreak]

theorem noLine_of_words {cs : List Char} (h : ∀ w ∈ words cs, IsSolid w) : '\n' ∉ cs := by
  intro hc
  obtain ⟨w, hw, hcw⟩ := exists_word rfl hc
  exact (h w hw).noLine hcw

theorem Inst.noLine_line (h : f.IsClear m) {i : Inst} (hi : i.action.IsClear m f)
    (hresult : i.result ≠ none → i.action.target f = []) : '\n' ∉ i.line m f := by
  refine noLine_of_words ?_
  have haction := isSolid_action h hi
  rw [i.words_line h hi hresult, List.append_assoc]
  simp only [List.append_assoc, List.forall_mem_append] at haction
  refine List.forall_mem_cons.2 ⟨.nil, List.forall_mem_cons.2 ⟨.nil, ?_⟩⟩
  refine List.forall_mem_append.2 ⟨?_, List.forall_mem_append.2 haction.2⟩
  cases hr : i.result with
  | none => simpa [target, hr] using haction.1
  | some id => simp [target, hr, isBreak, isSolid_toDigits]

/-! ### Terminators -/

namespace Terminator

def code (m : Module) (f : Function) : Terminator → List (List Char)
  | br d => ["br".toList, "label".toList, '%' :: (f.blockText d).toList]
  | condBr c t e => "br".toList :: (c.typedWords m f ++
      [[], "label".toList, '%' :: (f.blockText t).toList,
       [], "label".toList, '%' :: (f.blockText e).toList])
  | ret (some v) => "ret".toList :: v.typedWords m f
  | ret none => ["ret".toList, "void".toList]
  | unreachable => ["unreachable".toList]

def line (m : Module) (f : Function) (t : Terminator) : List Char :=
  ' ' :: ' ' :: (t.print m f).toList

end Terminator

theorem isSolid_blockText (h : f.IsClear m) (id : BlockId) : IsSolid (f.blockText id).toList := by
  rw [Function.toList_blockText]
  refine isSolid_numbered ?_ _
  unfold Function.label
  cases hb : f.blocks[id.index]? with
  | none => exact .nil
  | some b => exact h.labels b (Array.mem_of_getElem? hb)

theorem Terminator.words_line (h : f.IsClear m) {t : Terminator}
    (ht : ∀ v ∈ t.operands, v.IsFound m f) : words (t.line m f) = [] :: [] :: t.code m f := by
  have hblock (id : BlockId) := (isSolid_blockText h id).words
  have hblocks (id : BlockId) := words_append (isSolid_blockText h id)
  cases t with
  | br d => simp [line, print, code, words_cons, isBreak, hblock]
  | condBr c t e =>
    have hc := words_printTyped h (ht c List.mem_cons_self)
    simp [line, print, code, words_cons, isBreak, hblock, words_comma, hc]
  | ret v? =>
    cases v? with
    | none => simp [line, print, code, words_cons, isBreak]
    | some v =>
      have hv := words_printTyped h (ht v List.mem_cons_self)
      simp [line, print, code, words_cons, isBreak, hv]
  | unreachable => simp [line, print, code, words_cons, isBreak]

theorem Terminator.noLine_line (h : f.IsClear m) {t : Terminator}
    (ht : ∀ v ∈ t.operands, v.IsFound m f) : '\n' ∉ t.line m f := by
  refine noLine_of_words ?_
  have hblock (id : BlockId) := isSolid_blockText h id
  rw [t.words_line h ht]
  cases t with
  | br d => simp [code, isBreak, hblock]
  | condBr c t e =>
    have hc := isSolid_typedWords h (ht c List.mem_cons_self)
    refine List.forall_mem_cons.2 ⟨.nil, List.forall_mem_cons.2 ⟨.nil, ?_⟩⟩
    refine List.forall_mem_cons.2 ⟨by decide, List.forall_mem_append.2 ⟨hc, ?_⟩⟩
    simp [isBreak, hblock]
  | ret v? =>
    cases v? with
    | none => simp [code, isBreak]
    | some v =>
      have hv := isSolid_typedWords h (ht v List.mem_cons_self)
      refine List.forall_mem_cons.2 ⟨.nil, List.forall_mem_cons.2 ⟨.nil, ?_⟩⟩
      exact List.forall_mem_cons.2 ⟨by decide, hv⟩
  | unreachable => simp [code, isBreak]

end

end Quill.Ir
