import Quill.Proofs.Ir.Consistency
import Quill.Proofs.Ir.Reading

/-! # Modules that can be read back

The text of a module is its lines, in sections: the constant texts in front, then a section for each
function, which begins with an empty line, and in it one for each block, which begins with the only
lines that are not indented. What is read back of a module is all of it, but for the names of the
parameters of functions without a body: the slots are in the instructions that make room for them,
and what is recorded about results is what their instructions dictate.
-/
namespace Quill.Ir

/-! ### Headers -/

namespace Function

variable {m n : Module} {f g : Function}

/-- What stands behind the parameters of a function without a body. -/
def closing (f : Function) : List (List Char) :=
  let last := if f.isNoReturn then ["noreturn".toList] else []
  if f.isVariadic then "...".toList :: [] :: last else last

def header (f : Function) : List Char :=
  if f.isDeclaration then
    let params := commaSeparated (f.params.map (·.ty.text))
    let variadic := if f.isVariadic then ", ..." else ""
    let noReturn := if f.isNoReturn then " noreturn" else ""
    s!"declare {f.ret.text} @{f.name}({params}{variadic}){noReturn}".toList
  else
    let params := commaSeparated (f.params.map fun p => s!"{p.ty.text} %{p.name}")
    s!"define {f.ret.text} @{f.name}({params}) \x7b".toList

/-- Both kinds of headers begin with a word, the result and the name. -/
theorem words_front {w : List Char} (hw : IsSolid w) (hname : isName f.name) (cs : List Char) :
    words (w ++ ' ' :: (f.ret.text.toList ++ ' ' :: '@' :: (f.name.toList ++ '(' :: cs))) =
      [w, f.ret.text.toList, '@' :: f.name.toList] ++ words cs := by
  rw [words_space, words_space, hw.words, f.ret.isSolid_text.words]
  simp [words_cons, isBreak, words_append (isSolid_name hname)]

theorem words_declaration (hname : isName f.name) (h : f.isDeclaration) :
    words f.header = ["declare".toList, f.ret.text.toList, '@' :: f.name.toList] ++
      listed (f.params.map fun p => [p.ty.text.toList]) ++ [] :: f.closing := by
  have htypes : words (commaSeparated (f.params.map (·.ty.text))).toList =
      listed (f.params.map fun p => [p.ty.text.toList]) := by
    rw [words_commaSeparated, List.map_map]
    exact congrArg listed (List.map_congr_left fun p _ => p.ty.isSolid_text.words)
  have hheader : f.header = "declare".toList ++ ' ' :: (f.ret.text.toList ++ ' ' :: '@' ::
      (f.name.toList ++ '(' :: ((commaSeparated (f.params.map (·.ty.text))).toList ++
        ((if f.isVariadic then ", ..." else "").toList ++ ')' ::
          (if f.isNoReturn then " noreturn" else "").toList)))) := by
    simp [header, h]
  rw [hheader, words_front (by decide) hname]
  cases hvariadic : f.isVariadic <;> cases hnoReturn : f.isNoReturn <;>
    simp [closing, hvariadic, hnoReturn, words_cons, isBreak, words_comma, words_close, htypes]

theorem words_definition (hname : isName f.name) (hf : f.IsTold) (h : f.isDeclaration = false) :
    words f.header = ["define".toList, f.ret.text.toList, '@' :: f.name.toList] ++
      listed (f.params.map fun p => [p.ty.text.toList, '%' :: p.name.toList]) ++
        [[], ['\x7b']] := by
  have hparams :
      words (commaSeparated (f.params.map fun p => p.ty.text ++ " %" ++ p.name)).toList =
      listed (f.params.map fun p => [p.ty.text.toList, '%' :: p.name.toList]) := by
    rw [words_commaSeparated, List.map_map]
    refine congrArg listed (List.map_congr_left fun p hp => ?_)
    have hp := (isSolid_name (hf.paramNames p hp)).words
    simp [words_space, p.ty.isSolid_text.words, hp, words_cons, isBreak]
  have hheader : f.header = "define".toList ++ ' ' :: (f.ret.text.toList ++ ' ' :: '@' ::
      (f.name.toList ++ '(' ::
        ((commaSeparated (f.params.map fun p => p.ty.text ++ " %" ++ p.name)).toList ++
          ')' :: " \x7b".toList))) := by
    simp [header, h]
  rw [hheader, words_front (by decide) hname, words_close, hparams]
  simp [words_cons, isBreak]

theorem noLine_header (hname : isName f.name) (hf : f.isDeclaration = false → f.IsTold) :
    '\n' ∉ f.header := by
  refine noLine_of_words ?_
  have htype (t : Ty) := t.isSolid_text
  have hname' := isSolid_name hname
  cases h : f.isDeclaration with
  | true =>
    have hlist : ∀ w ∈ listed (f.params.map fun p => [p.ty.text.toList]), IsSolid w := by
      refine isSolid_listed fun x hx => ?_
      obtain ⟨p, -, rfl⟩ := List.mem_map.1 hx
      exact List.forall_mem_singleton.2 (htype _)
    rw [words_declaration hname h]
    refine List.forall_mem_append.2 ⟨List.forall_mem_append.2 ⟨?_, hlist⟩, ?_⟩
    · simp [htype, hname', isBreak]
    · unfold closing
      split <;> split <;> simp [isBreak]
  | false =>
    have hlist : ∀ w ∈ listed (f.params.map fun p => [p.ty.text.toList, '%' :: p.name.toList]),
        IsSolid w := by
      refine isSolid_listed fun x hx => ?_
      obtain ⟨p, hp, rfl⟩ := List.mem_map.1 hx
      simp [htype, isSolid_name ((hf h).paramNames p hp), isBreak]
    rw [words_definition hname (hf h) h]
    refine List.forall_mem_append.2 ⟨List.forall_mem_append.2 ⟨?_, hlist⟩, ?_⟩
    · simp [htype, hname', isBreak]
    · simp [isBreak]

theorem isDeclaration_inj (h : f.header = g.header) : f.isDeclaration = g.isDeclaration := by
  have hthird (f : Function) : f.header[2]? = some (if f.isDeclaration then 'c' else 'f') := by
    unfold header
    split <;> simp
  have hsame := congrArg (·[2]?) h
  simp only [hthird] at hsame
  cases hf : f.isDeclaration <;> cases hg : g.isDeclaration <;> simp_all

theorem closing_inj (h : f.closing = g.closing) :
    f.isVariadic = g.isVariadic ∧ f.isNoReturn = g.isNoReturn := by
  unfold closing at h
  cases hf : f.isVariadic <;> cases hg : g.isVariadic <;> cases hf' : f.isNoReturn <;>
    cases hg' : g.isNoReturn <;> simp_all

theorem head?_closing (f : Function) (t : Ty) : f.closing.head? ≠ some t.text.toList := by
  obtain ⟨p, b⟩ := t
  unfold closing
  cases f.isVariadic <;> cases f.isNoReturn <;> cases p <;> cases b <;> decide

theorem declaration_inj (hf : isName f.name) (hg : isName g.name) (h : f.isDeclaration)
    (h' : g.isDeclaration) (heq : f.header = g.header) :
    f.ret = g.ret ∧ f.name = g.name ∧ f.params.map Param.ty = g.params.map Param.ty ∧
      f.isVariadic = g.isVariadic ∧ f.isNoReturn = g.isNoReturn := by
  have hwords := congrArg words heq
  rw [words_declaration hf h, words_declaration hg h'] at hwords
  simp only [List.cons_append, List.nil_append, List.cons.injEq, true_and] at hwords
  obtain ⟨hret, hname, hrest⟩ := hwords
  have hitems (ps : List Param) : ∀ x ∈ ps.map fun p => [p.ty.text.toList], IsItem 0 x := by
    intro x hx
    obtain ⟨p, -, rfl⟩ := List.mem_map.1 hx
    exact ⟨rfl, _, rfl⟩
  obtain ⟨hparams, hclosing⟩ := listed_append_inj (hitems _) (hitems _) f.head?_closing
    g.head?_closing hrest
  refine ⟨Ty.text_inj hret, String.toList_inj.1 hname, ?_, closing_inj hclosing⟩
  exact map_eq_map_of hparams fun p _ q _ hpq => Ty.text_inj (List.cons.inj hpq).1

theorem definition_inj (hf : isName f.name) (hg : isName g.name) (hft : f.IsTold) (hgt : g.IsTold)
    (h : f.isDeclaration = false) (h' : g.isDeclaration = false) (heq : f.header = g.header) :
    f.ret = g.ret ∧ f.name = g.name ∧ f.params = g.params := by
  have hwords := congrArg words heq
  rw [words_definition hf hft h, words_definition hg hgt h'] at hwords
  simp only [List.cons_append, List.nil_append, List.cons.injEq, true_and] at hwords
  obtain ⟨hret, hname, hrest⟩ := hwords
  have hitems (ps : List Param) :
      ∀ x ∈ ps.map fun p => [p.ty.text.toList, '%' :: p.name.toList], IsItem 1 x := by
    intro x hx
    obtain ⟨p, -, rfl⟩ := List.mem_map.1 hx
    exact ⟨rfl, _, rfl⟩
  have hend (t : Ty) : [['\x7b']].head? ≠ some t.text.toList := by
    obtain ⟨p, b⟩ := t
    cases p <;> cases b <;> decide
  have hparams := (listed_append_inj (hitems _) (hitems _) hend hend hrest).1
  refine ⟨Ty.text_inj hret, String.toList_inj.1 hname, ?_⟩
  have hsame : f.params.map id = g.params.map id := map_eq_map_of hparams fun p _ q _ hpq => by
    simp only [List.cons.injEq, true_and, and_true] at hpq
    obtain ⟨x, t⟩ := p
    obtain ⟨y, u⟩ := q
    obtain rfl : t = u := Ty.text_inj hpq.1
    obtain rfl : x = y := String.toList_inj.1 hpq.2
    rfl
  simpa using hsame

end Function

/-! ### Blocks -/

/-- Behind the title of a block that is reached by no edge. -/
def Block.mark (b : Block) : List Char := if b.isUnreachable then "  ; unreachable".toList else []

def Block.code (m : Module) (f : Function) (b : Block) : List (List Char) :=
  b.insts.toList.map (Inst.line m f) ++ b.terminator.toList.map (Terminator.line m f)

namespace Function

variable {m n : Module} {f g : Function}

def blockSection (m : Module) (f : Function) (id : BlockId) : List Char × List (List Char) :=
  let b := (f.blocks[id.index]?).getD default
  ((f.blockText id).toList ++ ':' :: b.mark, b.code m f)

theorem toList_printBlock (m : Module) (f : Function) (id : BlockId) :
    (f.printBlock m id).toList =
      ofLines ((f.blockSection m id).1 :: (f.blockSection m id).2) := by
  unfold printBlock blockSection
  generalize (f.blocks[id.index]?).getD default = b
  have hinsts (is : List Inst) :
      (is.map (·.print m f)).flatMap String.toList = ofLines (is.map (Inst.line m f)) := by
    rw [ofLines, List.flatMap_map, List.flatMap_map]
    exact List.flatMap_congr fun i _ => i.toList_print m f
  cases hmark : b.isUnreachable <;> cases hlast : b.terminator <;>
    simp [Block.print, Block.mark, Block.code, hmark, hlast, String.toList_join, hinsts,
      Terminator.line]

/-! ### Functions -/

def lines (m : Module) (f : Function) : List (List Char) :=
  if f.isDeclaration then [f.header]
  else f.header :: (sections [] (f.layout.toList.map (f.blockSection m)) ++ [['\x7d']])

theorem toList_print (m : Module) (f : Function) : (f.print m).toList = ofLines (f.lines m) := by
  cases h : f.isDeclaration with
  | true =>
    rw [print, if_pos h, lines, if_pos h]
    -- Not by its equation, which is slow to come by.
    delta printDeclaration
    simp [header, h]
  | false =>
    have hblocks : (f.layout.toList.map (f.printBlock m)).flatMap String.toList =
        ofLines (sections [] (f.layout.toList.map (f.blockSection m))) := by
      rw [sections, List.nil_append, ofLines, List.flatMap_map, List.flatMap_map,
        List.flatMap_assoc]
      exact List.flatMap_congr fun id _ => f.toList_printBlock m id
    rw [print, h, if_neg Bool.false_ne_true]
    delta printDefinition
    simp [lines, header, h, String.toList_join, hblocks]

/-- A function with a body that can be read back: its code is in its layout, each block ends, and
whatever is named can be told from its name. -/
structure IsLegible (m : Module) (f : Function) : Prop where
  clear : f.IsClear m
  consistent : f.IsConsistent m
  layout : ∀ id : BlockId, id ∈ f.layout ↔ id.index < f.blocks.size
  actions : ∀ b ∈ f.blocks, ∀ i ∈ b.insts, i.action.IsClear m f
  ended : ∀ b ∈ f.blocks, ∃ t, b.terminator = some t ∧ ∀ v ∈ t.operands, v.IsFound m f
  isVariadic : f.isVariadic = false
  isNoReturn : f.isNoReturn = false

theorem IsLegible.target (h : f.IsLegible m) {b : Block} (hb : b ∈ f.blocks) {i : Inst}
    (hi : i ∈ b.insts) : i.result ≠ none → i.action.target f = [] := by
  obtain ⟨k, hk⟩ := Array.mem_iff_getElem?.1 hb
  obtain ⟨l, hl⟩ := Array.mem_iff_getElem?.1 hi
  have hrecorded := h.consistent.recorded ⟨⟨k⟩, l⟩ i (by simp [instAt, hk, hl])
  cases hrecorded with
  | silent => simp
  | @value id action ty hty hvalue =>
    intro _
    cases action with
    | alloca s => cases hty
    | _ => rfl

/-- The lines of code of a block: one for each instruction, and one for the terminator. -/
theorem IsLegible.code (h : f.IsLegible m) {b : Block} (hb : b ∈ f.blocks) :
    ∀ l ∈ b.code m f, '\n' ∉ l ∧ l.head? = some ' ' := by
  intro l hl
  rcases List.mem_append.1 hl with hl | hl
  · obtain ⟨i, hi, rfl⟩ := List.mem_map.1 hl
    have hi := Array.mem_toList_iff.1 hi
    exact ⟨i.noLine_line h.clear (h.actions b hb i hi) (h.target hb hi), rfl⟩
  · obtain ⟨t, ht, rfl⟩ := List.mem_map.1 hl
    obtain ⟨t', ht', hfound⟩ := h.ended b hb
    obtain rfl : t' = t := Option.some.inj (ht'.symm.trans (Option.mem_toList.1 ht))
    exact ⟨t'.noLine_line h.clear hfound, rfl⟩

theorem title_inj {s t : List Char} (hs : IsSolid s) (ht : IsSolid t) {b c : Block}
    (h : s ++ ':' :: b.mark = t ++ ':' :: c.mark) :
    s = t ∧ b.isUnreachable = c.isUnreachable := by
  have hwords := congrArg words h
  rw [words_append hs, words_append ht] at hwords
  unfold Block.mark at hwords
  cases hb : b.isUnreachable <;> cases hc : c.isUnreachable <;>
    simp_all [words_cons, isBreak]

/-- The lines of a block tell its instructions and its terminator. -/
theorem code_inj (hf : f.IsLegible m) (hg : g.IsLegible n) (hlike : f.IsLike m n g) {b c : Block}
    (hb : b ∈ f.blocks) (hc : c ∈ g.blocks) (h : b.code m f = c.code n g) :
    b.insts = c.insts ∧ b.terminator = c.terminator ∧ ∀ i ∈ b.insts, i.action.Agrees m f n g := by
  obtain ⟨s, hs, hsfound⟩ := hf.ended b hb
  obtain ⟨t, ht, htfound⟩ := hg.ended c hc
  simp only [Block.code, hs, ht, Option.toList_some, List.map_cons, List.map_nil] at h
  obtain ⟨hinsts, hlast⟩ := List.append_inj' h rfl
  have hline : ∀ i ∈ b.insts, ∀ j ∈ c.insts, i.line m f = j.line n g →
      i = j ∧ i.action.Agrees m f n g := fun i hi j hj hij =>
    i.line_inj hlike (hf.actions b hb i hi) (hg.actions c hc j hj) (hf.target hb hi)
      (hg.target hc hj) hij
  have hsame : b.insts.toList.map id = c.insts.toList.map id :=
    map_eq_map_of hinsts fun i hi j hj hij =>
      (hline i (Array.mem_toList_iff.1 hi) j (Array.mem_toList_iff.1 hj) hij).1
  rw [List.map_id, List.map_id, Array.toList_inj] at hsame
  refine ⟨hsame, ?_, fun i hi => ?_⟩
  · rw [hs, ht, s.line_inj hlike hsfound htfound (List.cons.inj hlast).1]
  · rw [← hsame] at hinsts hline
    exact (hline i hi i hi (List.map_inj_left.1 hinsts i (Array.mem_toList_iff.2 hi))).2

theorem blockSection_inj (hf : f.IsLegible m) (hg : g.IsLegible n) (hlike : f.IsLike m n g)
    {id id' : BlockId} (hid : id ∈ f.layout) (hid' : id' ∈ g.layout)
    (h : f.blockSection m id = g.blockSection n id') :
    id = id' ∧ f.blocks[id.index]? = g.blocks[id.index]? ∧
      ∀ b, f.blocks[id.index]? = some b → ∀ i ∈ b.insts, i.action.Agrees m f n g := by
  have hlt := (hf.layout id).1 hid
  have hlt' := (hg.layout id').1 hid'
  obtain ⟨htitle, hcode⟩ := Prod.ext_iff.1 h
  obtain ⟨htext, hmark⟩ :=
    title_inj (isSolid_blockText hf.clear id) (isSolid_blockText hg.clear id') htitle
  rw [toList_blockText, toList_blockText] at htext
  obtain ⟨hlabel, hindex⟩ := numbered_inj htext
  obtain rfl : id = id' := congrArg BlockId.mk hindex
  simp only [blockSection, label, Array.getElem?_eq_getElem hlt, Array.getElem?_eq_getElem hlt',
    Option.map_some, Option.getD_some] at hlabel hmark hcode ⊢
  obtain ⟨hinsts, hlast, hagree⟩ := code_inj hf hg hlike (Array.getElem_mem hlt)
    (Array.getElem_mem hlt') hcode
  refine ⟨trivial, ?_, fun b hb => Option.some.inj hb ▸ hagree⟩
  generalize f.blocks[id.index] = b at *
  generalize g.blocks[id.index] = c at *
  cases b
  cases c
  simp_all

theorem IsLegible.title (h : f.IsLegible m) (id : BlockId) :
    '\n' ∉ (f.blockSection m id).1 ∧ (f.blockSection m id).1.head? ≠ some ' ' := by
  have hsolid := isSolid_blockText h.clear id
  have htext : (f.blockText id).toList ≠ [] := by
    rw [toList_blockText]
    simp [numbered]
  have hmark (b : Block) : '\n' ∉ b.mark := by
    unfold Block.mark
    split <;> simp
  refine ⟨?_, ?_⟩
  · simp [blockSection, hsolid.noLine, hmark]
  · obtain ⟨c, cs, hcs⟩ := List.exists_cons_of_ne_nil htext
    have hc := (hsolid c (by simp [hcs])).1
    simp only [blockSection, hcs, List.cons_append, List.head?_cons, ne_eq, Option.some.injEq]
    rintro rfl
    cases hc

/-- The layout is known from the titles, and with it each block. -/
theorem layout_inj (hf : f.IsLegible m) (hg : g.IsLegible n) (hlike : f.IsLike m n g)
    (h : sections [] (f.layout.toList.map (f.blockSection m)) =
      sections [] (g.layout.toList.map (g.blockSection n))) :
    f.layout = g.layout ∧ ∀ id ∈ f.layout, f.blocks[id.index]? = g.blocks[id.index]? ∧
      ∀ b, f.blocks[id.index]? = some b → ∀ i ∈ b.insts, i.action.Agrees m f n g := by
  have hbegins {m : Module} {f : Function} (hf : f.IsLegible m) :
      ∀ s ∈ f.layout.toList.map (f.blockSection m), s.1.head? ≠ some ' ' ∧
        ∀ l ∈ s.2, ¬l.head? ≠ some ' ' := by
    intro s hs
    obtain ⟨id, hid, rfl⟩ := List.mem_map.1 hs
    have hlt := (hf.layout id).1 (Array.mem_toList_iff.1 hid)
    refine ⟨(hf.title id).2, fun l hl => not_not_intro (hf.code (Array.getElem_mem hlt) l ?_).2⟩
    simpa [blockSection, hlt] using hl
  have hsections := (sections_inj (·.head? ≠ some ' ') (List.forall_mem_nil _)
    (List.forall_mem_nil _) (hbegins hf) (hbegins hg) h).2
  have hblock (id) (hid : id ∈ f.layout.toList) (id') (hid' : id' ∈ g.layout.toList) :=
    blockSection_inj hf hg hlike (Array.mem_toList_iff.1 hid) (Array.mem_toList_iff.1 hid')
  have hlayout : f.layout.toList.map id = g.layout.toList.map id :=
    map_eq_map_of hsections fun id hid id' hid' heq => (hblock id hid id' hid' heq).1
  rw [List.map_id, List.map_id] at hlayout
  refine ⟨Array.toList_inj.1 hlayout, fun id hid => ?_⟩
  have hid := Array.mem_toList_iff.2 hid
  rw [← hlayout] at hsections hblock
  exact (hblock id hid id hid (List.map_inj_left.1 hsections id hid)).2

/-! ### Names in a function -/

/-- The parameters, slots and results of a function. -/
def locals (f : Function) : List Operand :=
  (List.range f.params.length).map .param ++
    (List.range f.slots.size).map (fun k => .slotAddr ⟨k⟩) ++
      (List.range f.values.size).map fun k => .inst ⟨k⟩

theorem nodup_locals (f : Function) : f.locals.Nodup := by
  have hparams := (List.nodup_range (n := f.params.length)).map (f := Operand.param)
    fun _ _ h => Operand.param.inj h
  have hslots := (List.nodup_range (n := f.slots.size)).map (f := fun k => Operand.slotAddr ⟨k⟩)
    fun _ _ h => SlotId.mk.inj (Operand.slotAddr.inj h)
  have hvalues := (List.nodup_range (n := f.values.size)).map (f := fun k => Operand.inst ⟨k⟩)
    fun _ _ h => ValueId.mk.inj (Operand.inst.inj h)
  refine (hparams.append hslots ?_).append hvalues ?_
  · simp [List.Disjoint]
  · intro v hv hw
    obtain ⟨k, -, rfl⟩ := List.mem_map.1 hw
    simp at hv

theorem IsTold.nodup_print (h : f.IsTold) (m : Module) :
    (f.locals.map (·.print m f)).Nodup := by
  have hlocal : ∀ v ∈ f.locals, v.IsFound m f ∧ ∃ cs, v.local? f = some cs := by
    intro v hv
    rcases List.mem_append.1 hv with hv | hv
    · rcases List.mem_append.1 hv with hv | hv
      · obtain ⟨k, hk, rfl⟩ := List.mem_map.1 hv
        exact ⟨List.mem_range.1 hk, _, rfl⟩
      · obtain ⟨k, hk, rfl⟩ := List.mem_map.1 hv
        exact ⟨List.mem_range.1 hk, _, rfl⟩
    · obtain ⟨k, hk, rfl⟩ := List.mem_map.1 hv
      exact ⟨List.mem_range.1 hk, _, rfl⟩
  refine f.nodup_locals.map_on fun v hv w hw heq => ?_
  obtain ⟨hv, cs, hcs⟩ := hlocal v hv
  obtain ⟨hw, ds, hds⟩ := hlocal w hw
  have htext := congrArg String.toList heq
  rw [Operand.print_of_local hcs, Operand.print_of_local hds] at htext
  obtain rfl := (List.cons.inj htext).2
  exact Operand.local_inj h h rfl hv hw hcs hds

theorem IsConsistent.nodup_blockText (h : f.IsConsistent m) :
    (f.layout.toList.map f.blockText).Nodup :=
  h.layout.map fun _ _ heq => blockText_inj heq

/-! ### Functions with the same code -/

theorem isIn_iff (hf : f.IsConsistent m) (hg : g.IsConsistent n) (hblocks : f.blocks = g.blocks)
    (x : Name) : x.IsIn f ↔ x.IsIn g := by
  have hgives (p : Point) : f.Gives p x ↔ g.Gives p x := by simp only [Gives, instAt, hblocks]
  constructor
  · intro hx
    obtain ⟨p, hp⟩ := hf.once x hx
    exact hg.tables p x ((hgives p).1 ((hp p).2 rfl))
  · intro hx
    obtain ⟨p, hp⟩ := hg.once x hx
    exact hf.tables p x ((hgives p).2 ((hp p).2 rfl))

variable (hf : f.IsConsistent m) (hg : g.IsConsistent n) (hblocks : f.blocks = g.blocks)
  (hagrees : ∀ p i, f.instAt p = some i → i.action.Agrees m f n g)

include hf hg hblocks hagrees

/-- Slots are known from the instructions that make room for them. -/
theorem slots_eq : f.slots = g.slots := by
  refine Array.ext_getElem? fun k => ?_
  have hin : k < f.slots.size ↔ k < g.slots.size := isIn_iff hf hg hblocks (.slot ⟨k⟩)
  by_cases hk : k < f.slots.size
  · obtain ⟨p, hp⟩ := hf.once (.slot ⟨k⟩) hk
    obtain ⟨i, hi, hgives⟩ := (hp p).2 rfl
    have hroom : i.action = .alloca ⟨k⟩ := by
      obtain ⟨result, action⟩ := i
      cases action <;> simp_all [Inst.gives, Action.reserves]
    exact (hagrees p i hi).2 ⟨k⟩ hroom
  · rw [Array.getElem?_eq_none (Nat.le_of_not_lt hk),
      Array.getElem?_eq_none (Nat.le_of_not_lt (mt hin.2 hk))]

/-- What is recorded about a result is known from its instruction. -/
theorem values_eq : f.values = g.values := by
  refine Array.ext_getElem? fun k => ?_
  have hin : k < f.values.size ↔ k < g.values.size := isIn_iff hf hg hblocks (.value ⟨k⟩)
  by_cases hk : k < f.values.size
  · obtain ⟨p, hp⟩ := hf.once (.value ⟨k⟩) hk
    obtain ⟨i, hi, hgives⟩ := (hp p).2 rfl
    have hi' : g.instAt p = some i := by simpa only [instAt, hblocks] using hi
    have hresult : i.result = some ⟨k⟩ := by
      obtain ⟨result, action⟩ := i
      cases action <;> simp_all [Inst.gives, Action.reserves]
    have hty := (hagrees p i hi).1
    have hrecorded := hf.recorded p i hi
    have hrecorded' := hg.recorded p i hi'
    cases hrecorded with
    | silent => cases hresult
    | value hty₁ hvalue =>
      cases hrecorded' with
      | value hty₂ hvalue' =>
        obtain rfl := Option.some.inj hresult
        rw [hvalue, hvalue', Option.some.inj (Except.ok.inj (hty₁.symm.trans (hty.trans hty₂)))]
  · rw [Array.getElem?_eq_none (Nat.le_of_not_lt hk),
      Array.getElem?_eq_none (Nat.le_of_not_lt (mt hin.2 hk))]

end Function

namespace Function

variable {m n : Module} {f g : Function}

theorem eq_of_lines (hf : f.IsLegible m) (hg : g.IsLegible n) (hfname : isName f.name)
    (hgname : isName g.name) (hfbody : f.isDeclaration = false) (hgbody : g.isDeclaration = false)
    (hfunctions : m.functions.toList.map Function.name = n.functions.toList.map Function.name)
    (hdoubles : m.TellDoubles n) (h : f.lines m = g.lines n) : f = g := by
  simp only [lines, hfbody, hgbody, Bool.false_eq_true, if_false, List.cons.injEq,
    List.append_left_inj] at h
  obtain ⟨hret, hname, hparams⟩ := definition_inj hfname hgname hf.clear.told hg.clear.told hfbody
    hgbody h.1
  have hlike : f.IsLike m n g := ⟨hf.clear, hg.clear, by rw [hparams], hfunctions, hdoubles⟩
  obtain ⟨hlayout, hsame⟩ := layout_inj hf hg hlike h.2
  have hblocks : f.blocks = g.blocks := by
    refine Array.ext_getElem? fun k => ?_
    have hin : k < f.blocks.size ↔ k < g.blocks.size := by
      rw [← hf.layout ⟨k⟩, ← hg.layout ⟨k⟩, hlayout]
    by_cases hk : k < f.blocks.size
    · exact (hsame ⟨k⟩ ((hf.layout ⟨k⟩).2 hk)).1
    · rw [Array.getElem?_eq_none (Nat.le_of_not_lt hk),
        Array.getElem?_eq_none (Nat.le_of_not_lt (mt hin.2 hk))]
  have hagrees (p : Point) (i : Inst) (hi : f.instAt p = some i) : i.action.Agrees m f n g := by
    obtain ⟨b, hb, hib⟩ := Option.bind_eq_some_iff.1 hi
    have hlt := (Array.getElem?_eq_some_iff.1 hb).1
    exact (hsame p.block ((hf.layout p.block).2 hlt)).2 b hb i (Array.mem_of_getElem? hib)
  have hslots := slots_eq hf.consistent hg.consistent hblocks hagrees
  have hvalues := values_eq hf.consistent hg.consistent hblocks hagrees
  have hvariadic := hf.isVariadic.trans hg.isVariadic.symm
  have hnoReturn := hf.isNoReturn.trans hg.isNoReturn.symm
  cases f
  cases g
  simp_all

end Function

/-! ### Modules -/

def Global.line (t : Global) : List Char :=
  '@' :: t.name.toList ++ ' ' :: ("= constant \"".toList ++ (escapeText t.text).toList ++
    "\\00\"".toList)

theorem Global.toList_print (t : Global) : t.print.toList = t.line ++ ['\n'] := by
  simp [Global.print, line]

/-- The names of the parameters are left out if there is no body. -/
def Function.settled (f : Function) : Function :=
  if f.isDeclaration then { f with params := f.params.map fun p => { p with name := "" } } else f

namespace Module

/-- What is left of a module without the names of the parameters of functions without a body. -/
def settled (m : Module) : Module := { m with functions := m.functions.map Function.settled }

def lines (m : Module) : List (List Char) :=
  sections (m.globals.toList.map Global.line) (m.functions.toList.map fun f => ([], f.lines m))

theorem toList_print (m : Module) :
    m.print.toList = "; module ".toList ++ m.name.toList ++ '\n' :: ofLines m.lines := by
  have hglobals : (m.globals.toList.map Global.print).flatMap String.toList =
      ofLines (m.globals.toList.map Global.line) := by
    rw [ofLines, List.flatMap_map, List.flatMap_map]
    exact List.flatMap_congr fun t _ => t.toList_print
  have hfunctions : (m.functions.toList.map fun f => "\n" ++ f.print m).flatMap String.toList =
      ofLines ((m.functions.toList.map fun f => ([], f.lines m)).flatMap fun s => s.1 :: s.2) := by
    rw [ofLines, List.flatMap_map, List.flatMap_map, List.flatMap_assoc]
    refine List.flatMap_congr fun f _ => ?_
    rw [String.toList_append, f.toList_print m]
    rfl
  simp [print, lines, sections, String.toList_join, hglobals, hfunctions]

/-- Names tell what they name, and each function has a body that can be read back or has none. -/
structure IsLegible (m : Module) : Prop extends m.IsClear where
  indexed : m.IsIndexed
  bare : ∀ f ∈ m.functions, f.isDeclaration → f.blocks = #[] ∧ f.slots = #[] ∧ f.values = #[]
  code : ∀ f ∈ m.functions, f.isDeclaration = false → f.IsLegible m

variable {m n : Module}

theorem IsLegible.solid (h : m.IsLegible) {t : Global} (ht : t ∈ m.globals) :
    IsSolid ('@' :: t.name.toList) := by
  obtain ⟨k, hk⟩ := Array.mem_iff_getElem?.1 ht
  obtain ⟨base, hbase, hname⟩ := h.texts k t hk
  have hdigits := isSolid_toDigits k
  simp [hname, isSolid_name hbase, hdigits, isBreak]

theorem line_inj (hm : m.IsLegible) (hn : n.IsLegible) {t u : Global} (ht : t ∈ m.globals)
    (hu : u ∈ n.globals) (h : t.line = u.line) : t = u := by
  have hspace {cs : List Char} (hcs : IsSolid cs) : ' ' ∉ cs := fun hc =>
    absurd (hcs ' ' hc).1 (by decide)
  obtain ⟨hname, htext⟩ := append_cons_inj (hspace (hm.solid ht)) (hspace (hn.solid hu)) h
  have htext := List.append_cancel_left (List.append_cancel_right htext)
  obtain ⟨x, text⟩ := t
  obtain ⟨y, text'⟩ := u
  obtain rfl : x = y := String.toList_inj.1 (List.cons.inj hname).2
  obtain rfl : text = text' := escapeText_inj (String.toList_inj.1 htext)
  rfl

/-- The lines of a function are lines, and none of them is empty. -/
theorem IsLegible.function (h : m.IsLegible) {f : Function} (hf : f ∈ m.functions) :
    ∀ l ∈ f.lines m, '\n' ∉ l ∧ l ≠ [] := by
  have hheader : '\n' ∉ f.header ∧ f.header ≠ [] := by
    refine ⟨f.noLine_header (h.names f hf) fun hbody => (h.code f hf hbody).clear.told, ?_⟩
    unfold Function.header
    split <;> simp
  unfold Function.lines
  split
  · exact List.forall_mem_singleton.2 hheader
  · rename_i hbody
    have hcode := h.code f hf (Bool.eq_false_of_not_eq_true hbody)
    refine List.forall_mem_cons.2 ⟨hheader, List.forall_mem_append.2 ⟨?_, by simp⟩⟩
    intro l hl
    obtain ⟨s, hs, hl⟩ := List.mem_flatMap.1 (show l ∈ List.flatMap _ _ from hl)
    obtain ⟨id, hid, rfl⟩ := List.mem_map.1 hs
    have hlt := (hcode.layout id).1 (Array.mem_toList_iff.1 hid)
    rcases List.mem_cons.1 hl with rfl | hl
    · exact ⟨(hcode.title id).1, by simp [Function.blockSection]⟩
    · have hmem : l ∈ f.blocks[id.index].code m f := by
        simpa [Function.blockSection, hlt] using hl
      have hline := hcode.code (Array.getElem_mem hlt) l hmem
      refine ⟨hline.1, ?_⟩
      rintro rfl
      cases hline.2

theorem IsLegible.noLine (h : m.IsLegible) : ∀ l ∈ m.lines, '\n' ∉ l := by
  refine List.forall_mem_append.2 ⟨fun l hl => ?_, fun l hl => ?_⟩
  · obtain ⟨t, ht, rfl⟩ := List.mem_map.1 hl
    have hname := (h.solid (Array.mem_toList_iff.1 ht)).noLine
    simp only [Global.line, List.mem_append, hname]
    simp [noLine_escapeText]
  · obtain ⟨s, hs, hl⟩ := List.mem_flatMap.1 hl
    obtain ⟨f, hf, rfl⟩ := List.mem_map.1 hs
    rcases List.mem_cons.1 hl with rfl | hl
    · exact List.not_mem_nil
    · exact (h.function (Array.mem_toList_iff.1 hf) l hl).1

theorem header_eq_of_lines {f g : Function} (h : f.lines m = g.lines n) : f.header = g.header := by
  have hhead {m : Module} (f : Function) : (f.lines m).head? = some f.header := by
    unfold Function.lines
    split <;> rfl
  exact Option.some.inj ((hhead f).symm.trans ((congrArg List.head? h).trans (hhead g)))

theorem name_eq_of_lines (hm : m.IsLegible) (hn : n.IsLegible) {f g : Function}
    (hf : f ∈ m.functions) (hg : g ∈ n.functions) (h : f.lines m = g.lines n) :
    f.name = g.name := by
  have hheader := header_eq_of_lines h
  have hsame := Function.isDeclaration_inj hheader
  cases hbody : f.isDeclaration with
  | true =>
    exact (Function.declaration_inj (hm.names f hf) (hn.names g hg) hbody (hsame ▸ hbody)
      hheader).2.1
  | false =>
    have hbody' : g.isDeclaration = false := hsame ▸ hbody
    exact (Function.definition_inj (hm.names f hf) (hn.names g hg) (hm.code f hf hbody).clear.told
      (hn.code g hg hbody').clear.told hbody hbody' hheader).2.1

/-- Functions with equal lines are the same, but for the names of parameters without a body. -/
theorem settled_eq_of_lines (hm : m.IsLegible) (hn : n.IsLegible) {f g : Function}
    (hf : f ∈ m.functions) (hg : g ∈ n.functions)
    (hfunctions : m.functions.toList.map Function.name = n.functions.toList.map Function.name)
    (hdoubles : m.TellDoubles n) (h : f.lines m = g.lines n) : f.settled = g.settled := by
  have hheader := header_eq_of_lines h
  have hsame := Function.isDeclaration_inj hheader
  cases hbody : f.isDeclaration with
  | true =>
    have hbody' : g.isDeclaration := hsame ▸ hbody
    obtain ⟨hret, hname, hparams, hvariadic, hnoReturn⟩ := Function.declaration_inj
      (hm.names f hf) (hn.names g hg) hbody hbody' hheader
    obtain ⟨hblocks, hslots, hvalues⟩ := hm.bare f hf hbody
    obtain ⟨hblocks', hslots', hvalues'⟩ := hn.bare g hg hbody'
    have hunnamed : (f.params.map fun p => { p with name := "" }) =
        g.params.map fun p => { p with name := "" } :=
      map_eq_map_of hparams fun p _ q _ hpq => by rw [hpq]
    rw [Function.settled, Function.settled, if_pos hbody, if_pos hbody', hunnamed]
    cases f
    cases g
    simp_all [Function.isDeclaration]
  | false =>
    have hbody' : g.isDeclaration = false := hsame ▸ hbody
    have heq := Function.eq_of_lines (hm.code f hf hbody) (hn.code g hg hbody') (hm.names f hf)
      (hn.names g hg) hbody hbody' hfunctions hdoubles h
    rw [heq]

/-- Legible modules of the same name are the same if they are written alike, but for the names of
the parameters of functions without a body. -/
theorem settled_eq_of_print (hm : m.IsLegible) (hn : n.IsLegible) (hname : m.name = n.name)
    (hdoubles : m.TellDoubles n) (h : m.print = n.print) : m.settled = n.settled := by
  have htext := congrArg String.toList h
  rw [toList_print, toList_print, hname] at htext
  have hlines := ofLines_inj hm.noLine hn.noLine (List.cons.inj (List.append_cancel_left htext)).2
  have hglobal {m : Module} : ∀ l ∈ m.globals.toList.map Global.line, ¬l = [] := by
    simp [Global.line]
  have hsection {m : Module} (hm : m.IsLegible) :
      ∀ s ∈ m.functions.toList.map fun f => (([] : List Char), f.lines m),
        s.1 = [] ∧ ∀ l ∈ s.2, ¬l = [] := by
    intro s hs
    obtain ⟨f, hf, rfl⟩ := List.mem_map.1 hs
    exact ⟨rfl, fun l hl => (hm.function (Array.mem_toList_iff.1 hf) l hl).2⟩
  obtain ⟨htexts, hbodies⟩ := sections_inj (· = []) hglobal hglobal (hsection hm) (hsection hn)
    hlines
  have hglobals : m.globals.toList.map id = n.globals.toList.map id :=
    map_eq_map_of htexts fun t ht u hu htu =>
      line_inj hm hn (Array.mem_toList_iff.1 ht) (Array.mem_toList_iff.1 hu) htu
  have hfunctions : m.functions.toList.map Function.name = n.functions.toList.map Function.name :=
    map_eq_map_of hbodies fun f hf g hg hfg => name_eq_of_lines hm hn (Array.mem_toList_iff.1 hf)
      (Array.mem_toList_iff.1 hg) (Prod.ext_iff.1 hfg).2
  have hsettled : m.functions.toList.map Function.settled =
      n.functions.toList.map Function.settled :=
    map_eq_map_of hbodies fun f hf g hg hfg => settled_eq_of_lines hm hn
      (Array.mem_toList_iff.1 hf) (Array.mem_toList_iff.1 hg) hfunctions hdoubles
      (Prod.ext_iff.1 hfg).2
  rw [List.map_id, List.map_id, Array.toList_inj] at hglobals
  rw [← Array.toList_map, ← Array.toList_map, Array.toList_inj] at hsettled
  have hbyName : m.byName = n.byName :=
    hm.indexed.trans (hfunctions ▸ hn.indexed.symm)
  rw [settled, settled, hname, hglobals, hsettled, hbyName]

/-! ### What is not written -/

theorem printTyped_settled (m : Module) (f : Function) (v : Operand) :
    v.printTyped m.settled f = v.printTyped m f := by
  cases v <;> rfl

theorem print_settled_action (m : Module) (f : Function) (a : Action) :
    a.print m.settled f = a.print m f := by
  have hcallee (callee : FuncId) :
      ((m.settled.functions[callee.index]?).getD default).ret =
        ((m.functions[callee.index]?).getD default).ret ∧
      ((m.settled.functions[callee.index]?).getD default).name =
        ((m.functions[callee.index]?).getD default).name := by
    simp only [settled, Array.getElem?_map]
    cases m.functions[callee.index]? with
    | none => exact ⟨rfl, rfl⟩
    | some g =>
      simp only [Option.map_some, Option.getD_some, Function.settled]
      split <;> exact ⟨rfl, rfl⟩
  have hright (v : Operand) : v.print m.settled f = v.print m f := by cases v <;> rfl
  cases a with
  | call callee args =>
    simp only [Action.print, (hcallee callee).1, (hcallee callee).2, printTyped_settled]
  | _ => simp only [Action.print, printTyped_settled, hright]

theorem print_settled_function (m : Module) (f : Function) :
    f.settled.print m.settled = f.print m := by
  cases hbody : f.isDeclaration with
  | true =>
    have hbody' : f.settled.isDeclaration := by
      rw [Function.settled, if_pos hbody]
      exact hbody
    rw [Function.print, Function.print, if_pos hbody, if_pos hbody', Function.settled, if_pos hbody]
    delta Function.printDeclaration
    simp [Function.comp_def]
  | false =>
    have hinst (i : Inst) : i.print m.settled f = i.print m f := by
      simp only [Inst.print, print_settled_action]
    have hlast (t : Terminator) : t.print m.settled f = t.print m f := by
      cases t with
      | ret v? => cases v? <;> simp only [Terminator.print, printTyped_settled]
      | _ => simp only [Terminator.print, printTyped_settled]
    have hblock (id : BlockId) : f.printBlock m.settled id = f.printBlock m id := by
      simp only [Function.printBlock, Block.print, hinst, hlast]
    have hblocks : f.printBlock m.settled = f.printBlock m := funext hblock
    rw [Function.settled, hbody, if_neg Bool.false_ne_true, Function.print, Function.print, hbody,
      if_neg Bool.false_ne_true, if_neg Bool.false_ne_true]
    delta Function.printDefinition
    rw [hblocks]

/-- The names of the parameters of functions without a body are not written. -/
theorem print_settled (m : Module) : m.settled.print = m.print := by
  have hfunctions : (m.settled.functions.toList.map fun f => "\n" ++ f.print m.settled) =
      m.functions.toList.map fun f => "\n" ++ f.print m := by
    rw [settled, Array.toList_map, List.map_map]
    exact List.map_congr_left fun f _ => congrArg ("\n" ++ ·) (print_settled_function m f)
  rw [print, hfunctions]
  rfl

end Module

end Quill.Ir
