import Quill.Proofs.Lowering.Draft

/-! # Work on a body

What holds of a draft at every moment, and how far the draft may move away from the one that a
statement began with: only the current block and the blocks made since are touched.
-/
namespace Quill

open Ir (Action Block BlockId FuncId Function Global Module Operand SlotId Slot Terminator Ty
  ValueInfo)
open Library (Direction)

namespace Draft

def spot (d : Draft) : Spot where
  block := d.block
  position := (d.function.blocks[d.block.index]?.map fun b => b.insts.size).getD 0
  fresh := d.function.values.size

def Blank (d : Draft) (id : BlockId) : Prop :=
  ∃ b, d.function.blocks[id.index]? = some b ∧ b.insts = #[] ∧ b.terminator = none

theorem Blank.isOpen {d : Draft} {id : BlockId} (h : d.Blank id) : d.function.IsOpen id := by
  obtain ⟨b, hb, -, hopen⟩ := h
  exact ⟨b, hb, hopen⟩

/-- What holds the result of a body fits the type that the function returns. -/
def ResultFits (d : Draft) : Option SlotId → Prop
  | some s => d.function.HasSlot s d.function.ret
  | none => d.function.ret = .void

end Draft

/-- The checks of verification, as far as they concern one block. Targets exist, perhaps
detached, and nothing is returned. -/
structure Ir.Block.IsSound (b : Block) (m : Module) (f : Function) (size : Nat) : Prop where
  insts : ∀ i ∈ b.insts, i.action.check m f = .ok ()
  terminator : ∀ t, b.terminator = some t → t.check f b.label = .ok ()
  noReturn : ∀ t, b.terminator = some t → t.isReturn = false
  targets : ∀ t, b.terminator = some t → ∀ s ∈ t.successors, s.index < size

namespace Site

variable (σ : Site)

/-- A module in which the function was built further than the draft. -/
structure Final (d : Draft) (m : Module) (f : Function) : Prop where
  function : m.functions[σ.id.index]? = some f
  continues : d.function.Continues f
  signatures : ∀ k : Nat, (m.functions[k]?).map Function.signature =
    (σ.module.functions[k]?).map Function.signature
  globals : ∀ (k : Nat) (g : Global), d.globals[k]? = some g → m.globals[k]? = some g
  outside : Library.IsIn m

structure Sane (d : Draft) : Prop where
  block_lt : d.block.index < d.function.blocks.size
  layout_lt : ∀ b ∈ d.function.layout, b.index < d.function.blocks.size
  layout_nodup : d.function.layout.toList.Nodup
  signature : some d.function.signature = (σ.module.functions[σ.id.index]?).map Function.signature
  slots : ∀ (k : Nat) (s : Slot), d.function.slots[k]? = some s → s.ty ≠ .void
  values : ∀ (k : Nat) (v : ValueInfo), d.function.values[k]? = some v →
    v.ty ≠ .void ∧ (v.isComparison → v.ty = .i1)
  scopes : d.scopes ≠ []
  bound : ∀ s ∈ d.scopes.slots, s.index < d.function.slots.size
  exit : ∀ frame, d.frame = some frame → frame.exit.index < d.function.blocks.size
  result : ∀ frame, d.frame = some frame → d.ResultFits frame.result
  formats : ∀ ty dir v, d.formats.lookup (ty, dir) = some v →
    ∃ id name, v = .global id ∧ d.globals[id.index]? = some ⟨name, Library.format ty dir⟩
  sound : ∀ m f, σ.Final d m f → ∀ (k : Nat) (b : Block), d.function.blocks[k]? = some b →
    b.IsSound m f d.function.blocks.size

structure Ready (d : Draft) : Prop extends Sane σ d where
  isOpen : d.function.IsOpen d.block

/-- The draft was reached from `base` by work on the current block and on new blocks. The
`waiting` ones are blank and will be entered, and the `loose` ones are not in the layout yet. -/
structure Work (base : Draft) (waiting loose : List BlockId) (d : Draft) : Prop where
  begins : base.function.IsOpen base.block
  sane : σ.Sane d
  continues : base.function.Continues d.function
  globals : ∀ (k : Nat) (g : Global), base.globals[k]? = some g → d.globals[k]? = some g
  frame : d.frame = base.frame
  scopes : d.scopes.tail = base.scopes.tail
  current : d.block = base.block ∨ base.function.blocks.size ≤ d.block.index
  others : ∀ (k : Nat) (b : Block), k ≠ base.block.index → base.function.blocks[k]? = some b →
    d.function.blocks[k]? = some b
  blank : ∀ k ∈ waiting, d.Blank k
  notCurrent : ∀ k ∈ waiting, k ≠ d.block
  waiting_new : ∀ k ∈ waiting, base.function.blocks.size ≤ k.index
  waiting_nodup : waiting.Nodup
  opens : ∀ k, d.function.IsOpen k →
    k = d.block ∨ k ∈ waiting ∨ (base.function.IsOpen k ∧ k ≠ base.block)
  detached : ∀ k, d.function.IsDetached k ↔ k ∈ loose ∨ base.function.IsDetached k
  loose_new : ∀ k ∈ loose, base.function.blocks.size ≤ k.index
  loose_nodup : loose.Nodup

end Site

namespace Ir.Block.IsSound

theorem mono {b : Block} {m : Module} {f : Function} {n n' : Nat}
    (h : b.IsSound m f n) (hn : n ≤ n') : b.IsSound m f n' :=
  ⟨h.insts, h.terminator, h.noReturn, fun t ht s hs => Nat.lt_of_lt_of_le (h.targets t ht s hs) hn⟩

end Ir.Block.IsSound

namespace Ir.Function.Continues

variable {f g : Function}

theorem hasSlot (h : f.Continues g) {s : SlotId} {ty : Ty} (hs : f.HasSlot s ty) :
    g.HasSlot s ty := by
  obtain ⟨name, hname⟩ := hs
  exact ⟨name, h.slots _ _ hname⟩

end Ir.Function.Continues

theorem Draft.ResultFits.mono {d d' : Draft} {result : Option SlotId} (h : d.ResultFits result)
    (hd : d.function.Continues d'.function) : d'.ResultFits result := by
  cases result with
  | none => exact hd.ret.trans h
  | some s =>
    change d'.function.HasSlot s d'.function.ret
    rw [hd.ret]
    exact hd.hasSlot h

namespace Site

variable {σ : Site} {d d' base : Draft} {W L : List BlockId}

theorem Final.earlier {m : Module} {f : Function} (h : σ.Final d' m f)
    (hf : d.function.Continues d'.function)
    (hg : ∀ (k : Nat) (g : Global), d.globals[k]? = some g → d'.globals[k]? = some g) :
    σ.Final d m f :=
  ⟨h.function, hf.trans h.continues, h.signatures, fun k g hk => h.globals k g (hg k g hk),
    h.outside⟩

theorem Final.of_same {m : Module} {f : Function} (h : σ.Final d' m f)
    (hfunction : d'.function = d.function) (hglobals : d'.globals = d.globals) : σ.Final d m f :=
  h.earlier (hfunction ▸ .refl _) fun _ _ hg => hglobals ▸ hg

theorem Final.of_close {m : Module} {f : Function} {t : Terminator} (h : σ.Final (d.close t) m f)
    (hopen : d.function.IsOpen d.block) : σ.Final d m f :=
  h.earlier (.close hopen t) fun _ _ hg => hg

theorem Work.earlier {m : Module} {f : Function} (hw : σ.Work base W L d) (h : σ.Final d m f) :
    σ.Final base m f :=
  h.earlier hw.continues hw.globals

namespace Sane

theorem create (h : σ.Sane d) (label : String) : σ.Sane (d.create label) := by
  have hsize : d.function.blocks.size ≤ (d.create label).function.blocks.size := by
    simp [Draft.create, Function.addBlock]
  refine { h with
    block_lt := Nat.lt_of_lt_of_le h.block_lt hsize
    layout_lt := fun b hb => Nat.lt_of_lt_of_le (h.layout_lt b hb) hsize
    exit := fun frame hf => Nat.lt_of_lt_of_le (h.exit frame hf) hsize
    result := h.result
    sound := ?_ }
  intro m f hfinal k b hb
  have hold := hfinal.earlier (.addBlock _ _) fun _ _ hg => hg
  simp only [Draft.create, Function.addBlock, Array.getElem?_push] at hb
  split at hb
  · obtain rfl := Option.some.inj hb
    exact ⟨by simp, by simp, by simp, by simp⟩
  · exact (h.sound m f hold k b hb).mono hsize

theorem attach (h : σ.Sane d) {id : BlockId} (hid : d.function.IsDetached id) :
    σ.Sane (d.attach id) := by
  refine { h with layout_lt := ?_, layout_nodup := ?_, result := h.result, sound := ?_ }
  · intro b hb
    simp only [Draft.attach, Function.attach, Array.mem_push] at hb
    rcases hb with hb | rfl
    · exact h.layout_lt b hb
    · exact hid.1
  · simp only [Draft.attach, Function.attach, Array.toList_push, List.nodup_append]
    refine ⟨h.layout_nodup, by simp, ?_⟩
    intro a ha b hb
    obtain rfl := List.mem_singleton.1 hb
    rintro rfl
    exact hid.2 (Array.mem_toList_iff.1 ha)
  · intro m f hfinal
    exact h.sound m f (hfinal.earlier (.attach _ _) fun _ _ hg => hg)

theorem enter (h : σ.Sane d) {id : BlockId} (hid : id.index < d.function.blocks.size) :
    σ.Sane (d.enter id) :=
  { h with
    block_lt := hid
    result := h.result
    sound := fun m f hfinal => h.sound m f (hfinal.of_same rfl rfl) }

theorem markDead (h : σ.Sane d) {id : BlockId} (hid : d.function.IsOpen id) :
    σ.Sane (d.markDead id) := by
  have hsize : (d.markDead id).function.blocks.size = d.function.blocks.size := by
    simp [Draft.markDead, Function.markDead]
  refine { h with
    block_lt := hsize ▸ h.block_lt
    layout_lt := fun b hb => hsize ▸ h.layout_lt b hb
    exit := fun frame hf => hsize ▸ h.exit frame hf
    result := h.result
    sound := ?_ }
  intro m f hfinal k b hb
  have hold := hfinal.earlier (.markDead hid) fun _ _ hg => hg
  simp only [Draft.markDead, Function.markDead, Array.getElem?_modify] at hb
  rw [hsize]
  split at hb
  · obtain ⟨c, hc, rfl⟩ := Option.map_eq_some_iff.1 hb
    have hs := h.sound m f hold k c (by simp_all)
    exact ⟨hs.insts, hs.terminator, hs.noReturn, hs.targets⟩
  · exact h.sound m f hold k b hb

theorem addSlot (h : σ.Sane d) (name : String) {ty : Ty} (hty : ty ≠ .void) :
    σ.Sane (d.addSlot name ty) := by
  have hsize : d.function.slots.size ≤ (d.addSlot name ty).function.slots.size := by
    simp [Draft.addSlot, Function.addSlot]
  have hcont : d.function.Continues (d.addSlot name ty).function := .addSlot _ _ _
  refine { h with
    slots := ?_
    bound := fun s hs => Nat.lt_of_lt_of_le (h.bound s hs) hsize
    result := fun frame hf => (h.result frame hf).mono hcont
    sound := fun m f hfinal => h.sound m f (hfinal.earlier hcont fun _ _ hg => hg) }
  intro k s hs
  simp only [Draft.addSlot, Function.addSlot, Array.getElem?_push] at hs
  split at hs
  · obtain rfl := Option.some.inj hs
    exact hty
  · exact h.slots k s hs

theorem emit (h : σ.Sane d) (hopen : d.function.IsOpen d.block) {action : Action}
    {info? : Option ValueInfo}
    (hinfo : ∀ v, info? = some v → v.ty ≠ .void ∧ (v.isComparison → v.ty = .i1))
    (hcheck : ∀ m f, σ.Final d m f → action.check m f = .ok ()) :
    σ.Sane (d.emit action info?) := by
  have hsize : (d.emit action info?).function.blocks.size = d.function.blocks.size := by
    simp [Draft.emit, Function.emit]
  refine { h with
    block_lt := hsize ▸ h.block_lt
    layout_lt := fun b hb => hsize ▸ h.layout_lt b hb
    exit := fun frame hf => hsize ▸ h.exit frame hf
    values := ?_
    result := h.result
    sound := ?_ }
  · intro k v hv
    simp only [Draft.emit, Function.emit, Array.getElem?_append] at hv
    split at hv
    · exact h.values k v hv
    · cases info? with
      | none => simp at hv
      | some info =>
        have hv' : [info][k - d.function.values.size]? = some v := by simpa using hv
        exact hinfo v (congrArg some (List.mem_singleton.1 (List.mem_of_getElem? hv')).symm)
  · intro m f hfinal k b hb
    have hold := hfinal.earlier (.emit hopen _ _) fun _ _ hg => hg
    simp only [Draft.emit, Function.emit, Array.getElem?_modify] at hb
    rw [hsize]
    split at hb
    · obtain ⟨c, hc, rfl⟩ := Option.map_eq_some_iff.1 hb
      have hs := h.sound m f hold k c (by simp_all)
      refine ⟨?_, hs.terminator, hs.noReturn, hs.targets⟩
      intro i hi
      rcases Array.mem_push.1 hi with hi | rfl
      · exact hs.insts i hi
      · exact hcheck m f hold
    · exact h.sound m f hold k b hb

theorem close (h : σ.Sane d) (hopen : d.function.IsOpen d.block) {t : Terminator}
    (hcheck : ∀ m f label, σ.Final d m f → t.check f label = .ok ())
    (hret : t.isReturn = false) (htargets : ∀ s ∈ t.successors, s.index < d.function.blocks.size) :
    σ.Sane (d.close t) := by
  have hsize : (d.close t).function.blocks.size = d.function.blocks.size := by
    simp [Draft.close, Function.close]
  refine { h with
    block_lt := hsize ▸ h.block_lt
    layout_lt := fun b hb => hsize ▸ h.layout_lt b hb
    exit := fun frame hf => hsize ▸ h.exit frame hf
    result := h.result
    sound := ?_ }
  intro m f hfinal k b hb
  have hold := hfinal.of_close hopen
  simp only [Draft.close, Function.close, Array.getElem?_modify] at hb
  rw [hsize]
  split at hb
  · obtain ⟨c, hc, rfl⟩ := Option.map_eq_some_iff.1 hb
    have hs := h.sound m f hold k c (by simp_all)
    refine ⟨hs.insts, ?_, ?_, ?_⟩
    · rintro _ ⟨⟩
      exact hcheck m f _ hold
    · rintro _ ⟨⟩
      exact hret
    · rintro _ ⟨⟩
      exact htargets
  · exact h.sound m f hold k b hb

end Sane

namespace Work

theorem refl (h : σ.Ready d) : σ.Work d [] [] d where
  begins := h.isOpen
  sane := h.toSane
  continues := .refl _
  globals _ _ hg := hg
  frame := rfl
  scopes := rfl
  current := .inl rfl
  others _ _ _ hb := hb
  blank := by simp
  notCurrent := by simp
  waiting_new := by simp
  waiting_nodup := .nil
  opens k hk := by
    by_cases heq : k = d.block
    · exact .inl heq
    · exact .inr (.inr ⟨hk, heq⟩)
  detached := by simp
  loose_new := by simp
  loose_nodup := .nil

theorem lt_size {id : BlockId} (h : σ.Work base W L d) (hid : id.index < base.function.blocks.size) :
    id.index < d.function.blocks.size :=
  Nat.lt_of_lt_of_le hid h.continues.blocks_size

theorem ready (h : σ.Work base W L d) (hopen : d.function.IsOpen d.block) : σ.Ready d :=
  ⟨h.sane, hopen⟩

/-- Work may go on with a part that counts from the current draft. -/
theorem trans (h : σ.Work base W L d) (h' : σ.Work d [] [] d') : σ.Work base W L d' where
  begins := h.begins
  sane := h'.sane
  continues := h.continues.trans h'.continues
  globals k g hg := h'.globals k g (h.globals k g hg)
  frame := h'.frame.trans h.frame
  scopes := h'.scopes.trans h.scopes
  current := by
    rcases h'.current with heq | hnew
    · exact heq ▸ h.current
    · exact .inr (Nat.le_trans h.continues.blocks_size hnew)
  others k b hk hb := by
    refine h'.others k b ?_ (h.others k b hk hb)
    have hlt := (Array.getElem?_eq_some_iff.1 hb).1
    rcases h.current with heq | hnew
    · exact heq ▸ hk
    · omega
  blank k hk := by
    obtain ⟨b, hb, hempty⟩ := h.blank k hk
    have hne : k.index ≠ d.block.index := fun heq => h.notCurrent k hk (by cases k; cases heq; rfl)
    exact ⟨b, h'.others _ b hne hb, hempty⟩
  notCurrent k hk heq := by
    obtain ⟨b, hb, -⟩ := h.blank k hk
    have hlt := (Array.getElem?_eq_some_iff.1 hb).1
    rcases h'.current with hsame | hnew
    · exact h.notCurrent k hk (heq.trans hsame)
    · rw [← heq] at hnew
      omega
  waiting_new := h.waiting_new
  waiting_nodup := h.waiting_nodup
  opens k hk := by
    rcases h'.opens k hk with heq | hw | ⟨hopen, hne⟩
    · exact .inl heq
    · simp at hw
    · rcases h.opens k hopen with heq | hw | hbase
      · exact absurd heq hne
      · exact .inr (.inl hw)
      · exact .inr (.inr hbase)
  detached k := by
    rw [h'.detached, h.detached]
    simp
  loose_new := h.loose_new
  loose_nodup := h.loose_nodup

theorem inPlace (h : σ.Ready d) (hsane : σ.Sane d') (hcont : d.function.Continues d'.function)
    (hglobals : ∀ (k : Nat) (g : Global), d.globals[k]? = some g → d'.globals[k]? = some g)
    (hframe : d'.frame = d.frame) (hscopes : d'.scopes.tail = d.scopes.tail)
    (hblock : d'.block = d.block) (hlayout : d'.function.layout = d.function.layout)
    (hothers : ∀ k : Nat, k ≠ d.block.index → d'.function.blocks[k]? = d.function.blocks[k]?) :
    σ.Work d [] [] d' where
  begins := h.isOpen
  sane := hsane
  continues := hcont
  globals := hglobals
  frame := hframe
  scopes := hscopes
  current := .inl hblock
  others k b hk hb := (hothers k hk).trans hb
  blank := by simp
  notCurrent := by simp
  waiting_new := by simp
  waiting_nodup := .nil
  opens k hk := by
    by_cases heq : k = d.block
    · exact .inl (heq.trans hblock.symm)
    · obtain ⟨b, hb, hopen⟩ := hk
      have hne : k.index ≠ d.block.index := fun he => heq (by cases k; cases he; rfl)
      exact .inr (.inr ⟨⟨b, (hothers _ hne) ▸ hb, hopen⟩, heq⟩)
  detached k := by
    have hsize : d'.function.blocks.size = d.function.blocks.size := by
      apply Nat.le_antisymm _ hcont.blocks_size
      apply Nat.le_of_not_lt
      intro hlt
      have hne : d.function.blocks.size ≠ d.block.index := (Nat.ne_of_lt h.isOpen.lt).symm
      have := hothers _ hne
      rw [Array.getElem?_eq_getElem hlt] at this
      simp at this
    simp [Function.IsDetached, hsize, hlayout]
  loose_new := by simp
  loose_nodup := .nil

theorem emit (h : σ.Ready d) {action : Action} {info? : Option ValueInfo}
    (hinfo : ∀ v, info? = some v → v.ty ≠ .void ∧ (v.isComparison → v.ty = .i1))
    (hcheck : ∀ m f, σ.Final d m f → action.check m f = .ok ()) :
    σ.Work d [] [] (d.emit action info?) := by
  refine inPlace h (h.toSane.emit h.isOpen hinfo hcheck) (.emit h.isOpen _ _) (fun _ _ hg => hg)
    rfl rfl rfl rfl fun k hk => ?_
  simp [Draft.emit, Function.emit, Array.getElem?_modify, hk.symm]

theorem close (h : σ.Ready d) {t : Terminator}
    (hcheck : ∀ m f label, σ.Final d m f → t.check f label = .ok ())
    (hret : t.isReturn = false) (htargets : ∀ s ∈ t.successors, s.index < d.function.blocks.size) :
    σ.Work d [] [] (d.close t) := by
  refine inPlace h (h.toSane.close h.isOpen hcheck hret htargets) (.close h.isOpen _)
    (fun _ _ hg => hg) rfl rfl rfl rfl fun k hk => ?_
  simp [Draft.close, Function.close, Array.getElem?_modify, hk.symm]

theorem addSlot (h : σ.Ready d) (name : String) {ty : Ty} (hty : ty ≠ .void) :
    σ.Work d [] [] (d.addSlot name ty) :=
  inPlace h (h.toSane.addSlot name hty) (.addSlot _ _ _) (fun _ _ hg => hg) rfl rfl rfl rfl
    fun _ _ => rfl

theorem nextBlock_ne {id : BlockId} (hid : id.index < d.function.blocks.size) :
    id ≠ d.nextBlock := by
  rintro rfl
  exact Nat.lt_irrefl _ hid

theorem create (h : σ.Work base W L d) (label : String) :
    σ.Work base (d.nextBlock :: W) (d.nextBlock :: L) (d.create label) where
  begins := h.begins
  sane := h.sane.create label
  continues := h.continues.trans (.addBlock _ _)
  globals := h.globals
  frame := h.frame
  scopes := h.scopes
  current := h.current
  others k b hk hb := Function.Continues.push_getElem? (h.others k b hk hb) _
  blank := by
    intro k hk
    rcases List.mem_cons.1 hk with rfl | hk
    · exact ⟨_, by simp [Draft.create, Function.addBlock, Draft.nextBlock]; rfl, rfl, rfl⟩
    · obtain ⟨b, hb, hempty⟩ := h.blank k hk
      exact ⟨b, Function.Continues.push_getElem? hb _, hempty⟩
  notCurrent := by
    intro k hk
    rcases List.mem_cons.1 hk with rfl | hk
    · exact (nextBlock_ne h.sane.block_lt).symm
    · exact h.notCurrent k hk
  waiting_new := by
    intro k hk
    rcases List.mem_cons.1 hk with rfl | hk
    · exact h.continues.blocks_size
    · exact h.waiting_new k hk
  waiting_nodup := by
    refine List.nodup_cons.2 ⟨fun hmem => ?_, h.waiting_nodup⟩
    exact nextBlock_ne (h.blank _ hmem).isOpen.lt rfl
  opens k hk := by
    obtain ⟨b, hb, hopen⟩ := hk
    simp only [Draft.create, Function.addBlock, Array.getElem?_push] at hb
    split at hb
    · rename_i heq
      exact .inr (.inl (List.mem_cons.2 (.inl (by cases k; cases heq; rfl))))
    · rcases h.opens k ⟨b, hb, hopen⟩ with hcur | hw | hbase
      · exact .inl hcur
      · exact .inr (.inl (List.mem_cons.2 (.inr hw)))
      · exact .inr (.inr hbase)
  detached k := by
    have hold := h.detached k
    simp only [Function.IsDetached, Draft.create, Function.addBlock, Array.size_push,
      List.mem_cons] at hold ⊢
    constructor
    · rintro ⟨hlt, hk⟩
      by_cases hsize : k.index < d.function.blocks.size
      · exact (hold.1 ⟨hsize, hk⟩).imp .inr fun hbase => hbase
      · have heq : k.index = d.function.blocks.size := by omega
        exact .inl (.inl (by cases k; cases heq; rfl))
    · rintro ((rfl | hk) | hk)
      · refine ⟨Nat.lt_succ_self _, fun hmem => ?_⟩
        exact nextBlock_ne (h.sane.layout_lt _ hmem) rfl
      · exact ⟨Nat.lt_succ_of_lt (hold.2 (.inl hk)).1, (hold.2 (.inl hk)).2⟩
      · exact ⟨Nat.lt_succ_of_lt (hold.2 (.inr hk)).1, (hold.2 (.inr hk)).2⟩
  loose_new := by
    intro k hk
    rcases List.mem_cons.1 hk with rfl | hk
    · exact h.continues.blocks_size
    · exact h.loose_new k hk
  loose_nodup := by
    refine List.nodup_cons.2 ⟨fun hmem => ?_, h.loose_nodup⟩
    exact nextBlock_ne ((h.detached _).2 (.inl hmem)).1 rfl

theorem attach {id : BlockId} (h : σ.Work base W (id :: L) d) :
    σ.Work base W L (d.attach id) where
  begins := h.begins
  sane := h.sane.attach ((h.detached id).2 (.inl (List.mem_cons_self ..)))
  continues := h.continues.trans (.attach _ _)
  globals := h.globals
  frame := h.frame
  scopes := h.scopes
  current := h.current
  others := h.others
  blank := h.blank
  notCurrent := h.notCurrent
  waiting_new := h.waiting_new
  waiting_nodup := h.waiting_nodup
  opens := h.opens
  detached k := by
    have hold := h.detached k
    obtain ⟨hid, -⟩ := List.nodup_cons.1 h.loose_nodup
    have hnew := h.loose_new id (List.mem_cons_self ..)
    simp only [Function.IsDetached, Draft.attach, Function.attach, Array.mem_push, not_or,
      List.mem_cons] at hold ⊢
    constructor
    · rintro ⟨hlt, hk, hne⟩
      rcases hold.1 ⟨hlt, hk⟩ with (heq | hmem) | hbase
      · exact absurd heq hne
      · exact .inl hmem
      · exact .inr hbase
    · rintro (hk | hk)
      · obtain ⟨hlt, hout⟩ := hold.2 (.inl (.inr hk))
        exact ⟨hlt, hout, fun heq => hid (heq ▸ hk)⟩
      · obtain ⟨hlt, hout⟩ := hold.2 (.inr hk)
        refine ⟨hlt, hout, ?_⟩
        rintro rfl
        exact absurd hk.1 (Nat.not_lt.2 hnew)
  loose_new k hk := h.loose_new k (List.mem_cons_of_mem _ hk)
  loose_nodup := (List.nodup_cons.1 h.loose_nodup).2

theorem addBlock (h : σ.Work base W L d) (label : String) :
    σ.Work base (d.nextBlock :: W) L (d.addBlock label) :=
  (h.create label).attach

/-- Once the current block has ended, one of the waiting blocks is entered. -/
theorem enter {id : BlockId} (h : σ.Work base W L d) (hclosed : ¬d.function.IsOpen d.block)
    {W' : List BlockId} (hW : W.Perm (id :: W')) : σ.Work base W' L (d.enter id) := by
  have hmem : ∀ k ∈ W', k ∈ W := fun k hk => hW.mem_iff.2 (List.mem_cons_of_mem _ hk)
  have hid : id ∈ W := hW.mem_iff.2 (List.mem_cons_self ..)
  obtain ⟨hnot, hnodup⟩ := List.nodup_cons.1 (hW.nodup_iff.1 h.waiting_nodup)
  exact {
    begins := h.begins
    sane := h.sane.enter (h.blank id hid).isOpen.lt
    continues := h.continues
    globals := h.globals
    frame := h.frame
    scopes := h.scopes
    current := .inr (h.waiting_new id hid)
    others := h.others
    blank := fun k hk => h.blank k (hmem k hk)
    notCurrent := fun k hk heq => hnot ((show k = id from heq) ▸ hk)
    waiting_new := fun k hk => h.waiting_new k (hmem k hk)
    waiting_nodup := hnodup
    opens := by
      intro k hk
      rcases h.opens k hk with heq | hw | hbase
      · exact absurd (heq ▸ hk) hclosed
      · rcases List.mem_cons.1 (hW.mem_iff.1 hw) with heq | hw
        · exact .inl heq
        · exact .inr (.inl hw)
      · exact .inr (.inr hbase)
    detached := h.detached
    loose_new := h.loose_new
    loose_nodup := h.loose_nodup }

theorem markDead {id : BlockId} (h : σ.Work base W L d) (hid : id ∈ W) :
    σ.Work base W L (d.markDead id) := by
  have hopen := (h.blank id hid).isOpen
  have hget (k : Nat) : (d.markDead id).function.blocks[k]? = d.function.blocks[k]?.map fun b =>
      if id.index = k then { b with isUnreachable := true } else b := by
    simp only [Draft.markDead, Function.markDead, Array.getElem?_modify]
    split <;> simp_all
  have hiff (k : BlockId) : (d.markDead id).function.IsOpen k ↔ d.function.IsOpen k := by
    simp only [Function.IsOpen, hget]
    cases d.function.blocks[k.index]? with
    | none => simp
    | some b =>
      simp only [Option.map_some, Option.some.injEq, exists_eq_left']
      split <;> rfl
  exact { h with
    sane := h.sane.markDead hopen
    continues := h.continues.trans (.markDead hopen)
    others := by
      intro k b hk hb
      have hne : id.index ≠ k := by
        have hlt := (Array.getElem?_eq_some_iff.1 hb).1
        have := h.waiting_new id hid
        omega
      rw [hget, h.others k b hk hb]
      simp [hne]
    blank := by
      intro k hk
      obtain ⟨b, hb, hinsts, hterm⟩ := h.blank k hk
      refine ⟨if id.index = k.index then { b with isUnreachable := true } else b, ?_, ?_, ?_⟩
      · rw [hget, hb]
        rfl
      · split <;> exact hinsts
      · split <;> exact hterm
    opens := fun k hk => h.opens k ((hiff k).1 hk)
    detached := by
      intro k
      rw [← h.detached k]
      simp [Function.IsDetached, Draft.markDead, Function.markDead] }

theorem enterDead (h : σ.Work base W L d) (hclosed : ¬d.function.IsOpen d.block) (label : String) :
    σ.Work base W L (d.enterDead label) := by
  have hw := (h.addBlock label).markDead (List.mem_cons_self ..)
  refine hw.enter (fun hopen => hclosed ?_) (.refl _)
  obtain ⟨b, hb, hopen⟩ := hopen
  have hne : d.nextBlock.index ≠ d.block.index := Nat.ne_of_gt h.sane.block_lt
  simp only [Draft.markDead, Function.markDead, Draft.addBlock, Draft.create, Draft.attach,
    Function.attach, Function.addBlock, Array.getElem?_modify, hne, ↓reduceIte,
    Array.getElem?_push, Nat.ne_of_lt h.sane.block_lt] at hb
  exact ⟨b, hb, hopen⟩

theorem bind (h : σ.Work base W L d) (x : String) {slot : SlotId}
    (hslot : slot.index < d.function.slots.size) : σ.Work base W L (d.bind x slot) := by
  have hmem : ∀ s ∈ (d.scopes.bind x slot).slots, s = slot ∨ s ∈ d.scopes.slots := by
    intro s hs
    cases hd : d.scopes with
    | nil => exact absurd hd h.sane.scopes
    | cons frame outer =>
      simp only [hd, Scopes.bind, Scopes.slots, List.headD_cons, List.tail_cons, List.flatten_cons,
        List.cons_append, List.map_cons, List.mem_cons] at hs ⊢
      exact hs
  exact { h with
    sane := { h.sane with
      scopes := by simp [Draft.bind, Scopes.bind]
      bound := by
        intro s hs
        rcases hmem s hs with rfl | hs
        · exact hslot
        · exact h.sane.bound s hs
      result := h.sane.result
      sound := fun m f hfinal => h.sane.sound m f (hfinal.of_same rfl rfl) }
    scopes := h.scopes }

end Work

theorem Ready.nest (h : σ.Ready d) : σ.Ready d.nest :=
  { h with
    scopes := by simp [Draft.nest, Scopes.enter]
    bound := by simpa [Draft.nest, Scopes.enter, Scopes.slots] using h.bound
    result := h.result
    sound := fun m f hfinal => h.sound m f (hfinal.of_same rfl rfl) }

/-- What was built in a nested frame counts for the work outside. -/
theorem Work.leave (h : σ.Ready d) (hw : σ.Work d.nest [] [] d') : σ.Work d [] [] d'.leave := by
  have hscopes : d'.scopes.leave = d.scopes := hw.scopes
  exact { hw with
    sane := { hw.sane with
      scopes := by simpa [Draft.leave, hscopes] using h.scopes
      bound := by
        intro s hs
        have := h.bound s (by simpa [Draft.leave, hscopes] using hs)
        exact Nat.lt_of_lt_of_le this hw.continues.slots_size
      result := hw.sane.result
      sound := fun m f hfinal => hw.sane.sound m f (hfinal.of_same rfl rfl) }
    scopes := congrArg List.tail hscopes
    blank := by simp
    notCurrent := by simp }

end Site

/-! ### What a change leaves in the code -/

theorem getElem?_modify_self {α : Type} {xs : Array α} {k : Nat} {a : α} (h : xs[k]? = some a)
    (change : α → α) : (xs.modify k change)[k]? = some (change a) := by
  rw [Array.getElem?_modify, if_pos rfl, h]
  rfl

namespace Ir.Function

def spot (f : Function) (k : BlockId) : Spot where
  block := k
  position := (f.blocks[k.index]?.map fun b => b.insts.size).getD 0
  fresh := f.values.size

variable {f g : Function} {k : BlockId} {action : Action} {info : ValueInfo}

theorem isOpen_emit (h : f.IsOpen k) (action : Action) (info? : Option ValueInfo) :
    (f.emit k action info?).IsOpen k := by
  obtain ⟨b, hb, hopen⟩ := h
  exact ⟨_, getElem?_modify_self hb _, hopen⟩

theorem spot_emit_value (h : f.IsOpen k) :
    (f.emit k action (some info)).spot k = (f.spot k).past := by
  obtain ⟨b, hb, -⟩ := h
  simp [spot, Spot.past, emit, hb, getElem?_modify_self hb]

theorem typeOf_emit_value : (f.emit k action (some info)).typeOf (f.spot k).value = .ok info.ty := by
  simp [typeOf, value, Spot.value, spot, emit, entry, Functor.map, Except.map]

theorem Continues.computes (h : (f.emit k action (some info)).Continues g) (hopen : f.IsOpen k) :
    g.Computes (f.spot k) action info.ty := by
  obtain ⟨b, hb, -⟩ := hopen
  have hemit : (f.emit k action (some info)).blocks[k.index]? =
      some { b with insts := b.insts.push ⟨some ⟨f.values.size⟩, action⟩ } :=
    getElem?_modify_self hb _
  obtain ⟨c, hc, hbc⟩ := h.blocks _ _ hemit
  refine ⟨⟨c, hc, hbc.insts _ _ ?_⟩, info.isComparison, h.values _ _ ?_⟩
  · simp [spot, hb]
  · simp [spot, Function.emit]

end Ir.Function

namespace Draft

variable {d : Draft} {action : Action} {info : ValueInfo} {id : BlockId} {t : Terminator}

theorem not_isOpen_close (d : Draft) (t : Terminator) :
    ¬(d.close t).function.IsOpen (d.close t).block := by
  rintro ⟨b, hb, hopen⟩
  simp only [close, Function.close, Array.getElem?_modify, ↓reduceIte, Option.map_eq_some_iff] at hb
  obtain ⟨c, -, rfl⟩ := hb
  simp at hopen

theorem isOpen_emit (h : d.function.IsOpen d.block) (action : Action) (info? : Option ValueInfo) :
    (d.emit action info?).function.IsOpen (d.emit action info?).block :=
  Function.isOpen_emit h action info?

theorem spot_emit (h : d.function.IsOpen d.block) : (d.emit action none).spot = d.spot.next := by
  obtain ⟨b, hb, -⟩ := h
  simp [spot, Spot.next, emit, Function.emit, hb, getElem?_modify_self hb]

theorem spot_emit_value (h : d.function.IsOpen d.block) :
    (d.emit action (some info)).spot = d.spot.past :=
  Function.spot_emit_value h

theorem spot_enter (h : d.Blank id) : (d.enter id).spot = .start id d.function.values.size := by
  obtain ⟨b, hb, hinsts, -⟩ := h
  simp [spot, Spot.start, enter, hb, hinsts]

theorem spot_enterDead (d : Draft) (label : String) :
    (d.enterDead label).spot = .start d.nextBlock d.function.values.size := by
  have hb : (d.create label).function.blocks[d.nextBlock.index]? = some _ :=
    Array.getElem?_push_size
  exact spot_enter ⟨_, getElem?_modify_self hb _, rfl, rfl⟩

end Draft

namespace Site.Final

variable {σ : Site} {d : Draft} {m : Module} {f : Function} {action : Action}

theorem performs (h : σ.Final (d.emit action none) m f) (hopen : d.function.IsOpen d.block) :
    f.Performs d.spot action := by
  obtain ⟨b, hb, -⟩ := hopen
  have hemit : (d.emit action none).function.blocks[d.block.index]? =
      some { b with insts := b.insts.push ⟨none, action⟩ } := getElem?_modify_self hb _
  obtain ⟨c, hc, hbc⟩ := h.continues.blocks _ _ hemit
  refine ⟨c, hc, hbc.insts _ _ ?_⟩
  simp [Draft.spot, hb]

theorem computes {info : ValueInfo} (h : σ.Final (d.emit action (some info)) m f)
    (hopen : d.function.IsOpen d.block) : f.Computes d.spot action info.ty :=
  h.continues.computes hopen

theorem ends {t : Terminator} (h : σ.Final (d.close t) m f) (hopen : d.function.IsOpen d.block) :
    f.Ends d.spot t := by
  obtain ⟨b, hb, -⟩ := hopen
  have hclose : (d.close t).function.blocks[d.block.index]? =
      some { b with terminator := some t } := getElem?_modify_self hb _
  obtain ⟨c, hc, hbc⟩ := h.continues.blocks _ _ hclose
  obtain rfl := hbc.closed (by simp)
  exact ⟨_, hc, by simp [Draft.spot, hb], rfl⟩

end Site.Final

end Quill
