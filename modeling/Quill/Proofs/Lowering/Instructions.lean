import Quill.Proofs.Lowering.Expr

/-! # Instructions and jumps of statements

What single instructions without a result add to a draft, and how work passes from one block to
another.
-/
namespace Quill

open Ir (Action Block BlockId Build FuncId Function Global Module Operand SlotId Slot Terminator Ty
  ValueInfo)
open Library (Direction)

/-! ### Blocks -/

namespace Draft

variable {d : Draft} {id : BlockId}

theorem isOpen_create (hlt : id.index < d.function.blocks.size) (label : String) :
    (d.create label).function.IsOpen id ↔ d.function.IsOpen id := by
  simp only [Function.IsOpen, create, Function.addBlock, Array.getElem?_push, Nat.ne_of_lt hlt,
    ↓reduceIte]

theorem spot_create (d : Draft) (hlt : d.block.index < d.function.blocks.size) (label : String) :
    (d.create label).spot = d.spot := by
  simp [spot, create, Function.addBlock, Array.getElem?_push, Nat.ne_of_lt hlt]

theorem spot_addBlock (d : Draft) (hlt : d.block.index < d.function.blocks.size) (label : String) :
    (d.addBlock label).spot = d.spot :=
  d.spot_create hlt label

end Draft

namespace Site

variable {σ : Site} {d base : Draft} {W L : List BlockId}

theorem Sane.nextBlock_not_mem (h : σ.Sane d) : d.nextBlock ∉ d.function.layout :=
  fun hmem => Nat.lt_irrefl _ (h.layout_lt _ hmem)

namespace Work

theorem br (h : σ.Work base W L d) (hopen : d.function.IsOpen d.block) {dest : BlockId}
    (hdest : dest.index < d.function.blocks.size) : σ.Work base W L (d.close (.br dest)) :=
  h.trans (.close (h.ready hopen) (fun _ _ _ _ => rfl) rfl (by simpa [Terminator.successors]))

theorem condBr (h : σ.Work base W L d) (hopen : d.function.IsOpen d.block) {c : Operand}
    {t e : BlockId} (hc : d.function.typeOf c = .ok .i1) (ht : t.index < d.function.blocks.size)
    (he : e.index < d.function.blocks.size) : σ.Work base W L (d.close (.condBr c t e)) :=
  h.trans (.close (h.ready hopen) (fun _ _ _ hf => Function.check_condBr (hf.continues.typeOf hc))
    rfl (by simp [Terminator.successors, ht, he]))

theorem unreachable (h : σ.Work base W L d) (hopen : d.function.IsOpen d.block) :
    σ.Work base W L (d.close .unreachable) :=
  h.trans (.close (h.ready hopen) (fun _ _ _ _ => rfl) rfl (by simp [Terminator.successors]))

theorem waiting_lt (h : σ.Work base W L d) {id : BlockId} (hid : id ∈ W) :
    id.index < d.function.blocks.size :=
  (h.blank id hid).isOpen.lt

end Work

end Site

namespace Lower

open Site

variable {σ : Site} {d : Draft}

/-- One more block is there; the current one is as it was. -/
structure Extends (σ : Site) (base : Draft) (W L : List BlockId) (d d' : Draft) : Prop where
  work : σ.Work base W L d'
  isOpen : d'.function.IsOpen d'.block ↔ d.function.IsOpen d.block
  spot : d'.spot = d.spot
  scopes : d'.scopes = d.scopes
  continues : d.function.Continues d'.function
  globals : d'.globals = d.globals

structure Ends (σ : Site) (base : Draft) (W L : List BlockId) (d : Draft) (t : Terminator)
    (d' : Draft) : Prop where
  work : σ.Work base W L d'
  closed : ¬d'.function.IsOpen d'.block
  scopes : d'.scopes = d.scopes
  continues : d.function.Continues d'.function
  globals : d'.globals = d.globals
  ends : ∀ m f, σ.Final d' m f → f.Ends d.spot t

structure Enters (σ : Site) (base : Draft) (W L : List BlockId) (d : Draft) (id : BlockId)
    (d' : Draft) : Prop where
  work : σ.Work base W L d'
  isOpen : d'.function.IsOpen d'.block
  spot : ∃ n, d'.spot = .start id n
  scopes : d'.scopes = d.scopes
  continues : d.function.Continues d'.function
  globals : d'.globals = d.globals

section
variable {base : Draft} {W L : List BlockId}

theorem Extends.earlier {d' m f} (h : Extends σ base W L d d') (hf : σ.Final d' m f) :
    σ.Final d m f :=
  hf.earlier h.continues fun _ _ hg => h.globals ▸ hg

theorem Ends.earlier {t d' m f} (h : Ends σ base W L d t d') (hf : σ.Final d' m f) :
    σ.Final d m f :=
  hf.earlier h.continues fun _ _ hg => h.globals ▸ hg

theorem Enters.earlier {id d' m f} (h : Enters σ base W L d id d') (hf : σ.Final d' m f) :
    σ.Final d m f :=
  hf.earlier h.continues fun _ _ hg => h.globals ▸ hg

theorem Enters.ready {id d'} (h : Enters σ base W L d id d') : σ.Ready d' := ⟨h.work.sane, h.isOpen⟩

theorem Enters.index_lt {id d'} (h : Enters σ base W L d id d') :
    id.index < d'.function.blocks.size := by
  obtain ⟨n, hn⟩ := h.spot
  obtain rfl : d'.block = id := congrArg Spot.block hn
  exact h.work.sane.block_lt

theorem createBlock_leads (hw : σ.Work base W L d) (label : String) :
    σ.Leads (build (Build.createBlock label)) d fun id =>
      Extends σ base (id :: W) (id :: L) d :=
  .of_run (build_run (createBlock_run label))
    { work := hw.create label
      isOpen := Draft.isOpen_create hw.sane.block_lt label
      spot := d.spot_create hw.sane.block_lt label
      scopes := rfl
      continues := .addBlock _ _
      globals := rfl }

theorem newBlock_leads (hw : σ.Work base W L d) (label : String) :
    σ.Leads (newBlock label) d fun id => Extends σ base (id :: W) L d :=
  .of_run (newBlock_run label hw.sane.nextBlock_not_mem)
    { work := hw.addBlock label
      isOpen := Draft.isOpen_create hw.sane.block_lt label
      spot := d.spot_addBlock hw.sane.block_lt label
      scopes := rfl
      continues := .trans (.addBlock _ _) (.attach _ _)
      globals := rfl }

theorem appendBlock_leads {id : BlockId} (hw : σ.Work base W (id :: L) d) :
    σ.Leads (build (Build.appendBlock id)) d fun _ => Extends σ base W L d :=
  .of_run (build_run (appendBlock_run ((hw.detached id).2 (.inl (List.mem_cons_self ..))).2))
    { work := hw.attach
      isOpen := .rfl
      spot := rfl
      scopes := rfl
      continues := .attach _ _
      globals := rfl }

theorem ends_of_work {t : Terminator} (hopen : d.function.IsOpen d.block)
    (hw : σ.Work base W L (d.close t)) :
    σ.Leads (build (Build.terminate t)) d fun _ => Ends σ base W L d t :=
  .of_run (build_run (terminate_run hopen t))
    { work := hw
      closed := d.not_isOpen_close t
      scopes := rfl
      continues := .close hopen t
      globals := rfl
      ends := fun _ _ hf => hf.ends hopen }

theorem br_leads (hw : σ.Work base W L d) (hopen : d.function.IsOpen d.block) {dest : BlockId}
    (hdest : dest.index < d.function.blocks.size) :
    σ.Leads (build (Build.br dest)) d fun _ => Ends σ base W L d (.br dest) :=
  ends_of_work hopen (hw.br hopen hdest)

theorem condBr_leads (hw : σ.Work base W L d) (hopen : d.function.IsOpen d.block) {c : Operand}
    {t e : BlockId} (hc : d.function.typeOf c = .ok .i1) (ht : t.index < d.function.blocks.size)
    (he : e.index < d.function.blocks.size) :
    σ.Leads (build (Build.condBr c t e)) d fun _ => Ends σ base W L d (.condBr c t e) :=
  ends_of_work hopen (hw.condBr hopen hc ht he)

theorem switchTo_leads (hw : σ.Work base W L d) (hclosed : ¬d.function.IsOpen d.block)
    {id : BlockId} {W' : List BlockId} (hW : W.Perm (id :: W')) :
    σ.Leads (build (Build.switchTo id)) d fun _ => Enters σ base W' L d id :=
  have hblank := hw.blank id (hW.mem_iff.2 (List.mem_cons_self ..))
  .of_run (build_run (switchTo_run id))
    { work := hw.enter hclosed hW
      isOpen := hblank.isOpen
      spot := ⟨_, Draft.spot_enter hblank⟩
      scopes := rfl
      continues := .refl _
      globals := rfl }

/-- The current block has ended with a jump to `dest`, and work goes on at the beginning of
`id`. -/
structure Jumps (σ : Site) (base : Draft) (W L : List BlockId) (d : Draft) (dest id : BlockId)
    (d' : Draft) : Prop extends Enters σ base W L d id d' where
  ends : ∀ m f, σ.Final d' m f → f.Ends d.spot (.br dest)

/-- Work goes on in a new block, to which the current one leads. -/
theorem jump_leads {α : Type} {label : String} {next : BlockId → Lower α} {Q : α → Draft → Prop}
    (hw : σ.Work base W L d) (hopen : d.function.IsOpen d.block)
    (hnext : ∀ id d', Jumps σ base W L d id id d' → σ.Leads (next id) d' Q) :
    σ.Leads (do
      let id ← newBlock label
      build (Build.br id)
      build (Build.switchTo id)
      next id) d Q := by
  refine (newBlock_leads hw _).bind fun id d₁ h₁ => ?_
  have hid : id.index < d₁.function.blocks.size := h₁.work.waiting_lt (by simp)
  refine (br_leads h₁.work (h₁.isOpen.2 hopen) hid).bind fun _ d₂ h₂ => ?_
  refine (switchTo_leads h₂.work h₂.closed (.refl (id :: W))).bind fun _ d₃ h₃ => ?_
  exact hnext id d₃ { h₃ with
    scopes := h₃.scopes.trans (h₂.scopes.trans h₁.scopes)
    continues := h₁.continues.trans (h₂.continues.trans h₃.continues)
    globals := h₃.globals.trans (h₂.globals.trans h₁.globals)
    ends := fun m f hf => h₁.spot ▸ h₂.ends m f (h₃.earlier hf) }

/-- Work goes on in a block that has been waiting for its place behind the current one. -/
theorem land_leads {dest id : BlockId} {W' : List BlockId} (hw : σ.Work base W (id :: L) d)
    (hopen : d.function.IsOpen d.block) (hdest : dest.index < d.function.blocks.size)
    (hW : W.Perm (id :: W')) :
    σ.Leads (do
      build (Build.br dest)
      build (Build.appendBlock id)
      build (Build.switchTo id)) d fun _ => Jumps σ base W' L d dest id := by
  refine (br_leads hw hopen hdest).bind fun _ d₁ h₁ => ?_
  refine (appendBlock_leads h₁.work).bind fun _ d₂ h₂ => ?_
  refine (switchTo_leads h₂.work (mt h₂.isOpen.1 h₁.closed) hW).mono fun _ d₃ h₃ => ?_
  exact { h₃ with
    scopes := h₃.scopes.trans (h₂.scopes.trans h₁.scopes)
    continues := h₁.continues.trans (h₂.continues.trans h₃.continues)
    globals := h₃.globals.trans (h₂.globals.trans h₁.globals)
    ends := fun m f hf => h₁.ends m f (h₂.earlier (h₃.earlier hf)) }

theorem land_leads_bind {α : Type} {dest id : BlockId} {W' : List BlockId} {next : Lower α}
    {Q : α → Draft → Prop} (hw : σ.Work base W (id :: L) d) (hopen : d.function.IsOpen d.block)
    (hdest : dest.index < d.function.blocks.size) (hW : W.Perm (id :: W'))
    (hnext : ∀ d', Jumps σ base W' L d dest id d' → σ.Leads next d' Q) :
    σ.Leads (do
      build (Build.br dest)
      build (Build.appendBlock id)
      build (Build.switchTo id)
      next) d Q := by
  have h := (land_leads hw hopen hdest hW).bind fun _ d' h' => hnext d' h'
  simpa only [bind_assoc] using h

theorem continueUnreachable_leads (hw : σ.Work base W L d) (hclosed : ¬d.function.IsOpen d.block)
    (label : String) :
    σ.Leads (continueUnreachable label) d fun _ d' => ∃ id, Enters σ base W L d id d' := by
  have hopen : (d.addBlock label).function.IsOpen d.nextBlock := ⟨_, Array.getElem?_push_size, rfl⟩
  have hmark : (d.enterDead label).function.IsOpen d.nextBlock :=
    ⟨_, getElem?_modify_self Array.getElem?_push_size _, rfl⟩
  unfold continueUnreachable
  refine .step (newBlock_run label hw.sane.nextBlock_not_mem) ?_
  refine .step (build_run (markUnreachable_run hopen)) (.of_run (build_run (switchTo_run _)) ?_)
  exact ⟨d.nextBlock, {
    work := hw.enterDead hclosed label
    isOpen := hmark
    spot := ⟨_, d.spot_enterDead label⟩
    scopes := rfl
    continues := .trans (.trans (.addBlock _ _) (.attach _ _)) (.markDead hopen)
    globals := rfl }⟩

end

/-! ### Single instructions -/

structure Acts (σ : Site) (d : Draft) (code : Module → Function → Spot → Spot → Prop)
    (d' : Draft) : Prop where
  straight : σ.Straight d d'
  code : ∀ m f, σ.Final d' m f → code m f d.spot d'.spot

theorem Acts.ready {code d'} (h : Acts σ d code d') : σ.Ready d' := h.straight.ready

theorem store_leads (h : σ.Ready d) {slot : SlotId} {v : Operand} {ty : Ty}
    (hs : d.function.HasSlot slot ty) (hv : d.function.typeOf v = .ok ty) :
    σ.Leads (build (Build.store slot v)) d fun _ =>
      Acts σ d fun _ f p q => f.Performs p (.store slot v) ∧ q = p.next := by
  obtain ⟨name, hname⟩ := hs
  refine .of_run (build_run (store_run h.isOpen slot v)) ⟨.emit h fun m f hf => ?_, ?_⟩
  · exact Function.check_store (hf.continues.typeOf hv) (h.slots _ _ hname)
      (hf.continues.slots _ _ hname)
  · exact fun m f hf => ⟨hf.performs h.isOpen, Draft.spot_emit h.isOpen⟩

theorem alloca_leads (h : σ.Ready d) (name : String) {ty : Ty} (hty : ty ≠ .void) :
    σ.Leads (build (Build.alloca name ty)) d fun slot d' => slot = d.nextSlot ∧
      d'.function.HasSlot slot ty ∧
      Acts σ d (fun _ f p q => f.Performs p (.alloca slot) ∧ q = p.next) d' := by
  have hw := Work.addSlot h name hty
  have hready : σ.Ready (d.addSlot name ty) := ⟨hw.sane, h.isOpen⟩
  have hs : σ.Straight (d.addSlot name ty) ((d.addSlot name ty).emit (.alloca d.nextSlot) none) :=
    .emit hready fun _ _ _ => rfl
  refine .of_run (build_run (alloca_run h.isOpen name ty)) ⟨rfl, ?_, ?_, ?_⟩
  · exact ⟨name, Array.getElem?_push_size⟩
  · exact ⟨hw.trans hs.work, hs.isOpen, rfl, rfl⟩
  · intro m f hf
    exact ⟨hf.performs hready.isOpen, Draft.spot_emit hready.isOpen⟩

/-- The slot that comes next is neither bound nor the one of the result. -/
theorem nextSlot_fresh (h : σ.Ready d) {frame : BodyFrame} (hframe : d.frame = some frame) :
    d.nextSlot ∉ d.scopes.slots ∧ frame.result ≠ some d.nextSlot := by
  refine ⟨fun hmem => Nat.lt_irrefl _ (h.bound _ hmem), fun heq => ?_⟩
  have hfits := h.result frame hframe
  rw [heq] at hfits
  obtain ⟨name, hname⟩ := hfits
  exact Nat.lt_irrefl _ (Array.getElem?_eq_some_iff.1 hname).1

/-! ### Calls of the outside functions -/

theorem format_leads (h : σ.Ready d) {ty : Ty} (dir : Direction) (hty : ty.isNumber) :
    σ.Leads (format ty dir) d fun v d' => d'.function.typeOf v = .ok (.pointerTo .i8) ∧
      Acts σ d (fun m _ p q => m.HasFormat ty dir v ∧ q = p) d' := by
  unfold format
  refine .step (a := σ.working d) rfl ?_
  cases hlookup : d.formats.lookup (ty, dir) with
  | some v =>
    obtain ⟨id, name, rfl, hglobal⟩ := h.formats _ _ _ hlookup
    simp only [Site.working, hlookup]
    refine .pure ⟨rfl, .refl h, fun m f hf => ⟨⟨id, name, rfl, hf.globals _ _ hglobal⟩, rfl⟩⟩
  | none =>
    have hnum : (!ty.isInt && !ty.isFloat) = false := by rw [Ty.not_isNumber, hty]; rfl
    simp only [Site.working, hlookup, hnum, Bool.false_eq_true, ↓reduceIte]
    refine .step (build_run (addString_run _ _)) ?_
    let made : Global := ⟨s!"format.{d.globals.size}", Library.format ty dir⟩
    let d' : Draft := { d with
      globals := d.globals.push made
      formats := ((ty, dir), .global ⟨d.globals.size⟩) :: d.formats }
    have hkeep (k : Nat) (g : Global) (hg : d.globals[k]? = some g) : d'.globals[k]? = some g :=
      Function.Continues.push_getElem? hg _
    have hnew : d'.globals[d.globals.size]? = some made := Array.getElem?_push_size
    have hsane : σ.Sane d' := { h.toSane with
      formats := by
        intro ty' dir' v hv
        simp only [d', List.lookup_cons] at hv
        split at hv
        · rename_i heq
          obtain ⟨rfl, rfl⟩ := Prod.mk.inj (eq_of_beq heq)
          obtain rfl := Option.some.inj hv
          exact ⟨_, _, rfl, hnew⟩
        · obtain ⟨id, name, rfl, hg⟩ := h.formats _ _ _ hv
          exact ⟨id, name, rfl, hkeep _ _ hg⟩
      result := h.result
      sound := fun m f hf => h.sound m f (hf.earlier (.refl _) hkeep) }
    have hw : σ.Work d [] [] d' :=
      .inPlace h hsane (.refl _) hkeep rfl rfl rfl rfl fun _ _ => rfl
    refine .of_run (show _ = (_, σ.working d') from rfl) ⟨rfl, ⟨hw, h.isOpen, rfl, rfl⟩, fun m f hf => ?_⟩
    exact ⟨⟨_, _, rfl, hf.globals _ _ hnew⟩, rfl⟩

/-- Printing and reading take a format text and one more operand, and give a word. -/
theorem libraryCall_leads (h : σ.Ready d) {id : FuncId} (hid : id = Library.printId ∨ id = Library.readId)
    {format v : Operand} {ty : Ty} (hformat : d.function.typeOf format = .ok (.pointerTo .i8))
    (hv : d.function.typeOf v = .ok ty) (hty : ty ≠ .void) :
    σ.Leads (build (Build.call id [format, v])) d
      (Gives σ d (fun _ f => f.Makes (.call id [format, v]) .i32) .i32) := by
  have hg : ∃ g : Function, g.ret = .i32 ∧ g.params.map Ir.Param.ty = [.pointerTo .i8] ∧
      g.isVariadic = true ∧ ∀ m, Library.IsIn m → m.functions[id.index]? = some g := by
    rcases hid with rfl | rfl
    · exact ⟨_, rfl, rfl, rfl, fun m hm => hm.print⟩
    · exact ⟨_, rfl, rfl, rfl, fun m hm => hm.read⟩
  obtain ⟨g, hret, hparams, hvar, hfinal⟩ := hg
  have hfunction : (σ.builder d).module.function id = .ok g :=
    Ir.entry_eq_ok.2 (hfinal _ isIn_builder)
  have hlen : g.params.length = 1 := by simpa using congrArg List.length hparams
  have hrun := call_run h.isOpen hfunction [format, v]
  have hinfo : callInfo? g = some ⟨.i32, false⟩ := by simp [callInfo?, hret, Ty.isVoid, Ty.i32, Ty.void]
  have hop : callOperand d g = d.nextValue := by
    simp [callOperand, hret, Ty.isVoid, Ty.i32, Ty.void]
  rw [hinfo, hop] at hrun
  refine computes_leads h hrun (by decide) (by simp) fun m f hf => ?_
  refine Function.check_call (hfinal m hf.outside) (.inr ⟨hvar, by simp [hlen]⟩) fun k w hw => ?_
  rcases k with _ | _ | k
  · cases hw
    refine ⟨_, hf.continues.typeOf hformat, by decide, fun p hp => ?_⟩
    have := congrArg (·[0]?) hparams
    simpa [hp] using this
  · cases hw
    refine ⟨_, hf.continues.typeOf hv, hty, fun p hp => ?_⟩
    have := (List.getElem?_eq_some_iff.1 hp).1
    omega
  · simp at hw

end Lower

end Quill
