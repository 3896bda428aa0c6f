import Mathlib.Logic.Relation
import Quill.Lowering.Basic
import Quill.Proofs.Ir.Paths
import Quill.Proofs.Lowering.Code

/-! # Charts of a body

A chart is a function under construction together with what its author keeps in mind: which names
are given on every way to a block, and to where work goes on, which blocks still have to be
attached, and which have left for the exit. Lowering changes it in a few ways, under conditions
that depend on nothing else.
-/
namespace Quill

open Ir (Action Block BlockId FuncId Function Inst Name Operand SlotId Terminator Ty ValueInfo)

def entryId : BlockId := ⟨0⟩

/-- The block that returns; it is made before the statements of the body. -/
def exitId : BlockId := ⟨1⟩

structure Chart where
  function : Function
  /-- Where work goes on. -/
  block : BlockId
  scopes : Scopes
  frame : Option BodyFrame
  /-- The names that are given on every way to the beginning of a block. -/
  before : BlockId → List Name
  /-- The names that are given where work goes on. -/
  known : List Name
  /-- The blocks that are not attached. -/
  loose : List BlockId
  /-- The blocks that have left for the exit, in order. -/
  leaves : List BlockId

namespace Ir.Function

/-- The block exists, and edges may lead to it. -/
def IsLive (f : Function) (id : BlockId) : Prop :=
  ∃ b, f.blocks[id.index]? = some b ∧ b.isUnreachable = false

def lastOf (f : Function) (id : BlockId) : Option Inst :=
  f.blocks[id.index]?.bind (·.insts.back?)

theorem IsLive.lt {f : Function} {id : BlockId} (h : f.IsLive id) :
    id.index < f.blocks.size := by
  obtain ⟨b, hb, -⟩ := h
  exact (Array.getElem?_eq_some_iff.1 hb).1

end Ir.Function

namespace Chart

section
variable (c : Chart)

def nextBlock : BlockId := ⟨c.function.blocks.size⟩

def nextSlot : SlotId := ⟨c.function.slots.size⟩

def nextInst (action : Action) (info? : Option ValueInfo) : Inst :=
  ⟨info?.map fun _ => ⟨c.function.values.size⟩, action⟩

/-- On the way to a new block lies whatever lies on the way to here. -/
def create (label : String) : Chart :=
  { c with
    function := c.function.addBlock label
    before := fun id => if id = c.nextBlock then c.known else c.before id
    loose := c.nextBlock :: c.loose }

def attach (id : BlockId) : Chart :=
  { c with function := c.function.attach id, loose := c.loose.erase id }

def markDead (id : BlockId) : Chart := { c with function := c.function.markDead id }

def enter (id : BlockId) : Chart := { c with block := id, known := c.before id }

def enterDead (label : String) : Chart :=
  (((c.create label).attach c.nextBlock).markDead c.nextBlock).enter c.nextBlock

def emit (action : Action) (info? : Option ValueInfo) : Chart :=
  { c with
    function := c.function.emit c.block action info?
    known := (c.nextInst action info?).gives ++ c.known }

def reserve (name : String) (ty : Ty) : Chart :=
  { c with
    function := (c.function.addSlot name ty).emit c.block (.alloca c.nextSlot) none
    known := .slot c.nextSlot :: c.known }

def close (t : Terminator) : Chart := { c with function := c.function.close c.block t }

def leave : Chart :=
  { c with function := c.function.close c.block (.br exitId), leaves := c.leaves ++ [c.block] }

def withScopes (scopes : Scopes) : Chart := { c with scopes }

def withFrame (frame : Option BodyFrame) : Chart := { c with frame }

def last : Option Inst := c.function.lastOf c.block

structure Accepts (id : BlockId) : Prop where
  ne_entry : id ≠ entryId
  live : c.function.IsLive id
  before : c.before id ⊆ c.known

/-- The current block may end like this. -/
structure CanEnd (t : Terminator) : Prop where
  uses : t.uses ⊆ c.known
  targets : ∀ id ∈ t.successors, c.Accepts id ∧ id ≠ exitId
  ret : t.isReturn → c.block = exitId
  unreachable : t = .unreachable → ∃ r, c.last = some ⟨r, .call Library.abortId []⟩

end

/-- What lowering does to a chart at a time. -/
inductive Step : Chart → Chart → Prop
  /-- Variables come into sight and leave it. -/
  | look {c} (scopes : Scopes) (frame : Option BodyFrame) : Step c { c with scopes, frame }
  | create {c} (label : String) : Step c (c.create label)
  | attach {c id} : id ∈ c.loose → Step c (c.attach id)
  | enter {c id} : id.index < c.function.blocks.size → c.block ≠ exitId → Step c (c.enter id)
  | enterDead {c} (label : String) : c.block ≠ exitId → Step c (c.enterDead label)
  | emit {c action} (info? : Option ValueInfo) : c.function.IsOpen c.block →
      action.uses ⊆ c.known → action.reserves = [] → Step c (c.emit action info?)
  | reserve {c} (name : String) (ty : Ty) : c.function.IsOpen c.block →
      Step c (c.reserve name ty)
  | close {c t} : c.function.IsOpen c.block → c.CanEnd t → Step c (c.close t)
  | leave {c} : c.function.IsOpen c.block → c.Accepts exitId → Step c c.leave

def Reaches : Chart → Chart → Prop := Relation.ReflTransGen Step

theorem Reaches.keeps {P : Chart → Prop} {c c' : Chart} (h : c.Reaches c')
    (hstep : ∀ {c c'}, Step c c' → P c → P c') (hc : P c) : P c' := by
  induction h with
  | refl => exact hc
  | tail _ hs ih => exact hstep hs ih

namespace Reaches

variable {c c₁ c' : Chart}

theorem refl (c : Chart) : c.Reaches c := Relation.ReflTransGen.refl

theorem trans (h : c.Reaches c₁) (h' : c₁.Reaches c') : c.Reaches c' :=
  Relation.ReflTransGen.trans h h'

theorem of_step (h : Step c c') : c.Reaches c' := Relation.ReflTransGen.single h

end Reaches

/-! ### What all steps keep -/

variable {c c' : Chart} {id : BlockId}

theorem Step.continues (h : Step c c') : c.function.Continues c'.function := by
  cases h with
  | look | enter => exact .refl _
  | create label => exact .addBlock _ label
  | attach => exact .attach _ _
  | enterDead label =>
    have hopen : ((c.create label).attach c.nextBlock).function.IsOpen c.nextBlock :=
      ⟨_, Array.getElem?_push_size, rfl⟩
    exact .trans (.addBlock _ label) (.trans (.attach _ _) (.markDead hopen))
  | emit info? hopen => exact .emit hopen _ info?
  | reserve name ty hopen =>
    have hopen' : (c.function.addSlot name ty).IsOpen c.block := hopen
    exact .trans (.addSlot _ name ty) (.emit hopen' _ none)
  | close hopen | leave hopen => exact .close hopen _

theorem Reaches.continues (h : c.Reaches c') : c.function.Continues c'.function := by
  induction h with
  | refl => exact .refl _
  | tail _ hs ih => exact ih.trans hs.continues

/-- What lies on the way to a block is settled when the block is made. -/
theorem Step.before_eq (h : Step c c') (hid : id.index < c.function.blocks.size) :
    c'.before id = c.before id := by
  have hne : id ≠ c.nextBlock := by
    rintro rfl
    exact Nat.lt_irrefl _ hid
  cases h with
  | create | enterDead => exact if_neg hne
  | _ => rfl

theorem Reaches.before_eq (h : c.Reaches c') (hid : id.index < c.function.blocks.size) :
    c'.before id = c.before id := by
  induction h with
  | refl => rfl
  | tail h hs ih =>
    have hlt := Nat.lt_of_lt_of_le hid (Reaches.continues h).blocks_size
    exact (hs.before_eq hlt).trans ih

end Chart

namespace Ir.Function.IsLive

variable {f g : Function} {id : BlockId}

theorem push {b : Block} (hg : g.blocks = f.blocks.push b) (h : f.IsLive id) : g.IsLive id := by
  obtain ⟨b, hb, hlive⟩ := h
  exact ⟨b, hg ▸ Continues.push_getElem? hb _, hlive⟩

theorem modify {k : Nat} {e : Block → Block} (hg : g.blocks = f.blocks.modify k e)
    (he : ∀ b, (e b).isUnreachable = b.isUnreachable) (h : f.IsLive id) : g.IsLive id := by
  obtain ⟨b, hb, hlive⟩ := h
  unfold IsLive
  rw [hg, Array.getElem?_modify, hb]
  split
  · exact ⟨e b, rfl, (he b).trans hlive⟩
  · exact ⟨b, rfl, hlive⟩

end Ir.Function.IsLive

namespace Chart

variable {c c' : Chart} {id : BlockId} {t : Terminator}

/-- A step leaves the blocks alone, adds one that is empty, or changes the current one. -/
theorem Step.blocks (h : Step c c') : c'.function.blocks = c.function.blocks ∨
    (∃ b, c'.function.blocks = c.function.blocks.push b ∧ b.insts = #[] ∧ b.terminator = none) ∨
    ∃ e, c'.function.blocks = c.function.blocks.modify c.block.index e ∧
      ∀ b, (e b).isUnreachable = b.isUnreachable := by
  cases h with
  | look | enter | attach => exact .inl rfl
  | create label => exact .inr (.inl ⟨_, rfl, rfl, rfl⟩)
  | enterDead label =>
    refine .inr (.inl ⟨⟨label, #[], none, true⟩, Array.ext_getElem? fun k => ?_, rfl, rfl⟩)
    simp only [Chart.enterDead, Chart.enter, Chart.markDead, Chart.attach, Chart.create, nextBlock,
      Function.markDead, Function.attach, Function.addBlock, Array.getElem?_modify,
      Array.getElem?_push]
    by_cases hk : c.function.blocks.size = k
    · simp [hk]
    · simp [hk, Ne.symm hk]
  | emit | reserve =>
    exact .inr (.inr ⟨fun b => { b with insts := b.insts.push _ }, rfl, fun _ => rfl⟩)
  | close | leave =>
    exact .inr (.inr ⟨fun b => { b with terminator := some _ }, rfl, fun _ => rfl⟩)

theorem Step.isLive (h : Step c c') (hid : c.function.IsLive id) : c'.function.IsLive id := by
  rcases h.blocks with hsame | ⟨b, hpush, -⟩ | ⟨e, hmodify, he⟩
  · unfold Function.IsLive
    rwa [hsame]
  · exact hid.push hpush
  · exact hid.modify hmodify he

theorem Reaches.isLive (h : c.Reaches c') (hid : c.function.IsLive id) :
    c'.function.IsLive id :=
  Reaches.keeps (P := fun c => c.function.IsLive id) h (fun hs => hs.isLive) hid

theorem Step.terminatorOf (h : Step c c') (ht : c'.function.terminatorOf id = some t) :
    c.function.terminatorOf id = some t ∨
      id = c.block ∧ c.function.IsOpen c.block ∧
        (c' = c.close t ∧ c.CanEnd t ∨ c' = c.leave ∧ t = .br exitId ∧ c.Accepts exitId) := by
  cases h with
  | look | enter => exact .inl ht
  | create label => exact .inl (by simpa [Chart.create] using ht)
  | attach => exact .inl (by simpa [Chart.attach] using ht)
  | enterDead label =>
    exact .inl (by simpa [Chart.enterDead, Chart.enter, Chart.markDead, Chart.attach, Chart.create]
      using ht)
  | emit info? => exact .inl (by simpa [Chart.emit] using ht)
  | reserve name ty => exact .inl (by simpa [Chart.reserve] using ht)
  | close hopen hend =>
    simp only [Chart.close, Function.terminatorOf_close hopen.lt] at ht
    split at ht
    · cases ht
      exact .inr ⟨‹_›, hopen, .inl ⟨rfl, hend⟩⟩
    · exact .inl ht
  | leave hopen haccepts =>
    simp only [Chart.leave, Function.terminatorOf_close hopen.lt] at ht
    split at ht
    · cases ht
      exact .inr ⟨‹_›, hopen, .inr ⟨rfl, rfl, haccepts⟩⟩
    · exact .inl ht

end Chart

end Quill
