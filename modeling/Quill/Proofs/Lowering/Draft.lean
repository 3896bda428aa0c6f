import Quill.Proofs.Ir.Requests
import Quill.Proofs.Lowering.Code
import Quill.Proofs.Lowering.Outcomes

/-! # Drafts of a body

While a body is lowered only a few parts of the state change. A draft holds these, and each
operation of lowering is described by what it makes of the draft.
-/
namespace Quill

open Ir (Action BlockId Build Builder FuncId Function Global Module Operand SlotId Slot Terminator Ty
  ValueInfo)
open Library (Direction)

/-- What changes while the body of a function is lowered. -/
structure Draft where
  function : Function
  block : BlockId
  globals : Array Global
  formats : List ((Ty × Direction) × Operand)
  scopes : Scopes
  frame : Option BodyFrame

/-- Where a body is lowered: all functions are declared, and one of them is at work. -/
structure Site where
  state : Lowering
  id : FuncId
  id_lt : id.index < state.builder.module.functions.size
  isOwn : 3 ≤ id.index
  library : state.library = ⟨⟨0⟩, ⟨1⟩, ⟨2⟩⟩
  outside : Library.IsIn state.builder.module
  callable : ∀ name f, state.functions.lookup name = some f →
    f.index < state.builder.module.functions.size
  params : ∀ f ∈ state.builder.module.functions, ∀ p ∈ f.params, p.ty ≠ .void

namespace Site

variable (σ : Site)

def module : Module := σ.state.builder.module

def builder (d : Draft) : Builder where
  module :=
    { σ.module with
      functions := σ.module.functions.setIfInBounds σ.id.index d.function
      globals := d.globals }
  function? := some σ.id
  block? := some d.block

def working (d : Draft) : Lowering :=
  { σ.state with
    builder := σ.builder d
    scopes := d.scopes
    formats := d.formats
    frame := d.frame }

end Site

namespace Draft

variable (d : Draft)

def enter (id : BlockId) : Draft := { d with block := id }

def create (label : String) : Draft := { d with function := d.function.addBlock label }

def attach (id : BlockId) : Draft := { d with function := d.function.attach id }

def markDead (id : BlockId) : Draft := { d with function := d.function.markDead id }

def addSlot (name : String) (ty : Ty) : Draft := { d with function := d.function.addSlot name ty }

def emit (action : Action) (info? : Option ValueInfo) : Draft :=
  { d with function := d.function.emit d.block action info? }

def close (t : Terminator) : Draft := { d with function := d.function.close d.block t }

def nextBlock : BlockId := ⟨d.function.blocks.size⟩

def nextSlot : SlotId := ⟨d.function.slots.size⟩

def nextValue : Operand := .inst ⟨d.function.values.size⟩

end Draft

/-! ### The builder on a draft -/

namespace Ir.Build

section
variable {α β : Type} (b : Builder)

theorem bind_apply (x : Build α) (f : α → Build β) : (x >>= f) b = (x b).bind fun r => f r.1 r.2 :=
  rfl

theorem map_apply (f : α → β) (x : Build α) : (f <$> x) b = (x b).map fun r => (f r.1, r.2) := by
  change (x b).bind _ = _
  cases x b <;> rfl

theorem get_apply : (get : Build Builder) b = .ok (b, b) := rfl

theorem modify_apply (f : Builder → Builder) : (modify f : Build Unit) b = .ok ((), f b) := rfl

theorem ofExcept_apply (e : Except Fault α) : ofExcept e b = e.map (·, b) := rfl

theorem discard_apply (x : Build α) : discard x b = (x b).map fun r => ((), r.2) := map_apply b _ x

theorem bind_of_ok {x : Build α} {a : α} {c : Builder} (h : x b = .ok (a, c)) (f : α → Build β) :
    (x >>= f) b = f a c := by
  rw [bind_apply, h]
  rfl

variable {b : Builder} {id : FuncId} {f : Function}

theorem currentFunctionId_ok (hid : b.function? = some id) : currentFunctionId b = .ok (id, b) := by
  unfold currentFunctionId
  rw [bind_of_ok _ (get_apply _), hid]
  rfl

theorem currentFunction_ok (hid : b.function? = some id) (hf : b.module.function id = .ok f) :
    currentFunction b = .ok (f, b) := by
  unfold currentFunction
  rw [bind_of_ok _ (currentFunctionId_ok hid), bind_of_ok _ (get_apply _), ofExcept_apply, hf]
  rfl

theorem update_ok (hid : b.function? = some id) (hf : b.module.function id = .ok f)
    (change : Function → Function) :
    update change b = .ok ((), { b with module := { b.module with
      functions := b.module.functions.setIfInBounds id.index (change f) } }) := by
  have hset := modify_eq_setIfInBounds (Ir.entry_eq_ok.1 hf) change
  unfold update modifyFunction
  rw [bind_of_ok _ (currentFunctionId_ok hid), bind_of_ok _ (get_apply _), bind_apply,
    discard_apply, ofExcept_apply, hf]
  simp only [Except.map, Except.bind, modify_apply, hset]

end

end Ir.Build

/-- The builder is at work on that block of the function, and may add to it. -/
structure Ir.Builder.IsIn (b : Builder) (id : FuncId) (f : Function) (k : BlockId) : Prop where
  worksOn : b.WorksOn id f
  block : b.block? = some k
  isOpen : f.IsOpen k

theorem Ir.Builder.IsIn.withFunction {b : Builder} {id : FuncId} {f g : Function} {k : BlockId}
    (h : b.IsIn id f k) (hg : g.IsOpen k) : (b.withFunction id g).IsIn id g k :=
  ⟨h.worksOn.withFunction g, h.block, hg⟩

namespace Ir.Build

variable {b : Builder} {id : FuncId} {f : Function} {k : BlockId}

theorem typeOf_ok {v : Operand} {ty : Ty} (h : b.WorksOn id f) (hv : f.typeOf v = .ok ty) :
    typeOf v b = .ok (ty, b) := by
  unfold typeOf
  rw [bind_of_ok _ (currentFunction_ok h.1 (Ir.entry_eq_ok.2 h.2)), ofExcept_apply, hv]
  rfl

theorem push_ok (h : b.IsIn id f k) (action : Action) (info? : Option ValueInfo) :
    push action info? b =
      .ok (info?.map fun _ => ⟨f.values.size⟩, b.withFunction id (f.emit k action info?)) := by
  have hupdate {c : Builder} {g : Function} (hc : c.WorksOn id g) (change : Function → Function) :
      update change c = .ok ((), c.withFunction id (change g)) :=
    update_ok hc.1 (Ir.entry_eq_ok.2 hc.2) change
  obtain ⟨hworks, hk, body, hbody, hopen⟩ := h
  have hcurrent : currentFunction b = .ok (f, b) :=
    currentFunction_ok hworks.1 (Ir.entry_eq_ok.2 hworks.2)
  have hblock : currentBlockId b = .ok (k, b) := by
    unfold currentBlockId
    rw [bind_of_ok _ (get_apply _), hk]
    rfl
  have hread : f.block k = .ok body := Ir.entry_eq_ok.2 hbody
  unfold push updateBlock
  rw [bind_of_ok _ hblock, bind_of_ok _ hcurrent, bind_apply, ofExcept_apply, hread]
  simp only [Except.map, Except.bind, hopen, Option.isSome_none, Bool.false_eq_true, ↓reduceIte]
  rw [bind_of_ok _ (hupdate hworks _), bind_of_ok _ (hupdate (hworks.withFunction _) _),
    Builder.withFunction_withFunction]
  rfl

theorem pushValue_ok (h : b.IsIn id f k) (action : Action) (ty : Ty) (compared : Bool) :
    pushValue action ty compared b =
      .ok (.inst ⟨f.values.size⟩, b.withFunction id (f.emit k action (some ⟨ty, compared⟩))) := by
  unfold pushValue
  rw [bind_of_ok _ (push_ok h _ _)]
  rfl

end Ir.Build

namespace Site

open Ir.Build

variable {σ : Site} {d : Draft}

/-- The function at work is that of the draft, and all others are as they were declared. -/
theorem functions_builder (k : Nat) : (σ.builder d).module.functions[k]? =
    if σ.id.index = k then some d.function else σ.module.functions[k]? := by
  have hlt : σ.id.index < σ.module.functions.size := σ.id_lt
  simp only [builder, Array.getElem?_setIfInBounds, hlt, ↓reduceIte]

theorem signatures_builder
    (h : some d.function.signature = (σ.module.functions[σ.id.index]?).map Function.signature)
    (k : Nat) : ((σ.builder d).module.functions[k]?).map Function.signature =
      (σ.module.functions[k]?).map Function.signature := by
  rw [functions_builder]
  split
  · rename_i heq
    rw [← heq, ← h]
    rfl
  · rfl

theorem isIn_builder : Library.IsIn (σ.builder d).module := by
  have hother {k : Nat} (hk : k < 3) :
      (σ.builder d).module.functions[k]? = σ.module.functions[k]? := by
    have := σ.isOwn
    rw [functions_builder, if_neg (by omega)]
  exact ⟨(hother (by decide)).trans σ.outside.print, (hother (by decide)).trans σ.outside.read,
    (hother (by decide)).trans σ.outside.abort⟩

theorem function_run :
    (σ.builder d).module.function σ.id = .ok d.function :=
  Ir.entry_eq_ok.2 ((functions_builder _).trans (if_pos rfl))

theorem builder_isIn (h : d.function.IsOpen d.block) :
    (σ.builder d).IsIn σ.id d.function d.block :=
  ⟨⟨rfl, Ir.entry_eq_ok.1 function_run⟩, rfl, h⟩

theorem withFunction_builder (g : Function) :
    (σ.builder d).withFunction σ.id g = σ.builder { d with function := g } := by
  simp [builder, Builder.withFunction]

theorem currentFunction_run : currentFunction (σ.builder d) = .ok (d.function, σ.builder d) :=
  currentFunction_ok rfl function_run

theorem update_run (change : Function → Function) :
    update change (σ.builder d) =
      .ok ((), σ.builder { d with function := change d.function }) := by
  rw [update_ok rfl function_run]
  simp [builder]

theorem updateBlock_run (id : BlockId) (change : Ir.Block → Ir.Block) :
    updateBlock id change (σ.builder d) =
      .ok ((), σ.builder { d with function :=
        { d.function with blocks := d.function.blocks.modify id.index change } }) :=
  update_run _

theorem createBlock_run (label : String) :
    createBlock label (σ.builder d) = .ok (d.nextBlock, σ.builder (d.create label)) := by
  unfold createBlock
  rw [bind_of_ok _ currentFunction_run, bind_of_ok _ (update_run _)]
  rfl

theorem appendBlock_run {id : BlockId} (h : id ∉ d.function.layout) :
    appendBlock id (σ.builder d) = .ok ((), σ.builder (d.attach id)) := by
  unfold appendBlock
  rw [bind_of_ok _ currentFunction_run]
  simp only [Function.isAttached, Array.contains_eq_mem, h, decide_false, Bool.false_eq_true,
    ↓reduceIte]
  exact update_run _

theorem switchTo_run (id : BlockId) :
    switchTo id (σ.builder d) = .ok ((), σ.builder (d.enter id)) := rfl

theorem markUnreachable_run {id : BlockId} (h : d.function.IsOpen id) :
    markUnreachable id (σ.builder d) = .ok ((), σ.builder (d.markDead id)) := by
  obtain ⟨b, hb, -⟩ := h
  have hblock : d.function.block id = .ok b := Ir.entry_eq_ok.2 hb
  unfold markUnreachable
  rw [bind_of_ok _ currentFunction_run, bind_apply, discard_apply, ofExcept_apply, hblock]
  exact updateBlock_run _ _

theorem typeOf_run {v : Operand} {ty : Ty} (h : d.function.typeOf v = .ok ty) :
    typeOf v (σ.builder d) = .ok (ty, σ.builder d) :=
  typeOf_ok ⟨rfl, Ir.entry_eq_ok.1 function_run⟩ h

theorem isComparison_run {v : Operand} {c : Bool} (h : d.function.isComparison v = .ok c) :
    isComparison v (σ.builder d) = .ok (c, σ.builder d) := by
  unfold isComparison
  rw [bind_of_ok _ currentFunction_run, ofExcept_apply, h]
  rfl

theorem push_run (h : d.function.IsOpen d.block) (action : Action) (info? : Option ValueInfo) :
    push action info? (σ.builder d) =
      .ok (info?.map fun _ => ⟨d.function.values.size⟩, σ.builder (d.emit action info?)) := by
  rw [push_ok (builder_isIn h), withFunction_builder]
  rfl

theorem pushValue_run (h : d.function.IsOpen d.block) (action : Action) (ty : Ty) (c : Bool) :
    pushValue action ty c (σ.builder d) =
      .ok (d.nextValue, σ.builder (d.emit action (some ⟨ty, c⟩))) := by
  rw [pushValue_ok (builder_isIn h), withFunction_builder]
  rfl

theorem alloca_run (h : d.function.IsOpen d.block) (name : String) (ty : Ty) :
    alloca name ty (σ.builder d) =
      .ok (d.nextSlot, σ.builder ((d.addSlot name ty).emit (.alloca d.nextSlot) none)) := by
  have h' : (d.addSlot name ty).function.IsOpen (d.addSlot name ty).block := h
  unfold alloca
  rw [bind_of_ok _ currentFunction_run, bind_of_ok _ (update_run _), bind_apply, discard_apply]
  erw [push_run h']
  rfl

theorem load_run (h : d.function.IsOpen d.block) {slot : SlotId} {s : Slot}
    (hs : d.function.slots[slot.index]? = some s) :
    load slot (σ.builder d) =
      .ok (d.nextValue, σ.builder (d.emit (.load slot) (some ⟨s.ty, false⟩))) := by
  have hslot : d.function.slot slot = .ok s := Ir.entry_eq_ok.2 hs
  unfold load
  rw [bind_of_ok _ currentFunction_run, bind_apply, ofExcept_apply, hslot]
  exact pushValue_run h _ _ _

theorem store_run (h : d.function.IsOpen d.block) (slot : SlotId) (v : Operand) :
    store slot v (σ.builder d) = .ok ((), σ.builder (d.emit (.store slot v) none)) := by
  unfold store
  rw [discard_apply, push_run h]
  rfl

theorem binary_run (h : d.function.IsOpen d.block) {op : Ir.BinaryOp} {l r : Operand} {ty : Ty}
    (hl : d.function.typeOf l = .ok ty) :
    binary op l r (σ.builder d) =
      .ok (d.nextValue, σ.builder (d.emit (.binary op l r) (some ⟨ty, false⟩))) := by
  unfold binary
  rw [bind_of_ok _ (typeOf_run hl)]
  exact pushValue_run h _ _ _

theorem compare_run (h : d.function.IsOpen d.block) (pred : Ir.Predicate) (l r : Operand) :
    compare pred l r (σ.builder d) =
      .ok (d.nextValue, σ.builder (d.emit (.compare pred l r) (some ⟨.i1, true⟩))) :=
  pushValue_run h _ _ _

theorem emitCast_run (h : d.function.IsOpen d.block) (op : Ir.CastOp) (v : Operand) (target : Ty) :
    emitCast op v target (σ.builder d) =
      .ok (d.nextValue, σ.builder (d.emit (.cast op v target) (some ⟨target, false⟩))) :=
  pushValue_run h _ _ _

theorem cast_folded {op : Ir.CastOp} {v v' : Operand} {source target : Ty}
    (hv : d.function.typeOf v = .ok source) (hfold : Ir.foldCast op source v target = some v') :
    cast op v target (σ.builder d) = .ok (v', σ.builder d) := by
  unfold Ir.Build.cast
  rw [bind_of_ok _ (typeOf_run hv), hfold]
  rfl

theorem cast_run (h : d.function.IsOpen d.block) {op : Ir.CastOp} {v : Operand} {source target : Ty}
    (hv : d.function.typeOf v = .ok source) (hfold : Ir.foldCast op source v target = none) :
    cast op v target (σ.builder d) =
      .ok (d.nextValue, σ.builder (d.emit (.cast op v target) (some ⟨target, false⟩))) := by
  unfold Ir.Build.cast
  rw [bind_of_ok _ (typeOf_run hv), hfold]
  exact emitCast_run h op v target

/-- What a call adds: the call, with a value if the callee gives one. -/
def callInfo? (f : Function) : Option ValueInfo := if f.ret.isVoid then none else some ⟨f.ret, false⟩

def callOperand (d : Draft) (f : Function) : Operand := if f.ret.isVoid then .void else d.nextValue

theorem call_run (h : d.function.IsOpen d.block) {callee : FuncId} {f : Function}
    (hf : (σ.builder d).module.function callee = .ok f) (args : List Operand) :
    call callee args (σ.builder d) =
      .ok (callOperand d f, σ.builder (d.emit (.call callee args) (callInfo? f))) := by
  unfold call callOperand callInfo?
  rw [bind_of_ok _ (get_apply _), bind_apply, ofExcept_apply, hf]
  simp only [Except.map, Except.bind]
  by_cases hv : f.ret.isVoid
  · simp only [hv, ↓reduceIte]
    rw [bind_apply, discard_apply, push_run h]
    rfl
  · simp only [hv, Bool.false_eq_true, ↓reduceIte]
    exact pushValue_run h _ _ _

theorem terminate_run (h : d.function.IsOpen d.block) (t : Terminator) :
    terminate t (σ.builder d) = .ok ((), σ.builder (d.close t)) := by
  obtain ⟨b, hb, hopen⟩ := h
  have hblock : d.function.block d.block = .ok b := Ir.entry_eq_ok.2 hb
  have hid : currentBlockId (σ.builder d) = .ok (d.block, σ.builder d) := rfl
  unfold terminate
  rw [bind_of_ok _ hid, bind_of_ok _ currentFunction_run, bind_apply, ofExcept_apply, hblock]
  simp only [Except.map, Except.bind, hopen, Option.isSome_none, Bool.false_eq_true, ↓reduceIte]
  exact updateBlock_run _ _

theorem addString_run (name text : String) :
    addString name text (σ.builder d) =
      .ok (.global ⟨d.globals.size⟩, σ.builder { d with
        globals := d.globals.push ⟨s!"{name}.{d.globals.size}", text⟩ }) := rfl

end Site

/-! ### Steps of lowering on a draft -/

/-- Lowering that begins with the draft either rejects the program or ends in a draft with the
property; nothing is misused. -/
def Site.Leads (σ : Site) {α : Type} (x : Lower α) (d : Draft) (Q : α → Draft → Prop) : Prop :=
  Lower.Reaches x (σ.working d) fun a t => ∃ d', t = σ.working d' ∧ Q a d'

namespace Site.Leads

variable {σ : Site} {α β : Type} {x : Lower α} {d : Draft} {Q R : α → Draft → Prop}

theorem of_run {a : α} {d' : Draft} (h : x.run (σ.working d) = (.ok a, σ.working d'))
    (hQ : Q a d') : σ.Leads x d Q :=
  Lower.Reaches.of_run h ⟨d', rfl, hQ⟩

theorem mono (h : σ.Leads x d Q) (hQ : ∀ a d', Q a d' → R a d') : σ.Leads x d R :=
  Lower.Reaches.mono h fun a _ ⟨d', ht, ha⟩ => ⟨d', ht, hQ a d' ha⟩

theorem bind {S : β → Draft → Prop} {f : α → Lower β} (h : σ.Leads x d Q)
    (hf : ∀ a d', Q a d' → σ.Leads (f a) d' S) : σ.Leads (x >>= f) d S :=
  Lower.Reaches.bind h fun a _ ⟨d', ht, ha⟩ => ht ▸ hf a d' ha

theorem step {S : β → Draft → Prop} {f : α → Lower β} {a : α} {d' : Draft}
    (h : x.run (σ.working d) = (.ok a, σ.working d')) (hf : σ.Leads (f a) d' S) :
    σ.Leads (x >>= f) d S :=
  (of_run (Q := fun b e => b = a ∧ e = d') h ⟨rfl, rfl⟩).bind fun _ _ ⟨ha, hd⟩ => ha ▸ hd ▸ hf

theorem pure {a : α} (h : Q a d) : σ.Leads (Pure.pure a) d Q := of_run rfl h

theorem reject {span : Span} {e : LoweringError}
    (h : e.IsUserFacing := by simp [LoweringError.IsUserFacing]) :
    σ.Leads (Lower.reject span e : Lower α) d Q := h

theorem reject_bind {span : Span} {e : LoweringError} {f : α → Lower β} {S : β → Draft → Prop}
    (h : e.IsUserFacing := by simp [LoweringError.IsUserFacing]) :
    σ.Leads (Lower.reject span e >>= f) d S :=
  .bind (Q := fun _ _ => False) (.reject h) fun _ _ hno => hno.elim

theorem map {S : β → Draft → Prop} {f : α → β} (h : σ.Leads x d fun a => S (f a)) :
    σ.Leads (f <$> x) d S := by
  rw [map_eq_pure_bind]
  exact h.bind fun _ _ => pure

theorem discard {S : PUnit → Draft → Prop} (h : σ.Leads x d Q) (hS : ∀ a d', Q a d' → S () d') :
    σ.Leads (Functor.discard x) d S := by
  unfold Functor.discard Functor.mapConst
  exact (h.mono hS).map

end Site.Leads

namespace Draft

variable (d : Draft)

def addBlock (label : String) : Draft := (d.create label).attach d.nextBlock

def enterDead (label : String) : Draft :=
  ((d.addBlock label).markDead d.nextBlock).enter d.nextBlock

def bind (x : String) (slot : SlotId) : Draft := { d with scopes := d.scopes.bind x slot }

def nest : Draft := { d with scopes := d.scopes.enter }

def leave : Draft := { d with scopes := d.scopes.leave }

end Draft

namespace Site

open Ir.Build

variable {σ : Site} {d : Draft}

theorem build_run {α : Type} {x : Build α} {a : α} {d' : Draft}
    (h : x (σ.builder d) = .ok (a, σ.builder d'))
    (hd : { d with function := d'.function, block := d'.block, globals := d'.globals } = d' := by
      rfl) :
    (Lower.build x).run (σ.working d) = (.ok a, σ.working d') := by
  rw [Lower.build_ok h, ← hd]
  rfl

theorem newBlock_run (label : String) (h : d.nextBlock ∉ d.function.layout) :
    (Lower.newBlock label).run (σ.working d) = (.ok d.nextBlock, σ.working (d.addBlock label)) := by
  refine build_run ?_
  have happend : appendBlock d.nextBlock (σ.builder (d.create label)) =
      .ok ((), σ.builder (d.addBlock label)) := appendBlock_run h
  rw [bind_of_ok _ (createBlock_run _), bind_of_ok _ happend]
  rfl

theorem find?_run (x : String) :
    (Lower.find? x).run (σ.working d) = (.ok (d.scopes.find? x), σ.working d) := rfl

theorem typeOf_lower_run {v : Operand} {ty : Ty} (h : d.function.typeOf v = .ok ty) :
    (Lower.typeOf v).run (σ.working d) = (.ok ty, σ.working d) := build_run (typeOf_run h)

theorem slotTy_run {slot : SlotId} {s : Slot} (h : d.function.slots[slot.index]? = some s) :
    (Lower.slotTy slot).run (σ.working d) = (.ok s.ty, σ.working d) := by
  have hslot : d.function.slot slot = .ok s := Ir.entry_eq_ok.2 h
  refine build_run ?_
  rw [bind_of_ok _ currentFunction_run, map_apply, ofExcept_apply, hslot]
  rfl

theorem ret_run :
    (Lower.build (Function.ret <$> currentFunction)).run (σ.working d) =
      (.ok d.function.ret, σ.working d) := by
  refine build_run ?_
  rw [map_apply, currentFunction_run]
  rfl

/-- The variable is bound, unless its frame binds the name already. -/
theorem define_run {x : Ident} {slot : SlotId} (h : d.scopes ≠ []) :
    (Lower.define x slot).run (σ.working d) =
      if d.scopes.definedHere x.text = true then
        (.error (.rejected (x.span.at (.redefinition x.text))), σ.working d)
      else (.ok (), σ.working (d.bind x.text slot)) := by
  cases hs : d.scopes with
  | nil => exact absurd hs h
  | cons frame outer =>
    have hworking : (σ.working d).scopes = frame :: outer := hs
    rw [Lower.define, Lower.get_bind_run]
    simp only [hworking, Scopes.definedHere, List.head?_cons, Option.any_some]
    by_cases hx : (frame.lookup x.text).isSome
    · simp only [hx, ↓reduceIte]
      rfl
    · simp only [hx, Bool.false_eq_true, ↓reduceIte]
      change (_, { σ.working d with scopes := ((x.text, slot) :: frame) :: outer }) = _
      simp [Draft.bind, Scopes.bind, hs, working, builder]

theorem define_leads {x : Ident} {slot : SlotId} (h : d.scopes ≠ []) :
    σ.Leads (Lower.define x slot) d fun _ d' =>
      d' = d.bind x.text slot ∧ d.scopes.definedHere x.text = false := by
  unfold Leads Lower.Reaches
  rw [define_run h]
  by_cases hx : d.scopes.definedHere x.text = true
  · rw [if_pos hx]
    intro v
    simp [Span.at]
  · rw [if_neg hx]
    exact ⟨d.bind x.text slot, rfl, rfl, by simpa using hx⟩

theorem nested_leads {α : Type} {x : Lower α} {Q : α → Draft → Prop}
    (h : σ.Leads x d.nest fun a d' => Q a d'.leave) : σ.Leads (Lower.nested x) d Q := by
  have hrun : (Lower.nested x).run (σ.working d) =
      match x.run (σ.working d.nest) with
      | (r, t) => (r, { t with scopes := t.scopes.leave }) := rfl
  unfold Leads Lower.Reaches at h ⊢
  rw [hrun]
  cases hx : x.run (σ.working d.nest) with
  | mk r t =>
    rw [hx] at h
    cases r with
    | ok a =>
      obtain ⟨d', rfl, ha⟩ := h
      exact ⟨_, rfl, ha⟩
    | error e => cases e <;> exact h

end Site

end Quill
