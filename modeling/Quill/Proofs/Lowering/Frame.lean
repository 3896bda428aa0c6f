import Quill.Proofs.Lowering.ChartSteps

/-! # What lowering leaves alone

Lowering works on one function. It adds to the ends of its tables, and of the blocks that were
there it builds on at most one, the block at hand. Other functions stay as they are. Scopes gain
bindings in the innermost frame and lose none. All this holds as well when lowering stops early.
-/
namespace Quill

open Ir (Action BlockId Build Builder FuncId Function Operand SlotId Terminator Ty ValueInfo)

/-! ### Scopes -/

/-- The same frames, with further bindings in the innermost. -/
structure Scopes.Extends (s t : Scopes) : Prop where
  length : t.length = s.length
  outer : t.tail = s.tail
  innermost : ∀ x slot, (s.headD []).lookup x = some slot → (t.headD []).lookup x = some slot

namespace Scopes.Extends

variable {s t u : Scopes}

theorem refl (s : Scopes) : s.Extends s := ⟨rfl, rfl, fun _ _ h => h⟩

theorem trans (h : s.Extends t) (h' : t.Extends u) : s.Extends u :=
  ⟨h'.length.trans h.length, h'.outer.trans h.outer, fun x slot hx =>
    h'.innermost x slot (h.innermost x slot hx)⟩

theorem bind {frame : ScopeFrame} {outer : Scopes} {name : String} (hnew : frame.lookup name = none)
    (slot : SlotId) : Scopes.Extends (frame :: outer) (((name, slot) :: frame) :: outer) := by
  refine ⟨rfl, rfl, fun x slot' hx => ?_⟩
  have hne : (x == name) = false := by
    rw [beq_eq_false_iff_ne]
    rintro rfl
    cases hnew.symm.trans hx
  simpa [List.lookup_cons, hne] using hx

theorem leave_of_enter (h : s.enter.Extends t) : t.leave = s := h.outer

end Scopes.Extends

/-! ### The function that is built -/

namespace Ir

/-- A builder at work on a function. -/
structure Workplace where
  builder : Builder
  id : FuncId
  function : Function
  works : builder.WorksOn id function

namespace Workplace

variable {ω : Workplace}

def IsNew (ω : Workplace) (k : BlockId) : Prop := ω.function.blocks.size ≤ k.index

/-- The block was at hand at the beginning, or was not there. -/
def Owns (ω : Workplace) (k : BlockId) : Prop := ω.builder.block? = some k ∨ ω.IsNew k

/-- The function is the one at work built further. Its blocks other than the one at hand are as
they were. -/
structure Grown (ω : Workplace) (g : Function) : Prop where
  continues : ω.function.Continues g
  others : ∀ (k : Nat) (b : Block), ω.function.blocks[k]? = some b →
    ω.builder.block? ≠ some ⟨k⟩ → g.blocks[k]? = some b

/-- The builder is still at work there and has left everything else alone. -/
structure Within (ω : Workplace) (c : Builder) : Prop where
  current : ∃ g, c.WorksOn ω.id g ∧ ω.Grown g
  size : c.module.functions.size = ω.builder.module.functions.size
  functions : ∀ k, k ≠ ω.id.index → c.module.functions[k]? = ω.builder.module.functions[k]?
  globals : ω.builder.module.globals.toList <+: c.module.globals.toList
  block : ∀ k, c.block? = some k → ω.Owns k

theorem getElem?_modify_ne {blocks : Array Block} {k j : Nat} (h : k ≠ j)
    (change : Block → Block) : (blocks.modify k change)[j]? = blocks[j]? := by
  rw [Array.getElem?_modify, if_neg h]

theorem IsNew.ne {k : BlockId} (h : ω.IsNew k) {j : Nat} {b : Block}
    (hb : ω.function.blocks[j]? = some b) : k.index ≠ j := by
  have hj := (Array.getElem?_eq_some_iff.1 hb).1
  have hk : ω.function.blocks.size ≤ k.index := h
  omega

theorem Owns.ne {k : BlockId} (h : ω.Owns k) {j : Nat} {b : Block}
    (hb : ω.function.blocks[j]? = some b) (hj : ω.builder.block? ≠ some ⟨j⟩) : k.index ≠ j := by
  rcases h with hk | hk
  · rintro rfl
    exact hj hk
  · exact hk.ne hb

namespace Grown

variable {g : Function} {k : BlockId}

protected theorem refl : ω.Grown ω.function := ⟨.refl _, fun _ _ hb _ => hb⟩

theorem addBlock (h : ω.Grown g) (label : String) : ω.Grown (g.addBlock label) where
  continues := h.continues.trans (.addBlock g label)
  others j b hb hj := Function.Continues.push_getElem? (h.others j b hb hj) _

theorem attach (h : ω.Grown g) (k : BlockId) : ω.Grown (g.attach k) where
  continues := h.continues.trans (.attach g k)
  others := h.others

theorem addSlot (h : ω.Grown g) (name : String) (ty : Ty) : ω.Grown (g.addSlot name ty) where
  continues := h.continues.trans (.addSlot g name ty)
  others := h.others

theorem emit (h : ω.Grown g) (hopen : g.IsOpen k) (hk : ω.Owns k) (action : Action)
    (info? : Option ValueInfo) : ω.Grown (g.emit k action info?) where
  continues := h.continues.trans (.emit hopen action info?)
  others j b hb hj := (getElem?_modify_ne (hk.ne hb hj) _).trans (h.others j b hb hj)

theorem close (h : ω.Grown g) (hopen : g.IsOpen k) (hk : ω.Owns k) (t : Terminator) :
    ω.Grown (g.close k t) where
  continues := h.continues.trans (.close hopen t)
  others j b hb hj := (getElem?_modify_ne (hk.ne hb hj) _).trans (h.others j b hb hj)

theorem markDead (h : ω.Grown g) (hk : ω.IsNew k) : ω.Grown (g.markDead k) where
  continues :=
    { signature := h.continues.signature
      slots := h.continues.slots
      values := h.continues.values
      layout := h.continues.layout
      blocks := fun j b hb => by
        obtain ⟨c, hc, hbc⟩ := h.continues.blocks j b hb
        exact ⟨c, (getElem?_modify_ne (hk.ne hb) _).trans hc, hbc⟩ }
  others j b hb hj := (getElem?_modify_ne (hk.ne hb) _).trans (h.others j b hb hj)

end Grown

namespace Within

variable {c : Builder} {id : FuncId} {g : Function}

protected theorem refl : ω.Within ω.builder where
  current := ⟨_, ω.works, .refl⟩
  size := rfl
  functions _ _ := rfl
  globals := List.prefix_rfl
  block _ hk := .inl hk

theorem grown (h : ω.Within c) (hg : c.WorksOn id g) : ω.id = id ∧ ω.Grown g := by
  obtain ⟨g', hworks, hgrown⟩ := h.current
  obtain ⟨rfl, rfl⟩ := hworks.unique hg
  exact ⟨rfl, hgrown⟩

theorem withFunction (h : ω.Within c) (hg : ω.Grown g) : ω.Within (c.withFunction ω.id g) where
  current := by
    obtain ⟨g', hworks, -⟩ := h.current
    exact ⟨g, hworks.withFunction g, hg⟩
  size := by simpa [Builder.withFunction] using h.size
  functions k hk := by
    rw [← h.functions k hk]
    simp [Builder.withFunction, Ne.symm hk]
  globals := h.globals
  block := h.block

end Within

/-! ### Operations of the builder -/

section

variable {α β : Type} {Q : α → Prop} {S : β → Prop} {x : Build α} {f : α → Build β}

/-- The operation leaves everything else alone, and its result has the property. -/
def Confines (ω : Workplace) (x : Build α) (Q : α → Prop) : Prop :=
  ∀ b a b', ω.Within b → x b = .ok (a, b') → ω.Within b' ∧ Q a

namespace Confines

theorem pure {a : α} (h : Q a) : ω.Confines (Pure.pure a) Q := by
  intro b a b' hb hrun
  cases hrun
  exact ⟨hb, h⟩

theorem bind (h : ω.Confines x Q) (hf : ∀ a, Q a → ω.Confines (f a) S) :
    ω.Confines (x >>= f) S := by
  intro b r b' hb hrun
  obtain ⟨a, s, hx, hrest⟩ := Build.bind_ok_iff.1 hrun
  obtain ⟨hs, ha⟩ := h b a s hb hx
  exact hf a ha s r b' hs hrest

theorem discard (h : ω.Confines x Q) : ω.Confines (Functor.discard x) fun _ => True := by
  intro b u b' hb hrun
  obtain ⟨a, hx⟩ := Build.discard_ok_iff.1 hrun
  exact ⟨(h b a b' hb hx).1, trivial⟩

theorem of_looks (hx : Build.Looks x) : ω.Confines x fun _ => True := by
  intro b a b' hb hrun
  obtain rfl := hx b a b' hrun
  exact ⟨hb, trivial⟩

theorem look (hx : Build.Looks x) (hf : ∀ a, ω.Confines (f a) S) : ω.Confines (x >>= f) S :=
  (of_looks hx).bind fun a _ => hf a

end Confines

end

section

variable {k : BlockId} {action : Action}

theorem update_confines {change : Function → Function} (h : ∀ g, ω.Grown g → ω.Grown (change g)) :
    ω.Confines (Build.update change) fun _ => True := by
  intro b u b' hb hrun
  obtain ⟨id, g, hworks, rfl⟩ := Build.update_eq_ok hrun
  obtain ⟨rfl, hg⟩ := hb.grown hworks
  exact ⟨hb.withFunction (h g hg), trivial⟩

theorem push_confines (action : Action) (info? : Option ValueInfo) :
    ω.Confines (Build.push action info?) fun _ => True := by
  intro b r b' hb hrun
  obtain ⟨id, g, k, hworks, hk, hopen, -, rfl⟩ := Build.push_eq_ok hrun
  obtain ⟨rfl, hg⟩ := hb.grown hworks
  exact ⟨hb.withFunction (hg.emit hopen (hb.block k hk) action info?), trivial⟩

theorem pushValue_confines (action : Action) (ty : Ty) (compared : Bool) :
    ω.Confines (Build.pushValue action ty compared) fun _ => True := by
  refine (push_confines action _).bind fun id? _ => ?_
  cases id? with
  | none => exact .pure trivial
  | some id => exact .pure trivial

theorem terminate_confines (t : Terminator) : ω.Confines (Build.terminate t) fun _ => True := by
  intro b u b' hb hrun
  obtain ⟨id, g, k, hworks, hk, hopen, rfl⟩ := Build.terminate_eq_ok hrun
  obtain ⟨rfl, hg⟩ := hb.grown hworks
  exact ⟨hb.withFunction (hg.close hopen (hb.block k hk) t), trivial⟩

theorem createBlock_confines (label : String) : ω.Confines (Build.createBlock label) ω.IsNew := by
  intro b k b' hb hrun
  obtain ⟨g, s, hcurrent, hrest⟩ := Build.bind_ok_iff.1 hrun
  obtain ⟨id, hworks, rfl⟩ := Build.currentFunction_eq_ok hcurrent
  obtain ⟨rfl, hg⟩ := hb.grown hworks
  obtain ⟨u, s, hupdate, hreturn⟩ := Build.bind_ok_iff.1 hrest
  cases hreturn
  exact ⟨(update_confines (fun _ hg => hg.addBlock label) b u _ hb hupdate).1,
    hg.continues.blocks_size⟩

theorem appendBlock_confines (k : BlockId) :
    ω.Confines (Build.appendBlock k) fun _ => True := by
  refine .look .currentFunction fun g => ?_
  split
  · intro b u b' hb hrun
    cases hrun
  · exact update_confines fun _ hg => hg.attach k

theorem switchTo_confines (hk : ω.IsNew k) : ω.Confines (Build.switchTo k) fun _ => True := by
  intro b u b' hb hrun
  cases hrun
  refine ⟨{ hb with block := ?_ }, trivial⟩
  rintro _ ⟨⟩
  exact .inr hk

theorem markUnreachable_confines (hk : ω.IsNew k) :
    ω.Confines (Build.markUnreachable k) fun _ => True :=
  .look .currentFunction fun _ => (Confines.of_looks (.ofExcept _)).discard.bind fun _ _ =>
    update_confines fun _ hg => hg.markDead hk

theorem alloca_confines (name : String) (ty : Ty) :
    ω.Confines (Build.alloca name ty) fun _ => True :=
  .look .currentFunction fun _ => (update_confines fun _ hg => hg.addSlot name ty).bind fun _ _ =>
    (push_confines _ none).discard.bind fun _ _ => .pure trivial

theorem load_confines (slot : SlotId) : ω.Confines (Build.load slot) fun _ => True :=
  .look .currentFunction fun _ => .look (.ofExcept _) fun _ => pushValue_confines _ _ _

theorem store_confines (slot : SlotId) (v : Operand) :
    ω.Confines (Build.store slot v) fun _ => True :=
  (push_confines _ none).discard

theorem binary_confines (op : BinaryOp) (l r : Operand) :
    ω.Confines (Build.binary op l r) fun _ => True :=
  .look (.typeOf l) fun _ => pushValue_confines _ _ _

theorem compare_confines (pred : Predicate) (l r : Operand) :
    ω.Confines (Build.compare pred l r) fun _ => True :=
  pushValue_confines _ _ _

theorem emitCast_confines (op : CastOp) (v : Operand) (target : Ty) :
    ω.Confines (Build.emitCast op v target) fun _ => True :=
  pushValue_confines _ _ _

theorem cast_confines (op : CastOp) (v : Operand) (target : Ty) :
    ω.Confines (Build.cast op v target) fun _ => True := by
  refine .look (.typeOf v) fun source => ?_
  cases foldCast op source v target with
  | some folded => exact .pure trivial
  | none => exact emitCast_confines op v target

theorem call_confines (callee : FuncId) (args : List Operand) :
    ω.Confines (Build.call callee args) fun _ => True := by
  refine .look .get fun b => .look (.ofExcept _) fun f => ?_
  split
  · exact (push_confines _ none).discard.bind fun _ _ => .pure trivial
  · exact pushValue_confines _ _ _

theorem addString_confines (name text : String) :
    ω.Confines (Build.addString name text) fun _ => True := by
  intro b v b' hb hrun
  cases hrun
  refine ⟨{ hb with globals := hb.globals.trans ?_ }, trivial⟩
  simp

end

end Workplace

end Ir

end Quill
