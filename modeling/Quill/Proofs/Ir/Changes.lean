import Quill.Proofs.Ir.Paths
import Quill.Proofs.Ir.Requests

/-! # What requests change

A request that is no fault changes its module in one of a few ways: it declares a function, adds a
text, or changes one function. Whatever is to be known of built modules follows from these.
-/
namespace Quill.Ir

/-- Comparisons are the actions whose results are marked. -/
def Action.isCompare : Action → Bool
  | compare .. => true
  | _ => false

/-- The type of the value that an action gives in that function, if it gives one. -/
def Action.resultType (m : Module) (f : Function) : Action → Except Fault (Option Ty)
  | alloca _ | store .. => .ok none
  | load s => (fun s => some s.ty) <$> f.slot s
  | binary _ l _ => some <$> f.typeOf l
  | compare .. => .ok (some .i1)
  | cast _ _ target => .ok (some target)
  | call callee _ => (fun g => if g.ret.isVoid then none else some g.ret) <$> m.function callee

/-- What blocks, constant texts, functions, and parameters or slots may be called. -/
structure Vocabulary where
  label : String → Prop
  text : String → Prop
  routine : String → Prop
  operand : String → Prop

namespace Vocabulary

def any : Vocabulary := ⟨fun _ => True, fun _ => True, fun _ => True, fun _ => True⟩

end Vocabulary

/-- The names that the request introduces are of the vocabulary. -/
def Request.IsWithin (V : Vocabulary) : Request → Prop
  | declareFunction name params _ => V.routine name ∧ ∀ p ∈ params, V.operand p.name
  | addString name _ => V.text name
  | createBlock label => V.label label
  | alloca name _ => V.operand name
  | _ => True

theorem Request.isWithin_any (r : Request) : r.IsWithin .any := by
  cases r <;> simp [IsWithin, Vocabulary.any]

variable (V : Vocabulary)

/-- What one request can make of a function of the module. Only an open block gets instructions or
a terminator. -/
inductive Function.Change (m : Module) : Function → Function → Prop
  | flags (f : Function) (isVariadic isNoReturn : Bool) :
      Change m f { f with isVariadic, isNoReturn }
  | addBlock (f : Function) {label : String} : V.label label → Change m f (f.addBlock label)
  | attach {f : Function} {id : BlockId} : id ∉ f.layout → Change m f (f.attach id)
  | markDead (f : Function) (id : BlockId) : Change m f (f.markDead id)
  | emit {f : Function} {id : BlockId} {action : Action} {info? : Option ValueInfo} :
      f.IsOpen id → action.reserves = [] →
      action.resultType m f = .ok (info?.map ValueInfo.ty) →
      (∀ info ∈ info?, info.isComparison = action.isCompare) →
      Change m f (f.emit id action info?)
  | reserve {f : Function} {id : BlockId} {name : String} (ty : Ty) : f.IsOpen id → V.operand name →
      Change m f ((f.addSlot name ty).emit id (.alloca ⟨f.slots.size⟩) none)
  | close {f : Function} {id : BlockId} (t : Terminator) : f.IsOpen id →
      Change m f (f.close id t)

/-- What one request can make of a module. -/
inductive Module.Change : Module → Module → Prop
  | look (m : Module) : Change m m
  | declare {m : Module} {name : String} {params : List Param} (ret : Ty) :
      m.lookup? name = none → V.routine name → (∀ p ∈ params, V.operand p.name) →
      Change m (m.declare (.declared name params ret))
  | text (m : Module) {name : String} (content : String) : V.text name →
      Change m { m with globals := m.globals.push ⟨s!"{name}.{m.globals.size}", content⟩ }
  | function {m : Module} {k : Nat} {f g : Function} : m.functions[k]? = some f →
      Function.Change V m f g → Change m { m with functions := m.functions.setIfInBounds k g }

namespace Build

variable {V} {b c : Builder} {u : Unit}

theorem change_of_eq (h : b = c) : Module.Change V b.module c.module := h ▸ .look b.module

theorem change_of_worksOn {id : FuncId} {f g : Function} (hworks : b.WorksOn id f)
    (hg : Function.Change V b.module f g) :
    Module.Change V b.module (b.withFunction id g).module :=
  .function hworks.2 hg

theorem update_change {change : Function → Function} (h : update change b = .ok (u, c))
    (hchange : ∀ f, Function.Change V b.module f (change f)) :
    Module.Change V b.module c.module := by
  obtain ⟨id, f, hworks, rfl⟩ := update_eq_ok h
  exact change_of_worksOn hworks (hchange f)

theorem modifyFunction_change {id : FuncId} {change : Function → Function}
    (h : modifyFunction id change b = .ok (u, c))
    (hchange : ∀ f, Function.Change V b.module f (change f)) :
    Module.Change V b.module c.module := by
  obtain ⟨f, hf, rfl⟩ := modifyFunction_eq_ok h
  exact .function hf (hchange f)

theorem declareFunction_change {name : String} {params : List Param} {ret : Ty}
    {id? : Option FuncId} (h : declareFunction name params ret b = .ok (id?, c))
    (hname : V.routine name) (hparams : ∀ p ∈ params, V.operand p.name) :
    Module.Change V b.module c.module := by
  obtain ⟨s, s', hget, hrest⟩ := bind_ok_iff.1 h
  cases hget
  split at hrest
  · cases hrest
    exact .look _
  · rename_i hfree
    obtain ⟨_, s, hset, hreturn⟩ := bind_ok_iff.1 hrest
    cases hset
    cases hreturn
    exact .declare ret (by simpa using hfree) hname hparams

theorem addString_change {name text : String} {v : Operand}
    (h : addString name text b = .ok (v, c)) (hname : V.text name) :
    Module.Change V b.module c.module := by
  obtain ⟨s, s', hget, hrest⟩ := bind_ok_iff.1 h
  cases hget
  obtain ⟨_, s, hset, hreturn⟩ := bind_ok_iff.1 hrest
  cases hset
  cases hreturn
  exact .text _ text hname

theorem createBlock_change {label : String} {id : BlockId}
    (h : createBlock label b = .ok (id, c)) (hlabel : V.label label) :
    Module.Change V b.module c.module := by
  obtain ⟨_, s, hcurrent, hrest⟩ := bind_ok_iff.1 h
  obtain ⟨_, -, rfl⟩ := currentFunction_eq_ok hcurrent
  obtain ⟨_, s, hupdate, hreturn⟩ := bind_ok_iff.1 hrest
  cases hreturn
  exact update_change hupdate fun f => .addBlock f hlabel

theorem appendBlock_change {id : BlockId} (h : appendBlock id b = .ok (u, c)) :
    Module.Change V b.module c.module := by
  obtain ⟨f, s, hcurrent, hrest⟩ := bind_ok_iff.1 h
  obtain ⟨at?, hworks, rfl⟩ := currentFunction_eq_ok hcurrent
  dsimp only at hrest
  split at hrest
  · cases hrest
  · rename_i hdetached
    obtain ⟨at?', f', hworks', rfl⟩ := update_eq_ok hrest
    obtain ⟨rfl, rfl⟩ := hworks.unique hworks'
    exact change_of_worksOn hworks (.attach (by simpa [Function.isAttached] using hdetached))

theorem markUnreachable_change {id : BlockId} (h : markUnreachable id b = .ok (u, c)) :
    Module.Change V b.module c.module := by
  obtain ⟨_, s, hcurrent, hrest⟩ := bind_ok_iff.1 h
  obtain ⟨_, -, rfl⟩ := currentFunction_eq_ok hcurrent
  obtain ⟨_, s, hblock, hrest⟩ := bind_ok_iff.1 hrest
  obtain ⟨_, hread⟩ := discard_ok_iff.1 hblock
  obtain ⟨-, rfl⟩ := ofExcept_ok_iff.1 hread
  exact update_change hrest fun f => .markDead f id

theorem terminate_change {t : Terminator} (h : terminate t b = .ok (u, c)) :
    Module.Change V b.module c.module := by
  obtain ⟨id, f, block, hworks, -, hopen, rfl⟩ := terminate_eq_ok h
  exact change_of_worksOn hworks (.close t hopen)

/-! Instructions -/

/-- What the current function says of the result of an action. -/
def Dictates (b : Builder) (action : Action) (info? : Option ValueInfo) : Prop :=
  ∀ id f, b.WorksOn id f → action.resultType b.module f = .ok (info?.map ValueInfo.ty) ∧
    ∀ info ∈ info?, info.isComparison = action.isCompare

theorem push_change {action : Action} {info? : Option ValueInfo} {r : Option ValueId}
    (h : push action info? b = .ok (r, c)) (hreserves : action.reserves = [])
    (hinfo : Dictates b action info?) : Module.Change V b.module c.module := by
  obtain ⟨id, f, block, hworks, -, hopen, -, rfl⟩ := push_eq_ok h
  obtain ⟨hty, hcompare⟩ := hinfo id f hworks
  exact change_of_worksOn hworks (.emit hopen hreserves hty hcompare)

theorem pushValue_change {action : Action} {ty : Ty} {compared : Bool} {v : Operand}
    (h : pushValue action ty compared b = .ok (v, c)) (hreserves : action.reserves = [])
    (hinfo : Dictates b action (some ⟨ty, compared⟩)) : Module.Change V b.module c.module := by
  obtain ⟨r, s, hpush, hreturn⟩ := bind_ok_iff.1 h
  cases r <;> cases hreturn <;> exact push_change hpush hreserves hinfo

theorem alloca_change {name : String} {ty : Ty} {slot : SlotId}
    (h : alloca name ty b = .ok (slot, c)) (hname : V.operand name) :
    Module.Change V b.module c.module := by
  obtain ⟨f, s, hcurrent, hrest⟩ := bind_ok_iff.1 h
  obtain ⟨id, hworks, rfl⟩ := currentFunction_eq_ok hcurrent
  obtain ⟨_, s, hupdate, hrest⟩ := bind_ok_iff.1 hrest
  obtain ⟨id', f', hworks', rfl⟩ := update_eq_ok hupdate
  obtain ⟨rfl, rfl⟩ := hworks.unique hworks'
  obtain ⟨_, s, hdiscard, hreturn⟩ := bind_ok_iff.1 hrest
  obtain ⟨_, hpush⟩ := discard_ok_iff.1 hdiscard
  cases hreturn
  obtain ⟨id, g, block, hworks', -, hopen, -, rfl⟩ := push_eq_ok hpush
  obtain ⟨rfl, rfl⟩ := (hworks.withFunction _).unique hworks'
  rw [Builder.withFunction_withFunction]
  exact change_of_worksOn hworks (.reserve ty hopen hname)

theorem load_change {slot : SlotId} {v : Operand} (h : load slot b = .ok (v, c)) :
    Module.Change V b.module c.module := by
  obtain ⟨f, s, hcurrent, hrest⟩ := bind_ok_iff.1 h
  obtain ⟨id, hworks, rfl⟩ := currentFunction_eq_ok hcurrent
  obtain ⟨found, s, hread, hpush⟩ := bind_ok_iff.1 hrest
  obtain ⟨hslot, rfl⟩ := ofExcept_ok_iff.1 hread
  refine pushValue_change hpush rfl fun id g hg => ⟨?_, by simp [Action.isCompare]⟩
  obtain ⟨rfl, rfl⟩ := hworks.unique hg
  exact map_eq_ok.2 ⟨found, hslot, rfl⟩

theorem typeOf_eq_ok {v : Operand} {ty : Ty} (h : typeOf v b = .ok (ty, c)) :
    b = c ∧ ∀ id f, b.WorksOn id f → f.typeOf v = .ok ty := by
  obtain ⟨f, s, hcurrent, hrest⟩ := bind_ok_iff.1 h
  obtain ⟨id, hworks, rfl⟩ := currentFunction_eq_ok hcurrent
  obtain ⟨hty, rfl⟩ := ofExcept_ok_iff.1 hrest
  refine ⟨rfl, fun id g hg => ?_⟩
  obtain ⟨rfl, rfl⟩ := hworks.unique hg
  exact hty

theorem binary_change {op : BinaryOp} {l r v : Operand} (h : binary op l r b = .ok (v, c)) :
    Module.Change V b.module c.module := by
  obtain ⟨ty, s, htype, hpush⟩ := bind_ok_iff.1 h
  obtain ⟨rfl, hty⟩ := typeOf_eq_ok htype
  exact pushValue_change hpush rfl fun id f hf =>
    ⟨map_eq_ok.2 ⟨ty, hty id f hf, rfl⟩, by simp [Action.isCompare]⟩

theorem compare_change {pred : Predicate} {l r v : Operand}
    (h : compare pred l r b = .ok (v, c)) : Module.Change V b.module c.module :=
  pushValue_change h rfl fun _ _ _ => ⟨rfl, by simp [Action.isCompare]⟩

theorem cast_change {op : CastOp} {v v' : Operand} {target : Ty}
    (h : cast op v target b = .ok (v', c)) : Module.Change V b.module c.module := by
  obtain ⟨source, s, htype, hrest⟩ := bind_ok_iff.1 h
  obtain rfl := typeOf_same htype
  cases hfold : foldCast op source v target with
  | some folded =>
    rw [hfold] at hrest
    cases hrest
    exact .look _
  | none =>
    rw [hfold] at hrest
    exact pushValue_change hrest rfl fun _ _ _ => ⟨rfl, by simp [Action.isCompare]⟩

theorem call_change {callee : FuncId} {args : List Operand} {v : Operand}
    (h : call callee args b = .ok (v, c)) : Module.Change V b.module c.module := by
  obtain ⟨s, s', hget, hrest⟩ := bind_ok_iff.1 h
  cases hget
  obtain ⟨g, s, hread, hrest⟩ := bind_ok_iff.1 hrest
  obtain ⟨hg, rfl⟩ := ofExcept_ok_iff.1 hread
  split at hrest
  · rename_i hvoid
    obtain ⟨_, s, hdiscard, hreturn⟩ := bind_ok_iff.1 hrest
    obtain ⟨_, hpush⟩ := discard_ok_iff.1 hdiscard
    cases hreturn
    exact push_change hpush rfl fun _ _ _ => ⟨map_eq_ok.2 ⟨g, hg, if_pos hvoid⟩, by simp⟩
  · rename_i hvalue
    exact pushValue_change hrest rfl fun _ _ _ =>
      ⟨map_eq_ok.2 ⟨g, hg, if_neg hvalue⟩, by simp [Action.isCompare]⟩

end Build

variable {V} in
open Build in
theorem Request.change {b c : Builder} {given : List Operand} (r : Request)
    (hr : r.IsWithin V) (h : r.perform b = .ok (given, c)) :
    Module.Change V b.module c.module := by
  cases r <;> obtain ⟨_, hrun, rfl⟩ := map_ok_iff.1 h
  case declareFunction => exact declareFunction_change hrun hr.1 hr.2
  case setVariadic => exact modifyFunction_change hrun fun f => .flags f _ _
  case setNoReturn => exact modifyFunction_change hrun fun f => .flags f _ _
  case addString => exact addString_change hrun hr
  case enterFunction | switchTo =>
    cases hrun
    exact .look _
  case currentFunctionId => exact change_of_eq (currentFunctionId_eq_ok hrun).2
  case currentBlockId => exact change_of_eq (currentBlockId_eq_ok hrun).2
  case createBlock => exact createBlock_change hrun hr
  case appendBlock => exact appendBlock_change hrun
  case markUnreachable => exact markUnreachable_change hrun
  case typeOf => exact change_of_eq (typeOf_same hrun)
  case isComparison => exact change_of_eq (isComparison_same hrun)
  case alloca => exact alloca_change hrun hr
  case load => exact load_change hrun
  case store =>
    obtain ⟨_, hpush⟩ := discard_ok_iff.1 hrun
    exact push_change hpush rfl fun _ _ _ => ⟨rfl, by simp⟩
  case binary => exact binary_change hrun
  case compare => exact compare_change hrun
  case cast => exact cast_change hrun
  case call => exact call_change hrun
  case br | condBr | ret | unreachable => exact terminate_change hrun

end Quill.Ir
