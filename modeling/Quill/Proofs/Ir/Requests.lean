import Quill.Proofs.Ir.Verified

/-! # What building ensures

Whoever builds a module makes requests of a builder, with operands of their own and those they
were given. However they go about it, results, reserved and loaded slots, and constant texts are
in the tables of their function and of their module.
-/
namespace Quill.Ir

/-- One call of a builder. The flags of a function are all that is changed from outside. -/
inductive Request where
  | declareFunction (name : String) (params : List Param) (ret : Ty)
  | setVariadic (id : FuncId) (on : Bool)
  | setNoReturn (id : FuncId) (on : Bool)
  | addString (name text : String)
  | enterFunction (id : FuncId)
  | currentFunctionId
  | createBlock (label : String)
  | appendBlock (id : BlockId)
  | switchTo (id : BlockId)
  | currentBlockId
  | markUnreachable (id : BlockId)
  | typeOf (v : Operand)
  | isComparison (v : Operand)
  | alloca (name : String) (ty : Ty)
  | load (slot : SlotId)
  | store (slot : SlotId) (value : Operand)
  | binary (op : BinaryOp) (lhs rhs : Operand)
  | compare (pred : Predicate) (lhs rhs : Operand)
  | cast (op : CastOp) (value : Operand) (target : Ty)
  | call (callee : FuncId) (args : List Operand)
  | br (dest : BlockId)
  | condBr (cond : Operand) (thenDest elseDest : BlockId)
  | ret (value : Option Operand)
  | unreachable

namespace Request

def operands : Request → List Operand
  | store _ v | cast _ v _ | condBr v _ _ | ret (some v) | typeOf v | isComparison v => [v]
  | binary _ l r | compare _ l r => [l, r]
  | call _ args => args
  | _ => []

/-- Carries a request out. Gives the operands that are handed out: a value, or the address of a
text or of a new slot. -/
def perform : Request → Build (List Operand)
  | declareFunction name params ty => (fun _ => []) <$> Build.declareFunction name params ty
  | setVariadic id on =>
    (fun _ => []) <$> Build.modifyFunction id fun f => { f with isVariadic := on }
  | setNoReturn id on =>
    (fun _ => []) <$> Build.modifyFunction id fun f => { f with isNoReturn := on }
  | addString name text => (fun v => [v]) <$> Build.addString name text
  | enterFunction id => (fun _ => []) <$> Build.enterFunction id
  | currentFunctionId => (fun _ => []) <$> Build.currentFunctionId
  | createBlock label => (fun _ => []) <$> Build.createBlock label
  | appendBlock id => (fun _ => []) <$> Build.appendBlock id
  | switchTo id => (fun _ => []) <$> Build.switchTo id
  | currentBlockId => (fun _ => []) <$> Build.currentBlockId
  | markUnreachable id => (fun _ => []) <$> Build.markUnreachable id
  | typeOf v => (fun _ => []) <$> Build.typeOf v
  | isComparison v => (fun _ => []) <$> Build.isComparison v
  | alloca name ty => (fun s => [.slotAddr s]) <$> Build.alloca name ty
  | load slot => (fun v => [v]) <$> Build.load slot
  | store slot v => (fun _ => []) <$> Build.store slot v
  | binary op l r => (fun v => [v]) <$> Build.binary op l r
  | compare pred l r => (fun v => [v]) <$> Build.compare pred l r
  | cast op v target => (fun v => [v]) <$> Build.cast op v target
  | call callee args => (fun v => [v]) <$> Build.call callee args
  | br dest => (fun _ => []) <$> Build.br dest
  | condBr c t e => (fun _ => []) <$> Build.condBr c t e
  | ret value => (fun _ => []) <$> Build.ret value
  | unreachable => (fun _ => []) <$> Build.unreachable

end Request

/-- Constants, parameters and void are free to use; results and addresses have to be handed out
first, for whichever function. -/
def Operand.IsAvailable (hand : List Operand) (v : Operand) : Prop :=
  match v with
  | .inst _ | .slotAddr _ | .global _ => v ∈ hand
  | .param _ | .int .. | .float .. | .void => True

/-- The builder is what a new one has become by requests of which none was a fault. What they
handed out is in hand. -/
inductive Built (name : String) : List Operand → Builder → Prop
  | empty : Built name [] (.empty name)
  | request {hand given : List Operand} {b c : Builder} (r : Request) : Built name hand b →
      (∀ v ∈ r.operands, v.IsAvailable hand) → r.perform b = .ok (given, c) →
      Built name (given ++ hand) c

/-! ### Tables that are large enough -/

/-- If the operand is the address of a constant text, it is one of the first so many. -/
def Operand.TextBelow (texts : Nat) : Operand → Prop
  | .global g => g.index < texts
  | _ => True

theorem Operand.TextBelow.mono {texts texts' : Nat} {v : Operand} (h : v.TextBelow texts)
    (hle : texts ≤ texts') : v.TextBelow texts' := by
  cases v with
  | global g => exact Nat.lt_of_lt_of_le h hle
  | _ => trivial

structure Inst.IsBuilt (texts : Nat) (f : Function) (i : Inst) : Prop where
  result : ∀ id, i.result = some id → id.index < f.values.size
  slot : ∀ s, i.action = .alloca s ∨ i.action = .load s → s.index < f.slots.size
  operands : ∀ v ∈ i.action.operands, v.TextBelow texts

structure Block.IsBuilt (texts : Nat) (f : Function) (b : Block) : Prop where
  insts : ∀ i ∈ b.insts, i.IsBuilt texts f
  terminator : ∀ t, b.terminator = some t → ∀ v ∈ t.operands, v.TextBelow texts

def Function.IsBuilt (texts : Nat) (f : Function) : Prop := ∀ b ∈ f.blocks, b.IsBuilt texts f

/-- Results, reserved and loaded slots, and constant texts of instructions are in the tables. -/
def Module.IsBuilt (m : Module) : Prop := ∀ f ∈ m.functions, f.IsBuilt m.globals.size

theorem Block.IsBuilt.mono {texts texts' : Nat} {f g : Function} {b : Block}
    (h : b.IsBuilt texts f) (hvalues : f.values.size ≤ g.values.size)
    (hslots : f.slots.size ≤ g.slots.size) (htexts : texts ≤ texts') : b.IsBuilt texts' g where
  insts i hi :=
    { result := fun id hid => Nat.lt_of_lt_of_le ((h.insts i hi).result id hid) hvalues
      slot := fun s hs => Nat.lt_of_lt_of_le ((h.insts i hi).slot s hs) hslots
      operands := fun v hv => ((h.insts i hi).operands v hv).mono htexts }
  terminator t ht v hv := (h.terminator t ht v hv).mono htexts

namespace Function.IsBuilt

variable {texts : Nat} {f : Function}

theorem declared (name : String) (params : List Param) (ret : Ty) :
    (Function.declared name params ret).IsBuilt texts := by
  intro b hb
  simp [Function.declared] at hb

theorem mono {texts' : Nat} (h : f.IsBuilt texts) (hle : texts ≤ texts') : f.IsBuilt texts' :=
  fun b hb => (h b hb).mono (Nat.le_refl _) (Nat.le_refl _) hle

theorem of_blocks {g : Function} (h : f.IsBuilt texts) (hblocks : g.blocks = f.blocks)
    (hvalues : g.values = f.values) (hslots : g.slots = f.slots) : g.IsBuilt texts := by
  intro b hb
  rw [hblocks] at hb
  exact (h b hb).mono (Nat.le_of_eq (congrArg Array.size hvalues.symm))
    (Nat.le_of_eq (congrArg Array.size hslots.symm)) (Nat.le_refl _)

theorem addBlock (h : f.IsBuilt texts) (label : String) : (f.addBlock label).IsBuilt texts := by
  intro b hb
  rcases Array.mem_push.1 hb with hb | rfl
  · exact (h b hb).mono (Nat.le_refl _) (Nat.le_refl _) (Nat.le_refl _)
  · exact ⟨fun i hi => by simp at hi, fun t ht => by cases ht⟩

theorem of_modify {g : Function} {k : Nat} {change : Block → Block}
    (hg : g.blocks = f.blocks.modify k change) (h : ∀ b ∈ f.blocks, b.IsBuilt texts g)
    (hchange : ∀ b : Block, b.IsBuilt texts g → (change b).IsBuilt texts g) :
    g.IsBuilt texts := by
  intro b hb
  rw [hg] at hb
  obtain ⟨j, hj⟩ := Array.mem_iff_getElem?.1 hb
  rw [Array.getElem?_modify] at hj
  split at hj
  · obtain ⟨c, hc, rfl⟩ := Option.map_eq_some_iff.1 hj
    exact hchange c (h c (Array.mem_of_getElem? hc))
  · exact h b (Array.mem_of_getElem? hj)

theorem markDead (h : f.IsBuilt texts) (id : BlockId) : (f.markDead id).IsBuilt texts := by
  have hblocks : (f.markDead id).blocks =
      f.blocks.modify id.index fun b => { b with isUnreachable := true } := rfl
  refine of_modify hblocks
    (fun b hb => (h b hb).mono (Nat.le_refl _) (Nat.le_refl _) (Nat.le_refl _)) fun b hb => ?_
  exact ⟨hb.insts, hb.terminator⟩

theorem addSlot (h : f.IsBuilt texts) (name : String) (ty : Ty) :
    (f.addSlot name ty).IsBuilt texts := by
  intro b hb
  refine (h b hb).mono (Nat.le_refl _) ?_ (Nat.le_refl _)
  simp [Function.addSlot]

theorem emit (h : f.IsBuilt texts) {id : BlockId} {action : Action} {info? : Option ValueInfo}
    (hslot : ∀ s, action = .alloca s ∨ action = .load s → s.index < f.slots.size)
    (hoperands : ∀ v ∈ action.operands, v.TextBelow texts) :
    (f.emit id action info?).IsBuilt texts := by
  have hvalues : f.values.size ≤ (f.emit id action info?).values.size := by simp [Function.emit]
  have hblocks : (f.emit id action info?).blocks = f.blocks.modify id.index fun b =>
      { b with insts := b.insts.push ⟨info?.map fun _ => ⟨f.values.size⟩, action⟩ } := rfl
  refine of_modify hblocks
    (fun b hb => (h b hb).mono hvalues (Nat.le_refl _) (Nat.le_refl _)) fun b hb => ?_
  refine ⟨fun i hi => ?_, hb.terminator⟩
  rcases Array.mem_push.1 hi with hi | rfl
  · exact hb.insts i hi
  · refine ⟨fun value hvalue => ?_, hslot, hoperands⟩
    cases info? with
    | none => cases hvalue
    | some info =>
      cases hvalue
      simp [Function.emit]

theorem close (h : f.IsBuilt texts) {id : BlockId} {t : Terminator}
    (hoperands : ∀ v ∈ t.operands, v.TextBelow texts) : (f.close id t).IsBuilt texts := by
  have hblocks : (f.close id t).blocks =
      f.blocks.modify id.index fun b => { b with terminator := some t } := rfl
  refine of_modify hblocks
    (fun b hb => (h b hb).mono (Nat.le_refl _) (Nat.le_refl _) (Nat.le_refl _)) fun b hb => ?_
  refine ⟨hb.insts, fun t' ht' => ?_⟩
  cases ht'
  exact hoperands

end Function.IsBuilt

/-! ### What the operations of a builder do -/

namespace Builder

/-- The builder is at work on that function. -/
def WorksOn (b : Builder) (id : FuncId) (f : Function) : Prop :=
  b.function? = some id ∧ b.module.functions[id.index]? = some f

def withFunction (b : Builder) (id : FuncId) (g : Function) : Builder :=
  { b with module :=
    { b.module with functions := b.module.functions.setIfInBounds id.index g } }

variable {b : Builder} {id : FuncId} {f g : Function}

theorem WorksOn.withFunction (h : b.WorksOn id f) (g : Function) :
    (b.withFunction id g).WorksOn id g := by
  refine ⟨h.1, ?_⟩
  have hlt := (Array.getElem?_eq_some_iff.1 h.2).1
  simp [Builder.withFunction, hlt]

theorem WorksOn.unique {id' : FuncId} (h : b.WorksOn id f) (h' : b.WorksOn id' g) :
    id' = id ∧ g = f := by
  obtain rfl := Option.some.inj (h'.1.symm.trans h.1)
  exact ⟨rfl, Option.some.inj (h'.2.symm.trans h.2)⟩

@[simp] theorem withFunction_withFunction :
    (b.withFunction id f).withFunction id g = b.withFunction id g := by
  simp [withFunction]

theorem IsBuilt.withFunction (h : b.module.IsBuilt) (hg : g.IsBuilt b.module.globals.size) :
    (b.withFunction id g).module.IsBuilt := by
  intro f hf
  rcases Array.mem_or_eq_of_mem_setIfInBounds hf with hf | rfl
  · exact h f hf
  · exact hg

end Builder

namespace Build

section
variable {α β : Type} {b c : Builder} {a : α} {x : Build α}

theorem bind_ok_iff {g : α → Build β} {r : β × Builder} :
    (x >>= g) b = .ok r ↔ ∃ a c, x b = .ok (a, c) ∧ g a c = .ok r := by
  change (x b >>= fun r => g r.1 r.2) = _ ↔ _
  rw [Ir.bind_eq_ok, Prod.exists]

theorem map_ok_iff {g : α → β} {r : β} :
    (g <$> x) b = .ok (r, c) ↔ ∃ a, x b = .ok (a, c) ∧ g a = r := by
  rw [map_eq_pure_bind, bind_ok_iff]
  constructor
  · rintro ⟨a, c', hx, hr⟩
    cases hr
    exact ⟨a, hx, rfl⟩
  · rintro ⟨a, hx, rfl⟩
    exact ⟨a, c, hx, rfl⟩

theorem discard_ok_iff {u : Unit} : discard x b = .ok (u, c) ↔ ∃ a, x b = .ok (a, c) := by
  change ((fun _ => ()) <$> x) b = _ ↔ _
  simp [map_ok_iff]

theorem ofExcept_ok_iff {e : Except Fault α} : ofExcept e b = .ok (a, c) ↔ e = .ok a ∧ b = c := by
  cases e with
  | error f => simp [ofExcept, Except.map]
  | ok a' =>
    constructor
    · intro h
      cases h
      exact ⟨rfl, rfl⟩
    · rintro ⟨h, rfl⟩
      cases h
      rfl

end

section
variable {b c : Builder} {f : Function}

theorem currentFunctionId_eq_ok {id : FuncId} (h : currentFunctionId b = .ok (id, c)) :
    b.function? = some id ∧ b = c := by
  obtain ⟨s, s', hget, h⟩ := bind_ok_iff.1 h
  cases hget
  cases hid : b.function? with
  | none =>
    rw [hid] at h
    cases h
  | some id' =>
    rw [hid] at h
    cases h
    exact ⟨rfl, rfl⟩

theorem currentBlockId_eq_ok {id : BlockId} (h : currentBlockId b = .ok (id, c)) :
    b.block? = some id ∧ b = c := by
  obtain ⟨s, s', hget, h⟩ := bind_ok_iff.1 h
  cases hget
  cases hid : b.block? with
  | none =>
    rw [hid] at h
    cases h
  | some id' =>
    rw [hid] at h
    cases h
    exact ⟨rfl, rfl⟩

theorem currentFunction_eq_ok (h : currentFunction b = .ok (f, c)) :
    ∃ id, b.WorksOn id f ∧ b = c := by
  obtain ⟨id, s, hcurrent, hrest⟩ := bind_ok_iff.1 h
  obtain ⟨hid, rfl⟩ := currentFunctionId_eq_ok hcurrent
  obtain ⟨s, s', hget, hread⟩ := bind_ok_iff.1 hrest
  cases hget
  obtain ⟨hf, rfl⟩ := ofExcept_ok_iff.1 hread
  exact ⟨id, ⟨hid, entry_eq_ok.1 hf⟩, rfl⟩

theorem modify_eq_setIfInBounds {α : Type} {xs : Array α} {k : Nat} {a : α} (h : xs[k]? = some a)
    (change : α → α) : xs.modify k change = xs.setIfInBounds k (change a) := by
  apply Array.ext_getElem?
  intro j
  rw [Array.getElem?_modify, Array.getElem?_setIfInBounds]
  split
  · rename_i heq
    subst heq
    rw [h, if_pos (Array.getElem?_eq_some_iff.1 h).1]
    rfl
  · rfl

theorem modifyFunction_eq_ok {id : FuncId} {change : Function → Function} {u : Unit}
    (h : modifyFunction id change b = .ok (u, c)) :
    ∃ f, b.module.functions[id.index]? = some f ∧ c = b.withFunction id (change f) := by
  obtain ⟨s, s', hget, hrest⟩ := bind_ok_iff.1 h
  cases hget
  obtain ⟨_, s, hdiscard, hmodify⟩ := bind_ok_iff.1 hrest
  obtain ⟨f, hread⟩ := discard_ok_iff.1 hdiscard
  obtain ⟨hf, rfl⟩ := ofExcept_ok_iff.1 hread
  have hf := entry_eq_ok.1 hf
  cases hmodify
  refine ⟨f, hf, ?_⟩
  simp only [Builder.withFunction, modify_eq_setIfInBounds hf]

theorem update_eq_ok {change : Function → Function} {u : Unit}
    (h : update change b = .ok (u, c)) :
    ∃ id f, b.WorksOn id f ∧ c = b.withFunction id (change f) := by
  obtain ⟨id, s, hcurrent, hmodify⟩ := bind_ok_iff.1 h
  obtain ⟨hid, rfl⟩ := currentFunctionId_eq_ok hcurrent
  obtain ⟨f, hf, rfl⟩ := modifyFunction_eq_ok hmodify
  exact ⟨id, f, ⟨hid, hf⟩, rfl⟩

theorem push_eq_ok {action : Action} {info? : Option ValueInfo} {r : Option ValueId}
    (h : push action info? b = .ok (r, c)) :
    ∃ id f block, b.WorksOn id f ∧ b.block? = some block ∧ f.IsOpen block ∧
      r = info?.map (fun _ => ⟨f.values.size⟩) ∧
      c = b.withFunction id (f.emit block action info?) := by
  obtain ⟨block, s, hcurrent, hrest⟩ := bind_ok_iff.1 h
  obtain ⟨hblock, rfl⟩ := currentBlockId_eq_ok hcurrent
  obtain ⟨f, s, hcurrent, hrest⟩ := bind_ok_iff.1 hrest
  obtain ⟨id, hworks, rfl⟩ := currentFunction_eq_ok hcurrent
  obtain ⟨body, s, hread, hrest⟩ := bind_ok_iff.1 hrest
  obtain ⟨hbody, rfl⟩ := ofExcept_ok_iff.1 hread
  dsimp only at hrest
  split at hrest
  · cases hrest
  · rename_i hopen
    obtain ⟨_, s, hvalues, hrest⟩ := bind_ok_iff.1 hrest
    obtain ⟨id', f', hworks', rfl⟩ := update_eq_ok hvalues
    obtain ⟨rfl, rfl⟩ := hworks.unique hworks'
    obtain ⟨_, s, hinsts, hreturn⟩ := bind_ok_iff.1 hrest
    obtain ⟨id, g, hworks', rfl⟩ := update_eq_ok hinsts
    obtain ⟨rfl, rfl⟩ := (hworks.withFunction _).unique hworks'
    cases hreturn
    refine ⟨_, _, block, hworks, hblock, ?_, rfl, Builder.withFunction_withFunction⟩
    exact ⟨body, entry_eq_ok.1 hbody, by simpa using hopen⟩

theorem terminate_eq_ok {t : Terminator} {u : Unit} (h : terminate t b = .ok (u, c)) :
    ∃ id f block, b.WorksOn id f ∧ b.block? = some block ∧ f.IsOpen block ∧
      c = b.withFunction id (f.close block t) := by
  obtain ⟨block, s, hcurrent, hrest⟩ := bind_ok_iff.1 h
  obtain ⟨hblock, rfl⟩ := currentBlockId_eq_ok hcurrent
  obtain ⟨f, s, hcurrent, hrest⟩ := bind_ok_iff.1 hrest
  obtain ⟨id, hworks, rfl⟩ := currentFunction_eq_ok hcurrent
  obtain ⟨body, s, hread, hrest⟩ := bind_ok_iff.1 hrest
  obtain ⟨hbody, rfl⟩ := ofExcept_ok_iff.1 hread
  dsimp only at hrest
  split at hrest
  · cases hrest
  · rename_i hopen
    obtain ⟨id', f', hworks', rfl⟩ := update_eq_ok hrest
    obtain ⟨rfl, rfl⟩ := hworks.unique hworks'
    refine ⟨_, _, block, hworks, hblock, ?_, rfl⟩
    exact ⟨body, entry_eq_ok.1 hbody, by simpa using hopen⟩

end

end Build

/-! ### Every request keeps the tables large enough -/

/-- What an operation leaves behind: a module with large enough tables and no text less, and
nothing handed out that is the address of a text that is not there. -/
structure Builder.Leaves (b : Builder) (given : List Operand) (c : Builder) : Prop where
  isBuilt : c.module.IsBuilt
  texts : b.module.globals.size ≤ c.module.globals.size
  given : ∀ v ∈ given, v.TextBelow c.module.globals.size

namespace Build

section
variable {b c : Builder} {given : List Operand} {f : Function}

theorem leaves_same (hb : b.module.IsBuilt) (hc : c.module = b.module) : b.Leaves [] c where
  isBuilt := hc ▸ hb
  texts := Nat.le_of_eq (congrArg (fun m => m.globals.size) hc.symm)
  given := List.forall_mem_nil _

theorem leaves_withFunction (hb : b.module.IsBuilt) {id : FuncId} {g : Function}
    (hg : g.IsBuilt b.module.globals.size) (hgiven : ∀ v ∈ given, v.TextBelow 0) :
    b.Leaves given (b.withFunction id g) where
  isBuilt := Builder.IsBuilt.withFunction hb hg
  texts := Nat.le_refl _
  given v hv := (hgiven v hv).mono (Nat.zero_le _)

theorem isBuilt_of_worksOn (hb : b.module.IsBuilt) {id : FuncId} (h : b.WorksOn id f) :
    f.IsBuilt b.module.globals.size :=
  hb f (Array.mem_of_getElem? h.2)

theorem declareFunction_leaves (hb : b.module.IsBuilt) {name : String} {params : List Param}
    {ty : Ty} {id? : Option FuncId} (h : declareFunction name params ty b = .ok (id?, c)) :
    b.Leaves [] c := by
  obtain ⟨s, s', hget, hrest⟩ := bind_ok_iff.1 h
  cases hget
  split at hrest
  · cases hrest
    exact leaves_same hb rfl
  · obtain ⟨_, s, hset, hreturn⟩ := bind_ok_iff.1 hrest
    cases hset
    cases hreturn
    refine ⟨fun f hf => ?_, Nat.le_refl _, List.forall_mem_nil _⟩
    rcases Array.mem_push.1 hf with hf | rfl
    · exact hb f hf
    · exact Function.IsBuilt.declared name params ty

theorem modifyFunction_leaves {id : FuncId} {change : Function → Function} {u : Unit}
    (h : modifyFunction id change b = .ok (u, c)) (hb : b.module.IsBuilt)
    (hchange : ∀ (n : Nat) (f : Function), f.IsBuilt n → (change f).IsBuilt n) :
    b.Leaves [] c := by
  obtain ⟨f, hf, rfl⟩ := modifyFunction_eq_ok h
  exact leaves_withFunction hb (hchange _ f (hb f (Array.mem_of_getElem? hf)))
    (List.forall_mem_nil _)

theorem update_leaves {change : Function → Function} {u : Unit}
    (h : update change b = .ok (u, c)) (hb : b.module.IsBuilt)
    (hchange : ∀ (n : Nat) (f : Function), f.IsBuilt n → (change f).IsBuilt n) :
    b.Leaves [] c := by
  obtain ⟨id, f, hworks, rfl⟩ := update_eq_ok h
  exact leaves_withFunction hb (hchange _ f (isBuilt_of_worksOn hb hworks))
    (List.forall_mem_nil _)

theorem addString_leaves (hb : b.module.IsBuilt) {name text : String} {v : Operand}
    (h : addString name text b = .ok (v, c)) : b.Leaves [v] c := by
  obtain ⟨s, s', hget, hrest⟩ := bind_ok_iff.1 h
  cases hget
  obtain ⟨_, s, hset, hreturn⟩ := bind_ok_iff.1 hrest
  cases hset
  cases hreturn
  have hle : b.module.globals.size ≤
      (b.module.globals.push ⟨s!"{name}.{b.module.globals.size}", text⟩).size := by simp
  refine ⟨fun f hf => (hb f hf).mono hle, hle, List.forall_mem_singleton.2 ?_⟩
  simp [Operand.TextBelow]

theorem createBlock_leaves (hb : b.module.IsBuilt) {label : String} {id : BlockId}
    (h : createBlock label b = .ok (id, c)) : b.Leaves [] c := by
  obtain ⟨_, s, hcurrent, hrest⟩ := bind_ok_iff.1 h
  obtain ⟨_, -, rfl⟩ := currentFunction_eq_ok hcurrent
  obtain ⟨_, s, hupdate, hreturn⟩ := bind_ok_iff.1 hrest
  cases hreturn
  exact update_leaves hupdate hb fun _ _ hf => hf.addBlock label

theorem appendBlock_leaves (hb : b.module.IsBuilt) {id : BlockId} {u : Unit}
    (h : appendBlock id b = .ok (u, c)) : b.Leaves [] c := by
  obtain ⟨_, s, hcurrent, hrest⟩ := bind_ok_iff.1 h
  obtain ⟨_, -, rfl⟩ := currentFunction_eq_ok hcurrent
  dsimp only at hrest
  split at hrest
  · cases hrest
  · exact update_leaves hrest hb fun _ _ hf => hf.of_blocks rfl rfl rfl

theorem markUnreachable_leaves (hb : b.module.IsBuilt) {id : BlockId} {u : Unit}
    (h : markUnreachable id b = .ok (u, c)) : b.Leaves [] c := by
  obtain ⟨_, s, hcurrent, hrest⟩ := bind_ok_iff.1 h
  obtain ⟨_, -, rfl⟩ := currentFunction_eq_ok hcurrent
  obtain ⟨_, s, hblock, hrest⟩ := bind_ok_iff.1 hrest
  obtain ⟨_, hread⟩ := discard_ok_iff.1 hblock
  obtain ⟨-, rfl⟩ := ofExcept_ok_iff.1 hread
  exact update_leaves hrest hb fun _ _ hf => hf.markDead id

theorem typeOf_same {v : Operand} {ty : Ty} (h : typeOf v b = .ok (ty, c)) : b = c := by
  obtain ⟨_, s, hcurrent, hrest⟩ := bind_ok_iff.1 h
  obtain ⟨_, -, rfl⟩ := currentFunction_eq_ok hcurrent
  exact (ofExcept_ok_iff.1 hrest).2

theorem isComparison_same {v : Operand} {compared : Bool}
    (h : isComparison v b = .ok (compared, c)) : b = c := by
  obtain ⟨_, s, hcurrent, hrest⟩ := bind_ok_iff.1 h
  obtain ⟨_, -, rfl⟩ := currentFunction_eq_ok hcurrent
  exact (ofExcept_ok_iff.1 hrest).2

end

/-! Instructions and terminators -/

section
variable {b c : Builder} {given : List Operand} {action : Action}

/-- The slot that the action reserves or loads is one of the function at work. -/
def HasSlot (b : Builder) (action : Action) : Prop :=
  ∀ id f, b.WorksOn id f → ∀ s, action = .alloca s ∨ action = .load s → s.index < f.slots.size

theorem push_leaves {info? : Option ValueInfo} {r : Option ValueId}
    (h : push action info? b = .ok (r, c)) (hb : b.module.IsBuilt) (hslot : HasSlot b action)
    (hoperands : ∀ v ∈ action.operands, v.TextBelow b.module.globals.size)
    (hgiven : ∀ v ∈ given, v.TextBelow 0) : b.Leaves given c := by
  obtain ⟨id, f, block, hworks, -, -, -, rfl⟩ := push_eq_ok h
  exact leaves_withFunction hb
    ((isBuilt_of_worksOn hb hworks).emit (hslot id f hworks) hoperands) hgiven

theorem pushValue_leaves {ty : Ty} {compared : Bool} {v : Operand}
    (h : pushValue action ty compared b = .ok (v, c)) (hb : b.module.IsBuilt)
    (hslot : HasSlot b action)
    (hoperands : ∀ v ∈ action.operands, v.TextBelow b.module.globals.size) : b.Leaves [v] c := by
  obtain ⟨r, s, hpush, hreturn⟩ := bind_ok_iff.1 h
  cases r <;> cases hreturn <;>
    exact push_leaves hpush hb hslot hoperands (List.forall_mem_singleton.2 trivial)

theorem terminate_leaves {t : Terminator} {u : Unit} (h : terminate t b = .ok (u, c))
    (hb : b.module.IsBuilt) (hoperands : ∀ v ∈ t.operands, v.TextBelow b.module.globals.size) :
    b.Leaves [] c := by
  obtain ⟨id, f, block, hworks, -, -, rfl⟩ := terminate_eq_ok h
  exact leaves_withFunction hb ((isBuilt_of_worksOn hb hworks).close hoperands)
    (List.forall_mem_nil _)

theorem alloca_leaves (hb : b.module.IsBuilt) {name : String} {ty : Ty} {slot : SlotId}
    (h : alloca name ty b = .ok (slot, c)) : b.Leaves [.slotAddr slot] c := by
  obtain ⟨f, s, hcurrent, hrest⟩ := bind_ok_iff.1 h
  obtain ⟨id, hworks, rfl⟩ := currentFunction_eq_ok hcurrent
  obtain ⟨_, s, hupdate, hrest⟩ := bind_ok_iff.1 hrest
  obtain ⟨id', f', hworks', rfl⟩ := update_eq_ok hupdate
  obtain ⟨rfl, rfl⟩ := hworks.unique hworks'
  obtain ⟨_, s, hdiscard, hreturn⟩ := bind_ok_iff.1 hrest
  obtain ⟨_, hpush⟩ := discard_ok_iff.1 hdiscard
  cases hreturn
  have hreserved : (b.withFunction id' (f'.addSlot name ty)).module.IsBuilt :=
    Builder.IsBuilt.withFunction hb ((isBuilt_of_worksOn hb hworks).addSlot name ty)
  have hslot : HasSlot (b.withFunction id' (f'.addSlot name ty)) (.alloca ⟨f'.slots.size⟩) := by
    intro id g hg s hs
    obtain ⟨rfl, rfl⟩ := (hworks.withFunction _).unique hg
    rcases hs with hs | hs <;> cases hs
    simp [Function.addSlot]
  have hgiven : ∀ v ∈ [Operand.slotAddr ⟨f'.slots.size⟩], v.TextBelow 0 :=
    List.forall_mem_singleton.2 trivial
  have hleaves := push_leaves hpush hreserved hslot (List.forall_mem_nil _) hgiven
  exact ⟨hleaves.isBuilt, hleaves.texts, hleaves.given⟩

theorem load_leaves (hb : b.module.IsBuilt) {slot : SlotId} {v : Operand}
    (h : load slot b = .ok (v, c)) : b.Leaves [v] c := by
  obtain ⟨f, s, hcurrent, hrest⟩ := bind_ok_iff.1 h
  obtain ⟨id, hworks, rfl⟩ := currentFunction_eq_ok hcurrent
  obtain ⟨_, s, hread, hpush⟩ := bind_ok_iff.1 hrest
  obtain ⟨hslot, rfl⟩ := ofExcept_ok_iff.1 hread
  refine pushValue_leaves hpush hb (fun id g hg s hs => ?_) (List.forall_mem_nil _)
  obtain ⟨rfl, rfl⟩ := hworks.unique hg
  rcases hs with hs | hs <;> cases hs
  exact (Array.getElem?_eq_some_iff.1 (entry_eq_ok.1 hslot)).1

theorem binary_leaves {op : BinaryOp} {l r v : Operand} (h : binary op l r b = .ok (v, c))
    (hb : b.module.IsBuilt)
    (hoperands : ∀ v ∈ (Action.binary op l r).operands, v.TextBelow b.module.globals.size) :
    b.Leaves [v] c := by
  obtain ⟨_, s, htype, hpush⟩ := bind_ok_iff.1 h
  obtain rfl := typeOf_same htype
  exact pushValue_leaves hpush hb (by simp [HasSlot]) hoperands

theorem textBelow_of_foldCast {op : CastOp} {source target : Ty} {v v' : Operand}
    (h : foldCast op source v target = some v') : v'.TextBelow 0 := by
  cases op <;> cases v <;> cases h <;> trivial

theorem cast_leaves {op : CastOp} {v v' : Operand} {target : Ty}
    (h : cast op v target b = .ok (v', c)) (hb : b.module.IsBuilt)
    (hoperands : ∀ u ∈ (Action.cast op v target).operands, u.TextBelow b.module.globals.size) :
    b.Leaves [v'] c := by
  obtain ⟨source, s, htype, hrest⟩ := bind_ok_iff.1 h
  obtain rfl := typeOf_same htype
  cases hfold : foldCast op source v target with
  | some folded =>
    rw [hfold] at hrest
    cases hrest
    exact ⟨hb, Nat.le_refl _, List.forall_mem_singleton.2
      ((textBelow_of_foldCast hfold).mono (Nat.zero_le _))⟩
  | none =>
    rw [hfold] at hrest
    exact pushValue_leaves hrest hb (by simp [HasSlot]) hoperands

theorem call_leaves {callee : FuncId} {args : List Operand} {v : Operand}
    (h : call callee args b = .ok (v, c)) (hb : b.module.IsBuilt)
    (hoperands : ∀ v ∈ args, v.TextBelow b.module.globals.size) : b.Leaves [v] c := by
  obtain ⟨s, s', hget, hrest⟩ := bind_ok_iff.1 h
  cases hget
  obtain ⟨_, s, hread, hrest⟩ := bind_ok_iff.1 hrest
  obtain ⟨-, rfl⟩ := ofExcept_ok_iff.1 hread
  split at hrest
  · obtain ⟨_, s, hdiscard, hreturn⟩ := bind_ok_iff.1 hrest
    obtain ⟨_, hpush⟩ := discard_ok_iff.1 hdiscard
    cases hreturn
    exact push_leaves hpush hb (by simp [HasSlot]) hoperands (List.forall_mem_singleton.2 trivial)
  · exact pushValue_leaves hrest hb (by simp [HasSlot]) hoperands

end

end Build

open Build in
theorem Request.leaves {b c : Builder} {given : List Operand} (r : Request)
    (hb : b.module.IsBuilt) (hr : ∀ v ∈ r.operands, v.TextBelow b.module.globals.size)
    (h : r.perform b = .ok (given, c)) : b.Leaves given c := by
  cases r <;> obtain ⟨_, hrun, rfl⟩ := map_ok_iff.1 h
  case declareFunction => exact declareFunction_leaves hb hrun
  case setVariadic => exact modifyFunction_leaves hrun hb fun _ _ hf => hf.of_blocks rfl rfl rfl
  case setNoReturn => exact modifyFunction_leaves hrun hb fun _ _ hf => hf.of_blocks rfl rfl rfl
  case addString => exact addString_leaves hb hrun
  case enterFunction | switchTo =>
    cases hrun
    exact leaves_same hb rfl
  case currentFunctionId =>
    obtain ⟨-, rfl⟩ := currentFunctionId_eq_ok hrun
    exact leaves_same hb rfl
  case currentBlockId =>
    obtain ⟨-, rfl⟩ := currentBlockId_eq_ok hrun
    exact leaves_same hb rfl
  case createBlock => exact createBlock_leaves hb hrun
  case appendBlock => exact appendBlock_leaves hb hrun
  case markUnreachable => exact markUnreachable_leaves hb hrun
  case typeOf =>
    obtain rfl := typeOf_same hrun
    exact leaves_same hb rfl
  case isComparison =>
    obtain rfl := isComparison_same hrun
    exact leaves_same hb rfl
  case alloca => exact alloca_leaves hb hrun
  case load => exact load_leaves hb hrun
  case store =>
    obtain ⟨_, hpush⟩ := discard_ok_iff.1 hrun
    exact push_leaves hpush hb (by simp [HasSlot]) hr (List.forall_mem_nil _)
  case binary => exact binary_leaves hrun hb hr
  case compare => exact pushValue_leaves hrun hb (by simp [HasSlot]) hr
  case cast => exact cast_leaves hrun hb hr
  case call => exact call_leaves hrun hb hr
  case br | unreachable => exact terminate_leaves hrun hb (List.forall_mem_nil _)
  case condBr => exact terminate_leaves hrun hb hr
  case ret value _ =>
    refine terminate_leaves hrun hb ?_
    cases value with
    | none => exact List.forall_mem_nil _
    | some v => exact hr

/-- However a module has been built, results, reserved and loaded slots, and constant texts are in
its tables. -/
theorem Built.isBuilt {name : String} {hand : List Operand} {b : Builder} (h : Built name hand b) :
    b.module.IsBuilt ∧ ∀ v ∈ hand, v.TextBelow b.module.globals.size := by
  induction h with
  | empty =>
    refine ⟨fun f hf => ?_, List.forall_mem_nil _⟩
    simp [Builder.empty, Module.empty] at hf
  | @request hand given b c r _ havailable hrun ih =>
    obtain ⟨hb, hhand⟩ := ih
    have hoperands : ∀ v ∈ r.operands, v.TextBelow b.module.globals.size := by
      intro v hv
      have hv := havailable v hv
      cases v with
      | global g => exact hhand _ hv
      | _ => trivial
    have hleaves := r.leaves hb hoperands hrun
    refine ⟨hleaves.isBuilt, fun v hv => ?_⟩
    rcases List.mem_append.1 hv with hv | hv
    · exact hleaves.given v hv
    · exact (hhand v hv).mono hleaves.texts

end Quill.Ir
