import Quill.Ir.Builder
import Quill.Ir.Verifier

/-! # Functions under construction

Each change that building makes to a function, and what all of them keep. A function that
continues another has its signature, its tables and its blocks, perhaps longer; a block that has
a terminator stays as it is.
-/
namespace Quill.Ir

@[simp] theorem entry_eq_ok {α : Type} {table : Array α} {k : Nat} {a : α} :
    entry table k = .ok a ↔ table[k]? = some a := by
  unfold entry
  cases table[k]? <;> simp

theorem map_eq_ok {ε α β : Type} {f : α → β} {x : Except ε α} {b : β} :
    f <$> x = .ok b ↔ ∃ a, x = .ok a ∧ f a = b := by
  cases x <;> simp [Functor.map, Except.map]

theorem mapError_ok {ε δ α : Type} {f : ε → δ} {a : α} :
    (Except.ok a : Except ε α).mapError f = .ok a := rfl

/-- What callers see of a function. -/
structure Signature where
  name : String
  params : List Param
  ret : Ty
  isVariadic : Bool
  isNoReturn : Bool
deriving DecidableEq, Repr

def Function.signature (f : Function) : Signature :=
  ⟨f.name, f.params, f.ret, f.isVariadic, f.isNoReturn⟩

/-- `c` is `b` with more instructions, or `b` itself once that has ended. -/
structure Block.Continues (b c : Block) : Prop where
  label : c.label = b.label
  insts : ∀ (k : Nat) (i : Inst), b.insts[k]? = some i → c.insts[k]? = some i
  closed : b.terminator ≠ none → c = b

namespace Block.Continues

theorem refl (b : Block) : b.Continues b := ⟨rfl, fun _ _ h => h, fun _ => rfl⟩

theorem trans {b c d : Block} (h : b.Continues c) (h' : c.Continues d) : b.Continues d := by
  refine ⟨h'.label.trans h.label, fun k i hi => h'.insts k i (h.insts k i hi), fun hb => ?_⟩
  obtain rfl := h.closed hb
  exact h'.closed hb

end Block.Continues

namespace Function

/-- Entries that are still in the tables give an operand the type that it had. -/
theorem typeOf_of_tables {f g : Function} (hparams : g.params = f.params)
    (hslots : ∀ (k : Nat) (s : Slot), f.slots[k]? = some s → g.slots[k]? = some s)
    (hvalues : ∀ (k : Nat) (v : ValueInfo), f.values[k]? = some v → g.values[k]? = some v)
    {v : Operand} {ty : Ty} (hv : f.typeOf v = .ok ty) : g.typeOf v = .ok ty := by
  cases v with
  | inst id =>
    simp only [Function.typeOf, Function.value, map_eq_ok, entry_eq_ok] at hv ⊢
    obtain ⟨info, hinfo, hty⟩ := hv
    exact ⟨info, hvalues _ _ hinfo, hty⟩
  | param n => simpa only [Function.typeOf, Function.param, hparams] using hv
  | slotAddr s =>
    simp only [Function.typeOf, Function.slot, map_eq_ok, entry_eq_ok] at hv ⊢
    obtain ⟨slot, hslot, hty⟩ := hv
    exact ⟨slot, hslots _ _ hslot, hty⟩
  | _ => exact hv

/-- The function `g` is `f` built further. -/
structure Continues (f g : Function) : Prop where
  signature : g.signature = f.signature
  slots : ∀ (k : Nat) (s : Slot), f.slots[k]? = some s → g.slots[k]? = some s
  values : ∀ (k : Nat) (v : ValueInfo), f.values[k]? = some v → g.values[k]? = some v
  layout : ∀ (k : Nat) (b : BlockId), f.layout[k]? = some b → g.layout[k]? = some b
  blocks : ∀ (k : Nat) (b : Block), f.blocks[k]? = some b → ∃ c, g.blocks[k]? = some c ∧ b.Continues c

/-- The block exists and has no terminator yet. -/
def IsOpen (f : Function) (id : BlockId) : Prop :=
  ∃ b, f.blocks[id.index]? = some b ∧ b.terminator = none

/-- The block exists and does not belong to the layout. -/
def IsDetached (f : Function) (id : BlockId) : Prop :=
  id.index < f.blocks.size ∧ id ∉ f.layout

theorem IsOpen.lt {f : Function} {id : BlockId} (h : f.IsOpen id) : id.index < f.blocks.size := by
  obtain ⟨b, hb, -⟩ := h
  exact (Array.getElem?_eq_some_iff.1 hb).1

/-! ### The changes -/

section
variable (f : Function)

def addBlock (label : String) : Function :=
  { f with
    blocks := f.blocks.push { label, insts := #[], terminator := none, isUnreachable := false } }

def attach (id : BlockId) : Function := { f with layout := f.layout.push id }

def markDead (id : BlockId) : Function :=
  { f with blocks := f.blocks.modify id.index fun b => { b with isUnreachable := true } }

def addSlot (name : String) (ty : Ty) : Function := { f with slots := f.slots.push ⟨name, ty⟩ }

/-- An instruction at the end of a block; with `info?` it gets the next value. -/
def emit (id : BlockId) (action : Action) (info? : Option ValueInfo) : Function :=
  { f with
    values := f.values ++ info?.toArray
    blocks := f.blocks.modify id.index fun b =>
      { b with insts := b.insts.push ⟨info?.map fun _ => ⟨f.values.size⟩, action⟩ } }

def close (id : BlockId) (t : Terminator) : Function :=
  { f with blocks := f.blocks.modify id.index fun b => { b with terminator := some t } }

end

namespace Continues

theorem refl (f : Function) : f.Continues f :=
  ⟨rfl, fun _ _ h => h, fun _ _ h => h, fun _ _ h => h, fun _ b h => ⟨b, h, .refl b⟩⟩

theorem trans {f g h : Function} (hf : f.Continues g) (hg : g.Continues h) : f.Continues h := by
  refine ⟨hg.signature.trans hf.signature, fun k s hs => hg.slots k s (hf.slots k s hs),
    fun k v hv => hg.values k v (hf.values k v hv),
    fun k b hb => hg.layout k b (hf.layout k b hb), fun k b hb => ?_⟩
  obtain ⟨c, hc, hbc⟩ := hf.blocks k b hb
  obtain ⟨d, hd, hcd⟩ := hg.blocks k c hc
  exact ⟨d, hd, hbc.trans hcd⟩

variable {f g : Function}

theorem params (h : f.Continues g) : g.params = f.params := congrArg Signature.params h.signature

theorem ret (h : f.Continues g) : g.ret = f.ret := congrArg Signature.ret h.signature

theorem name (h : f.Continues g) : g.name = f.name := congrArg Signature.name h.signature

theorem blocks_size (h : f.Continues g) : f.blocks.size ≤ g.blocks.size := by
  apply Nat.le_of_not_lt
  intro hlt
  obtain ⟨c, hc, -⟩ := h.blocks _ _ (Array.getElem?_eq_getElem hlt)
  have := (Array.getElem?_eq_some_iff.1 hc).1
  omega

theorem slots_size (h : f.Continues g) : f.slots.size ≤ g.slots.size := by
  apply Nat.le_of_not_lt
  intro hlt
  have := (Array.getElem?_eq_some_iff.1 (h.slots _ _ (Array.getElem?_eq_getElem hlt))).1
  omega

theorem values_size (h : f.Continues g) : f.values.size ≤ g.values.size := by
  apply Nat.le_of_not_lt
  intro hlt
  have := (Array.getElem?_eq_some_iff.1 (h.values _ _ (Array.getElem?_eq_getElem hlt))).1
  omega

theorem push_getElem? {α : Type} {xs : Array α} {k : Nat} {a : α} (h : xs[k]? = some a) (b : α) :
    (xs.push b)[k]? = some a := by
  obtain ⟨hk, rfl⟩ := Array.getElem?_eq_some_iff.1 h
  simp [Array.getElem?_push, hk, Nat.ne_of_lt hk]

theorem addBlock (f : Function) (label : String) : f.Continues (f.addBlock label) :=
  ⟨rfl, fun _ _ h => h, fun _ _ h => h, fun _ _ h => h,
    fun _ b h => ⟨b, push_getElem? h _, .refl b⟩⟩

theorem attach (f : Function) (id : BlockId) : f.Continues (f.attach id) :=
  ⟨rfl, fun _ _ h => h, fun _ _ h => h, fun _ _ h => push_getElem? h _, fun _ b h => ⟨b, h, .refl b⟩⟩

theorem addSlot (f : Function) (name : String) (ty : Ty) : f.Continues (f.addSlot name ty) :=
  ⟨rfl, fun _ _ h => push_getElem? h _, fun _ _ h => h, fun _ _ h => h,
    fun _ b h => ⟨b, h, .refl b⟩⟩

theorem modify_blocks {blocks : Array Block} {id : Nat} {change : Block → Block}
    (h : ∀ b, blocks[id]? = some b → b.Continues (change b)) (k : Nat) (b : Block)
    (hb : blocks[k]? = some b) : ∃ c, (blocks.modify id change)[k]? = some c ∧ b.Continues c := by
  rw [Array.getElem?_modify]
  split
  · rename_i heq
    subst heq
    exact ⟨change b, by simp [hb], h b hb⟩
  · exact ⟨b, hb, .refl b⟩

theorem markDead {id : BlockId} (h : f.IsOpen id) : f.Continues (f.markDead id) := by
  refine ⟨rfl, fun _ _ h => h, fun _ _ h => h, fun _ _ h => h, modify_blocks fun b hb => ?_⟩
  obtain ⟨c, hc, hopen⟩ := h
  obtain rfl := Option.some.inj (hb.symm.trans hc)
  exact ⟨rfl, fun _ _ h => h, fun hclosed => absurd hopen hclosed⟩

theorem emit {id : BlockId} (h : f.IsOpen id) (action : Action) (info? : Option ValueInfo) :
    f.Continues (f.emit id action info?) := by
  refine ⟨rfl, fun _ _ h => h, fun k v hv => ?_, fun _ _ h => h, modify_blocks fun b hb => ?_⟩
  · have hk := (Array.getElem?_eq_some_iff.1 hv).1
    simp only [Function.emit, Array.getElem?_append, hk, ↓reduceIte, hv]
  · obtain ⟨c, hc, hopen⟩ := h
    obtain rfl := Option.some.inj (hb.symm.trans hc)
    exact ⟨rfl, fun _ _ h => push_getElem? h _, fun hclosed => absurd hopen hclosed⟩

theorem close {id : BlockId} (h : f.IsOpen id) (t : Terminator) :
    f.Continues (f.close id t) := by
  refine ⟨rfl, fun _ _ h => h, fun _ _ h => h, fun _ _ h => h, modify_blocks fun b hb => ?_⟩
  obtain ⟨c, hc, hopen⟩ := h
  obtain rfl := Option.some.inj (hb.symm.trans hc)
  exact ⟨rfl, fun _ _ h => h, fun hclosed => absurd hopen hclosed⟩

/-! ### What is known of operands stays known -/

theorem typeOf (h : f.Continues g) {v : Operand} {ty : Ty} (hv : f.typeOf v = .ok ty) :
    g.typeOf v = .ok ty :=
  typeOf_of_tables h.params h.slots h.values hv

end Continues

/-- An operand that has a type may be used, unless its type is void. -/
theorem usedType_eq {f : Function} {v : Operand} {ty : Ty} (h : f.typeOf v = .ok ty)
    (hty : ty ≠ .void) : f.usedType v = .ok ty := by
  cases v with
  | void =>
    cases h
    exact absurd rfl hty
  | inst id =>
    have := h
    simp only [typeOf, value, map_eq_ok, entry_eq_ok] at this
    obtain ⟨info, hinfo, -⟩ := this
    have hlt := (Array.getElem?_eq_some_iff.1 hinfo).1
    simp [usedType, Nat.not_le.2 hlt, h, Check.ofFault, mapError_ok]
  | param n =>
    have := h
    simp only [typeOf, param, map_eq_ok, entry_eq_ok, List.getElem?_toArray] at this
    obtain ⟨p, hp, -⟩ := this
    have hlt := (List.getElem?_eq_some_iff.1 hp).1
    simp [usedType, Nat.not_le.2 hlt, h, Check.ofFault, mapError_ok]
  | slotAddr s =>
    have := h
    simp only [typeOf, slot, map_eq_ok, entry_eq_ok] at this
    obtain ⟨slot, hslot, -⟩ := this
    have hlt := (Array.getElem?_eq_some_iff.1 hslot).1
    simp [usedType, Nat.not_le.2 hlt, h, Check.ofFault, mapError_ok]
  | _ => simp [usedType, h, Check.ofFault, mapError_ok]

theorem operandType_eq {f : Function} {v : Operand} {ty : Ty} (h : f.typeOf v = .ok ty)
    (hty : ty ≠ .void) : f.operandType v = .ok ty := by
  simp [operandType, usedType_eq h hty, Check.within, mapError_ok]

end Function

namespace Module

/-- The table in which each name leads to its place. The last name stands first. -/
def nameTable (names : List String) : List (String × FuncId) :=
  (names.mapIdx fun k x => (x, ⟨k⟩)).reverse

/-- Each function was declared under its name, and nothing else was. -/
def IsIndexed (m : Module) : Prop :=
  m.byName = nameTable (m.functions.toList.map Function.name)

variable {m n : Module} {x : String} {id : FuncId}

theorem mem_nameTable {names : List String} :
    (x, id) ∈ nameTable names ↔ names[id.index]? = some x := by
  simp only [nameTable, List.mem_reverse, List.mem_mapIdx, Prod.mk.injEq,
    List.getElem?_eq_some_iff]
  constructor
  · rintro ⟨k, hk, rfl, rfl⟩
    exact ⟨hk, rfl⟩
  · rintro ⟨hk, rfl⟩
    exact ⟨id.index, hk, rfl, rfl⟩

theorem isIndexed_empty (name : String) : (empty name).IsIndexed := rfl

namespace IsIndexed

theorem declare (h : m.IsIndexed) (f : Function) : (m.declare f).IsIndexed := by
  unfold IsIndexed at h ⊢
  simp [Module.declare, h, nameTable]

theorem of_names (h : m.IsIndexed) (htable : n.byName = m.byName)
    (hnames : n.functions.toList.map Function.name = m.functions.toList.map Function.name) :
    n.IsIndexed := by
  unfold IsIndexed at h ⊢
  rw [htable, h, hnames]

theorem setIfInBounds (h : m.IsIndexed) {k : Nat} {f g : Function}
    (hf : m.functions[k]? = some f) (hname : g.name = f.name) :
    IsIndexed { m with functions := m.functions.setIfInBounds k g } := by
  refine h.of_names rfl ?_
  have hold : (m.functions.toList.map Function.name)[k]? = some g.name := by
    simp [hf, hname]
  obtain ⟨_, hold⟩ := List.getElem?_eq_some_iff.1 hold
  rw [Array.toList_setIfInBounds, List.map_set, ← hold, List.set_getElem_self]

theorem mem (h : m.IsIndexed) :
    (x, id) ∈ m.byName ↔ ∃ f, m.functions[id.index]? = some f ∧ f.name = x := by
  rw [show m.byName = _ from h, mem_nameTable]
  simp

theorem lookup?_eq_none (h : m.IsIndexed) :
    m.lookup? x = none ↔ ∀ f ∈ m.functions, f.name ≠ x := by
  simp only [lookup?, List.lookup_eq_none_iff, bne_iff_ne, ne_eq]
  constructor
  · rintro hnone f hf rfl
    obtain ⟨k, hk⟩ := Array.mem_iff_getElem?.1 hf
    exact hnone (f.name, ⟨k⟩) (h.mem.2 ⟨f, hk, rfl⟩) rfl
  · rintro hnone ⟨y, id⟩ hy rfl
    obtain ⟨f, hf, rfl⟩ := h.mem.1 hy
    exact hnone f (Array.mem_of_getElem? hf) rfl

theorem exists_of_lookup? (h : m.IsIndexed) (hx : m.lookup? x = some id) :
    ∃ f, m.functions[id.index]? = some f ∧ f.name = x := by
  obtain ⟨before, after, htable, -⟩ := List.lookup_eq_some_iff.1 hx
  exact h.mem.1 (htable ▸ List.mem_append_right _ List.mem_cons_self)

theorem lookup?_eq_some (h : m.IsIndexed) {f : Function} (hf : m.functions[id.index]? = some f)
    (hname : f.name = x)
    (halone : ∀ (k : Nat) (g : Function), m.functions[k]? = some g → g.name = x → k = id.index) :
    m.lookup? x = some id := by
  cases hfound : m.lookup? x with
  | none => exact absurd hname (h.lookup?_eq_none.1 hfound f (Array.mem_of_getElem? hf))
  | some id' =>
    obtain ⟨g, hg, hname'⟩ := h.exists_of_lookup? hfound
    exact congrArg (fun k => some (FuncId.mk k)) (halone _ g hg hname')

/-- With no name twice, a name leads to the function that has it. -/
theorem lookup?_eq_some_iff (h : m.IsIndexed) (hnames : ∀ (j k : Nat) (f g : Function),
      m.functions[j]? = some f → m.functions[k]? = some g → f.name = g.name → j = k) :
    m.lookup? x = some id ↔ ∃ f, m.functions[id.index]? = some f ∧ f.name = x := by
  refine ⟨h.exists_of_lookup?, ?_⟩
  rintro ⟨f, hf, hname⟩
  exact h.lookup?_eq_some hf hname fun k g hg hname' => hnames _ _ g f hg hf (hname'.trans hname.symm)

end IsIndexed

end Module

theorem foldCast_typeOf {f : Function} {op : CastOp} {source target : Ty} {v v' : Operand}
    (h : foldCast op source v target = some v') : f.typeOf v' = .ok target := by
  cases op <;> cases v <;> simp only [foldCast, Option.some.injEq, reduceCtorEq] at h <;>
    subst h <;> rfl

theorem typeOf_zero (f : Function) (t : Ty) : f.typeOf (.zero t) = .ok t := by
  obtain ⟨p, q⟩ := t
  cases p <;> rfl

end Quill.Ir
