import Quill.Proofs.Ir.Growth
import Quill.Proofs.Machine.Steps

/-! # Paths through a function

Code gives names and uses them: an instruction gives its result, or the slot that it makes room
for. A path begins at the entry and follows instructions and edges. If each block is assigned
names that are given on every way to it, then what a path uses was given on the path before.
-/
namespace Quill.Ir

/-- What one instruction gives and others use. -/
inductive Name where
  | value (id : ValueId)
  | slot (id : SlotId)
deriving DecidableEq, Repr

def Name.IsIn (f : Function) : Name → Prop
  | value id => id.index < f.values.size
  | slot id => id.index < f.slots.size

/-- The result of an instruction, or the slot whose address is taken. -/
def Operand.uses : Operand → List Name
  | inst id => [.value id]
  | slotAddr id => [.slot id]
  | param _ | int .. | float .. | global _ | void => []

def Action.accesses : Action → List Name
  | load s | store s _ => [.slot s]
  | _ => []

def Action.uses (a : Action) : List Name := a.accesses ++ a.operands.flatMap Operand.uses

def Terminator.uses (t : Terminator) : List Name := t.operands.flatMap Operand.uses

def Action.reserves : Action → List Name
  | alloca s => [.slot s]
  | _ => []

def Inst.gives (i : Inst) : List Name := i.result.toList.map .value ++ i.action.reserves

/-- A place in the code of a function; the terminator stands behind the last instruction. -/
structure Point where
  block : BlockId
  index : Nat
deriving DecidableEq, Repr

namespace Function

variable (f : Function)

def instAt (p : Point) : Option Inst := f.blocks[p.block.index]?.bind (·.insts[p.index]?)

def terminatorOf (id : BlockId) : Option Terminator := f.blocks[id.index]?.bind Block.terminator

def Gives (p : Point) (n : Name) : Prop := ∃ i, f.instAt p = some i ∧ n ∈ i.gives

/-- The instruction there, or the terminator behind all instructions, uses the name. -/
def Uses (p : Point) (n : Name) : Prop :=
  (∃ i, f.instAt p = some i ∧ n ∈ i.action.uses) ∨
    f.instAt p = none ∧ ∃ t, f.terminatorOf p.block = some t ∧ n ∈ t.uses

/-- A path from the beginning of the entry to the point, and the points before it, the latest
first. -/
inductive Path : List Point → Point → Prop
  | entry {id} : f.entryBlock? = some id → Path [] ⟨id, 0⟩
  | next {past p i} : Path past p → f.instAt p = some i →
      Path (p :: past) ⟨p.block, p.index + 1⟩
  | jump {past p t id} : Path past p → f.instAt p = none → f.terminatorOf p.block = some t →
      id ∈ t.successors → Path (p :: past) ⟨id, 0⟩

/-- The name is assigned to the block or given at one of its first so many places. -/
def Has (before : BlockId → List Name) (id : BlockId) (count : Nat) (n : Name) : Prop :=
  n ∈ before id ∨ ∃ k < count, f.Gives ⟨id, k⟩ n

/-- The names assigned to the blocks account for all that is used: nothing is assigned to the
entry, an edge leads only to blocks whose names are there at its end, and no name is given
twice. -/
structure Accounts (before : BlockId → List Name) : Prop where
  entry : ∀ id, f.entryBlock? = some id → before id = []
  insts : ∀ p i, f.instAt p = some i → ∀ n ∈ i.action.uses, f.Has before p.block p.index n
  ends : ∀ id t, f.terminatorOf id = some t → ∀ n ∈ t.uses, ∃ count, f.Has before id count n
  edges : ∀ id t next, f.terminatorOf id = some t → next ∈ t.successors → ∀ n ∈ before next,
    ∃ count, f.Has before id count n
  once : ∀ p q n, f.Gives p n → f.Gives q n → p = q

variable {f} {before : BlockId → List Name} {past : List Point} {p : Point} {n : Name}

theorem Has.of_end {count : Nat} (hend : f.instAt p = none) (h : f.Has before p.block count n) :
    f.Has before p.block p.index n := by
  rcases h with hn | ⟨k, -, i, hi, hn⟩
  · exact .inl hn
  · refine .inr ⟨k, Nat.lt_of_not_le fun hle => ?_, i, hi, hn⟩
    obtain ⟨b, hb, hi⟩ := Option.bind_eq_some_iff.1 hi
    simp only [instAt, hb, Option.bind_some, Array.getElem?_eq_none_iff] at hend
    have hk := (Array.getElem?_eq_some_iff.1 hi).1
    exact Nat.lt_irrefl _ (Nat.lt_of_lt_of_le hk (Nat.le_trans hend hle))

theorem Accounts.has (hf : f.Accounts before) (hn : f.Uses p n) :
    f.Has before p.block p.index n := by
  rcases hn with ⟨i, hi, hn⟩ | ⟨hend, t, ht, hn⟩
  · exact hf.insts p i hi n hn
  · obtain ⟨count, hhas⟩ := hf.ends _ t ht n hn
    exact hhas.of_end hend

/-- A path passes the beginning of the block that it is in, and has been given what is assigned to
that block. -/
theorem Path.given (h : f.Path past p) (hf : f.Accounts before) :
    (∀ k < p.index, ⟨p.block, k⟩ ∈ past) ∧ ∀ n ∈ before p.block, ∃ q ∈ past, f.Gives q n := by
  induction h with
  | entry hid => simp [hf.entry _ hid]
  | @next past p i _ _ ih =>
    obtain ⟨hpassed, hgiven⟩ := ih
    refine ⟨fun k hk => ?_, fun n hn => ?_⟩
    · rcases Nat.lt_or_eq_of_le (Nat.le_of_lt_succ hk) with hk | rfl
      · exact List.mem_cons_of_mem _ (hpassed k hk)
      · exact List.mem_cons_self
    · obtain ⟨q, hq, hn⟩ := hgiven n hn
      exact ⟨q, List.mem_cons_of_mem _ hq, hn⟩
  | @jump past p t id _ hend ht hid ih =>
    obtain ⟨hpassed, hgiven⟩ := ih
    refine ⟨fun k hk => absurd hk (Nat.not_lt_zero k), fun n hn => ?_⟩
    obtain ⟨count, hhas⟩ := hf.edges _ t id ht hid n hn
    rcases hhas.of_end hend with hn | ⟨k, hk, hn⟩
    · obtain ⟨q, hq, hn⟩ := hgiven n hn
      exact ⟨q, List.mem_cons_of_mem _ hq, hn⟩
    · exact ⟨_, List.mem_cons_of_mem _ (hpassed k hk), hn⟩

theorem not_path_of_empty (h : f.layout = #[]) : ¬f.Path past p := by
  intro hpath
  induction hpath with
  | entry hid => simp [entryBlock?, h] at hid
  | next _ _ ih | jump _ _ _ _ ih => exact ih

/-- What is used on a path was given on the path before, at the only place that gives it. -/
theorem Accounts.given_before (hf : f.Accounts before) (h : f.Path past p) (hn : f.Uses p n) :
    ∃ q ∈ past, ∀ q', f.Gives q' n ↔ q' = q := by
  obtain ⟨hpassed, hgiven⟩ := h.given hf
  have hq : ∃ q ∈ past, f.Gives q n := by
    rcases hf.has hn with hn | ⟨k, hk, hn⟩
    · exact hgiven n hn
    · exact ⟨_, hpassed k hk, hn⟩
  obtain ⟨q, hq, hn⟩ := hq
  refine ⟨q, hq, fun q' => ⟨fun hn' => hf.once q' q n hn' hn, ?_⟩⟩
  rintro rfl
  exact hn

/-! ### Code under construction -/

section
variable {id : BlockId} {b : Block} {action : Action} {info? : Option ValueInfo} {t : Terminator}

/-- What is read of a block, and not found in the one that is added, is read as before. -/
theorem bind_push {α : Type} {blocks : Array Block} {k : Nat} {read : Block → Option α}
    (hb : read b = none) : (blocks.push b)[k]?.bind read = blocks[k]?.bind read := by
  rw [Array.getElem?_push]
  split
  · rename_i heq
    simp [heq, hb]
  · rfl

/-- What is read of a block, and does not depend on a change, is read as before. -/
theorem bind_modify {α : Type} {blocks : Array Block} {j k : Nat} {read : Block → Option α}
    {change : Block → Block} (h : ∀ b, read (change b) = read b) :
    (blocks.modify j change)[k]?.bind read = blocks[k]?.bind read := by
  rw [Array.getElem?_modify]
  split
  · cases blocks[k]? with
    | none => rfl
    | some b => exact h b
  · rfl

@[simp] theorem instAt_addBlock (label : String) : (f.addBlock label).instAt p = f.instAt p :=
  bind_push rfl

@[simp] theorem instAt_attach : (f.attach id).instAt p = f.instAt p := rfl

@[simp] theorem instAt_addSlot (name : String) (ty : Ty) :
    (f.addSlot name ty).instAt p = f.instAt p := rfl

@[simp] theorem instAt_markDead : (f.markDead id).instAt p = f.instAt p :=
  bind_modify fun _ => rfl

@[simp] theorem instAt_close : (f.close id t).instAt p = f.instAt p := bind_modify fun _ => rfl

/-- The instruction that is added, for a block of that many instructions. -/
theorem instAt_emit (hb : f.blocks[id.index]? = some b) :
    (f.emit id action info?).instAt p =
      if p = ⟨id, b.insts.size⟩ then some ⟨info?.map fun _ => ⟨f.values.size⟩, action⟩
      else f.instAt p := by
  obtain ⟨⟨block⟩, index⟩ := p
  obtain ⟨id⟩ := id
  simp only [instAt, emit, Array.getElem?_modify, Point.mk.injEq, BlockId.mk.injEq]
  by_cases hblock : id = block
  · subst hblock
    simp only [↓reduceIte, hb, Option.map_some, Option.bind_some, Array.getElem?_push, true_and]
  · simp only [hblock, Ne.symm hblock, ↓reduceIte, false_and]

@[simp] theorem terminatorOf_addBlock (label : String) :
    (f.addBlock label).terminatorOf id = f.terminatorOf id := bind_push rfl

@[simp] theorem terminatorOf_attach (k : BlockId) :
    (f.attach k).terminatorOf id = f.terminatorOf id := rfl

@[simp] theorem terminatorOf_addSlot (name : String) (ty : Ty) :
    (f.addSlot name ty).terminatorOf id = f.terminatorOf id := rfl

@[simp] theorem terminatorOf_markDead (k : BlockId) :
    (f.markDead k).terminatorOf id = f.terminatorOf id := bind_modify fun _ => rfl

@[simp] theorem terminatorOf_emit (k : BlockId) :
    (f.emit k action info?).terminatorOf id = f.terminatorOf id := bind_modify fun _ => rfl

theorem terminatorOf_close {k : BlockId} (hk : k.index < f.blocks.size) :
    (f.close k t).terminatorOf id = if id = k then some t else f.terminatorOf id := by
  obtain ⟨id⟩ := id
  obtain ⟨k⟩ := k
  simp only [terminatorOf, close, Array.getElem?_modify, BlockId.mk.injEq]
  by_cases heq : k = id
  · subst heq
    simp [Array.getElem?_eq_getElem hk]
  · simp [heq, Ne.symm heq]

end

end Function

end Quill.Ir
