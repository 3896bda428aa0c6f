import Quill.Proofs.Machine.Bounds

/-! # Slots and their addresses

A step changes slots of the activation at work only, and only by reserving, storing or scanning.
The address of a slot is its number and no more: wherever it is carried, it designates the slot of
that number in the activation that uses it, which need not be the one it was taken in.
-/
namespace Quill

open Ir (Action BlockId FuncId Function Inst Module Operand SlotId Terminator Ty ValueId)

/-! ### Which slots a step changes -/

/-- The activation at that depth, the first one being at depth zero. -/
def Config.activation? (c : Config) (d : Nat) : Option Activation := c.activations.reverse[d]?

/-- The instruction calls the outside function that scans, and the operand is one of the targets. -/
def Ir.Inst.ScansInto (m : Module) (i : Inst) (v : Operand) : Prop :=
  ∃ callee args f, i.action = .call callee args ∧ m.function callee = .ok f ∧
    f.isDeclaration = true ∧ f.name = Library.readName ∧ v ∈ args.tail

namespace Activation

/-- The instruction reserves the slot, stores into it, or scans into a target that is the address
of a slot of that number. -/
def Writes (m : Module) (a : Activation) (i : Inst) (s : SlotId) : Prop :=
  i.action = .alloca s ∨ (∃ v, i.action = .store s v) ∨
    ∃ v, i.ScansInto m v ∧ a.get v = .ok (.ptr (.slot s))

variable {m : Module} {a a' : Activation} {s : SlotId} {v : Value}

theorem setSlot_slots {k : SlotId} (h : a.setSlot k v = .ok a') (hs : s ≠ k) :
    a'.slots[s.index]? = a.slots[s.index]? := by
  obtain ⟨-, rfl⟩ := setSlot_eq_ok h
  have hne : k.index ≠ s.index := fun heq => hs (congrArg SlotId.mk heq.symm)
  simp [hne]

theorem complete_slots {result : Option ValueId} (h : a.complete result v = .ok a') :
    a'.slots = a.slots := by
  obtain rfl := complete_eq_ok h
  rfl

theorem Acts.slots {action : Action} (h : a.Acts action v a') (s : SlotId) :
    a'.slots[s.index]? = a.slots[s.index]? ∨ action = .alloca s ∨ ∃ u, action = .store s u := by
  cases h with
  | @alloca k _ _ _ hset =>
    by_cases hs : s = k
    · exact .inr (.inl (hs ▸ rfl))
    · exact .inl (setSlot_slots hset hs)
  | @store k u _ _ _ hset =>
    by_cases hs : s = k
    · exact .inr (.inr ⟨u, hs ▸ rfl⟩)
    · exact .inl (setSlot_slots hset hs)
  | load | binary | compare | cast => exact .inl rfl

theorem exists_get_of_mem {vs : List Operand} {xs : List Value} {x : Value}
    (h : a.getAll vs = .ok xs) (hx : x ∈ xs) : ∃ u ∈ vs, a.get u = .ok x := by
  induction vs generalizing xs with
  | nil =>
    cases h
    cases hx
  | cons u rest ih =>
    rw [getAll, List.mapM_cons] at h
    obtain ⟨y, hy, h⟩ := Ir.bind_eq_ok.1 h
    obtain ⟨ys, hys, h⟩ := Ir.bind_eq_ok.1 h
    cases h
    rcases List.mem_cons.1 hx with rfl | hx
    · exact ⟨u, List.mem_cons_self, hy⟩
    · obtain ⟨u', hmem, hget⟩ := ih hys hx
      exact ⟨u', List.mem_cons_of_mem _ hmem, hget⟩

/-- Each target of a scan is the value of an operand behind the format. -/
theorem exists_get_of_mem_tail {vs : List Operand} {xs : List Value} {x : Value}
    (h : a.getAll vs = .ok xs) (hx : x ∈ xs.tail) : ∃ u ∈ vs.tail, a.get u = .ok x := by
  cases vs with
  | nil =>
    cases h
    cases hx
  | cons u rest =>
    rw [getAll, List.mapM_cons] at h
    obtain ⟨y, -, h⟩ := Ir.bind_eq_ok.1 h
    obtain ⟨ys, hys, h⟩ := Ir.bind_eq_ok.1 h
    cases h
    exact exists_get_of_mem hys hx

end Activation

section
variable {α : Type} {x y b b' : α} {xs : List α} {d : Nat}

/-- What stands at a depth of a stack is below its top, or is the top. -/
theorem getElem?_reverse_cons :
    (x :: xs).reverse[d]? = some b ↔ xs.reverse[d]? = some b ∨ d = xs.length ∧ b = x := by
  rw [List.reverse_cons]
  rcases Nat.lt_trichotomy d xs.length with hd | rfl | hd
  · rw [List.getElem?_append_left (by simpa using hd)]
    simp [Nat.ne_of_lt hd]
  · simp [eq_comm]
  · rw [List.getElem?_eq_none (by simpa using Nat.succ_le_of_lt hd),
      List.getElem?_eq_none (by simpa using Nat.le_of_lt hd)]
    simp [Nat.ne_of_gt hd]

theorem lt_of_getElem?_reverse (h : xs.reverse[d]? = some b) : d < xs.length := by
  simpa using (List.getElem?_eq_some_iff.1 h).1

theorem eq_or_top (h : (x :: xs).reverse[d]? = some b) (h' : (y :: xs).reverse[d]? = some b') :
    b' = b ∨ xs.length = d ∧ x = b ∧ y = b' := by
  rw [getElem?_reverse_cons] at h h'
  rcases h with h | ⟨rfl, rfl⟩ <;> rcases h' with h' | ⟨hd, rfl⟩
  · exact .inl (Option.some.inj (h'.symm.trans h))
  · exact absurd hd (Nat.ne_of_lt (lt_of_getElem?_reverse h))
  · exact absurd (lt_of_getElem?_reverse h') (Nat.lt_irrefl _)
  · exact .inr ⟨rfl, rfl, rfl⟩

end

namespace Config

variable {m : Module} {c c' : Config} {a a' : Activation} {d : Nat}

/-- A step changes a slot only if the activation at work carries out an instruction that writes
slots of that number. -/
theorem Goes.slots (h : c.Goes m c') (ha : c.activation? d = some a)
    (ha' : c'.activation? d = some a') (s : SlotId) :
    a'.slots[s.index]? = a.slots[s.index]? ∨
      c.depth = d + 1 ∧ ∃ i, c.current.Performs i ∧ c.current.Writes m i s := by
  cases h with
  | @inside i v a₁ b hi hacts hcomplete =>
    rcases eq_or_top ha ha' with rfl | ⟨hd, rfl, rfl⟩
    · exact .inl rfl
    · rcases hacts.slots s with hkept | hwrites
      · exact .inl ((congrArg (·[s.index]?) (Activation.complete_slots hcomplete)).trans hkept)
      · exact .inr ⟨congrArg (· + 1) hd, i, hi, hwrites.imp_right .inl⟩
  | @outside i callee args f values v a₁ b w hi hcall hvalues hf hentry hlibrary hcomplete =>
    rcases eq_or_top ha ha' with rfl | ⟨hd, rfl, rfl⟩
    · exact .inl rfl
    · have hslots := congrArg (·[s.index]?) (Activation.complete_slots hcomplete)
      rcases (Library.call_scans hlibrary).1 with rfl | ⟨hname, hscans⟩
      · exact .inl hslots
      · rcases hscans.slots s.index with hkept | ⟨htarget, -⟩
        · exact .inl (hslots.trans hkept)
        · obtain ⟨u, hu, hget⟩ := Activation.exists_get_of_mem_tail hvalues htarget
          have hdeclared : f.isDeclaration = true := by
            simpa [Function.isDeclaration, Function.entryBlock?] using hentry
          exact .inr ⟨congrArg (· + 1) hd, i, hi,
            .inr (.inr ⟨u, ⟨callee, args, f, hcall, hf, hdeclared, hname, hu⟩, hget⟩)⟩
  | enter =>
    rcases getElem?_reverse_cons.1 ha' with hwaits | ⟨rfl, -⟩
    · exact .inl (congrArg (·.slots[s.index]?) (Option.some.inj (hwaits.symm.trans ha)))
    · exact absurd (lt_of_getElem?_reverse ha) (Nat.lt_irrefl _)
  | jump =>
    rcases eq_or_top ha ha' with rfl | ⟨-, rfl, rfl⟩
    · exact .inl rfl
    · exact .inl rfl
  | back _ _ _ hcallers _ hcomplete =>
    rw [activation?, activations, hcallers] at ha
    rcases getElem?_reverse_cons.1 ha with ha | ⟨rfl, -⟩
    · rcases eq_or_top ha ha' with rfl | ⟨-, rfl, rfl⟩
      · exact .inl rfl
      · exact .inl (congrArg (·[s.index]?) (Activation.complete_slots hcomplete))
    · exact absurd (lt_of_getElem?_reverse ha') (Nat.lt_irrefl _)

end Config

/-! ### Where addresses come from -/

namespace Value

variable {t t' : Ty} {l r v : Value} {s : SlotId}

theorem zero_ne_address : zero t ≠ .ptr (.slot s) := by
  unfold zero
  split
  · simp
  · split <;> simp

theorem binary_isPlain {op : Ir.BinaryOp} (h : binary? op t l r = some v) : v.IsPlain := by
  intro p hp
  subst hp
  cases op <;> simp [binary?] at h

theorem cast_isPlain {op : Ir.CastOp} : (v.cast op t t').IsPlain := by
  intro p
  cases op <;> simp [cast]

end Value

namespace Activation

/-- An argument, a slot or a result is the value. -/
def Carries (a : Activation) (x : Value) : Prop := x ∈ a.args ∨ x ∈ a.slots ∨ x ∈ a.values

/-- Next, the operand is stored, passed to a function with a body, or given back. -/
inductive HandsOn (m : Module) (a : Activation) (v : Operand) : Prop
  | store {i s} : a.Performs i → i.action = .store s v → HandsOn m a v
  | pass {i callee args f} : a.Performs i → i.action = .call callee args →
      m.function callee = .ok f → f.isDeclaration = false → v ∈ args → HandsOn m a v
  | giveBack : a.Ends (some (.ret (some v))) → HandsOn m a v

variable {m : Module} {a a' : Activation} {s : SlotId} {v x : Value} {u : Operand}

theorem carries_of_setSlot {k : SlotId} (h : a.setSlot k v = .ok a') (hx : a'.Carries x) :
    a.Carries x ∨ x = v := by
  obtain ⟨-, rfl⟩ := setSlot_eq_ok h
  rcases hx with hx | hx | hx
  · exact .inl (.inl hx)
  · exact (Array.mem_or_eq_of_mem_setIfInBounds hx).imp_left fun hx => .inr (.inl hx)
  · exact .inl (.inr (.inr hx))

theorem carries_of_complete {result : Option ValueId} (h : a.complete result v = .ok a')
    (hx : a'.Carries x) : a.Carries x ∨ x = v := by
  obtain rfl := complete_eq_ok h
  rcases hx with hx | hx | hx
  · exact .inl (.inl hx)
  · exact .inl (.inr (.inl hx))
  · cases result with
    | none => exact .inl (.inr (.inr hx))
    | some id => exact (Array.mem_or_eq_of_mem_setIfInBounds hx).imp_left fun hx => .inr (.inr hx)

theorem Scans.carries {targets : List Value} (h : a.Scans targets a') (hx : a'.Carries x) :
    a.Carries x ∨ x.IsPlain := by
  have hrest := h.rest
  rcases hx with hx | hx | hx
  · rw [hrest] at hx
    exact .inl (.inl hx)
  · obtain ⟨k, hk⟩ := Array.mem_iff_getElem?.1 hx
    rcases h.slots k with hkept | ⟨-, y, hy, hplain⟩
    · exact .inl (.inr (.inl (Array.mem_of_getElem? (hkept.symm.trans hk))))
    · exact .inr (Option.some.inj (hy.symm.trans hk) ▸ hplain)
  · rw [hrest] at hx
    exact .inl (.inr (.inr hx))

/-- An operand with an address for value is the address, or something that carries it. -/
theorem eq_or_carries_of_get (h : a.get u = .ok (.ptr (.slot s))) :
    u = .slotAddr s ∨ a.Carries (.ptr (.slot s)) := by
  cases u with
  | inst id => exact .inr (.inr (.inr (Array.mem_of_getElem? (Ir.entry_eq_ok.1 h))))
  | param n => exact .inr (.inl (Array.mem_of_getElem? (Ir.entry_eq_ok.1 h)))
  | slotAddr id =>
    cases h
    exact .inl rfl
  | int | float | global | void => cases h

theorem HandsOn.carries_or (hhands : a.HandsOn m u) (h : a.get u = .ok (.ptr (.slot s))) :
    a.Carries (.ptr (.slot s)) ∨ a.HandsOn m (.slotAddr s) := by
  rcases eq_or_carries_of_get h with rfl | hcarries
  · exact .inr hhands
  · exact .inl hcarries

theorem Acts.carries_or {i : Inst} (hi : a.Performs i) (h : a.Acts i.action v a')
    (haddress : a'.Carries (.ptr (.slot s)) ∨ v = .ptr (.slot s)) :
    a.Carries (.ptr (.slot s)) ∨ a.HandsOn m (.slotAddr s) := by
  generalize haction : i.action = action at h
  cases h with
  | alloca _ hset =>
    rcases haddress with hcarries | hv
    · rcases carries_of_setSlot hset hcarries with hcarries | hzero
      · exact .inl hcarries
      · exact absurd hzero.symm Value.zero_ne_address
    · cases hv
  | load hv =>
    rcases haddress with hcarries | rfl
    · exact .inl hcarries
    · exact .inl (.inr (.inl (Array.mem_of_getElem? (Ir.entry_eq_ok.1 hv))))
  | @store k u y _ hget hset =>
    rcases haddress with hcarries | hv
    · rcases carries_of_setSlot hset hcarries with hcarries | rfl
      · exact .inl hcarries
      · exact (HandsOn.store hi haction).carries_or hget
    · cases hv
  | binary _ _ _ hbinary =>
    exact haddress.elim .inl fun hv => absurd hv (Value.binary_isPlain hbinary _)
  | compare => exact haddress.elim .inl fun hv => by cases hv
  | cast => exact haddress.elim .inl fun hv => absurd hv (Value.cast_isPlain _)

end Activation

namespace Config

variable {m : Module} {c c' : Config} {s : SlotId} {n : Nat}

/-- An activation carries the value. -/
def Carries (c : Config) (x : Value) : Prop := ∃ a ∈ c.activations, a.Carries x

theorem carries_iff {x : Value} :
    c.Carries x ↔ c.current.Carries x ∨ ∃ a ∈ c.callers, a.Carries x := by
  simp [Carries, activations]

/-- An address that is carried after a step was carried before, or is handed on by the step. -/
theorem Goes.carries_or (h : c.Goes m c') (hcarries : c'.Carries (.ptr (.slot s))) :
    c.Carries (.ptr (.slot s)) ∨ c.current.HandsOn m (.slotAddr s) := by
  have hlift : c.current.Carries (.ptr (.slot s)) ∨ c.current.HandsOn m (.slotAddr s) →
      c.Carries (.ptr (.slot s)) ∨ c.current.HandsOn m (.slotAddr s) :=
    Or.imp_left fun h => carries_iff.2 (.inl h)
  rw [carries_iff] at hcarries
  cases h with
  | inside hi hacts hcomplete =>
    rcases hcarries with hcurrent | hcallers
    · refine hlift (hacts.carries_or hi ?_)
      exact (Activation.carries_of_complete hcomplete hcurrent).imp_right Eq.symm
    · exact .inl (carries_iff.2 (.inr hcallers))
  | outside _ _ _ _ _ hlibrary hcomplete =>
    rcases hcarries with hcurrent | hcallers
    · obtain ⟨hscans, houtcome⟩ := Library.call_scans hlibrary
      rcases Activation.carries_of_complete hcomplete hcurrent with hcurrent | hv
      · rcases hscans with rfl | ⟨-, hscans⟩
        · exact .inl (carries_iff.2 (.inl hcurrent))
        · rcases hscans.carries hcurrent with hcurrent | hplain
          · exact .inl (carries_iff.2 (.inl hcurrent))
          · exact absurd rfl (hplain _)
      · exact absurd hv.symm (houtcome _)
    · exact .inl (carries_iff.2 (.inr hcallers))
  | @enter i callee args f start values hi hcall hvalues hf hstart =>
    rcases hcarries with hcurrent | hcallers
    · rcases hcurrent with hargs | hslots | hvalues'
      · obtain ⟨u, hu, hget⟩ := Activation.exists_get_of_mem hvalues (List.mem_toArray.1 hargs)
        have hdefined : f.isDeclaration = false := by
          simpa [Function.isDeclaration] using Array.ne_empty_of_mem (Array.mem_of_getElem? hstart)
        exact hlift ((Activation.HandsOn.pass hi hcall hf hdefined hu).carries_or hget)
      · cases (Array.mem_replicate.1 hslots).2
      · cases (Array.mem_replicate.1 hvalues').2
    · exact .inl hcallers
  | jump => exact .inl (carries_iff.2 hcarries)
  | @back value v a a' b callers hend hsome hnone hwaiting hb hcomplete =>
    have hcallers : ∀ x, a.Carries x ∨ (∃ a ∈ callers, a.Carries x) → c.Carries x := by
      intro x hx
      rw [carries_iff, hwaiting]
      exact .inr (by simpa using hx)
    rcases hcarries with hcurrent | hcarries
    · rcases Activation.carries_of_complete hcomplete hcurrent with hcurrent | rfl
      · exact .inl (hcallers _ (.inl hcurrent))
      · cases value with
        | none => cases hnone rfl
        | some u => exact hlift ((Activation.HandsOn.giveBack hend).carries_or (hsome u rfl))
    · exact .inl (hcallers _ (.inr hcarries))

theorem after_succ (h : c.after m (n + 1) = some c') :
    ∃ c₁, c.after m n = some c₁ ∧ c₁.step m = .running c' := by
  induction n generalizing c with
  | zero =>
    rw [after] at h
    split at h
    · cases h
      exact ⟨c, rfl, ‹_›⟩
    · cases h
  | succ n ih =>
    rw [after] at h
    split at h
    · obtain ⟨c₁, hafter, hstep⟩ := ih h
      refine ⟨c₁, ?_, hstep⟩
      rw [after]
      simp only [*]
    · cases h

/-- An address that is carried in a run was handed on by an earlier step of it. -/
theorem handed_of_carries (hfirst : ¬c.Carries (.ptr (.slot s))) (hafter : c.after m n = some c')
    (hcarries : c'.Carries (.ptr (.slot s))) :
    ∃ k < n, ∃ c₁, c.after m k = some c₁ ∧ c₁.current.HandsOn m (.slotAddr s) := by
  induction n generalizing c' with
  | zero =>
    cases hafter
    exact absurd hcarries hfirst
  | succ n ih =>
    obtain ⟨c₁, hafter, hstep⟩ := after_succ hafter
    rcases (goes_of_step hstep).carries_or hcarries with hcarries | hhands
    · obtain ⟨k, hk, hhanded⟩ := ih hafter hcarries
      exact ⟨k, Nat.lt_succ_of_lt hk, hhanded⟩
    · exact ⟨n, Nat.lt_succ_self n, c₁, hafter, hhands⟩

end Config

namespace Machine

variable {machine : Machine} {c₀ c c' : Config} {a a' : Activation} {n d : Nat} {s : SlotId}

theorem not_carries_first (h : machine.first? = some c₀) : ¬c₀.Carries (.ptr (.slot s)) := by
  unfold first? at h
  obtain ⟨id, -, h⟩ := Option.bind_eq_some_iff.1 h
  obtain ⟨f, -, h⟩ := Option.bind_eq_some_iff.1 h
  obtain ⟨start, -, h⟩ := Option.bind_eq_some_iff.1 h
  cases h
  rw [Config.carries_iff]
  rintro ((hargs | hslots | hvalues) | ⟨a, ha, -⟩)
  · cases List.mem_toArray.1 hargs
  · cases (Array.mem_replicate.1 hslots).2
  · cases (Array.mem_replicate.1 hvalues).2
  · cases ha

/-- In every run, a slot changes only in the activation at work, and only where it is reserved,
stored into, or scanned into. The target of the scan is the address of the slot itself, unless an
address of a slot of that number, of whichever activation, has been handed on before. -/
theorem slot_writes (hfirst : machine.first? = some c₀)
    (hafter : c₀.after machine.module n = some c) (hstep : c.step machine.module = .running c')
    (ha : c.activation? d = some a) (ha' : c'.activation? d = some a')
    (hchanged : a'.slots[s.index]? ≠ a.slots[s.index]?) :
    c.depth = d + 1 ∧ ∃ i, a.Performs i ∧
      (i.action = .alloca s ∨ (∃ v, i.action = .store s v) ∨
        ∃ v, i.ScansInto machine.module v ∧ a.get v = .ok (.ptr (.slot s)) ∧
          (v = .slotAddr s ∨ ∃ k < n, ∃ c₁, c₀.after machine.module k = some c₁ ∧
            c₁.current.HandsOn machine.module (.slotAddr s))) := by
  obtain ⟨hd, i, hi, hwrites⟩ := ((Config.goes_of_step hstep).slots ha ha' s).resolve_left hchanged
  obtain rfl : c.current = a := by
    rcases getElem?_reverse_cons.1 ha with hwaits | ⟨-, rfl⟩
    · exact absurd (Nat.succ.inj hd) (Nat.ne_of_gt (lt_of_getElem?_reverse hwaits))
    · rfl
  refine ⟨hd, i, hi, hwrites.imp_right (Or.imp_right ?_)⟩
  rintro ⟨v, hscans, hget⟩
  refine ⟨v, hscans, hget, (Activation.eq_or_carries_of_get hget).imp_right fun hcarries => ?_⟩
  exact Config.handed_of_carries (not_carries_first hfirst) hafter
    (Config.carries_iff.2 (.inl hcarries))

end Machine

/-! ### An address in another activation

A verified module passes the address of a slot of `main` to a function that scans into it. The
function never takes an address of its own, and yet it is its slot that is written.
-/

/-- The code of the function takes the address of the slot. -/
def Ir.Function.TakesAddress (f : Function) (s : SlotId) : Prop :=
  ∃ b ∈ f.blocks, (∃ i ∈ b.insts, .slotAddr s ∈ i.action.operands) ∨
    ∃ t, b.terminator = some t ∧ .slotAddr s ∈ t.operands

namespace Crossing

def scanf : Function :=
  { Function.declared Library.readName [⟨"format", .pointerTo .i8⟩] .i32 with isVariadic := true }

def scan : Inst := ⟨some ⟨0⟩, .call ⟨0⟩ [.global ⟨0⟩, .param 0]⟩

def pass : Inst := ⟨none, .call ⟨1⟩ [.slotAddr ⟨0⟩]⟩

/-- Stores 1 into its slot, and scans into the address that it is given. -/
def read : Function :=
  { Function.declared "read" [⟨"target", .pointerTo .i64⟩] .void with
    slots := #[⟨"own", .i64⟩]
    values := #[⟨.i32, false⟩]
    layout := #[⟨0⟩]
    blocks := #[{
      label := "entry"
      insts := #[⟨none, .alloca ⟨0⟩⟩, ⟨none, .store ⟨0⟩ (.int .i64 1)⟩, scan]
      terminator := some (.ret none)
      isUnreachable := false }] }

/-- Stores 5 into its slot, has the address of the slot scanned into, and returns what is in the
slot then. -/
def main : Function :=
  { Function.declared "main" [] .i64 with
    slots := #[⟨"x", .i64⟩]
    values := #[⟨.i64, false⟩]
    layout := #[⟨0⟩]
    blocks := #[{
      label := "entry"
      insts := #[⟨none, .alloca ⟨0⟩⟩, ⟨none, .store ⟨0⟩ (.int .i64 5)⟩, pass,
        ⟨some ⟨0⟩, .load ⟨0⟩⟩]
      terminator := some (.ret (some (.inst ⟨0⟩)))
      isUnreachable := false }] }

def machine : Machine :=
  .start { (((Ir.Module.empty "m").declare scanf).declare read).declare main with
      globals := #[⟨"format", "%ld"⟩] }
    (.ofFeed (.whole [50, 49, 10])) .unlimited

theorem module_isVerified : machine.module.IsVerified := by
  rintro ⟨k⟩ f hf hdefined
  have hk : k < 3 := (Array.getElem?_eq_some_iff.1 (Ir.entry_eq_ok.1 hf)).1
  obtain rfl | rfl | rfl : k = 0 ∨ k = 1 ∨ k = 2 := by omega
  · cases hf
    cases hdefined
  · cbv
  · cbv

theorem read_takes_no_address {s : SlotId} : ¬read.TakesAddress s := by
  simp [Function.TakesAddress, read, scan, Action.operands, Terminator.operands]

theorem reaches_scan : ∃ c₀ c c' callee callee' caller,
    machine.first? = some c₀ ∧ c₀.after machine.module 5 = some c ∧
    c.step machine.module = .running c' ∧
    c.activations = [callee, caller] ∧ c'.activations = [callee', caller] ∧
    callee.function = read ∧ caller.Performs pass ∧ callee.Performs scan ∧
    callee.slots[0]? = some (.int 1) ∧ callee'.slots[0]? = some (.int 21) ∧
    caller.slots[0]? = some (.int 5) := by
  refine ⟨_, _, _, _, _, _, by cbv, by cbv, by cbv, rfl, rfl, rfl, ⟨_, rfl, rfl⟩, ⟨_, rfl, rfl⟩,
    ?_, ?_, ?_⟩
  · cbv
  · cbv
  · cbv

/-- The scan writes the slot of the function that it is in. The slot whose address is the target
stays as it is, and so 5 is returned. -/
theorem scan_misses : machine.module.IsVerified ∧
    (∃ c c' callee callee' caller, machine.Reaches c ∧ c.step machine.module = .running c' ∧
      c.activations = [callee, caller] ∧ c'.activations = [callee', caller] ∧
      caller.Performs pass ∧ callee.Performs scan ∧ (∀ s, ¬callee.function.TakesAddress s) ∧
      callee.slots[0]? = some (.int 1) ∧ callee'.slots[0]? = some (.int 21) ∧
      caller.slots[0]? = some (.int 5)) ∧
    ∃ machine', machine.runMain 20 = some (.ok 5, machine') := by
  obtain ⟨c₀, c, c', callee, callee', caller, hfirst, hafter, hstep, hbefore, hthen, hread, hpass,
    hscan, hslots⟩ := reaches_scan
  refine ⟨module_isVerified, ⟨c, c', callee, callee', caller, ⟨c₀, 5, hfirst, hafter⟩, hstep,
    hbefore, hthen, hpass, hscan, ?_, hslots⟩, ?_⟩
  · intro s
    rw [hread]
    exact read_takes_no_address
  · exact ⟨_, by cbv⟩

/-- What has been handed on before is the address of the slot of `main`. -/
theorem slot_writes_sample : ∃ c₀ c c' a a',
    machine.first? = some c₀ ∧ c₀.after machine.module 5 = some c ∧
    c.step machine.module = .running c' ∧
    c.activation? 1 = some a ∧ c'.activation? 1 = some a' ∧ a'.slots[0]? ≠ a.slots[0]? ∧
    c.depth = 2 ∧ ∃ i, a.Performs i ∧
      (i.action = .alloca ⟨0⟩ ∨ (∃ v, i.action = .store ⟨0⟩ v) ∨
        ∃ v, i.ScansInto machine.module v ∧ a.get v = .ok (.ptr (.slot ⟨0⟩)) ∧
          (v = .slotAddr ⟨0⟩ ∨ ∃ k < 5, ∃ c₁, c₀.after machine.module k = some c₁ ∧
            c₁.current.HandsOn machine.module (.slotAddr ⟨0⟩))) := by
  obtain ⟨c₀, c, c', callee, callee', caller, hfirst, hafter, hstep, hbefore, hthen, -, -, -,
    hown, hscanned, -⟩ := reaches_scan
  have ha : c.activation? 1 = some callee := by simp [Config.activation?, hbefore]
  have ha' : c'.activation? 1 = some callee' := by simp [Config.activation?, hthen]
  have hchanged : callee'.slots[0]? ≠ callee.slots[0]? := by simp [hown, hscanned]
  exact ⟨c₀, c, c', callee, callee', hfirst, hafter, hstep, ha, ha', hchanged,
    Machine.slot_writes hfirst hafter hstep ha ha' hchanged⟩

end Crossing

end Quill
