import Quill.Proofs.Lowering.Code
import Quill.Proofs.Meaning.Numbers

/-! # A machine at a place

A machine stands at a place of a function and performs what is there. Results behind the place
come into being; slots change only where they are stored to.
-/
namespace Quill

open Ir (Action Block BlockId CastOp Function Module Operand SlotId Terminator Ty)
open Meaning (Typed)

/-- The results that the operand depends on come before `n`. -/
def Ir.Operand.Below (n : Nat) : Operand → Prop
  | .inst id => id.index < n
  | _ => True

/-- The activation at work stands at a place of a function. -/
structure Config.At (c : Config) (f : Function) (p : Spot) : Prop where
  function : c.current.function = f
  block : c.current.block = p.block
  position : c.current.position = p.position
  slots : c.current.slots.size = f.slots.size
  values : c.current.values.size = f.values.size

/-- From one place to another nothing is stored, and no earlier result changes. -/
structure Passes (f : Function) (c : Config) (p : Spot) (c' : Config) (q : Spot) : Prop where
  arrives : c'.At f q
  args : c'.current.args = c.current.args
  slots : c'.current.slots = c.current.slots
  values : ∀ k < p.fresh, c'.current.values[k]? = c.current.values[k]?
  callers : c'.callers = c.callers
  fresh : p.fresh ≤ q.fresh

/-- The operand is worth a value, and has its type. Only what is void has no value of its type. -/
structure Gives (f : Function) (c : Config) (q : Spot) (v : Operand) (x : Typed) : Prop where
  get : c.current.get v = .ok x.value
  typeOf : f.typeOf v = .ok x.ty
  hasType : x.ty ≠ .void → x.value.HasType x.ty
  below : v.Below q.fresh

namespace Config

def noted (c : Config) (k : Nat) (x : Value) : Config :=
  { c with current := { c.current with
    values := c.current.values.set! k x
    position := c.current.position + 1 } }

def passed (c : Config) : Config :=
  { c with current := { c.current with position := c.current.position + 1 } }

def completed (c : Config) (result : Option Ir.ValueId) (v : Value) (a : Activation) (w : World) :
    Step :=
  match a.complete result v with
  | .error f => .faulted f w
  | .ok a => .running { c with current := a, world := w }

def stored (c : Config) (s : SlotId) (x : Value) : Config :=
  { c with current := { c.current with
    slots := c.current.slots.set! s.index x
    position := c.current.position + 1 } }

def jumped (c : Config) (dest : BlockId) : Config := { c with current := c.current.jump dest }

end Config

section

variable {m : Module} {f : Function} {c c₁ c' : Config} {p q r : Spot} {v : Operand} {x : Typed}

namespace Passes

theorem refl (h : c.At f p) : Passes f c p c p := ⟨h, rfl, rfl, fun _ _ => rfl, rfl, Nat.le_refl _⟩

theorem trans (h : Passes f c p c₁ q) (h' : Passes f c₁ q c' r) : Passes f c p c' r where
  arrives := h'.arrives
  args := h'.args.trans h.args
  slots := h'.slots.trans h.slots
  values := fun k hk => (h'.values k (Nat.lt_of_lt_of_le hk h.fresh)).trans (h.values k hk)
  callers := h'.callers.trans h.callers
  fresh := Nat.le_trans h.fresh h'.fresh

theorem world (h : Passes f c p c' q) (w : World) : Passes f c p { c' with world := w } q where
  arrives := ⟨h.arrives.function, h.arrives.block, h.arrives.position, h.arrives.slots,
    h.arrives.values⟩
  args := h.args
  slots := h.slots
  values := h.values
  callers := h.callers
  fresh := h.fresh

end Passes

namespace Gives

theorem reads (h : Gives f c q v x) (hc : c.current.function = f) (hx : x.ty ≠ .void) :
    c.current.Reads v x.value x.ty :=
  ⟨h.get, hc ▸ h.typeOf, h.hasType hx⟩

theorem later (h : Gives f c p v x) (hp : Passes f c p c' q) : Gives f c' q v x where
  get := by
    have hget := h.get
    cases v with
    | inst id =>
      exact Ir.entry_eq_ok.2 ((hp.values id.index h.below).trans (Ir.entry_eq_ok.1 hget))
    | param n =>
      change Ir.entry c'.current.args n = _
      rw [hp.args]
      exact hget
    | _ => exact hget
  typeOf := h.typeOf
  hasType := h.hasType
  below := by
    have hbelow := h.below
    cases v with
    | inst id => exact Nat.lt_of_lt_of_le hbelow hp.fresh
    | _ => trivial

theorem stored (h : Gives f c p v x) (s : SlotId) (y : Value) :
    Gives f (c.stored s y) p.next v x where
  get := by
    have hget := h.get
    cases v <;> exact hget
  typeOf := h.typeOf
  hasType := h.hasType
  below := h.below

theorem world (h : Gives f c q v x) (w : World) : Gives f { c with world := w } q v x :=
  ⟨h.get, h.typeOf, h.hasType, h.below⟩

end Gives

/-! ### Instructions -/

theorem Config.At.isTyped {result : Option Ir.ValueId} {action : Action} (h : c.At f p)
    (hi : ∃ b, f.blocks[p.block.index]? = some b ∧ b.insts[p.position]? = some ⟨result, action⟩)
    (hcan : c.current.CanPerform action) : c.current.IsTyped := by
  obtain ⟨b, hb, hinst⟩ := hi
  refine ⟨b, ?_, ?_⟩
  · rw [h.function, h.block]
    exact Ir.entry_eq_ok.2 hb
  · rw [h.position, hinst]
    exact hcan

theorem Config.At.step_eq {result : Option Ir.ValueId} {action : Action} (h : c.At f p)
    (hi : ∃ b, f.blocks[p.block.index]? = some b ∧ b.insts[p.position]? = some ⟨result, action⟩)
    (hcall : ∀ callee args, action ≠ .call callee args) :
    c.step m = match c.current.perform action with
      | .error h => .halted h c.world
      | .ok (v, a) => c.completed result v a c.world := by
  obtain ⟨b, hb, hinst⟩ := hi
  have hblock : c.current.function.block c.current.block = .ok b := by
    rw [h.function, h.block]
    exact Ir.entry_eq_ok.2 hb
  unfold Config.step
  simp only [hblock, h.position, hinst]
  cases action with
  | call callee args => exact absurd rfl (hcall callee args)
  | _ => rfl

theorem Config.At.noted (h : c.At f p) (y : Value) :
    Passes f c p (c.noted p.fresh y) p.past where
  arrives := {
    function := h.function
    block := h.block
    position := congrArg (· + 1) h.position
    slots := h.slots
    values := by
      change (c.current.values.set! _ _).size = _
      simpa using h.values }
  args := rfl
  slots := rfl
  values := fun k hk => by
    change (c.current.values.set! p.fresh y)[k]? = _
    simp [Nat.ne_of_gt hk]
  callers := rfl
  fresh := Nat.le_succ _

theorem Config.At.passed (h : c.At f p) : Passes f c p c.passed p.next where
  arrives := ⟨h.function, h.block, congrArg (· + 1) h.position, h.slots, h.values⟩
  args := rfl
  slots := rfl
  values := fun _ _ => rfl
  callers := rfl
  fresh := Nat.le_refl _

theorem Config.At.stored (h : c.At f p) (s : SlotId) (y : Value) : (c.stored s y).At f p.next where
  function := h.function
  block := h.block
  position := congrArg (· + 1) h.position
  slots := by
    change (c.current.slots.set! _ _).size = _
    simpa using h.slots
  values := h.values

theorem Config.At.fresh_lt {action : Action} {ty : Ty} (h : c.At f p)
    (hc : f.Computes p action ty) : p.fresh < c.current.values.size := by
  obtain ⟨-, compared, hinfo⟩ := hc
  exact h.values ▸ (Array.getElem?_eq_some_iff.1 hinfo).1

theorem Config.At.gives {action : Action} {ty : Ty} {y : Value} (h : c.At f p)
    (hc : f.Computes p action ty) (hy : ty ≠ .void → y.HasType ty) :
    Gives f (c.noted p.fresh y) p.past p.value ⟨ty, y⟩ := by
  have hk := h.fresh_lt hc
  obtain ⟨-, compared, hinfo⟩ := hc
  refine ⟨?_, ?_, hy, Nat.lt_succ_self _⟩
  · refine Ir.entry_eq_ok.2 ?_
    change (c.current.values.set! p.fresh y)[p.fresh]? = _
    simp [hk]
  · change Ir.ValueInfo.ty <$> f.value ⟨p.fresh⟩ = _
    rw [show f.value ⟨p.fresh⟩ = .ok ⟨ty, compared⟩ from Ir.entry_eq_ok.2 hinfo]
    rfl

theorem computes_steps {action : Action} {ty : Ty} {y : Value} (h : c.At f p)
    (hc : f.Computes p action ty) (hcall : ∀ callee args, action ≠ .call callee args)
    (hcan : c.current.CanPerform action) (hy : y.HasType ty)
    (hperform : c.current.perform action = .ok (y, c.current)) :
    c.Steps m 1 (c.noted p.fresh y) ∧ Passes f c p (c.noted p.fresh y) p.past ∧
      Gives f (c.noted p.fresh y) p.past p.value ⟨ty, y⟩ := by
  refine ⟨.one (h.isTyped hc.1 hcan) ?_, h.noted y, h.gives hc fun _ => hy⟩
  rw [h.step_eq hc.1 hcall, hperform]
  simp only [Config.completed, Activation.complete, h.fresh_lt hc, ↓reduceIte]
  rfl

theorem perform_load {a : Activation} {s : SlotId} {y : Value} (h : a.slot s = .ok y) :
    a.perform (.load s) = .ok (y, a) := by
  simp [Activation.perform, h, Ir.mapError_ok, bind, Except.bind, pure, Except.pure]

theorem perform_alloca {a a' : Activation} {s : SlotId} {slot : Ir.Slot}
    (h : a.function.slot s = .ok slot) (hset : a.setSlot s (.zero slot.ty) = .ok a') :
    a.perform (.alloca s) = .ok (.void, a') := by
  simp [Activation.perform, h, hset, Ir.mapError_ok, bind, Except.bind, pure, Except.pure]

theorem perform_store {a a' : Activation} {s : SlotId} {y : Value} (h : a.get v = .ok y)
    (hset : a.setSlot s y = .ok a') : a.perform (.store s v) = .ok (.void, a') := by
  simp [Activation.perform, h, hset, Ir.mapError_ok, bind, Except.bind, pure, Except.pure]

theorem perform_cast {a : Activation} {op : CastOp} {source target : Ty} {y : Value}
    (h : a.get v = .ok y) (hty : a.function.typeOf v = .ok source) :
    a.perform (.cast op v target) = .ok (y.cast op source target, a) := by
  simp [Activation.perform, h, hty, Ir.mapError_ok, bind, Except.bind, pure, Except.pure]

theorem perform_compare {a : Activation} {pred : Ir.Predicate} {l r : Operand} {y z : Value}
    (hl : a.get l = .ok y) (hr : a.get r = .ok z) :
    a.perform (.compare pred l r) = .ok (.ofBool (Value.compare pred y z), a) := by
  simp [Activation.perform, hl, hr, Ir.mapError_ok, bind, Except.bind, pure, Except.pure]

/-- An operation of two values gives its value or stops because zero divides. -/
theorem perform_operation {a : Activation} {operation : Lower.Operation} {ty : Ty} {l r : Operand}
    {y z : Value} (hty : a.function.typeOf l = .ok ty) (hl : a.get l = .ok y)
    (hr : a.get r = .ok z) :
    a.perform (operation.action l r) =
      match operation.value? ty y z with
      | some v => .ok (v, a)
      | none => .error (.trap (.divisionByZero a.function.name)) := by
  cases operation with
  | comparison pred => exact perform_compare hl hr
  | arithmetic op =>
    cases hvalue : Value.binary? op ty y z <;>
      simp only [Lower.Operation.action, Lower.Operation.value?, Activation.perform, hty, hl, hr,
        hvalue, Ir.mapError_ok, bind, Except.bind, pure, Except.pure]

theorem stores_steps {action : Action} {s : SlotId} {y : Value} (h : c.At f p)
    (hp : f.Performs p action) (hcall : ∀ callee args, action ≠ .call callee args)
    (hcan : c.current.CanPerform action)
    (hperform : ∀ a', c.current.setSlot s y = .ok a' → c.current.perform action = .ok (.void, a'))
    (hs : s.index < f.slots.size) : c.Steps m 1 (c.stored s y) := by
  refine .one (h.isTyped hp hcan) ?_
  have hset : c.current.setSlot s y =
      .ok { c.current with slots := c.current.slots.set! s.index y } := by
    unfold Activation.setSlot
    rw [if_pos (h.slots ▸ hs)]
  rw [h.step_eq hp hcall, hperform _ hset]
  rfl

theorem alloca_steps {s : SlotId} {ty : Ty} (h : c.At f p) (hp : f.Performs p (.alloca s))
    (hs : f.HasSlot s ty) : c.Steps m 1 (c.stored s (.zero ty)) := by
  obtain ⟨name, hslot⟩ := hs
  refine stores_steps h hp (by simp) ⟨by simp [Action.operands], by simp⟩ (fun a' ha' => ?_)
    (Array.getElem?_eq_some_iff.1 hslot).1
  have hslot' : c.current.function.slot s = .ok ⟨name, ty⟩ := h.function ▸ Ir.entry_eq_ok.2 hslot
  exact perform_alloca hslot' ha'

theorem store_steps {s : SlotId} {ty : Ty} {x : Typed} (h : c.At f p)
    (hp : f.Performs p (.store s v)) (hs : f.HasSlot s ty) (hv : Gives f c p v x)
    (hx : x.ty ≠ .void) : c.Steps m 1 (c.stored s x.value) := by
  obtain ⟨name, hslot⟩ := hs
  refine stores_steps h hp (by simp) ⟨?_, by simp⟩ (fun a' => perform_store hv.get)
    (Array.getElem?_eq_some_iff.1 hslot).1
  intro w hw
  rw [List.mem_singleton.1 hw]
  exact ⟨_, _, hv.reads h.function hx⟩

theorem load_steps {s : SlotId} {ty : Ty} {y : Value} (h : c.At f p)
    (hc : f.Computes p (.load s) ty) (hs : f.HasSlot s ty)
    (hy : c.current.slots[s.index]? = some y) (hty : y.HasType ty) :
    c.Steps m 1 (c.noted p.fresh y) ∧ Passes f c p (c.noted p.fresh y) p.past ∧
      Gives f (c.noted p.fresh y) p.past p.value ⟨ty, y⟩ := by
  have hslot : c.current.slot s = .ok y := Ir.entry_eq_ok.2 hy
  refine computes_steps h hc (by simp) ⟨by simp [Action.operands], ?_⟩ hty (perform_load hslot)
  rintro _ ⟨⟩
  obtain ⟨name, hdeclared⟩ := hs
  exact ⟨⟨name, ty⟩, y, h.function ▸ Ir.entry_eq_ok.2 hdeclared, hslot, hty⟩

/-! ### Terminators -/

theorem Config.At.isTyped_end {t : Terminator} (h : c.At f p) (he : f.Ends p t)
    (hcan : c.current.CanEnd t) : c.current.IsTyped := by
  obtain ⟨b, hb, hsize, ht⟩ := he
  refine ⟨b, ?_, ?_⟩
  · rw [h.function, h.block]
    exact Ir.entry_eq_ok.2 hb
  · rw [h.position, Array.getElem?_eq_none (Nat.le_of_eq hsize)]
    exact ⟨t, ht, hcan⟩

theorem Config.At.step_end {t : Terminator} (h : c.At f p) (he : f.Ends p t) :
    c.step m = c.terminate (some t) := by
  obtain ⟨b, hb, hsize, ht⟩ := he
  have hblock : c.current.function.block c.current.block = .ok b := by
    rw [h.function, h.block]
    exact Ir.entry_eq_ok.2 hb
  unfold Config.step
  simp only [hblock, h.position, Array.getElem?_eq_none (Nat.le_of_eq hsize), ht]

theorem Config.At.jumped (h : c.At f p) (dest : BlockId) (n : Nat) :
    (c.jumped dest).At f (.start dest n) :=
  ⟨h.function, rfl, rfl, h.slots, h.values⟩

theorem br_steps {dest : BlockId} (h : c.At f p) (he : f.Ends p (.br dest)) :
    c.Steps m 1 (c.jumped dest) :=
  .one (h.isTyped_end he (by simp [Activation.CanEnd, Terminator.operands])) (h.step_end he)

theorem condBr_steps {b : Bool} {yes no : BlockId} (h : c.At f p)
    (he : f.Ends p (.condBr v yes no)) (hv : Gives f c p v (.bool b)) :
    c.Steps m 1 (c.jumped (if b then yes else no)) := by
  refine .one (h.isTyped_end he ?_) ?_
  · intro w hw
    rw [List.mem_singleton.1 hw]
    exact ⟨_, _, hv.reads h.function (by simp [Typed.bool, Ty.i1, Ty.void])⟩
  · rw [h.step_end he]
    simp only [Config.terminate, hv.get]
    cases b <;> rfl

end

end Quill
