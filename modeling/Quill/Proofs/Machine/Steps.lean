import Quill.Machine.Run

/-! # Steps of a machine that reads only what it should

A value has a type if it has its shape and is in its range. A configuration is typed if everything
that its next instruction or terminator reads has the static type of what is read. Steps are
counted, and each begins in a typed configuration.
-/
namespace Quill

open Ir (Action Block Function Module Operand SlotId Terminator Ty)

/-- Nothing is void. -/
inductive Value.HasType : Value → Ty → Prop
  | whole {n t} : t.isInt → t.wrap n = n → HasType (.int n) t
  | fraction {x t} : t.isFloat → HasType (.float x) t
  | pointer {p t} : t.isPointer → HasType (.ptr p) t

namespace Ir

/-- The operands that an action reads. -/
def Action.operands : Action → List Operand
  | alloca _ | load _ => []
  | store _ v | cast _ v _ => [v]
  | binary _ l r | compare _ l r => [l, r]
  | call _ args => args

def Terminator.operands : Terminator → List Operand
  | br _ | unreachable | ret none => []
  | condBr c _ _ => [c]
  | ret (some v) => [v]

end Ir

namespace Activation

/-- The operand has a value, and the value has the type of the operand. -/
def Reads (a : Activation) (v : Operand) (x : Value) (ty : Ty) : Prop :=
  a.get v = .ok x ∧ a.function.typeOf v = .ok ty ∧ x.HasType ty

def Holds (a : Activation) (s : SlotId) : Prop :=
  ∃ slot x, a.function.slot s = .ok slot ∧ a.slot s = .ok x ∧ x.HasType slot.ty

def CanPerform (a : Activation) (action : Action) : Prop :=
  (∀ v ∈ action.operands, ∃ x ty, a.Reads v x ty) ∧ ∀ s, action = .load s → a.Holds s

def CanEnd (a : Activation) (t : Terminator) : Prop := ∀ v ∈ t.operands, ∃ x ty, a.Reads v x ty

/-- Everything that is read next has its type, and there is something to be done next. -/
def IsTyped (a : Activation) : Prop :=
  ∃ b : Block, a.function.block a.block = .ok b ∧
    match b.insts[a.position]? with
    | some i => a.CanPerform i.action
    | none => ∃ t, b.terminator = some t ∧ a.CanEnd t

end Activation

namespace Config

/-- The configuration after so many steps, unless the run is over before. -/
def after (m : Module) : Nat → Config → Option Config
  | 0, c => some c
  | n + 1, c =>
    match c.step m with
    | .running c => after m n c
    | _ => none

/-- So many steps, each from a typed configuration. -/
inductive Steps (m : Module) : Nat → Config → Config → Prop
  | refl {c} : Steps m 0 c c
  | step {n c c₁ c'} : c.current.IsTyped → c.step m = .running c₁ → Steps m n c₁ c' →
      Steps m (n + 1) c c'

variable {m : Module} {n k : Nat} {c c₁ c' : Config}

namespace Steps

theorem one (h : c.current.IsTyped) (hstep : c.step m = .running c') : Steps m 1 c c' :=
  .step h hstep .refl

theorem trans (h : Steps m n c c₁) (h' : Steps m k c₁ c') : Steps m (n + k) c c' := by
  induction h with
  | refl => simpa using h'
  | @step n c c₂ c₁ htyped hstep _ ih =>
    rw [Nat.add_right_comm]
    exact .step htyped hstep (ih h')

theorem after (h : Steps m n c c') : c.after m n = some c' := by
  induction h with
  | refl => rfl
  | step _ hstep _ ih =>
    rw [Config.after, hstep]
    exact ih

theorem isTyped (h : Steps m n c c') (hk : k < n) (hc : c.after m k = some c₁) :
    c₁.current.IsTyped := by
  induction h generalizing k with
  | refl => exact absurd hk (Nat.not_lt_zero k)
  | step htyped hstep _ ih =>
    cases k with
    | zero => exact Option.some.inj hc ▸ htyped
    | succ k =>
      rw [Config.after, hstep] at hc
      exact ih (Nat.lt_of_succ_lt_succ hk) hc

theorem run_add (h : Steps m n c c') (fuel : Nat) : c.run m (n + fuel) = c'.run m fuel := by
  induction h with
  | refl => rw [Nat.zero_add]
  | step _ hstep _ ih =>
    rw [Nat.add_right_comm, Config.run, hstep]
    exact ih

theorem run_eq_none (h : Steps m n c c') (hk : k ≤ n) : c.run m k = none := by
  induction h generalizing k with
  | refl =>
    obtain rfl := Nat.le_zero.1 hk
    rfl
  | step _ hstep _ ih =>
    cases k with
    | zero => rfl
    | succ k =>
      rw [Config.run, hstep]
      exact ih (Nat.le_of_succ_le_succ hk)

end Steps

theorem after_add (hc : c.after m n = some c₁) (k : Nat) : c.after m (n + k) = c₁.after m k := by
  induction n generalizing c with
  | zero =>
    obtain rfl := Option.some.inj hc
    rw [Nat.zero_add]
  | succ n ih =>
    rw [Config.after] at hc
    rw [Nat.add_right_comm, Config.after]
    split at hc
    · exact ih hc
    · cases hc

/-- A run that ends in a typed configuration is in typed ones all the time. -/
theorem Steps.isTyped_all (h : Steps m n c c') (hlast : c'.current.IsTyped)
    (hend : ∀ d, c'.step m ≠ .running d) (hc : c.after m k = some c₁) : c₁.current.IsTyped := by
  rcases Nat.lt_trichotomy k n with hlt | rfl | hgt
  · exact h.isTyped hlt hc
  · obtain rfl := Option.some.inj (h.after.symm.trans hc)
    exact hlast
  · obtain ⟨j, rfl⟩ := Nat.exists_eq_add_of_lt hgt
    have hc : c'.after m (j + 1) = some c₁ := (after_add h.after (j + 1)).symm.trans hc
    rw [Config.after] at hc
    split at hc
    · rename_i d hstep
      exact absurd hstep (hend d)
    · cases hc

theorem run_mono {r : Except Halt Value × World} (h : c.run m n = some r) (hn : n ≤ k) :
    c.run m k = some r := by
  induction n generalizing c k with
  | zero => cases h
  | succ n ih =>
    obtain ⟨k, rfl⟩ := Nat.exists_eq_add_of_le' (Nat.lt_of_lt_of_le (Nat.succ_pos n) hn)
    rw [Config.run] at h ⊢
    split at h
    · exact ih h (Nat.le_of_succ_le_succ hn)
    · exact h
    · exact h

end Config

/-! ### Runs of the entry point -/

namespace Machine

variable {m : Machine} {n k : Nat}

/-- The configuration in which a run of the entry point begins. -/
def first? (m : Machine) : Option Config := do
  let id ← m.module.lookup? "main"
  let f ← (m.module.function id).toOption
  let start ← f.entryBlock?
  return ⟨.enter f start [], [],
    { m.world with records := m.world.records.push (.trace s!"entering {f.name}") }⟩

/-- How a run of the machine ends when that of its activations does. -/
def ending (m : Machine) (r : Except Halt Value × World) : Except Halt Int64 × Machine :=
  ((flushed r.1 r.2).map Value.toInt, { m with world := r.2 })

theorem runMain_of_first? {c : Config} (h : m.first? = some c) (n : Nat) :
    m.runMain n = (c.run m.module n).map m.ending := by
  unfold first? at h
  unfold runMain
  cases hid : m.module.lookup? "main" with
  | none => simp [hid] at h
  | some id =>
    cases hf : m.module.function id with
    | error e => simp [hid, hf, Except.toOption] at h
    | ok f =>
      cases hstart : f.entryBlock? with
      | none => simp [hid, hf, hstart, Except.toOption] at h
      | some start =>
        simp only [hid, hf, hstart, Except.toOption, Option.bind_eq_bind, Option.bind_some,
          Option.pure_def, Option.some.injEq] at h
        subst h
        simp only [hf, hstart]
        cases hrun : Config.run m.module n _ <;> rfl

theorem runMain_of_first?_eq_none (h : m.first? = none) (n k : Nat) :
    m.runMain n = m.runMain k := by
  unfold first? at h
  unfold runMain
  cases hid : m.module.lookup? "main" with
  | none => rfl
  | some id =>
    cases hf : m.module.function id with
    | error e => simp only [hf]
    | ok f =>
      cases hstart : f.entryBlock? with
      | none => simp only [hf, hstart]
      | some start => simp [hid, hf, hstart, Except.toOption] at h

theorem runMain_mono {r : Except Halt Int64 × Machine} (h : m.runMain n = some r) (hn : n ≤ k) :
    m.runMain k = some r := by
  cases hfirst : m.first? with
  | none => exact (runMain_of_first?_eq_none hfirst k n).trans h
  | some c =>
    rw [runMain_of_first? hfirst] at h ⊢
    obtain ⟨out, hout, rfl⟩ := Option.map_eq_some_iff.1 h
    rw [Config.run_mono hout hn]
    rfl

theorem runMain_unique {r r' : Except Halt Int64 × Machine} (h : m.runMain n = some r)
    (h' : m.runMain k = some r') : r = r' := by
  rcases Nat.le_total n k with hn | hk
  · exact Option.some.inj ((runMain_mono h hn).symm.trans h')
  · exact Option.some.inj (h.symm.trans (runMain_mono h' hk))

end Machine

end Quill
