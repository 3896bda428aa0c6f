import Quill.Proofs.Machine.Steps
import Quill.Proofs.Meaning.Evaluator

/-! # A machine keeps up with the evaluator

A machine keeps up with an evaluation if it arrives where the evaluation does, halts where the
evaluation is cut short, and is busy for as long as the evaluation may go on. It never takes a
step from a configuration that is not typed.
-/
namespace Quill

open Ir (Module)

/-- The traps of compiled programs: no unreachable code and no bad format. -/
def Trap.IsOrdinary : Trap → Prop
  | unreachable _ | format _ => False
  | _ => True

namespace Meaning

variable {α β : Type} {m : Module} {fuel k : Nat} {x : Eval α} {c c' : Config}
  {Q R : α → Config → Prop}

theorem get_bind_run (f : Console → Eval α) (k : Console) : (get >>= f).run k = (f k).run k := rfl

theorem run_bind (x : Eval α) (f : α → Eval β) (k : Console) :
    (x >>= f).run k =
      match x.run k with
      | (.ok a, k) => (f a).run k
      | (.error e, k) => (.error e, k) := by
  change (ExceptT.bindCont f (x.run k).1) (x.run k).2 = _
  cases x.run k with
  | mk r k => cases r <;> rfl

def consoleOf (w : World) : Console := ⟨w.input, w.sink⟩

/-- The machine goes from `c` on to match an outcome of the evaluator. -/
def Matches (m : Module) (fuel : Nat) (c : Config) (Q : α → Config → Prop) :
    Except Break α × Console → Prop
  | (.ok a, k) => ∃ n c', c.Steps m n c' ∧ consoleOf c'.world = k ∧ Q a c'
  | (.error (.trap t), k) => t.IsOrdinary ∧ ∃ n c' w, c.Steps m n c' ∧ c'.current.IsTyped ∧
      c'.step m = .halted (.trap t) w ∧ consoleOf w = k
  | (.error .outOfFuel, _) => ∃ n c', fuel ≤ n ∧ c.Steps m n c'
  | (.error .stuck, _) => False

/-- From `c` on the machine does what `x` does, and ends with `Q`. -/
def Simulates (m : Module) (fuel : Nat) (x : Eval α) (c : Config) (Q : α → Config → Prop) : Prop :=
  Matches m fuel c Q (x.run (consoleOf c.world))

theorem Matches.steps {n : Nat} {r : Except Break α × Console} (h : c.Steps m n c')
    (hr : Matches m fuel c' Q r) : Matches m (n + fuel) c Q r := by
  match r, hr with
  | (.ok a, k), ⟨n', c₁, hsteps, hk, hQ⟩ => exact ⟨_, c₁, h.trans hsteps, hk, hQ⟩
  | (.error (.trap t), k), ⟨ht, n', c₁, w, hsteps, hrest⟩ =>
    exact ⟨ht, _, c₁, w, h.trans hsteps, hrest⟩
  | (.error .outOfFuel, _), ⟨n', c₁, hn, hsteps⟩ =>
    exact ⟨_, c₁, Nat.add_le_add_left hn n, h.trans hsteps⟩

theorem Matches.weaken {r : Except Break α × Console} (h : Matches m fuel c Q r) (hk : k ≤ fuel) :
    Matches m k c Q r := by
  match r, h with
  | (.ok a, k), h => exact h
  | (.error (.trap t), k), h => exact h
  | (.error .outOfFuel, _), ⟨n', c₁, hn, hsteps⟩ => exact ⟨n', c₁, Nat.le_trans hk hn, hsteps⟩

namespace Simulates

theorem pure {a : α} (h : Q a c) : Simulates m fuel (Pure.pure a) c Q := ⟨0, c, .refl, rfl, h⟩

theorem weaken (h : Simulates m fuel x c Q) (hk : k ≤ fuel) : Simulates m k x c Q :=
  Matches.weaken h hk

theorem mono (h : Simulates m fuel x c Q) (hQ : ∀ a c', Q a c' → R a c') :
    Simulates m fuel x c R := by
  unfold Simulates at h ⊢
  match x.run (consoleOf c.world), h with
  | (.ok a, k), ⟨n, c₁, hsteps, hk, ha⟩ => exact ⟨n, c₁, hsteps, hk, hQ a c₁ ha⟩
  | (.error (.trap t), k), h => exact h
  | (.error .outOfFuel, _), h => exact h

/-- Steps that leave the console alone may be taken first. They count. -/
theorem stepsCounted {n : Nat} (h : c.Steps m n c') (hw : consoleOf c'.world = consoleOf c.world)
    (hx : Simulates m fuel x c' Q) : Simulates m (n + fuel) x c Q := by
  unfold Simulates at hx ⊢
  rw [hw] at hx
  exact hx.steps h

theorem steps {n : Nat} (h : c.Steps m n c') (hw : consoleOf c'.world = consoleOf c.world)
    (hx : Simulates m fuel x c' Q) : Simulates m fuel x c Q :=
  (stepsCounted h hw hx).weaken (Nat.le_add_left fuel n)

theorem bind {S : β → Config → Prop} {f : α → Eval β} (h : Simulates m fuel x c Q)
    (hf : ∀ a c', Q a c' → Simulates m fuel (f a) c' S) : Simulates m fuel (x >>= f) c S := by
  unfold Simulates at h ⊢
  rw [run_bind]
  match x.run (consoleOf c.world), h with
  | (.ok a, k), ⟨n, c₁, hsteps, hk, ha⟩ =>
    subst hk
    exact (Matches.steps hsteps (hf a c₁ ha)).weaken (Nat.le_add_left fuel n)
  | (.error (.trap t), k), h => exact h
  | (.error .outOfFuel, _), h => exact h

theorem map {S : β → Config → Prop} {f : α → β} (h : Simulates m fuel x c Q)
    (hf : ∀ a c', Q a c' → S (f a) c') : Simulates m fuel (f <$> x) c S := by
  rw [map_eq_pure_bind]
  exact h.bind fun a c' ha => .pure (hf a c' ha)

/-- Steps that leave the console alone may be taken afterwards. -/
theorem followed (h : Simulates m fuel x c Q)
    (hQ : ∀ a c', Q a c' → ∃ n c₁, c'.Steps m n c₁ ∧ consoleOf c₁.world = consoleOf c'.world ∧
      R a c₁) : Simulates m fuel x c R := by
  rw [← bind_pure x]
  apply h.bind
  intro a c' ha
  obtain ⟨n, c₁, hsteps, hworld, hR⟩ := hQ a c' ha
  exact (pure hR).steps hsteps hworld

theorem discard {S : Unit → Config → Prop} (h : Simulates m fuel x c Q)
    (hf : ∀ a c', Q a c' → S () c') : Simulates m fuel (discard x) c S := h.map hf

theorem known {o : Option α} {a : α} (ho : o = some a) (h : Q a c) :
    Simulates m fuel (Meaning.known o) c Q := by
  subst ho
  exact .pure h

theorem bindKnown {S : β → Config → Prop} {f : α → Eval β} {o : Option α} {a : α}
    (ho : o = some a) (h : Simulates m fuel (f a) c S) :
    Simulates m fuel (Meaning.known o >>= f) c S :=
  (known (Q := fun b d => b = a ∧ d = c) ho ⟨rfl, rfl⟩).bind fun _ _ ⟨hb, hd⟩ => hb ▸ hd ▸ h

theorem trap {t : Trap} {w : World} (ht : t.IsOrdinary) (htyped : c.current.IsTyped)
    (hstep : c.step m = .halted (.trap t) w) (hw : consoleOf w = consoleOf c.world) :
    Simulates m fuel (Meaning.trap t) c Q :=
  ⟨ht, 0, c, w, .refl, htyped, hstep, hw⟩

theorem act (htyped : c.current.IsTyped)
    (h : match x.run (consoleOf c.world), c.step m with
      | (.ok a, k), .running c' => consoleOf c'.world = k ∧ Q a c'
      | (.error (.trap t), k), .halted h w => h = .trap t ∧ t.IsOrdinary ∧ consoleOf w = k
      | _, _ => False) : Simulates m fuel x c Q := by
  unfold Simulates
  match hx : x.run (consoleOf c.world), hstep : c.step m with
  | (.ok a, k), .running c' =>
    simp only [hx, hstep] at h
    exact ⟨1, c', .one htyped hstep, h⟩
  | (.error (.trap t), k), .halted halt w =>
    simp only [hx, hstep] at h
    obtain ⟨rfl, ht, hw⟩ := h
    exact ⟨ht, 0, c, w, .refl, htyped, hstep, hw⟩
  | (.ok _, _), .returned _ _ => simp [hx, hstep] at h
  | (.ok _, _), .halted _ _ => simp [hx, hstep] at h
  | (.error (.trap _), _), .running _ => simp [hx, hstep] at h
  | (.error (.trap _), _), .returned _ _ => simp [hx, hstep] at h
  | (.error .outOfFuel, _), _ => simp [hx] at h
  | (.error .stuck, _), _ => simp [hx] at h

end Simulates

end Meaning

end Quill
