import Quill.Lowering.Program

/-! # Outcomes of lowering

A step of lowering reaches a property if it ends with it or rejects the program for a cause its
author can mend. A misuse reaches nothing.
-/
namespace Quill

open Ir (Build FuncId Operand Ty)
open Library (Direction)

/-- A cause that the author of the program is told: anything but a failed verification. -/
def LoweringError.IsUserFacing (e : LoweringError) : Prop := ∀ v, e ≠ .verify v

namespace Lower

variable {α β : Type} {x : Lower α} {t : Lowering} {Q R : α → Lowering → Prop}

def Outcome (Q : α → Lowering → Prop) : Except Stop α × Lowering → Prop
  | (.ok a, t) => Q a t
  | (.error (.rejected e), _) => e.val.IsUserFacing
  | (.error (.misuse _), _) => False

/-- What `x` does from the state `t` on. -/
def Reaches (x : Lower α) (t : Lowering) (Q : α → Lowering → Prop) : Prop := Outcome Q (x.run t)

theorem bind_run (x : Lower α) (f : α → Lower β) (t : Lowering) :
    (x >>= f).run t =
      match x.run t with
      | (.ok a, t) => (f a).run t
      | (.error e, t) => (.error e, t) := by
  change (ExceptT.bindCont f (x.run t).1) (x.run t).2 = _
  cases x.run t with
  | mk r t => cases r <;> rfl

theorem bind_run_of_ok {x : Lower α} {a : α} {t' : Lowering} (h : x.run t = (.ok a, t'))
    (f : α → Lower β) : (x >>= f).run t = (f a).run t' := by
  rw [bind_run, h]

/-- What is nested runs in a scope frame of its own, which is gone behind it. -/
theorem nested_eq {r : Except Stop α} {t' : Lowering} (h : (nested x).run t = (r, t')) :
    ∃ t₁, x.run { t with scopes := t.scopes.enter } = (r, t₁) ∧
      t' = { t₁ with scopes := t₁.scopes.leave } := by
  let entered : Lowering := { t with scopes := t.scopes.enter }
  have hrun : (nested x).run t = ((x.run entered).1,
      { (x.run entered).2 with scopes := (x.run entered).2.scopes.leave }) := rfl
  obtain ⟨rfl, rfl⟩ := Prod.mk.inj (hrun.symm.trans h)
  exact ⟨_, rfl, rfl⟩

theorem get_bind_run (f : Lowering → Lower β) (t : Lowering) : (get >>= f).run t = (f t).run t := rfl

namespace Reaches

theorem of_run {a : α} {t' : Lowering} (h : x.run t = (.ok a, t')) (hQ : Q a t') :
    Reaches x t Q := by
  unfold Reaches
  rw [h]
  exact hQ

theorem mono (h : Reaches x t Q) (hQ : ∀ a t', Q a t' → R a t') : Reaches x t R := by
  unfold Reaches at h ⊢
  cases hx : x.run t with
  | mk r t' =>
    rw [hx] at h
    cases r with
    | ok a => exact hQ a t' h
    | error e => cases e <;> exact h

theorem bind {S : β → Lowering → Prop} {f : α → Lower β} (h : Reaches x t Q)
    (hf : ∀ a t', Q a t' → Reaches (f a) t' S) : Reaches (x >>= f) t S := by
  unfold Reaches at h ⊢
  rw [bind_run]
  cases hx : x.run t with
  | mk r t' =>
    rw [hx] at h
    cases r with
    | ok a => exact hf a t' h
    | error e => cases e <;> exact h

theorem step {S : β → Lowering → Prop} {f : α → Lower β} {a : α} {t' : Lowering}
    (h : x.run t = (.ok a, t')) (hf : Reaches (f a) t' S) : Reaches (x >>= f) t S :=
  (of_run (Q := fun b u => b = a ∧ u = t') h ⟨rfl, rfl⟩).bind fun _ _ ⟨ha, ht⟩ => ha ▸ ht ▸ hf

theorem pure {a : α} (h : Q a t) : Reaches (Pure.pure a) t Q := h

theorem reject {span : Span} {e : LoweringError} (h : e.IsUserFacing) :
    Reaches (Lower.reject span e : Lower α) t Q := h

end Reaches

theorem build_ok {α : Type} {x : Build α} {t : Lowering} {a : α} {b : Ir.Builder}
    (h : x t.builder = .ok (a, b)) :
    (Lower.build x).run t = (.ok a, { t with builder := b }) := by
  rw [Lower.build, get_bind_run, h]
  rfl

/-! ### What is rejected -/

/-- If `x` rejects the program, whatever the state, then with an error that `P` allows. -/
def Rejects (P : Spanned LoweringError → Prop) (x : Lower α) : Prop :=
  ∀ t e t', x.run t = (.error (.rejected e), t') → P e

namespace Rejects

variable {P : Spanned LoweringError → Prop} {y : Lower α}

theorem of_run (h : ∀ t, ∃ a t', x.run t = (.ok a, t')) : Rejects P x := by
  intro t e t' he
  obtain ⟨a, t₁, ha⟩ := h t
  rw [ha] at he
  cases he

theorem pure (a : α) : Rejects P (Pure.pure a : Lower α) := of_run fun t => ⟨a, t, rfl⟩

theorem get : Rejects P (MonadState.get : Lower Lowering) := of_run fun t => ⟨t, t, rfl⟩

theorem set (t : Lowering) : Rejects P (MonadStateOf.set t : Lower PUnit) :=
  of_run fun _ => ⟨⟨⟩, t, rfl⟩

theorem change (f : Lowering → Lowering) : Rejects P (modify f : Lower Unit) :=
  of_run fun t => ⟨(), f t, rfl⟩

theorem misuse (m : Misuse) : Rejects P (Lower.misuse m : Lower α) := by
  intro t e t' h
  cases h

theorem reject {span : Span} {e : LoweringError} (h : P (span.at e)) :
    Rejects P (Lower.reject span e : Lower α) := by
  intro t e t' he
  cases he
  exact h

theorem bind {f : α → Lower β} (hx : Rejects P x) (hf : ∀ a, Rejects P (f a)) :
    Rejects P (x >>= f) := by
  intro t e t' h
  rw [bind_run] at h
  cases hr : x.run t with
  | mk r t₁ =>
    rw [hr] at h
    cases r with
    | ok a => exact hf a t₁ e t' h
    | error s =>
      cases h
      exact hx t e t' hr

theorem map {f : α → β} (hx : Rejects P x) : Rejects P (f <$> x) := by
  rw [map_eq_pure_bind]
  exact hx.bind fun _ => pure _

theorem discard (hx : Rejects P x) : Rejects P (Functor.discard x) := hx.map

theorem ite {c : Prop} [Decidable c] (hx : Rejects P x) (hy : Rejects P y) :
    Rejects P (if c then x else y) := by
  split
  · exact hx
  · exact hy

theorem guard {c : Prop} [Decidable c] {g : Lower PUnit} (hg : Rejects P g) (hx : Rejects P x) :
    Rejects P (if c then g >>= fun _ => x else x) :=
  ite (hg.bind fun _ => hx) hx

theorem nested (hx : Rejects P x) : Rejects P (Lower.nested x) := by
  intro t e t' h
  obtain ⟨t₁, hr, -⟩ := nested_eq h
  exact hx _ e t₁ hr

theorem build (x : Build α) : Rejects P (Lower.build x) := by
  refine get.bind fun s => ?_
  split
  · exact bind (of_run fun t => ⟨(), _, rfl⟩) fun _ => pure _
  · exact misuse _

theorem newBlock (label : String) : Rejects P (Lower.newBlock label) := build _

theorem continueUnreachable (label : String) : Rejects P (Lower.continueUnreachable label) :=
  (newBlock label).bind fun _ => (build _).bind fun _ => build _

theorem typeOf (v : Operand) : Rejects P (Lower.typeOf v) := build _

theorem format (ty : Ty) (d : Direction) : Rejects P (Lower.format ty d) := by
  refine get.bind fun s => ?_
  split
  · exact pure _
  · refine guard (misuse _) ((build _).bind fun v => ?_)
    exact (change fun s => { s with formats := ((ty, d), v) :: s.formats }).bind fun _ => pure v

theorem cast (op : Ir.CastOp) (v : Operand) (target : Ty) : Rejects P (Lower.cast op v target) :=
  get.bind fun _ => ite (build _) (build _)

theorem convert (v : Operand) (target : Ty) : Rejects P (Lower.convert v target) :=
  (typeOf v).bind fun _ => ite (pure _) (cast _ _ _)

theorem coerce? (v : Operand) (target : Ty) : Rejects P (Lower.coerce? v target) :=
  (typeOf v).bind fun _ => ite (pure _) (ite (pure _) ((convert v target).bind fun _ => pure _))

theorem operate (operation : Operation) (l r : Operand) :
    Rejects P (Lower.operate operation l r) := by
  cases operation <;> exact build _

theorem abort : Rejects P Lower.abort :=
  get.bind fun _ => (build _).discard.bind fun _ => build _

theorem promote (v : Operand) (ty : Ty) : Rejects P (Lower.promote v ty) :=
  ite (cast _ _ _) (ite (cast _ _ _) (pure _))

theorem resultSlot (r : Routine) : Rejects P (Lower.resultSlot r) := by
  refine .ite (pure _) ((build _).bind fun slot => .ite ?_ (pure _))
  exact (build _).bind fun _ => pure _

theorem verify {id : FuncId} {span : Span} (h : ∀ e, P (span.at (.verify e))) :
    Rejects P (Lower.verify id span) := by
  refine get.bind fun s => ?_
  split
  · exact pure _
  · exact reject (h _)
  · exact misuse _

end Rejects

end Lower

end Quill
