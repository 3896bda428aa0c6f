import Quill.Proofs.Lowering.Draft

/-! # Lowering decides

A step of lowering decides between two cases if ending tells one of them and rejecting the program
tells the other. Together with what a step reaches this says when it is accepted.
-/
namespace Quill

open Ir (Build Operand Ty)
open Library (Direction)

namespace Lower

variable {α β : Type}

/-- Tells the author of the program nothing: if it stops the program is not to blame. -/
abbrev Plain (x : Lower α) : Prop := Rejects (fun e => ¬e.val.IsUserFacing) x

/-! ### The two cases -/

variable {x : Lower α} {t : Lowering} {Q R : α → Lowering → Prop} {M N : Prop}

/-- What the end tells, and what a rejection tells. -/
def Decision (Q : α → Lowering → Prop) (N : Prop) : Except Stop α × Lowering → Prop
  | (.ok a, t) => Q a t
  | (.error (.rejected e), _) => e.val.IsUserFacing → N
  | (.error (.misuse _), _) => True

def Decides (x : Lower α) (t : Lowering) (Q : α → Lowering → Prop) (N : Prop) : Prop :=
  Decision Q N (x.run t)

namespace Decides

theorem mono (h : Decides x t Q M) (hQ : ∀ a t', Q a t' → R a t') (hN : M → N) :
    Decides x t R N := by
  unfold Decides at h ⊢
  match x.run t, h with
  | (.ok a, t'), h => exact hQ a t' h
  | (.error (.rejected e), _), h => exact fun he => hN (h he)
  | (.error (.misuse _), _), _ => trivial

theorem bind {S : β → Lowering → Prop} {f : α → Lower β} (hr : Reaches x t R)
    (h : Decides x t Q N) (hf : ∀ a t', R a t' → Q a t' → Decides (f a) t' S N) :
    Decides (x >>= f) t S N := by
  unfold Reaches at hr
  unfold Decides at h ⊢
  rw [bind_run]
  match x.run t, hr, h with
  | (.ok a, t'), hr, h => exact hf a t' hr h
  | (.error (.rejected e), _), _, h => exact h
  | (.error (.misuse _), _), _, _ => trivial

theorem step {S : β → Lowering → Prop} {f : α → Lower β} {a : α} {t' : Lowering}
    (h : x.run t = (.ok a, t')) (hf : Decides (f a) t' S N) : Decides (x >>= f) t S N := by
  unfold Decides
  rw [bind_run, h]
  exact hf

theorem reject {span : Span} {e : LoweringError} (h : N) :
    Decides (Lower.reject span e : Lower α) t Q N := fun _ => h

theorem of_plain (hx : Plain x) (h : ∀ a t', x.run t = (.ok a, t') → Q a t') :
    Decides x t Q N := by
  unfold Decides
  match hr : x.run t with
  | (.ok a, t') => exact h a t' hr
  | (.error (.rejected e), t') => exact fun he => absurd he (hx t e t' hr)
  | (.error (.misuse _), _) => trivial

theorem of_reaches (hr : Reaches x t Q) (hx : Plain x) : Decides x t Q N := by
  refine of_plain hx fun a t' h => ?_
  unfold Reaches at hr
  rwa [h] at hr

end Decides

end Lower

/-! ### Deciding on a draft -/

open Lower

theorem Site.working_injective {σ : Site} {d d' : Draft} (h : σ.working d = σ.working d') :
    d = d' := by
  have hfunctions : σ.module.functions.setIfInBounds σ.id.index d.function =
      σ.module.functions.setIfInBounds σ.id.index d'.function :=
    congrArg (fun t => t.builder.module.functions) h
  have hlt : σ.id.index < σ.module.functions.size := σ.id_lt
  have hfunction : d.function = d'.function := by
    have := congrArg (·[σ.id.index]?) hfunctions
    simpa [hlt] using this
  have hblock : d.block = d'.block := Option.some.inj (congrArg (fun t => t.builder.block?) h)
  have hglobals : d.globals = d'.globals := congrArg (fun t => t.builder.module.globals) h
  have hformats : d.formats = d'.formats := congrArg (fun t => t.formats) h
  have hscopes : d.scopes = d'.scopes := congrArg (fun t => t.scopes) h
  have hframe : d.frame = d'.frame := congrArg (fun t => t.frame) h
  cases d
  cases d'
  simp only at hfunction hblock hglobals hformats hscopes hframe
  simp only [hfunction, hblock, hglobals, hformats, hscopes, hframe]

/-- If the step ends in a draft it tells `Q`, and if it rejects the program it tells `N`. -/
def Site.Decides (σ : Site) {α : Type} (x : Lower α) (d : Draft) (Q : α → Draft → Prop)
    (N : Prop) : Prop :=
  Lower.Decides x (σ.working d) (fun a t => ∀ d', t = σ.working d' → Q a d') N

namespace Site.Decides

variable {σ : Site} {α β : Type} {x : Lower α} {d : Draft} {Q R : α → Draft → Prop} {M N : Prop}

theorem mono (h : σ.Decides x d Q M) (hQ : ∀ a d', Q a d' → R a d') (hN : M → N) :
    σ.Decides x d R N :=
  Lower.Decides.mono h (fun a _ ha d' ht => hQ a d' (ha d' ht)) hN

/-- What the rejection of a part tells of the whole is said first. -/
theorem bind {S : β → Draft → Prop} {f : α → Lower β} (hr : σ.Leads x d R)
    (h : σ.Decides x d Q M) (hN : M → N)
    (hf : ∀ a d', R a d' → Q a d' → σ.Decides (f a) d' S N) : σ.Decides (x >>= f) d S N := by
  refine Lower.Decides.bind hr (Lower.Decides.mono h (fun _ _ ha => ha) hN) ?_
  rintro a _ ⟨d', rfl, ha⟩ hq
  exact hf a d' ha (hq d' rfl)

theorem step {S : β → Draft → Prop} {f : α → Lower β} {a : α} {d' : Draft}
    (h : x.run (σ.working d) = (.ok a, σ.working d')) (hf : σ.Decides (f a) d' S N) :
    σ.Decides (x >>= f) d S N :=
  Lower.Decides.step h hf

theorem pure {a : α} (h : Q a d) : σ.Decides (Pure.pure a) d Q N :=
  fun _ hd => working_injective hd ▸ h

theorem reject {span : Span} {e : LoweringError} (h : N) :
    σ.Decides (Lower.reject span e : Lower α) d Q N :=
  Lower.Decides.reject h

theorem reject_bind {S : β → Draft → Prop} {f : α → Lower β} {span : Span} {e : LoweringError}
    (h : N) : σ.Decides (Lower.reject span e >>= f) d S N :=
  fun _ => h

theorem of_plain (hx : Plain x) (h : ∀ a d', Q a d') : σ.Decides x d Q N :=
  Lower.Decides.of_plain hx fun a _ _ d' _ => h a d'

theorem of_leads (hr : σ.Leads x d Q) (hx : Plain x) : σ.Decides x d Q N := by
  refine (Lower.Decides.of_reaches hr hx).mono ?_ fun hn => hn
  rintro a _ ⟨d', rfl, ha⟩ d'' heq
  exact working_injective heq ▸ ha

theorem after {S : β → Draft → Prop} {f : α → Lower β} (hr : σ.Leads x d R) (hx : Plain x)
    (hf : ∀ a d', R a d' → σ.Decides (f a) d' S N) : σ.Decides (x >>= f) d S N :=
  bind hr (of_leads hr hx) (fun hn => hn) fun a d' ha _ => hf a d' ha

theorem map {S : β → Draft → Prop} {f : α → β} (h : σ.Decides x d (fun a => S (f a)) N) :
    σ.Decides (f <$> x) d S N := by
  rw [map_eq_pure_bind]
  unfold Site.Decides Lower.Decides at h ⊢
  rw [bind_run]
  match x.run (σ.working d), h with
  | (.ok a, t'), h => exact h
  | (.error (.rejected e), _), h => exact h
  | (.error (.misuse _), _), _ => trivial

theorem discard {S : PUnit → Draft → Prop} (h : σ.Decides x d Q N)
    (hS : ∀ a d', Q a d' → S () d') : σ.Decides (Functor.discard x) d S N := by
  unfold Functor.discard Functor.mapConst
  exact (h.mono hS fun hn => hn).map

theorem nested (h : σ.Decides x d.nest (fun a d' => Q a d'.leave) N) :
    σ.Decides (Lower.nested x) d Q N := by
  have hrun : (Lower.nested x).run (σ.working d) =
      match x.run (σ.working d.nest) with
      | (r, t) => (r, { t with scopes := t.scopes.leave }) := rfl
  unfold Site.Decides Lower.Decides at h ⊢
  rw [hrun]
  match x.run (σ.working d.nest), h with
  | (.ok a, t), h =>
    intro d' hd'
    -- The state behind `x` differs from the one that is left only in the scopes.
    have ht : t = σ.working { d' with scopes := t.scopes } := by
      change t = { σ.working d' with scopes := t.scopes }
      rw [← hd']
    have hleave : d' = Draft.leave { d' with scopes := t.scopes } := by
      have hscopes : t.scopes.leave = d'.scopes := congrArg Lowering.scopes hd'
      cases d'
      simp only at hscopes
      simp only [Draft.leave, hscopes]
    rw [hleave]
    exact h _ ht
  | (.error (.rejected e), _), h => exact h
  | (.error (.misuse _), _), _ => trivial

end Site.Decides

end Quill
