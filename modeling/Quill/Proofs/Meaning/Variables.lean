import Mathlib.Data.List.Forall2
import Quill.Proofs.Meaning.Places

/-! # Variables and their slots

The variables of the evaluator are those that the code has bound to slots, frame by frame and in
the same order. Each slot holds the value of its variable, which has the declared type.
-/
namespace Quill

open Ir (Function SlotId Ty)
open Meaning (Env Typed)

structure InSlot (f : Function) (slots : Array Value) (slot : SlotId) (v : Typed) : Prop where
  declared : f.HasSlot slot v.ty
  value : slots[slot.index]? = some v.value
  hasType : v.value.HasType v.ty

def IsVariable (f : Function) (slots : Array Value) (x : String × Typed) (y : String × SlotId) :
    Prop :=
  x.1 = y.1 ∧ InSlot f slots y.2 x.2

def Binds (f : Function) (slots : Array Value) : Env → Scopes → Prop :=
  List.Forall₂ (List.Forall₂ (IsVariable f slots))

variable {f : Function} {slots slots' : Array Value} {env : Env} {scopes : Scopes} {slot : SlotId}
  {x : String} {v : Typed}

theorem Value.HasType.ne_void {y : Value} {t : Ty} (h : y.HasType t) : t ≠ .void := by
  rintro rfl
  cases h with
  | whole h => cases h
  | fraction h => cases h
  | pointer h => cases h

theorem InSlot.congr (h : InSlot f slots slot v)
    (hsame : slots'[slot.index]? = slots[slot.index]?) : InSlot f slots' slot v :=
  ⟨h.declared, hsame.trans h.value, h.hasType⟩

theorem Ir.Function.HasSlot.unique {s t : Ty} (h : f.HasSlot slot s) (h' : f.HasSlot slot t) :
    s = t := by
  obtain ⟨_, hs⟩ := h
  obtain ⟨_, ht⟩ := h'
  exact congrArg Ir.Slot.ty (Option.some.inj (hs.symm.trans ht))

theorem getElem?_set_of_ne {s s' : SlotId} (h : s' ≠ s) (y : Value) :
    (slots.set! s.index y)[s'.index]? = slots[s'.index]? := by
  have hne : s.index ≠ s'.index := by
    intro heq
    apply h
    cases s
    cases s'
    exact congrArg SlotId.mk heq.symm
  simp [hne]

namespace Binds

theorem congr_frame {frame : List (String × Typed)} {sframe : ScopeFrame}
    (h : List.Forall₂ (IsVariable f slots) frame sframe)
    (hsame : ∀ y ∈ sframe, slots'[y.2.index]? = slots[y.2.index]?) :
    List.Forall₂ (IsVariable f slots') frame sframe := by
  induction h with
  | nil => exact .nil
  | cons hb _ ih =>
    refine .cons ⟨hb.1, hb.2.congr (hsame _ List.mem_cons_self)⟩ (ih fun y hy => ?_)
    exact hsame y (List.mem_cons_of_mem _ hy)

theorem congr (h : Binds f slots env scopes)
    (hsame : ∀ s ∈ scopes.slots, slots'[s.index]? = slots[s.index]?) :
    Binds f slots' env scopes := by
  induction h with
  | nil => exact .nil
  | @cons frame sframe env scopes hframe _ ih =>
    refine .cons (congr_frame hframe fun y hy => ?_) (ih fun s hs => ?_)
    · exact hsame y.2 (Scopes.mem_slots List.mem_cons_self hy)
    · exact hsame s (by simp [hs])

theorem enter (h : Binds f slots env scopes) : Binds f slots ([] :: env) scopes.enter :=
  .cons .nil h

theorem leave (h : Binds f slots env scopes) : Binds f slots env.tail scopes.leave := by
  cases h with
  | nil => exact .nil
  | cons _ h => exact h

theorem lookup_frame {frame : List (String × Typed)} {sframe : ScopeFrame}
    (h : List.Forall₂ (IsVariable f slots) frame sframe) (x : String) :
    (sframe.lookup x = none ∧ frame.lookup x = none) ∨
      ∃ slot v, sframe.lookup x = some slot ∧ frame.lookup x = some v ∧ InSlot f slots slot v := by
  induction h with
  | nil => exact .inl ⟨rfl, rfl⟩
  | @cons b s frame sframe hb _ ih =>
    obtain ⟨y, v⟩ := b
    obtain ⟨z, slot⟩ := s
    obtain ⟨rfl, hslot⟩ := hb
    dsimp only at hslot
    rw [List.lookup_cons, List.lookup_cons]
    cases hx : x == y with
    | true => exact .inr ⟨slot, v, rfl, rfl, hslot⟩
    | false => exact ih

/-- A name in sight of the code is in sight of the evaluator, and its slot holds its value. -/
theorem find? (h : Binds f slots env scopes) (hx : scopes.find? x = some slot) :
    ∃ v, env.find? x = some v ∧ InSlot f slots slot v := by
  induction h with
  | nil => cases hx
  | cons hframe _ ih =>
    unfold Scopes.find? Meaning.Env.find? at *
    rw [List.findSome?_cons] at hx ⊢
    rcases lookup_frame hframe x with ⟨hs, hv⟩ | ⟨slot', v, hs, hv, hslot⟩
    · rw [hs] at hx
      rw [hv]
      exact ih hx
    · rw [hs] at hx
      obtain rfl := Option.some.inj hx
      rw [hv]
      exact ⟨v, rfl, hslot⟩

theorem setIn {frame : List (String × Typed)} {sframe : ScopeFrame} {y : Value}
    (h : List.Forall₂ (IsVariable f slots) frame sframe) (hx : sframe.lookup x = some slot)
    (hnodup : (sframe.map Prod.snd).Nodup) (hy : ∀ t, f.HasSlot slot t → y.HasType t)
    (hlt : slot.index < slots.size) :
    List.Forall₂ (IsVariable f (slots.set! slot.index y)) (Meaning.Env.setIn x y frame) sframe := by
  induction h with
  | nil => cases hx
  | @cons b s frame sframe hb hrest ih =>
    obtain ⟨z, v⟩ := b
    obtain ⟨_, slot'⟩ := s
    obtain ⟨rfl, hslot⟩ := hb
    dsimp only at hslot
    rw [List.map_cons, List.nodup_cons] at hnodup
    rw [List.lookup_cons] at hx
    unfold Meaning.Env.setIn
    split at hx
    · rename_i hxz
      obtain rfl := Option.some.inj hx
      rw [if_pos hxz]
      refine .cons ⟨rfl, hslot.declared, by simp [hlt], hy _ hslot.declared⟩ ?_
      refine congr_frame hrest fun b hb => getElem?_set_of_ne (fun heq => ?_) y
      exact hnodup.1 (List.mem_map.2 ⟨b, hb, heq⟩)
    · rename_i hxz
      rw [if_neg (by simpa using hxz)]
      refine .cons ⟨rfl, hslot.congr (getElem?_set_of_ne ?_ y)⟩ (ih hx hnodup.2)
      rintro rfl
      exact hnodup.1 (List.mem_map.2 ⟨_, Scopes.mem_of_lookup hx, rfl⟩)

theorem set (h : Binds f slots env scopes) {y : Value} (hx : scopes.find? x = some slot)
    (hnodup : scopes.slots.Nodup) (hy : ∀ t, f.HasSlot slot t → y.HasType t)
    (hlt : slot.index < slots.size) :
    Binds f (slots.set! slot.index y) (env.set x y) scopes := by
  induction h with
  | nil => cases hx
  | @cons frame sframe env scopes hframe hrest ih =>
    rw [Scopes.slots_cons, List.nodup_append] at hnodup
    obtain ⟨hhere, hthere, hdisjoint⟩ := hnodup
    unfold Scopes.find? at hx
    unfold Meaning.Env.set
    rw [List.findSome?_cons] at hx
    rcases lookup_frame hframe x with ⟨hs, hv⟩ | ⟨slot', v, hs, hv, hslot⟩
    · rw [hs] at hx
      rw [hv]
      refine .cons (congr_frame hframe fun b hb => getElem?_set_of_ne (fun heq => ?_) y)
        (ih hx hthere)
      exact hdisjoint _ (List.mem_map.2 ⟨b, hb, heq⟩) _ (Scopes.mem_slots_of_find? hx) rfl
    · rw [hs] at hx
      obtain rfl := Option.some.inj hx
      rw [hv]
      refine .cons (setIn hframe hs hhere hy hlt)
        (congr hrest fun s hmem => getElem?_set_of_ne (fun heq => ?_) y)
      exact hdisjoint _ (List.mem_map.2 ⟨_, Scopes.mem_of_lookup hs, rfl⟩) _ hmem heq.symm

theorem declare (h : Binds f slots env scopes) {t : Ty} {y : Value} (hslot : f.HasSlot slot t)
    (hy : y.HasType t) (hnew : slot ∉ scopes.slots) (hlt : slot.index < slots.size) (x : String) :
    Binds f (slots.set! slot.index y) (env.declare x ⟨t, y⟩) (scopes.bind x slot) := by
  have hold : Binds f (slots.set! slot.index y) env scopes := h.congr fun s hs =>
    getElem?_set_of_ne (by rintro rfl; exact hnew hs) y
  have hvariable : IsVariable f (slots.set! slot.index y) (x, ⟨t, y⟩) (x, slot) :=
    ⟨rfl, hslot, by simp [hlt], hy⟩
  cases hold with
  | nil => exact .cons (.cons hvariable .nil) .nil
  | cons hframe hrest => exact .cons (.cons hvariable hframe) hrest

end Binds

end Quill
