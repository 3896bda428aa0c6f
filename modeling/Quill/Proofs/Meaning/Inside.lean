import Quill.Proofs.Meaning.Expr

/-! # A machine inside a body

While a body runs, its variables are in their slots, the slot for the result holds zero, and the
activations that wait stay as they are. A body that is left has put its result into that slot.
-/
namespace Quill

open Ir (Action BlockId FuncId Function Module Operand SlotId Ty)
open Meaning (Env Eval Flow Setting Simulates Typed consoleOf)

variable (f : Function) (frame : BodyFrame) (callers : List Activation)

/-- The room for the result, if there is one, holds the value. -/
def ResultIs (c : Config) (y : Value) : Prop :=
  ∀ slot, frame.result = some slot → InSlot f c.current.slots slot ⟨f.ret, y⟩

/-- The machine is at a place where these variables are in sight. -/
structure Inside (c : Config) (p : Spot) (env : Env) (scopes : Scopes) : Prop where
  arrives : c.At f p
  callers : c.callers = callers
  binds : Binds f c.current.slots env scopes
  nodup : scopes.slots.Nodup
  notResult : ∀ slot ∈ scopes.slots, frame.result ≠ some slot
  result : ResultIs f frame c (.zero f.ret)

/-- The machine is at the exit with a result. -/
structure Leaves (c : Config) (r : Option Value) : Prop where
  arrives : ∀ n, c.At f (.start frame.exit n)
  callers : c.callers = callers
  result : ResultIs f frame c (r.getD (.zero f.ret))
  void : frame.result = none → r = none

/-- The machine follows the flow of a statement that ends at `q`. -/
def Follows (q : Spot) (scopes : Scopes) : Flow → Config → Prop
  | .next env, c => Inside f frame callers c q env scopes
  | .left r, c => Leaves f frame callers c r

variable {f : Function} {frame : BodyFrame} {callers : List Activation} {m : Module}
  {c c' : Config} {p q : Spot} {v : Operand} {env : Env} {scopes : Scopes} {slot : SlotId}
  {x : String} {y : Value} {ty : Ty} {fuel : Nat}

namespace ResultIs

theorem congr (h : ResultIs f frame c y) (hslots : c'.current.slots = c.current.slots) :
    ResultIs f frame c' y := by
  intro s hs
  rw [hslots]
  exact h s hs

theorem set {z : Value} (h : ResultIs f frame c y)
    (hslots : c'.current.slots = c.current.slots.set! slot.index z)
    (hslot : frame.result ≠ some slot) : ResultIs f frame c' y := by
  intro s hs
  rw [hslots]
  apply (h s hs).congr
  apply getElem?_set_of_ne
  rintro rfl
  exact hslot hs

end ResultIs

namespace Inside

theorem same (h : Inside f frame callers c p env scopes) (hat : c'.At f q)
    (hcallers : c'.callers = c.callers) (hslots : c'.current.slots = c.current.slots) :
    Inside f frame callers c' q env scopes where
  arrives := hat
  callers := hcallers.trans h.callers
  binds := hslots ▸ h.binds
  nodup := h.nodup
  notResult := h.notResult
  result := h.result.congr hslots

theorem passes (h : Inside f frame callers c p env scopes) (hp : Passes f c p c' q) :
    Inside f frame callers c' q env scopes :=
  h.same hp.arrives hp.callers hp.slots

theorem jumped (h : Inside f frame callers c p env scopes) (dest : BlockId) (n : Nat) :
    Inside f frame callers (c.jumped dest) (.start dest n) env scopes :=
  h.same (h.arrives.jumped dest n) rfl rfl

theorem enter (h : Inside f frame callers c p env scopes) :
    Inside f frame callers c p ([] :: env) scopes.enter where
  arrives := h.arrives
  callers := h.callers
  binds := h.binds.enter
  nodup := by simpa [Scopes.enter] using h.nodup
  notResult := by simpa [Scopes.enter] using h.notResult
  result := h.result

theorem leave (h : Inside f frame callers c p env scopes) :
    Inside f frame callers c p env.tail scopes.leave := by
  have hsub : scopes.leave.slots.Sublist scopes.slots := by
    cases scopes with
    | nil => exact .refl _
    | cons _ scopes =>
      rw [Scopes.slots_cons]
      exact List.sublist_append_right _ _
  constructor
  · exact h.arrives
  · exact h.callers
  · exact h.binds.leave
  · exact h.nodup.sublist hsub
  · exact fun slot hslot => h.notResult slot (hsub.subset hslot)
  · exact h.result

theorem slot_lt (h : Inside f frame callers c p env scopes) (hslot : f.HasSlot slot ty) :
    slot.index < c.current.slots.size := by
  obtain ⟨name, hslot⟩ := hslot
  rw [h.arrives.slots]
  exact (Array.getElem?_eq_some_iff.1 hslot).1

theorem elsewhere (h : Inside f frame callers c p env scopes)
    (hfresh : FreshSlot f frame scopes slot ty) (hat : c'.At f q)
    (hcallers : c'.callers = c.callers)
    (hslots : c'.current.slots = c.current.slots.set! slot.index y) :
    Inside f frame callers c' q env scopes where
  arrives := hat
  callers := hcallers.trans h.callers
  binds := by
    rw [hslots]
    apply h.binds.congr
    intro s hs
    apply getElem?_set_of_ne
    rintro rfl
    exact hfresh.unbound hs
  nodup := h.nodup
  notResult := h.notResult
  result := h.result.set hslots hfresh.notResult

theorem assigned (h : Inside f frame callers c p env scopes) (hx : scopes.find? x = some slot)
    (hslot : f.HasSlot slot ty) (hy : y.HasType ty) (hat : c'.At f q)
    (hcallers : c'.callers = c.callers)
    (hslots : c'.current.slots = c.current.slots.set! slot.index y) :
    Inside f frame callers c' q (env.set x y) scopes where
  arrives := hat
  callers := hcallers.trans h.callers
  binds := by
    rw [hslots]
    apply h.binds.set hx h.nodup _ (h.slot_lt hslot)
    intro t ht
    rw [ht.unique hslot]
    exact hy
  nodup := h.nodup
  notResult := h.notResult
  result := h.result.set hslots (h.notResult slot (Scopes.mem_slots_of_find? hx))

theorem declared (h : Inside f frame callers c p env scopes)
    (hfresh : FreshSlot f frame scopes slot ty) (hy : y.HasType ty) (hat : c'.At f q)
    (hcallers : c'.callers = c.callers)
    (hslots : c'.current.slots = c.current.slots.set! slot.index y) (x : String) :
    Inside f frame callers c' q (env.declare x ⟨ty, y⟩) (scopes.bind x slot) := by
  have hbound : (scopes.bind x slot).slots = slot :: scopes.slots := by
    cases scopes <;> simp [Scopes.bind]
  constructor
  · exact hat
  · exact hcallers.trans h.callers
  · rw [hslots]
    exact h.binds.declare hfresh.type hy hfresh.unbound (h.slot_lt hfresh.type) x
  · rw [hbound]
    exact List.nodup_cons.2 ⟨hfresh.unbound, h.nodup⟩
  · rw [hbound]
    intro s hs
    rcases List.mem_cons.1 hs with rfl | hs
    · exact hfresh.notResult
    · exact h.notResult s hs
  · exact h.result.set hslots hfresh.notResult

theorem left (h : Inside f frame callers c p env scopes) :
    Leaves f frame callers (c.jumped frame.exit) none where
  arrives n := h.arrives.jumped frame.exit n
  callers := h.callers
  result := h.result.congr rfl
  void _ := rfl

theorem leftWith (h : Inside f frame callers c p env scopes) (hframe : frame.result = some slot)
    (hy : y.HasType f.ret) :
    Leaves f frame callers ((c.stored slot y).jumped frame.exit) (some y) where
  arrives n := (h.arrives.stored slot y).jumped frame.exit n
  callers := h.callers
  result := by
    intro s hs
    obtain rfl : slot = s := Option.some.inj (hframe.symm.trans hs)
    have hdeclared := (h.result slot hframe).declared
    have hlt := h.slot_lt hdeclared
    refine ⟨hdeclared, ?_, hy⟩
    change (c.current.slots.set! slot.index y)[slot.index]? = _
    simp [hlt]
  void hnone := nomatch hnone.symm.trans hframe

end Inside

/-! ### Stores -/

theorem Inside.alloca_steps (h : Inside f frame callers c p env scopes)
    (hcode : f.Performs p (.alloca slot)) (hfresh : FreshSlot f frame scopes slot ty) :
    c.Steps m 1 (c.stored slot (.zero ty)) ∧
      Inside f frame callers (c.stored slot (.zero ty)) p.next env scopes :=
  ⟨Quill.alloca_steps h.arrives hcode hfresh.type,
    h.elsewhere hfresh (h.arrives.stored slot _) rfl rfl⟩

/-! ### Expressions -/

variable {table : List (String × FuncId)} {S : Setting}

/-- The machine is inside the body and the operand is worth a value. -/
def Worth (f : Function) (frame : BodyFrame) (callers : List Activation) (q : Spot) (env : Env)
    (scopes : Scopes) (v : Operand) (x : Typed) (c : Config) : Prop :=
  Inside f frame callers c q env scopes ∧ Gives f c q v x

theorem Inside.expr_simulates (hS : Stage m table f S callers.length) {e : Expr}
    (hcode : ExprCode m table f scopes e p v q) (h : Inside f frame callers c p env scopes) :
    Simulates m S.fuel (Meaning.expr S env e) c (Worth f frame callers q env scopes v) := by
  have hdepth : c.callers.length = callers.length := congrArg List.length h.callers
  apply (Quill.expr_simulates hS hcode h.arrives hdepth h.binds).mono
  rintro x c' ⟨hpasses, hgives⟩
  exact ⟨h.passes hpasses, hgives⟩

theorem Inside.truth_simulates {x : Typed} {t : Operand}
    (h : Worth f frame callers p env scopes v x c) (hcode : TruthCode f v p t q) :
    Simulates m fuel (Meaning.known x.truth?) c
      fun b => Worth f frame callers q env scopes t (.bool b) := by
  obtain ⟨hinside, hgives⟩ := h
  obtain ⟨b, hb, hcomputed⟩ := truth_computed (m := m) hinside.arrives hgives hcode
  apply hcomputed.simulates
  intro c' hpasses hbool
  exact .known hb ⟨hinside.passes hpasses, hbool⟩

theorem Inside.condition_simulates (hS : Stage m table f S callers.length) {e : Expr} {t : Operand}
    (hcode : ConditionCode m table f scopes e p t q) (h : Inside f frame callers c p env scopes) :
    Simulates m S.fuel (Meaning.condition S env e) c
      fun b => Worth f frame callers q env scopes t (.bool b) := by
  obtain ⟨v, p₁, he, ht⟩ := hcode
  apply (h.expr_simulates hS he).bind
  intro x c₁ hx
  exact Inside.truth_simulates hx ht

/-- What goes on with the converted value of an expression goes on behind its code. -/
theorem Inside.coerce_simulates {α : Type} {Q : α → Config → Prop} {g : Value → Eval α}
    (hS : Stage m table f S callers.length) {e : Expr}
    (hcode : CoerceCode m table f scopes e ty p v q) (hty : ty ≠ .void)
    (h : Inside f frame callers c p env scopes)
    (hg : ∀ y c', Worth f frame callers q env scopes v ⟨ty, y⟩ c' → Simulates m S.fuel (g y) c' Q) :
    Simulates m S.fuel (do g (← Meaning.known ((← Meaning.expr S env e).convert? ty))) c Q := by
  obtain ⟨w, p₁, source, he, hsource, hconvert⟩ := hcode
  apply (h.expr_simulates hS he).bind
  rintro ⟨xty, x⟩ c₁ ⟨hinside, hx⟩
  obtain rfl := Except.ok.inj (hx.typeOf.symm.trans hsource)
  obtain ⟨y, hy, hcomputed⟩ := convert_computed (m := m) hinside.arrives hx
    (hconvert.source_ne_void hty) hconvert
  apply Simulates.bindKnown hy
  apply hcomputed.simulates
  intro c₂ hpasses hgives
  exact hg y c₂ ⟨hinside.passes hpasses, hgives⟩

end Quill
