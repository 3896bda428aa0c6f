import Mathlib.Data.List.Forall2
import Quill.Proofs.Lowering.Chart

/-! # Progress on a chart

Between two moments of lowering no name that was known is forgotten, and all blocks that left for
the exit on the way are recorded, one for each return of the source.
-/
namespace Quill

open Ir (Action BlockId Function Name Operand SlotId Terminator Ty)

/-- The block keeps the value in the slot for the result, if there is one to be returned, and leaves
for the exit. -/
def Ir.Function.Returns (f : Function) (result : Option SlotId) (value : Option Expr)
    (id : BlockId) : Prop :=
  ∃ b, f.blocks[id.index]? = some b ∧ b.terminator = some (.br exitId) ∧
    (value.isSome → ∃ slot v, result = some slot ∧
      b.insts.back? = some ⟨none, .store slot v⟩)

theorem Ir.Function.Returns.continues {f g : Function} {result : Option SlotId}
    {value : Option Expr} {id : BlockId} (h : f.Returns result value id) (hg : f.Continues g) :
    g.Returns result value id := by
  obtain ⟨b, hb, ht, hvalue⟩ := h
  obtain ⟨b', hb', hcont⟩ := hg.blocks _ _ hb
  obtain rfl := hcont.closed (by simp [ht])
  exact ⟨b', hb', ht, hvalue⟩

namespace Chart

def result (c : Chart) : Option SlotId := c.frame.bind BodyFrame.result

/-- The operand may be used where work goes on. -/
def Offers (c : Chart) (v : Operand) : Prop := v.uses ⊆ c.known

def Sees (c : Chart) : Prop := ∀ s ∈ c.scopes.slots, Name.slot s ∈ c.known

structure Ready (c : Chart) : Prop where
  sees : c.Sees
  block : c.block ≠ exitId
  frame : ∃ result, c.frame = some ⟨exitId, result⟩ ∧ ∀ s, result = some s → Name.slot s ∈ c.known
  exit : c.Accepts exitId

/-- The block was made for work to go on in it. -/
structure Opens (c : Chart) (id : BlockId) : Prop extends c.Accepts id where
  ne_exit : id ≠ exitId
  known : c.known ⊆ c.before id

/-- From the one chart to the other, with the values that were returned on the way and the blocks
that are loose then. -/
structure Passes (c : Chart) (loose : List BlockId) (values : List (Option Expr)) (c' : Chart) :
    Prop where
  reaches : c.Reaches c'
  known : c.known ⊆ c'.known
  frame : c'.frame = c.frame
  block : c.block ≠ exitId → c'.block ≠ exitId
  loose : c'.loose = loose
  leaves : ∃ new, c'.leaves = c.leaves ++ new ∧
    List.Forall₂ (c'.function.Returns c.result) values new

structure Stays (c : Chart) (loose : List BlockId) (values : List (Option Expr)) (c' : Chart) :
    Prop extends c.Passes loose values c' where
  scopes : c'.scopes = c.scopes

/-- Code that returns nothing and leaves no block behind. -/
abbrev Straight (c c' : Chart) : Prop := c.Stays c.loose [] c'

/-- Statements: variables may have come into sight in the innermost frame. -/
structure Follows (c : Chart) (values : List (Option Expr)) (c' : Chart) : Prop
    extends c.Passes c.loose values c' where
  scopes : c'.scopes.tail = c.scopes.tail
  ready : c'.Ready

/-- Straight code behind which the operand may be used. -/
structure Yields (c : Chart) (v : Operand) (c' : Chart) : Prop where
  straight : c.Straight c'
  offers : c'.Offers v

variable {c c₁ c' : Chart} {L L' : List BlockId} {vs ws : List (Option Expr)} {id : BlockId}

theorem offers_of_uses {v : Operand} (h : v.uses = []) : c.Offers v := by
  simp [Offers, h]

theorem offers_zero (c : Chart) (ty : Ty) : c.Offers (.zero ty) := by
  refine offers_of_uses ?_
  unfold Operand.zero
  split <;> rfl

theorem uses_operands {vs : List Operand} (h : ∀ v ∈ vs, c.Offers v) :
    vs.flatMap Operand.uses ⊆ c.known := by
  intro n hn
  obtain ⟨v, hv, hn⟩ := List.mem_flatMap.1 hn
  exact h v hv hn

theorem uses_pair {l r : Operand} (hl : c.Offers l) (hr : c.Offers r) :
    [l, r].flatMap Operand.uses ⊆ c.known :=
  uses_operands (by simpa using ⟨hl, hr⟩)

namespace Passes

theorem trans (h : c.Passes L vs c₁) (h' : c₁.Passes L' ws c') : c.Passes L' (vs ++ ws) c' where
  reaches := h.reaches.trans h'.reaches
  known := List.Subset.trans h.known h'.known
  frame := h'.frame.trans h.frame
  block hc := h'.block (h.block hc)
  loose := h'.loose
  leaves := by
    obtain ⟨new, hnew, hvs⟩ := h.leaves
    obtain ⟨new', hnew', hws⟩ := h'.leaves
    have hresult : c₁.result = c.result := congrArg (Option.bind · BodyFrame.result) h.frame
    refine ⟨new ++ new', by rw [hnew', hnew, List.append_assoc], ?_⟩
    have hvs' := hvs.imp fun _ _ hv => hv.continues h'.reaches.continues
    exact List.rel_append hvs' (hresult ▸ hws)

theorem offers (h : c.Passes L vs c') {v : Operand} (hv : c.Offers v) : c'.Offers v :=
  List.Subset.trans hv h.known

theorem accepts (h : c.Passes L vs c') (hid : c.Accepts id) : c'.Accepts id where
  ne_entry := hid.ne_entry
  live := h.reaches.isLive hid.live
  before := by
    rw [h.reaches.before_eq hid.live.lt]
    exact List.Subset.trans hid.before h.known

theorem enter (h : c.Passes L vs c') (hblock : c'.block ≠ exitId) (hid : c.Opens id) :
    c.Passes L vs (c'.enter id) where
  reaches := h.reaches.trans (.of_step (.enter (h.reaches.isLive hid.live).lt hblock))
  known := by
    change c.known ⊆ c'.before id
    rw [h.reaches.before_eq hid.live.lt]
    exact hid.known
  frame := h.frame
  block _ := hid.ne_exit
  loose := h.loose
  leaves := h.leaves

theorem ready (h : c.Passes L vs c') (hc : c.Ready) (hsees : c'.Sees) : c'.Ready where
  sees := hsees
  block := h.block hc.block
  frame := by
    obtain ⟨result, hframe, hresult⟩ := hc.frame
    exact ⟨result, h.frame.trans hframe, fun s hs => h.known (hresult s hs)⟩
  exit := h.accepts hc.exit

end Passes

namespace Stays

theorem trans (h : c.Stays L vs c₁) (h' : c₁.Stays L' ws c') : c.Stays L' (vs ++ ws) c' :=
  ⟨h.toPasses.trans h'.toPasses, h'.scopes.trans h.scopes⟩

theorem refl (c : Chart) : c.Straight c :=
  ⟨⟨.refl c, List.Subset.refl _, rfl, id, rfl, [], by simp, .nil⟩, rfl⟩

theorem straight (h : c.Stays L vs c₁) (h' : c₁.Straight c') : c.Stays L vs c' := by
  have := h.trans h'
  rwa [List.append_nil, h.loose] at this

theorem enter (h : c.Stays L vs c') (hblock : c'.block ≠ exitId) (hid : c.Opens id) :
    c.Stays L vs (c'.enter id) :=
  ⟨h.toPasses.enter hblock hid, h.scopes⟩

theorem sees (h : c.Stays L vs c') (hc : c.Sees) : c'.Sees := fun s hs =>
  h.known (hc s (h.scopes ▸ hs))

theorem ready (h : c.Stays L vs c') (hc : c.Ready) : c'.Ready :=
  h.toPasses.ready hc (h.sees hc.sees)

/-- One step that neither enters a block nor leaves for the exit. -/
theorem of_step (hstep : Step c c') (hknown : c.known ⊆ c'.known) (hframe : c'.frame = c.frame)
    (hblock : c'.block = c.block) (hleaves : c'.leaves = c.leaves)
    (hscopes : c'.scopes = c.scopes) : c.Stays c'.loose [] c' :=
  ⟨⟨.of_step hstep, hknown, hframe, fun hc => hblock ▸ hc, rfl, [], by simp [hleaves], .nil⟩,
    hscopes⟩

end Stays

theorem Stays.follows (h : c.Stays c.loose vs c') (hc : c.Ready) : c.Follows vs c' :=
  ⟨h.toPasses, congrArg List.tail h.scopes, h.ready hc⟩

theorem Follows.trans (h : c.Follows vs c₁) (h' : c₁.Follows ws c') :
    c.Follows (vs ++ ws) c' where
  toPasses := by
    have := h.toPasses.trans h'.toPasses
    rwa [h.loose] at this
  scopes := h'.scopes.trans h.scopes
  ready := h'.ready

theorem Yields.trans {v w : Operand} (h : c.Yields v c₁) (h' : c₁.Yields w c') :
    c.Yields w c' :=
  ⟨h.straight.straight h'.straight, h'.offers⟩

/-! ### Blocks -/

/-- A block stays open to work as long as nothing new is known. -/
theorem Opens.passes (h : c.Opens id) (hp : c.Passes L vs c') (hknown : c'.known ⊆ c.known) :
    c'.Opens id where
  toAccepts := hp.accepts h.toAccepts
  ne_exit := h.ne_exit
  known := by
    rw [hp.reaches.before_eq h.live.lt]
    exact List.Subset.trans hknown h.known

theorem Opens.enter (h : c.Opens id) (hp : c.Passes L vs c') (hblock : c'.block ≠ exitId) :
    (c'.enter id).Opens id where
  ne_entry := h.ne_entry
  live := (hp.enter hblock h).reaches.isLive h.live
  before := List.Subset.refl _
  ne_exit := h.ne_exit
  known := List.Subset.refl _

theorem Accepts.canBranch (h : c.Accepts id) (hne : id ≠ exitId) : c.CanEnd (.br id) where
  uses := List.nil_subset _
  targets next hnext := by
    obtain rfl := List.mem_singleton.1 hnext
    exact ⟨h, hne⟩
  ret hret := by cases hret
  unreachable heq := by cases heq

theorem canChoose {v : Operand} {t e : BlockId} (hv : c.Offers v) (ht : c.Accepts t)
    (htne : t ≠ exitId) (he : c.Accepts e) (hene : e ≠ exitId) : c.CanEnd (.condBr v t e) where
  uses := uses_operands (List.forall_mem_singleton.2 hv)
  targets next hnext := by
    rcases List.mem_pair.1 hnext with rfl | rfl
    · exact ⟨ht, htne⟩
    · exact ⟨he, hene⟩
  ret hret := by cases hret
  unreachable heq := by cases heq

/-! ### Single steps -/

theorem straight_emit {action : Action} {info? : Option Ir.ValueInfo}
    (hopen : c.function.IsOpen c.block) (huses : action.uses ⊆ c.known)
    (hreserves : action.reserves = []) : c.Straight (c.emit action info?) :=
  .of_step (.emit info? hopen huses hreserves) (List.subset_append_right _ _) rfl rfl rfl rfl

theorem last_emit {action : Action} {info? : Option Ir.ValueInfo}
    (hopen : c.function.IsOpen c.block) :
    (c.emit action info?).last = some (c.nextInst action info?) := by
  obtain ⟨b, hb, -⟩ := hopen
  simp [last, emit, Function.lastOf, Function.emit, Array.getElem?_modify, hb, nextInst]

theorem straight_reserve (hopen : c.function.IsOpen c.block) (name : String) (ty : Ty) :
    c.Straight (c.reserve name ty) :=
  .of_step (.reserve name ty hopen) (List.subset_cons_self _ _) rfl rfl rfl rfl

theorem straight_close {t : Terminator} (hopen : c.function.IsOpen c.block) (ht : c.CanEnd t) :
    c.Straight (c.close t) :=
  .of_step (.close hopen ht) (List.Subset.refl _) rfl rfl rfl rfl

theorem stays_create (c : Chart) (label : String) :
    c.Stays (c.nextBlock :: c.loose) [] (c.create label) :=
  .of_step (.create label) (List.Subset.refl _) rfl rfl rfl rfl

theorem stays_attach (hid : id ∈ c.loose) : c.Stays (c.loose.erase id) [] (c.attach id) :=
  .of_step (.attach hid) (List.Subset.refl _) rfl rfl rfl rfl

theorem passes_look (c : Chart) (scopes : Scopes) : c.Passes c.loose [] (c.withScopes scopes) :=
  ⟨.of_step (.look scopes c.frame), List.Subset.refl _, rfl, id, rfl, [], by simp [withScopes],
    .nil⟩

theorem stays_leave (hopen : c.function.IsOpen c.block) (hexit : c.Accepts exitId)
    {value : Option Expr} (hvalue : value.isSome → ∃ slot v, c.result = some slot ∧
      c.last = some ⟨none, .store slot v⟩) : c.Stays c.loose [value] c.leave where
  reaches := .of_step (.leave hopen hexit)
  known := List.Subset.refl _
  frame := rfl
  block hc := hc
  loose := rfl
  leaves := by
    obtain ⟨b, hb, -⟩ := hopen
    have hblock : c.leave.function.blocks[c.block.index]? =
        some { b with terminator := some (.br exitId) } := by
      simp [leave, Function.close, Array.getElem?_modify, hb]
    refine ⟨[c.block], rfl, .cons ⟨_, hblock, rfl, fun hsome => ?_⟩ .nil⟩
    simpa [last, Function.lastOf, hb] using hvalue hsome
  scopes := rfl

theorem opens_create (hexit : c.Accepts exitId) (label : String) :
    (c.create label).Opens c.nextBlock where
  ne_entry heq := by
    have hsize : c.function.blocks.size = 0 := congrArg BlockId.index heq
    exact Nat.not_lt_zero _ (hsize ▸ hexit.live.lt)
  ne_exit heq := by
    have hsize : c.function.blocks.size = 1 := congrArg BlockId.index heq
    exact Nat.lt_irrefl _ (hsize ▸ hexit.live.lt)
  live := ⟨_, Array.getElem?_push_size, rfl⟩
  before := by simp [create]
  known := by simp [create]

end Chart

end Quill
