import Quill.Proofs.Lowering.ChartFlow
import Quill.Proofs.Lowering.ChartNames
import Quill.Proofs.Lowering.StmtFlow

/-! # The control flow of a body

A body begins in the entry block and ends in the exit block, which was made before the statements
and is the last to be attached. Nothing is in it but the return.
-/
namespace Quill

open Ir (Action Block BlockId Build FuncId Function Name Operand SlotId Terminator Ty ValueInfo)

def Routine.slot? (r : Routine) : Option SlotId := if r.result.ty.isVoid then none else some ⟨0⟩

/-- The exit returns the result as loaded from its slot, or nothing. -/
inductive Ir.Function.ReturnsResult (f : Function) (r : Routine) : Prop
  | void {b : Block} : r.slot? = none → f.blocks[exitId.index]? = some b → b.insts = #[] →
      b.terminator = some (.ret none) → ReturnsResult f r
  | value {b : Block} {slot : SlotId} {v : Ir.ValueId} : r.slot? = some slot →
      f.slots[slot.index]? = some ⟨"result", r.result.ty⟩ →
      f.blocks[exitId.index]? = some b → b.insts = #[⟨some v, .load slot⟩] →
      b.terminator = some (.ret (some (.inst v))) → ReturnsResult f r

namespace Chart

/-- What the chart of a body has come to. -/
structure Finished (c : Chart) (r : Routine) : Prop where
  loose : c.loose = []
  last : c.function.layout.back? = some exitId
  leaves : ∃ leaves final, c.leaves = leaves ++ [final] ∧
    List.Forall₂ (c.function.Returns r.slot?) (Stmt.returnsAll r.body) leaves
  returns : c.function.ReturnsResult r

@[simp] theorem blocks_size_emit (c : Chart) (action : Action) (info? : Option ValueInfo) :
    (c.emit action info?).function.blocks.size = c.function.blocks.size := by
  simp [emit, Function.emit]

@[simp] theorem blocks_size_reserve (c : Chart) (name : String) (ty : Ty) :
    (c.reserve name ty).function.blocks.size = c.function.blocks.size := by
  simp [reserve, Function.emit, Function.addSlot]

end Chart

namespace Lower

variable {π : Place} {c c' : Chart} {r : Routine}

/-! ### Results and parameters -/

structure HasResult (r : Routine) (result : Option SlotId) (c : Chart) : Prop where
  slot : result = r.slot?
  known : ∀ s, result = some s → Name.slot s ∈ c.known
  named : ∀ s, result = some s → c.function.slots[s.index]? = some ⟨"result", r.result.ty⟩

theorem HasResult.passes {result : Option SlotId} {L : List BlockId} {vs : List (Option Expr)}
    (h : HasResult r result c) (hp : c.Passes L vs c') : HasResult r result c' where
  slot := h.slot
  known s hs := hp.known (h.known s hs)
  named s hs := hp.reaches.continues.slots _ _ (h.named s hs)

theorem resultSlot_draws (hslots : c.function.slots = #[]) :
    π.Draws (resultSlot r) c fun result c' => c.Straight c' ∧ HasResult r result c' ∧
      c'.function.blocks.size = c.function.blocks.size := by
  unfold resultSlot
  by_cases hvoid : r.result.ty.isVoid = true
  · have hnone : r.slot? = none := by simp [Routine.slot?, hvoid]
    simp only [hvoid, ↓reduceIte]
    refine .pure ⟨.refl c, ⟨hnone.symm, ?_, ?_⟩, rfl⟩ <;> intro s h <;> cases h
  · simp only [hvoid, Bool.false_eq_true, ↓reduceIte]
    refine (Place.Draws.build (Place.alloca_makes "result" r.result.ty)).bind fun slot c₁ h => ?_
    obtain ⟨hstraight, rfl, rfl⟩ := h
    have hresult : HasResult r (some c.nextSlot) (c.reserve "result" r.result.ty) := by
      refine ⟨by simp [Routine.slot?, hvoid, Chart.nextSlot, hslots], ?_, ?_⟩
      · rintro _ ⟨⟩
        exact List.mem_cons_self
      · rintro _ ⟨⟩
        exact Array.getElem?_push_size
    split
    · have hzero := (c.reserve "result" r.result.ty).offers_zero r.result.ty
      refine (Place.Draws.build (Place.store_makes (hresult.known _ rfl) hzero)).bind
        fun _ c₂ h₂ => .pure ?_
      obtain ⟨hs₂, -, rfl⟩ := h₂
      exact ⟨hstraight.straight hs₂, hresult.passes hs₂.toPasses, by simp⟩
    · exact .pure ⟨hstraight, hresult, by simp⟩

theorem bindParams_draws (hc : c.Sees) (index : Nat) (ps : List Param) :
    π.Draws (bindParams index ps) c fun _ c' => c.Passes c.loose [] c' ∧ c'.Sees ∧
      c'.scopes.tail = c.scopes.tail ∧ c'.function.blocks.size = c.function.blocks.size := by
  induction ps generalizing c index with
  | nil =>
    unfold bindParams
    exact .pure ⟨(Chart.Stays.refl c).toPasses, hc, rfl, rfl⟩
  | cons p rest ih =>
    unfold bindParams
    refine (Place.Draws.build (Place.alloca_makes _ _)).bind fun slot c₁ h₁ => ?_
    obtain ⟨hs₁, rfl, rfl⟩ := h₁
    refine (Place.Draws.build (Place.store_makes List.mem_cons_self (List.nil_subset _))).bind
      fun _ c₂ h₂ => ?_
    obtain ⟨hs₂, -, rfl⟩ := h₂
    have hs := hs₁.straight hs₂
    have hknown := hs₂.known (List.mem_cons_self (a := Name.slot c.nextSlot) (l := c.known))
    refine (define_draws (hs.sees hc) p.name hknown).bind fun _ c₃ h₃ => ?_
    have hp := hs.toPasses.trans h₃.toPasses
    have hsize : c₃.function.blocks.size = c.function.blocks.size := by simp [h₃.function]
    refine (ih h₃.sees (index + 1)).mono fun _ c' h => ?_
    obtain ⟨hp', hsees', hscopes', hsize'⟩ := h
    have hall := hp.trans hp'
    rw [hp.loose, hs.loose] at hall
    exact ⟨hall, hsees', hscopes'.trans h₃.scopes, hsize'.trans hsize⟩

/-! ### The exit -/

theorem withFrame_draws (frame : Option BodyFrame) :
    π.Draws (modify fun s => { s with frame }) c fun _ c' => c' = c.withFrame frame := by
  intro t u t' ht hrun
  cases hrun
  exact ⟨c.withFrame frame, ⟨ht.on.congr rfl rfl, ht.scopes, rfl, ht.abort, ht.formats⟩, rfl⟩

theorem returnsResult_void {b : Block} (hb : c.function.blocks[exitId.index]? = some b)
    (hinsts : b.insts = #[]) (hslot : r.slot? = none) :
    ((c.enter exitId).close (.ret none)).function.ReturnsResult r := by
  refine .void hslot (b := { b with terminator := some (.ret none) }) ?_ hinsts rfl
  simp [Chart.close, Chart.enter, Function.close, Array.getElem?_modify, hb]

theorem returnsResult_value {b : Block} {slot : SlotId} (info : ValueInfo)
    (hb : c.function.blocks[exitId.index]? = some b) (hinsts : b.insts = #[])
    (hslot : r.slot? = some slot)
    (hnamed : c.function.slots[slot.index]? = some ⟨"result", r.result.ty⟩) :
    (((c.enter exitId).emit (.load slot) (some info)).close
      (.ret (some (.inst ⟨c.function.values.size⟩)))).function.ReturnsResult r := by
  refine .value hslot hnamed (b := { b with
    insts := b.insts.push ⟨some ⟨c.function.values.size⟩, .load slot⟩
    terminator := some (.ret (some (.inst ⟨c.function.values.size⟩))) }) ?_ ?_ rfl
  · simp [Chart.close, Chart.emit, Chart.enter, Function.close, Function.emit,
      Array.getElem?_modify, hb]
  · simp [hinsts]

theorem exit_draws {result : Option SlotId} (hblock : c.block ≠ exitId)
    (hlt : exitId.index < c.function.blocks.size)
    (hblank : ∀ b, c.function.blocks[exitId.index]? = some b → b.insts = #[] ∧ b.terminator = none)
    (hresult : HasResult r result (c.enter exitId)) :
    π.Draws (do
      build (Build.switchTo exitId)
      let v ← result.mapM fun slot => build (Build.load slot)
      build (Build.ret v)
      modify fun s => { s with frame := none }) c fun _ c' =>
        c.Reaches c' ∧ c'.scopes = c.scopes ∧ c'.loose = c.loose ∧ c'.leaves = c.leaves ∧
          c'.function.layout = c.function.layout ∧ c'.function.ReturnsResult r := by
  have hb := Array.getElem?_eq_getElem hlt
  obtain ⟨hinsts, hterminator⟩ := hblank _ hb
  have henter : c.Reaches (c.enter exitId) := .of_step (.enter hlt hblock)
  refine (Place.Draws.build (Place.switchTo_makes exitId)).bind fun _ c₁ h₁ => ?_
  subst h₁
  cases result with
  | none =>
    refine (Place.Draws.build (Place.terminate_makes (.ret none))).bind fun _ c₂ h₂ => ?_
    obtain ⟨hopen, rfl⟩ := h₂
    refine (withFrame_draws none).mono fun _ c' h' => ?_
    subst h'
    have hend : (c.enter exitId).CanEnd (.ret none) :=
      ⟨List.nil_subset _, List.forall_mem_nil _, fun _ => rfl, fun h => by cases h⟩
    exact ⟨henter.trans ((Chart.Reaches.of_step (.close hopen hend)).trans
      (.of_step (.look _ none))), rfl, rfl, rfl, rfl,
      returnsResult_void hb hinsts hresult.slot.symm⟩
  | some slot =>
    have hload : π.Draws (Option.mapM (fun slot => build (Build.load slot)) (some slot))
        (c.enter exitId) fun v c' => (c.enter exitId).function.IsOpen exitId ∧
          (∃ info, c' = (c.enter exitId).emit (.load slot) (some info)) ∧
          v = some (.inst ⟨c.function.values.size⟩) :=
      .map ((Place.Draws.build (Place.loaded_makes slot)).mono fun _ _ h =>
        ⟨h.1, h.2.1, congrArg some h.2.2⟩)
    refine hload.bind fun v c₂ h₂ => ?_
    obtain ⟨hopen, ⟨info, rfl⟩, rfl⟩ := h₂
    refine (Place.Draws.build (Place.terminate_makes (.ret _))).bind fun _ c₃ h₃ => ?_
    obtain ⟨hopen', rfl⟩ := h₃
    refine (withFrame_draws none).mono fun _ c' h' => ?_
    subst h'
    have huses : (Action.load slot).uses ⊆ (c.enter exitId).known :=
      List.cons_subset.2 ⟨hresult.known slot rfl, List.nil_subset _⟩
    have hend : ((c.enter exitId).emit (.load slot) (some info)).CanEnd
        (.ret (some (.inst ⟨c.function.values.size⟩))) := by
      refine ⟨?_, List.forall_mem_nil _, fun _ => rfl, fun h => by cases h⟩
      exact List.cons_subset.2 ⟨List.mem_cons_self, List.nil_subset _⟩
    exact ⟨henter.trans ((Chart.Reaches.of_step (.emit (some info) hopen huses rfl)).trans
      ((Chart.Reaches.of_step (.close hopen' hend)).trans (.of_step (.look _ none)))),
      rfl, rfl, rfl, rfl,
      returnsResult_value info hb hinsts hresult.slot.symm (hresult.named slot rfl)⟩

/-! ### The whole body -/

/-- Where a body begins: in its only block. -/
structure Begins (c : Chart) : Prop where
  shape : c.Shape
  sees : c.Sees
  slots : c.function.slots = #[]
  size : c.function.blocks.size = 1
  block : c.block ≠ exitId
  loose : c.loose = []
  leaves : c.leaves = []

structure Prepared (r : Routine) (result : Option SlotId) (c c' : Chart) : Prop where
  reaches : c.Reaches c'
  ready : c'.Ready
  scopes : c'.scopes.tail = c.scopes.tail
  loose : c'.loose = [exitId]
  leaves : c'.leaves = []
  hasResult : HasResult r result c'
  result : c'.result = result
  before : c'.before exitId = c'.known

theorem prepare_draws (hc : Begins c) (r : Routine) {α : Type} {S : α → Chart → Prop}
    {f : Option SlotId → BlockId → Lower α}
    (hf : ∀ result c', Prepared r result c c' → π.Draws (f result exitId) c' S) :
    π.Draws (do
      let result ← resultSlot r
      bindParams 0 r.params
      let exit ← build (Build.createBlock "exit")
      modify fun s => { s with frame := some ⟨exit, result⟩ }
      f result exit) c S := by
  refine (resultSlot_draws hc.slots).bind fun result c₁ h₁ => ?_
  obtain ⟨hs₁, hresult₁, hsize₁⟩ := h₁
  refine (bindParams_draws (hs₁.sees hc.sees) 0 r.params).bind fun _ c₂ h₂ => ?_
  obtain ⟨hp₂, hsees₂, hscopes₂, hsize₂⟩ := h₂
  have hresult₂ := hresult₁.passes hp₂
  have hp₂ := hs₁.toPasses.trans hp₂
  rw [hs₁.loose, hc.loose] at hp₂
  have hexit : c₂.nextBlock = exitId := congrArg BlockId.mk (by rw [hsize₂, hsize₁, hc.size])
  have hleaves₂ : c₂.leaves = [] := by
    obtain ⟨new, hnew, hforall⟩ := hp₂.leaves
    cases hforall
    rw [hnew, hc.leaves, List.append_nil]
  refine (Place.Draws.build (Place.createBlock_makes "exit")).bind fun exit c₃ h₃ => ?_
  obtain ⟨rfl, rfl⟩ := h₃
  rw [hexit]
  refine (withFrame_draws _).bind fun _ c₄ h₄ => hf result c₄ ?_
  subst h₄
  have hbefore : (c₂.create "exit").before exitId = c₂.known := if_pos hexit.symm
  refine {
    reaches := hp₂.reaches.trans (.trans (.of_step (.create _)) (.of_step (.look _ _)))
    ready := ?_
    scopes := hscopes₂.trans (congrArg List.tail hs₁.scopes)
    loose := by simp [Chart.withFrame, Chart.create, hexit, hp₂.loose]
    leaves := hleaves₂
    hasResult := ⟨hresult₂.slot, hresult₂.known, hresult₂.named⟩
    result := rfl
    before := hbefore }
  refine ⟨hsees₂, hp₂.block hc.block, ⟨result, rfl, hresult₂.known⟩, by decide, ?_, ?_⟩
  · rw [← hexit]
    exact ⟨_, Array.getElem?_push_size, rfl⟩
  · exact fun n hn => hbefore ▸ hn

theorem body_draws (hc : Begins c) (r : Routine) :
    π.Draws (body r) c fun _ c' =>
      c.Reaches c' ∧ c'.Finished r ∧ c'.scopes.tail = c.scopes.tail := by
  unfold body
  refine prepare_draws hc r fun result c₁ h₁ => ?_
  refine (stmts_draws h₁.ready r.body).bind fun _ c₂ h₂ => ?_
  refine (Place.Draws.build Place.leave_makes).bind fun _ c₃ h₃ => ?_
  obtain ⟨hopen, rfl⟩ := h₃
  have hleave : c₂.Stays c₂.loose [none] c₂.leave :=
    Chart.stays_leave hopen h₂.ready.exit fun h => by cases h
  have hloose : c₂.leave.loose = [exitId] := h₂.loose.trans h₁.loose
  refine (Place.Draws.build (Place.appendBlock_makes exitId)).bind fun _ c₄ h₄ => ?_
  have hattach : c₂.leave.Reaches c₄ := by
    rw [h₄]
    exact .of_step (.attach (by simp [hloose]))
  have hreaches₁ : c₁.Reaches c₄ := h₂.reaches.trans (hleave.reaches.trans hattach)
  have hreaches₄ : c.Reaches c₄ := h₁.reaches.trans hreaches₁
  have hlive := h₁.ready.exit.live
  have hblock : c₄.block ≠ exitId := by
    rw [h₄]
    exact h₂.ready.block
  have hresult : HasResult r result (c₄.enter exitId) := by
    refine ⟨h₁.hasResult.slot, fun s hs => ?_, fun s hs => ?_⟩
    · change _ ∈ c₄.before exitId
      rw [hreaches₁.before_eq hlive.lt, h₁.before]
      exact h₁.hasResult.known s hs
    · exact hreaches₁.continues.slots _ _ (h₁.hasResult.named s hs)
  have hblank := (hreaches₄.shape hc.shape).exit hblock
  refine (exit_draws hblock (hreaches₁.isLive hlive).lt hblank hresult).mono fun _ c' h' => ?_
  obtain ⟨hreaches', hscopes', hloose', hleaves', hlayout', hreturns⟩ := h'
  refine ⟨hreaches₄.trans hreaches', ⟨?_, ?_, ?_, hreturns⟩, ?_⟩
  · rw [hloose', h₄]
    simp [Chart.attach, hloose]
  · rw [hlayout', h₄]
    simp [Chart.attach, Function.attach]
  · obtain ⟨new, hnew, hforall⟩ := h₂.leaves
    rw [h₁.leaves, List.nil_append] at hnew
    refine ⟨new, c₂.block, ?_, ?_⟩
    · rw [hleaves', h₄, ← hnew]
      rfl
    · rw [h₁.result, h₁.hasResult.slot] at hforall
      have hcontinues := (hleave.reaches.trans (hattach.trans hreaches')).continues
      exact hforall.imp fun _ _ h => h.continues hcontinues
  · rw [hscopes', h₄]
    exact h₂.scopes.trans h₁.scopes

end Lower

end Quill
