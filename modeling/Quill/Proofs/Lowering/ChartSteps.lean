import Quill.Proofs.Ir.Requests
import Quill.Proofs.Lowering.ChartProgress
import Quill.Proofs.Lowering.Outcomes

/-! # Lowering on a chart

What the operations of lowering make of a chart, if they come to an end. The function that is
charted is one of a module, and the others stay as they are.
-/
namespace Quill

open Ir (Action BlockId Build Builder FuncId Function Module Name Operand SlotId Terminator Ty
  ValueInfo)

/-- The function that is charted, and the module with the others. -/
structure Place where
  id : FuncId
  module : Module

namespace Place

/-- The builder is where the chart says. -/
structure On (π : Place) (c : Chart) (b : Builder) : Prop where
  works : b.WorksOn π.id c.function
  /-- There may be no block yet. -/
  block : ∀ id, b.block? = some id → id = c.block
  others : ∀ k, k ≠ π.id.index → b.module.functions[k]? = π.module.functions[k]?

structure Shows (π : Place) (c : Chart) (t : Lowering) : Prop where
  on : π.On c t.builder
  scopes : t.scopes = c.scopes
  frame : t.frame = c.frame
  abort : t.library.abort = Library.abortId
  formats : ∀ e ∈ t.formats, e.2.uses = []

/-- From a state that the chart shows, `x` ends only in states that a chart with the property
shows. -/
def Draws (π : Place) {α : Type} (x : Lower α) (c : Chart) (Q : α → Chart → Prop) : Prop :=
  ∀ t a t', π.Shows c t → x.run t = (.ok a, t') → ∃ c', π.Shows c' t' ∧ Q a c'

def Makes (π : Place) {α : Type} (x : Build α) (c : Chart) (Q : α → Chart → Prop) : Prop :=
  ∀ b a b', π.On c b → x b = .ok (a, b') →
    ∃ c', π.On c' b' ∧ c'.scopes = c.scopes ∧ c'.frame = c.frame ∧ Q a c'

end Place

/-- The operation only looks at the builder. -/
def Ir.Build.Looks {α : Type} (x : Build α) : Prop := ∀ b a b', x b = .ok (a, b') → b = b'

/-! ### Rules -/

section
variable {π : Place} {α β : Type} {c : Chart} {Q R : α → Chart → Prop} {S : β → Chart → Prop}

namespace Ir.Build.Looks

theorem get : Looks (MonadState.get : Build Builder) := by
  intro b a b' h
  cases h
  rfl

theorem currentFunction : Looks currentFunction := by
  intro b f b' h
  obtain ⟨id, -, rfl⟩ := currentFunction_eq_ok h
  rfl

theorem ofExcept (e : Except Fault α) : Looks (ofExcept e) := fun _ _ _ h =>
  (ofExcept_ok_iff.1 h).2

theorem typeOf (v : Operand) : Looks (typeOf v) := fun _ _ _ => typeOf_same

theorem isComparison (v : Operand) : Looks (isComparison v) := fun _ _ _ => isComparison_same

theorem bind {x : Build α} {f : α → Build β} (hx : Looks x) (hf : ∀ a, Looks (f a)) :
    Looks (x >>= f) := by
  intro b r b' h
  obtain ⟨a, s, hrun, hrest⟩ := bind_ok_iff.1 h
  obtain rfl := hx _ _ _ hrun
  exact hf a _ _ _ hrest

theorem map {x : Build α} (hx : Looks x) (f : α → β) : Looks (f <$> x) := by
  intro b r b' h
  obtain ⟨a, hrun, -⟩ := map_ok_iff.1 h
  exact hx _ _ _ hrun

end Ir.Build.Looks

namespace Place.Makes

variable {x : Build α} {f : α → Build β}

theorem mono (h : π.Makes x c Q) (hQ : ∀ a c', Q a c' → R a c') : π.Makes x c R := by
  intro b a b' hb hrun
  obtain ⟨c', hb', hscopes, hframe, ha⟩ := h b a b' hb hrun
  exact ⟨c', hb', hscopes, hframe, hQ a c' ha⟩

theorem pure {a : α} (h : Q a c) : π.Makes (Pure.pure a) c Q := by
  intro b a b' hb hrun
  cases hrun
  exact ⟨c, hb, rfl, rfl, h⟩

theorem bind (h : π.Makes x c Q) (hf : ∀ a c', Q a c' → π.Makes (f a) c' S) :
    π.Makes (x >>= f) c S := by
  intro b r b' hb hrun
  obtain ⟨a, s, hx, hrest⟩ := Ir.Build.bind_ok_iff.1 hrun
  obtain ⟨c₁, hs, hscopes, hframe, ha⟩ := h b a s hb hx
  obtain ⟨c', hb', hscopes', hframe', hr⟩ := hf a c₁ ha s r b' hs hrest
  exact ⟨c', hb', hscopes'.trans hscopes, hframe'.trans hframe, hr⟩

theorem of_looks (hx : Ir.Build.Looks x) : π.Makes x c fun _ c' => c' = c := by
  intro b a b' hb hrun
  obtain rfl := hx b a b' hrun
  exact ⟨c, hb, rfl, rfl, rfl⟩

theorem look (hx : Ir.Build.Looks x) (hf : ∀ a, π.Makes (f a) c S) : π.Makes (x >>= f) c S :=
  (of_looks hx).bind fun a _ hc => hc ▸ hf a

theorem discard {S : PUnit → Chart → Prop} (h : π.Makes x c fun _ => S ()) :
    π.Makes (Functor.discard x) c S := by
  intro b u b' hb hrun
  obtain ⟨a, hx⟩ := Ir.Build.discard_ok_iff.1 hrun
  exact h b a b' hb hx

end Place.Makes

namespace Lower

variable {x : Lower α} {f : α → Lower β}

theorem bind_ok {t t' : Lowering} {b : β} (h : (x >>= f).run t = (.ok b, t')) :
    ∃ a t₁, x.run t = (.ok a, t₁) ∧ (f a).run t₁ = (.ok b, t') := by
  rw [bind_run] at h
  cases hx : x.run t with
  | mk r t₁ =>
    rw [hx] at h
    cases r with
    | ok a => exact ⟨a, t₁, rfl, h⟩
    | error e => cases h

theorem build_eq_ok {x : Build α} {t t' : Lowering} {a : α}
    (h : (Lower.build x).run t = (.ok a, t')) :
    ∃ b, x t.builder = .ok (a, b) ∧ t' = { t with builder := b } := by
  rw [Lower.build, get_bind_run] at h
  cases hx : x t.builder with
  | error e =>
    rw [hx] at h
    cases h
  | ok r =>
    obtain ⟨a', b⟩ := r
    rw [hx] at h
    cases h
    exact ⟨b, rfl, rfl⟩

end Lower

namespace Place.Draws

variable {x : Lower α} {f : α → Lower β}

theorem mono (h : π.Draws x c Q) (hQ : ∀ a c', Q a c' → R a c') : π.Draws x c R := by
  intro t a t' ht hrun
  obtain ⟨c', ht', ha⟩ := h t a t' ht hrun
  exact ⟨c', ht', hQ a c' ha⟩

theorem pure {a : α} (h : Q a c) : π.Draws (Pure.pure a) c Q := by
  intro t a t' ht hrun
  cases hrun
  exact ⟨c, ht, h⟩

theorem bind (h : π.Draws x c Q) (hf : ∀ a c', Q a c' → π.Draws (f a) c' S) :
    π.Draws (x >>= f) c S := by
  intro t b t' ht hrun
  obtain ⟨a, t₁, hx, hrest⟩ := Lower.bind_ok hrun
  obtain ⟨c₁, ht₁, ha⟩ := h t a t₁ ht hx
  exact hf a c₁ ha t₁ b t' ht₁ hrest

theorem map {f : α → β} (h : π.Draws x c fun a => S (f a)) : π.Draws (f <$> x) c S := by
  rw [map_eq_pure_bind]
  exact h.bind fun _ _ => pure

theorem discard {S : PUnit → Chart → Prop} (h : π.Draws x c fun _ => S ()) :
    π.Draws (Functor.discard x) c S := map h

theorem reject {span : Span} {e : LoweringError} : π.Draws (Lower.reject span e : Lower α) c Q := by
  intro t a t' ht hrun
  cases hrun

theorem misuse {m : Misuse} : π.Draws (Lower.misuse m : Lower α) c Q := by
  intro t a t' ht hrun
  cases hrun

theorem guard {p : Prop} [Decidable p] {g : Lower PUnit} (hg : π.Draws g c fun _ _ => False)
    (hx : π.Draws x c Q) : π.Draws (if p then g >>= fun _ => x else x) c Q := by
  split
  · exact hg.bind fun _ _ hno => hno.elim
  · exact hx

theorem get {f : Lowering → Lower β} (h : ∀ t, π.Shows c t → π.Draws (f t) c S) :
    π.Draws (MonadState.get >>= f) c S := by
  intro t b t' ht hrun
  exact h t ht t b t' ht hrun

theorem change {g : Lowering → Lowering} (hg : ∀ t, π.Shows c t → π.Shows c (g t)) :
    π.Draws (modify g) c fun _ c' => c' = c := by
  intro t u t' ht hrun
  cases hrun
  exact ⟨c, hg t ht, rfl⟩

theorem build {x : Build α} (h : π.Makes x c Q) : π.Draws (Lower.build x) c Q := by
  intro t a t' ht hrun
  obtain ⟨b, hx, rfl⟩ := Lower.build_eq_ok hrun
  obtain ⟨c', hb, hscopes, hframe, ha⟩ := h _ a b ht.on hx
  refine ⟨c', ⟨hb, ?_, ?_, ht.abort, ht.formats⟩, ha⟩
  · exact ht.scopes.trans hscopes.symm
  · exact ht.frame.trans hframe.symm

theorem look {x : Build α} (hx : Ir.Build.Looks x) {f : α → Lower β}
    (hf : ∀ a, π.Draws (f a) c S) : π.Draws (Lower.build x >>= f) c S :=
  (build (.of_looks hx)).bind fun a _ hc => hc ▸ hf a

end Place.Draws

end

/-! ### Operations of the builder -/

namespace Place

variable {π : Place} {c : Chart} {b b' : Builder}

theorem On.withFunction (h : π.On c b) {c' : Chart} (hblock : c'.block = c.block) :
    π.On c' (b.withFunction π.id c'.function) where
  works := h.works.withFunction _
  block id hid := (h.block id hid).trans hblock.symm
  others k hk := by
    rw [← h.others k hk]
    simp [Builder.withFunction, Ne.symm hk]

/-- What is in sight, and what the author knows, is not the builder's concern. -/
theorem On.congr (h : π.On c b) {c' : Chart} (hfunction : c'.function = c.function)
    (hblock : c'.block = c.block) : π.On c' b where
  works := hfunction ▸ h.works
  block id hid := (h.block id hid).trans hblock.symm
  others := h.others

theorem On.update (h : π.On c b) {e : Function → Function} {u : Unit}
    (hrun : Build.update e b = .ok (u, b')) : b' = b.withFunction π.id (e c.function) := by
  obtain ⟨id, f, hworks, rfl⟩ := Ir.Build.update_eq_ok hrun
  obtain ⟨rfl, rfl⟩ := h.works.unique hworks
  rfl

theorem On.currentFunction (h : π.On c b) {f : Function}
    (hrun : Build.currentFunction b = .ok (f, b')) : f = c.function ∧ b = b' := by
  obtain ⟨id, hworks, rfl⟩ := Ir.Build.currentFunction_eq_ok hrun
  exact ⟨(h.works.unique hworks).2, rfl⟩

theorem On.push (h : π.On c b) {action : Action} {info? : Option ValueInfo}
    {r : Option Ir.ValueId} (hrun : Build.push action info? b = .ok (r, b')) :
    c.function.IsOpen c.block ∧ r = (c.nextInst action info?).result ∧
      b' = b.withFunction π.id (c.function.emit c.block action info?) := by
  obtain ⟨id, f, block, hworks, hblock, hopen, hr, rfl⟩ := Ir.Build.push_eq_ok hrun
  obtain ⟨rfl, rfl⟩ := h.works.unique hworks
  obtain rfl := h.block _ hblock
  exact ⟨hopen, hr, rfl⟩

theorem push_makes (action : Action) (info? : Option ValueInfo) :
    π.Makes (Build.push action info?) c fun r c' => c.function.IsOpen c.block ∧
      c' = c.emit action info? ∧ r = (c.nextInst action info?).result := by
  intro b r b' hb hrun
  obtain ⟨hopen, hr, rfl⟩ := hb.push hrun
  exact ⟨c.emit action info?, hb.withFunction rfl, rfl, rfl, hopen, rfl, hr⟩

theorem pushValue_makes (action : Action) (ty : Ty) (compared : Bool) :
    π.Makes (Build.pushValue action ty compared) c fun v c' => c.function.IsOpen c.block ∧
      c' = c.emit action (some ⟨ty, compared⟩) ∧ v = .inst ⟨c.function.values.size⟩ := by
  refine (push_makes action _).bind fun r c' h => ?_
  obtain ⟨hopen, rfl, rfl⟩ := h
  exact .pure ⟨hopen, rfl, rfl⟩

theorem result_makes {action : Action} {ty : Ty} {compared : Bool}
    (huses : action.uses ⊆ c.known) (hreserves : action.reserves = []) :
    π.Makes (Build.pushValue action ty compared) c fun v c' =>
      c.Yields v c' ∧ c'.last = some (c.nextInst action (some ⟨ty, compared⟩)) := by
  refine (pushValue_makes action ty compared).mono fun v c' h => ?_
  obtain ⟨hopen, rfl, rfl⟩ := h
  refine ⟨⟨Chart.straight_emit hopen huses hreserves, ?_⟩, Chart.last_emit hopen⟩
  simp [Chart.Offers, Chart.emit, Chart.nextInst, Operand.uses, Ir.Inst.gives]

theorem value_makes {action : Action} {ty : Ty} {compared : Bool}
    (huses : action.uses ⊆ c.known) (hreserves : action.reserves = []) :
    π.Makes (Build.pushValue action ty compared) c c.Yields :=
  (result_makes huses hreserves).mono fun _ _ h => h.1

theorem act_makes {action : Action} (huses : action.uses ⊆ c.known)
    (hreserves : action.reserves = []) :
    π.Makes (discard (Build.push action none)) c fun _ c' =>
      c.Straight c' ∧ c'.last = some ⟨none, action⟩ ∧ c' = c.emit action none := by
  refine .discard ((push_makes action none).mono fun r c' h => ?_)
  obtain ⟨hopen, rfl, rfl⟩ := h
  exact ⟨Chart.straight_emit hopen huses hreserves, Chart.last_emit hopen, rfl⟩

theorem alloca_makes (name : String) (ty : Ty) :
    π.Makes (Build.alloca name ty) c fun slot c' =>
      c.Straight c' ∧ slot = c.nextSlot ∧ c' = c.reserve name ty := by
  intro b slot b' hb hrun
  obtain ⟨f, s, hcurrent, hrest⟩ := Ir.Build.bind_ok_iff.1 hrun
  obtain ⟨rfl, rfl⟩ := hb.currentFunction hcurrent
  obtain ⟨_, s, hupdate, hrest⟩ := Ir.Build.bind_ok_iff.1 hrest
  obtain rfl := hb.update hupdate
  obtain ⟨_, s, hdiscard, hreturn⟩ := Ir.Build.bind_ok_iff.1 hrest
  obtain ⟨_, hpush⟩ := Ir.Build.discard_ok_iff.1 hdiscard
  cases hreturn
  have hon : π.On { c with function := c.function.addSlot name ty }
      (b.withFunction π.id (c.function.addSlot name ty)) := hb.withFunction rfl
  obtain ⟨hopen, -, rfl⟩ := hon.push hpush
  have hopen : c.function.IsOpen c.block := hopen
  rw [Ir.Builder.withFunction_withFunction]
  exact ⟨c.reserve name ty, hb.withFunction rfl, rfl, rfl, Chart.straight_reserve hopen name ty,
    rfl, rfl⟩

theorem loaded_makes (slot : SlotId) :
    π.Makes (Build.load slot) c fun v c' => c.function.IsOpen c.block ∧
      (∃ info, c' = c.emit (.load slot) (some info)) ∧ v = .inst ⟨c.function.values.size⟩ :=
  .look .currentFunction fun _ => .look (.ofExcept _) fun _ =>
    (pushValue_makes _ _ _).mono fun _ _ h => ⟨h.1, ⟨_, h.2.1⟩, h.2.2⟩

theorem load_makes {slot : SlotId} (h : Name.slot slot ∈ c.known) :
    π.Makes (Build.load slot) c c.Yields :=
  have huses : (Action.load slot).uses ⊆ c.known :=
    List.cons_subset.2 ⟨h, List.nil_subset _⟩
  .look .currentFunction fun _ => .look (.ofExcept _) fun _ =>
    value_makes huses rfl

theorem store_makes {slot : SlotId} {v : Operand} (h : Name.slot slot ∈ c.known)
    (hv : c.Offers v) :
    π.Makes (Build.store slot v) c fun _ c' => c.Straight c' ∧
      c'.last = some ⟨none, .store slot v⟩ ∧ c' = c.emit (.store slot v) none :=
  act_makes (List.cons_subset.2 ⟨h, Chart.uses_operands (List.forall_mem_singleton.2 hv)⟩) rfl

theorem binary_makes (op : Ir.BinaryOp) {l r : Operand} (hl : c.Offers l) (hr : c.Offers r) :
    π.Makes (Build.binary op l r) c c.Yields :=
  .look (.typeOf l) fun _ => value_makes (Chart.uses_pair hl hr) rfl

theorem compare_makes (pred : Ir.Predicate) {l r : Operand} (hl : c.Offers l) (hr : c.Offers r) :
    π.Makes (Build.compare pred l r) c c.Yields :=
  value_makes (Chart.uses_pair hl hr) rfl

theorem uses_of_foldCast {op : Ir.CastOp} {source target : Ty} {v v' : Operand}
    (h : Ir.foldCast op source v target = some v') : v'.uses = [] := by
  cases op <;> cases v <;> cases h <;> rfl

theorem emitCast_makes (op : Ir.CastOp) {v : Operand} (target : Ty) (hv : c.Offers v) :
    π.Makes (Build.emitCast op v target) c c.Yields :=
  value_makes (Chart.uses_operands (List.forall_mem_singleton.2 hv)) rfl

theorem cast_makes (op : Ir.CastOp) {v : Operand} (target : Ty) (hv : c.Offers v) :
    π.Makes (Build.cast op v target) c c.Yields := by
  refine .look (.typeOf v) fun source => ?_
  cases hfold : Ir.foldCast op source v target with
  | some folded => exact .pure ⟨.refl c, Chart.offers_of_uses (uses_of_foldCast hfold)⟩
  | none => exact emitCast_makes op target hv

theorem call_makes (callee : FuncId) {args : List Operand} (hargs : ∀ v ∈ args, c.Offers v) :
    π.Makes (Build.call callee args) c fun v c' =>
      c.Yields v c' ∧ ∃ r, c'.last = some ⟨r, .call callee args⟩ := by
  have huses : (Action.call callee args).uses ⊆ c.known := Chart.uses_operands hargs
  refine .look .get fun b => .look (.ofExcept _) fun f => ?_
  split
  · exact (act_makes huses rfl).bind fun _ c' h =>
      .pure ⟨⟨h.1, List.nil_subset _⟩, none, h.2.1⟩
  · exact (result_makes huses rfl).mono fun _ c' h => ⟨h.1, _, h.2⟩

/-! Blocks -/

theorem createBlock_makes (label : String) :
    π.Makes (Build.createBlock label) c fun id c' => id = c.nextBlock ∧ c' = c.create label := by
  intro b id b' hb hrun
  obtain ⟨f, s, hcurrent, hrest⟩ := Ir.Build.bind_ok_iff.1 hrun
  obtain ⟨rfl, rfl⟩ := hb.currentFunction hcurrent
  obtain ⟨_, s, hupdate, hreturn⟩ := Ir.Build.bind_ok_iff.1 hrest
  obtain rfl := hb.update hupdate
  cases hreturn
  exact ⟨c.create label, hb.withFunction rfl, rfl, rfl, rfl, rfl⟩

theorem appendBlock_makes (id : BlockId) :
    π.Makes (Build.appendBlock id) c fun _ c' => c' = c.attach id := by
  intro b u b' hb hrun
  obtain ⟨f, s, hcurrent, hrest⟩ := Ir.Build.bind_ok_iff.1 hrun
  obtain ⟨rfl, rfl⟩ := hb.currentFunction hcurrent
  dsimp only at hrest
  split at hrest
  · cases hrest
  · obtain rfl := hb.update hrest
    exact ⟨c.attach id, hb.withFunction rfl, rfl, rfl, rfl⟩

theorem switchTo_makes (id : BlockId) :
    π.Makes (Build.switchTo id) c fun _ c' => c' = c.enter id := by
  intro b u b' hb hrun
  cases hrun
  exact ⟨c.enter id, ⟨hb.works, fun _ h => (Option.some.inj h).symm, hb.others⟩, rfl, rfl, rfl⟩

theorem markUnreachable_makes (id : BlockId) :
    π.Makes (Build.markUnreachable id) c fun _ c' => c' = c.markDead id := by
  intro b u b' hb hrun
  obtain ⟨f, s, hcurrent, hrest⟩ := Ir.Build.bind_ok_iff.1 hrun
  obtain ⟨rfl, rfl⟩ := hb.currentFunction hcurrent
  obtain ⟨_, s, hdiscard, hrest⟩ := Ir.Build.bind_ok_iff.1 hrest
  obtain ⟨_, hread⟩ := Ir.Build.discard_ok_iff.1 hdiscard
  obtain ⟨-, rfl⟩ := Ir.Build.ofExcept_ok_iff.1 hread
  obtain rfl := hb.update hrest
  exact ⟨c.markDead id, hb.withFunction rfl, rfl, rfl, rfl⟩

theorem addString_makes (name text : String) :
    π.Makes (Build.addString name text) c fun v c' => c' = c ∧ v.uses = [] := by
  intro b v b' hb hrun
  cases hrun
  exact ⟨c, ⟨hb.works, hb.block, hb.others⟩, rfl, rfl, rfl, rfl⟩

theorem terminate_makes (t : Terminator) :
    π.Makes (Build.terminate t) c fun _ c' => c.function.IsOpen c.block ∧ c' = c.close t := by
  intro b u b' hb hrun
  obtain ⟨id, f, block, hworks, hblock, hopen, rfl⟩ := Ir.Build.terminate_eq_ok hrun
  obtain ⟨rfl, rfl⟩ := hb.works.unique hworks
  obtain rfl := hb.block _ hblock
  exact ⟨c.close t, hb.withFunction rfl, rfl, rfl, hopen, rfl⟩

theorem leave_makes :
    π.Makes (Build.br exitId) c fun _ c' => c.function.IsOpen c.block ∧ c' = c.leave := by
  intro b u b' hb hrun
  obtain ⟨_, hon, hscopes, hframe, hopen, rfl⟩ := terminate_makes (.br exitId) b u b' hb hrun
  exact ⟨c.leave, hon.congr rfl rfl, rfl, rfl, hopen, rfl⟩

end Place

end Quill
