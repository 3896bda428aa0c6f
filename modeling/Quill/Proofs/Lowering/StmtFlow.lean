import Quill.Proofs.Lowering.ExprFlow

/-! # The control flow of statements

Statements end blocks and go on in others. The blocks that leave for the exit are those of the
returns, in the order of the source.
-/
namespace Quill

open Ir (Action BlockId Build FuncId Function Name Operand SlotId Terminator Ty ValueInfo)
open Library (Direction)

mutual

def Stmt.returns : Stmt → List (Option Expr)
  | .ret value _ => [value]
  | .loop body _ _ => Stmt.returnsAll body
  | .branch _ cs none _ => Case.returnsAll cs
  | .branch _ cs (some body) _ => Case.returnsAll cs ++ Stmt.returnsAll body
  | .assert .. | .read .. | .abort _ | .call .. | .print .. | .assign .. | .declare .. => []

def Stmt.returnsAll : List Stmt → List (Option Expr)
  | [] => []
  | s :: rest => s.returns ++ Stmt.returnsAll rest

def Case.returnsAll : List Case → List (Option Expr)
  | [] => []
  | .mk _ body :: rest => Stmt.returnsAll body ++ Case.returnsAll rest

end

namespace Lower

variable {π : Place} {c c₀ c' : Chart} {L : List BlockId} {vs : List (Option Expr)}

/-! ### Blocks -/

theorem newBlock_draws (label : String) :
    π.Draws (newBlock label) c fun id c' =>
      id = c.nextBlock ∧ c' = (c.create label).attach c.nextBlock := by
  refine .build ((Place.createBlock_makes label).bind fun id c₁ h => ?_)
  obtain ⟨rfl, rfl⟩ := h
  refine (Place.appendBlock_makes _).bind fun _ c₂ h => ?_
  subst h
  exact .pure ⟨rfl, rfl⟩

theorem straight_addBlock (c : Chart) (label : String) :
    c.Straight ((c.create label).attach c.nextBlock) := by
  have := (c.stays_create label).trans (Chart.stays_attach List.mem_cons_self)
  simpa [Chart.create] using this

theorem addBlock_draws (hexit : c.Accepts exitId) (label : String) :
    π.Draws (newBlock label) c fun id c' =>
      c.Straight c' ∧ c'.Opens id ∧ c'.known ⊆ c.known := by
  refine (newBlock_draws label).mono fun id c' h => ?_
  obtain ⟨rfl, rfl⟩ := h
  have hopens := Chart.opens_create hexit label
  refine ⟨straight_addBlock c label, ?_, List.Subset.refl _⟩
  exact hopens.passes (Chart.stays_attach List.mem_cons_self).toPasses (List.Subset.refl _)

theorem terminate_draws {t : Terminator} (ht : c.CanEnd t) :
    π.Draws (build (Build.terminate t)) c fun _ c' => c.Straight c' := by
  refine .build ((Place.terminate_makes t).mono fun _ c' h => ?_)
  obtain ⟨hopen, rfl⟩ := h
  exact Chart.straight_close hopen ht

theorem switchTo_draws {id : BlockId} (h : c₀.Stays L vs c) (hblock : c.block ≠ exitId)
    (hid : c₀.Opens id) :
    π.Draws (build (Build.switchTo id)) c fun _ c' => c₀.Stays L vs c' ∧ c'.Opens id := by
  refine .build ((Place.switchTo_makes id).mono fun _ c' hc' => ?_)
  subst hc'
  exact ⟨h.enter hblock hid, hid.enter h.toPasses hblock⟩

/-- Work goes on in a new block, to which the current one leads. -/
theorem jump_draws {α : Type} {S : α → Chart → Prop} (hc : c.Ready) (label : String)
    {f : BlockId → Lower α}
    (hf : ∀ id c', c.Straight c' → c'.Opens id → π.Draws (f id) c' S) :
    π.Draws (do
      let id ← newBlock label
      build (Build.br id)
      build (Build.switchTo id)
      f id) c S := by
  refine (addBlock_draws hc.exit label).bind fun id c₁ h₁ => ?_
  obtain ⟨hstraight, hopens, -⟩ := h₁
  have hblock := (hstraight.ready hc).block
  refine (terminate_draws (hopens.canBranch hopens.ne_exit)).bind fun _ c₂ h₂ => ?_
  refine (switchTo_draws h₂ (h₂.block hblock) hopens).bind fun _ c₃ h₃ => ?_
  exact hf id c₃ (hstraight.straight h₃.1) h₃.2

theorem appendBlock_draws {id : BlockId} (h : id ∈ c.loose) :
    π.Draws (build (Build.appendBlock id)) c fun _ c' => c.Stays (c.loose.erase id) [] c' := by
  refine .build ((Place.appendBlock_makes id).mono fun _ c' hc' => ?_)
  subst hc'
  exact Chart.stays_attach h

theorem createBlock_draws (hexit : c.Accepts exitId) (label : String) :
    π.Draws (build (Build.createBlock label)) c fun id c' =>
      c.Stays (id :: c.loose) [] c' ∧ c'.Opens id := by
  refine .build ((Place.createBlock_makes label).mono fun id c' h => ?_)
  obtain ⟨rfl, rfl⟩ := h
  exact ⟨c.stays_create label, Chart.opens_create hexit label⟩

theorem enterDead_draws (hc : c.Ready) (label : String) :
    π.Draws (continueUnreachable label) c fun _ c' => c.Straight c' := by
  have hopens := Chart.opens_create hc.exit label
  refine (newBlock_draws label).bind fun id c₁ h => ?_
  obtain ⟨rfl, rfl⟩ := h
  refine (Place.Draws.build (Place.markUnreachable_makes _)).bind fun _ c₂ h₂ => ?_
  refine .build ((Place.switchTo_makes _).mono fun _ c' h => ?_)
  subst h₂ h
  refine ⟨⟨.of_step (.enterDead label hc.block), hopens.known, rfl, fun _ => hopens.ne_exit, ?_, [],
    by simp [Chart.enter, Chart.markDead, Chart.attach, Chart.create], .nil⟩, rfl⟩
  simp [Chart.enter, Chart.markDead, Chart.attach, Chart.create]

/-! ### Single statements -/

theorem abort_draws : π.Draws abort c fun _ c' => c.Straight c' := by
  unfold abort
  refine .get fun t ht => ?_
  rw [ht.abort]
  have hcall : π.Draws (discard (build (Build.call Library.abortId []))) c fun _ c' =>
      c.Straight c' ∧ ∃ r, c'.last = some ⟨r, .call Library.abortId []⟩ :=
    .discard (.build ((Place.call_makes _ (List.forall_mem_nil _)).mono fun _ _ h =>
      ⟨h.1.straight, h.2⟩))
  refine hcall.bind fun _ c₁ h₁ => ?_
  refine (terminate_draws (t := .unreachable) ?_).mono fun _ _ h => h₁.1.straight h
  exact ⟨List.nil_subset _, List.forall_mem_nil _, (fun h => by cases h), fun _ => h₁.2⟩

theorem assert_draws (hc : c.Ready) (e : Expr) :
    π.Draws (assert e) c fun _ c' => c.Straight c' := by
  unfold assert
  refine (addBlock_draws hc.exit _).bind fun check c₁ h₁ => ?_
  obtain ⟨hs₁, hcheck, -⟩ := h₁
  refine (addBlock_draws (hs₁.ready hc).exit _).bind fun fail c₂ h₂ => ?_
  obtain ⟨hs₂, hfail, hk₂⟩ := h₂
  have hc₂ := (hs₁.straight hs₂).ready hc
  refine (addBlock_draws hc₂.exit _).bind fun success c₃ h₃ => ?_
  obtain ⟨hs₃, hsuccess, hk₃⟩ := h₃
  have hcheck := (hcheck.passes hs₂.toPasses hk₂).passes hs₃.toPasses hk₃
  have hfail := hfail.passes hs₃.toPasses hk₃
  have hs := (hs₁.straight hs₂).straight hs₃
  have hc₃ := hs.ready hc
  refine (terminate_draws (hcheck.canBranch hcheck.ne_exit)).bind fun _ c₄ h₄ => ?_
  refine (switchTo_draws h₄ (h₄.block hc₃.block) hcheck).bind fun _ c₅ h₅ => ?_
  refine (condition_draws (h₅.1.sees hc₃.sees) e).bind fun v c₆ hv => ?_
  have h₆ := h₅.1.straight hv.straight
  refine (terminate_draws (Chart.canChoose hv.offers (h₆.accepts hsuccess.toAccepts)
    hsuccess.ne_exit (h₆.accepts hfail.toAccepts) hfail.ne_exit)).bind fun _ c₇ h₇ => ?_
  have h₇ := h₆.straight h₇
  refine (switchTo_draws h₇ (h₇.block hc₃.block) hfail).bind fun _ c₈ h₈ => ?_
  refine abort_draws.bind fun _ c₉ h₉ => ?_
  have h₉ := h₈.1.straight h₉
  exact (switchTo_draws h₉ (h₉.block hc₃.block) hsuccess).mono fun _ c' h' => hs.straight h'.1

/-! Variables and the outside -/

theorem slotTy_draws {β : Type} {f : Ty → Lower β} {S : β → Chart → Prop} (slot : SlotId)
    (hf : ∀ ty, π.Draws (f ty) c S) : π.Draws (slotTy slot >>= f) c S :=
  .look (.bind .currentFunction fun _ => .map (.ofExcept _) _) hf

theorem format_draws (ty : Ty) (d : Direction) :
    π.Draws (format ty d) c fun v c' => c' = c ∧ v.uses = [] := by
  unfold format
  refine .get fun t ht => ?_
  split
  · rename_i v hv
    obtain ⟨l₁, l₂, heq, -⟩ := List.lookup_eq_some_iff.1 hv
    exact .pure ⟨rfl, ht.formats ((ty, d), v) (by simp [heq])⟩
  · refine .guard .misuse ((Place.Draws.build (Place.addString_makes _ _)).bind fun v c' h => ?_)
    obtain ⟨rfl, hv⟩ := h
    have hkeep : π.Draws (modify fun s => { s with formats := ((ty, d), v) :: s.formats }) c'
        fun _ c₁ => c₁ = c' :=
      .change fun t ht => { ht with formats := List.forall_mem_cons.2 ⟨hv, ht.formats⟩ }
    refine hkeep.bind fun _ c₁ h => ?_
    subst h
    exact .pure ⟨rfl, hv⟩

theorem offers_slotAddr {slot : SlotId} (h : Name.slot slot ∈ c.known) :
    c.Offers (.slotAddr slot) :=
  List.cons_subset.2 ⟨h, List.nil_subset _⟩

theorem offers_pair {v w : Operand} (hv : c.Offers v) (hw : c.Offers w) :
    ∀ u ∈ [v, w], c.Offers u :=
  List.forall_mem_cons.2 ⟨hv, List.forall_mem_singleton.2 hw⟩

theorem callFor_draws (callee : FuncId) {args : List Operand} (hargs : ∀ v ∈ args, c.Offers v) :
    π.Draws (discard (build (Build.call callee args))) c fun _ c' => c.Straight c' :=
  .discard (.build ((Place.call_makes callee hargs).mono fun _ _ h => h.1.straight))

theorem store_draws {slot : SlotId} {v : Operand} (h : Name.slot slot ∈ c.known)
    (hv : c.Offers v) : π.Draws (build (Build.store slot v)) c fun _ c' => c.Straight c' :=
  .build ((Place.store_makes h hv).mono fun _ _ h => h.1)

theorem alloca_draws (name : String) (ty : Ty) :
    π.Draws (build (Build.alloca name ty)) c fun slot c' =>
      c.Straight c' ∧ Name.slot slot ∈ c'.known := by
  refine .build ((Place.alloca_makes name ty).mono fun slot c' h => ?_)
  obtain ⟨hstraight, rfl, rfl⟩ := h
  exact ⟨hstraight, List.mem_cons_self⟩

theorem read_draws (hc : c.Sees) (x : Ident) :
    π.Draws (read x) c fun _ c' => c.Straight c' := by
  unfold read
  refine (find?_draws x.text).bind fun r c₁ h => ?_
  obtain ⟨rfl, hr⟩ := h
  cases r with
  | none => exact .reject
  | some slot =>
    have hslot := hc slot (Scopes.mem_slots_of_find? hr.symm)
    refine slotTy_draws slot fun ty => .guard .reject ?_
    refine (format_draws ty .input).bind fun text c₂ h => ?_
    obtain ⟨rfl, htext⟩ := h
    refine .get fun t _ => ?_
    split
    · refine (alloca_draws _ _).bind fun word c₁ h₁ => ?_
      have hargs := offers_pair (Chart.offers_of_uses htext) (offers_slotAddr h₁.2)
      refine (callFor_draws _ hargs).bind fun _ c₂ h₂ => ?_
      refine (Place.Draws.build (Place.load_makes (h₂.known h₁.2))).bind fun v c₃ h₃ => ?_
      refine (Place.Draws.build (Place.compare_makes .ine h₃.offers
        (Chart.offers_of_uses rfl))).bind fun w c₄ h₄ => ?_
      have h := h₁.1.straight (h₂.straight (h₃.trans h₄).straight)
      exact (store_draws (h.known hslot) h₄.offers).mono fun _ _ h' => h.straight h'
    · exact callFor_draws _ (offers_pair (Chart.offers_of_uses htext) (offers_slotAddr hslot))

theorem print_draws (hc : c.Sees) (e : Expr) :
    π.Draws (print e) c fun _ c' => c.Straight c' := by
  unfold print
  refine (expr_draws hc e).bind fun v c₁ h₁ => ?_
  refine .look (.typeOf v) fun ty => .guard .reject ?_
  have hpromote : π.Draws (promote v ty) c₁ c.Yields := by
    unfold promote
    split
    · exact (cast_draws _ h₁.offers _).mono fun _ _ h => h₁.trans h
    · split
      · exact (cast_draws _ h₁.offers _).mono fun _ _ h => h₁.trans h
      · exact .pure h₁
  refine hpromote.bind fun w c₂ h₂ => ?_
  refine (format_draws ty .output).bind fun text c₃ h => ?_
  obtain ⟨rfl, htext⟩ := h
  refine .get fun t _ => ?_
  have hargs := offers_pair (Chart.offers_of_uses htext) h₂.offers
  exact (callFor_draws _ hargs).mono fun _ _ h => h₂.straight.straight h

theorem assign_draws (hc : c.Sees) (x : Ident) (e : Expr) :
    π.Draws (assign x e) c fun _ c' => c.Straight c' := by
  unfold assign
  refine (expr_draws hc e).bind fun v c₁ h₁ => ?_
  refine (find?_draws x.text).bind fun r c₂ h => ?_
  obtain ⟨rfl, hr⟩ := h
  cases r with
  | none => exact .reject
  | some slot =>
    refine slotTy_draws slot fun ty => ?_
    refine (coerce_draws h₁.offers ty _ _).bind fun w c₃ h₃ => ?_
    have hslot := h₁.straight.sees hc slot (Scopes.mem_slots_of_find? hr.symm)
    exact (store_draws (h₃.straight.known hslot) h₃.offers).mono fun _ _ h =>
      (h₁.trans h₃).straight.straight h

theorem sees_bind (hc : c.Sees) {x : String} {slot : SlotId} (h : Name.slot slot ∈ c.known) :
    (c.withScopes (c.scopes.bind x slot)).Sees := by
  have hslots : (c.scopes.bind x slot).slots = slot :: c.scopes.slots := by
    cases c.scopes <;> simp [Scopes.bind, Scopes.slots]
  intro s hs
  rcases List.mem_cons.1 (hslots ▸ hs) with rfl | hs
  · exact h
  · exact hc s hs

structure Binds (c c' : Chart) : Prop extends c.Passes c.loose [] c' where
  sees : c'.Sees
  scopes : c'.scopes.tail = c.scopes.tail
  function : c'.function = c.function

theorem define_draws (hc : c.Sees) (x : Ident) {slot : SlotId} (h : Name.slot slot ∈ c.known) :
    π.Draws (define x slot) c fun _ c' => Binds c c' := by
  unfold define
  refine .get fun t ht => ?_
  split
  · exact .misuse
  · rename_i frame outer hscopes
    refine .guard .reject fun t' u t'' _ hrun => ?_
    cases hrun
    rw [ht.scopes] at hscopes
    refine ⟨c.withScopes (c.scopes.bind x.text slot),
      ⟨ht.on.congr rfl rfl, ?_, ht.frame, ht.abort, ht.formats⟩, ?_⟩
    · simp [Chart.withScopes, Scopes.bind, hscopes]
    · exact ⟨c.passes_look _, sees_bind hc h, rfl, rfl⟩

theorem declare_draws (hc : c.Ready) (x : Ident) (type : TypeExpr) (init : Option Expr) :
    π.Draws (declare x type init) c fun _ c' => c.Follows [] c' := by
  unfold declare
  refine .guard .reject (.get fun t _ => .guard .reject ?_)
  have hinit : π.Draws (init.mapM (initial type.ty)) c fun r c' =>
      c.Straight c' ∧ ∀ v, r = some v → c'.Offers v := by
    cases init with
    | none => exact .pure ⟨.refl c, fun _ h => by cases h⟩
    | some e =>
      refine .map ((expr_draws hc.sees e).bind fun v c₁ h₁ => ?_)
      refine (coerce_draws h₁.offers _ _ _).mono fun w c' h => ⟨(h₁.trans h).straight, ?_⟩
      rintro _ ⟨⟩
      exact h.offers
  refine hinit.bind fun r c₁ h₁ => ?_
  refine (alloca_draws _ _).bind fun slot c₂ h₂ => ?_
  have h : c.Straight c₂ := h₁.1.straight h₂.1
  refine (define_draws (h.sees hc.sees) x h₂.2).bind fun _ c₃ h₃ => ?_
  have hpasses := h.toPasses.trans h₃.toPasses
  rw [h.loose] at hpasses
  have hfollows : c.Follows [] c₃ :=
    ⟨hpasses, h₃.scopes.trans (congrArg List.tail h.scopes), hpasses.ready hc h₃.sees⟩
  cases r with
  | none => exact .pure hfollows
  | some v =>
    have hv := h₃.offers (h₂.1.offers (h₁.2 v rfl))
    exact (store_draws (h₃.known h₂.2) hv).mono fun _ c' h' =>
      hfollows.trans (h'.follows hfollows.ready)

/-! Leaving the body -/

/-- The current block leaves for the exit, and work goes on where nothing leads to. -/
theorem leave_draws {value : Option Expr} (hc : c₀.Ready) (h : c₀.Straight c)
    (hvalue : value.isSome → ∃ slot v, c₀.result = some slot ∧
      c.last = some ⟨none, .store slot v⟩) (label : String) :
    π.Draws (do build (Build.br exitId); continueUnreachable label) c fun _ c' =>
      c₀.Follows [value] c' := by
  refine (Place.Draws.build Place.leave_makes).bind fun _ c₁ h₁ => ?_
  obtain ⟨hopen, rfl⟩ := h₁
  have hready := h.ready hc
  have hresult : c.result = c₀.result := congrArg (Option.bind · BodyFrame.result) h.frame
  have hleave := Chart.stays_leave hopen hready.exit (hresult ▸ hvalue)
  have hall := h.trans hleave
  rw [List.nil_append, h.loose] at hall
  refine (enterDead_draws (hall.ready hc) label).mono fun _ c' h' => ?_
  exact (hall.straight h').follows hc

theorem ret_draws (hc : c.Ready) (value : Option Expr) :
    π.Draws (ret value) c fun _ c' => c.Follows [value] c' := by
  obtain ⟨result, hframe, hslot⟩ := hc.frame
  have hresult : c.result = result := by simp [Chart.result, hframe]
  unfold ret
  refine .get fun t ht => ?_
  rw [ht.frame, hframe]
  dsimp only
  cases value with
  | none => exact leave_draws hc (.refl c) (fun h => by cases h) _
  | some e =>
    cases result with
    | none => exact Place.Draws.bind (Q := fun _ _ => False) .reject fun _ _ hno => hno.elim
    | some slot =>
      refine (expr_draws hc.sees e).bind fun v c₁ h₁ => ?_
      refine .look (.map .currentFunction _) fun ty => ?_
      refine (coerce_draws h₁.offers ty _ _).bind fun w c₂ h₂ => ?_
      have h₂ := h₁.trans h₂
      have hknown := h₂.straight.known (hslot slot rfl)
      refine (Place.Draws.build (Place.store_makes hknown h₂.offers)).bind fun _ c₃ h₃ => ?_
      refine leave_draws hc (h₂.straight.straight h₃.1) (fun _ => ?_) _
      exact ⟨slot, w, hresult, h₃.2.1⟩

/-! ### Nested statements -/

theorem nested_draws {α : Type} {x : Lower α} {Q : α → Chart → Prop}
    (h : π.Draws x (c.withScopes c.scopes.enter) Q) :
    π.Draws (nested x) c fun a c' => ∃ c₁, Q a c₁ ∧ c' = c₁.withScopes c₁.scopes.leave := by
  intro t a t' ht hrun
  obtain ⟨t₁, hx, rfl⟩ := nested_eq hrun
  have hshows : π.Shows (c.withScopes c.scopes.enter) { t with scopes := t.scopes.enter } :=
    ⟨ht.on.congr rfl rfl, congrArg Scopes.enter ht.scopes, ht.frame, ht.abort, ht.formats⟩
  obtain ⟨c₁, ht₁, ha⟩ := h _ a t₁ hshows hx
  exact ⟨c₁.withScopes c₁.scopes.leave, ⟨ht₁.on.congr rfl rfl,
    congrArg Scopes.leave ht₁.scopes, ht₁.frame, ht₁.abort, ht₁.formats⟩, c₁, ha, rfl⟩

theorem block_draws (hc : c.Ready) {ss : List Stmt}
    (hss : ∀ {c : Chart}, c.Ready →
      π.Draws (stmts ss) c fun _ => c.Follows (Stmt.returnsAll ss)) :
    π.Draws (nested (stmts ss)) c fun _ => c.Stays c.loose (Stmt.returnsAll ss) := by
  have henter := c.passes_look c.scopes.enter
  have hsees : (c.withScopes c.scopes.enter).Sees := by
    simpa [Chart.Sees, Chart.withScopes, Scopes.enter, Scopes.slots] using hc.sees
  refine (nested_draws (hss (henter.ready hc hsees))).mono fun _ c' h => ?_
  obtain ⟨c₁, h₁, rfl⟩ := h
  have hall := (henter.trans h₁.toPasses).trans (c₁.passes_look c₁.scopes.leave)
  rw [List.nil_append, List.append_nil, h₁.loose] at hall
  exact ⟨hall, h₁.scopes⟩

theorem attach_draws {id : BlockId} (h : c₀.Stays (id :: L) vs c) :
    π.Draws (build (Build.appendBlock id)) c fun _ c' => c₀.Stays L vs c' := by
  refine (appendBlock_draws (by simp [h.loose])).mono fun _ c' h' => ?_
  have hall := h.trans h'
  simpa [h.loose] using hall

theorem loop_draws (hc : c.Ready) {body : List Stmt} (e : Expr) (span : Span)
    (hbody : ∀ {c : Chart}, c.Ready →
      π.Draws (stmts body) c fun _ => c.Follows (Stmt.returnsAll body)) :
    π.Draws (stmt (.loop body e span)) c fun _ => c.Follows (Stmt.returnsAll body) := by
  unfold stmt
  refine jump_draws hc _ fun first c₁ h₁ hfirst => ?_
  have hc₁ := h₁.ready hc
  refine (block_draws hc₁ hbody).bind fun _ c₂ h₂ => ?_
  refine jump_draws (h₂.ready hc₁) _ fun test c₃ h₃ _ => ?_
  have h₃ := h₂.straight h₃
  refine (condition_draws (h₃.sees hc₁.sees) e).bind fun v c₄ h₄ => ?_
  have hs₄ := h₃.straight h₄.straight
  have hc₄ := hs₄.ready hc₁
  refine (createBlock_draws hc₄.exit _).bind fun after c₅ h₅ => ?_
  obtain ⟨hs₅, hafter⟩ := h₅
  have hc₅ := hs₅.ready hc₄
  -- The edge back: what lay on the way to the body is still known behind the test.
  have hback := (hs₄.trans hs₅).accepts hfirst.toAccepts
  refine (terminate_draws (Chart.canChoose (hs₅.offers h₄.offers) hback hfirst.ne_exit
    hafter.toAccepts hafter.ne_exit)).bind fun _ c₆ h₆ => ?_
  have hs₆ : c₅.Stays (after :: c₄.loose) [] c₆ := by rwa [Chart.Straight, hs₅.loose] at h₆
  refine (attach_draws hs₆).bind fun _ c₇ h₇ => ?_
  refine (switchTo_draws h₇ (h₇.block hc₅.block) hafter).mono fun _ c' h' => ?_
  have hall := (h₁.trans (hs₄.trans hs₅)).trans h'.1
  rw [hs₄.loose, h₁.loose] at hall
  simpa using Chart.Stays.follows hall hc

theorem case_draws (hc : c.Ready) {exit : BlockId} (hexit : c.Accepts exit) (hne : exit ≠ exitId)
    (e : Expr) {body : List Stmt} {rest : List Case}
    (hbody : ∀ {c : Chart}, c.Ready →
      π.Draws (stmts body) c fun _ => c.Follows (Stmt.returnsAll body))
    (hrest : ∀ {c : Chart}, c.Ready → c.Accepts exit →
      π.Draws (cases exit rest) c fun _ => c.Stays c.loose (Case.returnsAll rest)) :
    π.Draws (cases exit (.mk e body :: rest)) c fun _ =>
      c.Stays c.loose (Stmt.returnsAll body ++ Case.returnsAll rest) := by
  unfold cases
  refine (condition_draws hc.sees e).bind fun v c₁ h₁ => ?_
  have hc₁ := h₁.straight.ready hc
  refine (createBlock_draws hc₁.exit _).bind fun next c₂ h₂ => ?_
  obtain ⟨hs₂, hnext⟩ := h₂
  have hc₂ := hs₂.ready hc₁
  refine (addBlock_draws hc₂.exit _).bind fun first c₃ h₃ => ?_
  obtain ⟨hs₃, hfirst, -⟩ := h₃
  have hc₃ := hs₃.ready hc₂
  refine (terminate_draws (Chart.canChoose (hs₃.offers (hs₂.offers h₁.offers)) hfirst.toAccepts
    hfirst.ne_exit (hs₃.accepts hnext.toAccepts) hnext.ne_exit)).bind fun _ c₄ h₄ => ?_
  refine (switchTo_draws h₄ (h₄.block hc₃.block) hfirst).bind fun _ c₅ h₅ => ?_
  have hs₅ := hs₃.straight h₅.1
  refine (block_draws (hs₅.ready hc₂) hbody).bind fun _ c₆ h₆ => ?_
  have hs₆ := hs₅.trans h₆
  have hleave := (hs₂.trans hs₆).accepts (h₁.straight.accepts hexit)
  refine (terminate_draws (hleave.canBranch hne)).bind fun _ c₇ h₇ => ?_
  have hs₇ : c₂.Stays (next :: c₁.loose) (Stmt.returnsAll body) c₇ := by
    have := hs₆.straight h₇
    rwa [List.nil_append, hs₅.loose, hs₂.loose] at this
  refine (attach_draws hs₇).bind fun _ c₈ h₈ => ?_
  refine (switchTo_draws h₈ (h₈.block hc₂.block) hnext).bind fun _ c₉ h₉ => ?_
  have hs₉ := h₁.straight.trans (hs₂.trans h₉.1)
  refine (hrest (hs₉.ready hc) (hs₉.accepts hexit)).mono fun _ c' h' => ?_
  have hall := hs₉.trans h'
  rw [hs₉.loose, h₁.straight.loose] at hall
  simpa using hall

theorem branch_draws (hc : c.Ready) (lead : Ident) {cs : List Case}
    {otherwise : Option (List Stmt)} (span : Span)
    (hcases : ∀ {c : Chart} {exit : BlockId}, c.Ready → c.Accepts exit → exit ≠ exitId →
      π.Draws (cases exit cs) c fun _ => c.Stays c.loose (Case.returnsAll cs))
    (hbody : ∀ {c : Chart} (body : List Stmt), otherwise = some body → c.Ready →
      π.Draws (stmts body) c fun _ => c.Follows (Stmt.returnsAll body)) :
    π.Draws (stmt (.branch lead cs otherwise span)) c fun _ =>
      c.Follows (Stmt.branch lead cs otherwise span).returns := by
  unfold stmt
  refine (createBlock_draws hc.exit _).bind fun exit c₁ h₁ => ?_
  obtain ⟨hs₁, hexit⟩ := h₁
  have hc₁ := hs₁.ready hc
  refine jump_draws hc₁ _ fun first c₂ h₂ _ => ?_
  have hc₂ := h₂.ready hc₁
  refine (hcases hc₂ (h₂.accepts hexit.toAccepts) hexit.ne_exit).bind fun _ c₃ h₃ => ?_
  have hs₃ := h₂.trans h₃
  rw [List.nil_append, h₂.loose, hs₁.loose] at hs₃
  -- All ways out of the branch end with an edge to its exit, where work goes on.
  have hleave {c₄ : Chart} {ws : List (Option Expr)} (h₄ : c₁.Stays (exit :: c.loose) ws c₄) :
      π.Draws (do
        build (Build.br exit)
        build (Build.appendBlock exit)
        build (Build.switchTo exit)) c₄ fun _ => c.Follows ws := by
    have haccepts := h₄.accepts hexit.toAccepts
    refine (terminate_draws (haccepts.canBranch hexit.ne_exit)).bind fun _ c₅ h₅ => ?_
    refine (attach_draws (h₄.straight h₅)).bind fun _ c₆ h₆ => ?_
    refine (switchTo_draws h₆ (h₆.block hc₁.block) hexit).mono fun _ c' h' => ?_
    simpa using Chart.Stays.follows (hs₁.trans h'.1) hc
  cases otherwise with
  | none => exact hleave hs₃
  | some body =>
    refine jump_draws (hs₃.ready hc₁) _ fun other c₄ h₄ _ => ?_
    have hs₄ := hs₃.straight h₄
    refine (block_draws (hs₄.ready hc₁) (hbody body rfl)).bind fun _ c₅ h₅ => ?_
    have hs₅ := hs₄.trans h₅
    rw [hs₄.loose] at hs₅
    exact hleave hs₅

/-! ### All statements -/

mutual

theorem stmt_draws {c : Chart} (hc : c.Ready) (s : Stmt) :
    π.Draws (stmt s) c fun _ => c.Follows s.returns := by
  cases s with
  | assert e span =>
    unfold stmt
    exact (assert_draws hc e).mono fun _ _ h => h.follows hc
  | read x span =>
    unfold stmt
    exact (read_draws hc.sees x).mono fun _ _ h => h.follows hc
  | abort span =>
    unfold stmt
    refine abort_draws.bind fun _ c₁ h₁ => ?_
    exact (enterDead_draws (h₁.ready hc) _).mono fun _ _ h => (h₁.straight h).follows hc
  | call callee args span =>
    unfold stmt
    exact .discard ((expr_draws hc.sees _).mono fun _ _ h => h.straight.follows hc)
  | print e span =>
    unfold stmt
    exact (print_draws hc.sees e).mono fun _ _ h => h.follows hc
  | assign x e span =>
    unfold stmt
    exact (assign_draws hc.sees x e).mono fun _ _ h => h.follows hc
  | declare x type init span =>
    unfold stmt
    exact declare_draws hc x type init
  | loop body e span => exact loop_draws hc e span fun hc => stmts_draws hc body
  | branch lead cs otherwise span =>
    cases otherwise with
    | none =>
      exact branch_draws hc lead span (fun hc hexit hne => cases_draws hc hexit hne cs)
        fun _ h => by cases h
    | some body =>
      refine branch_draws hc lead span (fun hc hexit hne => cases_draws hc hexit hne cs)
        fun body' hbody hc => ?_
      obtain rfl := Option.some.inj hbody
      exact stmts_draws hc body
  | ret value span =>
    unfold stmt
    exact ret_draws hc value

theorem stmts_draws {c : Chart} (hc : c.Ready) (ss : List Stmt) :
    π.Draws (stmts ss) c fun _ => c.Follows (Stmt.returnsAll ss) := by
  cases ss with
  | nil =>
    unfold stmts
    exact .pure ((Chart.Stays.refl c).follows hc)
  | cons s rest =>
    unfold stmts
    refine (stmt_draws hc s).bind fun _ c₁ h₁ => ?_
    exact (stmts_draws h₁.ready rest).mono fun _ _ h => h₁.trans h

theorem cases_draws {c : Chart} {exit : BlockId} (hc : c.Ready) (hexit : c.Accepts exit)
    (hne : exit ≠ exitId) (cs : List Case) :
    π.Draws (cases exit cs) c fun _ => c.Stays c.loose (Case.returnsAll cs) := by
  cases cs with
  | nil =>
    unfold cases
    exact .pure (.refl c)
  | cons first rest =>
    cases first with
    | mk e body =>
      exact case_draws hc hexit hne e (fun hc => stmts_draws hc body)
        fun hc hexit => cases_draws hc hexit hne rest

end

end Lower

end Quill
