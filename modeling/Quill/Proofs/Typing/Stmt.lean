import Quill.Proofs.Lowering.Stmt
import Quill.Proofs.Typing.Expr

/-! # Statements are lowered if they are well typed

Each statement is accepted in a context in which it is well typed and rejected in any other. The
context follows the scopes of lowering from statement to statement.
-/
namespace Quill

open Ir (BlockId Build FuncId Function Module Operand SlotId Ty)

/-! ### The context behind a statement -/

theorem Site.Sane.final {σ : Site} {d : Draft} (h : σ.Sane d) :
    σ.Final d (σ.builder d).module d.function where
  function := Ir.entry_eq_ok.1 function_run
  continues := .refl _
  signatures := signatures_builder h.signature
  globals _ _ hg := hg
  outside := isIn_builder

theorem StmtCode.scopesMatch {m : Module} {table : List (String × FuncId)} {f : Function}
    {frame : BodyFrame} {a : Stmt} {s s' : Scopes} {p q : Spot} {Γ : Context}
    (h : StmtCode m table f frame a s p s' q) (hΓ : ScopesMatch f s Γ) :
    ScopesMatch f s' (a.after Γ) := by
  cases h with
  | declare _ hfresh _ => exact hΓ.bind _ hfresh.type
  | declareAs _ _ hfresh _ _ => exact hΓ.bind _ hfresh.type
  | _ => exact hΓ

namespace Lower

open Site

variable {σ : Site} {d : Draft} {fs : List FunctionDecl} {result : Ty} {frame : BodyFrame}
  {Γ : Context}

/-- Where a statement is decided: the draft is ready for it and agrees with the context. -/
structure Stands (σ : Site) (fs : List FunctionDecl) (result : Ty) (frame : BodyFrame)
    (Γ : Context) (d : Draft) : Prop where
  knows : σ.Knows fs
  ready : σ.Ready d
  frame : d.frame = some frame
  ret : d.function.ret = result
  scopes : ScopesMatch d.function d.scopes Γ

namespace Stands

variable {d' : Draft} {base : Draft} {W L : List BlockId}

theorem follow (h : Stands σ fs result frame Γ d) (hw : σ.Work base W L d')
    (hopen : d'.function.IsOpen d'.block) (hcont : d.function.Continues d'.function)
    (hframe : d'.frame = d.frame) (hscopes : d'.scopes = d.scopes) :
    Stands σ fs result frame Γ d' where
  knows := h.knows
  ready := ⟨hw.sane, hopen⟩
  frame := hframe.trans h.frame
  ret := hcont.ret.trans h.ret
  scopes := hscopes ▸ h.scopes.mono hcont

theorem nest (h : Stands σ fs result frame Γ d) : Stands σ fs result frame Γ.enter d.nest where
  knows := h.knows
  ready := h.ready.nest
  frame := h.frame
  ret := h.ret
  scopes := h.scopes.enter

theorem next (h : Stands σ fs result frame Γ d) {s : Stmt} (hs : FollowsStmt σ d frame s d') :
    Stands σ fs result frame (s.after Γ) d' where
  knows := h.knows
  ready := hs.ready
  frame := hs.keepsFrame h.frame
  ret := hs.work.continues.ret.trans h.ret
  scopes :=
    (hs.code _ _ hs.work.sane.final).scopesMatch (h.scopes.mono hs.work.continues)

theorem result_isSome (h : Stands σ fs result frame Γ d) :
    frame.result.isSome = true ↔ result ≠ .void := by
  have hfits := h.ready.result frame h.frame
  cases hr : frame.result with
  | none =>
    rw [hr] at hfits
    simp [← h.ret, show d.function.ret = .void from hfits]
  | some slot =>
    rw [hr] at hfits
    obtain ⟨name, hname⟩ := hfits
    simpa [← h.ret] using h.ready.slots _ _ hname

end Stands

abbrev DecidesStmt (σ : Site) (fs : List FunctionDecl) (result : Ty) (Γ : Context) (d : Draft)
    (s : Stmt) (x : Lower Unit) : Prop :=
  σ.Decides x d (fun _ _ => StmtTyped fs result Γ s) (¬StmtTyped fs result Γ s)

/-! ### Simple statements -/

theorem assert_decides (h : Stands σ fs result frame Γ d) (c : Expr) (span : Span) :
    DecidesStmt σ fs result Γ d (.assert c span) (assert c) := by
  unfold assert
  refine .after (newBlock_leads (.refl h.ready) _) (.newBlock _) fun check d₁ h₁ => ?_
  refine .after (newBlock_leads h₁.work _) (.newBlock _) fun fail d₂ h₂ => ?_
  refine .after (newBlock_leads h₂.work _) (.newBlock _) fun success d₃ h₃ => ?_
  have hopen₃ := h₃.isOpen.2 (h₂.isOpen.2 (h₁.isOpen.2 h.ready.isOpen))
  have hcheck : check.index < d₃.function.blocks.size := h₃.work.waiting_lt (by simp)
  refine .after (br_leads h₃.work hopen₃ hcheck) (.build _) fun _ d₄ h₄ => ?_
  refine .after (switchTo_leads h₄.work h₄.closed (List.perm_append_singleton check [_, _]))
    (.build _) fun _ d₅ h₅ => ?_
  have hscopes₅ : d₅.scopes = d.scopes :=
    h₅.scopes.trans (h₄.scopes.trans (h₃.scopes.trans (h₂.scopes.trans h₁.scopes)))
  have st₅ := h.follow h₅.work h₅.isOpen h₅.work.continues h₅.work.frame hscopes₅
  refine .bind (condition_leads h₅.ready c) (condition_decides h.knows h₅.ready st₅.scopes c)
    (fun hno (.assert hc) => hno hc) fun t d₆ _ hc => ?_
  have htail : Plain (do
      build (Build.condBr t success fail)
      build (Build.switchTo fail)
      abort
      build (Build.switchTo success)) :=
    (Rejects.build _).bind fun _ => (Rejects.build _).bind fun _ => Rejects.abort.bind fun _ => .build _
  exact .of_plain htail fun _ _ => .assert hc

theorem read_decides (h : Stands σ fs result frame Γ d) (x : Ident) (span : Span) :
    DecidesStmt σ fs result Γ d (.read x span) (read x) := by
  unfold read
  refine .step (find?_run x.text) ?_
  obtain ⟨hx, hty⟩ | ⟨slot, ty, hx, hty, hslot⟩ := h.scopes.find?_cases x.text
  · rw [hx]
    exact .reject fun (.read hty' _) => by simp [hty] at hty'
  · rw [hx]
    obtain ⟨name, hname⟩ := hslot
    refine .step (slotTy_run hname) ?_
    by_cases hnumber : ty.isNumber = true
    · have htail : Plain (do
          let format ← format ty .input
          let reader := (← get).library.read
          if ty = .i1 then
            let word ← build (Build.alloca "input" .i32)
            discard (build (Build.call reader [format, .slotAddr word]))
            let v ← build (Build.load word)
            let v ← build (Build.compare .ine v (.zero .i32))
            build (Build.store slot v)
          else discard (build (Build.call reader [format, .slotAddr slot]))) := by
        refine (Rejects.format ty _).bind fun _ => Rejects.get.bind fun _ =>
          .ite ?_ (.discard (.build _))
        exact (Rejects.build _).bind fun _ => (Rejects.build _).discard.bind fun _ =>
          (Rejects.build _).bind fun _ => (Rejects.build _).bind fun _ => .build _
      simp only [Ty.not_isNumber, hnumber, Bool.not_true, Bool.false_eq_true, ↓reduceIte]
      exact .of_plain htail fun _ _ => .read hty hnumber
    · simp only [Ty.not_isNumber, hnumber, Bool.not_false, ↓reduceIte]
      refine .reject_bind fun (.read hty' hnumber') => hnumber ?_
      rwa [Option.some.inj (hty.symm.trans hty')]

theorem print_decides (h : Stands σ fs result frame Γ d) (e : Expr) (span : Span) :
    DecidesStmt σ fs result Γ d (.print e span) (print e) := by
  unfold print
  refine .bind (expr_leads h.ready e) (expr_decides h.knows h.ready h.scopes e)
    (fun hno (.print he) => hno.not_number he) ?_
  rintro v d₁ ⟨_, hv⟩ ⟨ty, hty, he⟩
  refine .step (typeOf_lower_run hty) ?_
  by_cases hnumber : ty.isNumber = true
  · have htail : Plain (do
        let v ← promote v ty
        let format ← format ty .output
        discard (build (Build.call (← get).library.print [format, v]))) :=
      (Rejects.promote v ty).bind fun _ => (Rejects.format ty _).bind fun _ => Rejects.get.bind fun _ =>
        (Rejects.build _).discard
    simp only [Ty.not_isNumber, hnumber, Bool.not_true, Bool.false_eq_true, ↓reduceIte]
    exact .of_plain htail fun _ _ => .print ⟨ty, he, hnumber⟩
  · simp only [Ty.not_isNumber, hnumber, Bool.not_false, ↓reduceIte]
    exact .reject_bind fun (.print hprint) =>
      hnumber ((ExprNumber.of_typed h.knows.names he).1 hprint)

theorem assign_decides (h : Stands σ fs result frame Γ d) (x : Ident) (e : Expr) (span : Span) :
    DecidesStmt σ fs result Γ d (.assign x e span) (assign x e) := by
  unfold assign
  refine .bind (expr_leads h.ready e) (expr_decides h.knows h.ready h.scopes e)
    (fun hno (.assign _ he) => hno.not_fits he) ?_
  rintro v d₁ ⟨_, hv⟩ ⟨source, hsource, he⟩
  have hΓ₁ := hv.straight.scopesMatch h.scopes
  refine .step (find?_run x.text) ?_
  obtain ⟨hx, hty⟩ | ⟨slot, ty, hx, hty, hslot⟩ := hΓ₁.find?_cases x.text
  · rw [hx]
    exact .reject fun (.assign hty' _) => by simp [hty] at hty'
  · rw [hx]
    obtain ⟨name, hname⟩ := hslot
    have hiff := ExprFits.of_typed h.knows.names he ty
    refine .step (slotTy_run hname) ?_
    refine .bind (coerce_leads hv.ready (by simp [LoweringError.IsUserFacing]) hsource)
      (coerce_decides hv.ready hsource) ?_ fun v' d₂ _ hconverts => ?_
    · intro hno (.assign hty' hfits)
      obtain rfl := Option.some.inj (hty.symm.trans hty')
      exact hno (hiff.1 hfits)
    · exact .of_plain (.build _) fun _ _ => .assign hty (hiff.2 hconverts)

theorem define_decides {x : Ident} {slot : SlotId} (h : d.scopes ≠ []) :
    σ.Decides (define x slot) d (fun _ _ => True) (d.scopes.definedHere x.text = true) := by
  unfold Site.Decides Lower.Decides
  rw [define_run h]
  by_cases hx : d.scopes.definedHere x.text = true
  · rw [if_pos hx]
    exact fun _ => hx
  · rw [if_neg hx]
    exact fun _ _ => trivial

theorem define_new {α : Type} {x : Ident} {slot : SlotId} {next : Lower α} {P N : Prop}
    (h : d.scopes ≠ []) (hnew : d.scopes.definedHere x.text = false) (hnext : Plain next)
    (hP : P) :
    σ.Decides (do define x slot; next) d (fun _ _ => P) N :=
  .bind (define_leads h) (define_decides h) (fun hx => absurd (hx.symm.trans hnew) (by decide))
    fun _ _ _ _ => .of_plain hnext fun _ _ => hP

theorem declare_decides (h : Stands σ fs result frame Γ d) (x : Ident) (type : TypeExpr)
    (init : Option Expr) (span : Span) :
    DecidesStmt σ fs result Γ d (.declare x type init span) (declare x type init) := by
  unfold declare
  by_cases hvoid : type.ty.isVoid = true
  · simp only [hvoid, ↓reduceIte]
    exact .reject_bind fun (.declare hty _ _) => hty (eq_of_beq hvoid)
  · have hty : type.ty ≠ .void := fun heq => hvoid (by rw [heq]; rfl)
    simp only [hvoid, Bool.false_eq_true, ↓reduceIte]
    refine .step (a := σ.working d) rfl ?_
    change σ.Decides (if d.scopes.definedHere x.text = true then _ else _) _ _ _
    rw [h.scopes.definedHere]
    by_cases hdefined : Γ.definedHere x.text = true
    · rw [if_pos hdefined]
      exact .reject_bind fun (.declare _ hnot _) => by simp [hdefined] at hnot
    · rw [if_neg hdefined]
      have hnot : Γ.definedHere x.text = false := by simpa using hdefined
      cases init with
      | none =>
        refine .step (show (Option.mapM (initial type.ty) none).run (σ.working d) =
          (.ok none, σ.working d) from rfl) ?_
        refine .after (freshSlot_leads h.ready h.frame x.text hty) (.build _)
          fun slot d₁ ⟨_, hacts⟩ => ?_
        have hnew : d₁.scopes.definedHere x.text = false := by
          rw [hacts.straight.scopes, h.scopes.definedHere, hnot]
        exact define_new hacts.ready.scopes hnew (.pure _) (.declare hty hnot (by simp))
      | some e =>
        have hleads : σ.Leads (Option.mapM (initial type.ty) (some e)) d fun v? d₁ =>
            ∃ v, v? = some v ∧ σ.Straight d d₁ :=
          .map ((exprAs_leads h.ready e (by simp [LoweringError.IsUserFacing])).mono
            fun v d₁ hv => ⟨v, rfl, hv.straight⟩)
        have hdecides : σ.Decides (initial type.ty e) d (fun _ _ => ExprFits fs Γ e type.ty)
            (¬ExprFits fs Γ e type.ty) :=
          exprAs_decides h.knows h.ready h.scopes e
        refine .bind hleads (.map (S := fun _ _ => ExprFits fs Γ e type.ty) hdecides)
          (fun hno (.declare _ _ hinit) => hno (hinit e rfl)) fun v? d₁ ⟨v, hv?, hv⟩ hfits => ?_
        subst hv?
        refine .after (freshSlot_leads hv.ready (hv.work.frame.trans h.frame) x.text hty)
          (.build _) fun slot d₂ ⟨_, hacts⟩ => ?_
        have hnew : d₂.scopes.definedHere x.text = false := by
          rw [hacts.straight.scopes, hv.scopes, h.scopes.definedHere, hnot]
        refine define_new hacts.ready.scopes hnew (.build _) (.declare hty hnot ?_)
        rintro _ ⟨⟩
        exact hfits

theorem ret_decides (h : Stands σ fs result frame Γ d) (value : Option Expr) (span : Span) :
    DecidesStmt σ fs result Γ d (.ret value span) (ret value) := by
  unfold ret
  refine .step (a := σ.working d) rfl ?_
  have hframe' : (σ.working d).frame = some frame := h.frame
  simp only [hframe']
  cases value with
  | none =>
    exact .of_plain ((Rejects.build _).bind fun _ => .continueUnreachable _) fun _ _ => .ret
  | some e =>
    have hsome := h.result_isSome
    cases hresult : frame.result with
    | none =>
      exact .reject_bind fun (.retAs hne _) => by simp [hresult, hne] at hsome
    | some slot =>
      have hne : result ≠ .void := hsome.1 (by simp [hresult])
      refine .bind (expr_leads h.ready e) (expr_decides h.knows h.ready h.scopes e)
        (fun hno (.retAs _ he) => hno.not_fits he) ?_
      rintro v d₁ ⟨_, hv⟩ ⟨source, hsource, he⟩
      have hret : d₁.function.ret = result := hv.straight.work.continues.ret.trans h.ret
      have hiff := ExprFits.of_typed h.knows.names he result
      refine .step ret_run ?_
      rw [hret]
      refine .bind (coerce_leads hv.ready (by simp [LoweringError.IsUserFacing]) hsource)
        (coerce_decides hv.ready hsource) ?_ fun v' d₂ _ hconverts => ?_
      · intro hno (.retAs _ hfits)
        exact hno (hiff.1 hfits)
      exact .of_plain ((Rejects.build _).bind fun _ => (Rejects.build _).bind fun _ =>
        .continueUnreachable _) fun _ _ => .retAs hne (hiff.2 hconverts)

/-! ### Nested statements -/

abbrev DecidesStmts (σ : Site) (fs : List FunctionDecl) (result : Ty) (frame : BodyFrame)
    (Γ : Context) (ss : List Stmt) : Prop :=
  ∀ {d : Draft}, Stands σ fs result frame Γ d →
    σ.Decides (stmts ss) d (fun _ _ => StmtsTyped fs result Γ ss) (¬StmtsTyped fs result Γ ss)

theorem block_decides (h : Stands σ fs result frame Γ d) {ss : List Stmt}
    (hss : DecidesStmts σ fs result frame Γ.enter ss) :
    σ.Decides (nested (stmts ss)) d (fun _ _ => StmtsTyped fs result Γ.enter ss)
      (¬StmtsTyped fs result Γ.enter ss) :=
  .nested (hss h.nest)

/-- Work goes on in a new block, to which the current one leads. -/
theorem jump_decides {α : Type} {base : Draft} {W L : List BlockId} {label : String}
    {next : BlockId → Lower α} {Q : α → Draft → Prop} {N : Prop} (hw : σ.Work base W L d)
    (hopen : d.function.IsOpen d.block)
    (hnext : ∀ id d', Enters σ base W L d id d' → σ.Decides (next id) d' Q N) :
    σ.Decides (do
      let id ← newBlock label
      build (Build.br id)
      build (Build.switchTo id)
      next id) d Q N := by
  refine .after (newBlock_leads hw _) (.newBlock _) fun id d₁ h₁ => ?_
  have hid : id.index < d₁.function.blocks.size := h₁.work.waiting_lt (by simp)
  refine .after (br_leads h₁.work (h₁.isOpen.2 hopen) hid) (.build _) fun _ d₂ h₂ => ?_
  refine .after (switchTo_leads h₂.work h₂.closed (.refl (id :: W))) (.build _) fun _ d₃ h₃ => ?_
  exact hnext id d₃ { h₃ with
    scopes := h₃.scopes.trans (h₂.scopes.trans h₁.scopes)
    continues := h₁.continues.trans (h₂.continues.trans h₃.continues)
    globals := h₃.globals.trans (h₂.globals.trans h₁.globals) }

theorem loop_decides (h : Stands σ fs result frame Γ d) {body : List Stmt} (c : Expr) (span : Span)
    (hbody : DecidesStmts σ fs result frame Γ.enter body) :
    DecidesStmt σ fs result Γ d (.loop body c span) (stmt (.loop body c span)) := by
  unfold stmt
  refine jump_decides (.refl h.ready) h.ready.isOpen fun first d₁ h₁ => ?_
  have st₁ := h.follow h₁.work h₁.isOpen h₁.continues h₁.work.frame h₁.scopes
  refine .bind (block_leads h₁.ready st₁.frame fun hd hf => stmts_leads hd hf body)
    (block_decides st₁ hbody) (fun hno (.loop hbody _) => hno hbody) fun _ d₂ h₂ hbody => ?_
  refine jump_decides (h₁.work.trans h₂.work) h₂.isOpen fun test d₃ h₃ => ?_
  have st₃ := st₁.follow h₃.work h₃.isOpen (h₂.work.continues.trans h₃.continues)
    (h₃.work.frame.trans h₁.work.frame.symm) (h₃.scopes.trans h₂.scopes)
  refine .bind (condition_leads h₃.ready c) (condition_decides h.knows h₃.ready st₃.scopes c)
    (fun hno (.loop _ hc) => hno hc) fun t d₄ _ hc => ?_
  have htail : Plain (do
      let after ← build (Build.createBlock "loop.after")
      build (Build.condBr t first after)
      build (Build.appendBlock after)
      build (Build.switchTo after)) :=
    (Rejects.build _).bind fun _ => (Rejects.build _).bind fun _ => (Rejects.build _).bind fun _ =>
      .build _
  exact .of_plain htail fun _ _ => .loop hbody hc

abbrev DecidesCases (σ : Site) (fs : List FunctionDecl) (result : Ty) (frame : BodyFrame)
    (Γ : Context) (cs : List Case) : Prop :=
  ∀ {d : Draft} {exit : BlockId}, Stands σ fs result frame Γ d →
    exit.index < d.function.blocks.size →
    σ.Decides (cases exit cs) d (fun _ _ => CasesTyped fs result Γ cs)
      (¬CasesTyped fs result Γ cs)

theorem case_decides (h : Stands σ fs result frame Γ d) {exit : BlockId}
    (hexit : exit.index < d.function.blocks.size) (c : Expr) {body : List Stmt} {rest : List Case}
    (hbody : DecidesStmts σ fs result frame Γ.enter body)
    (hrest : DecidesCases σ fs result frame Γ rest) :
    σ.Decides (cases exit (.mk c body :: rest)) d
      (fun _ _ => CasesTyped fs result Γ (.mk c body :: rest))
      (¬CasesTyped fs result Γ (.mk c body :: rest)) := by
  unfold cases
  refine .bind (condition_leads h.ready c) (condition_decides h.knows h.ready h.scopes c)
    (fun hno (.cons hc _ _) => hno hc) fun t d₁ ht hc => ?_
  refine .after (createBlock_leads ht.straight.work _) (.build _) fun next d₂ h₂ => ?_
  refine .after (newBlock_leads h₂.work _) (.newBlock _) fun first d₃ h₃ => ?_
  have hopen₃ := h₃.isOpen.2 (h₂.isOpen.2 ht.straight.isOpen)
  have hty₃ := h₃.continues.typeOf (h₂.continues.typeOf ht.typeOf)
  refine .after (condBr_leads h₃.work hopen₃ hty₃ (t := first) (e := next)
    (h₃.work.waiting_lt (by simp)) (h₃.work.waiting_lt (by simp))) (.build _) fun _ d₄ h₄ => ?_
  refine .after (switchTo_leads h₄.work h₄.closed (.refl [first, next])) (.build _)
    fun _ d₅ h₅ => ?_
  have hscopes₅ : d₅.scopes = d.scopes :=
    h₅.scopes.trans (h₄.scopes.trans (h₃.scopes.trans (h₂.scopes.trans ht.straight.scopes)))
  have st₅ := h.follow h₅.work h₅.isOpen h₅.work.continues h₅.work.frame hscopes₅
  refine .bind (block_leads h₅.ready st₅.frame fun hd hf => stmts_leads hd hf body)
    (block_decides st₅ hbody) (fun hno (.cons _ hb _) => hno hb) fun _ d₆ h₆ hb => ?_
  have hw₆ := h₅.work.trans h₆.work
  refine .after (br_leads hw₆ h₆.isOpen (hw₆.lt_size hexit)) (.build _) fun _ d₇ h₇ => ?_
  refine .after (appendBlock_leads h₇.work) (.build _) fun _ d₈ h₈ => ?_
  refine .after (switchTo_leads h₈.work (mt h₈.isOpen.1 h₇.closed) (.refl [next])) (.build _)
    fun _ d₉ h₉ => ?_
  have hscopes₉ : d₉.scopes = d.scopes :=
    h₉.scopes.trans (h₈.scopes.trans (h₇.scopes.trans (h₆.scopes.trans hscopes₅)))
  have st₉ := h.follow h₉.work h₉.isOpen h₉.work.continues h₉.work.frame hscopes₉
  exact (hrest st₉ (h₉.work.lt_size hexit)).mono (fun _ _ hr => .cons hc hb hr)
    fun hno (.cons _ _ hr) => hno hr

theorem branch_decides (h : Stands σ fs result frame Γ d) (lead : Ident) {cs : List Case}
    {otherwise : Option (List Stmt)} (span : Span)
    (hcases : DecidesCases σ fs result frame Γ cs)
    (hbody : ∀ body ∈ otherwise, DecidesStmts σ fs result frame Γ.enter body) :
    DecidesStmt σ fs result Γ d (.branch lead cs otherwise span)
      (stmt (.branch lead cs otherwise span)) := by
  unfold stmt
  refine .after (createBlock_leads (.refl h.ready) _) (.build _) fun exit d₁ h₁ => ?_
  refine jump_decides h₁.work (h₁.isOpen.2 h.ready.isOpen) fun first d₂ h₂ => ?_
  have st₂ := h.follow h₂.work h₂.isOpen h₂.work.continues h₂.work.frame
    (h₂.scopes.trans h₁.scopes)
  have hexit := h₂.work.waiting_lt (List.mem_singleton_self exit)
  have htail : Plain (do
      build (Build.br exit)
      build (Build.appendBlock exit)
      build (Build.switchTo exit)) :=
    (Rejects.build _).bind fun _ => (Rejects.build _).bind fun _ => .build _
  refine .bind (cases_leads h₂.ready st₂.frame hexit cs) (hcases st₂ hexit) ?_
    fun _ d₃ h₃ hcs => ?_
  · rintro hno (_ | _ | _ | _ | _ | _ | _ | _ | hcs | ⟨hcs, -⟩ | _ | _) <;> exact hno hcs
  obtain ⟨hscopes₃, -⟩ := h₃.code _ _ h₃.work.sane.final
  have st₃ := st₂.follow (h₂.work.trans h₃.work) h₃.isOpen h₃.work.continues h₃.work.frame hscopes₃
  cases otherwise with
  | none => exact .of_plain htail fun _ _ => .branch hcs
  | some body =>
    refine jump_decides (h₂.work.trans h₃.work) h₃.isOpen fun other d₄ h₄ => ?_
    have st₄ := st₃.follow h₄.work h₄.isOpen h₄.continues
      (h₄.work.frame.trans (h.frame.trans st₃.frame.symm)) h₄.scopes
    exact .bind (block_leads h₄.ready st₄.frame fun hd hf => stmts_leads hd hf body)
      (block_decides st₄ (hbody body rfl)) (fun hno (.branchElse _ hb) => hno hb)
      fun _ d₅ _ hb => .of_plain htail fun _ _ => .branchElse hcs hb

/-! ### All statements -/

mutual

theorem stmt_decides {σ : Site} {d : Draft} {frame : BodyFrame} {Γ : Context}
    (h : Stands σ fs result frame Γ d) (s : Stmt) : DecidesStmt σ fs result Γ d s (stmt s) := by
  match s with
  | .assert c span =>
    unfold stmt
    exact assert_decides h c span
  | .read x span =>
    unfold stmt
    exact read_decides h x span
  | .abort span =>
    unfold stmt
    exact .of_plain (Rejects.abort.bind fun _ => .continueUnreachable _) fun _ _ => .abort
  | .call callee args span =>
    unfold stmt
    refine .discard ((expr_decides h.knows h.ready h.scopes (.call callee args span)).mono
      (fun _ _ hv => hv) fun hno (.call hty) => hno _ hty) fun v d' ⟨ty, _, hty⟩ => .call hty
  | .print e span =>
    unfold stmt
    exact print_decides h e span
  | .assign x e span =>
    unfold stmt
    exact assign_decides h x e span
  | .declare x type init span =>
    unfold stmt
    exact declare_decides h x type init span
  | .loop body c span => exact loop_decides h c span fun h => stmts_decides h body
  | .branch lead cs none span =>
    exact branch_decides h lead span (fun h hexit => cases_decide h hexit cs) (by simp)
  | .branch lead cs (some body) span =>
    refine branch_decides h lead span (fun h hexit => cases_decide h hexit cs)
      fun body' hbody _ h => ?_
    obtain rfl := Option.some.inj hbody
    exact stmts_decides h body
  | .ret value span =>
    unfold stmt
    exact ret_decides h value span

theorem stmts_decides {σ : Site} {d : Draft} {frame : BodyFrame} {Γ : Context}
    (h : Stands σ fs result frame Γ d) (ss : List Stmt) :
    σ.Decides (stmts ss) d (fun _ _ => StmtsTyped fs result Γ ss)
      (¬StmtsTyped fs result Γ ss) := by
  match ss with
  | [] =>
    unfold stmts
    exact .pure .nil
  | s :: rest =>
    unfold stmts
    refine .bind (stmt_leads h.ready h.frame s) (stmt_decides h s)
      (fun hno (.cons hs _) => hno hs) fun _ d₁ h₁ hs => ?_
    exact (stmts_decides (h.next h₁) rest).mono (fun _ _ hrest => .cons hs hrest)
      fun hno (.cons _ hrest) => hno hrest

theorem cases_decide {σ : Site} {d : Draft} {frame : BodyFrame} {Γ : Context} {exit : BlockId}
    (h : Stands σ fs result frame Γ d) (hexit : exit.index < d.function.blocks.size)
    (cs : List Case) :
    σ.Decides (cases exit cs) d (fun _ _ => CasesTyped fs result Γ cs)
      (¬CasesTyped fs result Γ cs) := by
  match cs with
  | [] =>
    unfold cases
    exact .pure .nil
  | .mk c body :: rest =>
    exact case_decides h hexit c (fun h => stmts_decides h body)
      fun h hexit => cases_decide h hexit rest

end

end Lower

end Quill
