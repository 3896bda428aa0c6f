import Quill.Proofs.Lowering.Instructions

/-! # Statements become code

Lowering a statement ends in an open block again. It has ended every other block that it touched,
and all blocks it made belong to the layout.
-/
namespace Quill.Lower

open Ir (Action Block BlockId Build FuncId Function Global Module Operand SlotId Slot Terminator Ty
  ValueInfo)
open Library (Direction)
open Site

variable {σ : Site} {d : Draft} {frame : BodyFrame}

/-- Where a statement has led: to an open block in which the next one continues. -/
structure Follows (σ : Site) (d : Draft) (code : Module → Function → Scopes → Spot → Prop)
    (d' : Draft) : Prop where
  work : σ.Work d [] [] d'
  isOpen : d'.function.IsOpen d'.block
  code : ∀ m f, σ.Final d' m f → code m f d'.scopes d'.spot

theorem Follows.ready {code d'} (h : Follows σ d code d') : σ.Ready d' := ⟨h.work.sane, h.isOpen⟩

theorem Follows.keepsFrame {code d'} (h : Follows σ d code d') (hframe : d.frame = some frame) :
    d'.frame = some frame :=
  h.work.frame.trans hframe

theorem Follows.ofStraight {code : Module → Function → Scopes → Spot → Prop} {d' : Draft}
    (h : σ.Straight d d') (hcode : ∀ m f, σ.Final d' m f → code m f d.scopes d'.spot) :
    Follows σ d code d' :=
  ⟨h.work, h.isOpen, fun m f hf => h.scopes ▸ hcode m f hf⟩

abbrev FollowsStmt (σ : Site) (d : Draft) (frame : BodyFrame) (s : Stmt) : Draft → Prop :=
  Follows σ d fun m f => StmtCode m σ.state.functions f frame s d.scopes d.spot

theorem abort_leads (h : σ.Ready d) :
    σ.Leads abort d fun _ d' => σ.Work d [] [] d' ∧ ¬d'.function.IsOpen d'.block ∧
      d'.scopes = d.scopes ∧ ∀ m f, σ.Final d' m f → AbortCode f d.spot := by
  have hfunction : (σ.builder d).module.function ⟨2⟩ = .ok Library.abortFunction :=
    Ir.entry_eq_ok.2 isIn_builder.abort
  have hrun : (build (Build.call ⟨2⟩ [])).run (σ.working d) =
      (.ok .void, σ.working (d.emit (.call ⟨2⟩ []) none)) :=
    build_run (call_run h.isOpen hfunction [])
  have hcall : σ.Straight d (d.emit (.call ⟨2⟩ []) none) := .emit h fun m f hf =>
    Function.check_call hf.outside.abort (.inl rfl) fun k v hv => by simp at hv
  have hlibrary : (σ.working d).library.abort = ⟨2⟩ := by
    simp only [Site.working, σ.library]
  unfold abort
  refine .step (a := σ.working d) rfl ?_
  rw [hlibrary]
  have hdiscard : σ.Leads (discard (build (Build.call ⟨2⟩ []))) d fun _ d₁ =>
      d₁ = d.emit (.call ⟨2⟩ []) none :=
    .discard (.of_run (Q := fun _ d₁ => d₁ = d.emit (.call ⟨2⟩ []) none) hrun rfl) fun _ _ hd => hd
  refine hdiscard.bind fun _ d₁ hd₁ => ?_
  obtain rfl := hd₁
  refine (ends_of_work hcall.isOpen (hcall.work.unreachable hcall.isOpen)).mono fun _ d' he => ?_
  refine ⟨he.work, he.closed, he.scopes, fun m f hf => ?_⟩
  refine ⟨(he.earlier hf).performs h.isOpen, ?_⟩
  rw [← Draft.spot_emit h.isOpen]
  exact he.ends m f hf

theorem assert_leads (h : σ.Ready d) (c : Expr) (span : Span) :
    σ.Leads (assert c) d fun _ => FollowsStmt σ d frame (.assert c span) := by
  unfold assert
  refine (newBlock_leads (.refl h) _).bind fun check d₁ h₁ => ?_
  refine (newBlock_leads h₁.work _).bind fun fail d₂ h₂ => ?_
  refine (newBlock_leads h₂.work _).bind fun success d₃ h₃ => ?_
  have hopen₃ := h₃.isOpen.2 (h₂.isOpen.2 (h₁.isOpen.2 h.isOpen))
  have hcheck : check.index < d₃.function.blocks.size := h₃.work.waiting_lt (by simp)
  refine (br_leads h₃.work hopen₃ hcheck).bind fun _ d₄ h₄ => ?_
  refine (switchTo_leads h₄.work h₄.closed (List.perm_append_singleton check [_, _])).bind
    fun _ d₅ h₅ => ?_
  refine (condition_leads h₅.ready c).bind fun t d₆ ht => ?_
  have hw₆ := h₅.work.trans ht.straight.work
  have hsuccess : success.index < d₆.function.blocks.size := hw₆.waiting_lt (by simp)
  have hfail : fail.index < d₆.function.blocks.size := hw₆.waiting_lt (by simp)
  refine (condBr_leads hw₆ ht.straight.isOpen ht.typeOf hsuccess hfail).bind fun _ d₇ h₇ => ?_
  refine (switchTo_leads h₇.work h₇.closed (.swap fail success [])).bind fun _ d₈ h₈ => ?_
  refine (abort_leads h₈.ready).bind fun _ d₉ ⟨habort, hclosed, hscopes, hcode⟩ => ?_
  refine (switchTo_leads (h₈.work.trans habort) hclosed (.refl [success])).mono fun _ d' h' => ?_
  refine ⟨h'.work, h'.isOpen, fun m f hf => ?_⟩
  have hf₉ := h'.earlier hf
  have hf₇ := h₈.earlier (habort.earlier hf₉)
  have hf₆ := h₇.earlier hf₇
  have hf₄ := h₅.earlier (ht.straight.earlier hf₆)
  have hends := h₄.ends m f hf₄
  have hcheck := ht.code m f hf₆
  have hfailed := hcode m f hf₉
  obtain ⟨n₁, hn₁⟩ := h₅.spot
  obtain ⟨n₂, hn₂⟩ := h₈.spot
  obtain ⟨n₃, hn₃⟩ := h'.spot
  rw [h₃.spot, h₂.spot, h₁.spot] at hends
  rw [hn₁, h₅.scopes, h₄.scopes, h₃.scopes, h₂.scopes, h₁.scopes] at hcheck
  rw [hn₂] at hfailed
  rw [hn₃, h'.scopes, hscopes, h₈.scopes, h₇.scopes, ht.straight.scopes, h₅.scopes, h₄.scopes,
    h₃.scopes, h₂.scopes, h₁.scopes]
  exact .assert hends hcheck (h₇.ends m f hf₇) hfailed

/-! ### Variables and the outside -/

theorem variable_slot (h : σ.Ready d) {x : String} {slot : SlotId}
    (hx : d.scopes.find? x = some slot) :
    ∃ ty, d.function.HasSlot slot ty ∧ ty ≠ .void ∧
      (slotTy slot).run (σ.working d) = (.ok ty, σ.working d) := by
  obtain ⟨ty, name, hname⟩ := hasSlot_of_find? h hx
  exact ⟨ty, ⟨name, hname⟩, h.slots _ _ hname, slotTy_run hname⟩

theorem typeOf_slotAddr {f : Function} {slot : SlotId} {ty : Ty} (h : f.HasSlot slot ty) :
    f.typeOf (.slotAddr slot) = .ok (.pointerTo ty.prim) := by
  obtain ⟨name, hname⟩ := h
  simp [Function.typeOf, Function.slot, Ir.entry, hname, Functor.map, Except.map]

theorem assign_leads (h : σ.Ready d) (x : Ident) (e : Expr) (span : Span) :
    σ.Leads (assign x e) d fun _ => FollowsStmt σ d frame (.assign x e span) := by
  unfold assign
  refine (expr_leads h e).bind fun v d₁ hv => ?_
  obtain ⟨source, hv⟩ := hv
  refine .step (find?_run x.text) ?_
  cases hx : d₁.scopes.find? x.text with
  | none => exact .reject
  | some slot =>
    obtain ⟨ty, hslot, -, hrun⟩ := variable_slot hv.ready hx
    refine .step hrun ?_
    refine (coerce_leads hv.ready (by simp [LoweringError.IsUserFacing]) hv.typeOf).bind
      fun v' d₂ hv' => ?_
    have hslot₂ := hv'.straight.work.continues.hasSlot hslot
    refine (store_leads hv'.ready hslot₂ hv'.typeOf).mono fun _ d' hs => ?_
    refine .ofStraight (hv.straight.trans (hv'.straight.trans hs.straight)) fun m f hf => ?_
    have hf₂ := hs.straight.earlier hf
    have hf₁ := hv'.straight.earlier hf₂
    obtain ⟨hcode, hspot⟩ := hs.code m f hf
    rw [hspot]
    rw [hv.straight.scopes] at hx
    exact .assign hx (hf₁.continues.hasSlot hslot)
      ⟨v, d₁.spot, source, hv.code m f hf₁, hf₁.continues.typeOf hv.typeOf, hv'.code m f hf₂⟩ hcode

/-- The room of a new variable, as long as the same variables are in sight. -/
theorem freshSlot_leads (h : σ.Ready d) (hframe : d.frame = some frame) (name : String) {ty : Ty}
    (hty : ty ≠ .void) :
    σ.Leads (build (Build.alloca name ty)) d fun slot d' => d'.function.HasSlot slot ty ∧
      Acts σ d (fun _ f p q => FreshSlot f frame d.scopes slot ty ∧ f.Performs p (.alloca slot) ∧
        q = p.next) d' := by
  obtain ⟨hunbound, hresult⟩ := nextSlot_fresh h hframe
  refine (alloca_leads h name hty).mono fun slot d' ⟨hslot, htype, hacts⟩ => ?_
  subst hslot
  exact ⟨htype, hacts.straight, fun m f hf =>
    ⟨⟨hf.continues.hasSlot htype, hty, hunbound, hresult⟩, hacts.code m f hf⟩⟩

theorem promote_leads (h : σ.Ready d) {v : Operand} {ty : Ty} (hv : d.function.typeOf v = .ok ty)
    (hty : ty.isNumber) :
    σ.Leads (promote v ty) d fun v' d' =>
      ∃ ty', ty' ≠ .void ∧ Gives σ d (fun _ f => PromoteCode f ty v) ty' v' d' := by
  have hvoid := Ty.ne_void_of_isNumber hty
  unfold promote
  by_cases hint : ty.isInt = true ∧ ty.bits < 32
  · have hlegal : Ir.CastOp.isLegal .zext ty .i32 = true := by
      have hword : Ty.isInt .i32 = true ∧ Ty.bits .i32 = 32 := ⟨rfl, rfl⟩
      simp only [Ir.CastOp.isLegal, hint.1, hint.2, hword.1, hword.2, decide_true, Bool.and_self]
    have hcond : (ty.isInt && decide (ty.bits < 32)) = true := by simp [hint.1, hint.2]
    rw [if_pos hcond]
    refine (cast_leads h hv hlegal hvoid (by decide)).mono fun v' d' hg => ?_
    exact ⟨.i32, by decide, hg.straight, hg.typeOf, fun m f hf => .whole hint.1 hint.2 (hg.code m f hf)⟩
  · have hcond : (ty.isInt && decide (ty.bits < 32)) = false := by
      simpa using fun hi => Nat.le_of_not_lt fun hb => hint ⟨hi, hb⟩
    simp only [hcond, Bool.false_eq_true, ↓reduceIte]
    by_cases hf32 : ty = .f32
    · subst hf32
      rw [if_pos rfl]
      refine (cast_leads h hv rfl hvoid (by decide)).mono fun v' d' hg => ?_
      exact ⟨.f64, by decide, hg.straight, hg.typeOf, fun m f hf => .fraction rfl (hg.code m f hf)⟩
    · rw [if_neg hf32]
      exact .pure ⟨ty, hvoid, .refl h, hv, fun _ _ _ => .same hint hf32⟩

theorem print_leads (h : σ.Ready d) (e : Expr) (span : Span) :
    σ.Leads (print e) d fun _ => FollowsStmt σ d frame (.print e span) := by
  unfold print
  refine (expr_leads h e).bind fun v d₁ hv => ?_
  obtain ⟨ty, hv⟩ := hv
  refine .step (typeOf_lower_run hv.typeOf) ?_
  rw [Ty.not_isNumber]
  by_cases hty : ty.isNumber = true
  case neg =>
    simp only [hty, Bool.not_false, ↓reduceIte]
    exact .reject_bind
  case pos =>
    simp only [hty, Bool.not_true, Bool.false_eq_true, ↓reduceIte]
    refine (promote_leads hv.ready hv.typeOf hty).bind fun v' d₂ hv' => ?_
    obtain ⟨ty', hty', hv'⟩ := hv'
    refine (format_leads hv'.ready .output hty).bind fun format d₃ hacts => ?_
    obtain ⟨hformat, hacts⟩ := hacts
    refine .step (a := σ.working d₃) rfl ?_
    have hid : (σ.working d₃).library.print = Library.printId := by
      simp only [Site.working, σ.library, Library.printId]
    rw [hid]
    refine .discard (libraryCall_leads hacts.ready (.inl rfl) hformat
      (hacts.straight.typeOf hv'.typeOf) hty') fun w d' hw => ?_
    refine .ofStraight (hv.straight.trans (hv'.straight.trans
      (hacts.straight.trans hw.straight))) fun m f hf => ?_
    have hf₃ := hw.straight.earlier hf
    have hf₂ := hacts.straight.earlier hf₃
    have hf₁ := hv'.straight.earlier hf₂
    obtain ⟨hcode, -, hspot⟩ := hw.code m f hf
    obtain ⟨hglobal, hsame⟩ := hacts.code m f hf₃
    rw [hsame] at hcode hspot
    rw [hspot]
    exact .print (hv.code m f hf₁) (hf₁.continues.typeOf hv.typeOf) hty (hv'.code m f hf₂) hglobal
      hcode

theorem readCall_leads (h : σ.Ready d) {format : Operand}
    (hformat : d.function.typeOf format = .ok (.pointerTo .i8)) {slot : SlotId} {ty : Ty}
    (hslot : d.function.HasSlot slot ty) :
    σ.Leads (discard (build (Build.call Library.readId [format, .slotAddr slot]))) d fun _ =>
      Acts σ d fun _ f p q => f.Computes p (.call Library.readId [format, .slotAddr slot]) .i32 ∧
        q = p.past :=
  .discard (libraryCall_leads h (.inr rfl) hformat (typeOf_slotAddr hslot)
    (by simp [Ty.pointerTo, Ty.void])) fun _ _ hw =>
    ⟨hw.straight, fun m f hf => ⟨(hw.code m f hf).1, (hw.code m f hf).2.2⟩⟩

theorem readTruth_leads (h : σ.Ready d) (hframe : d.frame = some frame) {format : Operand}
    (hformat : d.function.typeOf format = .ok (.pointerTo .i8)) {slot : SlotId}
    (hslot : d.function.HasSlot slot .i1) :
    σ.Leads (do
      let word ← build (Build.alloca "input" .i32)
      discard (build (Build.call Library.readId [format, .slotAddr word]))
      let v ← build (Build.load word)
      let v ← build (Build.compare .ine v (.zero .i32))
      build (Build.store slot v)) d fun _ => Acts σ d fun m f p q =>
        m.HasFormat .i1 .input format → ReadCode m f frame d.scopes slot .i1 p q := by
  refine (freshSlot_leads h hframe "input" (show Ty.i32 ≠ .void by decide)).bind
    fun word d₁ ⟨hword, h₁⟩ => ?_
  refine (readCall_leads h₁.ready (h₁.straight.typeOf hformat) hword).bind fun _ d₂ h₂ => ?_
  refine (load_leads h₂.ready (h₂.straight.work.continues.hasSlot hword)).bind fun v d₃ h₃ => ?_
  refine (compare_leads h₃.ready h₃.typeOf (Ir.typeOf_zero _ _) (by decide) rfl).bind
    fun t d₄ h₄ => ?_
  have hstraight := (h₁.straight.trans h₂.straight).trans (h₃.straight.trans h₄.straight)
  refine (store_leads h₄.ready (hstraight.work.continues.hasSlot hslot) h₄.typeOf).mono
    fun _ d' hs => ⟨hstraight.trans hs.straight, fun m f hf hglobal => ?_⟩
  have hf₄ := hs.straight.earlier hf
  have hf₃ := h₄.straight.earlier hf₄
  have hf₂ := h₃.straight.earlier hf₃
  have hf₁ := h₂.straight.earlier hf₂
  obtain ⟨hfresh, halloca, hspot₁⟩ := h₁.code m f hf₁
  obtain ⟨hcall, hspot₂⟩ := h₂.code m f hf₂
  obtain ⟨hload, rfl, hspot₃⟩ := h₃.code m f hf₃
  obtain ⟨hcompare, rfl, hspot₄⟩ := h₄.code m f hf₄
  obtain ⟨hstore, hspot⟩ := hs.code m f hf
  rw [hspot₁] at hcall hspot₂
  rw [hspot₂] at hload hspot₃ hcompare
  rw [hspot₃] at hcompare hspot₄ hstore
  rw [hspot₄] at hspot hstore
  rw [hspot]
  exact .bool rfl hglobal hfresh halloca hcall hload hcompare hstore

theorem read_leads (h : σ.Ready d) (hframe : d.frame = some frame) (x : Ident) (span : Span) :
    σ.Leads (read x) d fun _ => FollowsStmt σ d frame (.read x span) := by
  unfold read
  refine .step (find?_run x.text) ?_
  cases hx : d.scopes.find? x.text with
  | none => exact .reject
  | some slot =>
    obtain ⟨ty, hslot, -, hrun⟩ := variable_slot h hx
    refine .step hrun ?_
    rw [Ty.not_isNumber]
    by_cases hty : ty.isNumber = true
    case neg =>
      simp only [hty, Bool.not_false, ↓reduceIte]
      exact .reject_bind
    case pos =>
      simp only [hty, Bool.not_true, Bool.false_eq_true, ↓reduceIte]
      refine (format_leads h .input hty).bind fun format d₁ ⟨hformat, h₁⟩ => ?_
      refine .step (a := σ.working d₁) rfl ?_
      have hid : (σ.working d₁).library.read = Library.readId := by
        simp only [Site.working, σ.library, Library.readId]
      rw [hid]
      have hslot₁ := h₁.straight.work.continues.hasSlot hslot
      by_cases hi1 : ty = .i1
      · subst hi1
        rw [if_pos rfl]
        refine (readTruth_leads h₁.ready (h₁.straight.work.frame.trans hframe) hformat hslot₁).mono
          fun _ d' h' => .ofStraight (h₁.straight.trans h'.straight) fun m f hf => ?_
        have hf₁ := h'.straight.earlier hf
        obtain ⟨hglobal, hsame⟩ := h₁.code m f hf₁
        have hcode := h'.code m f hf hglobal
        rw [hsame, h₁.straight.scopes] at hcode
        exact .read hx (hf₁.continues.hasSlot hslot₁) hcode
      · rw [if_neg hi1]
        refine (readCall_leads h₁.ready hformat hslot₁).mono
          fun _ d' h' => .ofStraight (h₁.straight.trans h'.straight) fun m f hf => ?_
        have hf₁ := h'.straight.earlier hf
        obtain ⟨hglobal, hsame⟩ := h₁.code m f hf₁
        obtain ⟨hcode, hspot⟩ := h'.code m f hf
        rw [hsame] at hcode hspot
        rw [hspot]
        exact .read hx (hf₁.continues.hasSlot hslot₁) (.number hi1 hty hglobal hcode)

/-- The innermost frame gets the variable, which is kept in the slot made for it. -/
theorem define_work {base : Draft} {x : Ident} {slot : SlotId} {ty : Ty}
    (hw : σ.Work base [] [] d) (hslot : d.function.HasSlot slot ty) :
    σ.Leads (define x slot) d fun _ d' => σ.Work base [] [] d' ∧ d' = d.bind x.text slot ∧
      d.scopes.definedHere x.text = false := by
  obtain ⟨name, hname⟩ := hslot
  refine (define_leads hw.sane.scopes).mono fun _ d' ⟨hd, hnew⟩ => ?_
  subst hd
  exact ⟨hw.bind _ (Array.getElem?_eq_some_iff.1 hname).1, rfl, hnew⟩

theorem declare_leads (h : σ.Ready d) (hframe : d.frame = some frame) (x : Ident)
    (type : TypeExpr) (init : Option Expr) (span : Span) :
    σ.Leads (declare x type init) d fun _ => FollowsStmt σ d frame (.declare x type init span) := by
  unfold declare
  by_cases hvoid : type.ty.isVoid = true
  · simp only [hvoid, ↓reduceIte]
    exact .reject_bind
  · have hty : type.ty ≠ .void := fun heq => hvoid (by rw [heq]; rfl)
    simp only [hvoid, Bool.false_eq_true, ↓reduceIte]
    refine .step (a := σ.working d) rfl ?_
    by_cases hdefined : d.scopes.definedHere x.text = true
    · have : (σ.working d).scopes.definedHere x.text = true := hdefined
      simp only [this, ↓reduceIte]
      exact .reject_bind
    · have hnot : d.scopes.definedHere x.text = false := by simpa using hdefined
      have : (σ.working d).scopes.definedHere x.text = false := hnot
      simp only [this, Bool.false_eq_true, ↓reduceIte]
      cases init with
      | none =>
        have hnone : (Option.mapM (initial type.ty) none).run (σ.working d) =
            (.ok none, σ.working d) := rfl
        refine .step hnone ?_
        refine (freshSlot_leads h hframe x.text hty).bind fun slot d₁ ⟨hslot, hacts⟩ => ?_
        refine (define_work hacts.straight.work hslot).bind fun _ d' ⟨hw, hd', _⟩ => .pure ?_
        subst hd'
        refine ⟨hw, hacts.straight.isOpen, fun m f hf => ?_⟩
        obtain ⟨hfresh, halloca, hspot⟩ := hacts.code m f (hf.of_same rfl rfl)
        have hscopes : (d₁.bind x.text slot).scopes = d.scopes.bind x.text slot :=
          congrArg (Scopes.bind · x.text slot) hacts.straight.scopes
        rw [hscopes, show (d₁.bind x.text slot).spot = d.spot.next from hspot]
        exact .declare hnot hfresh halloca
      | some e =>
        have hinit : σ.Leads (Option.mapM (initial type.ty) (some e)) d fun v? d₁ => ∃ v, v? = some v ∧
            Gives σ d (fun m f => CoerceCode m σ.state.functions f d.scopes e type.ty) type.ty v d₁ :=
          .map ((exprAs_leads h e (by simp [LoweringError.IsUserFacing])).mono
            fun v d₁ hv => ⟨v, rfl, hv⟩)
        refine hinit.bind fun v? d₁ ⟨v, hv?, hv⟩ => ?_
        subst hv?
        refine (freshSlot_leads hv.ready (hv.straight.work.frame.trans hframe) x.text hty).bind
          fun slot d₂ ⟨hslot, hacts⟩ => ?_
        have hstraight := hv.straight.trans hacts.straight
        refine (define_work hstraight.work hslot).bind fun _ d₃ ⟨hw, hd₃, _⟩ => ?_
        subst hd₃
        have hready : σ.Ready (d₂.bind x.text slot) := ⟨hw.sane, hstraight.isOpen⟩
        refine (store_leads hready hslot (hacts.straight.typeOf hv.typeOf)).mono fun _ d' hs => ?_
        refine ⟨hw.trans hs.straight.work, hs.straight.isOpen, fun m f hf => ?_⟩
        have hf₂ : σ.Final d₂ m f := (hs.straight.earlier hf).of_same rfl rfl
        obtain ⟨hfresh, halloca, hspot₂⟩ := hacts.code m f hf₂
        obtain ⟨hstore, hspot⟩ := hs.code m f hf
        rw [show (d₂.bind x.text slot).spot = d₁.spot.next from hspot₂] at hspot hstore
        rw [hv.straight.scopes] at hfresh
        have hscopes : d'.scopes = d.scopes.bind x.text slot :=
          hs.straight.scopes.trans (congrArg (Scopes.bind · x.text slot) hstraight.scopes)
        rw [hscopes, hspot]
        exact .declareAs (hv.code m f (hacts.straight.earlier hf₂)) hnot hfresh halloca hstore

/-! ### Leaving the body -/

theorem ret_leads (h : σ.Ready d) (hframe : d.frame = some frame) (value : Option Expr)
    (span : Span) :
    σ.Leads (ret value) d fun _ => FollowsStmt σ d frame (.ret value span) := by
  unfold ret
  refine .step (a := σ.working d) rfl ?_
  have hframe' : (σ.working d).frame = some frame := hframe
  simp only [hframe']
  cases value with
  | none =>
    refine (br_leads (.refl h) h.isOpen (h.exit frame hframe)).bind fun _ d₁ h₁ => ?_
    refine (continueUnreachable_leads h₁.work h₁.closed _).mono fun _ d' h' => ?_
    obtain ⟨dead, h'⟩ := h'
    refine ⟨h'.work, h'.isOpen, fun m f hf => ?_⟩
    obtain ⟨n, hn⟩ := h'.spot
    rw [hn, h'.scopes, h₁.scopes]
    exact .ret (h₁.ends m f (h'.earlier hf))
  | some e =>
    cases hresult : frame.result with
    | none => exact .reject_bind
    | some slot =>
      refine (expr_leads h e).bind fun v d₁ hv => ?_
      obtain ⟨source, hv⟩ := hv
      refine .step ret_run ?_
      refine (coerce_leads hv.ready (by simp [LoweringError.IsUserFacing]) hv.typeOf).bind
        fun v' d₂ hv' => ?_
      have hret : d₁.function.ret = d.function.ret := hv.straight.work.continues.ret
      have hfits := h.result frame hframe
      rw [hresult] at hfits
      have hslot := (hv.straight.trans hv'.straight).work.continues.hasSlot hfits
      refine (store_leads hv'.ready hslot (hret ▸ hv'.typeOf)).bind fun _ d₃ hs => ?_
      have hstraight := hv.straight.trans (hv'.straight.trans hs.straight)
      have hexit := hstraight.work.lt_size (h.exit frame hframe)
      refine (br_leads hstraight.work hstraight.isOpen hexit).bind fun _ d₄ h₄ => ?_
      refine (continueUnreachable_leads h₄.work h₄.closed _).mono fun _ d' h' => ?_
      obtain ⟨dead, h'⟩ := h'
      refine ⟨h'.work, h'.isOpen, fun m f hf => ?_⟩
      have hf₄ := h'.earlier hf
      have hf₃ := h₄.earlier hf₄
      have hf₂ := hs.straight.earlier hf₃
      have hf₁ := hv'.straight.earlier hf₂
      obtain ⟨n, hn⟩ := h'.spot
      obtain ⟨hstore, hspot⟩ := hs.code m f hf₃
      have hends := h₄.ends m f hf₄
      have hconvert := hv'.code m f hf₂
      rw [hspot] at hends
      rw [← hf₁.continues.ret] at hconvert
      rw [hn, h'.scopes, h₄.scopes, hstraight.scopes]
      exact .retAs hresult ⟨v, d₁.spot, source, hv.code m f hf₁, hf₁.continues.typeOf hv.typeOf,
        hconvert⟩ hstore hends

/-! ### Nested statements -/

abbrev FollowsStmts (σ : Site) (d : Draft) (frame : BodyFrame) (ss : List Stmt) : Draft → Prop :=
  Follows σ d fun m f => StmtsCode m σ.state.functions f frame ss d.scopes d.spot

structure FollowsBlock (σ : Site) (d : Draft) (frame : BodyFrame) (ss : List Stmt) (d' : Draft) :
    Prop where
  work : σ.Work d [] [] d'
  isOpen : d'.function.IsOpen d'.block
  scopes : d'.scopes = d.scopes
  code : ∀ m f, σ.Final d' m f →
    ∃ s', StmtsCode m σ.state.functions f frame ss d.scopes.enter d.spot s' d'.spot

theorem block_leads (h : σ.Ready d) (hframe : d.frame = some frame) {ss : List Stmt}
    (hss : ∀ {d : Draft}, σ.Ready d → d.frame = some frame →
      σ.Leads (stmts ss) d fun _ => FollowsStmts σ d frame ss) :
    σ.Leads (nested (stmts ss)) d fun _ => FollowsBlock σ d frame ss := by
  refine nested_leads ((hss h.nest hframe).mono fun _ d' hd' => ?_)
  refine ⟨.leave h hd'.work, hd'.isOpen, hd'.work.scopes, fun m f hf => ?_⟩
  exact ⟨d'.scopes, hd'.code m f (hf.of_same rfl rfl)⟩

theorem loop_leads (h : σ.Ready d) (hframe : d.frame = some frame) {body : List Stmt} (c : Expr)
    (span : Span)
    (hbody : ∀ {d : Draft}, σ.Ready d → d.frame = some frame →
      σ.Leads (stmts body) d fun _ => FollowsStmts σ d frame body) :
    σ.Leads (stmt (.loop body c span)) d fun _ => FollowsStmt σ d frame (.loop body c span) := by
  unfold stmt
  refine jump_leads (.refl h) h.isOpen fun first d₁ h₁ => ?_
  refine (block_leads h₁.ready (h₁.work.frame.trans hframe) hbody).bind fun _ d₂ h₂ => ?_
  refine jump_leads (h₁.work.trans h₂.work) h₂.isOpen fun test d₃ h₃ => ?_
  refine (condition_leads h₃.ready c).bind fun t d₄ ht => ?_
  refine (createBlock_leads (h₃.work.trans ht.straight.work) _).bind fun after d₅ h₅ => ?_
  have hfirst : first.index < d₅.function.blocks.size := by
    have hgrows := h₂.work.continues.trans (h₃.continues.trans
      (ht.straight.work.continues.trans h₅.continues))
    exact Nat.lt_of_lt_of_le h₁.index_lt hgrows.blocks_size
  refine (condBr_leads h₅.work (h₅.isOpen.2 ht.straight.isOpen) (h₅.continues.typeOf ht.typeOf)
    hfirst (h₅.work.waiting_lt (List.mem_singleton_self after))).bind fun _ d₆ h₆ => ?_
  refine (appendBlock_leads h₆.work).bind fun _ d₇ h₇ => ?_
  refine (switchTo_leads h₇.work (mt h₇.isOpen.1 h₆.closed) (.refl [after])).mono fun _ d' h' => ?_
  refine ⟨h'.work, h'.isOpen, fun m f hf => ?_⟩
  have hf₆ := h₇.earlier (h'.earlier hf)
  have hf₄ := h₅.earlier (h₆.earlier hf₆)
  have hf₃ := ht.straight.earlier hf₄
  have hf₂ := h₃.earlier hf₃
  have hf₁ := h₂.work.earlier hf₂
  obtain ⟨s', hbodyCode⟩ := h₂.code m f hf₂
  have hcond := ht.code m f hf₄
  have hback := h₆.ends m f hf₆
  have hscopes₃ : d₃.scopes = d.scopes := h₃.scopes.trans (h₂.scopes.trans h₁.scopes)
  obtain ⟨n₁, hn₁⟩ := h₁.spot
  obtain ⟨n₂, hn₂⟩ := h₃.spot
  obtain ⟨n₃, hn₃⟩ := h'.spot
  rw [hn₁, h₁.scopes] at hbodyCode
  rw [hn₂, hscopes₃] at hcond
  rw [h₅.spot] at hback
  rw [hn₃, h'.scopes, h₇.scopes, h₆.scopes, h₅.scopes, ht.straight.scopes, hscopes₃]
  exact .loop (h₁.ends m f hf₁) hbodyCode (h₃.ends m f hf₃) hcond hback

abbrev FollowsCases (σ : Site) (d : Draft) (frame : BodyFrame) (exit : BlockId)
    (cs : List Case) : Draft → Prop :=
  Follows σ d fun m f s' q => s' = d.scopes ∧
    CasesCode m σ.state.functions f frame exit cs d.scopes d.spot q

theorem case_leads (h : σ.Ready d) (hframe : d.frame = some frame) {exit : BlockId}
    (hexit : exit.index < d.function.blocks.size) (c : Expr) {body : List Stmt} {rest : List Case}
    (hbody : ∀ {d : Draft}, σ.Ready d → d.frame = some frame →
      σ.Leads (stmts body) d fun _ => FollowsStmts σ d frame body)
    (hrest : ∀ {d : Draft}, σ.Ready d → d.frame = some frame →
      exit.index < d.function.blocks.size →
      σ.Leads (cases exit rest) d fun _ => FollowsCases σ d frame exit rest) :
    σ.Leads (cases exit (.mk c body :: rest)) d fun _ =>
      FollowsCases σ d frame exit (.mk c body :: rest) := by
  unfold cases
  refine (condition_leads h c).bind fun t d₁ ht => ?_
  refine (createBlock_leads ht.straight.work _).bind fun next d₂ h₂ => ?_
  refine (newBlock_leads h₂.work _).bind fun first d₃ h₃ => ?_
  have hopen₃ := h₃.isOpen.2 (h₂.isOpen.2 ht.straight.isOpen)
  have hty₃ := h₃.continues.typeOf (h₂.continues.typeOf ht.typeOf)
  refine (condBr_leads h₃.work hopen₃ hty₃ (t := first) (e := next) (h₃.work.waiting_lt (by simp))
    (h₃.work.waiting_lt (by simp))).bind fun _ d₄ h₄ => ?_
  refine (switchTo_leads h₄.work h₄.closed (.refl [first, next])).bind fun _ d₅ h₅ => ?_
  refine (block_leads h₅.ready (h₅.work.frame.trans hframe) hbody).bind fun _ d₆ h₆ => ?_
  have hw₆ := h₅.work.trans h₆.work
  refine land_leads_bind hw₆ h₆.isOpen (hw₆.lt_size hexit) (.refl [next]) fun d₇ h₇ => ?_
  refine (hrest h₇.ready (h₇.work.frame.trans hframe) (h₇.work.lt_size hexit)).mono
    fun _ d' h' => ?_
  refine ⟨h₇.work.trans h'.work, h'.isOpen, fun m f hf => ?_⟩
  have hf₇ := h'.work.earlier hf
  have hf₆ := h₇.earlier hf₇
  have hf₄ := h₅.earlier (h₆.work.earlier hf₆)
  have hf₁ := h₂.earlier (h₃.earlier (h₄.earlier hf₄))
  have hcond := ht.code m f hf₁
  have hbranch := h₄.ends m f hf₄
  obtain ⟨s', hbodyCode⟩ := h₆.code m f hf₆
  have hleave := h₇.ends m f hf₇
  obtain ⟨hsame, hrestCode⟩ := h'.code m f hf
  have hscopes₅ : d₅.scopes = d.scopes :=
    h₅.scopes.trans (h₄.scopes.trans (h₃.scopes.trans (h₂.scopes.trans ht.straight.scopes)))
  have hscopes₇ : d₇.scopes = d.scopes := h₇.scopes.trans (h₆.scopes.trans hscopes₅)
  obtain ⟨n₁, hn₁⟩ := h₅.spot
  obtain ⟨n₂, hn₂⟩ := h₇.spot
  rw [h₃.spot, h₂.spot] at hbranch
  rw [hn₁, hscopes₅] at hbodyCode
  rw [hn₂, hscopes₇] at hrestCode
  exact ⟨hsame.trans hscopes₇, .cons hcond hbranch hbodyCode hleave hrestCode⟩

theorem branch_leads (h : σ.Ready d) (hframe : d.frame = some frame) (lead : Ident)
    {cs : List Case} {otherwise : Option (List Stmt)} (span : Span)
    (hcases : ∀ {d : Draft} {exit : BlockId}, σ.Ready d → d.frame = some frame →
      exit.index < d.function.blocks.size →
      σ.Leads (cases exit cs) d fun _ => FollowsCases σ d frame exit cs)
    (hbody : ∀ {d : Draft} (body : List Stmt), body ∈ otherwise → σ.Ready d → d.frame = some frame →
      σ.Leads (stmts body) d fun _ => FollowsStmts σ d frame body) :
    σ.Leads (stmt (.branch lead cs otherwise span)) d fun _ =>
      FollowsStmt σ d frame (.branch lead cs otherwise span) := by
  unfold stmt
  refine (createBlock_leads (.refl h) _).bind fun exit d₁ h₁ => ?_
  refine jump_leads h₁.work (h₁.isOpen.2 h.isOpen) fun first d₂ h₂ => ?_
  have hexit₂ := h₂.work.waiting_lt (List.mem_singleton_self exit)
  refine (hcases h₂.ready (h₂.work.frame.trans hframe) hexit₂).bind fun _ d₃ h₃ => ?_
  have hw₃ := h₂.work.trans h₃.work
  have hscopes₂ : d₂.scopes = d.scopes := h₂.scopes.trans h₁.scopes
  obtain ⟨n₁, hn₁⟩ := h₂.spot
  have hcases₃ (m : Module) (f : Function) (hf : σ.Final d₃ m f) : f.Ends d.spot (.br first) ∧
      d₃.scopes = d.scopes ∧ CasesCode m σ.state.functions f frame exit cs d.scopes
        (.start first n₁) d₃.spot := by
    obtain ⟨hsame, hcode⟩ := h₃.code m f hf
    rw [hn₁, hscopes₂] at hcode
    exact ⟨h₁.spot ▸ h₂.ends m f (h₃.work.earlier hf), hsame.trans hscopes₂, hcode⟩
  cases otherwise with
  | none =>
    refine (land_leads hw₃ h₃.isOpen (hw₃.waiting_lt (List.mem_singleton_self exit))
      (.refl [exit])).mono fun _ d' h' => ⟨h'.work, h'.isOpen, fun m f hf => ?_⟩
    obtain ⟨henter, hscopes₃, hcode⟩ := hcases₃ m f (h'.earlier hf)
    obtain ⟨n₂, hn₂⟩ := h'.spot
    rw [hn₂, h'.scopes, hscopes₃]
    exact .branch henter hcode (h'.ends m f hf)
  | some body =>
    refine jump_leads hw₃ h₃.isOpen fun other d₄ h₄ => ?_
    refine (block_leads h₄.ready (h₄.work.frame.trans hframe) (hbody body rfl)).bind
      fun _ d₅ h₅ => ?_
    have hw₅ := h₄.work.trans h₅.work
    refine (land_leads hw₅ h₅.isOpen (hw₅.waiting_lt (List.mem_singleton_self exit))
      (.refl [exit])).mono fun _ d' h' => ⟨h'.work, h'.isOpen, fun m f hf => ?_⟩
    have hf₅ := h'.earlier hf
    have hf₄ := h₅.work.earlier hf₅
    obtain ⟨henter, hscopes₃, hcode⟩ := hcases₃ m f (h₄.earlier hf₄)
    obtain ⟨s', hbodyCode⟩ := h₅.code m f hf₅
    have hscopes₄ : d₄.scopes = d.scopes := h₄.scopes.trans hscopes₃
    obtain ⟨n₂, hn₂⟩ := h₄.spot
    obtain ⟨n₃, hn₃⟩ := h'.spot
    rw [hn₂, hscopes₄] at hbodyCode
    rw [hn₃, h'.scopes, h₅.scopes, hscopes₄]
    exact .branchElse henter hcode (h₄.ends m f hf₄) hbodyCode (h'.ends m f hf)

/-! ### All statements -/

mutual

theorem stmt_leads {σ : Site} {d : Draft} {frame : BodyFrame} (h : σ.Ready d)
    (hframe : d.frame = some frame) (s : Stmt) :
    σ.Leads (stmt s) d fun _ => FollowsStmt σ d frame s := by
  match s with
  | .assert c span =>
    unfold stmt
    exact assert_leads h c span
  | .read x span =>
    unfold stmt
    exact read_leads h hframe x span
  | .abort span =>
    unfold stmt
    refine (abort_leads h).bind fun _ d₁ ⟨hw, hclosed, hscopes, hcode⟩ => ?_
    refine (continueUnreachable_leads hw hclosed _).mono fun _ d' ⟨dead, h'⟩ => ?_
    refine ⟨h'.work, h'.isOpen, fun m f hf => ?_⟩
    obtain ⟨n, hn⟩ := h'.spot
    rw [hn, h'.scopes, hscopes]
    exact .abort (hcode m f (h'.earlier hf))
  | .call callee args span =>
    unfold stmt
    exact .discard (expr_leads h _) fun v d' ⟨ty, hv⟩ =>
      .ofStraight hv.straight fun m f hf => .call (hv.code m f hf)
  | .print e span =>
    unfold stmt
    exact print_leads h e span
  | .assign x e span =>
    unfold stmt
    exact assign_leads h x e span
  | .declare x type init span =>
    unfold stmt
    exact declare_leads h hframe x type init span
  | .loop body c span => exact loop_leads h hframe c span fun h hframe => stmts_leads h hframe body
  | .branch lead cs none span =>
    exact branch_leads h hframe lead span
      (fun h hframe hexit => cases_leads h hframe hexit cs) (by simp)
  | .branch lead cs (some body) span =>
    refine branch_leads h hframe lead span
      (fun h hframe hexit => cases_leads h hframe hexit cs) fun body' hbody h hframe => ?_
    obtain rfl := Option.some.inj hbody
    exact stmts_leads h hframe body
  | .ret value span =>
    unfold stmt
    exact ret_leads h hframe value span

theorem stmts_leads {σ : Site} {d : Draft} {frame : BodyFrame} (h : σ.Ready d)
    (hframe : d.frame = some frame) (ss : List Stmt) :
    σ.Leads (stmts ss) d fun _ => FollowsStmts σ d frame ss := by
  match ss with
  | [] =>
    unfold stmts
    exact .pure ⟨.refl h, h.isOpen, fun _ _ _ => .nil⟩
  | s :: rest =>
    unfold stmts
    refine (stmt_leads h hframe s).bind fun _ d₁ h₁ => ?_
    refine (stmts_leads h₁.ready (h₁.keepsFrame hframe) rest).mono fun _ d' h' => ?_
    refine ⟨h₁.work.trans h'.work, h'.isOpen, fun m f hf => ?_⟩
    exact .cons (h₁.code m f (h'.work.earlier hf)) (h'.code m f hf)

theorem cases_leads {σ : Site} {d : Draft} {frame : BodyFrame} {exit : BlockId} (h : σ.Ready d)
    (hframe : d.frame = some frame) (hexit : exit.index < d.function.blocks.size)
    (cs : List Case) :
    σ.Leads (cases exit cs) d fun _ => FollowsCases σ d frame exit cs := by
  match cs with
  | [] =>
    unfold cases
    exact .pure ⟨.refl h, h.isOpen, fun _ _ _ => ⟨rfl, .nil⟩⟩
  | .mk c body :: rest =>
    exact case_leads h hframe hexit c (fun h hframe => stmts_leads h hframe body)
      fun h hframe hexit => cases_leads h hframe hexit rest

end

end Quill.Lower
