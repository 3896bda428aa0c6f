import Quill.Proofs.Lowering.ExprRequests
import Quill.Proofs.Lowering.Program
import Quill.Proofs.Syntax.Identifiers

/-! # Programs as requests

Lowering a program whose names are names asks for nothing but what the vocabulary has words for. So
slots and blocks of the module are named in it, and its tables agree with its code.
-/
namespace Quill

open Ir (Build Module Operand Request SlotId Ty Vocabulary)

namespace Lower

variable {name : String} {ks : List Operand} {v : Operand}

/-! ### Statements -/

theorem br_asks (id : Ir.BlockId) : Asks name ks (build (Build.br id)) fun _ => [] :=
  .request (.br id) rfl trivial (List.forall_mem_nil _)

theorem switchTo_asks (id : Ir.BlockId) : Asks name ks (build (Build.switchTo id)) fun _ => [] :=
  .request (.switchTo id) rfl trivial (List.forall_mem_nil _)

theorem appendBlock_asks (id : Ir.BlockId) :
    Asks name ks (build (Build.appendBlock id)) fun _ => [] :=
  .request (.appendBlock id) rfl trivial (List.forall_mem_nil _)

theorem createBlock_asks {label : String} (hlabel : vocabulary.label label) :
    Asks name ks (build (Build.createBlock label)) fun _ => [] :=
  .request (.createBlock label) rfl hlabel (List.forall_mem_nil _)

theorem condBr_asks (hv : v.IsAvailable ks) (t e : Ir.BlockId) :
    Asks name ks (build (Build.condBr v t e)) fun _ => [] :=
  .request (.condBr v t e) rfl trivial (List.forall_mem_singleton.2 hv)

theorem store_asks (slot : SlotId) (hv : v.IsAvailable ks) :
    Asks name ks (build (Build.store slot v)) fun _ => [] :=
  .request (.store slot v) rfl trivial (List.forall_mem_singleton.2 hv)

theorem alloca_asks {x : String} (hx : isName x) (ty : Ty) :
    Asks name ks (build (Build.alloca x ty)) fun slot => [.slotAddr slot] :=
  .request (.alloca x ty) rfl hx (List.forall_mem_nil _)

theorem abort_asks : Asks name ks abort fun _ => [] :=
  .get fun t =>
    (Asks.request (.call t.library.abort []) rfl trivial (List.forall_mem_nil _)).discard.bind
      fun _ => .request .unreachable rfl trivial (List.forall_mem_nil _)

theorem assert_asks (c : Expr) : Asks name ks (assert c) fun _ => [] := by
  refine (newBlock_asks (by simp [vocabulary])).bind fun check =>
    (newBlock_asks (by simp [vocabulary])).bind fun fail =>
    (newBlock_asks (by simp [vocabulary])).bind fun success => ?_
  refine (br_asks check).bind fun _ => (switchTo_asks check).bind fun _ =>
    (condition_asks _ c).bind fun v => ?_
  exact (condBr_asks (.of_mem List.mem_cons_self) success fail).bind fun _ =>
    (switchTo_asks fail).bind fun _ => abort_asks.bind fun _ => switchTo_asks success

theorem read_asks (x : Ident) : Asks name ks (read x) fun _ => [] := by
  refine (find?_asks x.text).bind fun slot? => ?_
  cases slot? with
  | none => exact .reject
  | some slot =>
    refine (slotTy_asks slot).bind fun ty => .guard ((format_asks ty .input).bind fun v => ?_)
    refine .get fun t => .ite ((alloca_asks rfl .i32).bind fun word => ?_) ?_
    · refine (Asks.request (.call t.library.read [v, .slotAddr word]) rfl trivial ?_).discard.bind
        fun _ => (Asks.request (.load word) rfl trivial (List.forall_mem_nil _)).bind fun w => ?_
      · exact List.forall_mem_cons.2
          ⟨.of_mem (by simp), List.forall_mem_singleton.2 (.of_mem (by simp))⟩
      refine (Asks.request (.compare .ine w (.zero .i32)) rfl trivial ?_).bind fun u =>
        store_asks slot (.of_mem List.mem_cons_self)
      exact List.forall_mem_cons.2 ⟨.of_mem List.mem_cons_self,
        List.forall_mem_singleton.2 (Operand.isAvailable_zero _ _)⟩
    · refine (Asks.request (.call t.library.read [v, .slotAddr slot]) rfl trivial ?_).discard
      exact List.forall_mem_cons.2
        ⟨.of_mem (by simp), List.forall_mem_singleton.2 (.of_mem (by simp))⟩

theorem promote_asks (hv : v.IsAvailable ks) (ty : Ty) :
    Asks name ks (promote v ty) fun v => [v] :=
  .ite (cast_asks .zext hv .i32) (.ite (cast_asks .fpExt hv .f64)
    (.pure (List.forall_mem_singleton.2 hv)))

theorem print_asks (e : Expr) : Asks name ks (print e) fun _ => [] := by
  refine (expr_asks ks e).bind fun v => (typeOf_asks v).bind fun ty => .guard ?_
  refine (promote_asks (.of_mem List.mem_cons_self) ty).bind fun w =>
    (format_asks ty .output).bind fun format => .get fun t => ?_
  refine (Asks.request (.call t.library.print [format, w]) rfl trivial ?_).discard
  exact List.forall_mem_cons.2 ⟨.of_mem (by simp), List.forall_mem_singleton.2 (.of_mem (by simp))⟩

theorem assign_asks (x : Ident) (e : Expr) : Asks name ks (assign x e) fun _ => [] := by
  refine (expr_asks ks e).bind fun v => (find?_asks x.text).bind fun slot? => ?_
  cases slot? with
  | none => exact .reject
  | some slot =>
    exact (slotTy_asks slot).bind fun ty => (coerce_asks (.of_mem (by simp)) ty _ _).bind fun w =>
      store_asks slot (.of_mem List.mem_cons_self)

theorem initial_asks (ty : Ty) (e : Expr) : Asks name ks (initial ty e) fun v => [v] :=
  (expr_asks ks e).bind fun _ => coerce_asks (.of_mem List.mem_cons_self) ty _ _

theorem mapM_asks {α : Type} {f : α → Lower Operand} {a? : Option α}
    (h : ∀ a ∈ a?, Asks name ks (f a) fun v => [v]) :
    Asks name ks (a?.mapM f) Option.toList := by
  cases a? with
  | none => exact .pure (List.forall_mem_nil _)
  | some a =>
    change Asks name ks (some <$> f a) Option.toList
    rw [map_eq_pure_bind]
    exact (h a rfl).bind fun v => .pure (List.forall_mem_singleton.2 (.of_mem List.mem_cons_self))

theorem declare_asks {x : Ident} (hx : isName x.text) (type : TypeExpr) (init : Option Expr) :
    Asks name ks (declare x type init) fun _ => [] := by
  refine .guard (.get fun t => .guard ((mapM_asks fun e _ => initial_asks type.ty e).bind fun v? =>
    (alloca_asks hx type.ty).bind fun slot => (define_asks x (by simp)).bind fun _ => ?_))
  cases v? with
  | none => exact .pure (List.forall_mem_nil _)
  | some v => exact store_asks slot (.of_mem (by simp))

theorem ret_asks (value : Option Expr) : Asks name ks (ret value) fun _ => [] := by
  refine .get fun t => ?_
  split
  · exact .misuse
  · rename_i frame _
    have hleave (ks : List Operand) : Asks name ks (do
        build (Build.br frame.exit)
        continueUnreachable "return.after") fun _ => [] :=
      (br_asks _).bind fun _ => continueUnreachable_asks (by simp [vocabulary])
    dsimp only
    split
    · rename_i e slot _
      refine (expr_asks ks e).bind fun v =>
        (Asks.look (Build.Looks.currentFunction.map _)).bind fun ty => ?_
      exact (coerce_asks (.of_mem (by simp)) ty _ _).bind fun w =>
        (store_asks slot (.of_mem List.mem_cons_self)).bind fun _ => hleave _
    · rename_i e _
      have hreject : Asks name ks (reject e.span .returnValueFromVoid : Lower PUnit) fun _ => [] :=
        .reject
      exact hreject.bind fun _ => hleave _
    · exact hleave _

mutual

theorem stmt_asks (ks : List Operand) {s : Stmt} (h : ∀ x ∈ s.names, isName x) :
    Asks name ks (stmt s) fun _ => [] := by
  match s with
  | .assert c _ =>
    unfold stmt
    exact assert_asks c
  | .read x _ =>
    unfold stmt
    exact read_asks x
  | .abort _ =>
    unfold stmt
    exact abort_asks.bind fun _ => continueUnreachable_asks (by simp [vocabulary])
  | .call callee args span =>
    unfold stmt
    exact (expr_asks ks _).discard
  | .print e _ =>
    unfold stmt
    exact print_asks e
  | .assign x e _ =>
    unfold stmt
    exact assign_asks x e
  | .declare x type none _ | .declare x type (some _) _ =>
    unfold stmt
    exact declare_asks (h x.text List.mem_cons_self) type _
  | .loop body c _ =>
    have hbody := fun x hx => h x (List.mem_append_left _ hx)
    unfold stmt
    refine (newBlock_asks (by simp [vocabulary])).bind fun bodyBlock => (br_asks _).bind fun _ =>
      (switchTo_asks _).bind fun _ => (stmts_asks _ hbody).nested.bind fun _ => ?_
    refine (newBlock_asks (by simp [vocabulary])).bind fun condition => (br_asks _).bind fun _ =>
      (switchTo_asks _).bind fun _ => (condition_asks _ c).bind fun v => ?_
    refine (createBlock_asks (by simp [vocabulary])).bind fun after => ?_
    exact (condBr_asks (.of_mem (by simp)) bodyBlock after).bind fun _ =>
      (appendBlock_asks after).bind fun _ => switchTo_asks after
  | .branch lead cs none _ =>
    have hcs := fun x hx => h x (List.mem_cons_of_mem _ hx)
    unfold stmt
    refine (createBlock_asks (by simp [vocabulary])).bind fun exit =>
      (newBlock_asks (by simp [vocabulary])).bind fun first => (br_asks _).bind fun _ =>
      (switchTo_asks _).bind fun _ => (cases_asks _ exit hcs).bind fun _ => ?_
    exact (br_asks _).bind fun _ => (appendBlock_asks exit).bind fun _ => switchTo_asks exit
  | .branch lead cs (some body) _ =>
    have hcs := fun x hx => h x (List.mem_cons_of_mem _ (List.mem_append_left _ hx))
    have hbody := fun x hx => h x (List.mem_cons_of_mem _ (List.mem_append_right _ hx))
    unfold stmt
    refine (createBlock_asks (by simp [vocabulary])).bind fun exit =>
      (newBlock_asks (by simp [vocabulary])).bind fun first => (br_asks _).bind fun _ =>
      (switchTo_asks _).bind fun _ => (cases_asks _ exit hcs).bind fun _ => ?_
    refine (newBlock_asks (by simp [vocabulary])).bind fun block => (br_asks _).bind fun _ =>
      (switchTo_asks _).bind fun _ => (stmts_asks _ hbody).nested.bind fun _ => ?_
    exact (br_asks _).bind fun _ => (appendBlock_asks exit).bind fun _ => switchTo_asks exit
  | .ret value _ =>
    unfold stmt
    exact ret_asks value

theorem stmts_asks (ks : List Operand) {ss : List Stmt} (h : ∀ x ∈ Stmt.namesAll ss, isName x) :
    Asks name ks (stmts ss) fun _ => [] := by
  match ss with
  | [] =>
    unfold stmts
    exact .pure (List.forall_mem_nil _)
  | s :: rest =>
    obtain ⟨hs, hrest⟩ := List.forall_mem_append.1 h
    unfold stmts
    exact (stmt_asks ks hs).bind fun _ => stmts_asks _ hrest

theorem cases_asks (ks : List Operand) (exit : Ir.BlockId) {cs : List Case}
    (h : ∀ x ∈ Case.namesAll cs, isName x) : Asks name ks (cases exit cs) fun _ => [] := by
  match cs with
  | [] =>
    unfold cases
    exact .pure (List.forall_mem_nil _)
  | .mk c body :: rest =>
    obtain ⟨hbody, hrest⟩ := List.forall_mem_append.1 (List.forall_mem_append.1 h).2
    unfold cases
    refine (condition_asks ks c).bind fun v =>
      (createBlock_asks (by simp [vocabulary])).bind fun next =>
      (newBlock_asks (by simp [vocabulary])).bind fun bodyBlock =>
      (condBr_asks (.of_mem (by simp)) bodyBlock next).bind fun _ => (switchTo_asks _).bind fun _ =>
      (stmts_asks _ hbody).nested.bind fun _ => ?_
    exact (br_asks _).bind fun _ => (appendBlock_asks next).bind fun _ =>
      (switchTo_asks next).bind fun _ => cases_asks _ exit hrest

end

end Lower

/-! ### Programs -/

/-- What a routine introduces is named by names. -/
structure Routine.IsNamed (r : Routine) : Prop where
  name : isName r.name
  params : ∀ p ∈ r.params, isName p.name.text
  body : ∀ x ∈ Stmt.namesAll r.body, isName x

namespace Lower

variable {name : String} {ks : List Operand} {r : Routine}

theorem declareRoutine_asks (hr : r.IsNamed) : Asks name ks (declareRoutine r) fun _ => [] := by
  have hparams : ∀ p ∈ r.params.map fun p => (⟨p.name.text, p.type.ty⟩ : Ir.Param),
      isName p.name := by
    intro p hp
    obtain ⟨q, hq, rfl⟩ := List.mem_map.1 hp
    exact hr.params q hq
  refine .guard ((Asks.request (.declareFunction r.name _ r.result.ty) rfl ⟨hr.name, hparams⟩
    (List.forall_mem_nil _)).bind fun id? => ?_)
  cases id? with
  | none => exact .reject
  | some id =>
    have hrecord : Asks name ks (record (.debug s!"declared {r.name}: {r.result.ty.text}"))
        fun _ => [] := .change fun _ => ⟨rfl, rfl, rfl, rfl⟩
    have hreturn : Asks name ks (do
        record (.debug s!"declared {r.name}: {r.result.ty.text}")
        return id) fun _ => [] := hrecord.bind fun _ => .pure (List.forall_mem_nil _)
    refine .ite ((Asks.change ?_).bind fun _ => hreturn) hreturn
    exact fun _ => ⟨rfl, rfl, rfl, rfl⟩

theorem bindParams_asks (ks : List Operand) {ps : List Param} (index : Nat)
    (h : ∀ p ∈ ps, isName p.name.text) : Asks name ks (bindParams index ps) fun _ => [] := by
  induction ps generalizing index ks with
  | nil => exact .pure (List.forall_mem_nil _)
  | cons p ps ih =>
    obtain ⟨hp, hps⟩ := List.forall_mem_cons.1 h
    refine (alloca_asks hp p.type.ty).bind fun slot => (store_asks slot ?_).bind fun _ =>
      (define_asks p.name (by simp)).bind fun _ => ih _ (index + 1) hps
    trivial

theorem resultSlot_asks (r : Routine) : Asks name ks (resultSlot r) fun _ => [] := by
  refine .ite (.pure (List.forall_mem_nil _)) ((alloca_asks rfl r.result.ty).bind fun slot =>
    .ite ?_ (.pure (List.forall_mem_nil _)))
  exact (store_asks slot (Operand.isAvailable_zero _ _)).bind fun _ => .pure (List.forall_mem_nil _)

theorem body_asks (hr : r.IsNamed) : Asks name ks (body r) fun _ => [] := by
  refine (resultSlot_asks r).bind fun result => (bindParams_asks _ 0 hr.params).bind fun _ =>
    (createBlock_asks (by simp [vocabulary])).bind fun exit => (Asks.change ?_).bind fun _ =>
    (stmts_asks _ hr.body).bind fun _ => ?_
  · exact fun _ => ⟨rfl, rfl, rfl, rfl⟩
  refine (br_asks exit).bind fun _ => (appendBlock_asks exit).bind fun _ =>
    (switchTo_asks exit).bind fun _ => (mapM_asks fun slot _ =>
      .request (.load slot) rfl trivial (List.forall_mem_nil _)).bind fun v? => ?_
  refine (Asks.request (.ret v?) rfl trivial fun v hv => .of_mem ?_).bind fun _ =>
    .change fun _ => ⟨rfl, rfl, rfl, rfl⟩
  cases v? with
  | none => cases hv
  | some w => exact List.mem_append_left _ hv

theorem verify_asks (id : Ir.FuncId) (span : Span) :
    Asks name ks (verify id span) fun _ => [] := by
  refine .get fun t => ?_
  split
  · exact .pure (List.forall_mem_nil _)
  · exact .reject
  · exact .misuse

theorem defineRoutine_asks (hr : r.IsNamed) (id : Ir.FuncId) :
    Asks name ks (defineRoutine r id) fun _ => [] := by
  refine .ite (.pure (List.forall_mem_nil _)) ?_
  refine (Asks.request (.enterFunction id) rfl trivial (List.forall_mem_nil _)).bind fun _ =>
    (newBlock_asks (by simp [vocabulary])).bind fun entry => (switchTo_asks entry).bind fun _ =>
    (body_asks hr).nested.bind fun _ => (verify_asks id r.span).bind fun _ => ?_
  exact .change fun _ => ⟨rfl, rfl, rfl, rfl⟩

theorem declareRoutines_asks (ks : List Operand) {rs : List Routine} (h : ∀ r ∈ rs, r.IsNamed) :
    Asks name ks (rs.mapM declareRoutine) fun _ => [] := by
  induction rs generalizing ks with
  | nil => exact .pure (List.forall_mem_nil _)
  | cons r rs ih =>
    obtain ⟨hr, hrs⟩ := List.forall_mem_cons.1 h
    rw [List.mapM_cons]
    exact (declareRoutine_asks hr).bind fun id => (ih _ hrs).bind fun ids =>
      .pure (List.forall_mem_nil _)

theorem defineRoutines_asks (ks : List Operand) {pairs : List (Routine × Ir.FuncId)}
    (h : ∀ p ∈ pairs, p.1.IsNamed) :
    Asks name ks (pairs.forM fun p => defineRoutine p.1 p.2) fun _ => [] := by
  induction pairs generalizing ks with
  | nil => exact .pure (List.forall_mem_nil _)
  | cons p pairs ih =>
    obtain ⟨hp, hpairs⟩ := List.forall_mem_cons.1 h
    exact (defineRoutine_asks hp p.2).bind fun _ => ih _ hpairs

theorem routines_asks {rs : List Routine} (h : ∀ r ∈ rs, r.IsNamed) :
    Asks name ks (routines rs) fun _ => [] :=
  (declareRoutines_asks ks h).bind fun _ => defineRoutines_asks _ fun p hp =>
    h p.1 (List.of_mem_zip (a := p.1) (b := p.2) hp).1

theorem start_holds (name : String) : Lowering.Holds name [] (.start name) := by
  have hrun := declareLibrary_ok name
  unfold Lowering.declareLibrary at hrun
  obtain ⟨print?, b₁, h₁, hrun⟩ := Build.bind_ok_iff.1 hrun
  obtain ⟨read?, b₂, h₂, hrun⟩ := Build.bind_ok_iff.1 hrun
  obtain ⟨abort?, b₃, h₃, hrun⟩ := Build.bind_ok_iff.1 hrun
  have hformat : ∀ p ∈ [(⟨"format", .pointerTo .i8⟩ : Ir.Param)], isName p.name :=
    List.forall_mem_singleton.2 (by decide)
  have hbuilt : Ir.BuiltWith vocabulary name [] (.empty name) := .empty
  have hbuilt := hbuilt.request (.declareFunction Library.printName _ .i32)
    ⟨show isName Library.printName by decide, hformat⟩ (List.forall_mem_nil _)
    (Build.map_ok_iff.2 ⟨_, h₁, rfl⟩)
  have hbuilt := hbuilt.request (.declareFunction Library.readName _ .i32)
    ⟨show isName Library.readName by decide, hformat⟩ (List.forall_mem_nil _)
    (Build.map_ok_iff.2 ⟨_, h₂, rfl⟩)
  have hbuilt := hbuilt.request (.declareFunction Library.abortName [] .void)
    ⟨show isName Library.abortName by decide, List.forall_mem_nil _⟩ (List.forall_mem_nil _)
    (Build.map_ok_iff.2 ⟨_, h₃, rfl⟩)
  cases print? with
  | none => cases hrun
  | some print =>
    cases read? with
    | none => cases hrun
    | some read =>
      cases abort? with
      | none => cases hrun
      | some abort =>
        obtain ⟨_, b₄, h₄, hrun⟩ := Build.bind_ok_iff.1 hrun
        obtain ⟨_, b₅, h₅, hrun⟩ := Build.bind_ok_iff.1 hrun
        obtain ⟨_, b₆, h₆, hrun⟩ := Build.bind_ok_iff.1 hrun
        have hbuilt := hbuilt.request (.setVariadic print true) trivial (List.forall_mem_nil _)
          (Build.map_ok_iff.2 ⟨_, h₄, rfl⟩)
        have hbuilt := hbuilt.request (.setVariadic read true) trivial (List.forall_mem_nil _)
          (Build.map_ok_iff.2 ⟨_, h₅, rfl⟩)
        have hbuilt := hbuilt.request (.setNoReturn abort true) trivial (List.forall_mem_nil _)
          (Build.map_ok_iff.2 ⟨_, h₆, rfl⟩)
        cases hrun
        rw [start_eq]
        exact ⟨hbuilt, List.forall_mem_nil _, by simp [Scopes.slots], rfl⟩

end Lower

namespace Program

variable {o : LexerOptions} {fileName : String} {feed : Feed} {p : Program} {m : Module}

theorem isNamed_routines (h : (parse o fileName feed).outcome = .ok p) :
    ∀ r ∈ p.routines, r.IsNamed := by
  have hnames := isName_parse h
  intro r hr
  rcases List.mem_append.1 hr with hr | hr
  · obtain ⟨f, hf, rfl⟩ := List.mem_map.1 hr
    have hf : ∀ x ∈ f.names, isName x := fun x hx =>
      hnames x (List.mem_append_left _ (List.mem_flatMap.2 ⟨f, hf, hx⟩))
    refine ⟨hf _ List.mem_cons_self, fun q hq => hf _ ?_, fun x hx => hf x ?_⟩
    · exact List.mem_cons_of_mem _ (List.mem_append_left _ (List.mem_map.2 ⟨q, hq, rfl⟩))
    · exact List.mem_cons_of_mem _ (List.mem_append_right _ hx)
  · obtain ⟨e, he, rfl⟩ := Option.map_eq_some_iff.1 (Option.mem_toList.1 hr)
    refine ⟨show isName "main" by decide, List.forall_mem_nil _, fun x hx =>
      hnames x (List.mem_append_right _ ?_)⟩
    simpa [he] using show x ∈ Stmt.namesAll e.body from hx

/-- The module of an accepted program is what requests of the vocabulary have made. -/
theorem lower_builtWith (h : (parse o fileName feed).outcome = .ok p)
    (hm : p.lower.outcome = .ok m) :
    ∃ hand b, Ir.BuiltWith Lower.vocabulary p.fileName hand b ∧ b.module = m := by
  unfold lower lowerFrom at hm
  cases hrun : (Lower.routines p.routines).run (.start p.fileName) with
  | mk r t =>
    rw [hrun] at hm
    cases r with
    | error e => cases hm
    | ok u =>
      cases hm
      obtain ⟨hand, ht, -⟩ := Lower.routines_asks (isNamed_routines h) _ u t []
        (Lower.start_holds p.fileName) (List.forall_mem_nil _) hrun
      exact ⟨hand, t.builder, ht.built, rfl⟩

end Program

end Quill
