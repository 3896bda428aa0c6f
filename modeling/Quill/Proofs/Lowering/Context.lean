import Quill.Proofs.Lowering.Frame

/-! # The context of statements

Lowering a list of statements touches only its own context: the function that is being built, and
there only the block at hand and new blocks, the constant texts behind those that were made before,
and the innermost frame of the scopes. That is so however the lowering ends.
-/
namespace Quill.Lower

open Ir (Block BlockId Build FuncId Function Operand SlotId Ty Workplace)
open Library (Direction)

variable {ω : Workplace} {α β : Type}

/-- However `x` ends, everything outside of its context is as it was, and its result, if there is
one, has the property. -/
def Contained (ω : Workplace) (x : Lower α) (Q : α → Prop) : Prop :=
  ∀ t r t', ω.Within t.builder → x.run t = (r, t') →
    ω.Within t'.builder ∧ t.scopes.Extends t'.scopes ∧ ∀ a, r = .ok a → Q a

namespace Contained

section

variable {x y : Lower α} {f : α → Lower β} {Q : α → Prop} {S : β → Prop}

theorem pure {a : α} (h : Q a) : Contained ω (Pure.pure a : Lower α) Q := by
  intro t r t' ht hrun
  cases hrun
  refine ⟨ht, .refl _, ?_⟩
  rintro _ ⟨⟩
  exact h

theorem bind (h : Contained ω x Q) (hf : ∀ a, Q a → Contained ω (f a) S) :
    Contained ω (x >>= f) S := by
  intro t r t' ht hrun
  rw [bind_run] at hrun
  cases hx : x.run t with
  | mk r₁ t₁ =>
    rw [hx] at hrun
    obtain ⟨ht₁, hscopes₁, hr₁⟩ := h t r₁ t₁ ht hx
    cases r₁ with
    | error e =>
      cases hrun
      refine ⟨ht₁, hscopes₁, ?_⟩
      rintro _ ⟨⟩
    | ok a =>
      obtain ⟨ht', hscopes, hr⟩ := hf a (hr₁ a rfl) t₁ r t' ht₁ hrun
      exact ⟨ht', hscopes₁.trans hscopes, hr⟩

theorem map {g : α → β} (h : Contained ω x Q) : Contained ω (g <$> x) fun _ => True := by
  rw [map_eq_pure_bind]
  exact h.bind fun _ _ => pure trivial

theorem discard (h : Contained ω x Q) : Contained ω (Functor.discard x) fun _ => True := h.map

theorem stop {e : Stop} : Contained ω (throw e : Lower α) Q := by
  intro t r t' ht hrun
  cases hrun
  refine ⟨ht, .refl _, ?_⟩
  rintro _ ⟨⟩

theorem reject {span : Span} {e : LoweringError} :
    Contained ω (Lower.reject span e : Lower α) Q := stop

theorem misuse {m : Misuse} : Contained ω (Lower.misuse m : Lower α) Q := stop

theorem ite {p : Prop} [Decidable p] (hx : Contained ω x Q) (hy : Contained ω y Q) :
    Contained ω (if p then x else y) Q := by
  split
  · exact hx
  · exact hy

theorem guard {p : Prop} [Decidable p] {g : Lower PUnit} (hg : Contained ω g fun _ => True)
    (hx : Contained ω x Q) : Contained ω (if p then g >>= fun _ => x else x) Q :=
  ite (hg.bind fun _ _ => hx) hx

theorem get {f : Lowering → Lower β} (h : ∀ t, Contained ω (f t) S) :
    Contained ω (MonadState.get >>= f) S :=
  fun t => h t t

theorem change {g : Lowering → Lowering} (hg : ∀ t, (g t).builder = t.builder ∧
    (g t).scopes = t.scopes) : Contained ω (modify g) fun _ => True := by
  intro t r t' ht hrun
  cases hrun
  obtain ⟨hbuilder, hscopes⟩ := hg t
  exact ⟨hbuilder.symm ▸ ht, hscopes.symm ▸ .refl _, fun _ _ => trivial⟩

/-- The frame that is entered is left again, whether lowering stops in it or not. -/
theorem nested (h : Contained ω x Q) : Contained ω (Lower.nested x) Q := by
  intro t r t' ht hrun
  obtain ⟨t₁, hx, rfl⟩ := nested_eq hrun
  obtain ⟨hwithin, hscopes, hr⟩ := h { t with scopes := t.scopes.enter } r t₁ ht hx
  have hleave : t₁.scopes.leave = t.scopes := hscopes.leave_of_enter
  exact ⟨hwithin, hleave.symm ▸ .refl t.scopes, hr⟩

theorem build {x : Build α} (h : ω.Confines x Q) : Contained ω (Lower.build x) Q := by
  intro t r t' ht hrun
  rw [Lower.build, get_bind_run] at hrun
  cases hx : x t.builder with
  | error e =>
    rw [hx] at hrun
    exact misuse t r t' ht hrun
  | ok out =>
    obtain ⟨a, b⟩ := out
    rw [hx] at hrun
    cases hrun
    obtain ⟨hb, ha⟩ := h _ a b ht hx
    refine ⟨hb, .refl _, ?_⟩
    rintro _ ⟨⟩
    exact ha

theorem look {x : Build α} (hx : Build.Looks x) :
    Contained ω (Lower.build x) fun _ => True :=
  build (.of_looks hx)

end

end Contained

/-! ### Steps of lowering -/

section

theorem find?_contained (name : String) : Contained ω (find? name) fun _ => True :=
  .get fun _ => .pure trivial

/-- A name is bound in the innermost frame, where it was not bound before. -/
theorem define_contained (x : Ident) (slot : SlotId) :
    Contained ω (define x slot) fun _ => True := by
  intro t r t' ht hrun
  unfold define at hrun
  rw [get_bind_run] at hrun
  split at hrun
  · exact Contained.misuse t r t' ht hrun
  · rename_i frame outer hscopes
    dsimp only at hrun
    split at hrun
    · cases hrun
      exact ⟨ht, .refl _, fun _ _ => trivial⟩
    · rename_i hnew
      cases hrun
      refine ⟨ht, ?_, fun _ _ => trivial⟩
      rw [hscopes]
      exact .bind (Option.not_isSome_iff_eq_none.1 hnew) slot

theorem typeOf_contained (v : Operand) : Contained ω (typeOf v) fun _ => True := .look (.typeOf v)

theorem slotTy_contained (slot : SlotId) : Contained ω (slotTy slot) fun _ => True :=
  .look (Build.Looks.currentFunction.bind fun _ => (Build.Looks.ofExcept _).map _)

theorem newBlock_contained (label : String) : Contained ω (newBlock label) ω.IsNew :=
  .build ((Workplace.createBlock_confines label).bind fun k hk =>
    (Workplace.appendBlock_confines k).bind fun _ _ => .pure hk)

theorem switchTo_contained {k : BlockId} (hk : ω.IsNew k) :
    Contained ω (build (Build.switchTo k)) fun _ => True :=
  .build (Workplace.switchTo_confines hk)

theorem br_contained (k : BlockId) : Contained ω (build (Build.br k)) fun _ => True :=
  .build (Workplace.terminate_confines _)

theorem continueUnreachable_contained (label : String) :
    Contained ω (continueUnreachable label) fun _ => True :=
  (newBlock_contained label).bind fun _ hk =>
    (Contained.build (Workplace.markUnreachable_confines hk)).bind fun _ _ => switchTo_contained hk

theorem format_contained (ty : Ty) (d : Direction) :
    Contained ω (format ty d) fun _ => True := by
  refine .get fun t => ?_
  split
  · exact .pure trivial
  · refine .guard .misuse ((Contained.build (Workplace.addString_confines _ _)).bind fun v _ => ?_)
    have hnote : Contained ω (modify fun s : Lowering =>
        { s with formats := ((ty, d), v) :: s.formats }) fun _ => True :=
      .change fun _ => ⟨rfl, rfl⟩
    exact hnote.bind fun _ _ => .pure trivial

/-! ### Expressions -/

theorem cast_contained (op : Ir.CastOp) (v : Operand) (target : Ty) :
    Contained ω (cast op v target) fun _ => True :=
  .get fun _ => .ite (.build (Workplace.cast_confines op v target))
    (.build (Workplace.emitCast_confines op v target))

theorem convert_contained (v : Operand) (target : Ty) :
    Contained ω (convert v target) fun _ => True :=
  (typeOf_contained v).bind fun _ _ => .ite (.pure trivial) (cast_contained _ v target)

theorem coerce_contained (v : Operand) (target : Ty) (span : Span) (e : Ty → LoweringError) :
    Contained ω (coerce v target span e) fun _ => True := by
  have hcoerce : Contained ω (coerce? v target) fun _ => True :=
    (typeOf_contained v).bind fun _ _ => .ite (.pure trivial) (.ite (.pure trivial)
      ((convert_contained v target).bind fun _ _ => .pure trivial))
  refine (typeOf_contained v).bind fun found _ => hcoerce.bind fun w? _ => ?_
  cases w? with
  | some w => exact .pure trivial
  | none => exact .reject

theorem operate_contained (operation : Operation) (l r : Operand) :
    Contained ω (operate operation l r) fun _ => True := by
  cases operation with
  | arithmetic op => exact .build (Workplace.binary_confines op l r)
  | comparison pred => exact .build (Workplace.compare_confines pred l r)

theorem load_contained (x : Ident) : Contained ω (load x) fun _ => True := by
  refine (find?_contained x.text).bind fun slot? _ => ?_
  cases slot? with
  | some slot => exact .build (Workplace.load_confines slot)
  | none => exact .reject

theorem binary_contained (span : Span) (op : Operator) (l r : Operand) :
    Contained ω (binary span op l r) fun _ => True := by
  refine (typeOf_contained l).bind fun tl _ => (typeOf_contained r).bind fun tr _ => ?_
  split
  · exact .reject
  · refine .ite (.ite (.build (Workplace.compare_confines _ l r)) .reject) ?_
    refine (convert_contained l _).bind fun l' _ => (convert_contained r _).bind fun r' _ => ?_
    refine .ite ?_ (operate_contained _ l' r')
    split
    · exact operate_contained _ l' r'
    · exact .reject

theorem callWith_contained (span : Span) (callee : Ident) (count : Nat)
    {args : List Ty → Lower (List Operand)}
    (hargs : ∀ types, Contained ω (args types) fun _ => True) :
    Contained ω (callWith span callee count args) fun _ => True := by
  refine .get fun t => ?_
  split
  · exact .reject
  · refine (Contained.look (Build.Looks.get.bind fun _ => .ofExcept _)).bind fun g _ => ?_
    exact .guard .reject ((hargs _).bind fun vs _ => .build (Workplace.call_confines _ vs))

mutual

theorem expr_contained (e : Expr) : Contained ω (expr e) fun _ => True := by
  match e with
  | .int .. | .float .. =>
    unfold expr
    exact .pure trivial
  | .var x =>
    unfold expr
    exact load_contained x
  | .binary op lhs rhs =>
    unfold expr
    exact (expr_contained lhs).bind fun l _ => (expr_contained rhs).bind fun r _ =>
      binary_contained _ op l r
  | .semi op lead rhs span =>
    unfold expr
    exact (load_contained lead).bind fun l _ => (expr_contained rhs).bind fun r _ =>
      binary_contained _ op l r
  | .call callee args span =>
    unfold expr
    exact callWith_contained _ _ _ fun types => arguments_contained callee.text args types

theorem arguments_contained (callee : String) (args : List Expr) (types : List Ty) :
    Contained ω (arguments callee args types) fun _ => True := by
  match args, types with
  | [], _ | _ :: _, [] =>
    unfold arguments
    exact .pure trivial
  | arg :: args, ty :: types =>
    unfold arguments
    exact (expr_contained arg).bind fun v _ => (coerce_contained v ty _ _).bind fun w _ =>
      (arguments_contained callee args types).bind fun ws _ => .pure trivial

end

theorem truth_contained (span : Span) (v : Operand) :
    Contained ω (truth span v) fun _ => True := by
  refine (Contained.look (.isComparison v)).bind fun _ _ => .ite (.pure trivial) ?_
  refine (typeOf_contained v).bind fun ty _ => ?_
  exact .ite (.build (Workplace.compare_confines _ _ _))
    (.ite (.build (Workplace.compare_confines _ _ _)) .reject)

theorem condition_contained (e : Expr) : Contained ω (condition e) fun _ => True :=
  (expr_contained e).bind fun v _ => truth_contained _ v

/-! ### Statements

A statement switches only to blocks that were made for it, and each of these is new.
-/

theorem abort_contained : Contained ω abort fun _ => True :=
  .get fun _ => (Contained.build (Workplace.call_confines _ _)).discard.bind fun _ _ =>
    .build (Workplace.terminate_confines _)

theorem assert_contained (c : Expr) : Contained ω (assert c) fun _ => True := by
  refine (newBlock_contained _).bind fun check hcheck => (newBlock_contained _).bind fun fail hfail =>
    (newBlock_contained _).bind fun success hsuccess => ?_
  refine (br_contained check).bind fun _ _ => (switchTo_contained hcheck).bind fun _ _ =>
    (condition_contained c).bind fun v _ => ?_
  exact (Contained.build (Workplace.terminate_confines _)).bind fun _ _ =>
    (switchTo_contained hfail).bind fun _ _ => abort_contained.bind fun _ _ =>
    switchTo_contained hsuccess

theorem store_contained (slot : SlotId) (v : Operand) :
    Contained ω (build (Build.store slot v)) fun _ => True :=
  .build (Workplace.store_confines slot v)

theorem alloca_contained (name : String) (ty : Ty) :
    Contained ω (build (Build.alloca name ty)) fun _ => True :=
  .build (Workplace.alloca_confines name ty)

theorem read_contained (x : Ident) : Contained ω (read x) fun _ => True := by
  refine (find?_contained x.text).bind fun slot? _ => ?_
  cases slot? with
  | none => exact .reject
  | some slot =>
    refine (slotTy_contained slot).bind fun ty _ => .guard .reject ?_
    refine (format_contained ty .input).bind fun text _ => .get fun t => .ite ?_
      (Contained.build (Workplace.call_confines _ _)).discard
    refine (alloca_contained _ _).bind fun word _ =>
      (Contained.build (Workplace.call_confines _ _)).discard.bind fun _ _ => ?_
    exact (Contained.build (Workplace.load_confines word)).bind fun v _ =>
      (Contained.build (Workplace.compare_confines _ v _)).bind fun w _ => store_contained slot w

theorem promote_contained (v : Operand) (ty : Ty) : Contained ω (promote v ty) fun _ => True :=
  .ite (cast_contained _ v _) (.ite (cast_contained _ v _) (.pure trivial))

theorem print_contained (e : Expr) : Contained ω (print e) fun _ => True := by
  refine (expr_contained e).bind fun v _ => (typeOf_contained v).bind fun ty _ => .guard .reject ?_
  exact (promote_contained v ty).bind fun w _ => (format_contained ty .output).bind fun text _ =>
    .get fun t => (Contained.build (Workplace.call_confines _ _)).discard

theorem assign_contained (x : Ident) (e : Expr) : Contained ω (assign x e) fun _ => True := by
  refine (expr_contained e).bind fun v _ => (find?_contained x.text).bind fun slot? _ => ?_
  cases slot? with
  | none => exact .reject
  | some slot =>
    exact (slotTy_contained slot).bind fun ty _ => (coerce_contained v ty _ _).bind fun w _ =>
      store_contained slot w

theorem initial_contained (ty : Ty) (e : Expr) : Contained ω (initial ty e) fun _ => True :=
  (expr_contained e).bind fun v _ => coerce_contained v ty _ _

theorem mapM_contained {f : α → Lower β} {a? : Option α}
    (h : ∀ a ∈ a?, Contained ω (f a) fun _ => True) : Contained ω (a?.mapM f) fun _ => True := by
  cases a? with
  | none => exact .pure trivial
  | some a => exact (h a rfl).map

theorem declare_contained (x : Ident) (type : TypeExpr) (init : Option Expr) :
    Contained ω (declare x type init) fun _ => True := by
  refine .guard .reject (.get fun t => .guard .reject ?_)
  refine (mapM_contained fun e _ => initial_contained type.ty e).bind fun v? _ =>
    (alloca_contained _ _).bind fun slot _ => (define_contained x slot).bind fun _ _ => ?_
  cases v? with
  | none => exact .pure trivial
  | some v => exact store_contained slot v

theorem ret_contained (value : Option Expr) : Contained ω (ret value) fun _ => True := by
  refine .get fun t => ?_
  split
  · exact .misuse
  · rename_i frame _
    have hleave : Contained ω (do
        build (Build.br frame.exit)
        continueUnreachable "return.after") fun _ => True :=
      (br_contained _).bind fun _ _ => continueUnreachable_contained _
    dsimp only
    split
    · rename_i e slot _
      refine (expr_contained e).bind fun v _ =>
        (Contained.look (Build.Looks.currentFunction.map _)).bind fun ty _ => ?_
      exact (coerce_contained v ty _ _).bind fun w _ => (store_contained slot w).bind fun _ _ =>
        hleave
    · rename_i e _
      have hreject : Contained ω (reject e.span .returnValueFromVoid : Lower PUnit) fun _ => True :=
        .reject
      exact hreject.bind fun _ _ => hleave
    · exact hleave

mutual

theorem stmt_contained (s : Stmt) : Contained ω (stmt s) fun _ => True := by
  match s with
  | .assert c _ =>
    unfold stmt
    exact assert_contained c
  | .read x _ =>
    unfold stmt
    exact read_contained x
  | .abort _ =>
    unfold stmt
    exact abort_contained.bind fun _ _ => continueUnreachable_contained _
  | .call callee args span =>
    unfold stmt
    exact (expr_contained _).discard
  | .print e _ =>
    unfold stmt
    exact print_contained e
  | .assign x e _ =>
    unfold stmt
    exact assign_contained x e
  | .declare x type init _ =>
    unfold stmt
    exact declare_contained x type init
  | .loop body c _ =>
    unfold stmt
    refine (newBlock_contained _).bind fun bodyBlock hbody => (br_contained _).bind fun _ _ =>
      (switchTo_contained hbody).bind fun _ _ => (stmts_contained body).nested.bind fun _ _ => ?_
    refine (newBlock_contained _).bind fun check hcheck => (br_contained _).bind fun _ _ =>
      (switchTo_contained hcheck).bind fun _ _ => (condition_contained c).bind fun v _ => ?_
    refine (Contained.build (Workplace.createBlock_confines _)).bind fun after hafter =>
      (Contained.build (Workplace.terminate_confines _)).bind fun _ _ => ?_
    exact (Contained.build (Workplace.appendBlock_confines _)).bind fun _ _ =>
      switchTo_contained hafter
  | .branch _ cs otherwise _ =>
    unfold stmt
    refine (Contained.build (Workplace.createBlock_confines _)).bind fun exit hexit =>
      (newBlock_contained _).bind fun first hfirst => (br_contained _).bind fun _ _ =>
      (switchTo_contained hfirst).bind fun _ _ => (cases_contained exit cs).bind fun _ _ => ?_
    have hend : Contained ω (do
        build (Build.br exit)
        build (Build.appendBlock exit)
        build (Build.switchTo exit)) fun _ => True :=
      (br_contained _).bind fun _ _ => (Contained.build (Workplace.appendBlock_confines _)).bind
        fun _ _ => switchTo_contained hexit
    match otherwise with
    | none => exact hend
    | some body =>
      exact (newBlock_contained _).bind fun block hblock => (br_contained _).bind fun _ _ =>
        (switchTo_contained hblock).bind fun _ _ => (stmts_contained body).nested.bind fun _ _ =>
        hend
  | .ret value _ =>
    unfold stmt
    exact ret_contained value

theorem stmts_contained (ss : List Stmt) : Contained ω (stmts ss) fun _ => True := by
  match ss with
  | [] =>
    unfold stmts
    exact .pure trivial
  | s :: rest =>
    unfold stmts
    exact (stmt_contained s).bind fun _ _ => stmts_contained rest

theorem cases_contained (exit : BlockId) (cs : List Case) :
    Contained ω (cases exit cs) fun _ => True := by
  match cs with
  | [] =>
    unfold cases
    exact .pure trivial
  | .mk c body :: rest =>
    unfold cases
    refine (condition_contained c).bind fun v _ =>
      (Contained.build (Workplace.createBlock_confines _)).bind fun next hnext =>
      (newBlock_contained _).bind fun bodyBlock hbody => ?_
    refine (Contained.build (Workplace.terminate_confines _)).bind fun _ _ =>
      (switchTo_contained hbody).bind fun _ _ => (stmts_contained body).nested.bind fun _ _ => ?_
    exact (br_contained _).bind fun _ _ =>
      (Contained.build (Workplace.appendBlock_confines _)).bind fun _ _ =>
      (switchTo_contained hnext).bind fun _ _ => cases_contained exit rest

end

end

/-! ### What statements leave alone -/

/-- A table that keeps its entries at their places is extended at its end. -/
theorem prefix_of_getElem? {xs ys : Array α}
    (h : ∀ (k : Nat) (a : α), xs[k]? = some a → ys[k]? = some a) : xs.toList <+: ys.toList := by
  refine List.prefix_iff_getElem?.2 fun k hk => ?_
  simpa using h k _ (Array.getElem?_eq_getElem (by simpa using hk))

/-- Lowering a list of statements in a function, whether it ends or stops. There are as many frames
as before, and all names are bound as before but for new ones in the innermost frame. The other
functions are as they were, and texts are added behind those that were there. So are slots, values,
blocks and entries of the layout in the function itself. A block that was there is as it was, or is
the one that was at hand and has been built further. -/
theorem stmts_frame {ss : List Stmt} {s s' : Lowering} {r : Except Stop Unit} {id : FuncId}
    {f : Function} (hf : s.builder.WorksOn id f) (hrun : (stmts ss).run s = (r, s')) :
    (s'.scopes.length = s.scopes.length ∧ s'.scopes.tail = s.scopes.tail ∧
      ∀ x slot, (s.scopes.headD []).lookup x = some slot →
        (s'.scopes.headD []).lookup x = some slot) ∧
    (s'.builder.module.functions.size = s.builder.module.functions.size ∧
      ∀ k, k ≠ id.index →
        s'.builder.module.functions[k]? = s.builder.module.functions[k]?) ∧
    s.builder.module.globals.toList <+: s'.builder.module.globals.toList ∧
    ∃ f', s'.builder.WorksOn id f' ∧ f'.signature = f.signature ∧
      f.slots.toList <+: f'.slots.toList ∧ f.values.toList <+: f'.values.toList ∧
      f.layout.toList <+: f'.layout.toList ∧ f.blocks.size ≤ f'.blocks.size ∧
      ∀ (k : Nat) (b : Block), f.blocks[k]? = some b → ∃ c, f'.blocks[k]? = some c ∧
        b.Continues c ∧ (s.builder.block? ≠ some ⟨k⟩ → c = b) := by
  have hstart : (Workplace.mk s.builder id f hf).Within s.builder := .refl
  obtain ⟨hwithin, hscopes, -⟩ := stmts_contained ss s r s' hstart hrun
  obtain ⟨f', hworks, hcontinues, hothers⟩ := hwithin.current
  refine ⟨⟨hscopes.length, hscopes.outer, hscopes.innermost⟩, ⟨hwithin.size, hwithin.functions⟩,
    hwithin.globals, f', hworks, hcontinues.signature, prefix_of_getElem? hcontinues.slots,
    prefix_of_getElem? hcontinues.values, prefix_of_getElem? hcontinues.layout,
    hcontinues.blocks_size, fun k b hb => ?_⟩
  obtain ⟨c, hc, hbc⟩ := hcontinues.blocks k b hb
  exact ⟨c, hc, hbc, fun hk => Option.some.inj (hc.symm.trans (hothers k b hb hk))⟩

/-- A function with room for one variable, and a block without instructions. -/
def roomy : Function :=
  { Function.declared "main" [] .void with
    blocks := #[⟨"entry", #[], none, false⟩]
    layout := #[⟨0⟩]
    slots := #[⟨"x", .i32⟩] }

def roomyStart : Lowering where
  builder := ⟨{ Ir.Module.empty "sample" with functions := #[Library.printFunction, roomy] },
    some ⟨1⟩, some ⟨0⟩⟩
  scopes := [[("x", ⟨0⟩)]]
  functions := []
  library := ⟨⟨0⟩, ⟨0⟩, ⟨0⟩⟩
  formats := []
  frame := none
  folds := true
  records := #[]

/-- The variable is printed before a statement that is rejected. -/
def printThenStop : List Stmt :=
  [.print (.var ⟨"x", default⟩) default, .assign ⟨"y", default⟩ (.var ⟨"x", default⟩) default]

theorem stmts_frame_sample : ∃ s' : Lowering,
    (stmts printThenStop).run roomyStart =
      (.error (.rejected ((default : Span).at (.assignUndefined "y"))), s') ∧
    s'.builder.module.globals.size = 1 ∧
    (s'.scopes.length = roomyStart.scopes.length ∧ s'.scopes.tail = roomyStart.scopes.tail ∧
      ∀ x slot, (roomyStart.scopes.headD []).lookup x = some slot →
        (s'.scopes.headD []).lookup x = some slot) ∧
    (s'.builder.module.functions.size = roomyStart.builder.module.functions.size ∧
      ∀ k, k ≠ 1 →
        s'.builder.module.functions[k]? = roomyStart.builder.module.functions[k]?) ∧
    roomyStart.builder.module.globals.toList <+: s'.builder.module.globals.toList ∧
    ∃ f', s'.builder.WorksOn ⟨1⟩ f' ∧ f'.signature = roomy.signature ∧
      roomy.slots.toList <+: f'.slots.toList ∧ roomy.values.toList <+: f'.values.toList ∧
      roomy.layout.toList <+: f'.layout.toList ∧ roomy.blocks.size ≤ f'.blocks.size ∧
      ∀ (k : Nat) (b : Block), roomy.blocks[k]? = some b → ∃ c, f'.blocks[k]? = some c ∧
        b.Continues c ∧ (roomyStart.builder.block? ≠ some ⟨k⟩ → c = b) := by
  have hworks : roomyStart.builder.WorksOn ⟨1⟩ roomy := ⟨rfl, rfl⟩
  obtain ⟨s', hrun, hglobals⟩ : ∃ s' : Lowering, (stmts printThenStop).run roomyStart =
      (.error (.rejected ((default : Span).at (.assignUndefined "y"))), s') ∧
      s'.builder.module.globals.size = 1 := ⟨_, rfl, rfl⟩
  exact ⟨s', hrun, hglobals, stmts_frame hworks hrun⟩

end Quill.Lower
