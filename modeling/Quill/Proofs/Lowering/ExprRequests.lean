import Quill.Proofs.Ir.Consistency
import Quill.Proofs.Lowering.ChartSteps
import Quill.Proofs.Syntax.Names
import Quill.Proofs.Text.Words

/-! # Expressions as requests

All that lowering does to its builder are requests. They name blocks by a few fixed words, slots by
names of the source, and are made with constants and operands that were handed out before.
-/
namespace Quill

open Ir (Build Builder FuncId Module Operand Request SlotId Ty Vocabulary)

/-! ### Modules that are built in a vocabulary -/

namespace Ir

variable {V : Vocabulary} {name : String} {hand : List Operand} {b : Builder}

/-- The builder is what a new one has become by requests of the vocabulary. -/
inductive BuiltWith (V : Vocabulary) (name : String) : List Operand → Builder → Prop
  | empty : BuiltWith V name [] (.empty name)
  | request {hand given : List Operand} {b c : Builder} (r : Request) : BuiltWith V name hand b →
      r.IsWithin V → (∀ v ∈ r.operands, v.IsAvailable hand) → r.perform b = .ok (given, c) →
      BuiltWith V name (given ++ hand) c

theorem BuiltWith.built (h : BuiltWith V name hand b) : Built name hand b := by
  induction h with
  | empty => exact .empty
  | request r _ _ hoperands hrun ih => exact .request r ih hoperands hrun

theorem BuiltWith.named (h : BuiltWith V name hand b) :
    ∀ f ∈ b.module.functions, V.routine f.name := by
  induction h with
  | empty => simp [Builder.empty, Module.empty]
  | request r _ hr _ hrun ih =>
    intro g hg
    rcases (r.change hr hrun).named hg with ⟨f, hf, hname⟩ | hg
    · exact hname ▸ ih f hf
    · exact hg

theorem BuiltWith.isConsistent (h : BuiltWith V name hand b) : b.module.IsConsistent := by
  induction h with
  | empty => exact .empty name
  | request r _ hr _ hrun ih => exact (r.change hr hrun).isConsistent ih

/-- Slots and blocks of the function are named in the vocabulary. -/
structure Function.IsWorded (V : Vocabulary) (f : Function) : Prop where
  slots : ∀ s ∈ f.slots, V.operand s.name
  labels : ∀ b ∈ f.blocks, V.label b.label

structure Module.IsWorded (V : Vocabulary) (m : Module) : Prop where
  functions : ∀ f ∈ m.functions, f.IsWorded V
  /-- The names of constant texts end in their numbers. -/
  texts : ∀ (k : Nat) (t : Global), m.globals[k]? = some t →
    ∃ base, V.text base ∧ t.name = s!"{base}.{k}"

theorem Function.Change.isWorded {m : Module} {f g : Function} (hc : Function.Change V m f g)
    (h : f.IsWorded V) : g.IsWorded V := by
  -- Blocks that are only built further keep their labels.
  have hkeep (hsize : g.blocks.size = f.blocks.size) : ∀ b ∈ g.blocks, V.label b.label := by
    intro b hb
    obtain ⟨k, hk⟩ := Array.mem_iff_getElem?.1 hb
    have hlt : k < f.blocks.size := hsize ▸ (Array.getElem?_eq_some_iff.1 hk).1
    obtain ⟨c, hc, hgrows⟩ := hc.grows.blocks k _ (Array.getElem?_eq_getElem hlt)
    obtain rfl := Option.some.inj (hk.symm.trans hc)
    exact hgrows.label ▸ h.labels _ (Array.getElem_mem hlt)
  cases hc with
  | flags | attach => exact ⟨h.slots, h.labels⟩
  | addBlock hlabel =>
    refine ⟨h.slots, fun b hb => ?_⟩
    rcases Array.mem_push.1 hb with hb | rfl
    · exact h.labels b hb
    · exact hlabel
  | markDead | emit | close => exact ⟨h.slots, hkeep (Array.size_modify ..)⟩
  | reserve ty hopen hname =>
    refine ⟨fun s hs => ?_, hkeep (Array.size_modify ..)⟩
    rcases Array.mem_push.1 hs with hs | rfl
    · exact h.slots s hs
    · exact hname

theorem Module.Change.isWorded {m n : Module} (hc : Module.Change V m n) (h : m.IsWorded V) :
    n.IsWorded V := by
  cases hc with
  | look => exact h
  | declare ret _ _ _ =>
    refine ⟨fun f hf => ?_, h.texts⟩
    rcases Array.mem_push.1 hf with hf | rfl
    · exact h.functions f hf
    · exact ⟨by simp [Function.declared], by simp [Function.declared]⟩
  | @text base content hbase =>
    refine ⟨h.functions, fun k t ht => ?_⟩
    rw [Array.getElem?_push] at ht
    split at ht
    · obtain rfl := Option.some.inj ht
      exact ⟨base, hbase, by simp_all⟩
    · exact h.texts k t ht
  | @function k f g hf hchange =>
    refine ⟨fun f' hf' => ?_, h.texts⟩
    rcases Array.mem_or_eq_of_mem_setIfInBounds hf' with hf' | rfl
    · exact h.functions f' hf'
    · exact hchange.isWorded (h.functions f (Array.mem_of_getElem? hf))

theorem BuiltWith.isWorded (h : BuiltWith V name hand b) : b.module.IsWorded V := by
  induction h with
  | empty => exact ⟨by simp [Builder.empty, Module.empty], by simp [Builder.empty, Module.empty]⟩
  | request r _ hr _ hrun ih => exact (r.change hr hrun).isWorded ih

namespace Operand.IsAvailable

variable {ks : List Operand} {v : Operand}

theorem of_mem (h : v ∈ ks) : v.IsAvailable ks := by
  cases v <;> first | exact h | trivial

theorem trans (h : v.IsAvailable ks) (hks : ∀ w ∈ ks, w.IsAvailable hand) :
    v.IsAvailable hand := by
  cases v <;> first | exact hks _ h | trivial

theorem mono (h : v.IsAvailable ks) (hks : ks ⊆ hand) : v.IsAvailable hand :=
  h.trans fun _ hw => of_mem (hks hw)

end Operand.IsAvailable

theorem Operand.isAvailable_zero (ks : List Operand) (ty : Ty) :
    (Operand.zero ty).IsAvailable ks := by
  unfold Operand.zero
  split <;> trivial

end Ir

/-- The words that lowering uses, and names as they are in sources. -/
def Lower.vocabulary : Vocabulary where
  label l := l ∈ ["entry", "exit", "assert.check", "assert.fail", "assert.success", "return.after",
    "abort.after", "loop.body", "loop.condition", "loop.after", "branch.after", "branch.case.cond",
    "branch.case.body", "branch.else"]
  text x := x = "format"
  routine x := isName x
  operand x := isName x

/-! ### Steps of lowering -/

/-- The builder has been asked for nothing else, and constants are cast at once. In hand are the
formats and the addresses of the variables in sight. -/
structure Lowering.Holds (name : String) (hand : List Operand) (t : Lowering) : Prop where
  built : Ir.BuiltWith Lower.vocabulary name hand t.builder
  formats : ∀ e ∈ t.formats, e.2.IsAvailable hand
  scopes : ∀ s ∈ t.scopes.slots, Operand.slotAddr s ∈ hand
  folds : t.folds = true

namespace Lower

variable {α β : Type} {name : String} {ks : List Operand}

/-- With `ks` in hand, what `x` asks of the builder are requests of the vocabulary, and what it
gives at its end is in hand. -/
def Asks (name : String) (ks : List Operand) (x : Lower α) (gives : α → List Operand) : Prop :=
  ∀ t a t' hand, t.Holds name hand → (∀ v ∈ ks, v.IsAvailable hand) → x.run t = (.ok a, t') →
    ∃ hand', t'.Holds name hand' ∧ hand ⊆ hand' ∧ ∀ v ∈ gives a, v.IsAvailable hand'

namespace Asks

variable {x : Lower α} {gives : α → List Operand} {gives' : β → List Operand}

theorem pure {a : α} (h : ∀ v ∈ gives a, v.IsAvailable ks) :
    Asks name ks (Pure.pure a : Lower α) gives := by
  intro t a t' hand ht hks hrun
  cases hrun
  exact ⟨hand, ht, List.Subset.refl hand, fun v hv => (h v hv).trans hks⟩

theorem bind {f : α → Lower β} (h : Asks name ks x gives)
    (hf : ∀ a, Asks name (gives a ++ ks) (f a) gives') : Asks name ks (x >>= f) gives' := by
  intro t b t' hand ht hks hrun
  obtain ⟨a, t₁, hx, hrest⟩ := bind_ok hrun
  obtain ⟨hand₁, ht₁, hsub, hgives⟩ := h t a t₁ hand ht hks hx
  have hks₁ : ∀ v ∈ gives a ++ ks, v.IsAvailable hand₁ :=
    List.forall_mem_append.2 ⟨hgives, fun w hw => (hks w hw).mono hsub⟩
  obtain ⟨hand', ht', hsub', hgives'⟩ := hf a t₁ b t' hand₁ ht₁ hks₁ hrest
  exact ⟨hand', ht', List.Subset.trans hsub hsub', hgives'⟩

theorem discard (h : Asks name ks x gives) :
    Asks name ks (Functor.discard x) fun _ => [] := by
  change Asks name ks (x >>= fun _ => Pure.pure ()) fun _ => []
  exact h.bind fun _ => pure (List.forall_mem_nil _)

theorem reject {span : Span} {e : LoweringError} :
    Asks name ks (Lower.reject span e : Lower α) gives := by
  intro t a t' hand ht hks hrun
  cases hrun

theorem misuse {m : Misuse} : Asks name ks (Lower.misuse m : Lower α) gives := by
  intro t a t' hand ht hks hrun
  cases hrun

theorem ite {p : Prop} [Decidable p] {y : Lower α} (hx : Asks name ks x gives)
    (hy : Asks name ks y gives) : Asks name ks (if p then x else y) gives := by
  split
  · exact hx
  · exact hy

theorem guard {p : Prop} [Decidable p] {span : Span} {e : LoweringError}
    (hx : Asks name ks x gives) :
    Asks name ks (if p then (Lower.reject span e : Lower PUnit) >>= fun _ => x else x) gives := by
  have hreject : Asks name ks (Lower.reject span e : Lower PUnit) fun _ => [] := reject
  exact ite (hreject.bind fun _ => hx) hx

theorem get {f : Lowering → Lower β} (h : ∀ t, Asks name ks (f t) gives') :
    Asks name ks (MonadState.get >>= f) gives' :=
  fun t => h t t

/-- Whatever is noted besides the builder, the formats and the scopes. -/
theorem change {g : Lowering → Lowering} (hg : ∀ t, (g t).builder = t.builder ∧
    (g t).formats = t.formats ∧ (g t).scopes = t.scopes ∧ (g t).folds = t.folds) :
    Asks name ks (modify g) fun _ => [] := by
  intro t u t' hand ht hks hrun
  cases hrun
  obtain ⟨hbuilder, hformats, hscopes, hfolds⟩ := hg t
  refine ⟨hand, ⟨?_, ?_, ?_, hfolds.trans ht.folds⟩, List.Subset.refl hand,
    List.forall_mem_nil _⟩
  · exact hbuilder.symm ▸ ht.built
  · exact hformats.symm ▸ ht.formats
  · exact hscopes.symm ▸ ht.scopes

theorem nested (h : Asks name ks x gives) : Asks name ks (Lower.nested x) gives := by
  intro t a t' hand ht hks hrun
  obtain ⟨t₁, hx, rfl⟩ := nested_eq hrun
  have henter : Lowering.Holds name hand { t with scopes := t.scopes.enter } :=
    { ht with scopes := fun s hs => ht.scopes s (by simpa [Scopes.enter] using hs) }
  obtain ⟨hand', ht', hrest⟩ := h _ a t₁ hand henter hks hx
  refine ⟨hand', { ht' with scopes := fun s hs => ht'.scopes s ?_ }, hrest⟩
  cases hscopes : t₁.scopes with
  | nil => simp [hscopes, Scopes.leave, Scopes.slots] at hs
  | cons frame outer =>
    rw [Scopes.slots_cons]
    exact List.mem_append_right _ (by simpa [hscopes, Scopes.leave] using hs)

theorem request (r : Request) {x : Build α} (hx : r.perform = gives <$> x)
    (hr : r.IsWithin vocabulary) (hoperands : ∀ v ∈ r.operands, v.IsAvailable ks) :
    Asks name ks (build x) gives := by
  intro t a t' hand ht hks hrun
  obtain ⟨b, hb, rfl⟩ := build_eq_ok hrun
  have hperform : r.perform t.builder = .ok (gives a, b) := by
    rw [hx]
    exact Build.map_ok_iff.2 ⟨a, hb, rfl⟩
  have hbuilt := ht.built.request r hr (fun v hv => (hoperands v hv).trans hks) hperform
  have hsub : hand ⊆ gives a ++ hand := List.subset_append_right _ _
  refine ⟨gives a ++ hand, ⟨hbuilt, fun e he => (ht.formats e he).mono hsub,
    fun s hs => hsub (ht.scopes s hs), ht.folds⟩, hsub, ?_⟩
  exact fun v hv => .of_mem (List.mem_append_left _ hv)

theorem look {x : Build α} (hx : Build.Looks x) : Asks name ks (build x) fun _ => [] := by
  intro t a t' hand ht hks hrun
  obtain ⟨b, hb, rfl⟩ := build_eq_ok hrun
  obtain rfl := hx _ _ _ hb
  exact ⟨hand, ht, List.Subset.refl hand, List.forall_mem_nil _⟩

end Asks

theorem newBlock_asks {label : String} (hlabel : vocabulary.label label) :
    Asks name ks (newBlock label) fun _ => [] := by
  intro t id t' hand ht hks hrun
  obtain ⟨b, hb, rfl⟩ := build_eq_ok hrun
  obtain ⟨_, c, hcreate, hrest⟩ := Build.bind_ok_iff.1 hb
  obtain ⟨_, d, happend, hreturn⟩ := Build.bind_ok_iff.1 hrest
  cases hreturn
  have hbuilt := ht.built.request (.createBlock label) hlabel (List.forall_mem_nil _)
    (Build.map_ok_iff.2 ⟨id, hcreate, rfl⟩)
  have hbuilt := hbuilt.request (.appendBlock id) trivial (List.forall_mem_nil _)
    (Build.map_ok_iff.2 ⟨_, happend, rfl⟩)
  exact ⟨hand, { ht with built := hbuilt }, List.Subset.refl hand, List.forall_mem_nil _⟩

theorem continueUnreachable_asks {label : String} (hlabel : vocabulary.label label) :
    Asks name ks (continueUnreachable label) fun _ => [] :=
  (newBlock_asks hlabel).bind fun id =>
    (Asks.request (.markUnreachable id) rfl trivial (List.forall_mem_nil _)).bind fun _ =>
    .request (.switchTo id) rfl trivial (List.forall_mem_nil _)

theorem typeOf_asks (v : Operand) : Asks name ks (typeOf v) fun _ => [] := .look (.typeOf v)

theorem find?_asks (x : String) :
    Asks name ks (find? x) fun slot? => slot?.toList.map .slotAddr := by
  intro t slot? t' hand ht hks hrun
  cases hrun
  refine ⟨hand, ht, List.Subset.refl hand, fun v hv => ?_⟩
  obtain ⟨slot, hslot, rfl⟩ := List.mem_map.1 hv
  exact ht.scopes slot (Scopes.mem_slots_of_find? (Option.mem_toList.1 hslot))

theorem slotTy_asks (slot : SlotId) : Asks name ks (slotTy slot) fun _ => [] :=
  .look (Build.Looks.currentFunction.bind fun _ => (Build.Looks.ofExcept _).map _)

theorem define_asks (x : Ident) {slot : SlotId} (hslot : Operand.slotAddr slot ∈ ks) :
    Asks name ks (define x slot) fun _ => [] := by
  intro t u t' hand ht hks hrun
  unfold define at hrun
  rw [get_bind_run] at hrun
  split at hrun
  · cases hrun
  · rename_i frame outer hscopes
    dsimp only at hrun
    split at hrun
    · cases hrun
    · cases hrun
      refine ⟨hand, { ht with scopes := fun s hs => ?_ }, List.Subset.refl hand,
        List.forall_mem_nil _⟩
      have hbound : s = slot ∨ s ∈ t.scopes.slots := by simpa [hscopes, or_assoc] using hs
      rcases hbound with rfl | hs
      · exact hks _ hslot
      · exact ht.scopes s hs

theorem format_asks (ty : Ty) (d : Library.Direction) :
    Asks name ks (format ty d) fun v => [v] := by
  intro t v t' hand ht hks hrun
  unfold format at hrun
  rw [get_bind_run] at hrun
  split at hrun
  · rename_i w hlookup
    cases hrun
    obtain ⟨before, behind, heq, -⟩ := List.lookup_eq_some_iff.1 hlookup
    have hv := ht.formats ((ty, d), v) (by simp [heq])
    exact ⟨hand, ht, List.Subset.refl hand, List.forall_mem_singleton.2 hv⟩
  · dsimp only at hrun
    split at hrun
    · cases hrun
    · obtain ⟨_, t₁, hadd, hrest⟩ := bind_ok hrun
      cases hrest
      have hasks : Asks name ks (build (Build.addString "format" (Library.format ty d)))
          fun v => [v] := .request (.addString _ _) rfl rfl (List.forall_mem_nil _)
      obtain ⟨hand', ht', hsub, hv⟩ := hasks t v t₁ hand ht hks hadd
      refine ⟨hand', { ht' with formats := fun e he => ?_ }, hsub, hv⟩
      rcases List.mem_cons.1 he with rfl | he
      · exact hv v List.mem_cons_self
      · exact ht'.formats e he

/-! ### Expressions -/

variable {v l r : Operand}

theorem cast_asks (op : Ir.CastOp) (hv : v.IsAvailable ks) (target : Ty) :
    Asks name ks (cast op v target) fun v => [v] := by
  have hfold : Asks name ks (build (Build.cast op v target)) fun v => [v] :=
    .request (.cast op v target) rfl trivial (List.forall_mem_singleton.2 hv)
  intro t w t' hand ht hks hrun
  rw [cast, get_bind_run, ht.folds] at hrun
  exact hfold t w t' hand ht hks hrun

theorem convert_asks (hv : v.IsAvailable ks) (target : Ty) :
    Asks name ks (convert v target) fun v => [v] :=
  (typeOf_asks v).bind fun source => .ite (.pure (List.forall_mem_singleton.2 hv))
    (cast_asks (castOp source target) hv target)

theorem coerce?_asks (hv : v.IsAvailable ks) (target : Ty) :
    Asks name ks (coerce? v target) Option.toList := by
  refine (typeOf_asks v).bind fun source => .ite (.pure (List.forall_mem_singleton.2 hv)) ?_
  refine .ite (.pure (List.forall_mem_nil _)) ((convert_asks hv target).bind fun w => .pure ?_)
  exact List.forall_mem_singleton.2 (.of_mem List.mem_cons_self)

theorem coerce_asks (hv : v.IsAvailable ks) (target : Ty) (span : Span)
    (e : Ty → LoweringError) : Asks name ks (coerce v target span e) fun v => [v] := by
  refine (typeOf_asks v).bind fun found => (coerce?_asks hv target).bind fun w? => ?_
  cases w? with
  | some w => exact .pure (List.forall_mem_singleton.2 (.of_mem List.mem_cons_self))
  | none => exact .reject

theorem operate_asks (operation : Operation) (hl : l.IsAvailable ks) (hr : r.IsAvailable ks) :
    Asks name ks (operate operation l r) fun v => [v] := by
  have hoperands : ∀ v ∈ [l, r], v.IsAvailable ks :=
    List.forall_mem_cons.2 ⟨hl, List.forall_mem_singleton.2 hr⟩
  cases operation with
  | arithmetic op => exact .request (.binary op l r) rfl trivial hoperands
  | comparison pred => exact .request (.compare pred l r) rfl trivial hoperands

theorem load_asks (x : Ident) : Asks name ks (load x) fun v => [v] := by
  refine (find?_asks x.text).bind fun slot? => ?_
  cases slot? with
  | some slot => exact .request (.load slot) rfl trivial (List.forall_mem_nil _)
  | none => exact .reject

theorem binary_asks (span : Span) (op : Operator) (hl : l.IsAvailable ks)
    (hr : r.IsAvailable ks) : Asks name ks (binary span op l r) fun v => [v] := by
  refine (typeOf_asks l).bind fun tl => (typeOf_asks r).bind fun tr => ?_
  split
  · exact .reject
  · rename_i ty _
    refine .ite (.ite (.request (.compare .ieq l r) rfl trivial ?_) .reject) ?_
    · exact List.forall_mem_cons.2 ⟨hl, List.forall_mem_singleton.2 hr⟩
    refine (convert_asks hl ty).bind fun l' => (convert_asks (hr.mono ?_) ty).bind fun r' => ?_
    · exact List.subset_append_right _ _
    have hl' : l'.IsAvailable ([r'] ++ ([l'] ++ ks)) := .of_mem (by simp)
    have hr' : r'.IsAvailable ([r'] ++ ([l'] ++ ks)) := .of_mem List.mem_cons_self
    refine .ite ?_ (operate_asks _ hl' hr')
    split
    · exact operate_asks _ hl' hr'
    · exact .reject

theorem callWith_asks (span : Span) (callee : Ident) (count : Nat)
    {args : List Ty → Lower (List Operand)} (hargs : ∀ types, Asks name ks (args types) id) :
    Asks name ks (callWith span callee count args) fun v => [v] := by
  refine .get fun t => ?_
  split
  · exact .reject
  · rename_i id _
    refine (Asks.look (Build.Looks.get.bind fun _ => .ofExcept _)).bind fun f => .guard ?_
    refine (hargs _).bind fun vs => .request (.call id vs) rfl trivial fun v hv => ?_
    exact .of_mem (List.mem_append_left _ hv)

mutual

theorem expr_asks (ks : List Operand) (e : Expr) : Asks name ks (expr e) fun v => [v] := by
  match e with
  | .int n _ =>
    unfold expr
    refine .pure (List.forall_mem_singleton.2 ?_)
    unfold literal
    split <;> trivial
  | .float x _ =>
    unfold expr
    exact .pure (List.forall_mem_singleton.2 trivial)
  | .var x =>
    unfold expr
    exact load_asks x
  | .binary op lhs rhs =>
    unfold expr
    refine (expr_asks ks lhs).bind fun l => (expr_asks _ rhs).bind fun r => binary_asks _ op ?_ ?_
    · exact .of_mem (by simp)
    · exact .of_mem List.mem_cons_self
  | .semi op lead rhs span =>
    unfold expr
    refine (load_asks lead).bind fun l => (expr_asks _ rhs).bind fun r => binary_asks _ op ?_ ?_
    · exact .of_mem (by simp)
    · exact .of_mem List.mem_cons_self
  | .call callee args span =>
    unfold expr
    exact callWith_asks _ _ _ fun types => arguments_asks ks callee.text args types

theorem arguments_asks (ks : List Operand) (callee : String) (args : List Expr)
    (types : List Ty) : Asks name ks (arguments callee args types) id := by
  match args, types with
  | [], _ | _ :: _, [] =>
    unfold arguments
    exact .pure (List.forall_mem_nil _)
  | arg :: args, ty :: types =>
    unfold arguments
    refine (expr_asks ks arg).bind fun v => ?_
    refine (coerce_asks (.of_mem List.mem_cons_self) ty _ _).bind fun w => ?_
    refine (arguments_asks _ callee args types).bind fun ws => .pure fun u hu => .of_mem ?_
    rcases List.mem_cons.1 hu with rfl | hu
    · simp
    · exact List.mem_append_left _ hu

end

theorem truth_asks (span : Span) (hv : v.IsAvailable ks) :
    Asks name ks (truth span v) fun v => [v] := by
  have hzero (ty : Ty) : ∀ w ∈ [v, .zero ty], w.IsAvailable ks :=
    List.forall_mem_cons.2 ⟨hv, List.forall_mem_singleton.2 (Operand.isAvailable_zero ks ty)⟩
  refine (Asks.look (.isComparison v)).bind fun compared =>
    .ite (.pure (List.forall_mem_singleton.2 hv)) ((typeOf_asks v).bind fun ty => ?_)
  exact .ite (.request (.compare .ine v (.zero ty)) rfl trivial (hzero ty))
    (.ite (.request (.compare .fune v (.zero ty)) rfl trivial (hzero ty)) .reject)

theorem condition_asks (ks : List Operand) (e : Expr) :
    Asks name ks (condition e) fun v => [v] :=
  (expr_asks ks e).bind fun _ => truth_asks e.span (.of_mem List.mem_cons_self)

end Lower

end Quill
