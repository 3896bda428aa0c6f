import Quill.Proofs.Lowering.Safety
import Quill.Proofs.Typing.Stmt

/-! # Lowering accepts the well-typed programs

Names are checked when the routines are declared, and each body when it is lowered. A program that
was parsed is lowered to a module if and only if it is well typed.
-/
namespace Quill

open Ir (BlockId Build FuncId Module SlotId Ty)

/-! ### Bodies -/

/-- The names are different from each other and from those of the frame. -/
def Param.Distinct (ps : List Param) (frame : List (String × Ty)) : Prop :=
  (ps.map fun x => x.name.text).Nodup ∧ ∀ x ∈ ps, frame.lookup x.name.text = none

theorem Param.distinct_cons {p : Param} {rest : List Param} {frame : List (String × Ty)} :
    Distinct (p :: rest) frame ↔
      frame.lookup p.name.text = none ∧ Distinct rest ((p.name.text, p.type.ty) :: frame) := by
  have hlookup (x : Param) : List.lookup x.name.text ((p.name.text, p.type.ty) :: frame) = none ↔
      x.name.text ≠ p.name.text ∧ frame.lookup x.name.text = none := by
    rw [List.lookup_cons]
    cases hx : x.name.text == p.name.text with
    | true => simp [eq_of_beq hx]
    | false => simp [ne_of_beq_false hx]
  simp only [Distinct, List.map_cons, List.nodup_cons, List.mem_map, not_exists, not_and,
    List.forall_mem_cons, hlookup]
  constructor
  · rintro ⟨⟨hnew, hnodup⟩, hp, hrest⟩
    exact ⟨hp, hnodup, fun x hx => ⟨hnew x hx, hrest x hx⟩⟩
  · rintro ⟨hp, hnodup, hrest⟩
    exact ⟨⟨fun x hx => (hrest x hx).1, hnodup⟩, hp, fun x hx => (hrest x hx).2⟩

namespace Lower

open Site

theorem verify_plain (id : FuncId) (span : Span) : Plain (Lower.verify id span) :=
  .verify fun _ hfacing => hfacing _ rfl

variable {σ : Site} {d : Draft} {fs : List FunctionDecl}

theorem bindParams_decides (h : σ.Ready d) {frame : List (String × Ty)}
    (hΓ : ScopesMatch d.function d.scopes [frame]) (index : Nat) (ps : List Param)
    (hvoid : ∀ p ∈ ps, p.type.ty ≠ .void)
    (hparams : ∀ (k : Nat) (p : Param), ps[k]? = some p →
      d.function.params[index + k]? = some ⟨p.name.text, p.type.ty⟩) :
    σ.Decides (bindParams index ps) d
      (fun _ d' => Param.Distinct ps frame ∧ ScopesMatch d'.function d'.scopes
        [(ps.map fun x => (x.name.text, x.type.ty)).reverse ++ frame])
      (¬Param.Distinct ps frame) := by
  induction ps generalizing d frame index with
  | nil => exact .pure ⟨⟨.nil, by simp⟩, hΓ⟩
  | cons p rest ih =>
    unfold bindParams
    refine .after (alloca_leads h p.name.text (hvoid p List.mem_cons_self)) (.build _)
      fun slot d₁ hacts => ?_
    obtain ⟨hnext, hslot, hacts⟩ := hacts
    have hparam : d₁.function.typeOf (.param index) = .ok p.type.ty := by
      have hp := hparams 0 p rfl
      rw [← hacts.straight.work.continues.params] at hp
      simp only [Ir.Function.typeOf, Ir.Function.param, Ir.map_eq_ok, Ir.entry_eq_ok]
      exact ⟨_, by simpa using hp, rfl⟩
    refine .after (store_leads hacts.ready hslot hparam) (.build _) fun _ d₂ hs => ?_
    have hstraight := hacts.straight.trans hs.straight
    have hslot₂ := hs.straight.work.continues.hasSlot hslot
    have hΓ₂ := hstraight.scopesMatch hΓ
    have hdefined := hΓ₂.definedHere p.name.text
    simp only [Context.definedHere, List.head?_cons, Option.any_some] at hdefined
    refine .bind (define_leads hs.ready.scopes) (define_decides hs.ready.scopes)
      (fun hold hdistinct => ?_) fun _ d₃ hdefine _ => ?_
    · rw [hdefined, (Param.distinct_cons.1 hdistinct).1] at hold
      cases hold
    obtain ⟨rfl, hnew⟩ := hdefine
    have hold : frame.lookup p.name.text = none := by
      rw [hdefined] at hnew
      simpa using hnew
    obtain ⟨name, hname⟩ := hslot₂
    have hw := hstraight.work.bind p.name.text (Array.getElem?_eq_some_iff.1 hname).1
    refine (ih ⟨hw.sane, hstraight.isOpen⟩ (hΓ₂.bind p.name.text ⟨name, hname⟩) (index + 1)
      (fun q hq => hvoid q (List.mem_cons_of_mem _ hq)) fun k q hq => ?_).mono ?_ ?_
    · have hp := hparams (k + 1) q hq
      rw [← hstraight.work.continues.params] at hp
      rwa [show index + (k + 1) = index + 1 + k by omega] at hp
    · rintro _ d' ⟨hdistinct, hmatch⟩
      exact ⟨Param.distinct_cons.2 ⟨hold, hdistinct⟩, by simpa using hmatch⟩
    · exact fun hno hdistinct => hno (Param.distinct_cons.1 hdistinct).2

theorem exit_plain (exit : BlockId) (result : Option SlotId) :
    Plain (do
      build (Build.br exit)
      build (Build.appendBlock exit)
      build (Build.switchTo exit)
      let v ← result.mapM fun slot => build (Build.load slot)
      build (Build.ret v)
      modify fun s => { s with frame := none }) := by
  refine (Rejects.build _).bind fun _ => (Rejects.build _).bind fun _ =>
    (Rejects.build _).bind fun _ => ?_
  have hload : Plain (result.mapM fun slot => build (Build.load slot)) := by
    cases result with
    | none => exact .pure _
    | some slot => exact (Rejects.build _).map
  exact hload.bind fun _ => (Rejects.build _).bind fun _ => .change _

/-- A body is lowered if its parameters have different names and its statements are well typed. -/
theorem body_decides (hσ : σ.Knows fs) (h : σ.Ready d) (r : Routine)
    (hret : d.function.ret = r.result.ty) (hvoid : ∀ p ∈ r.params, p.type.ty ≠ .void)
    (hparams : d.function.params = r.params.map fun p => ⟨p.name.text, p.type.ty⟩)
    (hscopes : d.scopes = [[]]) :
    σ.Decides (body r) d
      (fun _ _ => (r.params.map fun x => x.name.text).Nodup ∧
        StmtsTyped fs r.result.ty (.ofParams r.params) r.body)
      (¬((r.params.map fun x => x.name.text).Nodup ∧
        StmtsTyped fs r.result.ty (.ofParams r.params) r.body)) := by
  unfold body
  refine .after (resultSlot_leads h r hret) (.resultSlot r) fun result d₁ ⟨hfits₁, h₁⟩ => ?_
  have hresult₁ : ∀ s, result = some s → s.index < d₁.function.slots.size := by
    rintro s rfl
    obtain ⟨name, hname⟩ := hfits₁
    exact (Array.getElem?_eq_some_iff.1 hname).1
  have hparams₁ (k : Nat) (p : Param) (hp : r.params[k]? = some p) :
      d₁.function.params[0 + k]? = some ⟨p.name.text, p.type.ty⟩ := by
    rw [h₁.straight.work.continues.params, hparams]
    simp [hp]
  have hΓ₁ : ScopesMatch d₁.function d₁.scopes [[]] := by
    rw [h₁.straight.scopes, hscopes]
    exact .cons .nil .nil
  refine .bind (bindParams_leads h₁.ready hresult₁ 0 r.params hvoid hparams₁)
    (bindParams_decides h₁.ready hΓ₁ 0 r.params hvoid hparams₁)
    (fun hno ht => hno ⟨ht.1, by simp⟩)
    fun _ d₂ ⟨hopen₂, hw₂, _⟩ ⟨⟨hnodup, _⟩, hΓ₂⟩ => ?_
  rw [List.append_nil] at hΓ₂
  refine .after (createBlock_leads (h₁.straight.work.trans hw₂) _) (.build _) fun exit d₃ h₃ => ?_
  have hcont₃ := hw₂.continues.trans h₃.continues
  have hfits₃ : d₃.ResultFits result := hfits₁.mono hcont₃
  let frame : BodyFrame := ⟨exit, result⟩
  let d₄ : Draft := { d₃ with frame := some frame }
  have hw₄ : σ.Work { d with frame := some frame } [exit] [exit] d₄ :=
    work_withFrame h₃.work (h₃.work.waiting_lt (List.mem_singleton_self exit)) hfits₃
  have hready₄ := hw₄.ready (h₃.isOpen.2 hopen₂)
  have hstands : Stands σ fs r.result.ty frame (.ofParams r.params) d₄ :=
    { knows := hσ
      ready := hready₄
      frame := rfl
      ret := h₃.work.continues.ret.trans hret
      scopes := (show d₄.scopes = d₂.scopes from h₃.scopes) ▸ hΓ₂.mono h₃.continues }
  refine .step (show _ = (Except.ok (), σ.working d₄) from rfl) ?_
  refine .bind (stmts_leads hready₄ rfl r.body) (stmts_decides hstands r.body)
    (fun hno ht => hno ht.2) fun _ d₅ _ hstmts => ?_
  exact .of_plain (exit_plain exit result) fun _ _ => ⟨hnodup, hstmts⟩

/-! ### Routines -/

section

variable {rs : List Routine} {table : List (String × FuncId)} {n : Nat} {t : Lowering} {r : Routine}

theorem defineRoutine_decides (h : Defines rs table n t) (hr : rs[n]? = some r)
    (htable : ∀ x id, table.lookup x = some id → id.index < 3 + rs.length)
    (hvoid : ∀ r ∈ rs, ∀ p ∈ r.params, p.type.ty ≠ .void)
    (hknows : (h.site hr htable hvoid).Knows fs) :
    Decides (defineRoutine r ⟨3 + n⟩) t (fun _ _ => r.WellTyped fs) (¬r.WellTyped fs) := by
  unfold defineRoutine
  by_cases hempty : r.body = []
  · simp only [hempty, List.isEmpty_nil, ↓reduceIte]
    exact fun hne => absurd hempty hne
  · have hisEmpty : r.body.isEmpty = false := by simpa using hempty
    simp only [hisEmpty, Bool.false_eq_true, ↓reduceIte]
    have hbody := body_decides hknows (beginning_ready h hr htable hvoid) r rfl
      (hvoid r (List.mem_of_getElem? hr)) rfl (congrArg Scopes.enter h.scopes)
    have hnested : (h.site hr htable hvoid).Decides (nested (body r)) (beginning t r)
        (fun _ _ => r.WellTyped fs) (¬r.WellTyped fs) :=
      (Site.Decides.nested hbody).mono (fun _ _ ht _ => ht) fun hno ht => hno (ht hempty)
    unfold Decides
    rw [entry_run h hr htable hvoid]
    refine Lower.Decides.bind (body_reaches h hr htable hvoid) hnested ?_
    rintro _ _ ⟨d', rfl, -⟩ ht
    exact .of_plain ((verify_plain _ _).bind fun _ => .change _) fun _ _ _ => ht d' rfl

/-- The routines without a body of their own aside, all are well typed. -/
theorem defineRoutines_decides {rest : List Routine} {t : Lowering} (h : Defines rs table n t)
    (hrest : rs.drop n = rest)
    (htable : ∀ x id, table.lookup x = some id → id.index < 3 + rs.length)
    (hvoid : ∀ r ∈ rs, ∀ p ∈ r.params, p.type.ty ≠ .void)
    (hknows : ∀ {n : Nat} {r : Routine} {t : Lowering} (h : Defines rs table n t)
      (hr : rs[n]? = some r), (h.site hr htable hvoid).Knows fs) :
    Decides ((rest.zip ((List.range' (3 + n) rest.length).map FuncId.mk)).forM
      fun (r, k) => defineRoutine r k) t (fun _ _ => ∀ r ∈ rest, r.WellTyped fs)
      (¬∀ r ∈ rest, r.WellTyped fs) := by
  induction rest generalizing n t with
  | nil => exact fun _ hr => by simp at hr
  | cons r rest ih =>
    have hr : rs[n]? = some r := by
      have := congrArg (·[0]?) hrest
      simpa using this
    have hnext : rs.drop (n + 1) = rest := by
      rw [← List.drop_drop, hrest, List.drop_succ_cons, List.drop_zero]
    rw [List.length_cons, List.range'_succ, List.map_cons, List.zip_cons_cons, List.forM]
    refine .bind (defineRoutine_reaches h hr htable hvoid)
      ((defineRoutine_decides h hr htable hvoid (hknows h hr)).mono (fun _ _ hr => hr)
        fun hno hall => hno (hall r List.mem_cons_self)) fun _ t₁ h₁ hr₁ => ?_
    refine (ih h₁ hnext).mono (fun _ _ hall => ?_) fun hno hall => hno fun q hq => ?_
    · exact List.forall_mem_cons.2 ⟨hr₁, hall⟩
    · exact hall q (List.mem_cons_of_mem r hq)

end

/-! ### Declarations -/

/-- The names of routines are free to use and different from each other. -/
structure NamesFree (rs : List Routine) : Prop where
  notReserved : ∀ r ∈ rs, Library.isReserved r.name = false
  nodup : (rs.map Routine.name).Nodup

theorem Declares.namesFree {rs : List Routine} {t : Lowering} (h : Declares rs t) : NamesFree rs :=
  ⟨h.notReserved, h.names⟩

theorem NamesFree.of_append {rs rest : List Routine} (h : NamesFree (rs ++ rest)) : NamesFree rs :=
  ⟨fun r hr => h.notReserved r (List.mem_append_left _ hr),
    (List.nodup_append.1 (by simpa using h.nodup)).1⟩

theorem declareRoutine_decides {done : List Routine} {t : Lowering} (h : Declares done t)
    (r : Routine) :
    Decides (declareRoutine r) t (fun _ _ => True) (¬NamesFree (done ++ [r])) := by
  unfold declareRoutine
  by_cases hreserved : Library.isReserved r.name = true
  · simp only [hreserved, ↓reduceIte]
    refine fun _ hfree => ?_
    simpa [hreserved] using hfree.notReserved r (by simp)
  · simp only [hreserved, Bool.false_eq_true, ↓reduceIte]
    by_cases hnew : ∀ f ∈ t.builder.module.functions, f.name ≠ r.name
    · refine .step (build_ok (declareFunction_ok h.indexed _ _ hnew)) (.of_plain ?_ fun _ _ _ => trivial)
      cases r.isEntry with
      | true => exact (Rejects.change _).bind fun _ => .pure _
      | false => exact (Rejects.change _).bind fun _ => (Rejects.change _).bind fun _ => .pure _
    · refine .step (build_ok (declareFunction_taken h.indexed _ _ hnew)) (.reject fun hfree => hnew ?_)
      have hname : ∀ q ∈ done, q.name ≠ r.name := by
        have hnodup := hfree.nodup
        rw [List.map_append, List.nodup_append] at hnodup
        exact fun q hq => hnodup.2.2 _ (List.mem_map_of_mem hq) _ (by simp)
      rw [h.functions]
      intro f hf hfr
      simp only [List.append_toArray, List.mem_toArray, List.mem_append, List.mem_map] at hf
      rcases hf with hf | ⟨q, hq, rfl⟩
      · refine hreserved ?_
        rw [← hfr]
        simp only [List.mem_cons, List.not_mem_nil, or_false] at hf
        rcases hf with rfl | rfl | rfl <;> rfl
      · exact hname q hq hfr

theorem declareRoutines_decides {done : List Routine} {t : Lowering} (h : Declares done t)
    (rs : List Routine) :
    Decides (rs.mapM declareRoutine) t (fun _ _ => True) (¬NamesFree (done ++ rs)) := by
  induction rs generalizing done t with
  | nil => exact trivial
  | cons r rest ih =>
    rw [List.mapM_cons]
    rw [← List.singleton_append, ← List.append_assoc]
    refine .bind (declareRoutine_reaches h r) ((declareRoutine_decides h r).mono
      (fun _ _ _ => trivial) fun hno hfree => hno hfree.of_append) fun id t₁ ⟨h₁, _⟩ _ => ?_
    exact .bind (declareRoutines_reaches h₁ rest) (ih h₁) fun _ _ _ _ => trivial

/-! ### Programs -/

theorem not_isReserved_iff {name : String} :
    Library.isReserved name = false ↔ name ∉ ["printf", "scanf", "abort"] := by
  simp [Library.isReserved, Library.printName, Library.readName, Library.abortName, and_assoc]

variable {p : Program}

theorem namesFree_iff (hmain : ∀ f ∈ p.functions, f.name.text ≠ "main") :
    NamesFree p.routines ↔ (∀ f ∈ p.functions, f.name.text ∉ ["printf", "scanf", "abort"]) ∧
      (p.functions.map fun f => f.name.text).Nodup := by
  have hnames : (p.functions.map FunctionDecl.routine).map Routine.name =
      p.functions.map fun f => f.name.text := by
    rw [List.map_map]
    rfl
  constructor
  · intro h
    have hleft : NamesFree (p.functions.map FunctionDecl.routine) := h.of_append
    exact ⟨fun f hf => not_isReserved_iff.1 (hleft.notReserved _ (List.mem_map_of_mem hf)),
      hnames ▸ hleft.nodup⟩
  · rintro ⟨hnotReserved, hnodup⟩
    refine ⟨fun r hr => ?_, ?_⟩
    · rcases List.mem_append.1 hr with hr | hr
      · obtain ⟨f, hf, rfl⟩ := List.mem_map.1 hr
        exact not_isReserved_iff.2 (hnotReserved f hf)
      · obtain ⟨e, -, rfl⟩ := Option.map_eq_some_iff.1 (Option.mem_toList.1 hr)
        rfl
    · unfold Program.routines
      rw [List.map_append, hnames]
      cases p.main with
      | none => simpa using hnodup
      | some e =>
        refine List.nodup_append.2 ⟨hnodup, by simp, ?_⟩
        rintro _ hf _ he rfl
        obtain ⟨f, hf, hfe⟩ := List.mem_map.1 hf
        refine hmain f hf (hfe.trans ?_)
        simpa [EntryPoint.routine] using he

/-- The functions that may be called are found under their names when bodies are lowered. -/
theorem Defines.knows {table : List (String × FuncId)} {n : Nat} {t : Lowering} {r : Routine}
    (h : Defines p.routines table n t) (hr : p.routines[n]? = some r)
    (htable : ∀ x id, table.lookup x = some id → id.index < 3 + p.routines.length)
    (hvoid : ∀ r ∈ p.routines, ∀ x ∈ r.params, x.type.ty ≠ .void)
    (hnames : (p.functions.map fun f => f.name.text).Nodup)
    (hlookup : ∀ x id, table.lookup x = some id ↔
      ∃ k r, p.routines[k]? = some r ∧ r.isEntry = false ∧ r.name = x ∧ id = ⟨3 + k⟩) :
    (h.site hr htable hvoid).Knows p.functions where
  names := hnames
  listed x id hx := by
    change t.functions.lookup x = some id at hx
    rw [h.functions] at hx
    obtain ⟨k, q, hq, hentry, hname, -⟩ := (hlookup x id).1 hx
    rcases List.mem_append.1 (List.mem_of_getElem? hq) with hmem | hmem
    · obtain ⟨g, hg, rfl⟩ := List.mem_map.1 hmem
      exact ⟨g, hg, hname⟩
    · obtain ⟨e, -, rfl⟩ := Option.map_eq_some_iff.1 (Option.mem_toList.1 hmem)
      cases hentry
  found g hg := by
    obtain ⟨k, hk, rfl⟩ := List.mem_iff_getElem.1 hg
    have hget : p.routines[k]? = some p.functions[k].routine := by
      unfold Program.routines
      rw [List.getElem?_append_left (by simpa using hk)]
      simp [hk]
    refine ⟨⟨3 + k⟩, ?_, h.signature k _ hget⟩
    change t.functions.lookup _ = _
    rw [h.functions]
    exact (hlookup _ _).2 ⟨k, _, hget, rfl, rfl, rfl⟩

theorem routines_decide {s : Lowering} (hs : Declares [] s) (hmain : ∀ f ∈ p.functions, f.name.text ≠ "main")
    (hvoid : ∀ r ∈ p.routines, ∀ x ∈ r.params, x.type.ty ≠ .void) :
    Decides (routines p.routines) s (fun _ _ => p.WellTyped) (¬p.WellTyped) := by
  have hfree := namesFree_iff hmain
  unfold routines
  refine .bind (declareRoutines_reaches hs p.routines)
    ((declareRoutines_decides hs p.routines).mono
      (fun _ _ _ => trivial) fun hno ht => hno (hfree.2 ⟨ht.notReserved, ht.names⟩))
    fun ids t ⟨ht, hids⟩ _ => ?_
  rw [List.nil_append] at ht
  subst hids
  obtain ⟨hnotReserved, hnames⟩ := hfree.1 ht.namesFree
  have htable : ∀ x id, t.functions.lookup x = some id → id.index < 3 + p.routines.length := by
    intro x id hx
    obtain ⟨k, r, hr, -, -, rfl⟩ := (ht.table x id).1 hx
    exact Nat.add_lt_add_left (List.getElem?_eq_some_iff.1 hr).1 3
  refine (defineRoutines_decides ht.defines List.drop_zero htable hvoid
    fun h hr => h.knows hr htable hvoid hnames ht.table).mono (fun _ _ hall => ?_) ?_
  · exact ⟨hnotReserved, hnames, hall⟩
  · exact fun hno hp => hno hp.bodies

end Lower

namespace Program

variable {o : LexerOptions} {fileName : String} {feed : Feed} {p : Program}

/-- No function of a parsed program is called like the entry point. -/
theorem name_ne_main (h : (Program.parse o fileName feed).outcome = .ok p) :
    ∀ f ∈ p.functions, f.name.text ≠ "main" := by
  intro f hf hname
  have hentry := isEntry_of_main h f.routine
    (List.mem_append_left _ (List.mem_map_of_mem hf)) hname
  cases hentry

/-- Lowering a parsed program yields a module of a well-typed program, or an error. -/
theorem lowerFrom_decides (h : (Program.parse o fileName feed).outcome = .ok p) {s : Lowering}
    (hs : Lower.Declares [] s) :
    (∃ m, (p.lowerFrom s).outcome = .ok m ∧ p.WellTyped) ∨
      ∃ e, (p.lowerFrom s).outcome = .error e ∧ ¬p.WellTyped := by
  have hdecides := Lower.routines_decide hs (name_ne_main h) (params_routines h)
  have houtcome := p.lowerFrom_outcome hs (params_routines h)
  unfold Lower.Decides at hdecides
  unfold lowerFrom at houtcome ⊢
  generalize (Lower.routines p.routines).run s = out at hdecides houtcome
  match out, hdecides, houtcome with
  | (.ok _, t), hdecides, _ => exact .inl ⟨_, rfl, hdecides⟩
  | (.error e, t), hdecides, .inl ⟨m, hm, _⟩ => cases hm
  | (.error e, t), hdecides, .inr ⟨r, hr, hfacing⟩ =>
    cases hr
    exact .inr ⟨_, rfl, hdecides hfacing⟩

theorem lower_decides (h : (Program.parse o fileName feed).outcome = .ok p) :
    (∃ m, p.lower.outcome = .ok m ∧ p.WellTyped) ∨
      ∃ e, p.lower.outcome = .error e ∧ ¬p.WellTyped :=
  lowerFrom_decides h (Lower.start_declares p.fileName)

theorem wellTyped_of_lower {m : Module} (h : (Program.parse o fileName feed).outcome = .ok p)
    (hm : p.lower.outcome = .ok m) : p.WellTyped := by
  rcases lower_decides h with ⟨_, _, hp⟩ | ⟨e, he, _⟩
  · exact hp
  · cases hm.symm.trans he

theorem exists_lower (h : (Program.parse o fileName feed).outcome = .ok p) (hp : p.WellTyped) :
    ∃ m, p.lower.outcome = .ok m := by
  rcases lower_decides h with ⟨m, hm, _⟩ | ⟨_, _, hno⟩
  · exact ⟨m, hm⟩
  · exact absurd hp hno

/-- A parsed program is lowered to a module if and only if it is well typed. -/
theorem lower_ok_iff_wellTyped (h : (Program.parse o fileName feed).outcome = .ok p) :
    (∃ m, p.lower.outcome = .ok m) ↔ p.WellTyped :=
  ⟨fun ⟨_, hm⟩ => wellTyped_of_lower h hm, exists_lower h⟩

/-- A program whose condition asks for a variable of the loop's body. -/
def outOfSightSource : List UInt8 :=
  Utf8.encode "main do var n: integer = 2, while n > 0 return 0!"

theorem lower_ok_iff_wellTyped_samples :
    (∃ p, (Program.parse .usual "sample" (.whole sampleSource)).outcome = .ok p ∧
      p.WellTyped) ∧
    ∃ p, (Program.parse .usual "sample" (.whole outOfSightSource)).outcome = .ok p ∧
      ¬p.WellTyped := by
  constructor
  · obtain ⟨p, m, hp, hm⟩ := sample_compiles
    exact ⟨p, hp, (lower_ok_iff_wellTyped hp).1 ⟨m, hm⟩⟩
  · have hrejected : ((Program.parse .usual "sample" (.whole outOfSightSource)).outcome.toOption.map
        fun p => p.lower.outcome.toOption.isSome) = some false := by
      rw [Program.outcome_parse_whole]
      decide +kernel
    obtain ⟨p, hp, hnone⟩ := exists_ok_of_map hrejected
    refine ⟨p, hp, fun ht => ?_⟩
    obtain ⟨m, hm⟩ := (lower_ok_iff_wellTyped hp).2 ht
    rw [hm] at hnone
    cases hnone

end Program

end Quill
