import Quill.Proofs.Outline.Forest
import Quill.Proofs.Syntax.Bare
import Quill.Proofs.Syntax.Identifiers

/-! # Outlines determine their trees

Two accepted programs have the same outline exactly if they are the same up to what outlines do not
show: the places of statements, functions and names, and the name of the file.
-/
namespace Quill

/-! ### What outlines show -/

mutual

def Expr.sketch (e : Expr) : Expr :=
  match e with
  | .int n s => .int n s
  | .float x s => .float x s
  | .var x => .var x
  | .binary op lhs rhs => .binary op lhs.sketch rhs.sketch
  | .semi op lead rhs s => .semi op lead rhs.sketch s
  | .call callee args s => .call callee.bare (Expr.sketches args) s

def Expr.sketches (es : List Expr) : List Expr :=
  match es with
  | [] => []
  | e :: rest => e.sketch :: Expr.sketches rest

end

mutual

/-- The lead variable of a branch is an operand of its conditions, so it keeps its place. -/
def Stmt.sketch (s : Stmt) : Stmt :=
  match s with
  | .assert c _ => .assert c.sketch .nowhere
  | .read x _ => .read x.bare .nowhere
  | .abort _ => .abort .nowhere
  | .call callee args span => .call callee.bare (Expr.sketches args) span
  | .print e _ => .print e.sketch .nowhere
  | .assign x e _ => .assign x.bare e.sketch .nowhere
  | .declare x t init _ => .declare x.bare t (init.map Expr.sketch) .nowhere
  | .loop body c _ => .loop (Stmt.sketches body) c.sketch .nowhere
  | .branch lead cs none _ => .branch lead (Case.sketches cs) none .nowhere
  | .branch lead cs (some body) _ =>
    .branch lead (Case.sketches cs) (some (Stmt.sketches body)) .nowhere
  | .ret value _ => .ret (value.map Expr.sketch) .nowhere

def Stmt.sketches (ss : List Stmt) : List Stmt :=
  match ss with
  | [] => []
  | s :: rest => s.sketch :: Stmt.sketches rest

def Case.sketches (cs : List Case) : List Case :=
  match cs with
  | [] => []
  | .mk c body :: rest => .mk c.sketch (Stmt.sketches body) :: Case.sketches rest

end

def Param.sketch (p : Param) : Param := ⟨p.name.bare, p.type⟩

def FunctionDecl.sketch (f : FunctionDecl) : FunctionDecl :=
  ⟨f.name.bare, f.result, f.params.map Param.sketch, Stmt.sketches f.body, .nowhere⟩

def EntryPoint.sketch (m : EntryPoint) : EntryPoint := ⟨Stmt.sketches m.body, .nowhere⟩

def Program.sketch (p : Program) : Program :=
  ⟨p.functions.map FunctionDecl.sketch, p.main.map EntryPoint.sketch, ""⟩

/-! ### A program and its sketch have the same outline -/

open Outline (Entry Label Line)

theorem Expr.span_sketch (e : Expr) : e.sketch.span = e.span := by
  match e with
  | .int .. | .float .. | .var _ | .semi .. | .call .. => rfl
  | .binary op lhs rhs => simp only [sketch, span, lhs.span_sketch, rhs.span_sketch]

mutual

theorem Expr.entry_sketch (e : Expr) : e.sketch.entry = e.entry := by
  match e with
  | .int .. | .float .. | .var _ => rfl
  | .binary op lhs rhs =>
    simp only [Expr.sketch, Expr.entry, Expr.span, Expr.span_sketch, lhs.entry_sketch,
      rhs.entry_sketch]
  | .semi op lead rhs s =>
    simp only [Expr.sketch, Expr.entry, rhs.entry_sketch]
  | .call callee args s => simp only [Expr.sketch, Expr.entry, Expr.entries_sketches args, Ident.bare]

theorem Expr.entries_sketches (es : List Expr) :
    Expr.entries (Expr.sketches es) = Expr.entries es := by
  match es with
  | [] => rfl
  | e :: rest => simp only [Expr.sketches, Expr.entries, e.entry_sketch, Expr.entries_sketches rest]

end

mutual

theorem Stmt.entries_sketch (s : Stmt) : s.sketch.entries = s.entries := by
  match s with
  | .read .. | .abort _ | .declare _ _ none _ | .ret none _ => rfl
  | .assert .. | .print .. | .assign .. | .declare _ _ (some _) _ | .ret (some _) _ =>
    simp only [Stmt.sketch, Stmt.entries, Expr.entry_sketch, Ident.bare, Option.map_some]
  | .call callee args span =>
    simp only [Stmt.sketch, Stmt.entries, Expr.entry, Expr.entries_sketches, Ident.bare]
  | .loop body c _ =>
    simp only [Stmt.sketch, Stmt.entries, Expr.entry_sketch, Stmt.allEntries_sketches body]
  | .branch lead cs none _ =>
    simp only [Stmt.sketch, Stmt.entries, Case.allEntries_sketches cs]
  | .branch lead cs (some body) _ =>
    simp only [Stmt.sketch, Stmt.entries, Case.allEntries_sketches cs,
      Stmt.allEntries_sketches body]

theorem Stmt.allEntries_sketches (ss : List Stmt) :
    Stmt.allEntries (Stmt.sketches ss) = Stmt.allEntries ss := by
  match ss with
  | [] => rfl
  | s :: rest =>
    simp only [Stmt.sketches, Stmt.allEntries, s.entries_sketch, Stmt.allEntries_sketches rest]

theorem Case.allEntries_sketches (cs : List Case) :
    Case.allEntries (Case.sketches cs) = Case.allEntries cs := by
  match cs with
  | [] => rfl
  | .mk c body :: rest =>
    simp only [Case.sketches, Case.allEntries, Expr.entry_sketch, Stmt.allEntries_sketches body,
      Case.allEntries_sketches rest]

end

theorem Stmt.isEmpty_sketches (ss : List Stmt) : (Stmt.sketches ss).isEmpty = ss.isEmpty := by
  cases ss <;> rfl

theorem FunctionDecl.entry_sketch (f : FunctionDecl) : f.sketch.entry = f.entry := by
  simp [sketch, entry, Stmt.isEmpty_sketches, Stmt.allEntries_sketches, Ident.bare,
    Param.sketch, Param.entry, Function.comp_def]

theorem EntryPoint.entry_sketch (m : EntryPoint) : m.sketch.entry = m.entry := by
  simp only [sketch, entry, Stmt.isEmpty_sketches, Stmt.allEntries_sketches]

theorem Program.outline_sketch (p : Program) : p.sketch.outline = p.outline := by
  have hentries : p.sketch.entries = p.entries := by
    cases hmain : p.main <;>
      simp [sketch, entries, hmain, Function.comp_def, FunctionDecl.entry_sketch,
        EntryPoint.entry_sketch]
  rw [outline_eq, outline_eq, hentries]

/-! ### Forests determine their trees -/

theorem Ident.eq_of_parts {x x' : Ident} (h : x.text = x'.text ∧ x.span = x'.span) : x = x' := by
  cases x
  cases x'
  rwa [mk.injEq]

mutual

theorem Expr.sketch_of_entry {e e' : Expr} (h : e.entry = e'.entry) : e.sketch = e'.sketch := by
  match e with
  | .int .. | .float .. =>
    cases e' <;> simp [Expr.entry, Ident.entry] at h
    rw [h.1, h.2]
  | .var x =>
    cases e' <;> simp [Expr.entry, Ident.entry] at h
    rw [Ident.eq_of_parts h]
  | .binary op lhs rhs =>
    cases e' <;> simp [Expr.entry, Ident.entry] at h
    simp only [Expr.sketch, h.1.1, Expr.sketch_of_entry h.2.1, Expr.sketch_of_entry h.2.2]
  | .semi op lead rhs s =>
    cases e' <;> simp [Expr.entry, Ident.entry] at h
    simp only [Expr.sketch, h.1.1, h.1.2, Ident.eq_of_parts h.2.1, Expr.sketch_of_entry h.2.2]
  | .call callee args s =>
    cases e' <;> simp [Expr.entry, Ident.entry] at h
    simp only [Expr.sketch, Ident.bare, h.1.1, h.1.2, Expr.sketches_of_entries h.2]

theorem Expr.sketches_of_entries {es es' : List Expr} (h : Expr.entries es = Expr.entries es') :
    Expr.sketches es = Expr.sketches es' := by
  match es with
  | [] =>
    cases es' <;> simp [Expr.entries] at h
    rfl
  | e :: rest =>
    cases es' <;> simp [Expr.entries] at h
    simp only [Expr.sketches, Expr.sketch_of_entry h.1, Expr.sketches_of_entries h.2]

end

def Stmt.label : Stmt → Label
  | assert .. => .fixed .assert
  | read x _ => .verb .read x.text
  | abort _ => .fixed .abort
  | call .. => .fixed .expression
  | print .. => .fixed .print
  | assign x _ _ => .verb .assign x.text
  | declare x t init _ => .declare x.text t init.isSome
  | loop .. => .fixed .do
  | branch lead _ _ _ => .verb .branch lead.text
  | ret .. => .fixed .return

theorem Stmt.exists_entries (s : Stmt) : ∃ parts more, s.entries = .mk s.label parts :: more := by
  cases s with
  | declare x t init => cases init <;> exact ⟨_, _, rfl⟩
  | branch lead cs otherwise => cases otherwise <;> exact ⟨_, _, rfl⟩
  | ret value => cases value <;> exact ⟨_, _, rfl⟩
  | _ => exact ⟨_, _, rfl⟩

theorem Stmt.label_eq {s s' : Stmt} {es es' : List Entry} (h : s.entries ++ es = s'.entries ++ es') :
    s.label = s'.label := by
  obtain ⟨parts, more, hs⟩ := s.exists_entries
  obtain ⟨parts', more', hs'⟩ := s'.exists_entries
  rw [hs, hs', List.cons_append, List.cons_append, List.cons.injEq, Entry.mk.injEq] at h
  exact h.1.1

/-- What stands behind the cases of a branch: nothing, or what begins no case. -/
def NoCase (es : List Entry) : Prop := ∀ parts, .mk (.fixed .case) parts ∉ es.head?

theorem Case.allEntries_ne {c : Case} {cs : List Case} {es es' : List Entry} (h : NoCase es') :
    Case.allEntries (c :: cs) ++ es ≠ es' := by
  rintro rfl
  cases c
  exact h _ rfl

def otherwiseEntries : Option (List Stmt) → List Entry
  | none => []
  | some body => [.mk (.fixed .otherwise) (Stmt.allEntries body)]

theorem noCase_otherwise (o : Option (List Stmt)) : NoCase (otherwiseEntries o) := by
  cases o <;> simp [NoCase, otherwiseEntries]

theorem Stmt.entries_branch (lead : Ident) (cs : List Case) (o : Option (List Stmt)) (span : Span) :
    (branch lead cs o span).entries =
      [.mk (.verb .branch lead.text) (Case.allEntries cs ++ otherwiseEntries o)] := by
  cases o <;> simp [entries, otherwiseEntries]

/-- The lead variable of a branch is seen in its first condition. -/
theorem lead_eq_of_sketches {lead lead' : Ident} {cs cs' : List Case} (hne : cs ≠ [])
    (hcs : ∀ c ∈ cs, c.Shares lead) (hcs' : ∀ c ∈ cs', c.Shares lead')
    (h : Case.sketches cs = Case.sketches cs') : lead = lead' := by
  match cs, cs' with
  | .mk c body :: rest, .mk c' body' :: rest' =>
    obtain ⟨op, rhs, span, rfl⟩ := hcs _ List.mem_cons_self
    obtain ⟨op', rhs', span', rfl⟩ := hcs' _ List.mem_cons_self
    simp only [Case.sketches, Expr.sketch, List.cons.injEq, Case.mk.injEq, Expr.semi.injEq] at h
    exact h.1.1.2.1

variable {p q : Program}

mutual

theorem Stmt.sketch_of_entries {s s' : Stmt} {es es' : List Entry} (hp : p.SharesLeads)
    (hq : q.SharesLeads) (hs : p.Has (.stmt s)) (hs' : q.Has (.stmt s'))
    (h : s.entries ++ es = s'.entries ++ es') : s.sketch = s'.sketch ∧ es = es' := by
  have hlabel := Stmt.label_eq h
  match s with
  | .assert .. | .print .. =>
    cases s' <;> simp [Stmt.label] at hlabel
    simp [Stmt.entries] at h
    exact ⟨by simp only [Stmt.sketch, Expr.sketch_of_entry h.1], h.2⟩
  | .assign .. =>
    cases s' <;> simp [Stmt.label] at hlabel
    simp [Stmt.entries] at h
    exact ⟨by simp only [Stmt.sketch, Ident.bare, h.1.1, Expr.sketch_of_entry h.1.2], h.2⟩
  | .read .. =>
    cases s' <;> simp [Stmt.label] at hlabel
    simp [Stmt.entries] at h
    exact ⟨by simp only [Stmt.sketch, Ident.bare, h.1], h.2⟩
  | .abort _ =>
    cases s' <;> simp [Stmt.label] at hlabel
    simp [Stmt.entries] at h
    exact ⟨rfl, h⟩
  | .call .. =>
    cases s' <;> simp [Stmt.label] at hlabel
    simp [Stmt.entries, Expr.entry] at h
    exact ⟨by simp only [Stmt.sketch, Ident.bare, h.1.1, Expr.sketches_of_entries h.1.2], h.2⟩
  | .declare x t init _ =>
    cases s' <;> simp [Stmt.label] at hlabel
    case declare x' t' init' span' =>
      obtain ⟨hx, rfl, hinit⟩ := hlabel
      cases init <;> cases init' <;> simp [Stmt.entries] at h hinit
      · exact ⟨by simp only [Stmt.sketch, Ident.bare, hx, Option.map_none], h.2⟩
      · exact ⟨by simp only [Stmt.sketch, Ident.bare, hx, Option.map_some,
          Expr.sketch_of_entry h.1.2], h.2⟩
  | .ret value _ =>
    cases s' <;> simp [Stmt.label] at hlabel
    case ret value' span' =>
      cases value <;> cases value' <;> simp [Stmt.entries] at h
      · exact ⟨rfl, h⟩
      · exact ⟨by simp only [Stmt.sketch, Option.map_some, Expr.sketch_of_entry h.1], h.2⟩
  | .loop body c _ =>
    cases s' <;> simp [Stmt.label] at hlabel
    simp [Stmt.entries] at h
    have hbody := Stmt.sketches_of_allEntries hp hq hs.loopBody hs'.loopBody h.1
    exact ⟨by simp only [Stmt.sketch, hbody, Expr.sketch_of_entry h.2.1], h.2.2⟩
  | .branch lead cs otherwise _ =>
    cases s' <;> simp [Stmt.label] at hlabel
    case branch lead' cs' otherwise' span' =>
      obtain ⟨hne, hshares⟩ := hp _ _ _ _ hs
      obtain ⟨-, hshares'⟩ := hq _ _ _ _ hs'
      simp only [Stmt.entries_branch, List.cons_append, List.nil_append, List.cons.injEq,
        Entry.mk.injEq] at h
      obtain ⟨hcases, hother⟩ := Case.sketches_of_allEntries hp hq hs.caseParts hs'.caseParts
        (noCase_otherwise _) (noCase_otherwise _) h.1.2
      obtain rfl := lead_eq_of_sketches hne hshares hshares' hcases
      refine ⟨?_, h.2⟩
      cases otherwise <;> cases otherwise' <;> simp [otherwiseEntries] at hother
      · simp only [Stmt.sketch, hcases]
      · have hbody := Stmt.sketches_of_allEntries hp hq hs.elseBody hs'.elseBody hother
        simp only [Stmt.sketch, hcases, hbody]

theorem Stmt.sketches_of_allEntries {ss ss' : List Stmt} (hp : p.SharesLeads) (hq : q.SharesLeads)
    (hss : ∀ s ∈ ss, p.Has (.stmt s)) (hss' : ∀ s ∈ ss', q.Has (.stmt s))
    (h : Stmt.allEntries ss = Stmt.allEntries ss') : Stmt.sketches ss = Stmt.sketches ss' := by
  match ss with
  | [] =>
    cases ss' with
    | nil => rfl
    | cons s' ss' =>
      obtain ⟨parts, more, hs'⟩ := s'.exists_entries
      simp [Stmt.allEntries, hs'] at h
  | s :: rest =>
    cases ss' with
    | nil =>
      obtain ⟨parts, more, hs⟩ := s.exists_entries
      simp [Stmt.allEntries, hs] at h
    | cons s' ss' =>
      obtain ⟨hs, hrest⟩ := List.forall_mem_cons.1 hss
      obtain ⟨hs', hrest'⟩ := List.forall_mem_cons.1 hss'
      have hfirst : s.entries ++ Stmt.allEntries rest = s'.entries ++ Stmt.allEntries ss' := h
      have hsketch := Stmt.sketch_of_entries hp hq hs hs' hfirst
      simp only [Stmt.sketches, hsketch.1,
        Stmt.sketches_of_allEntries hp hq hrest hrest' hsketch.2]

theorem Case.sketches_of_allEntries {cs cs' : List Case} {es es' : List Entry}
    (hp : p.SharesLeads) (hq : q.SharesLeads) (hcs : ∀ c ∈ cs, ∀ n ∈ Node.ofCase c, p.Has n)
    (hcs' : ∀ c ∈ cs', ∀ n ∈ Node.ofCase c, q.Has n) (hes : NoCase es) (hes' : NoCase es')
    (h : Case.allEntries cs ++ es = Case.allEntries cs' ++ es') :
    Case.sketches cs = Case.sketches cs' ∧ es = es' := by
  match cs with
  | [] =>
    cases cs' with
    | nil => exact ⟨rfl, h⟩
    | cons c' cs' => exact absurd h.symm (Case.allEntries_ne hes)
  | .mk c body :: rest =>
    cases cs' with
    | nil => exact absurd h (Case.allEntries_ne hes')
    | cons c' cs' =>
      cases c' with
      | mk c' body' =>
        obtain ⟨hc, hrest⟩ := List.forall_mem_cons.1 hcs
        obtain ⟨hc', hrest'⟩ := List.forall_mem_cons.1 hcs'
        simp only [Case.allEntries, List.cons_append, List.cons.injEq, Entry.mk.injEq, and_true,
          true_and] at h
        obtain ⟨⟨hcondition, hbody⟩, hmore⟩ := h
        have hrest := Case.sketches_of_allEntries hp hq hrest hrest' hes hes' hmore
        have hbody := Stmt.sketches_of_allEntries hp hq (Program.has_caseBody hc)
          (Program.has_caseBody hc') hbody
        refine ⟨?_, hrest.2⟩
        simp only [Case.sketches, Expr.sketch_of_entry hcondition, hbody, hrest.1]

end

/-- Parameters stand in front of the body, and no statement looks like one. -/
theorem params_of_entries {ps ps' : List Param} {ss ss' : List Stmt}
    (h : ps.map Param.entry ++ Stmt.allEntries ss = ps'.map Param.entry ++ Stmt.allEntries ss') :
    ps.map Param.sketch = ps'.map Param.sketch ∧ Stmt.allEntries ss = Stmt.allEntries ss' := by
  have hapart (x : Param) (ps : List Param) (ss ss' : List Stmt) :
      (x :: ps).map Param.entry ++ Stmt.allEntries ss ≠ Stmt.allEntries ss' := by
    intro h
    cases ss' with
    | nil => cases h
    | cons s' ss' =>
      obtain ⟨parts, more, hs'⟩ := s'.exists_entries
      simp only [Stmt.allEntries, hs', List.map_cons, List.cons_append, List.cons.injEq, Param.entry,
        Entry.mk.injEq] at h
      cases s' <;> simp [Stmt.label] at h
  induction ps generalizing ps' with
  | nil =>
    cases ps' with
    | nil => exact ⟨rfl, h⟩
    | cons x ps' => exact absurd h.symm (hapart x ps' ss' ss)
  | cons x ps ih =>
    cases ps' with
    | nil => exact absurd h (hapart x ps ss ss')
    | cons x' ps' =>
      simp only [List.map_cons, List.cons_append, List.cons.injEq, Param.entry, Entry.mk.injEq,
        Label.param.injEq, and_true] at h
      obtain ⟨⟨hname, htype⟩, hrest⟩ := h
      obtain ⟨hparams, hbody⟩ := ih hrest
      refine ⟨?_, hbody⟩
      simp only [List.map_cons, Param.sketch, Ident.bare, hname, htype, hparams]

theorem FunctionDecl.sketch_of_entry {f f' : FunctionDecl} (hp : p.SharesLeads)
    (hq : q.SharesLeads) (hf : p.Has (.function f)) (hf' : q.Has (.function f'))
    (h : f.entry = f'.entry) : f.sketch = f'.sketch := by
  simp only [entry, Entry.mk.injEq, Label.routine.injEq, Option.some.injEq] at h
  obtain ⟨⟨hname, hresult, -⟩, hparts⟩ := h
  obtain ⟨hparams, hentries⟩ := params_of_entries hparts
  have hbody := Stmt.sketches_of_allEntries hp hq
    (fun s hs => hf.child (by simp [Node.children, hs]))
    (fun s hs => hf'.child (by simp [Node.children, hs])) hentries
  simp only [sketch, Ident.bare, hname, hresult, hparams, hbody]

theorem EntryPoint.sketch_of_entry {m m' : EntryPoint} (hp : p.SharesLeads) (hq : q.SharesLeads)
    (hm : p.Has (.main m)) (hm' : q.Has (.main m')) (h : m.entry = m'.entry) : m.sketch = m'.sketch := by
  have hbody := Stmt.sketches_of_allEntries hp hq
    (fun s hs => hm.child (by simp [Node.children, hs]))
    (fun s hs => hm'.child (by simp [Node.children, hs])) (Entry.mk.inj h).2
  simp only [sketch, hbody]

/-- The entry point stands behind the functions, and no function looks like it. -/
theorem routines_of_entries {fs fs' : List FunctionDecl} {m? m?' : Option EntryPoint}
    (hp : p.SharesLeads) (hq : q.SharesLeads) (hfs : ∀ f ∈ fs, p.Has (.function f))
    (hfs' : ∀ f ∈ fs', q.Has (.function f)) (hm : ∀ m ∈ m?, p.Has (.main m))
    (hm' : ∀ m ∈ m?', q.Has (.main m)) (h : fs.map FunctionDecl.entry ++ m?.toList.map EntryPoint.entry =
      fs'.map FunctionDecl.entry ++ m?'.toList.map EntryPoint.entry) :
    fs.map FunctionDecl.sketch = fs'.map FunctionDecl.sketch ∧
      m?.map EntryPoint.sketch = m?'.map EntryPoint.sketch := by
  induction fs generalizing fs' with
  | nil =>
    cases fs' with
    | nil =>
      cases m? <;> cases m?' <;> simp at h
      · exact ⟨rfl, rfl⟩
      · exact ⟨rfl, congrArg some (EntryPoint.sketch_of_entry hp hq (hm _ rfl) (hm' _ rfl) h)⟩
    | cons f' fs' => cases m? <;> simp [EntryPoint.entry, FunctionDecl.entry] at h
  | cons f fs ih =>
    cases fs' with
    | nil => cases m?' <;> simp [EntryPoint.entry, FunctionDecl.entry] at h
    | cons f' fs' =>
      obtain ⟨hf, hfs⟩ := List.forall_mem_cons.1 hfs
      obtain ⟨hf', hfs'⟩ := List.forall_mem_cons.1 hfs'
      obtain ⟨hentry, hrest⟩ := List.cons.inj h
      obtain ⟨hfunctions, hmain⟩ := ih hfs hfs' hrest
      rw [List.map_cons, List.map_cons, FunctionDecl.sketch_of_entry hp hq hf hf' hentry,
        hfunctions]
      exact ⟨rfl, hmain⟩

/-! ### What stands in the lines -/

def Program.IsLiteral (p : Program) (x : Float) : Prop := ∃ s, p.Has (.expr (.float x s))

def Program.HasNames (p : Program) : Prop := ∀ x ∈ p.names, isName x

theorem Program.HasNames.ident {x : Ident} (hp : p.HasNames) (hx : p.Has (.ident x)) :
    isName x.text := hp _ (hx.names _ List.mem_cons_self)

mutual

theorem isOf_expr {e : Expr} {depth : Nat} (hp : p.HasNames) (he : p.Has (.expr e)) :
    ∀ l ∈ e.entry.lines depth, l.label.IsOf p.IsLiteral := by
  match e with
  | .int n s => exact List.forall_mem_singleton.2 trivial
  | .float x s => exact List.forall_mem_singleton.2 ⟨s, he⟩
  | .var x => exact List.forall_mem_singleton.2 (hp.ident (he.child (by simp [Node.children])))
  | .binary op lhs rhs =>
    simp only [Expr.entry, Entry.lines, Entry.allLines, List.append_nil, List.forall_mem_cons,
      List.forall_mem_append]
    exact ⟨trivial, isOf_expr hp (he.child (by simp [Node.children])),
      isOf_expr hp (he.child (by simp [Node.children]))⟩
  | .semi op lead rhs s =>
    have hlead := hp lead.text (he.names _ List.mem_cons_self)
    simp only [Expr.entry, Ident.entry, Entry.lines, Entry.allLines, List.append_nil,
      List.forall_mem_cons, List.cons_append, List.nil_append]
    exact ⟨trivial, hlead, isOf_expr hp (he.child (by simp [Node.children]))⟩
  | .call callee args s =>
    refine List.forall_mem_cons.2 ⟨hp.ident (he.child (by simp [Node.children])), ?_⟩
    exact isOf_exprs hp fun a ha => he.child (by simp [Node.children, ha])

theorem isOf_exprs {es : List Expr} {depth : Nat} (hp : p.HasNames)
    (hes : ∀ e ∈ es, p.Has (.expr e)) :
    ∀ l ∈ Entry.allLines depth (Expr.entries es), l.label.IsOf p.IsLiteral := by
  match es with
  | [] => exact List.forall_mem_nil _
  | e :: rest =>
    obtain ⟨he, hrest⟩ := List.forall_mem_cons.1 hes
    exact List.forall_mem_append.2 ⟨isOf_expr hp he, isOf_exprs hp hrest⟩

end

mutual

theorem isOf_stmt {s : Stmt} {depth : Nat} (hp : p.HasNames) (hs : p.Has (.stmt s)) :
    ∀ l ∈ Entry.allLines depth s.entries, l.label.IsOf p.IsLiteral := by
  match s with
  | .abort _ | .ret none _ => exact List.forall_mem_singleton.2 trivial
  | .read .. | .declare _ _ none _ =>
    exact List.forall_mem_singleton.2 (hp.ident (hs.child (by simp [Node.children])))
  | .assert .. | .print .. | .call .. | .ret (some _) _ =>
    simp only [Stmt.entries, Entry.allLines, Entry.lines, List.append_nil, List.forall_mem_cons]
    exact ⟨trivial, isOf_expr hp (hs.child (by simp [Node.children]))⟩
  | .assign .. | .declare _ _ (some _) _ =>
    simp only [Stmt.entries, Entry.allLines, Entry.lines, List.append_nil, List.forall_mem_cons]
    exact ⟨hp.ident (hs.child (by simp [Node.children])), isOf_expr hp (hs.child (by simp [Node.children]))⟩
  | .loop body c _ =>
    simp only [Stmt.entries, Entry.allLines, Entry.lines, List.append_nil, List.cons_append,
      List.forall_mem_cons, List.forall_mem_append]
    exact ⟨trivial, isOf_stmts hp hs.loopBody, trivial,
      isOf_expr hp (hs.child (by simp [Node.children]))⟩
  | .branch lead cs none _ =>
    simp only [Stmt.entries, Entry.allLines, Entry.lines, List.append_nil, List.forall_mem_cons]
    exact ⟨hp.ident hs.leadIdent, isOf_cases hp hs.caseParts⟩
  | .branch lead cs (some body) _ =>
    simp only [Stmt.entries, Entry.allLines, Entry.allLines_append, Entry.lines, List.append_nil,
      List.forall_mem_cons, List.forall_mem_append]
    exact ⟨hp.ident hs.leadIdent, isOf_cases hp hs.caseParts, trivial, isOf_stmts hp hs.elseBody⟩

theorem isOf_stmts {ss : List Stmt} {depth : Nat} (hp : p.HasNames)
    (hss : ∀ s ∈ ss, p.Has (.stmt s)) :
    ∀ l ∈ Entry.allLines depth (Stmt.allEntries ss), l.label.IsOf p.IsLiteral := by
  match ss with
  | [] => exact List.forall_mem_nil _
  | s :: rest =>
    obtain ⟨hs, hrest⟩ := List.forall_mem_cons.1 hss
    rw [Stmt.allEntries, Entry.allLines_append]
    exact List.forall_mem_append.2 ⟨isOf_stmt hp hs, isOf_stmts hp hrest⟩

theorem isOf_cases {cs : List Case} {depth : Nat} (hp : p.HasNames)
    (hcs : ∀ c ∈ cs, ∀ n ∈ Node.ofCase c, p.Has n) :
    ∀ l ∈ Entry.allLines depth (Case.allEntries cs), l.label.IsOf p.IsLiteral := by
  match cs with
  | [] => exact List.forall_mem_nil _
  | .mk c body :: rest =>
    obtain ⟨hc, hrest⟩ := List.forall_mem_cons.1 hcs
    simp only [Case.allEntries, Entry.allLines, Entry.lines, List.append_nil, List.cons_append,
      List.forall_mem_cons, List.forall_mem_append]
    exact ⟨trivial, ⟨isOf_expr hp (hc (.expr c) List.mem_cons_self), trivial,
      isOf_stmts hp (Program.has_caseBody hc)⟩, isOf_cases hp hrest⟩

end

theorem isOf_all {P : Float → Prop} {depth : Nat} {es : List Entry}
    (h : ∀ e ∈ es, ∀ l ∈ e.lines depth, l.label.IsOf P) :
    ∀ l ∈ Entry.allLines depth es, l.label.IsOf P := by
  induction es with
  | nil => exact List.forall_mem_nil _
  | cons e es ih =>
    obtain ⟨he, hes⟩ := List.forall_mem_cons.1 h
    exact List.forall_mem_append.2 ⟨he, ih hes⟩

theorem isOf_function {f : FunctionDecl} (hp : p.HasNames) (hf : p.Has (.function f)) :
    ∀ l ∈ f.entry.lines 0, l.label.IsOf p.IsLiteral := by
  simp only [FunctionDecl.entry, Entry.lines, Entry.allLines_append, List.forall_mem_cons,
    List.forall_mem_append]
  refine ⟨hp.ident (hf.child (by simp [Node.children])), isOf_all ?_, isOf_stmts hp ?_⟩
  · intro e he
    obtain ⟨x, hx, rfl⟩ := List.mem_map.1 he
    refine List.forall_mem_singleton.2 (hp.ident (hf.child ?_))
    exact List.mem_cons_of_mem _ (List.mem_append_left _ (List.mem_map.2 ⟨x, hx, rfl⟩))
  · exact fun t ht => hf.child
      (List.mem_cons_of_mem _ (List.mem_append_right _ (List.mem_map_of_mem ht)))

theorem isOf_main {m : EntryPoint} (hp : p.HasNames) (hm : p.Has (.main m)) :
    ∀ l ∈ m.entry.lines 0, l.label.IsOf p.IsLiteral :=
  List.forall_mem_cons.2
    ⟨trivial, isOf_stmts hp fun _ ht => hm.child (List.mem_map_of_mem ht)⟩

theorem Program.isOf_entries (hp : p.HasNames) :
    ∀ l ∈ Entry.allLines 0 p.entries, l.label.IsOf p.IsLiteral := by
  refine isOf_all (List.forall_mem_append.2 ⟨fun e he => ?_, fun e he => ?_⟩)
  · obtain ⟨f, hf, rfl⟩ := List.mem_map.1 he
    exact isOf_function hp (.function hf)
  · obtain ⟨m, hm, rfl⟩ := List.mem_map.1 he
    exact isOf_main hp (.main (Option.mem_toList.1 hm))

/-! ### Accepted programs -/

namespace Program

variable {q : Program} {o o' : LexerOptions} {fileName fileName' : String} {feed feed' : Feed}

theorem IsLiteral.exists_lexeme {x : Float} (hx : p.IsLiteral x)
    (h : (parse o fileName feed).outcome = .ok p) :
    ∃ l ∈ (o.lexer feed).lexemes.1, l.token = .float x := by
  obtain ⟨ls, last, hls, hspelled⟩ := parse_spelled h
  obtain ⟨s, hs⟩ := hx
  obtain ⟨ms, hms, hstands⟩ := hspelled.exists_stands hs
  cases hstands.spelled with
  | whole hspelled =>
    cases hspelled.1 with
    | float hl =>
      refine ⟨_, ?_, hl⟩
      rw [hls]
      exact List.mem_append_left _ (hms.subset List.mem_cons_self)

/-- Accepted programs have one outline exactly if they are the same up to the places of statements,
functions and names, and up to the name of the file; for doubles whose texts tell them apart. -/
theorem outline_eq_iff (hp : (parse o fileName feed).outcome = .ok p)
    (hq : (parse o' fileName' feed').outcome = .ok q)
    (hfloat : ∀ x y, p.IsLiteral x → q.IsLiteral y →
      Decimal.Layout.plain.text x = Decimal.Layout.plain.text y → x = y) :
    p.outline = q.outline ↔ p.sketch = q.sketch := by
  constructor
  · intro h
    rw [outline_eq, outline_eq] at h
    have hlines := Outline.printed_inj hfloat (isOf_entries (isName_parse hp))
      (isOf_entries (isName_parse hq)) h
    have hends : Outline.Ends 0 [] := by simp [Outline.Ends]
    have hentries := Entry.allLines_inj hends hends (congrArg (· ++ []) hlines)
    obtain ⟨hfunctions, hmain⟩ := routines_of_entries (parse_sharesLeads hp) (parse_sharesLeads hq)
      (fun f hf => .function hf) (fun f hf => .function hf) (fun m hm => .main hm)
      (fun m hm => .main hm) hentries.1
    simp only [sketch, hfunctions, hmain]
  · intro h
    rw [← p.outline_sketch, ← q.outline_sketch, h]

def narrowSource : List UInt8 := Utf8.encode "main\nx  = 1, branch x of < 2: abort, end,"

/-- The same lexemes, with the variable and the keyword of a statement elsewhere. -/
def wideSource : List UInt8 := Utf8.encode "main\n  x= 1, branch x of < 2:  abort end,"

theorem outline_eq_iff_sample : ∃ p q,
    (parse .usual "narrow" (.whole narrowSource)).outcome = .ok p ∧
    (parse .usual "wide" (.whole wideSource)).outcome = .ok q ∧
    (∀ x y, p.IsLiteral x → q.IsLiteral y →
      Decimal.Layout.plain.text x = Decimal.Layout.plain.text y → x = y) ∧
    p.outline = q.outline ∧ p.sketch = q.sketch := by
  have hok : (parse .usual "narrow" (.whole narrowSource)).outcome.toOption.isSome ∧
      (parse .usual "narrow" (.whole narrowSource)).outcome.toOption.map outline =
        (parse .usual "wide" (.whole wideSource)).outcome.toOption.map outline := by
    rw [outcome_parse_whole, outcome_parse_whole]
    decide +kernel
  have hno : ∀ l ∈ (LexerOptions.usual.lexer (.whole narrowSource)).lexemes.1,
      l.token.kind ≠ (Token.float 0).kind := by
    rw [(LexerOptions.usual.lexer_follows (.whole narrowSource)).lexemes.1]
    decide +kernel
  obtain ⟨hsome, hsame⟩ := hok
  obtain ⟨p, hp⟩ := Option.isSome_iff_exists.1 hsome
  rw [hp] at hsame
  replace hp := eq_ok_of_toOption hp
  obtain ⟨q, hq, houtline⟩ := exists_ok_of_map hsame.symm
  have hfloat : ∀ x y, p.IsLiteral x → q.IsLiteral y →
      Decimal.Layout.plain.text x = Decimal.Layout.plain.text y → x = y := by
    intro x y hx
    obtain ⟨l, hl, htoken⟩ := hx.exists_lexeme hp
    exact absurd (congrArg Token.kind htoken) (hno l hl)
  exact ⟨p, q, hp, hq, hfloat, houtline.symm, (outline_eq_iff hp hq hfloat).1 houtline.symm⟩

end Program

end Quill
