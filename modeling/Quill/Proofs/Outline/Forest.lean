import Quill.Proofs.Outline.Labels
import Quill.Proofs.Syntax.Nodes

/-! # Outlines as forests

An outline is a forest of labels: what is indented further belongs to the line above it. The text of
an outline determines the lines, and the lines determine the forest.
-/
namespace Quill

namespace Outline

structure Line where
  depth : Nat
  label : Label

/-- A line and what is below it, one step further to the right. -/
inductive Entry where
  | mk (label : Label) (parts : List Entry)

mutual

def Entry.lines (depth : Nat) : Entry → List Line
  | .mk label parts => ⟨depth, label⟩ :: Entry.allLines (depth + 1) parts

def Entry.allLines (depth : Nat) : List Entry → List Line
  | [] => []
  | e :: rest => e.lines depth ++ Entry.allLines depth rest

end

@[simp] theorem Entry.allLines_append (depth : Nat) (es es' : List Entry) :
    Entry.allLines depth (es ++ es') = Entry.allLines depth es ++ Entry.allLines depth es' := by
  induction es with
  | nil => rfl
  | cons e es ih => simp [allLines, ih]

/-! ### Lines and their text -/

def Line.text (l : Line) : List Char := List.replicate (2 * l.depth) ' ' ++ l.label.text.toList

def printed (ls : List Line) : String := String.ofList (ofLines (ls.map Line.text))

theorem printed_append (ls ms : List Line) : printed (ls ++ ms) = printed ls ++ printed ms := by
  simp [printed]

theorem printed_cons (depth : Nat) (label : Label) (ls : List Line) :
    printed (⟨depth, label⟩ :: ls) = line depth label.text ++ printed ls := by
  rw [← String.toList_inj]
  simp [printed, line, Line.text]

theorem line_eq (depth : Nat) (label : Label) : line depth label.text = printed [⟨depth, label⟩] := by
  rw [printed_cons, ← String.toList_inj]
  simp [printed]

theorem printed_entry (depth : Nat) (label : Label) (parts : List Entry) :
    printed (Entry.allLines depth [.mk label parts]) =
      line depth label.text ++ printed (Entry.allLines (depth + 1) parts) := by
  rw [Entry.allLines, Entry.allLines, List.append_nil, Entry.lines, printed_cons]

variable {P Q : Float → Prop}

theorem indented_inj {m n : Nat} {c d : Char} {cs ds : List Char} (hc : c ≠ ' ') (hd : d ≠ ' ')
    (h : List.replicate m ' ' ++ c :: cs = List.replicate n ' ' ++ d :: ds) :
    m = n ∧ c :: cs = d :: ds := by
  induction m generalizing n with
  | zero =>
    cases n with
    | zero => exact ⟨rfl, h⟩
    | succ n => exact absurd (List.cons.inj h).1 hc
  | succ m ih =>
    cases n with
    | zero => exact absurd (List.cons.inj h).1.symm hd
    | succ n =>
      obtain ⟨rfl, hrest⟩ := ih (List.cons.inj h).2
      exact ⟨rfl, hrest⟩

section

variable (hfloat : ∀ x y, P x → Q y →
  Decimal.Layout.plain.text x = Decimal.Layout.plain.text y → x = y)

include hfloat

theorem Line.text_inj {l l' : Line} (hl : l.label.IsOf P) (hl' : l'.label.IsOf Q)
    (h : l.text = l'.text) : l = l' := by
  obtain ⟨c, cs, hcs, hc⟩ := Label.exists_text hl
  obtain ⟨d, ds, hds, hd⟩ := Label.exists_text hl'
  unfold text at h
  rw [hcs, hds] at h
  obtain ⟨hdepth, hlabel⟩ := indented_inj hc hd h
  rw [← hcs, ← hds] at hlabel
  cases l
  cases l'
  rw [mk.injEq]
  exact ⟨Nat.eq_of_mul_eq_mul_left Nat.two_pos hdepth, Label.text_inj hfloat hl hl' hlabel⟩

theorem printed_inj {ls ms : List Line} (hls : ∀ l ∈ ls, l.label.IsOf P)
    (hms : ∀ l ∈ ms, l.label.IsOf Q) (h : printed ls = printed ms) : ls = ms := by
  have hline {R : Float → Prop} {ls : List Line} (hls : ∀ l ∈ ls, l.label.IsOf R) :
      ∀ cs ∈ ls.map Line.text, '\n' ∉ cs := by
    intro cs hcs
    obtain ⟨l, hl, rfl⟩ := List.mem_map.1 hcs
    simp [Line.text, Label.noLine (hls l hl)]
  have htexts := ofLines_inj (hline hls) (hline hms) (String.ofList_injective h)
  clear h
  induction ls generalizing ms with
  | nil => exact (List.map_eq_nil_iff.1 htexts.symm).symm
  | cons l ls ih =>
    cases ms with
    | nil => cases htexts
    | cons m ms =>
      obtain ⟨htext, hrest⟩ := List.cons.inj htexts
      obtain ⟨hl, hls⟩ := List.forall_mem_cons.1 hls
      obtain ⟨hm, hms⟩ := List.forall_mem_cons.1 hms
      rw [Line.text_inj hfloat hl hm htext, ih hls hms hrest]

end

/-! ### Forests and their lines -/

/-- What comes first is not as far to the right. -/
def Ends (depth : Nat) (ls : List Line) : Prop := ∀ l ∈ ls.head?, l.depth < depth

theorem Ends.below {depth : Nat} {ls : List Line} (h : Ends depth ls) (es : List Entry) :
    Ends (depth + 1) (Entry.allLines depth es ++ ls) := by
  intro l hl
  cases es with
  | nil => exact Nat.lt_succ_of_lt (h l hl)
  | cons e es =>
    cases e
    obtain rfl := Option.some.inj hl
    exact Nat.lt_succ_self _

theorem Ends.ne_lines {depth : Nat} {ls : List Line} (h : Ends depth ls) (e : Entry)
    (es : List Entry) (ms : List Line) : Entry.allLines depth (e :: es) ++ ms ≠ ls := by
  rintro rfl
  cases e
  exact Nat.lt_irrefl _ (h _ rfl)

theorem Entry.allLines_inj {depth : Nat} {es es' : List Entry} {ls ls' : List Line}
    (hls : Ends depth ls) (hls' : Ends depth ls')
    (h : Entry.allLines depth es ++ ls = Entry.allLines depth es' ++ ls') :
    es = es' ∧ ls = ls' := by
  match es, es' with
  | [], [] => exact ⟨rfl, h⟩
  | [], e :: es => exact absurd h.symm (hls.ne_lines e es ls')
  | e :: es, [] => exact absurd h (hls'.ne_lines e es ls)
  | .mk label parts :: es, .mk label' parts' :: es' =>
    simp only [Entry.allLines, Entry.lines, List.cons_append, List.append_assoc, List.cons.injEq,
      Line.mk.injEq] at h
    obtain ⟨⟨-, rfl⟩, hparts⟩ := h
    obtain ⟨rfl, hrest⟩ := Entry.allLines_inj (hls.below es) (hls'.below es') hparts
    obtain ⟨rfl, rfl⟩ := Entry.allLines_inj hls hls' hrest
    exact ⟨rfl, rfl⟩

end Outline

open Outline (Entry)

/-! ### Trees as forests -/

def Ident.entry (x : Ident) : Entry := .mk (.head (.ident x.text) x.span) []

mutual

def Expr.entry (e : Expr) : Entry :=
  match e with
  | .int n s => .mk (.head (.int n) s) []
  | .float x s => .mk (.head (.float x) s) []
  | .var x => x.entry
  | .binary op lhs rhs =>
    .mk (.head (.binary op) (Expr.binary op lhs rhs).span) [lhs.entry, rhs.entry]
  | .semi op lead rhs s => .mk (.head (.semi op) s) [lead.entry, rhs.entry]
  | .call callee args s => .mk (.head (.call callee.text) s) (Expr.entries args)

def Expr.entries (es : List Expr) : List Entry :=
  match es with
  | [] => []
  | e :: rest => e.entry :: Expr.entries rest

end

mutual

/-- A loop takes two lines next to each other. -/
def Stmt.entries (s : Stmt) : List Entry :=
  match s with
  | .assert c _ => [.mk (.fixed .assert) [c.entry]]
  | .read x _ => [.mk (.verb .read x.text) []]
  | .abort _ => [.mk (.fixed .abort) []]
  | .call callee args span => [.mk (.fixed .expression) [(Expr.call callee args span).entry]]
  | .print e _ => [.mk (.fixed .print) [e.entry]]
  | .assign x e _ => [.mk (.verb .assign x.text) [e.entry]]
  | .declare x t none _ => [.mk (.declare x.text t false) []]
  | .declare x t (some e) _ => [.mk (.declare x.text t true) [e.entry]]
  | .loop body c _ =>
    [.mk (.fixed .do) (Stmt.allEntries body), .mk (.fixed .while) [c.entry]]
  | .branch lead cs none _ => [.mk (.verb .branch lead.text) (Case.allEntries cs)]
  | .branch lead cs (some body) _ =>
    [.mk (.verb .branch lead.text)
      (Case.allEntries cs ++ [.mk (.fixed .otherwise) (Stmt.allEntries body)])]
  | .ret none _ => [.mk (.fixed .return) []]
  | .ret (some e) _ => [.mk (.fixed .return) [e.entry]]

def Stmt.allEntries (ss : List Stmt) : List Entry :=
  match ss with
  | [] => []
  | s :: rest => s.entries ++ Stmt.allEntries rest

def Case.allEntries (cs : List Case) : List Entry :=
  match cs with
  | [] => []
  | .mk c body :: rest =>
    .mk (.fixed .case) [c.entry, .mk (.fixed .then) (Stmt.allEntries body)] :: Case.allEntries rest

end

def Param.entry (p : Param) : Entry := .mk (.param p.name.text p.type) []

def FunctionDecl.entry (f : FunctionDecl) : Entry :=
  .mk (.routine (some f.name.text) f.result f.body.isEmpty)
    (f.params.map Param.entry ++ Stmt.allEntries f.body)

def EntryPoint.entry (m : EntryPoint) : Entry :=
  .mk (.routine none .integer m.body.isEmpty) (Stmt.allEntries m.body)

def Program.entries (p : Program) : List Entry :=
  p.functions.map FunctionDecl.entry ++ p.main.toList.map EntryPoint.entry

/-! ### Outlines are printed forests -/

namespace Outline

theorem ident_eq (depth : Nat) (x : Ident) : ident depth x = printed (x.entry.lines depth) :=
  line_eq depth (.head (.ident x.text) x.span)

mutual

theorem expr_eq (depth : Nat) (e : Expr) : expr depth e = printed (e.entry.lines depth) := by
  match e with
  | .int n s => exact line_eq depth (.head (.int n) s)
  | .float x s => exact line_eq depth (.head (.float x) s)
  | .var x => exact ident_eq depth x
  | .binary op lhs rhs =>
    simp only [expr, Expr.entry, Entry.lines, Entry.allLines, List.append_nil, printed_cons,
      printed_append, expr_eq (depth + 1) lhs, expr_eq (depth + 1) rhs, String.append_assoc,
      Label.text]
  | .semi op lead rhs s =>
    simp only [expr, Expr.entry, Entry.lines, Entry.allLines, List.append_nil, printed_cons,
      printed_append, ident_eq (depth + 1) lead, expr_eq (depth + 1) rhs, String.append_assoc,
      Label.text]
  | .call callee args s =>
    simp only [expr, Expr.entry, Entry.lines, printed_cons, exprs_eq (depth + 1) args, Label.text]

theorem exprs_eq (depth : Nat) (es : List Expr) :
    exprs depth es = printed (Entry.allLines depth (Expr.entries es)) := by
  match es with
  | [] => rfl
  | e :: rest =>
    simp only [exprs, Expr.entries, Entry.allLines, printed_append, expr_eq depth e,
      exprs_eq depth rest]

end

theorem printed_expr (depth : Nat) (e : Expr) :
    printed (Entry.allLines depth [e.entry]) = expr depth e := by
  rw [expr_eq, Entry.allLines, Entry.allLines, List.append_nil]

mutual

theorem stmt_eq (depth : Nat) (s : Stmt) :
    stmt depth s = printed (Entry.allLines depth s.entries) := by
  match s with
  | .read x _ => exact line_eq depth (.verb .read x.text)
  | .abort _ => exact line_eq depth (.fixed .abort)
  | .declare x t none _ => exact line_eq depth (.declare x.text t false)
  | .ret none _ => exact line_eq depth (.fixed .return)
  | .assert .. | .print .. | .assign .. | .call .. | .declare _ _ (some _) _ | .ret (some _) _ =>
    simp only [stmt, Stmt.entries, printed_entry, printed_expr, Label.text, Fixed.text]
  | .loop body c _ =>
    simp only [stmt, Stmt.entries, Entry.allLines, Entry.lines, List.append_nil, printed_append,
      printed_cons, expr_eq, stmts_eq (depth + 1) body, String.append_assoc, Label.text, Fixed.text]
  | .branch lead cs none _ =>
    simp only [stmt, Stmt.entries, printed_entry, cases_eq (depth + 1) cs, String.append_empty,
      Label.text]
  | .branch lead cs (some body) _ =>
    simp only [stmt, Stmt.entries, printed_entry, Entry.allLines_append, printed_append,
      cases_eq (depth + 1) cs, stmts_eq (depth + 2) body, String.append_assoc, Label.text,
      Fixed.text]

theorem stmts_eq (depth : Nat) (ss : List Stmt) :
    stmts depth ss = printed (Entry.allLines depth (Stmt.allEntries ss)) := by
  match ss with
  | [] => rfl
  | s :: rest =>
    simp only [stmts, Stmt.allEntries, Entry.allLines_append, printed_append, stmt_eq depth s,
      stmts_eq depth rest]

theorem cases_eq (depth : Nat) (cs : List Case) :
    cases depth cs = printed (Entry.allLines depth (Case.allEntries cs)) := by
  match cs with
  | [] => rfl
  | .mk c body :: rest =>
    simp only [cases, Case.allEntries, Entry.allLines, Entry.lines, List.append_nil, printed_append,
      printed_cons, expr_eq, stmts_eq (depth + 2) body, cases_eq depth rest,
      String.append_assoc, Label.text, Fixed.text]

end

theorem routine_eq (name? : Option String) (result : TypeExpr) (params : List Param)
    (body : List Stmt) : routine (Label.title name?) result params body = printed (Entry.lines 0
      (.mk (.routine name? result body.isEmpty)
        (params.map Param.entry ++ Stmt.allEntries body))) := by
  have hparams : String.join (params.map param) =
      printed (Entry.allLines 1 (params.map Param.entry)) := by
    induction params with
    | nil => rfl
    | cons p ps ih =>
      have hparam : param p = printed (p.entry.lines 1) := line_eq 1 (.param p.name.text p.type)
      rw [List.map_cons, List.map_cons, String.join_cons, ih, Entry.allLines, printed_append, hparam]
  simp only [routine, Entry.lines, Entry.allLines_append, printed_cons, printed_append, hparams,
    stmts_eq, Label.text, String.append_assoc]

end Outline

theorem FunctionDecl.outline_eq (f : FunctionDecl) :
    f.outline = Outline.printed (f.entry.lines 0) := by
  rw [outline, entry, ← Outline.routine_eq]
  rfl

theorem EntryPoint.outline_eq (m : EntryPoint) :
    m.outline = Outline.printed (m.entry.lines 0) := by
  rw [outline, entry]
  exact Outline.routine_eq none .integer [] m.body

theorem Program.outline_eq (p : Program) :
    p.outline = Outline.printed (Entry.allLines 0 p.entries) := by
  have hfunctions : String.join (p.functions.map FunctionDecl.outline) =
      Outline.printed (Entry.allLines 0 (p.functions.map FunctionDecl.entry)) := by
    generalize p.functions = fs
    induction fs with
    | nil => rfl
    | cons f fs ih =>
      rw [List.map_cons, List.map_cons, String.join_cons, ih, Entry.allLines,
        Outline.printed_append, f.outline_eq]
  rw [outline, entries, Entry.allLines_append, Outline.printed_append, hfunctions]
  cases p.main with
  | none => rfl
  | some m =>
    simp only [m.outline_eq, Option.toList_some, List.map_cons, List.map_nil, Entry.allLines,
      List.append_nil]

end Quill
