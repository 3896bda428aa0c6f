import Quill.Proofs.Syntax.FailedReads
import Quill.Proofs.Syntax.Names

/-! # Spans of the parts of a tree

A part of a tree that was read from a source spans its own lexemes, from the first of them to the
last. Its parts in turn have lexemes among these, one part after another, so their spans lie within
its span and do not overlap.
-/
namespace Quill

/-- The lexemes of an expression. The condition of a case has the operator, if that is written, and
the right operand. -/
inductive Expr.Occupies : Expr → List Lexeme → Prop
  | whole {e ls} : e.Grouped ls → Occupies e ls
  | semi {op lead rhs span os ls} : op.Spelled os → rhs.Grouped ls →
      Occupies (.semi op lead rhs span) (os ++ ls)

/-- The variable is the left operand of the condition. -/
def Case.Shares (lead : Ident) : Case → Prop
  | .mk c _ => ∃ op rhs span, c = .semi op lead rhs span

theorem Case.AllSpelled.ne_nil {E : Expr → List Lexeme → Prop} {lead : Ident} {cs : List Case}
    {ls : List Lexeme} (h : Case.AllSpelled E lead cs ls) : cs ≠ [] := by
  cases h <;> exact List.cons_ne_nil _ _

theorem Case.AllSpelled.shares {E : Expr → List Lexeme → Prop} {lead : Ident} {cs : List Case}
    {ls : List Lexeme} (h : Case.AllSpelled E lead cs ls) : ∀ c ∈ cs, c.Shares lead := by
  have hone {c : Case} {ls : List Lexeme} (h : c.Spelled E lead ls) : c.Shares lead := by
    cases h
    exact ⟨_, _, _, rfl⟩
  induction cs generalizing ls with
  | nil => exact List.forall_mem_nil _
  | cons c cs ih =>
    cases h with
    | one hc => exact List.forall_mem_singleton.2 (hone hc)
    | more hc _ hrest => exact List.forall_mem_cons.2 ⟨hone hc, ih hrest⟩

/-- A part of a tree that has a place. -/
inductive Node where
  | function (f : FunctionDecl)
  | main (m : EntryPoint)
  | stmt (s : Stmt)
  | expr (e : Expr)
  | ident (x : Ident)

namespace Node

def span : Node → Span
  | function f => f.span
  | main m => m.span
  | stmt s => s.span
  | expr e => e.span
  | ident x => x.span

def ofCase : Case → List Node
  | .mk c body => expr c :: body.map stmt

/-- The next smaller parts, in the order of the source. The lead variable of a branch is a part of
the branch and not of its conditions, all of which share it. -/
def children : Node → List Node
  | function f => ident f.name :: (f.params.map (fun p => ident p.name) ++ f.body.map stmt)
  | main m => m.body.map stmt
  | stmt (.assert c _) => [expr c]
  | stmt (.read x _) => [ident x]
  | stmt (.abort _) => []
  | stmt (.call callee args span) => [expr (.call callee args span)]
  | stmt (.print e _) => [expr e]
  | stmt (.assign x e _) => [ident x, expr e]
  | stmt (.declare x _ none _) => [ident x]
  | stmt (.declare x _ (some e) _) => [ident x, expr e]
  | stmt (.loop body c _) => body.map stmt ++ [expr c]
  | stmt (.branch lead cs none _) => ident lead :: cs.flatMap ofCase
  | stmt (.branch lead cs (some body) _) => ident lead :: (cs.flatMap ofCase ++ body.map stmt)
  | stmt (.ret none _) => []
  | stmt (.ret (some e) _) => [expr e]
  | expr (.var x) => [ident x]
  | expr (.binary _ lhs rhs) => [expr lhs, expr rhs]
  | expr (.semi _ _ rhs _) => [expr rhs]
  | expr (.call callee args _) => ident callee :: args.map expr
  | expr (.int ..) | expr (.float ..) | ident _ => []

def names : Node → List String
  | function f => f.names
  | main m => Stmt.namesAll m.body
  | stmt s => s.names
  | expr e => e.names
  | ident x => [x.text]

theorem names_cases (cs : List Case) : Case.namesAll cs = (cs.flatMap ofCase).flatMap names := by
  induction cs with
  | nil => rfl
  | cons c cs ih =>
    cases c
    simp [Case.namesAll, ih, ofCase, names, Stmt.namesAll_eq, List.flatMap_map]

/-- The lead variable of a condition is no part of it, and everything else is. -/
theorem names_children {n c : Node} (hc : c ∈ n.children) : c.names ⊆ n.names := by
  have hparts : n.children.flatMap names ⊆ n.names := by
    cases n with
    | function f =>
      simp [children, names, FunctionDecl.names, Stmt.namesAll_eq, List.map_eq_flatMap,
        List.flatMap_assoc]
    | main m => simp [children, names, Stmt.namesAll_eq, List.flatMap_map]
    | stmt s =>
      cases s with
      | declare x t init => cases init <;> simp [children, names, Stmt.names]
      | ret value => cases value <;> simp [children, names, Stmt.names]
      | branch lead cs otherwise =>
        cases otherwise <;> simp [children, names, Stmt.names, names_cases,
          Stmt.namesAll_eq, List.flatMap_map]
      | _ => simp [children, names, Stmt.names, Expr.names, Stmt.namesAll_eq, List.flatMap_map]
    | expr e => cases e <;> simp [children, names, Expr.names, Expr.namesAll_eq, List.flatMap_map]
    | ident => simp [children]
  exact fun x hx => hparts (List.mem_flatMap_of_mem hc hx)

def Spelled : Node → List Lexeme → Prop
  | function f, ls => f.Spelled Expr.Grouped ls
  | main m, ls => m.Spelled Expr.Grouped ls
  | stmt s, ls => s.Spelled Expr.Grouped ls
  | expr e, ls => e.Occupies ls
  | ident x, ls => ∃ l, l.token = .name x.text ∧ ls = [l]

/-- The lexemes spell the part, and it spans them. -/
structure Stands (n : Node) (ls : List Lexeme) : Prop where
  spelled : n.Spelled ls
  span : n.span = spanOf ls

theorem Stands.ne_nil {n : Node} {ls : List Lexeme} (h : n.Stands ls) : ls ≠ [] := by
  have hspelled := h.spelled
  cases n with
  | function => exact FunctionDecl.Spelled.ne_nil hspelled
  | main =>
    cases hspelled
    exact List.cons_ne_nil _ _
  | stmt => exact Stmt.Spelled.ne_nil hspelled
  | expr =>
    cases hspelled with
    | whole he => exact he.1.ne_nil
    | semi _ hrhs => exact List.append_ne_nil_of_right_ne_nil _ hrhs.1.ne_nil
  | ident =>
    obtain ⟨l, -, rfl⟩ := hspelled
    exact List.cons_ne_nil l []

theorem stands_ident {l : Lexeme} {x : String} (h : l.token = .name x) :
    (ident ⟨x, l.span⟩).Stands [l] := ⟨⟨l, h, rfl⟩, rfl⟩

theorem stands_expr {e : Expr} {ls : List Lexeme} (h : e.Grouped ls) : (expr e).Stands ls :=
  ⟨.whole h, h.1.span⟩

/-- Parts that follow each other among the lexemes. Others may stand before, between and behind
them. -/
inductive InOrder : List Node → List Lexeme → Prop
  | nil (ls) : InOrder [] ls
  | cons {n ls ns rs} (gap : List Lexeme) : n.Stands ls → InOrder ns rs →
      InOrder (n :: ns) (gap ++ (ls ++ rs))

namespace InOrder

variable {n : Node} {ns ms : List Node} {l : Lexeme} {ls rs : List Lexeme}

theorem behind (h : InOrder ns rs) (ls : List Lexeme) : InOrder ns (ls ++ rs) := by
  cases h with
  | nil => exact .nil _
  | cons gap hn hns =>
    rw [← List.append_assoc]
    exact .cons (ls ++ gap) hn hns

theorem skip (h : InOrder ns ls) (l : Lexeme) : InOrder ns (l :: ls) := h.behind [l]

theorem append (h : InOrder ns ls) (h' : InOrder ms rs) : InOrder (ns ++ ms) (ls ++ rs) := by
  induction h with
  | nil => exact h'.behind _
  | cons gap hn _ ih =>
    rw [List.append_assoc, List.append_assoc]
    exact .cons gap hn ih

theorem ahead (h : InOrder ns ls) (rs : List Lexeme) : InOrder ns (ls ++ rs) := by
  simpa using h.append (.nil rs)

theorem first (hn : n.Stands ls) (h : InOrder ns rs) : InOrder (n :: ns) (ls ++ rs) :=
  .cons [] hn h

theorem one (hn : n.Stands ls) (rs : List Lexeme) : InOrder [n] (ls ++ rs) := first hn (.nil rs)

theorem whole (hn : n.Stands ls) : InOrder [n] ls := by
  simpa using one hn []

theorem ident {x : String} (hl : l.token = .name x) (h : InOrder ns ls) :
    InOrder (.ident ⟨x, l.span⟩ :: ns) (l :: ls) := first (stands_ident hl) h

/-! Lists of parts -/

variable {α : Type} {P : α → List Lexeme → Prop} {node : α → Node} {as : List α}

theorem of_items (h : Items P as ls) (hnode : ∀ a ∈ as, ∀ ls, P a ls → InOrder [node a] ls) :
    InOrder (as.map node) ls := by
  induction h with
  | last ha _ => exact (hnode _ List.mem_cons_self _ ha).ahead _
  | more ha _ _ ih =>
    exact (hnode _ List.mem_cons_self _ ha).append
      ((ih fun b hb => hnode b (List.mem_cons_of_mem _ hb)).skip _)

theorem of_enclosed (h : Enclosed P as ls)
    (hnode : ∀ a ∈ as, ∀ ls, P a ls → InOrder [node a] ls) : InOrder (as.map node) ls := by
  cases h with
  | none => exact .nil _
  | some _ hitems => exact (of_items hitems hnode).skip _

theorem of_stmts {ss : List Stmt} (h : Stmt.AllSpelled Expr.Grouped ss ls) :
    InOrder (ss.map stmt) ls := by
  induction ss generalizing ls with
  | nil => exact .nil ls
  | cons s rest ih =>
    cases h with
    | cons _ hs hspan hrest => exact .cons _ ⟨hs, hspan⟩ (ih hrest)

theorem of_case {lead : Ident} {c : Case} (h : c.Spelled Expr.Grouped lead ls) : InOrder (ofCase c) ls := by
  cases h with
  | @mk _ op os rhs ls colon body bs hop hrhs _ hbody =>
    rw [← List.append_assoc]
    exact first ⟨.semi hop hrhs, rfl⟩ ((of_stmts hbody).behind colon)

theorem of_cases {lead : Ident} {cs : List Case} (h : Case.AllSpelled Expr.Grouped lead cs ls) :
    InOrder (cs.flatMap ofCase) ls := by
  induction cs generalizing ls with
  | nil => cases h
  | cons c rest ih =>
    cases h with
    | one hc => simpa using of_case hc
    | more hc _ hrest => exact (of_case hc).append ((ih hrest).skip _)

theorem of_functions {fs : List FunctionDecl} (h : FunctionDecl.AllSpelled Expr.Grouped fs ls) :
    InOrder (fs.map function) ls := by
  induction h with
  | nil => exact .nil []
  | cons hf _ ih =>
    refine first ⟨hf, ?_⟩ ih
    cases hf
    rfl

end InOrder

theorem grouped_of_mem {es : List Expr} {e : Expr} (h : Expr.AllGrouped es) (he : e ∈ es) :
    e.IsGrouped := by
  induction es with
  | nil => cases he
  | cons e' rest ih =>
    obtain ⟨hfirst, hrest⟩ := h
    rcases List.mem_cons.1 he with rfl | he
    · exact hfirst
    · exact ih hrest he

theorem children_expr {e : Expr} {ls : List Lexeme} (h : e.Grouped ls) :
    InOrder (expr e).children ls := by
  obtain ⟨hspelled, hgrouped⟩ := h
  cases hspelled with
  | int | float => exact .nil _
  | var hl => exact .ident hl (.nil [])
  | binary hlhs _ hrhs =>
    obtain ⟨hgl, hgr, -⟩ := hgrouped
    exact .first (stands_expr ⟨hlhs, hgl⟩) ((InOrder.whole (stands_expr ⟨hrhs, hgr⟩)).skip _)
  | call _ hx hargs =>
    refine (InOrder.ident hx (.of_enclosed hargs fun a ha ls hspelled => ?_)).skip _
    exact .whole (stands_expr ⟨hspelled, grouped_of_mem hgrouped ha⟩)

theorem children_stmt {s : Stmt} {ls : List Lexeme} (h : s.Spelled Expr.Grouped ls) :
    InOrder (stmt s).children ls := by
  cases h with
  | assert _ hc _ => exact (InOrder.one (stands_expr hc) _).skip _
  | read _ hx => exact (InOrder.ident hx (.nil [])).skip _
  | abort => exact .nil _
  | call hcall => exact .whole (stands_expr hcall)
  | print he _ => exact .one (stands_expr he) _
  | assign hx _ he => exact .ident hx ((InOrder.whole (stands_expr he)).skip _)
  | declare _ hx => exact (InOrder.ident hx (.nil _)).skip _
  | @declareAs _ _ _ _ _ ts _ _ _ _ _ hx _ _ _ he =>
    exact (InOrder.ident hx ((((InOrder.whole (stands_expr he)).skip _).behind ts).skip _)).skip _
  | loop _ hbody _ hc =>
    exact ((InOrder.of_stmts hbody).append ((InOrder.whole (stands_expr hc)).skip _)).skip _
  | branch _ hx _ hcs _ =>
    exact (InOrder.ident hx (((InOrder.of_cases hcs).ahead _).skip _)).skip _
  | @branchElse _ _ _ _ _ _ w colon _ _ e _ _ hx _ hcs _ _ hbody _ =>
    have hrest := (((InOrder.of_stmts hbody).ahead [e]).behind colon).skip w
    exact (InOrder.ident hx (((InOrder.of_cases hcs).append hrest).skip _)).skip _
  | ret => exact .nil _
  | retAs _ he _ => exact (InOrder.one (stands_expr he) _).skip _

/-- The parts of a part stand among its lexemes, in the order of the source. -/
theorem Stands.children {n : Node} {ls : List Lexeme} (h : n.Stands ls) :
    InOrder n.children ls := by
  have hspelled := h.spelled
  cases n with
  | function =>
    cases hspelled with
    | mk _ _ hx hparams hbody =>
      refine ((InOrder.ident hx ((InOrder.of_enclosed hparams fun p _ ls hp => ?_).append
        (.of_stmts hbody))).behind _).skip _
      cases hp with
      | mk hname => exact .ident hname (.nil _)
  | main =>
    cases hspelled with
    | mk _ hbody => exact (InOrder.of_stmts hbody).skip _
  | stmt => exact children_stmt hspelled
  | expr =>
    cases hspelled with
    | whole he => exact children_expr he
    | @semi _ _ _ _ os _ _ hrhs => exact (InOrder.whole (stands_expr hrhs)).behind os
  | ident => exact .nil ls

end Node

/-! ### Places -/

/-- From where the first lexeme begins to where the last one ends. -/
theorem spanOf_eq {ls : List Lexeme} (h : ls ≠ []) :
    spanOf ls = ⟨(ls.head h).span.first, (ls.getLast h).span.last⟩ := by
  obtain ⟨l, ls, rfl⟩ := List.exists_cons_of_ne_nil h
  induction ls generalizing l with
  | nil => rfl
  | cons l' ls ih =>
    have hlast := congrArg Span.last (ih l' (List.cons_ne_nil l' ls))
    simpa [spanOf, endOf] using hlast

namespace Span

def IsWithin (s t : Span) : Prop := ¬ s.first.before t.first ∧ ¬ t.last.before s.last

/-- The span ends before the other begins, or there. -/
def Precedes (s t : Span) : Prop := ¬ t.first.before s.last

end Span

/-- No lexeme ends before it begins, and none begins before an earlier one ends. -/
structure Ordered (ls : List Lexeme) : Prop where
  wide : ∀ x ∈ ls, ¬ x.span.last.before x.span.first
  pairs : ls.Pairwise fun x y => x.span.Precedes y.span

namespace Ordered

variable {x : Lexeme} {ls rs ms : List Lexeme}

theorem left (h : Ordered (ls ++ rs)) : Ordered ls :=
  ⟨fun x hx => h.wide x (List.mem_append_left rs hx), (List.pairwise_append.1 h.pairs).1⟩

theorem right (h : Ordered (ls ++ rs)) : Ordered rs :=
  ⟨fun x hx => h.wide x (List.mem_append_right ls hx), (List.pairwise_append.1 h.pairs).2.1⟩

theorem run (h : Ordered ls) (hms : ms <:+: ls) : Ordered ms := by
  obtain ⟨xs, ys, rfl⟩ := hms
  exact h.left.right

theorem first_le (h : Ordered ls) (hne : ls ≠ []) (hx : x ∈ ls) :
    ¬ x.span.first.before (ls.head hne).span.first := by
  obtain ⟨l, ls, rfl⟩ := List.exists_cons_of_ne_nil hne
  rcases List.mem_cons.1 hx with rfl | hx
  · exact Location.not_before_after _ []
  · exact Location.not_before_trans (h.wide l List.mem_cons_self)
      (List.rel_of_pairwise_cons h.pairs hx)

theorem le_last (h : Ordered ls) (hne : ls ≠ []) (hx : x ∈ ls) :
    ¬ (ls.getLast hne).span.last.before x.span.last := by
  obtain ⟨init, l, rfl⟩ : ∃ init l, ls = init ++ [l] :=
    ⟨_, _, (List.dropLast_append_getLast hne).symm⟩
  rw [List.getLast_append_singleton]
  have hwide := h.wide l (List.mem_append_right init List.mem_cons_self)
  rcases List.mem_append.1 hx with hx | hx
  · have hprecedes := (List.pairwise_append.1 h.pairs).2.2 x hx l List.mem_cons_self
    exact Location.not_before_trans hprecedes hwide
  · obtain rfl := List.mem_singleton.1 hx
    exact Location.not_before_after _ []

theorem isWithin (h : Ordered ls) (hms : ms <:+: ls) (hne : ms ≠ []) :
    (spanOf ms).IsWithin (spanOf ls) := by
  have hls : ls ≠ [] := fun hnil => hne (List.infix_nil.1 (hnil ▸ hms))
  rw [spanOf_eq hne, spanOf_eq hls]
  exact ⟨h.first_le hls (hms.subset (List.head_mem hne)),
    h.le_last hls (hms.subset (List.getLast_mem hne))⟩

theorem precedes (h : Ordered (ls ++ rs)) (hls : ls ≠ []) (hms : ms <:+: rs) (hne : ms ≠ []) :
    (spanOf ls).Precedes (spanOf ms) := by
  rw [spanOf_eq hls, spanOf_eq hne]
  exact (List.pairwise_append.1 h.pairs).2.2 _ (List.getLast_mem hls) _
    (hms.subset (List.head_mem hne))

end Ordered

namespace Node

theorem InOrder.exists_stands {n : Node} {ns : List Node} {ls : List Lexeme}
    (h : InOrder ns ls) (hn : n ∈ ns) : ∃ ms, ms <:+: ls ∧ n.Stands ms := by
  induction h with
  | nil => cases hn
  | @cons _ xs _ rs gap hfirst _ ih =>
    rcases List.mem_cons.1 hn with rfl | hn
    · exact ⟨xs, ⟨gap, rs, by simp⟩, hfirst⟩
    · obtain ⟨ms, hms, hstands⟩ := ih hn
      have hrest := (List.suffix_append xs rs).trans (List.suffix_append gap _)
      exact ⟨ms, hms.trans hrest.isInfix, hstands⟩

theorem InOrder.precedes {ns : List Node} {ls : List Lexeme} (h : InOrder ns ls)
    (hls : Ordered ls) : ns.Pairwise fun a b => a.span.Precedes b.span := by
  induction h with
  | nil => exact .nil
  | cons gap hfirst hrest ih =>
    refine List.pairwise_cons.2 ⟨fun n hn => ?_, ih hls.right.right⟩
    obtain ⟨ms, hms, hstands⟩ := hrest.exists_stands hn
    rw [hfirst.span, hstands.span]
    exact hls.right.precedes hfirst.ne_nil hms hstands.ne_nil

/-- The part ends no earlier than it begins, and the next smaller parts lie within it, each behind
the one before it. -/
structure IsNested (n : Node) : Prop where
  wide : ¬ n.span.last.before n.span.first
  within : ∀ c ∈ n.children, c.span.IsWithin n.span
  apart : n.children.Pairwise fun a b => a.span.Precedes b.span

theorem Stands.isNested {n : Node} {ls : List Lexeme} (h : n.Stands ls) (hls : Ordered ls) :
    n.IsNested := by
  refine ⟨?_, fun c hc => ?_, h.children.precedes hls⟩
  · rw [h.span, spanOf_eq h.ne_nil]
    have hhead := List.head_mem h.ne_nil
    exact Location.not_before_trans (hls.wide _ hhead) (hls.le_last h.ne_nil hhead)
  obtain ⟨ms, hms, hstands⟩ := h.children.exists_stands hc
  rw [hstands.span, h.span]
  exact hls.isWithin hms hstands.ne_nil

end Node

namespace Program

/-- The parts of a program, at whatever depth. -/
inductive Has (p : Program) : Node → Prop
  | function {f} : f ∈ p.functions → Has p (.function f)
  | main {m} : p.main = some m → Has p (.main m)
  | child {n c} : Has p n → c ∈ n.children → Has p c

variable {p : Program} {fileName : String} {ls : List Lexeme}

theorem Has.names {n : Node} (h : p.Has n) : ∀ x ∈ n.names, x ∈ p.names := by
  induction h with
  | function hf => exact fun x hx => List.mem_append_left _ (List.mem_flatMap_of_mem hf hx)
  | main hm =>
    intro x hx
    refine List.mem_append_right _ ?_
    rw [hm]
    exact hx
  | child _ hc ih => exact fun x hx => ih x (Node.names_children hc hx)
section

variable {lead : Ident} {cs : List Case} {otherwise : Option (List Stmt)} {body : List Stmt}
  {c : Expr} {span : Span}

theorem Has.loopBody (h : p.Has (.stmt (.loop body c span))) : ∀ s ∈ body, p.Has (.stmt s) :=
  fun _ hs => h.child (List.mem_append_left _ (List.mem_map_of_mem hs))

theorem Has.leadIdent (h : p.Has (.stmt (.branch lead cs otherwise span))) : p.Has (.ident lead) := by
  cases otherwise <;> exact h.child List.mem_cons_self

theorem Has.caseParts (h : p.Has (.stmt (.branch lead cs otherwise span))) :
    ∀ a ∈ cs, ∀ n ∈ Node.ofCase a, p.Has n := by
  intro a ha n hn
  have hmem := List.mem_flatMap_of_mem ha hn
  cases otherwise with
  | none => exact h.child (List.mem_cons_of_mem _ hmem)
  | some => exact h.child (List.mem_cons_of_mem _ (List.mem_append_left _ hmem))

theorem Has.elseBody (h : p.Has (.stmt (.branch lead cs (some body) span))) :
    ∀ s ∈ body, p.Has (.stmt s) := fun _ hs =>
  h.child (List.mem_cons_of_mem _ (List.mem_append_right _ (List.mem_map_of_mem hs)))

theorem has_caseBody (h : ∀ n ∈ Node.ofCase (.mk c body), p.Has n) : ∀ s ∈ body, p.Has (.stmt s) :=
  fun _ hs => h _ (List.mem_cons_of_mem _ (List.mem_map_of_mem hs))

end

/-- The entry point stands among the functions, and all of them follow each other. -/
theorem Spelled.inOrder (h : p.Spelled Expr.Grouped fileName ls) :
    ∃ fs gs, p.functions = fs ++ gs ∧
      Node.InOrder (fs.map .function ++ (p.main.toList.map .main ++ gs.map .function)) ls := by
  cases h with
  | library hfs => exact ⟨_, [], (List.append_nil _).symm, by simpa using .of_functions hfs⟩
  | withMain hfs hm hgs =>
    refine ⟨_, _, rfl, (Node.InOrder.of_functions hfs).append (.first ⟨hm, ?_⟩ (.of_functions hgs))⟩
    cases hm
    rfl

theorem Spelled.exists_stands {n : Node} (h : p.Spelled Expr.Grouped fileName ls) (hn : p.Has n) :
    ∃ ms, ms <:+: ls ∧ n.Stands ms := by
  obtain ⟨fs, gs, hfunctions, horder⟩ := h.inOrder
  induction hn with
  | function hf =>
    refine horder.exists_stands ?_
    rw [hfunctions, List.mem_append] at hf
    rcases hf with hf | hf <;> simp [hf]
  | main hm => exact horder.exists_stands (by simp [hm])
  | child _ hc ih =>
    obtain ⟨ms, hms, hstands⟩ := ih
    obtain ⟨ms', hms', hstands'⟩ := hstands.children.exists_stands hc
    exact ⟨ms', hms'.trans hms, hstands'⟩

variable {o : LexerOptions} {feed : Feed}

/-- An accepted source consists of the lexemes of its program and the end. -/
theorem parse_spelled (h : (parse o fileName feed).outcome = .ok p) :
    ∃ ls last, (o.lexer feed).lexemes.1 = ls ++ [last] ∧ p.Spelled Expr.Grouped fileName ls := by
  obtain ⟨ls, last, hls, hno, hlast⟩ := (o.lexer feed).lexemes_end
  have hlist : (o.lexer feed).toList = ls ++ last :: [(o.lexer feed).lexemes.2.next.1] := by
    simp [Lexer.toList, hls]
  have hend := Parser.toList_hasEnd (o.lexer feed)
  have hbound := Parser.toList_bound (o.lexer feed)
  have hwhole := parse_ok h
  rw [hlist] at hend hbound hwhole
  obtain ⟨-, hspelled⟩ :=
    Parser.runWhole_reads hno hlast (Parser.program_reads hend (by omega)) hwhole
  exact ⟨ls, last, hls, hspelled⟩

/-- Each branch has a case, and the conditions of all its cases share its lead variable. -/
def SharesLeads (p : Program) : Prop :=
  ∀ lead cs otherwise span, p.Has (.stmt (.branch lead cs otherwise span)) →
    cs ≠ [] ∧ ∀ c ∈ cs, c.Shares lead

theorem parse_sharesLeads (h : (parse o fileName feed).outcome = .ok p) : p.SharesLeads := by
  obtain ⟨ls, last, -, hspelled⟩ := parse_spelled h
  intro lead cs otherwise span hbranch
  obtain ⟨ms, -, hstands⟩ := hspelled.exists_stands hbranch
  cases hstands.spelled with
  | branch _ _ _ hcs _ | branchElse _ _ _ hcs _ _ _ _ => exact ⟨hcs.ne_nil, hcs.shares⟩

/-- Each part of an accepted program has lexemes of the source of its own. It spans them from the
first to the last; its own parts lie within it, one behind the other. So do the functions and the
entry point behind each other. -/
theorem parse_nested (h : (parse o fileName feed).outcome = .ok p) :
    (∀ n, p.Has n → n.IsNested ∧ ∃ ls, ∃ hne : ls ≠ [], ls <:+: (o.lexer feed).lexemes.1 ∧
      n.Spelled ls ∧ n.span = ⟨(ls.head hne).span.first, (ls.getLast hne).span.last⟩) ∧
    ∃ fs gs, p.functions = fs ++ gs ∧
      (fs.map Node.function ++ (p.main.toList.map Node.main ++ gs.map Node.function)).Pairwise
        fun a b : Node => a.span.Precedes b.span := by
  obtain ⟨ls, last, hls, hspelled⟩ := parse_spelled h
  obtain ⟨hspans, hpairs⟩ := (Lexer.follows_ofFeed feed o.capacity).lexemes_ordered
  have hordered : Ordered (o.lexer feed).lexemes.1 := ⟨fun x hx => (hspans x hx).2, hpairs⟩
  rw [hls] at hordered ⊢
  constructor
  · intro n hn
    obtain ⟨ms, hms, hstands⟩ := hspelled.exists_stands hn
    refine ⟨hstands.isNested (hordered.left.run hms), ms, hstands.ne_nil,
      hms.trans (List.prefix_append ls [last]).isInfix, hstands.spelled, ?_⟩
    rw [hstands.span, spanOf_eq]
  · obtain ⟨fs, gs, hfunctions, horder⟩ := hspelled.inOrder
    exact ⟨fs, gs, hfunctions, horder.precedes hordered.left⟩

def nestedSource : List UInt8 :=
  Utf8.encode "main branch x of < 2: y = call f with 1, x;, end function f; abort,"

theorem parse_nested_sample : ∃ p, (parse .usual "sample" (.whole nestedSource)).outcome = .ok p ∧
    (∀ n, p.Has n → n.IsNested ∧ ∃ ls, ∃ hne : ls ≠ [],
      ls <:+: (LexerOptions.usual.lexer (.whole nestedSource)).lexemes.1 ∧
      n.Spelled ls ∧ n.span = ⟨(ls.head hne).span.first, (ls.getLast hne).span.last⟩) ∧
    ∃ fs gs, p.functions = fs ++ gs ∧
      (fs.map Node.function ++ (p.main.toList.map Node.main ++ gs.map Node.function)).Pairwise
        fun a b : Node => a.span.Precedes b.span := by
  have hok : (parse .usual "sample" (.whole nestedSource)).outcome.toOption.isSome := by
    rw [outcome_parse_whole]
    decide +kernel
  obtain ⟨p, hp⟩ := Option.isSome_iff_exists.1 hok
  exact ⟨p, eq_ok_of_toOption hp, parse_nested (eq_ok_of_toOption hp)⟩

end Program

end Quill
