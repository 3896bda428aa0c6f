import Quill.Syntax.Parser

/-! # The grammar

Which lexemes spell which tree. The rules say nothing of how a tree is found, and let the operators
of an expression be grouped in any way. One grouping is meant: every spelling has exactly one tree
whose operators are grouped by precedence.
-/
namespace Quill

def endOf (p : Location) (ls : List Lexeme) : Location := ls.foldl (fun _ l => l.span.last) p

def spanOf : List Lexeme → Span
  | [] => .point .start
  | l :: rest => ⟨l.span.first, endOf l.span.last rest⟩

def Commas (ls : List Lexeme) : Prop := ∀ l ∈ ls, l.token = .mark .comma

/-- A lexeme that may be left out. -/
inductive OptionalMark (m : Mark) : List Lexeme → Prop
  | absent : OptionalMark m []
  | present {l} : l.token = .mark m → OptionalMark m [l]

section

variable {α : Type} (P : α → List Lexeme → Prop)

/-- Items with commas between them and a semicolon behind the last. -/
inductive Items : List α → List Lexeme → Prop
  | last {a ls s} : P a ls → s.token = .mark .semicolon → Items [a] (ls ++ [s])
  | more {a ls c as rs} : P a ls → c.token = .mark .comma → Items as rs →
      Items (a :: as) (ls ++ c :: rs)

/-- What stands behind the name of a function, where it is declared and where it is called. -/
inductive Enclosed : List α → List Lexeme → Prop
  | none {s} : s.token = .mark .semicolon → Enclosed [] [s]
  | some {w as ls} : w.token = .word .withArgs → Items P as ls → Enclosed as (w :: ls)

end

/-- Expressions that are written out. The condition of a case is none of them: its left operand
stands elsewhere. -/
inductive Expr.Spelled : Expr → List Lexeme → Prop
  | int {l n} : l.token = .integer n → Spelled (.int n l.span) [l]
  | float {l x} : l.token = .float x → Spelled (.float x l.span) [l]
  | var {l x} : l.token = .name x → Spelled (.var ⟨x, l.span⟩) [l]
  | binary {lhs ls l op rhs rs} : Spelled lhs ls → l.token = .op op → Spelled rhs rs →
      Spelled (.binary op lhs rhs) (ls ++ l :: rs)
  | call {k x callee args ls} : k.token = .word .call → x.token = .name callee →
      Enclosed Spelled args ls →
      Spelled (.call ⟨callee, x.span⟩ args (spanOf (k :: x :: ls))) (k :: x :: ls)

inductive TypeExpr.Spelled : TypeExpr → List Lexeme → Prop
  | scalar {l base} : l.token = .typeName base → Spelled ⟨base, false⟩ [l]
  | pointer {s l base} : s.token = .op .mul → l.token = .typeName base → Spelled ⟨base, true⟩ [s, l]

/-- The operator of a case, which is equality where none is written. -/
inductive Operator.Spelled : Operator → List Lexeme → Prop
  | absent : Spelled .eq []
  | written {l o} : l.token = .op o → Spelled o [l]

section

/-! The rules for statements and functions, for any rules of expressions. -/

variable (E : Expr → List Lexeme → Prop)

mutual

/-- The span of the statement is left open here. -/
inductive Stmt.Spelled : Stmt → List Lexeme → Prop
  | assert {k c ls b span} : k.token = .word .assert → E c ls → b.token = .mark .bang →
      Stmt.Spelled (.assert c span) (k :: (ls ++ [b]))
  | read {k x target span} : k.token = .word .read → x.token = .name target →
      Stmt.Spelled (.read ⟨target, x.span⟩ span) [k, x]
  | abort {k span} : k.token = .word .abort → Stmt.Spelled (.abort span) [k]
  | call {callee args span ls} : E (.call callee args span) ls →
      Stmt.Spelled (.call callee args span) ls
  | print {e ls p span} : E e ls → p.token = .word .print → Stmt.Spelled (.print e span) (ls ++ [p])
  | assign {x target a e ls span} : x.token = .name target → a.token = .mark .assign → E e ls →
      Stmt.Spelled (.assign ⟨target, x.span⟩ e span) (x :: a :: ls)
  | declare {k x target c type ts span} : k.token = .word .var → x.token = .name target →
      c.token = .mark .colon → type.Spelled ts →
      Stmt.Spelled (.declare ⟨target, x.span⟩ type none span) (k :: x :: c :: ts)
  | declareAs {k x target c type ts a e ls span} : k.token = .word .var → x.token = .name target →
      c.token = .mark .colon → type.Spelled ts → a.token = .mark .assign → E e ls →
      Stmt.Spelled (.declare ⟨target, x.span⟩ type (some e) span) (k :: x :: c :: (ts ++ a :: ls))
  | loop {k body bs w c ls span} : k.token = .word .doLoop → Stmt.AllSpelled body bs →
      w.token = .word .while → E c ls → Stmt.Spelled (.loop body c span) (k :: (bs ++ w :: ls))
  | branch {k x lead o cs ls e span} : k.token = .word .branch → x.token = .name lead →
      o.token = .word .of → Case.AllSpelled ⟨lead, x.span⟩ cs ls →
      e.token = .word .endBranch →
      Stmt.Spelled (.branch ⟨lead, x.span⟩ cs none span) (k :: x :: o :: (ls ++ [e]))
  | branchElse {k x lead o cs ls w colon body bs e span} : k.token = .word .branch →
      x.token = .name lead → o.token = .word .of → Case.AllSpelled ⟨lead, x.span⟩ cs ls →
      w.token = .word .otherwise → OptionalMark .colon colon → Stmt.AllSpelled body bs →
      e.token = .word .endBranch →
      Stmt.Spelled (.branch ⟨lead, x.span⟩ cs (some body) span)
        (k :: x :: o :: (ls ++ w :: (colon ++ (bs ++ [e]))))
  | ret {k b span} : k.token = .word .ret → b.token = .mark .bang →
      Stmt.Spelled (.ret none span) [k, b]
  | retAs {k e ls b span} : k.token = .word .ret → E e ls → b.token = .mark .bang →
      Stmt.Spelled (.ret (some e) span) (k :: (ls ++ [b]))

/-- Statements with any number of commas before, between and behind them. Each spans its own
lexemes. -/
inductive Stmt.AllSpelled : List Stmt → List Lexeme → Prop
  | nil {ks} : Commas ks → Stmt.AllSpelled [] ks
  | cons {ks s ls ss rs} : Commas ks → Stmt.Spelled s ls → s.span = spanOf ls →
      Stmt.AllSpelled ss rs → Stmt.AllSpelled (s :: ss) (ks ++ (ls ++ rs))

/-- A case of a branch with that lead variable, which is the left operand of the condition. -/
inductive Case.Spelled : Ident → Case → List Lexeme → Prop
  | mk {lead op os rhs ls colon body bs} : op.Spelled os → E rhs ls → OptionalMark .colon colon →
      Stmt.AllSpelled body bs →
      Case.Spelled lead (.mk (.semi op lead rhs (spanOf (os ++ ls))) body)
        (os ++ (ls ++ (colon ++ bs)))

inductive Case.AllSpelled : Ident → List Case → List Lexeme → Prop
  | one {lead c ls} : Case.Spelled lead c ls → Case.AllSpelled lead [c] ls
  | more {lead c ls o cs rs} : Case.Spelled lead c ls → o.token = .word .or →
      Case.AllSpelled lead cs rs → Case.AllSpelled lead (c :: cs) (ls ++ o :: rs)

end

/-- No parameter is void. -/
inductive Param.Spelled : Param → List Lexeme → Prop
  | mk {x name c type ts} : x.token = .name name → c.token = .mark .colon → type.Spelled ts →
      type.isVoid = false → Spelled ⟨⟨name, x.span⟩, type⟩ (x :: c :: ts)

/-- A function that names no type gives nothing. -/
inductive ResultSpelled : TypeExpr → List Lexeme → Prop
  | absent : ResultSpelled .void []
  | written {type ts} : type.Spelled ts → ResultSpelled type ts

inductive FunctionDecl.Spelled : FunctionDecl → List Lexeme → Prop
  | mk {k result rs x name params ps body bs} : k.token = .word .function →
      ResultSpelled result rs → x.token = .name name → Enclosed Param.Spelled params ps →
      Stmt.AllSpelled E body bs →
      Spelled ⟨⟨name, x.span⟩, result, params, body, spanOf (k :: (rs ++ x :: (ps ++ bs)))⟩
        (k :: (rs ++ x :: (ps ++ bs)))

inductive FunctionDecl.AllSpelled : List FunctionDecl → List Lexeme → Prop
  | nil : AllSpelled [] []
  | cons {f ls fs rs} : f.Spelled E ls → AllSpelled fs rs → AllSpelled (f :: fs) (ls ++ rs)

inductive EntryPoint.Spelled : EntryPoint → List Lexeme → Prop
  | mk {k body bs} : k.token = .word .main → Stmt.AllSpelled E body bs →
      Spelled ⟨body, spanOf (k :: bs)⟩ (k :: bs)

/-- Functions, and perhaps an entry point among them. -/
inductive Program.Spelled (fileName : String) : Program → List Lexeme → Prop
  | library {fs ls} : FunctionDecl.AllSpelled E fs ls → Spelled fileName ⟨fs, none, fileName⟩ ls
  | withMain {fs ls m ms gs rs} : FunctionDecl.AllSpelled E fs ls → m.Spelled E ms →
      FunctionDecl.AllSpelled E gs rs →
      Spelled fileName ⟨fs ++ gs, some m, fileName⟩ (ls ++ (ms ++ rs))

end

/-! ### Grouping -/

/-- The precedence of the outermost operator; operands that are none bind tighter than all. -/
def Expr.level : Expr → Nat
  | binary op _ _ => op.precedence
  | _ => 5

mutual

/-- Operators of one level group to the left, and those of a lower one stand outside. The condition
of a case is no operand. -/
def Expr.IsGrouped : Expr → Prop
  | .binary op lhs rhs =>
    lhs.IsGrouped ∧ rhs.IsGrouped ∧ op.precedence ≤ lhs.level ∧ op.precedence < rhs.level
  | .semi .. => False
  | .call _ args _ => Expr.AllGrouped args
  | .int .. | .float .. | .var _ => True

def Expr.AllGrouped : List Expr → Prop
  | [] => True
  | e :: rest => e.IsGrouped ∧ Expr.AllGrouped rest

end

/-- Expressions as they are meant: the spelling of the tree, grouped by precedence. -/
def Expr.Grouped (e : Expr) (ls : List Lexeme) : Prop := e.Spelled ls ∧ e.IsGrouped

theorem Operator.precedence_lt (o : Operator) : o.precedence < 5 := by
  cases o <;> decide

/-! ### Every spelling can be grouped -/

/-- One more operand behind a grouped expression: it joins the operators on the right that bind
less tightly. -/
theorem Expr.Grouped.extend {g a : Expr} {ls rs : List Lexeme} {l : Lexeme} {op : Operator}
    (hg : g.Grouped ls) (hl : l.token = .op op) (ha : a.Grouped rs) (hlevel : a.level = 5) :
    ∃ t : Expr, t.Grouped (ls ++ l :: rs) ∧
      ∀ n, n < op.precedence → n < g.level → n < t.level := by
  have houter {g : Expr} {ls : List Lexeme} (hg : g.Grouped ls) (h : op.precedence ≤ g.level) :
      ∃ t : Expr, t.Grouped (ls ++ l :: rs) ∧
        ∀ n, n < op.precedence → n < g.level → n < t.level := by
    refine ⟨.binary op g a, ⟨.binary hg.1 hl ha.1, hg.2, ha.2, h, ?_⟩, fun n hn _ => hn⟩
    rw [hlevel]
    exact op.precedence_lt
  have hatom {g : Expr} {ls : List Lexeme} (hg : g.Grouped ls) (h : g.level = 5) :=
    houter hg (h ▸ Nat.le_of_lt op.precedence_lt)
  match g with
  | .int .. | .float .. | .var _ | .call .. => exact hatom hg rfl
  | .binary o lhs rhs =>
    by_cases hle : op.precedence ≤ o.precedence
    · exact houter hg hle
    · obtain ⟨hspelled, hlhs, hrhs, hleft, hright⟩ := hg
      cases hspelled with
      | binary hsl ho hsr =>
        have hr : rhs.Grouped _ := ⟨hsr, hrhs⟩
        obtain ⟨t, ht, hbelow⟩ := hr.extend hl ha hlevel
        have hinner := hbelow o.precedence (Nat.lt_of_not_le hle) hright
        refine ⟨.binary o lhs t, ⟨?_, hlhs, ht.2, hleft, hinner⟩, fun n _ hn => hn⟩
        simpa using Spelled.binary hsl ho ht.1

/-- Two grouped expressions on the sides of an operator, grouped anew: the operands of the right
one are added one after the other. -/
theorem Expr.Grouped.join {g r : Expr} {ls rs : List Lexeme} {l : Lexeme} {op : Operator}
    (hg : g.Grouped ls) (hl : l.token = .op op) (hr : r.Grouped rs) :
    ∃ t : Expr, t.Grouped (ls ++ l :: rs) := by
  match r with
  | .int .. | .float .. | .var _ | .call .. =>
    obtain ⟨t, ht, -⟩ := hg.extend hl hr rfl
    exact ⟨t, ht⟩
  | .binary o lhs rhs =>
    obtain ⟨hspelled, hlhs, hrhs, -⟩ := hr
    cases hspelled with
    | binary hsl ho hsr =>
      obtain ⟨t, ht⟩ := hg.join hl ⟨hsl, hlhs⟩
      obtain ⟨u, hu⟩ := ht.join ho ⟨hsr, hrhs⟩
      exact ⟨u, by simpa using hu⟩

mutual

/-- Whatever the grouping of a spelling, there is a grouped tree for it. A call stays a call. -/
theorem Expr.Spelled.grouped {e : Expr} {ls : List Lexeme} (h : e.Spelled ls) :
    ∃ g : Expr, g.Grouped ls ∧
      ∀ callee args span, e = .call callee args span → ∃ args', g = .call callee args' span := by
  match e with
  | .int .. => exact ⟨_, ⟨h, trivial⟩, by simp⟩
  | .float .. => exact ⟨_, ⟨h, trivial⟩, by simp⟩
  | .var _ => exact ⟨_, ⟨h, trivial⟩, by simp⟩
  | .binary op lhs rhs =>
    cases h with
    | binary hlhs hop hrhs =>
      obtain ⟨g, hg, -⟩ := hlhs.grouped
      obtain ⟨r, hr, -⟩ := hrhs.grouped
      obtain ⟨t, ht⟩ := hg.join hop hr
      exact ⟨t, ht, by simp⟩
  | .call callee args span =>
    cases h with
    | call hk hx hargs =>
      have hcall {args' ls} (h : Enclosed Expr.Spelled args' ls) (hg : Expr.AllGrouped args') :=
        (⟨.call hk hx h, hg⟩ : Expr.Grouped (.call _ args' _) _)
      cases hargs with
      | none hs => exact ⟨_, hcall (.none hs) trivial, by simp⟩
      | some hw hitems =>
        obtain ⟨args', hitems', hg⟩ := Expr.items_grouped hitems
        exact ⟨_, hcall (.some hw hitems') hg, by simp⟩

theorem Expr.items_grouped {es : List Expr} {ls : List Lexeme} (h : Items Expr.Spelled es ls) :
    ∃ gs, Items Expr.Spelled gs ls ∧ Expr.AllGrouped gs := by
  match es with
  | [] => cases h
  | e :: rest =>
    cases h with
    | last he hs =>
      obtain ⟨g, hg, -⟩ := he.grouped
      exact ⟨[g], .last hg.1 hs, hg.2, trivial⟩
    | more he hc hrest =>
      obtain ⟨g, hg, -⟩ := he.grouped
      obtain ⟨gs, hgs, hall⟩ := Expr.items_grouped hrest
      exact ⟨g :: gs, .more hg.1 hc hgs, hg.2, hall⟩

end

/-! ### Other rules of expressions -/

/-- What one rule of expressions spells another spells too, perhaps as another tree. A call stays a
call. -/
structure Respelled (E E' : Expr → List Lexeme → Prop) : Prop where
  expr : ∀ e ls, E e ls → ∃ e', E' e' ls
  call : ∀ callee args span ls, E (.call callee args span) ls →
    ∃ args', E' (.call callee args' span) ls

namespace Respelled

theorem group : Respelled Expr.Spelled Expr.Grouped where
  expr e ls h := by
    obtain ⟨g, hg, -⟩ := h.grouped
    exact ⟨g, hg⟩
  call callee args span ls h := by
    obtain ⟨g, hg, hcall⟩ := h.grouped
    obtain ⟨args', rfl⟩ := hcall callee args span rfl
    exact ⟨args', hg⟩

theorem ungroup : Respelled Expr.Grouped Expr.Spelled :=
  ⟨fun e _ h => ⟨e, h.1⟩, fun _ args _ _ h => ⟨args, h.1⟩⟩

variable {E E' : Expr → List Lexeme → Prop}

mutual

theorem stmt {s : Stmt} {ls : List Lexeme} (hE : Respelled E E') (h : s.Spelled E ls) :
    ∃ s', Stmt.Spelled E' s' ls ∧ s'.span = s.span := by
  match s with
  | .assert c span =>
    cases h with
    | assert hk hc hb =>
      obtain ⟨c', hc'⟩ := hE.expr _ _ hc
      exact ⟨.assert c' span, .assert hk hc' hb, rfl⟩
  | .read .. =>
    cases h with
    | read hk hx => exact ⟨_, .read hk hx, rfl⟩
  | .abort _ =>
    cases h with
    | abort hk => exact ⟨_, .abort hk, rfl⟩
  | .call callee args span =>
    cases h with
    | call hcall =>
      obtain ⟨args', hcall'⟩ := hE.call _ _ _ _ hcall
      exact ⟨.call callee args' span, .call hcall', rfl⟩
  | .print e span =>
    cases h with
    | print he hp =>
      obtain ⟨e', he'⟩ := hE.expr _ _ he
      exact ⟨.print e' span, .print he' hp, rfl⟩
  | .assign x e span =>
    cases h with
    | assign hx ha he =>
      obtain ⟨e', he'⟩ := hE.expr _ _ he
      exact ⟨.assign _ e' span, .assign hx ha he', rfl⟩
  | .declare x type none span =>
    cases h with
    | declare hk hx hc ht => exact ⟨_, .declare hk hx hc ht, rfl⟩
  | .declare x type (some e) span =>
    cases h with
    | declareAs hk hx hc ht ha he =>
      obtain ⟨e', he'⟩ := hE.expr _ _ he
      exact ⟨.declare _ type (some e') span, .declareAs hk hx hc ht ha he', rfl⟩
  | .loop body c span =>
    cases h with
    | loop hk hbody hw hc =>
      obtain ⟨body', hbody'⟩ := stmts hE hbody
      obtain ⟨c', hc'⟩ := hE.expr _ _ hc
      exact ⟨.loop body' c' span, .loop hk hbody' hw hc', rfl⟩
  | .branch lead cs none span =>
    cases h with
    | branch hk hx ho hcs he =>
      obtain ⟨cs', hcs'⟩ := cases hE hcs
      exact ⟨.branch _ cs' none span, .branch hk hx ho hcs' he, rfl⟩
  | .branch lead cs (some body) span =>
    cases h with
    | branchElse hk hx ho hcs hw hcolon hbody he =>
      obtain ⟨cs', hcs'⟩ := cases hE hcs
      obtain ⟨body', hbody'⟩ := stmts hE hbody
      exact ⟨.branch _ cs' (some body') span, .branchElse hk hx ho hcs' hw hcolon hbody' he, rfl⟩
  | .ret none span =>
    cases h with
    | ret hk hb => exact ⟨_, .ret hk hb, rfl⟩
  | .ret (some e) span =>
    cases h with
    | retAs hk he hb =>
      obtain ⟨e', he'⟩ := hE.expr _ _ he
      exact ⟨.ret (some e') span, .retAs hk he' hb, rfl⟩

theorem stmts {ss : List Stmt} {ls : List Lexeme} (hE : Respelled E E')
    (h : Stmt.AllSpelled E ss ls) : ∃ ss', Stmt.AllSpelled E' ss' ls := by
  match ss with
  | [] =>
    cases h with
    | nil hks => exact ⟨[], .nil hks⟩
  | s :: rest =>
    cases h with
    | cons hks hs hspan hrest =>
      obtain ⟨s', hs', hspan'⟩ := stmt hE hs
      obtain ⟨rest', hrest'⟩ := stmts hE hrest
      exact ⟨s' :: rest', .cons hks hs' (hspan'.trans hspan) hrest'⟩

theorem case {lead : Ident} {c : Case} {ls : List Lexeme} (hE : Respelled E E')
    (h : c.Spelled E lead ls) : ∃ c', Case.Spelled E' lead c' ls := by
  match c with
  | .mk condition body =>
    cases h with
    | mk hop hrhs hcolon hbody =>
      obtain ⟨rhs', hrhs'⟩ := hE.expr _ _ hrhs
      obtain ⟨body', hbody'⟩ := stmts hE hbody
      exact ⟨_, .mk hop hrhs' hcolon hbody'⟩

theorem cases {lead : Ident} {cs : List Case} {ls : List Lexeme} (hE : Respelled E E')
    (h : Case.AllSpelled E lead cs ls) : ∃ cs', Case.AllSpelled E' lead cs' ls := by
  match cs with
  | [] => cases h
  | c :: rest =>
    cases h with
    | one hc =>
      obtain ⟨c', hc'⟩ := case hE hc
      exact ⟨[c'], .one hc'⟩
    | more hc ho hrest =>
      obtain ⟨c', hc'⟩ := case hE hc
      obtain ⟨rest', hrest'⟩ := cases hE hrest
      exact ⟨c' :: rest', .more hc' ho hrest'⟩

end

theorem functions {fs : List FunctionDecl} {ls : List Lexeme} (hE : Respelled E E')
    (h : FunctionDecl.AllSpelled E fs ls) : ∃ fs', FunctionDecl.AllSpelled E' fs' ls := by
  induction h with
  | nil => exact ⟨[], .nil⟩
  | cons hf _ ih =>
    obtain ⟨fs', hfs'⟩ := ih
    cases hf with
    | mk hk hresult hx hparams hbody =>
      obtain ⟨body', hbody'⟩ := stmts hE hbody
      exact ⟨_, .cons (.mk hk hresult hx hparams hbody') hfs'⟩

theorem program {fileName : String} {p : Program} {ls : List Lexeme} (hE : Respelled E E')
    (h : p.Spelled E fileName ls) : ∃ p', Program.Spelled E' fileName p' ls := by
  cases h with
  | library hfs =>
    obtain ⟨fs', hfs'⟩ := functions hE hfs
    exact ⟨_, .library hfs'⟩
  | withMain hfs hm hgs =>
    obtain ⟨fs', hfs'⟩ := functions hE hfs
    obtain ⟨gs', hgs'⟩ := functions hE hgs
    cases hm with
    | mk hk hbody =>
      obtain ⟨body', hbody'⟩ := stmts hE hbody
      exact ⟨_, .withMain hfs' (.mk hk hbody') hgs'⟩

end Respelled

end Quill
