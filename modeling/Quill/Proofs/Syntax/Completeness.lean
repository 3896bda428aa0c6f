import Quill.Proofs.Syntax.Soundness

/-! # What is spelled the parser accepts

Given enough bound, each rule reads the tree that the lexemes ahead spell, provided that what
follows them cannot continue it. An expression ends before anything but an operator; a statement
ends, too, before anything but the marks that would turn it into another one.
-/
namespace Quill

open Cursor (Moves)

def Token.OpensExpr : Token → Prop
  | .name _ | .integer _ | .float _ | .word .call => True
  | _ => False

theorem Expr.Spelled.opens {e : Expr} {ls : List Lexeme} (h : e.Spelled ls) :
    ∃ l rest, ls = l :: rest ∧ l.token.OpensExpr := by
  cases h with
  | int hl | float hl | var hl => exact ⟨_, _, rfl, by simp [hl, Token.OpensExpr]⟩
  | call hk => exact ⟨_, _, rfl, by simp [hk, Token.OpensExpr]⟩
  | binary hlhs =>
    obtain ⟨l, rest, rfl, hl⟩ := hlhs.opens
    exact ⟨l, _, rfl, hl⟩

def Token.OpensStmt : Token → Prop
  | .word k => k ∈ [.assert, .read, .abort, .ret, .var, .doLoop, .branch, .call]
  | t => t.OpensExpr

/-- The token stands behind a list of statements. -/
def Token.Closes : Token → Prop
  | .word k => k ∈ [.while, .or, .otherwise, .endBranch, .function, .main]
  | .eof => True
  | _ => False

/-- The token stands behind the cases of a branch. -/
def Token.EndsCases (t : Token) : Prop := t = .word .otherwise ∨ t = .word .endBranch

/-- The token continues neither an expression nor what a statement or a case has begun. -/
def Token.Apart : Token → Prop
  | .op _ | .mark .assign | .mark .colon | .word .print => False
  | _ => True

namespace Token

variable {t : Token}

theorem OpensExpr.stmt (h : t.OpensExpr) : t.OpensStmt := by
  cases t with
  | word k => cases k <;> first | exact h.elim | simp [OpensStmt]
  | _ => exact h

theorem OpensExpr.op_ne (h : t.OpensExpr) (o : Operator) : t ≠ .op o := by
  rintro rfl
  exact h

theorem OpensStmt.apart (h : t.OpensStmt) : t.Apart := by
  cases t with
  | word k => cases k <;> first | exact True.intro | simp [OpensStmt] at h
  | op _ | mark _ => exact h.elim
  | _ => trivial

theorem Closes.apart (h : t.Closes) : t.Apart := by
  cases t with
  | word k => cases k <;> first | exact True.intro | simp [Closes] at h
  | op _ | mark _ => exact h.elim
  | _ => trivial

theorem EndsCases.closes (h : t.EndsCases) : t.Closes := by
  rcases h with rfl | rfl <;> simp [Closes]

theorem Apart.below {c : Cursor} (h : c.token.Apart) (n : Nat) : c.Below n := by
  intro o ho
  rw [ho] at h
  exact h.elim

end Token

theorem Stmt.Spelled.opens {s : Stmt} {ls : List Lexeme} (h : s.Spelled Expr.Grouped ls) :
    ∃ l rest, ls = l :: rest ∧ l.token.OpensStmt := by
  cases h with
  | call he =>
    obtain ⟨l, rest, rfl, hl⟩ := he.1.opens
    exact ⟨l, rest, rfl, hl.stmt⟩
  | print he =>
    obtain ⟨l, rest, rfl, hl⟩ := he.1.opens
    exact ⟨l, _, rfl, hl.stmt⟩
  | assign hx => exact ⟨_, _, rfl, by simp [hx, Token.OpensStmt, Token.OpensExpr]⟩
  | assert hk | read hk | abort hk | declare hk | declareAs hk | loop hk | branch hk
  | branchElse hk | ret hk | retAs hk => exact ⟨_, _, rfl, by simp [hk, Token.OpensStmt]⟩

theorem Stmt.AllSpelled.apart {ss : List Stmt} {ls : List Lexeme} {c c' : Cursor}
    (h : Stmt.AllSpelled Expr.Grouped ss ls) (hm : c.Moves ls c') (hc : c'.token.Closes) :
    c.token.Apart := by
  have hcomma {k : Lexeme} {ks more : List Lexeme} (hks : Commas (k :: ks))
      (hm : c.Moves (k :: more) c') : c.token.Apart := by
    have hk : c.token = _ := hm.cons.1 ▸ hks k List.mem_cons_self
    simp [hk, Token.Apart]
  cases h with
  | nil hks =>
    cases ls with
    | nil => exact hm.eq_of_nil ▸ hc.apart
    | cons k ks => exact hcomma hks hm
  | @cons ks s ls _ _ hks hs =>
    cases ks with
    | nil =>
      obtain ⟨l, rest, rfl, hl⟩ := hs.opens
      have hc : c.token = l.token := congrArg Lexeme.token (Moves.cons hm).1
      exact hc ▸ hl.apart
    | cons k ks => exact hcomma hks hm

namespace Parser

variable {α : Type} {c c₁ c' : Cursor} {used : List Lexeme}

/-- Given enough bound, the rule ends so. -/
def Settles (p : Nat → Parser α) (k : Nat) (c : Cursor) (a : α) (c' : Cursor) : Prop :=
  ∀ bound, 8 * c.ahead.length + k ≤ bound → (p bound).run c = .ok (a, c')

theorem exists_succ {n k bound : Nat} (h : n + (k + 1) ≤ bound) : ∃ b, bound = b + 1 :=
  Nat.exists_eq_add_one.2 (Nat.lt_of_lt_of_le (Nat.succ_pos (n + k)) h)

/-! ### Expressions -/

theorem climb_stops {min : Nat} {e : Expr} (h : c.Below min) : Settles (climb · min e) 1 c e c := by
  intro bound hbound
  obtain ⟨bound, rfl⟩ := exists_succ hbound
  simp only [climb]
  rw [get_bind]
  split
  · rename_i o ho
    rw [if_pos (h o ho)]
    rfl
  · rfl

theorem exprFrom_climbs {min : Nat} {e t : Expr} (hatom : Settles atom 2 c (some e) c₁)
    (hm : c.Moves used c₁) (hclimb : Settles (climb · min e) 1 c₁ t c') :
    Settles (exprFrom · min) 3 c (some t) c' := by
  intro bound hbound
  obtain ⟨bound, rfl⟩ := exists_succ hbound
  have hlength := hm.length
  simp only [exprFrom]
  exact (bind_ok (hatom bound (by omega))).trans (map_ok (hclimb bound (by omega)))

theorem climb_continues {min : Nat} {lhs rhs t : Expr} {op : Operator} {l : Lexeme} {c₂ : Cursor}
    (hl : l.token = .op op) (hm : c.Moves [l] c₁) (hmin : min ≤ op.precedence)
    (hrhs : Settles (exprFrom · (op.precedence + 1)) 3 c₁ (some rhs) c₂) (hm₂ : c₁.Moves used c₂)
    (hclimb : Settles (climb · min (.binary op lhs rhs)) 1 c₂ t c') :
    Settles (climb · min lhs) 1 c t c' := by
  intro bound hbound
  obtain ⟨bound, rfl⟩ := exists_succ hbound
  obtain ⟨rfl, rfl⟩ := hm.advance
  have hlength := hm.length
  have hlength₂ := hm₂.length
  rw [List.length_singleton] at hlength
  have hc : c.token = _ := hl
  simp only [climb]
  rw [get_bind, hc]
  dsimp only
  rw [if_neg (Nat.not_lt.2 hmin), bind_ok advance_ok, bind_ok (hrhs bound (by omega))]
  exact hclimb bound (by omega)

theorem atom_leaf {e : Expr} {l : Lexeme} (he : e.Spelled [l]) (hm : c.Moves [l] c') :
    Settles atom 2 c (some e) c' := by
  intro bound hbound
  obtain ⟨bound, rfl⟩ := exists_succ hbound
  obtain ⟨rfl, rfl⟩ := hm.advance
  simp only [atom]
  rw [get_bind]
  generalize hls : [c.current] = ls at he
  cases he with
  | int hl | float hl | var hl =>
    obtain rfl := List.singleton_inj.1 hls
    have hc : c.token = _ := hl
    rw [hc]
    rfl
  | call => simp at hls
  | binary hlhs _ _ => simp [List.cons_eq_append_iff, hlhs.ne_nil] at hls

mutual

/-- An operand is read whole, and what follows it goes on from there. -/
theorem exprFrom_ok {c c₁ c' : Cursor} {used : List Lexeme} {min : Nat} {e t : Expr}
    (he : e.Grouped used) (hm : c.Moves used c₁) (hmin : min ≤ e.level)
    (hnext : c₁.Below (e.level + 1)) (hclimb : Settles (climb · min e) 1 c₁ t c') :
    Settles (exprFrom · min) 3 c (some t) c' := by
  match e with
  | .binary op lhs rhs =>
    obtain ⟨hspelled, hlhs, hrhs, hleft, hright⟩ := he
    cases hspelled with
    | binary hsl hop hsr =>
      obtain ⟨c₂, hm₂, hrest⟩ := hm.split
      obtain ⟨c₃, hm₃, hm₄⟩ := Moves.split (show c₂.Moves ([_] ++ _) _ from hrest)
      have hop₂ : c₂.token = _ := hm₃.advance.1 ▸ hop
      have hstop : c₁.Below (op.precedence + 1) := hnext
      have hright' := exprFrom_ok ⟨hsr, hrhs⟩ hm₄ hright
        (fun o ho => Nat.lt_trans (hstop o ho) (Nat.succ_lt_succ hright)) (climb_stops hstop)
      refine exprFrom_ok ⟨hsl, hlhs⟩ hm₂ (Nat.le_trans hmin hleft) (fun o ho => ?_)
        (climb_continues hop hm₃ hmin hright' hm₄ hclimb)
      rw [hop₂] at ho
      exact Token.op.inj ho ▸ Nat.lt_succ_of_le hleft
  | .int .. =>
    cases he.1 with
    | int hl => exact exprFrom_climbs (atom_leaf (.int hl) hm) hm hclimb
  | .float .. =>
    cases he.1 with
    | float hl => exact exprFrom_climbs (atom_leaf (.float hl) hm) hm hclimb
  | .var _ =>
    cases he.1 with
    | var hl => exact exprFrom_climbs (atom_leaf (.var hl) hm) hm hclimb
  | .call callee args span =>
    obtain ⟨hspelled, hargs⟩ := he
    cases hspelled with
    | call hk hx henclosed =>
      refine exprFrom_climbs (fun bound hbound => ?_) hm hclimb
      obtain ⟨bound, rfl⟩ := exists_succ hbound
      have hc : c.token = _ := hm.cons.1 ▸ hk
      simp only [atom]
      rw [get_bind, hc]
      exact map_ok (call_ok hk hx henclosed hargs hm bound (by omega))
termination_by (sizeOf e, 0)

theorem call_ok {c c' : Cursor} {k x : Lexeme} {callee : String} {args : List Expr}
    {ls : List Lexeme} (hk : k.token = .word .call) (hx : x.token = .name callee)
    (hargs : Enclosed Expr.Spelled args ls) (hgrouped : Expr.AllGrouped args)
    (hm : c.Moves (k :: x :: ls) c') :
    Settles call 1 c (.call ⟨callee, x.span⟩ args (spanOf (k :: x :: ls))) c' := by
  intro bound hbound
  obtain ⟨bound, rfl⟩ := exists_succ hbound
  have hspan := hm.span (by simp)
  have hlength := hm.length
  obtain ⟨rfl, hm₁⟩ := hm.cons
  obtain ⟨rfl, hm₂⟩ := hm₁.cons
  simp only [call]
  rw [bind_ok here_ok, bind_ok (word_ok hk), bind_ok (ident_ok hx)]
  cases hargs with
  | none hs =>
    obtain ⟨rfl, rfl⟩ := hm₂.advance
    rw [bind_ok (listFollows_semicolon hs)]
    change Except.ok (Expr.call _ _ ⟨_, _⟩, _) = _
    rw [hspan]
    rfl
  | some hw hitems =>
    obtain ⟨rfl, hm₃⟩ := hm₂.cons
    simp only [List.length_cons] at hlength
    have hlength₃ := hm₃.length
    rw [bind_ok (listFollows_with hw)]
    refine (bind_ok (arguments_ok hitems hgrouped hm₃ bound (by omega))).trans ?_
    change Except.ok (Expr.call _ _ ⟨_, _⟩, _) = _
    rw [hspan]
    rfl
termination_by (sizeOf args, 2)

theorem arguments_ok {c c' : Cursor} {args : List Expr} {ls : List Lexeme}
    (h : Items Expr.Spelled args ls) (hgrouped : Expr.AllGrouped args) (hm : c.Moves ls c') :
    Settles arguments 5 c args c' := by
  intro bound hbound
  match bound, args with
  | bound + 1, [] => cases h
  | bound + 1, e :: rest =>
    simp only [arguments]
    cases h with
    | last he hs =>
      obtain ⟨c₁, hm₁, hlast⟩ := hm.split
      obtain ⟨rfl, rfl⟩ := hlast.advance
      have hbelow : c₁.Below 0 := fun o ho => by simp [Cursor.token, hs] at ho
      rw [bind_ok (expr_ok ⟨he, hgrouped.1⟩ hm₁ hbelow bound (by omega)),
        bind_ok (listGoesOn_semicolon hs)]
      rfl
    | more he hs hrest =>
      obtain ⟨c₁, hm₁, hrest'⟩ := hm.split
      obtain ⟨rfl, hm₂⟩ := hrest'.cons
      have hbelow : c₁.Below 0 := fun o ho => by simp [Cursor.token, hs] at ho
      have hlength := hm₁.length
      have hlength₂ := hrest'.length
      have hlength₃ := hm₂.length
      rw [List.length_cons] at hlength₂
      rw [bind_ok (expr_ok ⟨he, hgrouped.1⟩ hm₁ hbelow bound (by omega)),
        bind_ok (listGoesOn_comma hs)]
      exact bind_ok (arguments_ok hrest hgrouped.2 hm₂ bound (by omega))
termination_by (sizeOf args, 1)

theorem expr_ok {c c' : Cursor} {used : List Lexeme} {e : Expr} (he : e.Grouped used)
    (hm : c.Moves used c') (hnext : c'.Below 0) : Settles expr 4 c e c' := by
  intro bound hbound
  obtain ⟨bound, rfl⟩ := exists_succ hbound
  have hnone : ∀ n, c'.Below n := fun n o ho => absurd (hnext o ho) (Nat.not_lt_zero _)
  simp only [expr]
  exact bind_ok (exprFrom_ok he hm (Nat.zero_le _) (hnone _) (climb_stops (hnone _)) bound
    (by omega))
termination_by (sizeOf e, 1)

end

/-! ### Statements -/

theorem exprStmt_call {callee : Ident} {args : List Expr} {span : Span} {first : Location}
    (he : Expr.Grouped (.call callee args span) used) (hm : c.Moves used c')
    (hnext : c'.token.Apart) :
    Settles (exprStmt · first) 4 c (.call callee args span) c' := by
  intro bound hbound
  have hassign : c'.token ≠ .mark .assign := fun h => by simp [h, Token.Apart] at hnext
  have hprint : c'.token ≠ .word .print := fun h => by simp [h, Token.Apart] at hnext
  simp only [exprStmt]
  rw [bind_ok (expr_ok he hm (hnext.below 0) bound hbound), bind_ok (takeMark_no hassign)]
  exact bind_ok (takeWord_no hprint)

theorem exprStmt_print {e : Expr} {p : Lexeme} {first : Location} (he : e.Grouped used)
    (hp : p.token = .word .print) (hm : c.Moves (used ++ [p]) c') :
    Settles (exprStmt · first) 4 c (.print e ⟨first, c'.passed⟩) c' := by
  intro bound hbound
  obtain ⟨c₁, hm₁, hlast⟩ := hm.split
  obtain ⟨rfl, rfl⟩ := hlast.advance
  have hc : c₁.token = _ := hp
  have hbelow : c₁.Below 0 := fun o ho => by simp [hc] at ho
  simp only [exprStmt]
  rw [bind_ok (expr_ok he hm₁ hbelow bound hbound), bind_ok (takeMark_no (by simp [hc]))]
  exact (bind_ok (takeWord_yes hp)).trans (bind_ok spanFrom_ok)

theorem exprStmt_assign {e : Expr} {x a : Lexeme} {target : String} {first : Location}
    (hx : x.token = .name target) (ha : a.token = .mark .assign) (he : e.Grouped used)
    (hm : c.Moves (x :: a :: used) c') (hnext : c'.Below 0) :
    Settles (exprStmt · first) 4 c (.assign ⟨target, x.span⟩ e ⟨first, c'.passed⟩) c' := by
  intro bound hbound
  have hlength := hm.length
  obtain ⟨c₁, hm₁, hrest⟩ := Moves.split (show c.Moves ([x] ++ _) _ from hm)
  obtain ⟨rfl, hm₂⟩ := hrest.cons
  have hlength₂ := hm₂.length
  simp only [List.length_cons] at hlength
  have hc : c₁.token = _ := ha
  have hbelow : c₁.Below 0 := fun o ho => by simp [hc] at ho
  simp only [exprStmt]
  rw [bind_ok (expr_ok ⟨.var hx, trivial⟩ hm₁ hbelow bound hbound), bind_ok (takeMark_yes ha)]
  exact (bind_ok (expr_ok he hm₂ hnext bound (by omega))).trans (bind_ok spanFrom_ok)

theorem optional_ok {m : Mark} (h : OptionalMark m used) (hm : c.Moves used c')
    (hnext : c'.token ≠ .mark m) : (discard (takeMark m)).run c = .ok ((), c') := by
  cases h with
  | absent =>
    obtain rfl := hm.eq_of_nil
    exact discard_ok (takeMark_no hnext)
  | present hl =>
    obtain ⟨rfl, rfl⟩ := hm.advance
    exact discard_ok (takeMark_yes hl)

theorem caseOperator_ok {op : Operator} (h : op.Spelled used) (hm : c.Moves used c')
    (hnext : c'.token.OpensExpr) : caseOperator.run c = .ok (op, c') := by
  unfold caseOperator
  rw [get_bind]
  cases h with
  | absent =>
    obtain rfl := hm.eq_of_nil
    split
    · rename_i o ho
      exact absurd ho (hnext.op_ne o)
    · rfl
  | written hl =>
    obtain ⟨rfl, rfl⟩ := hm.advance
    have hc : c.token = _ := hl
    rw [hc]
    rfl

theorem stmt?_none (h : c.token.Closes) : Settles stmt? 5 c none c := by
  intro bound hbound
  obtain ⟨bound, rfl⟩ := exists_succ hbound
  refine (bind_ok here_ok).trans ?_
  rw [get_bind]
  split
  all_goals first
    | rfl
    | rename_i heq
      simp [heq, Token.Closes] at h

theorem stmt?_expr {s : Stmt} (h : c.token.OpensExpr)
    (hs : Settles (exprStmt · c.span.first) 4 c s c') : Settles stmt? 5 c (some s) c' := by
  intro bound hbound
  obtain ⟨bound, rfl⟩ := exists_succ hbound
  refine (bind_ok here_ok).trans ?_
  rw [get_bind]
  split
  all_goals first
    | exact map_ok (hs bound (by omega))
    | rename_i heq
      simp [heq, Token.OpensExpr] at h

theorem stmt?_commas {ks : List Lexeme} {r : Option Stmt} (hks : Commas ks) (hm : c.Moves ks c₁)
    (h : Settles stmt? 5 c₁ r c') : Settles stmt? 5 c r c' := by
  induction ks generalizing c with
  | nil => exact hm.eq_of_nil ▸ h
  | cons k ks ih =>
    intro bound hbound
    obtain ⟨bound, rfl⟩ := exists_succ hbound
    have hlength := hm.length
    obtain ⟨rfl, hm₁⟩ := hm.cons
    have hlength₁ := hm₁.length
    rw [List.length_cons] at hlength
    have hc : c.token = _ := hks c.current List.mem_cons_self
    have hrest : Commas ks := fun l hl => hks l (List.mem_cons_of_mem _ hl)
    refine (bind_ok here_ok).trans ?_
    rw [get_bind, hc]
    exact (bind_ok advance_ok).trans (ih hrest hm₁ bound (by omega))

/-! One lemma for each form of statement. -/

section

variable {k b x : Lexeme} {ls : List Lexeme} {e : Expr} {name : String}

theorem stmt?_assert (hk : k.token = .word .assert) (he : e.Grouped ls)
    (hb : b.token = .mark .bang) (hm : c.Moves (k :: (ls ++ [b])) c') :
    Settles stmt? 5 c (some (.assert e ⟨c.span.first, c'.passed⟩)) c' := by
  intro bound hbound
  obtain ⟨bound, rfl⟩ := exists_succ hbound
  have hlength := hm.length
  have hc : c.token = _ := hm.token.trans hk
  obtain ⟨rfl, hm₁⟩ := hm.cons
  have hlength₁ := hm₁.length
  obtain ⟨c₁, hm₂, hlast⟩ := hm₁.split
  obtain ⟨rfl, rfl⟩ := hlast.advance
  have hbang : c₁.Below 0 := fun o ho => by simp [Cursor.token, hb] at ho
  rw [List.length_cons] at hlength
  refine (stmt?_led hc .assert bound).trans ?_
  dsimp only [assertTail]
  rw [bind_ok (expr_ok he hm₂ hbang bound (by omega)), bind_ok (mark_ok hb)]
  rfl

theorem stmt?_read (hk : k.token = .word .read) (hx : x.token = .name name)
    (hm : c.Moves [k, x] c') :
    Settles stmt? 5 c (some (.read ⟨name, x.span⟩ ⟨c.span.first, c'.passed⟩)) c' := by
  intro bound hbound
  obtain ⟨bound, rfl⟩ := exists_succ hbound
  have hc : c.token = _ := hm.token.trans hk
  obtain ⟨rfl, hm₁⟩ := hm.cons
  obtain ⟨rfl, rfl⟩ := hm₁.advance
  exact (stmt?_led hc .read bound).trans (bind_ok (ident_ok hx))

theorem stmt?_abort (hk : k.token = .word .abort) (hm : c.Moves [k] c') :
    Settles stmt? 5 c (some (.abort ⟨c.span.first, c'.passed⟩)) c' := by
  intro bound hbound
  obtain ⟨bound, rfl⟩ := exists_succ hbound
  have hc : c.token = _ := hm.token.trans hk
  obtain ⟨rfl, rfl⟩ := hm.advance
  exact stmt?_led hc .abort bound

theorem stmt?_ret (hk : k.token = .word .ret) (hb : b.token = .mark .bang)
    (hm : c.Moves [k, b] c') :
    Settles stmt? 5 c (some (.ret none ⟨c.span.first, c'.passed⟩)) c' := by
  intro bound hbound
  obtain ⟨bound, rfl⟩ := exists_succ hbound
  have hc : c.token = _ := hm.token.trans hk
  obtain ⟨rfl, hm₁⟩ := hm.cons
  obtain ⟨rfl, rfl⟩ := hm₁.advance
  exact (stmt?_led hc .ret bound).trans (bind_ok (takeMark_yes hb))

theorem stmt?_retAs (hk : k.token = .word .ret) (he : e.Grouped ls)
    (hb : b.token = .mark .bang) (hm : c.Moves (k :: (ls ++ [b])) c') :
    Settles stmt? 5 c (some (.ret (some e) ⟨c.span.first, c'.passed⟩)) c' := by
  intro bound hbound
  obtain ⟨bound, rfl⟩ := exists_succ hbound
  have hlength := hm.length
  have hc : c.token = _ := hm.token.trans hk
  obtain ⟨rfl, hm₁⟩ := hm.cons
  have hlength₁ := hm₁.length
  obtain ⟨c₁, hm₂, hlast⟩ := hm₁.split
  obtain ⟨rfl, rfl⟩ := hlast.advance
  have hbang : c₁.Below 0 := fun o ho => by simp [Cursor.token, hb] at ho
  have hvalue : c.advance.token ≠ .mark .bang := by
    obtain ⟨l, rest, rfl, hl⟩ := he.1.opens
    intro heq
    rw [← hm₂.token, heq] at hl
    exact hl
  rw [List.length_cons] at hlength
  refine (stmt?_led hc .ret bound).trans ?_
  dsimp only [retTail]
  rw [bind_ok (takeMark_no hvalue)]
  refine (bind_ok (expr_ok he hm₂ hbang bound (by omega))).trans ?_
  rw [bind_ok (mark_ok hb)]
  rfl

theorem stmt?_declare {colon : Lexeme} {type : TypeExpr} {ts : List Lexeme}
    (hk : k.token = .word .var) (hx : x.token = .name name)
    (hcolon : colon.token = .mark .colon) (htype : type.Spelled ts)
    (hm : c.Moves (k :: x :: colon :: ts) c') (hnext : c'.token ≠ .mark .assign) :
    Settles stmt? 5 c (some (.declare ⟨name, x.span⟩ type none ⟨c.span.first, c'.passed⟩)) c' := by
  intro bound hbound
  obtain ⟨bound, rfl⟩ := exists_succ hbound
  have hc : c.token = _ := hm.token.trans hk
  obtain ⟨rfl, hm₁⟩ := hm.cons
  obtain ⟨rfl, hm₂⟩ := hm₁.cons
  obtain ⟨rfl, hm₃⟩ := hm₂.cons
  refine (stmt?_led hc .declare bound).trans ?_
  dsimp only [declareTail]
  rw [bind_ok (ident_ok hx), bind_ok (mark_ok hcolon), bind_ok (typeExpr_ok htype hm₃),
    bind_ok (takeMark_no hnext)]
  rfl

theorem stmt?_declareAs {colon a : Lexeme} {type : TypeExpr} {ts : List Lexeme}
    (hk : k.token = .word .var) (hx : x.token = .name name)
    (hcolon : colon.token = .mark .colon) (htype : type.Spelled ts) (ha : a.token = .mark .assign)
    (he : e.Grouped ls) (hm : c.Moves (k :: x :: colon :: (ts ++ a :: ls)) c')
    (hnext : c'.Below 0) :
    Settles stmt? 5 c (some (.declare ⟨name, x.span⟩ type (some e) ⟨c.span.first, c'.passed⟩))
      c' := by
  intro bound hbound
  obtain ⟨bound, rfl⟩ := exists_succ hbound
  have hlength := hm.length
  have hc : c.token = _ := hm.token.trans hk
  obtain ⟨rfl, hm₁⟩ := hm.cons
  obtain ⟨rfl, hm₂⟩ := hm₁.cons
  obtain ⟨rfl, hm₃⟩ := hm₂.cons
  obtain ⟨c₁, hm₄, hrest⟩ := hm₃.split
  obtain ⟨rfl, hm₅⟩ := hrest.cons
  have hlength₅ := hm₅.length
  simp only [List.length_cons, List.length_append] at hlength
  refine (stmt?_led hc .declare bound).trans ?_
  dsimp only [declareTail]
  rw [bind_ok (ident_ok hx), bind_ok (mark_ok hcolon), bind_ok (typeExpr_ok htype hm₄),
    bind_ok (takeMark_yes ha)]
  refine (bind_ok (map_ok (expr_ok he hm₅ hnext bound (by omega)))).trans ?_
  rfl

theorem stmt?_loop {w : Lexeme} {body : List Stmt} {bs : List Lexeme}
    (hk : k.token = .word .doLoop) (hw : w.token = .word .while) (he : e.Grouped ls)
    (hm : c.Moves (k :: (bs ++ w :: ls)) c') (hnext : c'.Below 0)
    (hbody : ∀ c₁ : Cursor, c.advance.Moves bs c₁ → c₁.token.Closes →
      Settles stmts 6 c.advance body c₁) :
    Settles stmt? 5 c (some (.loop body e ⟨c.span.first, c'.passed⟩)) c' := by
  intro bound hbound
  obtain ⟨bound, rfl⟩ := exists_succ hbound
  have hlength := hm.length
  have hc : c.token = _ := hm.token.trans hk
  obtain ⟨rfl, hm₁⟩ := hm.cons
  have hlength₁ := hm₁.length
  obtain ⟨c₁, hm₂, hrest⟩ := hm₁.split
  have hclose : c₁.token.Closes := by simp [hrest.token, hw, Token.Closes]
  obtain ⟨rfl, hm₃⟩ := hrest.cons
  have hlength₃ := hm₃.length
  simp only [List.length_cons, List.length_append] at hlength hlength₁
  refine (stmt?_led hc .loop bound).trans ?_
  dsimp only [loopTail]
  rw [bind_ok (hbody c₁ hm₂ hclose bound (by omega)), bind_ok (word_ok hw),
    bind_ok (expr_ok he hm₃ hnext bound (by omega))]
  rfl

theorem stmt?_branch {o last : Lexeme} {cs : List Case} (hk : k.token = .word .branch)
    (hx : x.token = .name name) (ho : o.token = .word .of) (hlast : last.token = .word .endBranch)
    (hm : c.Moves (k :: x :: o :: (ls ++ [last])) c')
    (hcases : ∀ c₁ c₂ : Cursor, c₁.Moves ls c₂ → c₂.token.EndsCases →
      Settles (cases · ⟨name, x.span⟩) 5 c₁ cs c₂) :
    Settles stmt? 5 c (some (.branch ⟨name, x.span⟩ cs none ⟨c.span.first, c'.passed⟩)) c' := by
  intro bound hbound
  obtain ⟨bound, rfl⟩ := exists_succ hbound
  have hlength := hm.length
  have hc : c.token = _ := hm.token.trans hk
  obtain ⟨rfl, hm₁⟩ := hm.cons
  obtain ⟨rfl, hm₂⟩ := hm₁.cons
  obtain ⟨rfl, hm₃⟩ := hm₂.cons
  have hlength₃ := hm₃.length
  obtain ⟨c₁, hm₄, hrest⟩ := hm₃.split
  obtain ⟨rfl, rfl⟩ := hrest.advance
  have hend : c₁.token = _ := hlast
  simp only [List.length_cons] at hlength
  refine (stmt?_led hc .branch bound).trans ?_
  dsimp only [branchTail]
  rw [bind_ok (ident_ok hx), bind_ok (word_ok ho)]
  refine (bind_ok (hcases _ c₁ hm₄ (by simp [hend, Token.EndsCases]) bound (by omega))).trans ?_
  rw [bind_ok (takeWord_no (by simp [hend]))]
  exact (bind_ok rfl).trans ((bind_ok (word_ok hlast)).trans (bind_ok spanFrom_ok))

theorem stmt?_branchElse {o w last : Lexeme} {cs : List Case} {body : List Stmt}
    {colon bs : List Lexeme} (hk : k.token = .word .branch) (hx : x.token = .name name)
    (ho : o.token = .word .of) (hw : w.token = .word .otherwise)
    (hcolon : OptionalMark .colon colon) (hlast : last.token = .word .endBranch)
    (hm : c.Moves (k :: x :: o :: (ls ++ w :: (colon ++ (bs ++ [last])))) c')
    (hapart : ∀ {c₁ c₂ : Cursor}, c₁.Moves bs c₂ → c₂.token.Closes → c₁.token.Apart)
    (hcases : ∀ c₁ c₂ : Cursor, c₁.Moves ls c₂ → c₂.token.EndsCases →
      Settles (cases · ⟨name, x.span⟩) 5 c₁ cs c₂)
    (hbody : ∀ c₁ c₂ : Cursor, c₁.Moves bs c₂ → c₂.token.Closes → Settles stmts 6 c₁ body c₂) :
    Settles stmt? 5 c (some (.branch ⟨name, x.span⟩ cs (some body) ⟨c.span.first, c'.passed⟩))
      c' := by
  intro bound hbound
  obtain ⟨bound, rfl⟩ := exists_succ hbound
  have hlength := hm.length
  have hc : c.token = _ := hm.token.trans hk
  obtain ⟨rfl, hm₁⟩ := hm.cons
  obtain ⟨rfl, hm₂⟩ := hm₁.cons
  obtain ⟨rfl, hm₃⟩ := hm₂.cons
  have hlength₃ := hm₃.length
  obtain ⟨c₁, hm₄, hrest⟩ := hm₃.split
  obtain ⟨rfl, hm₅⟩ := hrest.cons
  obtain ⟨c₂, hm₆, hrest⟩ := hm₅.split
  have hlength₆ := hrest.length
  obtain ⟨c₃, hm₇, hrest⟩ := hrest.split
  obtain ⟨rfl, rfl⟩ := hrest.advance
  have hother : c₁.token = _ := hw
  have hend : c₃.token = _ := hlast
  have hclose : c₃.token.Closes := by simp [hend, Token.Closes]
  have hnotColon : c₂.token ≠ .mark .colon := fun heq => by
    simpa [heq, Token.Apart] using hapart hm₇ hclose
  simp only [List.length_cons, List.length_append] at hlength hlength₃ hlength₆
  refine (stmt?_led hc .branch bound).trans ?_
  dsimp only [branchTail]
  rw [bind_ok (ident_ok hx), bind_ok (word_ok ho)]
  refine (bind_ok (hcases _ c₁ hm₄ (by simp [hother, Token.EndsCases]) bound (by omega))).trans ?_
  rw [bind_ok (takeWord_yes hw)]
  refine (bind_ok (optional_ok hcolon hm₆ hnotColon)).trans ?_
  refine (bind_ok (map_ok (hbody c₂ c₃ hm₇ hclose bound (by omega)))).trans ?_
  exact (bind_ok (word_ok hlast)).trans (bind_ok spanFrom_ok)

/-- One case, before the keyword that tells whether there are more. -/
theorem cases_head {lead : Ident} {op : Operator} {rhs : Expr} {body : List Stmt}
    {os colon bs : List Lexeme} {cs : List Case} (hop : op.Spelled os) (hrhs : rhs.Grouped ls)
    (hcolon : OptionalMark .colon colon) (hm : c.Moves (os ++ (ls ++ (colon ++ bs))) c₁)
    (hapart : ∀ {c₂ : Cursor}, c₂.Moves bs c₁ → c₂.token.Apart)
    (hbody : ∀ c₂ : Cursor, c₂.Moves bs c₁ → Settles stmts 6 c₂ body c₁)
    (hrest : ∀ bound, 8 * c.ahead.length + 4 ≤ bound → (do
      match (← get).token with
      | .word .or =>
        advance
        return .mk (.semi op lead rhs (spanOf (os ++ ls))) body :: (← cases bound lead)
      | .word .otherwise | .word .endBranch =>
        return [.mk (.semi op lead rhs (spanOf (os ++ ls))) body]
      | _ => unexpected "other cases, otherwise case or end of branch" :
        Parser (List Case)).run c₁ = .ok (cs, c')) : Settles (cases · lead) 5 c cs c' := by
  intro bound hbound
  obtain ⟨bound, rfl⟩ := exists_succ hbound
  obtain ⟨c₂, hm₂, hm₃⟩ := hm.split
  obtain ⟨c₃, hm₄, hm₅⟩ := hm₃.split
  obtain ⟨c₄, hm₆, hm₇⟩ := hm₅.split
  have hlength := hm₂.length
  have hlength₄ := hm₄.length
  have hlength₆ := hm₆.length
  have hnotColon : c₄.token ≠ .mark .colon := fun heq => by
    simpa [heq, Token.Apart] using hapart hm₇
  have hopens : c₂.token.OpensExpr := by
    obtain ⟨l, rest, rfl, hl⟩ := hrhs.1.opens
    exact hm₄.token ▸ hl
  have hbelow : c₃.Below 0 := by
    cases hcolon with
    | absent => exact hm₆.eq_of_nil ▸ (hapart hm₇).below 0
    | present hl => exact fun o ho => by simp [hm₆.token, hl] at ho
  have hpos := List.length_pos_iff.2 hrhs.1.ne_nil
  have hspan := (hm₂.trans hm₄).span (by simp [hrhs.1.ne_nil])
  simp only [cases]
  rw [bind_ok here_ok, bind_ok (caseOperator_ok hop hm₂ hopens),
    bind_ok (expr_ok hrhs hm₄ hbelow bound (by omega)), bind_ok spanFrom_ok, hspan,
    bind_ok (optional_ok hcolon hm₆ hnotColon), bind_ok (hbody c₄ hm₇ bound (by omega))]
  exact hrest bound (by omega)

end

mutual

theorem stmts_ok {c c' : Cursor} {ss : List Stmt} {ls : List Lexeme}
    (h : Stmt.AllSpelled Expr.Grouped ss ls) (hm : c.Moves ls c') (hnext : c'.token.Closes) :
    Settles stmts 6 c ss c' := by
  intro bound hbound
  match bound, ss with
  | bound + 1, [] =>
    simp only [stmts]
    cases h with
    | nil hks => exact bind_ok (stmt?_commas hks hm (stmt?_none hnext) bound (by omega))
  | bound + 1, s :: rest =>
    simp only [stmts]
    cases h with
    | cons hks hs hspan hrest =>
      obtain ⟨c₁, hm₁, hmore⟩ := hm.split
      obtain ⟨c₂, hm₂, hm₃⟩ := hmore.split
      have hlength := (hm₁.trans hm₂).length
      obtain ⟨l, _, rfl, -⟩ := hs.opens
      rw [List.length_append, List.length_cons] at hlength
      rw [← hm₂.span (by simp)] at hspan
      have hone := stmt_ok hs hspan hm₂ (hrest.apart hm₃ hnext)
      rw [bind_ok (stmt?_commas hks hm₁ hone bound (by omega))]
      exact bind_ok (stmts_ok hrest hm₃ hnext bound (by omega))
termination_by (sizeOf ss, 1)

theorem stmt_ok {c c' : Cursor} {s : Stmt} {ls : List Lexeme} (h : s.Spelled Expr.Grouped ls)
    (hspan : s.span = ⟨c.span.first, c'.passed⟩) (hm : c.Moves ls c') (hnext : c'.token.Apart) :
    Settles stmt? 5 c (some s) c' := by
  have hbelow := hnext.below 0
  match s with
  | .call callee args span =>
    cases h with
    | call he =>
      obtain ⟨l, rest, rfl, hl⟩ := he.1.opens
      exact stmt?_expr (hm.token ▸ hl) (exprStmt_call he hm hnext)
  | .print e span =>
    obtain rfl : span = _ := hspan
    cases h with
    | print he hp =>
      obtain ⟨l, rest, rfl, hl⟩ := he.1.opens
      exact stmt?_expr (hm.token ▸ hl) (exprStmt_print he hp hm)
  | .assign x e span =>
    obtain rfl : span = _ := hspan
    cases h with
    | assign hx ha he =>
      have hopens : c.token.OpensExpr := by simp [hm.token, hx, Token.OpensExpr]
      exact stmt?_expr hopens (exprStmt_assign hx ha he hm hbelow)
  | .assert e span =>
    obtain rfl : span = _ := hspan
    cases h with
    | assert hk he hb => exact stmt?_assert hk he hb hm
  | .read x span =>
    obtain rfl : span = _ := hspan
    cases h with
    | read hk hx => exact stmt?_read hk hx hm
  | .abort span =>
    obtain rfl : span = _ := hspan
    cases h with
    | abort hk => exact stmt?_abort hk hm
  | .ret none span =>
    obtain rfl : span = _ := hspan
    cases h with
    | ret hk hb => exact stmt?_ret hk hb hm
  | .ret (some e) span =>
    obtain rfl : span = _ := hspan
    cases h with
    | retAs hk he hb => exact stmt?_retAs hk he hb hm
  | .declare x type none span =>
    obtain rfl : span = _ := hspan
    cases h with
    | declare hk hx hcolon htype =>
      exact stmt?_declare hk hx hcolon htype hm fun heq => by simp [heq, Token.Apart] at hnext
  | .declare x type (some e) span =>
    obtain rfl : span = _ := hspan
    cases h with
    | declareAs hk hx hcolon htype ha he =>
      exact stmt?_declareAs hk hx hcolon htype ha he hm hbelow
  | .loop body e span =>
    obtain rfl : span = _ := hspan
    cases h with
    | loop hk hbody hw he =>
      exact stmt?_loop hk hw he hm hbelow fun c₁ hm₁ hclose => stmts_ok hbody hm₁ hclose
  | .branch x cs none span =>
    obtain rfl : span = _ := hspan
    cases h with
    | branch hk hx ho hcs hend =>
      exact stmt?_branch hk hx ho hend hm fun c₁ c₂ hm₁ hclose => cases_ok hcs hm₁ hclose
  | .branch x cs (some body) span =>
    obtain rfl : span = _ := hspan
    cases h with
    | branchElse hk hx ho hcs hw hcolon hbody hend =>
      exact stmt?_branchElse hk hx ho hw hcolon hend hm (hbody.apart · ·)
        (fun c₁ c₂ hm₁ hclose => cases_ok hcs hm₁ hclose)
        fun c₁ c₂ hm₁ hclose => stmts_ok hbody hm₁ hclose
termination_by (sizeOf s, 0)

/-- The cases of a branch, before what can stand behind the last of them. -/
theorem cases_ok {lead : Ident} {c c' : Cursor} {cs : List Case} {ls : List Lexeme}
    (h : Case.AllSpelled Expr.Grouped lead cs ls) (hm : c.Moves ls c')
    (hnext : c'.token.EndsCases) : Settles (cases · lead) 5 c cs c' := by
  match cs with
  | [] => cases h
  | [.mk condition body] =>
    cases h with
    | one hcase =>
      cases hcase with
      | mk hop hrhs hcolon hbody =>
        refine cases_head hop hrhs hcolon hm (hbody.apart · hnext.closes)
          (fun c₁ hm₁ => stmts_ok hbody hm₁ hnext.closes) fun bound hbound => ?_
        rw [get_bind]
        rcases hnext with hlast | hlast <;> rw [hlast] <;> rfl
    | more _ _ hrest => cases hrest
  | .mk condition body :: case :: rest =>
    cases h with
    | more hcase ho hrest =>
      cases hcase with
      | mk hop hrhs hcolon hbody =>
        obtain ⟨c₁, hm₁, hmore⟩ := hm.split
        have hlength := hm.length
        have hor : c₁.token = _ := hmore.token.trans ho
        obtain ⟨rfl, hm₂⟩ := hmore.cons
        have hlength₂ := hm₂.length
        have hclose : c₁.token.Closes := by simp [hor, Token.Closes]
        simp only [List.length_append, List.length_cons] at hlength
        refine cases_head hop hrhs hcolon hm₁ (hbody.apart · hclose)
          (fun c₂ hm₃ => stmts_ok hbody hm₃ hclose) fun bound hbound => ?_
        rw [get_bind, hor]
        refine (bind_ok advance_ok).trans ?_
        exact bind_ok (cases_ok hrest hm₂ hnext bound (by omega))
termination_by (sizeOf cs, 1)

end

/-! ### Programs -/

theorem param_ok {p : Param} (h : p.Spelled used) (hm : c.Moves used c') :
    param.run c = .ok (p, c') := by
  cases h with
  | mk hx hcolon htype hvoid =>
    obtain ⟨rfl, hm₁⟩ := hm.cons
    obtain ⟨rfl, hm₂⟩ := hm₁.cons
    unfold param
    rw [bind_ok (ident_ok hx), bind_ok (mark_ok hcolon), bind_ok (typeExpr_ok htype hm₂), hvoid]
    rfl

theorem params_ok {ps : List Param} (h : Items Param.Spelled ps used) (hm : c.Moves used c') :
    Settles params 0 c ps c' := by
  induction h generalizing c with
  | last hp hs =>
    intro bound hbound
    match bound with
    | 0 => simp [Cursor.ahead] at hbound
    | bound + 1 =>
      obtain ⟨c₁, hm₁, hlast⟩ := hm.split
      obtain ⟨rfl, rfl⟩ := hlast.advance
      simp only [params]
      rw [bind_ok (param_ok hp hm₁), bind_ok (listGoesOn_semicolon hs)]
      rfl
  | more hp hs _ ih =>
    intro bound hbound
    match bound with
    | 0 => simp [Cursor.ahead] at hbound
    | bound + 1 =>
      have hlength := hm.length
      obtain ⟨c₁, hm₁, hmore⟩ := hm.split
      obtain ⟨rfl, hm₂⟩ := hmore.cons
      have hlength₂ := hm₂.length
      simp only [List.length_append, List.length_cons] at hlength
      simp only [params]
      rw [bind_ok (param_ok hp hm₁), bind_ok (listGoesOn_comma hs)]
      exact bind_ok (ih hm₂ bound (by omega))

theorem resultType_ok {t : TypeExpr} {name : String} (h : ResultSpelled t used)
    (hm : c.Moves used c') (hnext : c'.token = .name name) : resultType.run c = .ok (t, c') := by
  unfold resultType
  rw [get_bind]
  cases h with
  | absent =>
    obtain rfl := hm.eq_of_nil
    rw [hnext]
    rfl
  | written htype =>
    have hrun := typeExpr_ok htype hm
    cases htype with
    | scalar hl =>
      rw [hm.token.trans hl]
      exact hrun
    | pointer hs _ =>
      rw [hm.token.trans hs]
      exact hrun

theorem functionDecl_ok {f : FunctionDecl} (h : f.Spelled Expr.Grouped used)
    (hm : c.Moves used c') (hnext : c'.token.Closes) : Settles functionDecl 0 c f c' := by
  intro bound hbound
  cases h with
  | mk hk hresult hx hparams hbody =>
    have hlength := hm.length
    have hspan := hm.span (by simp)
    obtain ⟨rfl, hm₁⟩ := hm.cons
    obtain ⟨c₁, hm₂, hrest⟩ := hm₁.split
    have hname : c₁.token = _ := hrest.token.trans hx
    obtain ⟨rfl, hm₃⟩ := hrest.cons
    obtain ⟨c₂, hm₄, hm₅⟩ := hm₃.split
    have hlength₄ := hm₄.length
    have hlength₅ := hm₅.length
    simp only [List.length_cons, List.length_append] at hlength
    unfold functionDecl
    rw [bind_ok here_ok, bind_ok (word_ok hk), bind_ok (resultType_ok hresult hm₂ hname),
      bind_ok (ident_ok hx)]
    cases hparams with
    | none hs =>
      obtain ⟨rfl, rfl⟩ := hm₄.advance
      rw [bind_ok (listFollows_semicolon hs)]
      refine (bind_ok rfl).trans ?_
      rw [bind_ok (stmts_ok hbody hm₅ hnext bound (by omega)), bind_ok spanFrom_ok, hspan]
      rfl
    | some hw hps =>
      obtain ⟨rfl, hm₆⟩ := hm₄.cons
      have hlength₆ := hm₆.length
      simp only [List.length_cons] at hlength hlength₄
      rw [bind_ok (listFollows_with hw)]
      refine (bind_ok (params_ok hps hm₆ bound (by omega))).trans ?_
      rw [bind_ok (stmts_ok hbody hm₅ hnext bound (by omega)), bind_ok spanFrom_ok, hspan]
      rfl

theorem functionDecl_token {f : FunctionDecl} {more : List Lexeme}
    (h : f.Spelled Expr.Grouped used) (hm : c.Moves (used ++ more) c') :
    c.token = .word .function := by
  cases h with
  | mk hk => exact (Moves.token hm).trans hk

theorem functionDecls_close {fs : List FunctionDecl}
    (h : FunctionDecl.AllSpelled Expr.Grouped fs used) (hm : c.Moves used c')
    (hnext : c'.token.Closes) : c.token.Closes := by
  cases h with
  | nil => exact hm.eq_of_nil ▸ hnext
  | cons hf => simp [functionDecl_token hf hm, Token.Closes]

theorem functionDecls_ok {fs : List FunctionDecl} (h : FunctionDecl.AllSpelled Expr.Grouped fs used)
    (hm : c.Moves used c') (hnext : c'.token.Closes) (hlast : c'.token ≠ .word .function) :
    Settles functionDecls 1 c fs c' := by
  induction h generalizing c with
  | nil =>
    intro bound hbound
    obtain ⟨bound, rfl⟩ := exists_succ hbound
    obtain rfl := hm.eq_of_nil
    simp only [functionDecls]
    exact bind_ok (isWord_ok false (by simpa using hlast))
  | @cons f ls fs rs hf hfs ih =>
    intro bound hbound
    obtain ⟨bound, rfl⟩ := exists_succ hbound
    have hk := functionDecl_token hf hm
    obtain ⟨c₁, hm₁, hm₂⟩ := hm.split
    have hone := functionDecl_ok hf hm₁ (functionDecls_close hfs hm₂ hnext)
    have hlength := hm₁.length
    have hpos := List.length_pos_iff.2 hf.ne_nil
    simp only [functionDecls]
    rw [bind_ok (isWord_ok true (by simpa using hk))]
    refine (bind_ok (hone bound (by omega))).trans ?_
    exact bind_ok (ih hm₂ bound (by omega))

theorem entryPoint_ok {m : EntryPoint} (h : m.Spelled Expr.Grouped used) (hm : c.Moves used c')
    (hnext : c'.token.Closes) : Settles entryPoint 0 c m c' := by
  intro bound hbound
  cases h with
  | mk hk hbody =>
    have hlength := hm.length
    have hspan := hm.span (by simp)
    obtain ⟨rfl, hm₁⟩ := hm.cons
    have hlength₁ := hm₁.length
    simp only [List.length_cons] at hlength
    unfold entryPoint
    rw [bind_ok here_ok, bind_ok (word_ok hk),
      bind_ok (stmts_ok hbody hm₁ hnext bound (by omega)), bind_ok spanFrom_ok, hspan]
    rfl

theorem program_ok {fileName : String} {p : Program} (h : p.Spelled Expr.Grouped fileName used)
    (hm : c.Moves used c') (hnext : c'.token = .eof) :
    Settles (program · fileName) 1 c p c' := by
  intro bound hbound
  have hclose : c'.token.Closes := by simp [hnext, Token.Closes]
  have hlast : c'.token ≠ .word .function := by simp [hnext]
  simp only [program]
  cases h with
  | library hfs =>
    rw [bind_ok (functionDecls_ok hfs hm hclose hlast bound hbound),
      bind_ok (isWord_ok false (by simp [hnext]))]
    rfl
  | withMain hfs hmain hgs =>
    obtain ⟨c₁, hm₁, hrest⟩ := hm.split
    obtain ⟨c₂, hm₂, hm₃⟩ := hrest.split
    have hword : c₁.token = .word .main := by
      cases hmain with
      | mk hk => exact hm₂.token.trans hk
    have hlength₁ := hm₁.length
    have hlength₂ := hm₂.length
    rw [bind_ok (functionDecls_ok hfs hm₁ (by simp [hword, Token.Closes]) (by simp [hword]) bound
        hbound),
      bind_ok (isWord_ok true (by simpa using hword))]
    refine (bind_ok (entryPoint_ok hmain hm₂ (functionDecls_close hgs hm₃ hclose) bound
      (by omega))).trans ?_
    exact bind_ok (functionDecls_ok hgs hm₃ hclose hlast bound (by omega))

end Parser

end Quill
