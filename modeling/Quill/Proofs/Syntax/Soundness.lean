import Quill.Proofs.Syntax.Tails

/-! # What the parser accepts is spelled

Each rule yields a tree that the lexemes it used spell, with operators grouped by precedence.
Running out of bound would cut an expression short, so every rule is given what the number of
lexemes ahead asks for.
-/
namespace Quill

theorem Expr.Spelled.ne_nil {e : Expr} {ls : List Lexeme} (h : e.Spelled ls) : ls ≠ [] := by
  cases h <;> simp

theorem Stmt.Spelled.ne_nil {s : Stmt} {ls : List Lexeme} (h : s.Spelled Expr.Grouped ls) :
    ls ≠ [] := by
  cases h with
  | call hcall => exact hcall.1.ne_nil
  | _ => simp

theorem FunctionDecl.Spelled.ne_nil {f : FunctionDecl} {ls : List Lexeme}
    (h : f.Spelled Expr.Grouped ls) : ls ≠ [] := by
  cases h
  simp

/-- Any operator at hand has a precedence below `n`. -/
def Cursor.Below (n : Nat) (c : Cursor) : Prop := ∀ o, c.token = .op o → o.precedence < n

namespace Parser

/-! ### Expressions -/

mutual

theorem exprFrom_reads {c : Cursor} {bound min : Nat} (h : c.HasEnd)
    (hbound : 8 * c.ahead.length + 3 ≤ bound)
    (hmin : min ≤ 5) : Reads c (exprFrom bound min) fun r used c' =>
      ∀ e ∈ r, e.Grouped used ∧ min ≤ e.level ∧ c'.Below min := by
  match bound with
  | bound + 1 =>
    refine (atom_reads h (by omega)).bind fun r base c₁ hm hr => ?_
    cases r with
    | none => exact .pure (by simp)
    | some lhs =>
      obtain ⟨hlhs, hlevel⟩ := hr lhs rfl
      have hlength := hm.length
      refine .map ((climb_reads (hm.hasEnd h) (by omega) hlhs (hlevel ▸ hmin) ?_).mono ?_)
      · exact fun o _ => hlevel ▸ Nat.le_of_lt o.precedence_lt
      · rintro e more c' - ⟨he, hmin, hbelow⟩ _ ⟨⟩
        exact ⟨he, hmin, hbelow⟩

/-- What continues a grouped operand is grouped together with it. -/
theorem climb_reads {c : Cursor} {bound min : Nat} {lhs : Expr} {base : List Lexeme}
    (h : c.HasEnd) (hbound : 8 * c.ahead.length + 1 ≤ bound) (hlhs : lhs.Grouped base)
    (hmin : min ≤ lhs.level)
    (hnext : ∀ o, c.token = .op o → o.precedence ≤ lhs.level) :
    Reads c (climb bound min lhs) fun e used c' =>
      e.Grouped (base ++ used) ∧ min ≤ e.level ∧ c'.Below min := by
  match bound with
  | bound + 1 =>
    refine .get ?_
    split
    · rename_i o ho
      split
      · rename_i hlt
        refine .pure ⟨by simpa using hlhs, hmin, fun o' ho' => ?_⟩
        rw [ho] at ho'
        exact Token.op.inj ho' ▸ hlt
      rename_i hle
      refine (Reads.advance h ho nofun).bind fun _ used c₁ hm ⟨l, hl, _, hused⟩ => ?_
      subst hused
      have hlength := hm.length
      rw [List.length_singleton] at hlength
      refine (exprFrom_reads (hm.hasEnd h) (by omega)
        o.precedence_lt).bind fun r more c₂ hm₂ hr => ?_
      cases r with
      | none => exact .failAt
      | some rhs =>
        obtain ⟨hrhs, hlevel, hbelow⟩ := hr rhs rfl
        have hlength₂ := hm₂.length
        have hboth : Expr.Grouped (.binary o lhs rhs) (base ++ l :: more) :=
          ⟨.binary hlhs.1 hl hrhs.1, hlhs.2, hrhs.2, hnext o ho, hlevel⟩
        refine (climb_reads (hm₂.hasEnd (hm.hasEnd h)) (by omega) hboth (Nat.le_of_not_lt hle)
          fun o' ho' => Nat.le_of_lt_succ (hbelow o' ho')).mono fun e rest c' _ he => ?_
        simpa using he
    · rename_i hop
      exact .pure ⟨by simpa using hlhs, hmin, fun o ho => absurd ho (hop o)⟩

theorem atom_reads {c : Cursor} {bound : Nat} (h : c.HasEnd)
    (hbound : 8 * c.ahead.length + 2 ≤ bound) :
    Reads c (atom bound) fun r used _ => ∀ e ∈ r, e.Grouped used ∧ e.level = 5 := by
  match bound with
  | bound + 1 =>
    have hone {e : Expr} {l : Lexeme} (he : e.Grouped [l]) (hlevel : e.level = 5) :
        ∀ e' ∈ some e, e'.Grouped ([l] ++ []) ∧ e'.level = 5 := by
      rintro _ ⟨⟩
      exact ⟨he, hlevel⟩
    refine .get ?_
    split
    · refine .map ((call_reads h (by omega)).mono ?_)
      rintro e used c' - ⟨he, callee, args, span, rfl⟩ _ ⟨⟩
      exact ⟨he, rfl⟩
    · rename_i x hx
      refine (Reads.advance h hx nofun).bind fun _ _ _ _ ⟨l, hl, hspan, hused⟩ => .pure ?_
      subst hused
      exact hspan ▸ hone ⟨.var hl, trivial⟩ rfl
    · rename_i n hn
      refine (Reads.advance h hn nofun).bind fun _ _ _ _ ⟨l, hl, hspan, hused⟩ => .pure ?_
      subst hused
      exact hspan ▸ hone ⟨.int hl, trivial⟩ rfl
    · rename_i x hx
      refine (Reads.advance h hx nofun).bind fun _ _ _ _ ⟨l, hl, hspan, hused⟩ => .pure ?_
      subst hused
      exact hspan ▸ hone ⟨.float hl, trivial⟩ rfl
    · exact .pure (by simp)

theorem call_reads {c : Cursor} {bound : Nat} (h : c.HasEnd)
    (hbound : 8 * c.ahead.length + 1 ≤ bound) : Reads c (call bound) fun e used _ =>
      e.Grouped used ∧ ∃ callee args span, e = .call callee args span := by
  match bound with
  | bound + 1 =>
    refine Reads.mono (Q := fun e used c' => ∃ k x callee args ls, k.token = .word .call ∧
      x.token = .name callee ∧ Enclosed Expr.Spelled args ls ∧ Expr.AllGrouped args ∧
      e = .call ⟨callee, x.span⟩ args ⟨c.span.first, c'.passed⟩ ∧ used = k :: x :: ls) ?_ ?_
    · refine .here ((Reads.word h .call _).bind fun _ _ c₁ hm₁ ⟨k, hk, hused⟩ => ?_)
      subst hused
      have h₁ := hm₁.hasEnd h
      refine (Reads.ident h₁ _).bind fun callee _ c₂ hm₂ ⟨x, hx, hspan, hused⟩ => ?_
      subst hused
      have h₂ := hm₂.hasEnd h₁
      refine (Reads.listFollows h₂ _).bind fun follows _ c₃ hm₃ ⟨w, hw, hused⟩ => ?_
      subst hused
      have hlength := (hm₁.trans (hm₂.trans hm₃)).length
      simp only [List.length_append, List.length_singleton] at hlength
      split
      · rename_i hfollows
        rw [if_pos hfollows] at hw
        refine (arguments_reads (hm₃.hasEnd h₂) (by omega)).bind fun args ls c₄ _ ⟨hargs, hgrouped⟩ => ?_
        refine .spanned ⟨k, x, callee.text, args, w :: ls, hk, hx, .some hw hargs, hgrouped, ?_, by simp⟩
        rw [hspan]
      · rename_i hfollows
        rw [if_neg hfollows] at hw
        refine .known (.spanned ⟨k, x, callee.text, [], [w], hk, hx, .none hw, trivial, ?_, by simp⟩)
        rw [hspan]
    · rintro e used c' hm ⟨k, x, callee, args, ls, hk, hx, hargs, hgrouped, rfl, rfl⟩
      rw [hm.span (by simp)]
      exact ⟨⟨.call hk hx hargs, hgrouped⟩, _, _, _, rfl⟩

theorem arguments_reads {c : Cursor} {bound : Nat} (h : c.HasEnd)
    (hbound : 8 * c.ahead.length + 5 ≤ bound) : Reads c (arguments bound) fun args used _ =>
      Items Expr.Spelled args used ∧ Expr.AllGrouped args := by
  match bound with
  | bound + 1 =>
    refine (expr_reads h (by omega)).bind fun e ls c₁ hm he => ?_
    have h₁ := hm.hasEnd h
    refine (Reads.listGoesOn h₁ _).bind fun goes _ c₂ hm₂ ⟨s, hs, hused⟩ => ?_
    subst hused
    have hlength := (hm.trans hm₂).length
    rw [List.length_append, List.length_singleton] at hlength
    split
    · rename_i hgoes
      rw [if_pos hgoes] at hs
      refine (arguments_reads (hm₂.hasEnd h₁) (by omega)).bind fun args rs _ _ ⟨hargs, hall⟩ => ?_
      refine .pure ⟨?_, he.2, hall⟩
      simpa using Items.more he.1 hs hargs
    · rename_i hgoes
      rw [if_neg hgoes] at hs
      exact .pure ⟨by simpa using Items.last he.1 hs, he.2, trivial⟩

theorem expr_reads {c : Cursor} {bound : Nat} (h : c.HasEnd)
    (hbound : 8 * c.ahead.length + 4 ≤ bound) :
    Reads c (expr bound) fun e used _ => e.Grouped used := by
  match bound with
  | bound + 1 =>
    refine (exprFrom_reads h (by omega) (Nat.zero_le 5)).bind fun r used c₁ _ hr => ?_
    cases r with
    | none => exact .unexpected
    | some e =>
      exact .pure (by simpa using (hr e rfl).1)

end

/-! ### Statements -/

/-- Commas, and perhaps a statement behind them that spans its lexemes. -/
inductive StmtRead : Option Stmt → List Lexeme → Prop
  | none {ks} : Commas ks → StmtRead none ks
  | some {ks s ls} : Commas ks → s.Spelled Expr.Grouped ls → s.span = spanOf ls →
      StmtRead (some s) (ks ++ ls)

theorem exprStmt_reads {c : Cursor} {bound : Nat} (h : c.HasEnd)
    (hbound : 8 * c.ahead.length + 4 ≤ bound) :
    Reads c (exprStmt bound c.span.first) fun s used c' =>
      s.Spelled Expr.Grouped used ∧ s.span = ⟨c.span.first, c'.passed⟩ := by
  refine (expr_reads h hbound).bind fun e ls c₁ hm he => ?_
  have h₁ := hm.hasEnd h
  refine (Reads.takeMark h₁ .assign).bind fun found used c₂ hm₂ hfound => ?_
  split
  · rename_i hyes
    rw [if_pos hyes] at hfound
    obtain ⟨a, ha, rfl⟩ := hfound
    have hlength := (hm.trans hm₂).length
    split
    · rename_i target
      cases he.1 with
      | var hx =>
        refine (expr_reads (hm₂.hasEnd h₁) (by omega)).bind fun value vs _ _ hvalue => ?_
        exact .spanned ⟨by simpa using .assign hx ha hvalue, rfl⟩
    · exact .raise
  rename_i hno
  rw [if_neg hno] at hfound
  subst hfound
  obtain rfl := hm₂.eq_of_nil
  refine (Reads.takeWord h₁ .print).bind fun found used c₃ hm₃ hfound => ?_
  split
  · rename_i hyes
    rw [if_pos hyes] at hfound
    obtain ⟨p, hp, rfl⟩ := hfound
    exact .spanned ⟨by simpa using .print he hp, rfl⟩
  rename_i hno
  rw [if_neg hno] at hfound
  subst hfound
  obtain rfl := hm₃.eq_of_nil
  split
  · rename_i callee args span
    refine .pure ⟨by simpa using .call he, ?_⟩
    cases he.1 with
    | call => exact (hm.span (by simp)).symm
  · exact .raise

theorem caseOperator_reads {c : Cursor} (h : c.HasEnd) :
    Reads c caseOperator fun op used _ => op.Spelled used := by
  refine .get ?_
  split
  · rename_i o ho
    refine (Reads.advance h ho nofun).bind fun _ _ _ _ ⟨l, hl, _, hused⟩ => .pure ?_
    subst hused
    exact .written hl
  · exact .pure .absent

/-! One lemma for each tail. -/

/-- A statement of the lexeme `k` and the lexemes used, from `first` on. -/
def Completes (k : Lexeme) (first : Location) (r : Option Stmt) (used : List Lexeme) (c : Cursor) :
    Prop :=
  ∃ s, r = some s ∧ s.Spelled Expr.Grouped (k :: used) ∧ s.span = ⟨first, c.passed⟩

section

variable {c : Cursor} {bound : Nat} {k : Lexeme} {first : Location} (h : c.HasEnd)
include h

theorem assertTail_reads (hk : k.token = .word .assert) (hbound : 8 * c.ahead.length + 4 ≤ bound) :
    Reads c (assertTail bound first) (Completes k first) := by
  refine (expr_reads h hbound).bind fun e ls c₁ hm he => ?_
  refine (Reads.mark (hm.hasEnd h) .bang _).bind fun _ _ _ _ ⟨b, hb, hused⟩ => ?_
  subst hused
  exact .spanned ⟨_, rfl, by simpa using .assert hk he hb, rfl⟩

theorem readTail_reads (hk : k.token = .word .read) :
    Reads c (readTail first) (Completes k first) := by
  refine (Reads.ident h _).bind fun target _ _ _ ⟨x, hx, hspan, hused⟩ => ?_
  subst hused
  exact .spanned ⟨.read target _, rfl, by simpa [hspan] using Stmt.Spelled.read hk hx, rfl⟩

omit h in
theorem abortTail_reads (hk : k.token = .word .abort) :
    Reads c (abortTail first) (Completes k first) := .spanned ⟨_, rfl, .abort hk, rfl⟩

theorem retTail_reads (hk : k.token = .word .ret) (hbound : 8 * c.ahead.length + 4 ≤ bound) :
    Reads c (retTail bound first) (Completes k first) := by
  refine (Reads.takeMark h .bang).bind fun found used c₁ hm hfound => ?_
  have hlength := hm.length
  split
  · rename_i hyes
    rw [if_pos hyes] at hfound
    obtain ⟨b, hb, rfl⟩ := hfound
    exact .spanned ⟨_, rfl, .ret hk hb, rfl⟩
  · rename_i hno
    rw [if_neg hno] at hfound
    subst hfound
    have h₁ := hm.hasEnd h
    refine (expr_reads h₁ (by omega)).bind fun e ls c₂ hm₂ he => ?_
    refine (Reads.mark (hm₂.hasEnd h₁) .bang _).bind fun _ _ _ _ ⟨b, hb, hused⟩ => ?_
    subst hused
    exact .spanned ⟨_, rfl, by simpa using .retAs hk he hb, rfl⟩

theorem declareTail_reads (hk : k.token = .word .var) (hbound : 8 * c.ahead.length + 4 ≤ bound) :
    Reads c (declareTail bound first) (Completes k first) := by
  refine (Reads.ident h _).bind fun target _ c₁ hm ⟨x, hx, hspan, hused⟩ => ?_
  subst hused
  have h₁ := hm.hasEnd h
  refine (Reads.mark h₁ .colon _).bind fun _ _ c₂ hm₂ ⟨colon, hcolon, hused⟩ => ?_
  subst hused
  have h₂ := hm₂.hasEnd h₁
  refine (Reads.typeExpr h₂).bind fun type ts c₃ hm₃ htype => ?_
  have h₃ := hm₃.hasEnd h₂
  refine (Reads.takeMark h₃ .assign).bind fun found used c₄ hm₄ hfound => ?_
  have hlength := (hm.trans (hm₂.trans (hm₃.trans hm₄))).length
  simp only [List.length_append] at hlength
  split
  · rename_i hyes
    rw [if_pos hyes] at hfound
    obtain ⟨a, ha, rfl⟩ := hfound
    refine .bind (.map (S := fun init more _ => ∃ e, init = some e ∧ e.Grouped more)
      ((expr_reads (hm₄.hasEnd h₃) (by omega)).mono fun e _ _ _ he => ⟨e, rfl, he⟩)) ?_
    rintro _ ls _ - ⟨e, rfl, he⟩
    refine .spanned ⟨.declare target type (some e) _, rfl, ?_, rfl⟩
    simpa [hspan] using Stmt.Spelled.declareAs hk hx hcolon htype ha he
  · rename_i hno
    rw [if_neg hno] at hfound
    subst hfound
    refine .known (.spanned ⟨.declare target type none _, rfl, ?_, rfl⟩)
    simpa [hspan] using Stmt.Spelled.declare (E := Expr.Grouped) hk hx hcolon htype

/-- What is read as statements with the bound, wherever that is enough. -/
abbrev ReadsStmts (bound : Nat) : Prop :=
  ∀ {c : Cursor}, c.HasEnd → 8 * c.ahead.length + 6 ≤ bound →
    Reads c (stmts bound) fun ss used _ => Stmt.AllSpelled Expr.Grouped ss used

theorem loopTail_reads (hk : k.token = .word .doLoop) (hbound : 8 * c.ahead.length + 6 ≤ bound)
    (hstmts : ReadsStmts bound) : Reads c (loopTail bound first) (Completes k first) := by
  refine (hstmts h hbound).bind fun body bs c₁ hm hbody => ?_
  have h₁ := hm.hasEnd h
  have hlength := hm.length
  refine (Reads.word h₁ .while _).bind fun _ _ c₂ hm₂ ⟨w, hw, hused⟩ => ?_
  subst hused
  have hlength₂ := hm₂.length
  refine (expr_reads (hm₂.hasEnd h₁) (by omega)).bind fun e ls _ _ he => ?_
  exact .spanned ⟨_, rfl, by simpa using .loop hk hbody hw he, rfl⟩

theorem branchTail_reads (hk : k.token = .word .branch) (hbound : 8 * c.ahead.length + 5 ≤ bound)
    (hstmts : ReadsStmts bound)
    (hcases : ∀ {c : Cursor} (lead : Ident), c.HasEnd → 8 * c.ahead.length + 5 ≤ bound →
      Reads c (cases bound lead) fun cs used _ => Case.AllSpelled Expr.Grouped lead cs used) :
    Reads c (branchTail bound first) (Completes k first) := by
  refine (Reads.ident h _).bind fun lead _ c₁ hm ⟨x, hx, hspan, hused⟩ => ?_
  obtain ⟨name, span⟩ := lead
  obtain rfl : x.span = span := hspan
  subst hused
  have h₁ := hm.hasEnd h
  refine (Reads.word h₁ .of _).bind fun _ _ c₂ hm₂ ⟨o, ho, hused⟩ => ?_
  subst hused
  have h₂ := hm₂.hasEnd h₁
  have hlength := (hm.trans hm₂).length
  simp only [List.length_append, List.length_singleton] at hlength
  refine (hcases ⟨name, x.span⟩ h₂ (by omega)).bind fun cs ls c₃ hm₃ hcs => ?_
  have h₃ := hm₃.hasEnd h₂
  have hlength₃ := hm₃.length
  refine (Reads.takeWord h₃ .otherwise).bind fun found used c₄ hm₄ hfound => ?_
  have h₄ := hm₄.hasEnd h₃
  have hlength₄ := hm₄.length
  split
  · rename_i hyes
    rw [if_pos hyes] at hfound
    obtain ⟨w, hw, rfl⟩ := hfound
    refine (Reads.optional h₄ .colon).bind fun _ colon c₅ hm₅ hcolon => ?_
    have h₅ := hm₅.hasEnd h₄
    have hlength₅ := hm₅.length
    refine .bind (.map (S := fun otherwise more _ =>
        ∃ body, otherwise = some body ∧ Stmt.AllSpelled Expr.Grouped body more)
      ((hstmts h₅ (by omega)).mono fun body _ _ _ hbody => ⟨body, rfl, hbody⟩)) ?_
    rintro _ bs c₆ hm₆ ⟨body, rfl, hbody⟩
    refine (Reads.word (hm₆.hasEnd h₅) .endBranch _).bind fun _ _ _ _ ⟨e, he, hused⟩ => ?_
    subst hused
    refine .spanned ⟨.branch ⟨name, x.span⟩ cs (some body) _, rfl, ?_, rfl⟩
    simpa using Stmt.Spelled.branchElse hk hx ho hcs hw hcolon hbody he
  · rename_i hno
    rw [if_neg hno] at hfound
    subst hfound
    refine .known ((Reads.word h₄ .endBranch _).bind fun _ _ _ _ ⟨e, he, hused⟩ => ?_)
    subst hused
    refine .spanned ⟨.branch ⟨name, x.span⟩ cs none _, rfl, ?_, rfl⟩
    simpa using Stmt.Spelled.branch hk hx ho hcs he

end

theorem Completes.stmtRead {c c' : Cursor} {k : Lexeme} {used : List Lexeme} {r : Option Stmt}
    (h : Completes k c.span.first r used c') (hm : c.Moves (k :: used) c') :
    StmtRead r (k :: used) := by
  obtain ⟨s, rfl, hs, hspan⟩ := h
  exact .some (show Commas [] by simp [Commas]) hs (hspan.trans (hm.span hs.ne_nil))

mutual

theorem stmts_reads {c : Cursor} {bound : Nat} (h : c.HasEnd)
    (hbound : 8 * c.ahead.length + 6 ≤ bound) :
    Reads c (stmts bound) fun ss used _ => Stmt.AllSpelled Expr.Grouped ss used := by
  match bound with
  | bound + 1 =>
    refine (stmt?_reads h (by omega)).bind fun r used c₁ hm hr => ?_
    cases hr with
    | none hks => exact .pure (by simpa using .nil hks)
    | @some ks s ls hks hs hspan =>
      have hlength := hm.length
      have hpos := List.length_pos_iff.2 hs.ne_nil
      rw [List.length_append] at hlength
      refine (stmts_reads (hm.hasEnd h) (by omega)).bind fun ss rs _ _ hss => .pure ?_
      simpa using .cons hks hs hspan hss

theorem stmt?_reads {c : Cursor} {bound : Nat} (h : c.HasEnd)
    (hbound : 8 * c.ahead.length + 5 ≤ bound) :
    Reads c (stmt? bound) fun r used _ => StmtRead r used := by
  match bound with
  | bound + 1 =>
    obtain ⟨x, hx, hrun⟩ := stmt?_begins c
    refine .of_run (hrun bound) ?_
    cases hx with
    | comma hcomma =>
      refine (Reads.advance h hcomma nofun).bind fun _ _ c₁ hm ⟨l, hl, _, hused⟩ => ?_
      subst hused
      have hlength := hm.length
      rw [List.length_singleton] at hlength
      refine (stmt?_reads (hm.hasEnd h) (by omega)).mono fun r used _ _ hr => ?_
      have hmore {ks : List Lexeme} (hks : Commas ks) : Commas (l :: ks) := by
        simpa [Commas, hl] using hks
      cases hr with
      | none hks => exact .none (hmore hks)
      | @some ks s ls hks hs hspan =>
        exact show StmtRead _ ((l :: ks) ++ ls) from .some (hmore hks) hs hspan
    | led hword htail =>
      refine (Reads.advance h hword nofun).bind fun _ _ c₁ hm ⟨k, hk, _, hused⟩ => ?_
      subst hused
      have h₁ := hm.hasEnd h
      have hlength := hm.length
      rw [List.length_singleton] at hlength
      refine Reads.mono (Q := Completes k c.span.first) ?_ fun r used c' hm' hr =>
        hr.stmtRead (hm.trans hm')
      cases htail with
      | assert => exact assertTail_reads h₁ hk (by omega)
      | read => exact readTail_reads h₁ hk
      | abort => exact abortTail_reads hk
      | ret => exact retTail_reads h₁ hk (by omega)
      | declare => exact declareTail_reads h₁ hk (by omega)
      | loop => exact loopTail_reads h₁ hk (by omega) fun h hbound => stmts_reads h hbound
      | branch =>
        exact branchTail_reads h₁ hk (by omega) (fun h hbound => stmts_reads h hbound)
          fun lead h hbound => cases_reads lead h hbound
    | expr =>
      refine .map ((exprStmt_reads h (by omega)).mono fun s used c' hm ⟨hs, hspan⟩ => ?_)
      exact .some (show Commas [] by simp [Commas]) hs (hspan.trans (hm.span hs.ne_nil))
    | none => exact .pure (.none (by simp [Commas]))

theorem cases_reads {c : Cursor} {bound : Nat} (lead : Ident) (h : c.HasEnd)
    (hbound : 8 * c.ahead.length + 5 ≤ bound) :
    Reads c (cases bound lead) fun cs used _ => Case.AllSpelled Expr.Grouped lead cs used := by
  match bound with
  | bound + 1 =>
    refine .here ((caseOperator_reads h).bind fun op os c₁ hm hop => ?_)
    have h₁ := hm.hasEnd h
    have hlength := hm.length
    refine (expr_reads h₁ (by omega)).bind fun rhs ls c₂ hm₂ hrhs => ?_
    have h₂ := hm₂.hasEnd h₁
    have hlength₂ := hm₂.length
    have hpos := List.length_pos_iff.2 hrhs.1.ne_nil
    have hspan := (hm.trans hm₂).span (by simp [hrhs.1.ne_nil])
    refine .get ((Reads.optional h₂ .colon).bind fun _ colon c₃ hm₃ hcolon => ?_)
    have h₃ := hm₃.hasEnd h₂
    have hlength₃ := hm₃.length
    refine (stmts_reads h₃ (by omega)).bind fun body bs c₄ hm₄ hbody => ?_
    have h₄ := hm₄.hasEnd h₃
    have hlength₄ := hm₄.length
    have hcase : Case.Spelled Expr.Grouped lead
        (.mk (.semi op lead rhs ⟨c.span.first, c₂.passed⟩) body)
        (os ++ (ls ++ (colon ++ bs))) := hspan ▸ .mk hop hrhs hcolon hbody
    refine .get ?_
    split
    · rename_i hor
      refine (Reads.advance h₄ hor nofun).bind fun _ _ c₅ hm₅ ⟨o, ho, _, hused⟩ => ?_
      subst hused
      have hlength₅ := hm₅.length
      refine (cases_reads lead (hm₅.hasEnd h₄) (by omega)).bind fun cs rs _ _ hcs => .pure ?_
      simpa using Case.AllSpelled.more hcase ho hcs
    · exact .pure (by simpa using .one hcase)
    · exact .pure (by simpa using .one hcase)
    · exact .unexpected

end

/-! ### Programs -/

theorem param_reads {c : Cursor} (h : c.HasEnd) :
    Reads c param fun p used _ => p.Spelled used := by
  refine (Reads.ident h _).bind fun name _ c₁ hm ⟨x, hx, hspan, hused⟩ => ?_
  subst hused
  have h₁ := hm.hasEnd h
  refine (Reads.mark h₁ .colon _).bind fun _ _ c₂ hm₂ ⟨colon, hcolon, hused⟩ => ?_
  subst hused
  refine (Reads.typeExpr (hm₂.hasEnd h₁)).bind fun type ts _ _ htype => ?_
  split
  · exact .bind (Q := fun _ _ _ => False) .raise fun _ _ _ _ hfalse => hfalse.elim
  · rename_i hvoid
    refine .pure ?_
    simpa [hspan] using Param.Spelled.mk hx hcolon htype (by simpa using hvoid)

theorem params_reads {c : Cursor} {bound : Nat} (h : c.HasEnd)
    (hbound : 8 * c.ahead.length ≤ bound) :
    Reads c (params bound) fun ps used _ => Items Param.Spelled ps used := by
  induction bound generalizing c with
  | zero => simp [Cursor.ahead] at hbound
  | succ bound ih =>
    refine (param_reads h).bind fun p ls c₁ hm hp => ?_
    have h₁ := hm.hasEnd h
    refine (Reads.listGoesOn h₁ _).bind fun goes _ c₂ hm₂ ⟨s, hs, hused⟩ => ?_
    subst hused
    have hlength := (hm.trans hm₂).length
    rw [List.length_append, List.length_singleton] at hlength
    split
    · rename_i hgoes
      rw [if_pos hgoes] at hs
      refine (ih (hm₂.hasEnd h₁) (by omega)).bind fun ps rs _ _ hps => .pure ?_
      simpa using Items.more hp hs hps
    · rename_i hgoes
      rw [if_neg hgoes] at hs
      exact .pure (by simpa using Items.last hp hs)

theorem resultType_reads {c : Cursor} (h : c.HasEnd) :
    Reads c resultType fun t used _ => ResultSpelled t used := by
  have hwritten : Reads c typeExpr fun t used _ => ResultSpelled t used :=
    (Reads.typeExpr h).mono fun _ _ _ _ ht => .written ht
  refine .get ?_
  split
  · exact hwritten
  · exact hwritten
  · exact .pure .absent

theorem functionDecl_reads {c : Cursor} {bound : Nat} (h : c.HasEnd)
    (hbound : 8 * c.ahead.length ≤ bound) :
    Reads c (functionDecl bound) fun f used _ => f.Spelled Expr.Grouped used := by
  refine Reads.mono (Q := fun f used c' => ∃ k result rs x name params ps body bs,
    k.token = .word .function ∧ ResultSpelled result rs ∧ x.token = .name name ∧
    Enclosed Param.Spelled params ps ∧ Stmt.AllSpelled Expr.Grouped body bs ∧
    f = ⟨⟨name, x.span⟩, result, params, body, ⟨c.span.first, c'.passed⟩⟩ ∧
    used = k :: (rs ++ x :: (ps ++ bs))) ?_ ?_
  · refine .here ((Reads.word h .function _).bind fun _ _ c₁ hm ⟨k, hk, hused⟩ => ?_)
    subst hused
    have h₁ := hm.hasEnd h
    refine (resultType_reads h₁).bind fun result rs c₂ hm₂ hresult => ?_
    have h₂ := hm₂.hasEnd h₁
    refine (Reads.ident h₂ _).bind fun name _ c₃ hm₃ ⟨x, hx, hspan, hused⟩ => ?_
    subst hused
    have h₃ := hm₃.hasEnd h₂
    refine (Reads.listFollows h₃ _).bind fun follows _ c₄ hm₄ ⟨w, hw, hused⟩ => ?_
    subst hused
    have h₄ := hm₄.hasEnd h₃
    have hlength := (hm.trans (hm₂.trans (hm₃.trans hm₄))).length
    simp only [List.length_append, List.length_singleton] at hlength
    split
    · rename_i hfollows
      rw [if_pos hfollows] at hw
      refine (params_reads h₄ (by omega)).bind fun params ps c₅ hm₅ hps => ?_
      have hlength₅ := hm₅.length
      refine (stmts_reads (hm₅.hasEnd h₄) (by omega)).bind fun body bs _ _ hbody => ?_
      refine .spanned (f := (⟨name, result, params, body, ·⟩ : Span → FunctionDecl)) ?_
      exact ⟨k, result, rs, x, name.text, params, w :: ps, body, bs, hk, hresult, hx,
        .some hw hps, hbody, by rw [hspan], by simp⟩
    · rename_i hfollows
      rw [if_neg hfollows] at hw
      refine .known ((stmts_reads h₄ (by omega)).bind fun body bs _ _ hbody => ?_)
      refine .spanned (f := (⟨name, result, [], body, ·⟩ : Span → FunctionDecl)) ?_
      exact ⟨k, result, rs, x, name.text, [], [w], body, bs, hk, hresult, hx, .none hw, hbody,
        by rw [hspan], by simp⟩
  · rintro f used c' hm ⟨k, result, rs, x, name, params, ps, body, bs, hk, hresult, hx, hps, hbody,
      rfl, rfl⟩
    rw [hm.span (by simp)]
    exact .mk hk hresult hx hps hbody

theorem functionDecls_reads {c : Cursor} {bound : Nat} (h : c.HasEnd)
    (hbound : 8 * c.ahead.length + 1 ≤ bound) :
    Reads c (functionDecls bound) fun fs used _ => FunctionDecl.AllSpelled Expr.Grouped fs used := by
  induction bound generalizing c with
  | zero => omega
  | succ bound ih =>
    refine (Reads.isWord .function).bind fun found _ c₁ hm ⟨hused, _⟩ => ?_
    subst hused
    obtain rfl := hm.eq_of_nil
    split
    · refine (functionDecl_reads h (by omega)).bind fun f ls c₂ hm₂ hf => ?_
      have hlength := hm₂.length
      have hpos := List.length_pos_iff.2 hf.ne_nil
      refine (ih (hm₂.hasEnd h) (by omega)).bind fun fs rs _ _ hfs => .pure ?_
      simpa using .cons hf hfs
    · exact .pure .nil

theorem entryPoint_reads {c : Cursor} {bound : Nat} (h : c.HasEnd)
    (hbound : 8 * c.ahead.length ≤ bound) :
    Reads c (entryPoint bound) fun m used _ => m.Spelled Expr.Grouped used := by
  refine Reads.mono (Q := fun m used c' => ∃ k body bs, k.token = .word .main ∧
    Stmt.AllSpelled Expr.Grouped body bs ∧ m = ⟨body, ⟨c.span.first, c'.passed⟩⟩ ∧
    used = k :: bs) ?_ ?_
  · refine .here ((Reads.word h .main _).bind fun _ _ c₁ hm ⟨k, hk, hused⟩ => ?_)
    subst hused
    have hlength := hm.length
    rw [List.length_singleton] at hlength
    refine (stmts_reads (hm.hasEnd h) (by omega)).bind fun body bs _ _ hbody => ?_
    refine .spanned (f := (⟨body, ·⟩ : Span → EntryPoint)) ?_
    exact ⟨k, body, bs, hk, hbody, rfl, by simp⟩
  · rintro m used c' hm ⟨k, body, bs, hk, hbody, rfl, rfl⟩
    rw [hm.span (by simp)]
    exact .mk hk hbody

theorem program_reads {c : Cursor} {bound : Nat} {fileName : String} (h : c.HasEnd)
    (hbound : 8 * c.ahead.length + 1 ≤ bound) :
    Reads c (program bound fileName) fun p used _ => p.Spelled Expr.Grouped fileName used := by
  refine (functionDecls_reads h hbound).bind fun fs ls c₁ hm hfs => ?_
  have h₁ := hm.hasEnd h
  have hlength := hm.length
  refine (Reads.isWord .main).bind fun found _ c₂ hm₂ ⟨hused, _⟩ => ?_
  subst hused
  obtain rfl := hm₂.eq_of_nil
  split
  · refine (entryPoint_reads h₁ (by omega)).bind fun m ms c₃ hm₃ hmain => ?_
    have hlength₃ := hm₃.length
    refine (functionDecls_reads (hm₃.hasEnd h₁) (by omega)).bind fun gs rs _ _ hgs => .pure ?_
    simpa using .withMain hfs hmain hgs
  · exact .pure (by simpa using .library hfs)

end Parser

end Quill
