import Quill.Proofs.Syntax.Soundness

/-! # The bound is never reached

With as much bound as the number of lexemes ahead asks for, a rule ends in the same way whatever
the bound: in the same tree or in the same error. So the bound is no part of what the parser does.
-/
namespace Quill

namespace Parser

variable {α β : Type} {x y : Parser α} {f g : α → Parser β} {c : Cursor}

/-- From the cursor on `x` and `y` end alike. -/
def Agrees (c : Cursor) (x y : Parser α) : Prop := x.run c = y.run c

namespace Agrees

theorem refl : Agrees c x x := rfl

theorem of_run {x' y' : Parser α} (hx : x.run c = x'.run c) (hy : y.run c = y'.run c)
    (h : Agrees c x' y') : Agrees c x y := hx.trans (h.trans hy.symm)

theorem bind {Q : α → List Lexeme → Cursor → Prop} (h : Agrees c x y) (hx : Reads c x Q)
    (hf : ∀ a used c₁, c.Moves used c₁ → Q a used c₁ → Agrees c₁ (f a) (g a)) :
    Agrees c (x >>= f) (y >>= g) := by
  unfold Agrees at h ⊢
  rw [run_bind, run_bind, ← h]
  cases hrun : x.run c with
  | error e => rfl
  | ok r =>
    obtain ⟨a, c₁⟩ := r
    obtain ⟨used, hm, hQ⟩ := hx a c₁ hrun
    exact hf a used c₁ hm hQ

theorem next {Q : α → List Lexeme → Cursor → Prop} (hx : Reads c x Q)
    (hf : ∀ a used c₁, c.Moves used c₁ → Q a used c₁ → Agrees c₁ (f a) (g a)) :
    Agrees c (x >>= f) (x >>= g) := .bind .refl hx hf

theorem first (h : Agrees c x y) : Agrees c (x >>= f) (y >>= f) := by
  unfold Agrees at h ⊢
  rw [run_bind, run_bind, h]

theorem known {a : α} (h : Agrees c (f a) (g a)) :
    Agrees c (Pure.pure a >>= f) (Pure.pure a >>= g) := h

theorem get {f g : Cursor → Parser α} (h : Agrees c (f c) (g c)) :
    Agrees c (MonadState.get >>= f) (MonadState.get >>= g) := h

theorem here {f g : Location → Parser α} (h : Agrees c (f c.span.first) (g c.span.first)) :
    Agrees c (Parser.here >>= f) (Parser.here >>= g) := h

theorem map {f : α → β} (h : Agrees c x y) : Agrees c (f <$> x) (f <$> y) := by
  rw [map_eq_pure_bind, map_eq_pure_bind]
  exact h.first

end Agrees

mutual

theorem exprFrom_agrees {c : Cursor} {b b' min : Nat} (h : c.HasEnd)
    (hb : 8 * c.ahead.length + 3 ≤ b) (hb' : 8 * c.ahead.length + 3 ≤ b') :
    Agrees c (exprFrom b min) (exprFrom b' min) := by
  match b, b' with
  | b + 1, b' + 1 =>
    refine .bind (atom_agrees h (by omega) (by omega)) (atom_reads h (by omega)) fun r used c₁ hm hr => ?_
    cases r with
    | none => exact .refl
    | some lhs =>
      have hlength := hm.length
      exact .map (climb_agrees (hm.hasEnd h) (by omega) (by omega))

theorem climb_agrees {c : Cursor} {b b' min : Nat} {lhs : Expr} (h : c.HasEnd)
    (hb : 8 * c.ahead.length + 1 ≤ b) (hb' : 8 * c.ahead.length + 1 ≤ b') :
    Agrees c (climb b min lhs) (climb b' min lhs) := by
  match b, b' with
  | b + 1, b' + 1 =>
    refine .get ?_
    split
    · rename_i o ho
      split
      · exact .refl
      refine .next (Reads.advance h ho nofun) fun _ used c₁ hm ⟨l, hl, _, hused⟩ => ?_
      subst hused
      have hlength := hm.length
      rw [List.length_singleton] at hlength
      have h₁ := hm.hasEnd h
      refine .bind (exprFrom_agrees h₁ (by omega) (by omega))
        (exprFrom_reads h₁ (by omega) o.precedence_lt) fun r more c₂ hm₂ hr => ?_
      cases r with
      | none => exact .refl
      | some rhs =>
        have hlength₂ := hm₂.length
        exact climb_agrees (hm₂.hasEnd h₁) (by omega) (by omega)
    · exact .refl

theorem atom_agrees {c : Cursor} {b b' : Nat} (h : c.HasEnd) (hb : 8 * c.ahead.length + 2 ≤ b)
    (hb' : 8 * c.ahead.length + 2 ≤ b') : Agrees c (atom b) (atom b') := by
  match b, b' with
  | b + 1, b' + 1 =>
    refine .get ?_
    split
    · exact .map (call_agrees h (by omega) (by omega))
    all_goals exact .refl

theorem call_agrees {c : Cursor} {b b' : Nat} (h : c.HasEnd) (hb : 8 * c.ahead.length + 1 ≤ b)
    (hb' : 8 * c.ahead.length + 1 ≤ b') : Agrees c (call b) (call b') := by
  match b, b' with
  | b + 1, b' + 1 =>
    refine .here (.next (Reads.word h .call _) fun _ _ c₁ hm₁ ⟨k, _, hused⟩ => ?_)
    subst hused
    have h₁ := hm₁.hasEnd h
    refine .next (Reads.ident h₁ _) fun callee _ c₂ hm₂ _ => ?_
    have h₂ := hm₂.hasEnd h₁
    refine .next (Reads.listFollows h₂ _) fun follows _ c₃ hm₃ _ => ?_
    have hlength := (hm₁.trans (hm₂.trans hm₃)).length
    simp only [List.length_append, List.length_singleton] at hlength
    split
    · exact (arguments_agrees (hm₃.hasEnd h₂) (by omega) (by omega)).first
    · exact .refl

theorem arguments_agrees {c : Cursor} {b b' : Nat} (h : c.HasEnd)
    (hb : 8 * c.ahead.length + 5 ≤ b) (hb' : 8 * c.ahead.length + 5 ≤ b') :
    Agrees c (arguments b) (arguments b') := by
  match b, b' with
  | b + 1, b' + 1 =>
    refine .bind (expr_agrees h (by omega) (by omega)) (expr_reads h (by omega)) fun e ls c₁ hm _ => ?_
    have h₁ := hm.hasEnd h
    refine .next (Reads.listGoesOn h₁ _) fun goes _ c₂ hm₂ ⟨s, _, hused⟩ => ?_
    subst hused
    have hlength := (hm.trans hm₂).length
    rw [List.length_append, List.length_singleton] at hlength
    split
    · exact (arguments_agrees (hm₂.hasEnd h₁) (by omega) (by omega)).first
    · exact .refl

theorem expr_agrees {c : Cursor} {b b' : Nat} (h : c.HasEnd) (hb : 8 * c.ahead.length + 4 ≤ b)
    (hb' : 8 * c.ahead.length + 4 ≤ b') : Agrees c (expr b) (expr b') := by
  match b, b' with
  | b + 1, b' + 1 => exact (exprFrom_agrees h (by omega) (by omega)).first

end

theorem exprStmt_agrees {c : Cursor} {b b' : Nat} {first : Location} (h : c.HasEnd)
    (hb : 8 * c.ahead.length + 4 ≤ b) (hb' : 8 * c.ahead.length + 4 ≤ b') :
    Agrees c (exprStmt b first) (exprStmt b' first) := by
  refine .bind (expr_agrees h hb hb') (expr_reads h hb) fun e ls c₁ hm _ => ?_
  have h₁ := hm.hasEnd h
  refine .next (Reads.takeMark h₁ .assign) fun found used c₂ hm₂ _ => ?_
  have hlength := (hm.trans hm₂).length
  rw [List.length_append] at hlength
  split
  · split
    · exact (expr_agrees (hm₂.hasEnd h₁) (by omega) (by omega)).first
    · exact .refl
  · exact .refl

section

variable {c : Cursor} {b b' : Nat} {first : Location} (h : c.HasEnd)
include h

theorem assertTail_agrees (hb : 8 * c.ahead.length + 4 ≤ b) (hb' : 8 * c.ahead.length + 4 ≤ b') :
    Agrees c (assertTail b first) (assertTail b' first) := (expr_agrees h hb hb').first

theorem retTail_agrees (hb : 8 * c.ahead.length + 4 ≤ b) (hb' : 8 * c.ahead.length + 4 ≤ b') :
    Agrees c (retTail b first) (retTail b' first) := by
  refine .next (Reads.takeMark h .bang) fun found _ c₁ hm _ => ?_
  have hlength := hm.length
  split
  · exact .refl
  · exact (expr_agrees (hm.hasEnd h) (by omega) (by omega)).first

theorem declareTail_agrees (hb : 8 * c.ahead.length + 4 ≤ b)
    (hb' : 8 * c.ahead.length + 4 ≤ b') :
    Agrees c (declareTail b first) (declareTail b' first) := by
  refine .next (Reads.ident h _) fun target _ c₁ hm _ => ?_
  refine .next (Reads.mark (hm.hasEnd h) .colon _) fun _ _ c₂ hm₂ _ => ?_
  have hm₂ := hm.trans hm₂
  refine .next (Reads.typeExpr (hm₂.hasEnd h)) fun type _ c₃ hm₃ _ => ?_
  have hm₃ := hm₂.trans hm₃
  refine .next (Reads.takeMark (hm₃.hasEnd h) .assign) fun found _ c₄ hm₄ _ => ?_
  have hm₄ := hm₃.trans hm₄
  have hlength := hm₄.length
  split
  · exact (expr_agrees (hm₄.hasEnd h) (by omega) (by omega)).map.first
  · exact .refl

/-- Statements are parsed alike with both bounds, wherever these are enough. -/
abbrev StmtsAgree (b b' : Nat) : Prop :=
  ∀ {c : Cursor}, c.HasEnd → 8 * c.ahead.length + 6 ≤ b → 8 * c.ahead.length + 6 ≤ b' →
    Agrees c (stmts b) (stmts b')

theorem loopTail_agrees (hb : 8 * c.ahead.length + 6 ≤ b) (hb' : 8 * c.ahead.length + 6 ≤ b')
    (hstmts : StmtsAgree b b') : Agrees c (loopTail b first) (loopTail b' first) := by
  refine .bind (hstmts h hb hb') (stmts_reads h hb) fun body _ c₁ hm _ => ?_
  refine .next (Reads.word (hm.hasEnd h) .while _) fun _ _ c₂ hm₂ _ => ?_
  have hm₂ := hm.trans hm₂
  have hlength := hm₂.length
  exact (expr_agrees (hm₂.hasEnd h) (by omega) (by omega)).first

theorem branchTail_agrees (hb : 8 * c.ahead.length + 5 ≤ b) (hb' : 8 * c.ahead.length + 5 ≤ b')
    (hstmts : StmtsAgree b b')
    (hcases : ∀ {c : Cursor} (lead : Ident), c.HasEnd → 8 * c.ahead.length + 5 ≤ b →
      8 * c.ahead.length + 5 ≤ b' → Agrees c (cases b lead) (cases b' lead)) :
    Agrees c (branchTail b first) (branchTail b' first) := by
  refine .next (Reads.ident h _) fun lead _ c₁ hm ⟨_, _, _, hused⟩ => ?_
  subst hused
  refine .next (Reads.word (hm.hasEnd h) .of _) fun _ _ c₂ hm₂ _ => ?_
  have hm₂ := hm.trans hm₂
  have h₂ := hm₂.hasEnd h
  have hlength := hm₂.length
  simp only [List.length_append, List.length_singleton] at hlength
  refine .bind (hcases lead h₂ (by omega) (by omega)) (cases_reads lead h₂ (by omega))
    fun cs _ c₃ hm₃ _ => ?_
  have hlength₃ := hm₃.length
  have hm₃ := hm₂.trans hm₃
  refine .next (Reads.takeWord (hm₃.hasEnd h) .otherwise) fun found _ c₄ hm₄ _ => ?_
  have hlength₄ := hm₄.length
  have hm₄ := hm₃.trans hm₄
  split
  · refine .next (Reads.optional (hm₄.hasEnd h) .colon) fun _ _ c₅ hm₅ _ => ?_
    have hlength₅ := hm₅.length
    exact (hstmts ((hm₄.trans hm₅).hasEnd h) (by omega) (by omega)).map.first
  · exact .refl

end

mutual

theorem stmts_agrees {c : Cursor} {b b' : Nat} (h : c.HasEnd) (hb : 8 * c.ahead.length + 6 ≤ b)
    (hb' : 8 * c.ahead.length + 6 ≤ b') : Agrees c (stmts b) (stmts b') := by
  match b, b' with
  | b + 1, b' + 1 =>
    refine .bind (stmt?_agrees h (by omega) (by omega)) (stmt?_reads h (by omega)) fun r used c₁ hm hr => ?_
    cases hr with
    | none => exact .refl
    | @some ks s ls hks hs hspan =>
      have hlength := hm.length
      have hpos := List.length_pos_iff.2 hs.ne_nil
      rw [List.length_append] at hlength
      exact (stmts_agrees (hm.hasEnd h) (by omega) (by omega)).first

theorem stmt?_agrees {c : Cursor} {b b' : Nat} (h : c.HasEnd) (hb : 8 * c.ahead.length + 5 ≤ b)
    (hb' : 8 * c.ahead.length + 5 ≤ b') : Agrees c (stmt? b) (stmt? b') := by
  match b, b' with
  | b + 1, b' + 1 =>
    obtain ⟨x, hx, hrun⟩ := stmt?_begins c
    refine .of_run (hrun b) (hrun b') ?_
    cases hx with
    | comma hcomma =>
      refine .next (Reads.advance h hcomma nofun) fun _ _ c₁ hm ⟨l, _, _, hused⟩ => ?_
      subst hused
      have hlength := hm.length
      rw [List.length_singleton] at hlength
      exact stmt?_agrees (hm.hasEnd h) (by omega) (by omega)
    | led hword htail =>
      refine .next (Reads.advance h hword nofun) fun _ _ c₁ hm ⟨l, _, _, hused⟩ => ?_
      subst hused
      have h₁ := hm.hasEnd h
      have hlength := hm.length
      rw [List.length_singleton] at hlength
      cases htail with
      | assert => exact assertTail_agrees h₁ (by omega) (by omega)
      | read | abort => exact .refl
      | ret => exact retTail_agrees h₁ (by omega) (by omega)
      | declare => exact declareTail_agrees h₁ (by omega) (by omega)
      | loop => exact loopTail_agrees h₁ (by omega) (by omega) fun h hb hb' => stmts_agrees h hb hb'
      | branch =>
        exact branchTail_agrees h₁ (by omega) (by omega) (fun h hb hb' => stmts_agrees h hb hb')
          fun lead h hb hb' => cases_agrees lead h hb hb'
    | expr => exact (exprStmt_agrees h (by omega) (by omega)).map
    | none => exact .refl

theorem cases_agrees {c : Cursor} {b b' : Nat} (lead : Ident) (h : c.HasEnd)
    (hb : 8 * c.ahead.length + 5 ≤ b) (hb' : 8 * c.ahead.length + 5 ≤ b') :
    Agrees c (cases b lead) (cases b' lead) := by
  match b, b' with
  | b + 1, b' + 1 =>
    refine .here (.next (caseOperator_reads h) fun op os c₁ hm _ => ?_)
    have h₁ := hm.hasEnd h
    have hlength := hm.length
    refine .bind (expr_agrees h₁ (by omega) (by omega)) (expr_reads h₁ (by omega))
      fun rhs ls c₂ hm₂ hrhs => ?_
    have h₂ := hm₂.hasEnd h₁
    have hlength₂ := hm₂.length
    have hpos := List.length_pos_iff.2 hrhs.1.ne_nil
    refine .get (.next (Reads.optional h₂ .colon) fun _ colon c₃ hm₃ _ => ?_)
    have h₃ := hm₃.hasEnd h₂
    have hlength₃ := hm₃.length
    refine .bind (stmts_agrees h₃ (by omega) (by omega)) (stmts_reads h₃ (by omega))
      fun body bs c₄ hm₄ _ => ?_
    have h₄ := hm₄.hasEnd h₃
    have hlength₄ := hm₄.length
    refine .get ?_
    split
    · rename_i hor
      refine .next (Reads.advance h₄ hor nofun) fun _ _ c₅ hm₅ _ => ?_
      have hlength₅ := hm₅.length
      exact (cases_agrees lead (hm₅.hasEnd h₄) (by omega) (by omega)).first
    all_goals exact .refl

end

/-! ### Programs -/

theorem params_agrees {c : Cursor} {b b' : Nat} (h : c.HasEnd) (hb : 8 * c.ahead.length ≤ b)
    (hb' : 8 * c.ahead.length ≤ b') : Agrees c (params b) (params b') := by
  induction b generalizing c b' with
  | zero => simp [Cursor.ahead] at hb
  | succ b ih =>
    cases b' with
    | zero => simp [Cursor.ahead] at hb'
    | succ b' =>
      refine .next (param_reads h) fun p ls c₁ hm _ => ?_
      have h₁ := hm.hasEnd h
      refine .next (Reads.listGoesOn h₁ _) fun goes _ c₂ hm₂ ⟨s, _, hused⟩ => ?_
      subst hused
      have hlength := (hm.trans hm₂).length
      rw [List.length_append, List.length_singleton] at hlength
      split
      · exact (ih (hm₂.hasEnd h₁) (by omega) (by omega)).first
      · exact .refl

theorem functionDecl_agrees {c : Cursor} {b b' : Nat} (h : c.HasEnd) (hb : 8 * c.ahead.length ≤ b)
    (hb' : 8 * c.ahead.length ≤ b') : Agrees c (functionDecl b) (functionDecl b') := by
  refine .here (.next (Reads.word h .function _) fun _ _ c₁ hm ⟨k, _, hused⟩ => ?_)
  subst hused
  refine .next (resultType_reads (hm.hasEnd h)) fun result rs c₂ hm₂ _ => ?_
  have hm₂ := hm.trans hm₂
  refine .next (Reads.ident (hm₂.hasEnd h) _) fun name _ c₃ hm₃ _ => ?_
  have hm₃ := hm₂.trans hm₃
  refine .next (Reads.listFollows (hm₃.hasEnd h) _) fun follows _ c₄ hm₄ _ => ?_
  have hm₄ := hm₃.trans hm₄
  have h₄ := hm₄.hasEnd h
  have hlength := hm₄.length
  simp only [List.length_append, List.length_singleton] at hlength
  split
  · refine .bind (params_agrees h₄ (by omega) (by omega)) (params_reads h₄ (by omega))
      fun params ps c₅ hm₅ _ => ?_
    have hlength₅ := hm₅.length
    exact (stmts_agrees (hm₅.hasEnd h₄) (by omega) (by omega)).first
  · exact .known (stmts_agrees h₄ (by omega) (by omega)).first

theorem functionDecls_agrees {c : Cursor} {b b' : Nat} (h : c.HasEnd)
    (hb : 8 * c.ahead.length + 1 ≤ b) (hb' : 8 * c.ahead.length + 1 ≤ b') :
    Agrees c (functionDecls b) (functionDecls b') := by
  induction b generalizing c b' with
  | zero => omega
  | succ b ih =>
    cases b' with
    | zero => omega
    | succ b' =>
      refine .next (Reads.isWord .function) fun found _ c₁ hm ⟨hused, _⟩ => ?_
      subst hused
      obtain rfl := hm.eq_of_nil
      split
      · refine .bind (functionDecl_agrees h (by omega) (by omega)) (functionDecl_reads h (by omega))
          fun f ls c₂ hm₂ hf => ?_
        have hlength := hm₂.length
        have hpos := List.length_pos_iff.2 hf.ne_nil
        exact (ih (hm₂.hasEnd h) (by omega) (by omega)).first
      · exact .refl

theorem program_agrees {c : Cursor} {b b' : Nat} {fileName : String} (h : c.HasEnd)
    (hb : 8 * c.ahead.length + 1 ≤ b) (hb' : 8 * c.ahead.length + 1 ≤ b') :
    Agrees c (program b fileName) (program b' fileName) := by
  refine .bind (functionDecls_agrees h hb hb') (functionDecls_reads h hb) fun fs ls c₁ hm _ => ?_
  have h₁ := hm.hasEnd h
  have hlength := hm.length
  refine .next (Reads.isWord .main) fun found _ c₂ hm₂ ⟨hused, _⟩ => ?_
  subst hused
  obtain rfl := hm₂.eq_of_nil
  split
  · have hentry : Agrees c₂ (entryPoint b) (entryPoint b') := by
      refine .here (.next (Reads.word h₁ .main _) fun _ _ c₃ hm₃ ⟨k, _, hused⟩ => ?_)
      subst hused
      have hlength₃ := hm₃.length
      rw [List.length_singleton] at hlength₃
      exact (stmts_agrees (hm₃.hasEnd h₁) (by omega) (by omega)).first
    refine .bind hentry (entryPoint_reads h₁ (by omega)) fun m ms c₃ hm₃ _ => ?_
    have hlength₃ := hm₃.length
    exact (functionDecls_agrees (hm₃.hasEnd h₁) (by omega) (by omega)).first
  · exact .refl

end Parser

end Quill
