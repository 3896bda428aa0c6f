import Mathlib.Data.List.Chain
import Quill.Proofs.Syntax.Runs

/-! # What errors are about

A rule that ends in an error stops at a lexeme, and the error is about that lexeme, about an
operator in front of it, or about lexemes that were passed on the way. Most errors give way to a
failed read at that lexeme, and to the lexeme itself where it is unrecognized. Three do not.
-/
namespace Quill

namespace Cursor

/-- What is reported in place of `e` at the lexeme at hand: a failed read, then an unrecognized
lexeme. -/
def blame (c : Cursor) (e : Spanned SyntaxError) : Spanned SyntaxError :=
  match c.current.failure, c.token with
  | some reason, _ => c.span.at (.unreadable reason)
  | none, .unknown text => c.span.at (.unrecognized text)
  | none, _ => e

variable {c : Cursor} {e : Spanned SyntaxError}

theorem blame_failed {reason : String} (h : c.current.failure = some reason) :
    c.blame e = c.span.at (.unreadable reason) := by
  simp [blame, h]

theorem blame_known (hfailure : c.current.failure = none) (hknown : ∀ text, c.token ≠ .unknown text) :
    c.blame e = e := by
  unfold blame
  rw [hfailure]
  split
  · cases ‹_›
  · exact absurd ‹_› (hknown _)
  · rfl

/-- The error at hand is about the lexeme at hand, or it is the one that was expected. -/
theorem blame_span : (c.blame e).span = c.span ∨ c.blame e = e := by
  unfold blame
  split
  · exact .inl rfl
  · exact .inl rfl
  · exact .inr rfl

/-- The lexemes between two stops of the cursor are determined. -/
theorem Moves.lexemes_unique {c' : Cursor} {used more : List Lexeme} (h : c.Moves used c')
    (h' : c.Moves more c') : used = more :=
  List.append_cancel_right (h.ahead.symm.trans h'.ahead)

end Cursor

namespace Parser

open Cursor (Moves)

variable {α β : Type} {x : Parser α} {c c' : Cursor} {used more : List Lexeme}
  {B B' : List Lexeme → Cursor → Spanned SyntaxError → Prop}

theorem advance_ne_error {s : Stop} : advance.run c ≠ .error s := nofun

theorem isWord_ne_error {k : Keyword} {s : Stop} : (isWord k).run c ≠ .error s := by
  by_cases hk : c.token = .word k
  · simp [isWord_ok true (by simpa using hk)]
  · simp [isWord_ok false (by simpa using hk)]

theorem takeWord_ne_error {k : Keyword} {s : Stop} : (takeWord k).run c ≠ .error s := by
  by_cases hk : c.token = .word k
  · simp [takeWord_yes hk]
  · simp [takeWord_no hk]

theorem takeMark_ne_error {m : Mark} {s : Stop} : (takeMark m).run c ≠ .error s := by
  by_cases hm : c.token = .mark m
  · simp [takeMark_yes hm]
  · simp [takeMark_no hm]

theorem failAt_run {span : Span} {e : SyntaxError} :
    (failAt span e : Parser α).run c = .error (.failed ⟨c.blame (span.at e), c.rest⟩) := by
  unfold failAt Cursor.blame
  rw [get_bind]
  cases c.current.failure <;> cases c.token <;> rfl

theorem unexpected_run {what : String} :
    (unexpected what : Parser α).run c =
      .error (.failed ⟨c.blame (c.span.at (.expected what)), c.rest⟩) := failAt_run

/-- If `x` has no result from the cursor on, then because of an error. The lexemes it has used,
where it stops and the error satisfy `B`. -/
def Fails (c : Cursor) (x : Parser α) (B : List Lexeme → Cursor → Spanned SyntaxError → Prop) :
    Prop :=
  ∀ s, x.run c = .error s → ∃ e used c', s = .failed ⟨e, c'.rest⟩ ∧ c.Moves used c' ∧ B used c' e

theorem Reads.and {Q R : α → List Lexeme → Cursor → Prop} (hQ : Reads c x Q) (hR : Reads c x R) :
    Reads c x fun a used c' => Q a used c' ∧ R a used c' := by
  intro a c' hrun
  obtain ⟨used, hm, ha⟩ := hQ a c' hrun
  obtain ⟨more, hm', ha'⟩ := hR a c' hrun
  obtain rfl := hm.lexemes_unique hm'
  exact ⟨used, hm, ha, ha'⟩

namespace Fails

theorem never {a : α} (h : x.run c = .ok (a, c')) : Fails c x B := by
  intro f hrun
  cases h.symm.trans hrun

theorem pure {a : α} : Fails c (Pure.pure a) B := never rfl

theorem of_run {y : Parser α} (hrun : x.run c = y.run c) (h : Fails c y B) : Fails c x B :=
  fun f hx => h f (hrun ▸ hx)

theorem bind {Q : α → List Lexeme → Cursor → Prop} {f : α → Parser β} (h : Fails c x B)
    (hx : Reads c x Q)
    (hf : ∀ a used c₁, c.Moves used c₁ → Q a used c₁ →
      Fails c₁ (f a) fun more => B (used ++ more)) :
    Fails c (x >>= f) B := by
  intro e hrun
  rw [run_bind] at hrun
  cases hfirst : x.run c with
  | error e' =>
    rw [hfirst] at hrun
    cases hrun
    exact h e hfirst
  | ok r =>
    obtain ⟨a, c₁⟩ := r
    obtain ⟨used, hmoves, hQ⟩ := hx a c₁ hfirst
    rw [hfirst] at hrun
    obtain ⟨e', more, c', hfailed, hmore, hB⟩ := hf a used c₁ hmoves hQ e hrun
    exact ⟨e', used ++ more, c', hfailed, hmoves.trans hmore, hB⟩

theorem after {Q : α → List Lexeme → Cursor → Prop} {f : α → Parser β}
    (h : ∀ e, x.run c ≠ .error e) (hx : Reads c x Q)
    (hf : ∀ a used c₁, c.Moves used c₁ → Q a used c₁ →
      Fails c₁ (f a) fun more => B (used ++ more)) :
    Fails c (x >>= f) B :=
  bind (fun e hrun => absurd hrun (h e)) hx hf

theorem mono (h : Fails c x B)
    (hB : ∀ used c' e, c.Moves used c' → B used c' e → B' used c' e) : Fails c x B' := by
  intro s hrun
  obtain ⟨e, used, c', hfailed, hmoves, he⟩ := h s hrun
  exact ⟨e, used, c', hfailed, hmoves, hB used c' e hmoves he⟩

theorem map {f : α → β} (h : Fails c x B) : Fails c (f <$> x) B := by
  intro e hrun
  rw [map_eq_pure_bind, run_bind] at hrun
  cases hx : x.run c with
  | error e' =>
    rw [hx] at hrun
    cases hrun
    exact h e hx
  | ok r =>
    rw [hx] at hrun
    cases hrun

theorem get {f : Cursor → Parser α} (h : Fails c (f c) B) :
    Fails c (MonadState.get >>= f) B := h

theorem here {f : Location → Parser α} (h : Fails c (f c.span.first) B) :
    Fails c (Parser.here >>= f) B := h

theorem known {a : β} {f : β → Parser α} (h : Fails c (f a) B) :
    Fails c (Pure.pure a >>= f) B := h

theorem spanned {first : Location} {f : Span → α} :
    Fails c (do return f (← spanFrom first)) B := pure

theorem raise {span : Span} {e : SyntaxError} (h : B [] c (span.at e)) :
    Fails c (Parser.raise span e : Parser α) B := by
  intro f hrun
  cases hrun
  exact ⟨_, [], c, rfl, .refl c, h⟩

theorem failAt {span : Span} {e : SyntaxError} (h : B [] c (c.blame (span.at e))) :
    Fails c (Parser.failAt span e : Parser α) B := by
  intro f hrun
  rw [failAt_run] at hrun
  cases hrun
  exact ⟨_, [], c, rfl, .refl c, h⟩

theorem unexpected {what : String} (h : B [] c (c.blame (c.span.at (.expected what)))) :
    Fails c (Parser.unexpected what : Parser α) B := failAt h

section

/-! A small rule fails where it begins, for what it has expected there. -/

variable (h : ∀ what, B [] c (c.blame (c.span.at (.expected what))))
include h

theorem word (k : Keyword) (what : String) : Fails c (Parser.word k what) B := by
  by_cases hk : c.token = .word k
  · exact never (word_ok hk)
  · unfold Parser.word
    intro f hrun
    rw [bind_ok (takeWord_no hk)] at hrun
    exact unexpected (h what) f hrun

theorem mark (m : Mark) (what : String) : Fails c (Parser.mark m what) B := by
  by_cases hm : c.token = .mark m
  · exact never (mark_ok hm)
  · unfold Parser.mark
    intro f hrun
    rw [bind_ok (takeMark_no hm)] at hrun
    exact unexpected (h what) f hrun

theorem ident (what : String) : Fails c (Parser.ident what) B := by
  refine get ?_
  split
  · exact never rfl
  · exact unexpected (h what)

theorem listGoesOn (what : String) : Fails c (Parser.listGoesOn what) B := by
  by_cases hcomma : c.token = .mark .comma
  · exact never (listGoesOn_comma hcomma)
  by_cases hsemicolon : c.token = .mark .semicolon
  · exact never (listGoesOn_semicolon hsemicolon)
  intro f hrun
  unfold Parser.listGoesOn at hrun
  rw [bind_ok (takeMark_no hcomma)] at hrun
  change (Parser.takeMark .semicolon >>= _).run c = _ at hrun
  rw [bind_ok (takeMark_no hsemicolon)] at hrun
  exact unexpected (h what) f hrun

theorem listFollows (what : String) : Fails c (Parser.listFollows what) B := by
  by_cases hwith : c.token = .word .withArgs
  · exact never (listFollows_with hwith)
  by_cases hsemicolon : c.token = .mark .semicolon
  · exact never (listFollows_semicolon hsemicolon)
  intro f hrun
  unfold Parser.listFollows at hrun
  rw [bind_ok (takeWord_no hwith)] at hrun
  change (Parser.takeMark .semicolon >>= _).run c = _ at hrun
  rw [bind_ok (takeMark_no hsemicolon)] at hrun
  exact unexpected (h what) f hrun

end

end Fails

/-! ### Right sides of operators -/

end Parser

/-- If the lexeme is an operator, `next` begins its right side. -/
def Lexeme.Leads (l next : Lexeme) : Prop := ∀ o, l.token = .op o → next.token.OpensExpr

/-- Every operator, unless it is the last of the lexemes, is followed by its right side. -/
def Supplied (ls : List Lexeme) : Prop := ls.IsChain Lexeme.Leads

namespace Supplied

variable {l next : Lexeme} {xs ys : List Lexeme} {t : Token}

theorem append (hxs : Supplied (xs ++ [l])) (hys : Supplied (l :: ys)) :
    Supplied (xs ++ l :: ys) := List.isChain_split.2 ⟨hxs, hys⟩

theorem cons (hl : l.token = t) (ht : ∀ o, t ≠ .op o) (h : Supplied ys) : Supplied (l :: ys) := by
  cases ys with
  | nil => exact .singleton l
  | cons next ys => exact .cons_cons (fun o ho => absurd (hl.symm.trans ho) (ht o)) h

theorem single (l : Lexeme) : Supplied [l] := .singleton l

theorem pair (hl : l.token = t) (ht : ∀ o, t ≠ .op o) (next : Lexeme) : Supplied ([l] ++ [next]) :=
  cons hl ht (single next)

theorem moves {c c' : Cursor} (hm : c.Moves ys c') (hxs : Supplied (xs ++ [c.current]))
    (hys : Supplied (ys ++ [c'.current])) : Supplied (xs ++ ys ++ [c'.current]) := by
  cases ys with
  | nil =>
    obtain rfl := hm.eq_of_nil
    rwa [List.append_nil]
  | cons l ys =>
    obtain ⟨rfl, -⟩ := hm.cons
    rw [List.append_assoc]
    exact append hxs hys

end Supplied

mutual

theorem Expr.Spelled.supplied {e : Expr} {ls : List Lexeme} (h : e.Spelled ls) (next : Lexeme) :
    Supplied (ls ++ [next]) := by
  match e with
  | .int .. =>
    cases h with
    | int hl => exact .pair hl nofun next
  | .float .. =>
    cases h with
    | float hl => exact .pair hl nofun next
  | .var _ =>
    cases h with
    | var hl => exact .pair hl nofun next
  | .binary op lhs rhs =>
    cases h with
    | @binary _ ls l _ _ rs hlhs hl hrhs =>
      obtain ⟨r, rest, rfl, hr⟩ := hrhs.opens
      have hright : Supplied (l :: r :: (rest ++ [next])) :=
        .cons_cons (fun _ _ => hr) (hrhs.supplied next)
      simpa using (hlhs.supplied l).append hright
  | .call callee args span =>
    cases h with
    | call hk hx hargs =>
      refine .cons hk nofun (.cons hx nofun ?_)
      cases hargs with
      | none hs => exact .pair hs nofun next
      | some hw hitems => exact .cons hw nofun (Expr.supplied_items hitems next)

theorem Expr.supplied_items {es : List Expr} {ls : List Lexeme} (h : Items Expr.Spelled es ls)
    (next : Lexeme) : Supplied (ls ++ [next]) := by
  match es with
  | [] => cases h
  | e :: rest =>
    cases h with
    | last he hs =>
      rw [List.append_assoc]
      exact (he.supplied _).append (.pair hs nofun next)
    | more he hc hrest =>
      rw [List.append_assoc]
      exact (he.supplied _).append (.cons hc nofun (Expr.supplied_items hrest next))

end

namespace Parser

variable {α β : Type} {x : Parser α} {c c₁ c' : Cursor} {used more : List Lexeme}
  {e : Spanned SyntaxError}

/-- How a rule of expressions that has used some lexemes ends in an error where the cursor stands:
it lacks there what it expected, or it lacks the right side of the operator it has just passed. -/
inductive ExprBlame : List Lexeme → Cursor → Spanned SyntaxError → Prop
  | here {used c what} : Supplied (used ++ [c.current]) →
      ExprBlame used c (c.blame (c.span.at (.expected what)))
  | operator {used l o c} : Supplied (used ++ [l]) → l.token = .op o → ¬ c.token.OpensExpr →
      ExprBlame (used ++ [l]) c (c.blame (l.span.at .missingRightSide))

namespace ExprBlame

theorem first {what : String} : ExprBlame [] c (c.blame (c.span.at (.expected what))) :=
  .here (.single _)

theorem behind (hused : Supplied (used ++ [c.current])) (hm : c.Moves more c')
    (h : ExprBlame more c' e) : ExprBlame (used ++ more) c' e := by
  cases h with
  | here hmore => exact .here (.moves hm hused hmore)
  | operator hmore hl hc =>
    obtain ⟨c₁, hm₁, hlast⟩ := hm.split
    obtain ⟨rfl, -⟩ := hlast.advance
    rw [← List.append_assoc]
    exact .operator (.moves hm₁ hused hmore) hl hc

end ExprBlame

namespace Fails

theorem step {Q : α → List Lexeme → Cursor → Prop} {f : α → Parser β} (h : Fails c x ExprBlame)
    (hx : Reads c x Q)
    (hf : ∀ a used c₁, c.Moves used c₁ → Q a used c₁ →
      Supplied (used ++ [c₁.current]) ∧ Fails c₁ (f a) ExprBlame) :
    Fails c (x >>= f) ExprBlame := by
  refine h.bind hx fun a used c₁ hm hQ => ?_
  obtain ⟨hused, hfails⟩ := hf a used c₁ hm hQ
  exact hfails.mono fun more c' e hmore he => he.behind hused hmore

end Fails

/-! ### Expressions -/

theorem atom_found {bound : Nat} (h : c.HasEnd) (hbound : 8 * c.ahead.length + 2 ≤ bound) :
    Reads c (atom bound) fun r used _ =>
      (r.isSome ↔ c.token.OpensExpr) ∧ (r = none → used = []) := by
  cases bound with
  | zero => omega
  | succ bound =>
    refine .get ?_
    split
    · rename_i hcall
      refine .map ((call_reads h (by omega)).mono fun _ _ _ _ _ => ?_)
      simp [hcall, Token.OpensExpr]
    · rename_i hx
      refine (Reads.advance h hx (by simp)).bind fun _ _ _ _ _ => .pure ?_
      simp [hx, Token.OpensExpr]
    · rename_i hn
      refine (Reads.advance h hn (by simp)).bind fun _ _ _ _ _ => .pure ?_
      simp [hn, Token.OpensExpr]
    · rename_i hx
      refine (Reads.advance h hx (by simp)).bind fun _ _ _ _ _ => .pure ?_
      simp [hx, Token.OpensExpr]
    · rename_i hcall hname hint hfloat
      have hnot : ¬ c.token.OpensExpr := by
        unfold Token.OpensExpr
        split
        · exact absurd ‹_› (hname _)
        · exact absurd ‹_› (hint _)
        · exact absurd ‹_› (hfloat _)
        · exact absurd ‹_› hcall
        · exact not_false
      exact .pure ⟨by simpa using hnot, fun _ => rfl⟩

theorem climb_clamp {bound min : Nat} {lhs : Expr} (hmin : 5 ≤ min) :
    climb bound min lhs = climb bound 5 lhs := by
  cases bound with
  | zero => rfl
  | succ bound =>
    have hnone (o : Operator) : o.precedence < min := Nat.lt_of_lt_of_le o.precedence_lt hmin
    simp only [climb, hnone, Operator.precedence_lt, if_true]

theorem exprFrom_clamp {bound n : Nat} : exprFrom bound n = exprFrom bound (min n 5) := by
  rcases Nat.le_total n 5 with hn | hn
  · rw [Nat.min_eq_left hn]
  · rw [Nat.min_eq_right hn]
    cases bound with
    | zero => rfl
    | succ bound => simp only [exprFrom, climb_clamp hn]

/-- An expression is found just in case one begins at the cursor, and nothing is passed if none
does. -/
theorem exprFrom_found {bound n : Nat} (h : c.HasEnd)
    (hbound : 8 * c.ahead.length + 3 ≤ bound) :
    Reads c (exprFrom bound n) fun r used _ =>
      (r.isSome ↔ c.token.OpensExpr) ∧ (r = none → used = []) := by
  rw [exprFrom_clamp]
  cases bound with
  | zero => omega
  | succ bound =>
    refine ((atom_reads h (by omega)).and (atom_found h (by omega))).bind
      fun r base c₁ hm hatom => ?_
    obtain ⟨hr, hfound, hnone⟩ := hatom
    cases r with
    | none => exact .pure ⟨hfound, by simpa using hnone⟩
    | some lhs =>
      obtain ⟨hlhs, hlevel⟩ := hr lhs rfl
      have hlength := hm.length
      have hopens : c.token.OpensExpr := hfound.1 rfl
      refine .map ((climb_reads (hm.hasEnd h) (by omega) hlhs ?_ ?_).mono fun _ _ _ _ _ => ?_)
      · exact hlevel ▸ Nat.min_le_right n 5
      · exact fun o _ => hlevel ▸ Nat.le_of_lt o.precedence_lt
      · simpa using hopens

mutual

theorem exprFrom_fails {c : Cursor} {bound min : Nat} (h : c.HasEnd)
    (hbound : 8 * c.ahead.length + 3 ≤ bound) :
    Fails c (exprFrom bound min) fun used c' e => c.token.OpensExpr ∧ ExprBlame used c' e := by
  match bound with
  | bound + 1 =>
    have hatom : 8 * c.ahead.length + 2 ≤ bound := by omega
    refine (atom_fails h hatom).bind ((atom_reads h hatom).and (atom_found h hatom))
      fun r base c₁ hm ⟨hr, hfound, hnone⟩ => ?_
    cases r with
    | none => exact .pure
    | some lhs =>
      have hlength := hm.length
      refine .map ((climb_fails (hm.hasEnd h) (by omega)).mono fun more c' e hmore he => ?_)
      exact ⟨hfound.1 rfl, he.behind ((hr lhs rfl).1.1.supplied _) hmore⟩

theorem climb_fails {c : Cursor} {bound min : Nat} {lhs : Expr} (h : c.HasEnd)
    (hbound : 8 * c.ahead.length + 1 ≤ bound) : Fails c (climb bound min lhs) ExprBlame := by
  match bound with
  | bound + 1 =>
    refine .get ?_
    split
    · rename_i o ho
      split
      · exact .pure
      refine .after (fun _ => advance_ne_error) (Reads.advance h ho nofun)
        fun _ used c₁ hm ⟨l, hl, hspan, hused⟩ => ?_
      subst hused
      have hlength := hm.length
      rw [List.length_singleton] at hlength
      have h₁ := hm.hasEnd h
      have hright (hopens : c₁.token.OpensExpr) : Supplied ([l] ++ [c₁.current]) :=
        .cons_cons (fun _ _ => hopens) (.singleton _)
      refine .bind ?_ ((exprFrom_reads h₁ (by omega) o.precedence_lt).and
        (exprFrom_found h₁ (by omega))) fun r more c₂ hm₂ ⟨hr, hfound, hnone⟩ => ?_
      · refine (exprFrom_fails h₁ (by omega)).mono ?_
        rintro more c' e hmore ⟨hopens, he⟩
        exact he.behind (hright hopens) hmore
      cases r with
      | none =>
        obtain rfl := hnone rfl
        obtain rfl := hm₂.eq_of_nil
        refine .failAt ?_
        rw [← hspan]
        exact show ExprBlame ([] ++ [l]) _ _ from .operator (.single l) hl (by simpa using hfound)
      | some rhs =>
        obtain ⟨hrhs, -⟩ := hr rhs rfl
        have hlength₂ := hm₂.length
        have hused := Supplied.moves hm₂ (hright (hfound.1 rfl)) (hrhs.1.supplied _)
        refine (climb_fails (hm₂.hasEnd h₁) (by omega)).mono fun rest c' e hrest he => ?_
        simpa using he.behind hused hrest
    · exact .pure

theorem atom_fails {c : Cursor} {bound : Nat} (h : c.HasEnd)
    (hbound : 8 * c.ahead.length + 2 ≤ bound) :
    Fails c (atom bound) fun used c' e => c.token.OpensExpr ∧ ExprBlame used c' e := by
  match bound with
  | bound + 1 =>
    refine .get ?_
    split
    · rename_i hcall
      refine .map ((call_fails h (by omega)).mono fun used c' e _ he => ⟨?_, he⟩)
      simp [hcall, Token.OpensExpr]
    all_goals exact .never rfl

theorem call_fails {c : Cursor} {bound : Nat} (h : c.HasEnd)
    (hbound : 8 * c.ahead.length + 1 ≤ bound) : Fails c (call bound) ExprBlame := by
  match bound with
  | bound + 1 =>
    refine .here (.step (.word (fun _ => .first) .call _) (Reads.word h .call _)
      fun _ _ c₁ hm₁ ⟨k, hk, hused⟩ => ?_)
    subst hused
    refine ⟨.pair hk nofun _, ?_⟩
    have h₁ := hm₁.hasEnd h
    refine .step (.ident (fun _ => .first) _) (Reads.ident h₁ _)
      fun callee _ c₂ hm₂ ⟨x, hx, _, hused⟩ => ?_
    subst hused
    refine ⟨.pair hx nofun _, ?_⟩
    have h₂ := hm₂.hasEnd h₁
    refine .step (.listFollows (fun _ => .first) _) (Reads.listFollows h₂ _)
      fun follows _ c₃ hm₃ ⟨w, hw, hused⟩ => ?_
    subst hused
    have hlength := (hm₁.trans (hm₂.trans hm₃)).length
    simp only [List.length_append, List.length_singleton] at hlength
    split
    · rename_i hfollows
      rw [if_pos hfollows] at hw
      refine ⟨.pair hw nofun _, ?_⟩
      have h₃ := hm₃.hasEnd h₂
      exact .step (arguments_fails h₃ (by omega)) (arguments_reads h₃ (by omega))
        fun args ls c₄ _ hargs => ⟨Expr.supplied_items hargs.1 _, .spanned⟩
    · rename_i hfollows
      rw [if_neg hfollows] at hw
      exact ⟨.pair hw nofun _, .known .spanned⟩

theorem arguments_fails {c : Cursor} {bound : Nat} (h : c.HasEnd)
    (hbound : 8 * c.ahead.length + 5 ≤ bound) : Fails c (arguments bound) ExprBlame := by
  match bound with
  | bound + 1 =>
    refine .step (expr_fails h (by omega)) (expr_reads h (by omega)) fun e ls c₁ hm he => ?_
    refine ⟨he.1.supplied _, ?_⟩
    have h₁ := hm.hasEnd h
    refine .step (.listGoesOn (fun _ => .first) _) (Reads.listGoesOn h₁ _)
      fun goes _ c₂ hm₂ ⟨s, hs, hused⟩ => ?_
    subst hused
    refine ⟨.pair hs nofun _, ?_⟩
    have hlength := (hm.trans hm₂).length
    rw [List.length_append, List.length_singleton] at hlength
    split
    · have h₂ := hm₂.hasEnd h₁
      exact .step (arguments_fails h₂ (by omega)) (arguments_reads h₂ (by omega))
        fun args rs _ _ hargs => ⟨Expr.supplied_items hargs.1 _, .pure⟩
    · exact .pure

theorem expr_fails {c : Cursor} {bound : Nat} (h : c.HasEnd)
    (hbound : 8 * c.ahead.length + 4 ≤ bound) : Fails c (expr bound) ExprBlame := by
  match bound with
  | bound + 1 =>
    refine .bind ((exprFrom_fails h (by omega)).mono fun _ _ _ _ he => he.2)
      (exprFrom_found h (by omega)) fun r used c₁ hm ⟨_, hnone⟩ => ?_
    cases r with
    | none =>
      obtain rfl := hnone rfl
      exact .unexpected .first
    | some e => exact .pure

end

end Parser

/-! ### Spans of expressions -/

theorem spanOf_append {xs ys : List Lexeme} (hxs : xs ≠ []) (hys : ys ≠ []) :
    spanOf (xs ++ ys) = (spanOf xs).through (spanOf ys) := by
  obtain ⟨x, xs, rfl⟩ := List.exists_cons_of_ne_nil hxs
  obtain ⟨y, ys, rfl⟩ := List.exists_cons_of_ne_nil hys
  simp [spanOf, Span.through, endOf]

theorem Expr.Spelled.span {e : Expr} {ls : List Lexeme} (h : e.Spelled ls) : e.span = spanOf ls := by
  cases h with
  | int | float | var | call => rfl
  | @binary lhs ls l _ rhs rs hlhs _ hrhs =>
    rw [spanOf_append hlhs.ne_nil (List.cons_ne_nil l rs), ← List.singleton_append,
      spanOf_append (List.cons_ne_nil l []) hrhs.ne_nil, Expr.span, hlhs.span, hrhs.span]
    rfl

/-- The errors that give way neither to a failed read nor to an unrecognized lexeme. -/
def SyntaxError.IsBlind : SyntaxError → Prop
  | invalidAssignmentTarget | notAStatement | voidParameter => True
  | _ => False

namespace Parser

variable {α β : Type} {x : Parser α} {c c₁ c' : Cursor} {used more : List Lexeme}
  {e : Spanned SyntaxError} {B : List Lexeme → Cursor → Spanned SyntaxError → Prop}

/-- How a rule that has used some lexemes ends in an error where the cursor stands: it lacks
something there, it lacks the right side of the operator it has just passed, or what it has passed
is not what it seemed to become. -/
inductive Blame : List Lexeme → Cursor → Spanned SyntaxError → Prop
  | here {used c what} : Blame used c (c.blame (c.span.at (.expected what)))
  | operator {used l c} : Blame (used ++ [l]) c (c.blame (l.span.at .missingRightSide))
  | passed {used ls more c e} : ls ≠ [] → e.IsBlind →
      Blame (used ++ (ls ++ more)) c ((spanOf ls).at e)

namespace Blame

theorem behind (h : Blame more c' e) : Blame (used ++ more) c' e := by
  cases h with
  | here => exact .here
  | operator =>
    rw [← List.append_assoc]
    exact .operator
  | passed hls he =>
    rw [← List.append_assoc]
    exact .passed hls he

theorem of_expr (h : ExprBlame used c' e) : Blame used c' e := by
  cases h with
  | here => exact .here
  | operator => exact .operator

end Blame

namespace Fails

theorem next {Q : α → List Lexeme → Cursor → Prop} {f : α → Parser β} (h : Fails c x Blame)
    (hx : Reads c x Q) (hf : ∀ a used c₁, c.Moves used c₁ → Q a used c₁ → Fails c₁ (f a) Blame) :
    Fails c (x >>= f) Blame :=
  h.bind hx fun a used c₁ hm hQ => (hf a used c₁ hm hQ).mono fun _ _ _ _ he => he.behind

theorem of_expr (h : Fails c x ExprBlame) : Fails c x Blame := h.mono fun _ _ _ _ he => .of_expr he

theorem skip {Q : α → List Lexeme → Cursor → Prop} {f : α → Parser β}
    (h : ∀ f, x.run c ≠ .error f) (hx : Reads c x Q)
    (hf : ∀ a used c₁, c.Moves used c₁ → Q a used c₁ → Fails c₁ (f a) Blame) :
    Fails c (x >>= f) Blame := next (fun f hrun => absurd hrun (h f)) hx hf

end Fails

theorem discard_ne_error {m : Mark} {s : Stop} :
    (discard (takeMark m)).run c ≠ .error s := by
  by_cases hm : c.token = .mark m
  · simp [discard_ok (takeMark_yes hm)]
  · simp [discard_ok (takeMark_no hm)]

theorem typeExpr_fails (h : c.HasEnd) : Fails c typeExpr Blame := by
  refine .get ?_
  dsimp only
  split
  · rename_i hstar
    refine .skip (fun _ => advance_ne_error) (Reads.advance h hstar nofun) fun _ _ _ _ _ => ?_
    rw [pure_bind]
    refine .get ?_
    split
    · exact .never rfl
    · exact .unexpected .here
  · rw [pure_bind]
    refine .get ?_
    split
    · exact .never rfl
    · exact .unexpected .here

/-! ### Statements -/

theorem exprStmt_fails {bound : Nat} {first : Location} (h : c.HasEnd)
    (hbound : 8 * c.ahead.length + 4 ≤ bound) : Fails c (exprStmt bound first) Blame := by
  have hpassed {e : Expr} {c' : Cursor} {ls more : List Lexeme} {err : SyntaxError}
      (he : e.Grouped ls) (herr : err.IsBlind) : Blame (ls ++ more) c' (e.span.at err) := by
    rw [he.1.span]
    exact show Blame ([] ++ (ls ++ more)) _ _ from .passed he.1.ne_nil herr
  refine .bind (.of_expr (expr_fails h hbound)) (expr_reads h hbound) fun e ls c₁ hm he => ?_
  have h₁ := hm.hasEnd h
  refine .after (fun _ => takeMark_ne_error) (Reads.takeMark h₁ .assign) fun found used c₂ hm₂ _ => ?_
  have hlength := (hm.trans hm₂).length
  rw [List.length_append] at hlength
  split
  · split
    · have h₂ := hm₂.hasEnd h₁
      refine .bind ?_ (expr_reads h₂ (by omega)) fun _ _ _ _ _ => .spanned
      exact (Fails.of_expr (expr_fails h₂ (by omega))).mono fun _ _ _ _ he => he.behind.behind
    · exact .raise (hpassed he trivial)
  refine .after (fun _ => takeWord_ne_error) (Reads.takeWord (hm₂.hasEnd h₁) .print)
    fun found used c₃ hm₃ _ => ?_
  split
  · exact .spanned
  split
  · exact .pure
  · exact .raise (hpassed he trivial)

theorem caseOperator_ne_error {s : Stop} : caseOperator.run c ≠ .error s := by
  unfold caseOperator
  rw [get_bind]
  split
  · exact nofun
  · exact nofun

section

variable {c : Cursor} {bound : Nat} {first : Location} (h : c.HasEnd)
include h

theorem assertTail_fails (hbound : 8 * c.ahead.length + 4 ≤ bound) :
    Fails c (assertTail bound first) Blame := by
  refine .next (.of_expr (expr_fails h hbound)) (expr_reads h hbound) fun e ls c₁ hm _ => ?_
  exact .next (.mark (fun _ => .here) .bang _) (Reads.mark (hm.hasEnd h) .bang _)
    fun _ _ _ _ _ => .spanned

theorem readTail_fails : Fails c (readTail first) Blame :=
  .next (.ident (fun _ => .here) _) (Reads.ident h _) fun _ _ _ _ _ => .spanned

theorem retTail_fails (hbound : 8 * c.ahead.length + 4 ≤ bound) :
    Fails c (retTail bound first) Blame := by
  refine .skip (fun _ => takeMark_ne_error) (Reads.takeMark h .bang) fun found _ c₁ hm _ => ?_
  have h₁ := hm.hasEnd h
  have hlength := hm.length
  split
  · exact .spanned
  · refine .next (.of_expr (expr_fails h₁ (by omega))) (expr_reads h₁ (by omega))
      fun e ls c₂ hm₂ _ => ?_
    exact .next (.mark (fun _ => .here) .bang _) (Reads.mark (hm₂.hasEnd h₁) .bang _)
      fun _ _ _ _ _ => .spanned

theorem declareTail_fails (hbound : 8 * c.ahead.length + 4 ≤ bound) :
    Fails c (declareTail bound first) Blame := by
  refine .next (.ident (fun _ => .here) _) (Reads.ident h _) fun target _ c₁ hm _ => ?_
  refine .next (.mark (fun _ => .here) .colon _) (Reads.mark (hm.hasEnd h) .colon _)
    fun _ _ c₂ hm₂ _ => ?_
  have hm₂ := hm.trans hm₂
  have h₂ := hm₂.hasEnd h
  refine .next (typeExpr_fails h₂) (Reads.typeExpr h₂) fun type _ c₃ hm₃ _ => ?_
  have hm₃ := hm₂.trans hm₃
  refine .skip (fun _ => takeMark_ne_error) (Reads.takeMark (hm₃.hasEnd h) .assign)
    fun found _ c₄ hm₄ _ => ?_
  have hm₄ := hm₃.trans hm₄
  have h₄ := hm₄.hasEnd h
  have hlength := hm₄.length
  split
  · rw [map_eq_pure_bind, bind_assoc]
    exact .next (.of_expr (expr_fails h₄ (by omega))) (expr_reads h₄ (by omega))
      fun _ _ _ _ _ => .known .spanned
  · exact .known .spanned

abbrev StmtsFail (bound : Nat) : Prop :=
  ∀ {c : Cursor}, c.HasEnd → 8 * c.ahead.length + 6 ≤ bound → Fails c (stmts bound) Blame

theorem loopTail_fails (hbound : 8 * c.ahead.length + 6 ≤ bound) (hstmts : StmtsFail bound) :
    Fails c (loopTail bound first) Blame := by
  refine .next (hstmts h hbound) (stmts_reads h hbound) fun body _ c₁ hm _ => ?_
  refine .next (.word (fun _ => .here) .while _) (Reads.word (hm.hasEnd h) .while _)
    fun _ _ c₂ hm₂ _ => ?_
  have hm₂ := hm.trans hm₂
  have h₂ := hm₂.hasEnd h
  have hlength := hm₂.length
  exact .next (.of_expr (expr_fails h₂ (by omega))) (expr_reads h₂ (by omega))
    fun _ _ _ _ _ => .spanned

theorem branchTail_fails (hbound : 8 * c.ahead.length + 5 ≤ bound) (hstmts : StmtsFail bound)
    (hcases : ∀ {c : Cursor} (lead : Ident), c.HasEnd → 8 * c.ahead.length + 5 ≤ bound →
      Fails c (cases bound lead) Blame) : Fails c (branchTail bound first) Blame := by
  have hend {c : Cursor} {f : Unit → Span → Option Stmt} (h : c.HasEnd) :
      Fails c (do
        let u ← word .endBranch "end of branch"
        return f u (← spanFrom first)) Blame :=
    .next (.word (fun _ => .here) .endBranch _) (Reads.word h .endBranch _)
      fun _ _ _ _ _ => .spanned
  refine .next (.ident (fun _ => .here) _) (Reads.ident h _) fun lead _ c₁ hm ⟨_, _, _, hused⟩ => ?_
  subst hused
  refine .next (.word (fun _ => .here) .of _) (Reads.word (hm.hasEnd h) .of _)
    fun _ _ c₂ hm₂ _ => ?_
  have hm₂ := hm.trans hm₂
  have h₂ := hm₂.hasEnd h
  have hlength := hm₂.length
  simp only [List.length_append, List.length_singleton] at hlength
  refine .next (hcases lead h₂ (by omega)) (cases_reads lead h₂ (by omega)) fun cs _ c₃ hm₃ _ => ?_
  have hlength₃ := hm₃.length
  have hm₃ := hm₂.trans hm₃
  refine .skip (fun _ => takeWord_ne_error) (Reads.takeWord (hm₃.hasEnd h) .otherwise)
    fun found _ c₄ hm₄ _ => ?_
  have hlength₄ := hm₄.length
  have hm₄ := hm₃.trans hm₄
  split
  · refine .skip (fun _ => discard_ne_error) (Reads.optional (hm₄.hasEnd h) .colon)
      fun _ _ c₅ hm₅ _ => ?_
    have hlength₅ := hm₅.length
    have h₅ := (hm₄.trans hm₅).hasEnd h
    rw [map_eq_pure_bind, bind_assoc]
    exact .next (hstmts h₅ (by omega)) (stmts_reads h₅ (by omega))
      fun _ _ _ hm₆ _ => .known (hend (hm₆.hasEnd h₅))
  · exact .known (hend (hm₄.hasEnd h))

end

mutual

theorem stmts_fails {c : Cursor} {bound : Nat} (h : c.HasEnd)
    (hbound : 8 * c.ahead.length + 6 ≤ bound) : Fails c (stmts bound) Blame := by
  match bound with
  | bound + 1 =>
    refine .next (stmt?_fails h (by omega)) (stmt?_reads h (by omega)) fun r used c₁ hm hr => ?_
    cases hr with
    | none => exact .pure
    | @some ks s ls hks hs hspan =>
      have hlength := hm.length
      have hpos := List.length_pos_iff.2 hs.ne_nil
      rw [List.length_append] at hlength
      exact .next (stmts_fails (hm.hasEnd h) (by omega)) (stmts_reads (hm.hasEnd h) (by omega))
        fun _ _ _ _ _ => .pure

theorem stmt?_fails {c : Cursor} {bound : Nat} (h : c.HasEnd)
    (hbound : 8 * c.ahead.length + 5 ≤ bound) : Fails c (stmt? bound) Blame := by
  match bound with
  | bound + 1 =>
    obtain ⟨x, hx, hrun⟩ := stmt?_begins c
    refine .of_run (hrun bound) ?_
    cases hx with
    | comma hcomma =>
      refine .skip (fun _ => advance_ne_error) (Reads.advance h hcomma nofun)
        fun _ _ c₁ hm ⟨l, _, _, hused⟩ => ?_
      subst hused
      have hlength := hm.length
      rw [List.length_singleton] at hlength
      exact stmt?_fails (hm.hasEnd h) (by omega)
    | led hword htail =>
      refine .skip (fun _ => advance_ne_error) (Reads.advance h hword nofun)
        fun _ _ c₁ hm ⟨l, _, _, hused⟩ => ?_
      subst hused
      have h₁ := hm.hasEnd h
      have hlength := hm.length
      rw [List.length_singleton] at hlength
      cases htail with
      | assert => exact assertTail_fails h₁ (by omega)
      | read => exact readTail_fails h₁
      | abort => exact .spanned
      | ret => exact retTail_fails h₁ (by omega)
      | declare => exact declareTail_fails h₁ (by omega)
      | loop => exact loopTail_fails h₁ (by omega) fun h hbound => stmts_fails h hbound
      | branch =>
        exact branchTail_fails h₁ (by omega) (fun h hbound => stmts_fails h hbound)
          fun lead h hbound => cases_fails lead h hbound
    | expr => exact .map (exprStmt_fails h (by omega))
    | none => exact .pure

theorem cases_fails {c : Cursor} {bound : Nat} (lead : Ident) (h : c.HasEnd)
    (hbound : 8 * c.ahead.length + 5 ≤ bound) : Fails c (cases bound lead) Blame := by
  match bound with
  | bound + 1 =>
    refine .here (.skip (fun _ => caseOperator_ne_error) (caseOperator_reads h) fun op os c₁ hm _ => ?_)
    have h₁ := hm.hasEnd h
    have hlength := hm.length
    refine .next (.of_expr (expr_fails h₁ (by omega))) (expr_reads h₁ (by omega))
      fun rhs ls c₂ hm₂ hrhs => ?_
    have h₂ := hm₂.hasEnd h₁
    have hlength₂ := hm₂.length
    have hpos := List.length_pos_iff.2 hrhs.1.ne_nil
    refine .get (.skip (fun _ => discard_ne_error) (Reads.optional h₂ .colon) fun _ colon c₃ hm₃ _ => ?_)
    have h₃ := hm₃.hasEnd h₂
    have hlength₃ := hm₃.length
    refine .next (stmts_fails h₃ (by omega)) (stmts_reads h₃ (by omega)) fun body bs c₄ hm₄ _ => ?_
    have h₄ := hm₄.hasEnd h₃
    have hlength₄ := hm₄.length
    refine .get ?_
    split
    · rename_i hor
      refine .skip (fun _ => advance_ne_error) (Reads.advance h₄ hor nofun) fun _ _ c₅ hm₅ _ => ?_
      have hlength₅ := hm₅.length
      exact .next (cases_fails lead (hm₅.hasEnd h₄) (by omega))
        (cases_reads lead (hm₅.hasEnd h₄) (by omega)) fun _ _ _ _ _ => .pure
    · exact .pure
    · exact .pure
    · exact .unexpected .here

end

/-! ### Programs -/

theorem param_fails (h : c.HasEnd) : Fails c param Blame := by
  refine .bind (.ident (fun _ => .here) _) (Reads.ident h _) fun name _ c₁ hm ⟨x, _, hspan, hused⟩ => ?_
  subst hused
  have h₁ := hm.hasEnd h
  refine .bind (.mark (fun _ => .here) .colon _) (Reads.mark h₁ .colon _) fun _ _ c₂ hm₂ _ => ?_
  have h₂ := hm₂.hasEnd h₁
  refine .bind ((typeExpr_fails h₂).mono fun _ _ _ _ he => he.behind.behind) (Reads.typeExpr h₂)
    fun type ts c₃ _ _ => ?_
  split
  · refine .bind (Q := fun _ _ _ => False) (.raise ?_) .raise fun _ _ _ _ hfalse => hfalse.elim
    rw [← hspan]
    exact show Blame ([] ++ ([x] ++ _)) _ ((spanOf [x]).at .voidParameter) from
      .passed (List.cons_ne_nil x []) trivial
  · exact .pure

theorem params_fails {bound : Nat} (h : c.HasEnd) (hbound : 8 * c.ahead.length ≤ bound) :
    Fails c (params bound) Blame := by
  induction bound generalizing c with
  | zero => simp [Cursor.ahead] at hbound
  | succ bound ih =>
    refine .next (param_fails h) (param_reads h) fun p ls c₁ hm _ => ?_
    have h₁ := hm.hasEnd h
    refine .next (.listGoesOn (fun _ => .here) _) (Reads.listGoesOn h₁ _)
      fun goes _ c₂ hm₂ ⟨s, _, hused⟩ => ?_
    subst hused
    have hlength := (hm.trans hm₂).length
    rw [List.length_append, List.length_singleton] at hlength
    have h₂ := hm₂.hasEnd h₁
    split
    · exact .next (ih h₂ (by omega)) (params_reads h₂ (by omega)) fun _ _ _ _ _ => .pure
    · exact .pure

theorem resultType_fails (h : c.HasEnd) : Fails c resultType Blame := by
  refine .get ?_
  split
  · exact typeExpr_fails h
  · exact typeExpr_fails h
  · exact .pure

theorem functionDecl_fails {bound : Nat} (h : c.HasEnd) (hbound : 8 * c.ahead.length ≤ bound) :
    Fails c (functionDecl bound) Blame := by
  refine .here (.next (.word (fun _ => .here) .function _) (Reads.word h .function _)
    fun _ _ c₁ hm ⟨k, _, hused⟩ => ?_)
  subst hused
  have h₁ := hm.hasEnd h
  refine .next (resultType_fails h₁) (resultType_reads h₁) fun result rs c₂ hm₂ _ => ?_
  have hm₂ := hm.trans hm₂
  refine .next (.ident (fun _ => .here) _) (Reads.ident (hm₂.hasEnd h) _) fun name _ c₃ hm₃ _ => ?_
  have hm₃ := hm₂.trans hm₃
  refine .next (.listFollows (fun _ => .here) _) (Reads.listFollows (hm₃.hasEnd h) _)
    fun follows _ c₄ hm₄ _ => ?_
  have hm₄ := hm₃.trans hm₄
  have h₄ := hm₄.hasEnd h
  have hlength := hm₄.length
  simp only [List.length_append, List.length_singleton] at hlength
  split
  · refine .next (params_fails h₄ (by omega)) (params_reads h₄ (by omega)) fun params ps c₅ hm₅ _ => ?_
    have h₅ := hm₅.hasEnd h₄
    have hlength₅ := hm₅.length
    exact .next (stmts_fails h₅ (by omega)) (stmts_reads h₅ (by omega)) fun _ _ _ _ _ => .spanned
  · exact .known (.next (stmts_fails h₄ (by omega)) (stmts_reads h₄ (by omega))
      fun _ _ _ _ _ => .spanned)

theorem functionDecls_fails {bound : Nat} (h : c.HasEnd) (hbound : 8 * c.ahead.length + 1 ≤ bound) :
    Fails c (functionDecls bound) Blame := by
  induction bound generalizing c with
  | zero => omega
  | succ bound ih =>
    refine .skip (fun _ => isWord_ne_error) (Reads.isWord .function) fun found _ c₁ hm ⟨hused, _⟩ => ?_
    subst hused
    obtain rfl := hm.eq_of_nil
    split
    · refine .next (functionDecl_fails h (by omega)) (functionDecl_reads h (by omega))
        fun f ls c₂ hm₂ hf => ?_
      have hlength := hm₂.length
      have hpos := List.length_pos_iff.2 hf.ne_nil
      have h₂ := hm₂.hasEnd h
      exact .next (ih h₂ (by omega)) (functionDecls_reads h₂ (by omega)) fun _ _ _ _ _ => .pure
    · exact .pure

theorem entryPoint_fails {bound : Nat} (h : c.HasEnd) (hbound : 8 * c.ahead.length ≤ bound) :
    Fails c (entryPoint bound) Blame := by
  refine .here (.next (.word (fun _ => .here) .main _) (Reads.word h .main _)
    fun _ _ c₁ hm ⟨k, _, hused⟩ => ?_)
  subst hused
  have hlength := hm.length
  rw [List.length_singleton] at hlength
  have h₁ := hm.hasEnd h
  exact .next (stmts_fails h₁ (by omega)) (stmts_reads h₁ (by omega)) fun _ _ _ _ _ => .spanned

theorem program_fails {bound : Nat} {fileName : String} (h : c.HasEnd)
    (hbound : 8 * c.ahead.length + 1 ≤ bound) : Fails c (program bound fileName) Blame := by
  refine .next (functionDecls_fails h hbound) (functionDecls_reads h hbound) fun fs ls c₁ hm _ => ?_
  have h₁ := hm.hasEnd h
  have hlength := hm.length
  refine .skip (fun _ => isWord_ne_error) (Reads.isWord .main) fun found _ c₂ hm₂ ⟨hused, _⟩ => ?_
  subst hused
  obtain rfl := hm₂.eq_of_nil
  split
  · refine .next (entryPoint_fails h₁ (by omega)) (entryPoint_reads h₁ (by omega))
      fun m ms c₃ hm₃ _ => ?_
    have hlength₃ := hm₃.length
    have h₃ := hm₃.hasEnd h₁
    exact .next (functionDecls_fails h₃ (by omega)) (functionDecls_reads h₃ (by omega))
      fun _ _ _ _ _ => .pure
  · exact .pure

/-! ### Whole sources -/

/-- Behind its end a source fails if it was not read to the end. -/
theorem finish_error {s : Stop} (h : finish.run c = .error s) :
    (∃ what, s = .failed ⟨c.blame (c.span.at (.expected what)), c.rest⟩) ∨
      c.token = .eof ∧ ∃ reason, c.advance.current.failure = some reason ∧
        s = .failed ⟨c.advance.span.at (.unreadable reason), c.advance.rest⟩ := by
  unfold finish at h
  rw [get_bind] at h
  split at h
  · rename_i hend
    rw [bind_ok advance_ok, get_bind] at h
    split at h
    · rename_i reason hreason
      cases h
      exact .inr ⟨hend, reason, hreason, rfl⟩
    · cases h
  · rw [run_bind, unexpected_run] at h
    cases h
    exact .inl ⟨_, rfl⟩

/-- How a whole run ends without a result: its rule does, or something follows what the rule has
read, or the source was not read to its end. -/
theorem runWhole_error {p : Nat → Parser α} {Q : α → List Lexeme → Cursor → Prop}
    {lexemes : List Lexeme} {s : Stop}
    (hfails : Fails (.ofLexemes lexemes) (p (boundFor lexemes)) B)
    (hhere : ∀ used c what, B used c (c.blame (c.span.at (.expected what))))
    (hreads : Reads (.ofLexemes lexemes) (p (boundFor lexemes)) Q)
    (h : runWhole p lexemes = .error s) :
    ∃ f used c', s = .failed f ∧ (Cursor.ofLexemes lexemes).Moves used c' ∧
      ((f.unseen = c'.rest ∧ B used c' f.error) ∨
        c'.token = .eof ∧ ∃ reason, c'.advance.current.failure = some reason ∧
          f = ⟨c'.advance.span.at (.unreadable reason), c'.advance.rest⟩) := by
  unfold runWhole at h
  change Prod.fst <$> StateT.run _ _ = _ at h
  rw [run_bind] at h
  cases hrun : (p (boundFor lexemes)).run (.ofLexemes lexemes) with
  | error s' =>
    rw [hrun] at h
    cases h
    obtain ⟨e, used, c', rfl, hm, hB⟩ := hfails s hrun
    exact ⟨_, used, c', rfl, hm, .inl ⟨rfl, hB⟩⟩
  | ok r =>
    obtain ⟨a, c'⟩ := r
    obtain ⟨used, hm, -⟩ := hreads a c' hrun
    rw [hrun] at h
    change Prod.fst <$> StateT.run (finish >>= fun _ => pure a) c' = _ at h
    rw [run_bind] at h
    cases hfinish : finish.run c' with
    | ok r => rw [hfinish] at h; cases h
    | error s' =>
      rw [hfinish] at h
      cases h
      rcases finish_error hfinish with ⟨what, rfl⟩ | ⟨hend, reason, hreason, rfl⟩
      · exact ⟨_, used, c', rfl, hm, .inl ⟨rfl, hhere used c' what⟩⟩
      · exact ⟨_, used, c', rfl, hm, .inr ⟨hend, reason, hreason, rfl⟩⟩

theorem runWhole_ne_outOfBound {p : Nat → Parser α} {lexemes : List Lexeme}
    {Q : α → List Lexeme → Cursor → Prop}
    (hfails : Fails (.ofLexemes lexemes) (p (boundFor lexemes)) B)
    (hreads : Reads (.ofLexemes lexemes) (p (boundFor lexemes)) Q) :
    runWhole p lexemes ≠ .error .outOfBound := by
  intro h
  obtain ⟨f, _, _, hfailed, -⟩ :=
    runWhole_error (hfails.mono fun _ _ _ _ _ => True.intro) (fun _ _ _ => True.intro) hreads h
  cases hfailed

theorem finish_end {r : Unit × Cursor} (h : finish.run c = .ok r) :
    c.token = .eof ∧ c.advance.current.failure = none := by
  have hend := eof_of_finish h
  unfold finish at h
  rw [get_bind, hend] at h
  dsimp only at h
  rw [bind_ok advance_ok, get_bind] at h
  refine ⟨hend, ?_⟩
  cases hfailure : c.advance.current.failure with
  | none => rfl
  | some reason =>
    rw [hfailure] at h
    cases h

/-- What a whole run yields was read up to an end behind which nothing has failed. -/
theorem runWhole_end {p : Nat → Parser α} {Q : α → List Lexeme → Cursor → Prop}
    {lexemes : List Lexeme} {a : α}
    (hreads : Reads (.ofLexemes lexemes) (p (boundFor lexemes)) Q)
    (h : runWhole p lexemes = .ok a) :
    ∃ used c', (Cursor.ofLexemes lexemes).Moves used c' ∧ Q a used c' ∧ c'.token = .eof ∧
      c'.advance.current.failure = none := by
  unfold runWhole at h
  change Prod.fst <$> StateT.run _ _ = _ at h
  rw [run_bind] at h
  cases hrun : (p (boundFor lexemes)).run (.ofLexemes lexemes) with
  | error f => rw [hrun] at h; cases h
  | ok r =>
    obtain ⟨a', c'⟩ := r
    obtain ⟨used, hm, hQ⟩ := hreads a' c' hrun
    rw [hrun] at h
    change Prod.fst <$> StateT.run (finish >>= fun _ => pure a') c' = _ at h
    rw [run_bind] at h
    cases hfinish : finish.run c' with
    | error f => rw [hfinish] at h; cases h
    | ok r =>
      obtain ⟨hend, hread⟩ := finish_end hfinish
      rw [hfinish] at h
      cases h
      exact ⟨used, c', hm, hQ, hend, hread⟩

end Parser

/-- Lexemes with an end among them need no more than the usual bound. -/
theorem Program.ofLexemes_inBound {fileName : String} {ls tail : List Lexeme} {last : Lexeme}
    (hlast : last.token = .eof) :
    ofLexemes fileName (ls ++ last :: tail) ≠ .error .outOfBound := by
  have hend : (Cursor.ofLexemes (ls ++ last :: tail)).HasEnd := Parser.ofLexemes_hasEnd hlast
  exact Parser.runWhole_ne_outOfBound (p := (Parser.program · fileName))
    (Parser.program_fails hend Parser.ofLexemes_bound)
    (Parser.program_reads hend Parser.ofLexemes_bound)

end Quill
