import Mathlib
import Quill.Proofs.Syntax.Acceptance
import Quill.Proofs.Syntax.Bare

/-! # What climbing builds

From any place among lexemes and for any least precedence, climbing takes as many lexemes as it can
and builds the one tree over them whose operators are grouped by precedence. It takes none just in
case no operand begins there, and it gives up just in case an operator is followed by none.
-/
namespace Quill

namespace Expr

/-! ### The tokens of a tree, in order -/

mutual

def tokens : Expr → List Token
  | int n _ => [.integer n]
  | float x _ => [.float x]
  | var x => [.name x.text]
  | binary op lhs rhs => lhs.tokens ++ .op op :: rhs.tokens
  | semi op _ rhs _ => .op op :: rhs.tokens
  | call callee args _ => .word .call :: .name callee.text :: listTokens (.word .withArgs) args

/-- A list with `lead` before it and commas between its items. -/
def listTokens (lead : Token) : List Expr → List Token
  | [] => [.mark .semicolon]
  | e :: rest => lead :: (e.tokens ++ listTokens (.mark .comma) rest)

end

mutual

theorem Spelled.tokens {e : Expr} {ls : List Lexeme} (h : e.Spelled ls) :
    e.tokens = ls.map Lexeme.token := by
  match e with
  | int .. =>
    cases h with
    | int hl => simp [Expr.tokens, hl]
  | float .. =>
    cases h with
    | float hl => simp [Expr.tokens, hl]
  | var _ =>
    cases h with
    | var hl => simp [Expr.tokens, hl]
  | binary op lhs rhs =>
    cases h with
    | binary hlhs hl hrhs => simp [Expr.tokens, hl, hlhs.tokens, hrhs.tokens]
  | call callee args span =>
    cases h with
    | call hk hx hargs =>
      cases hargs with
      | none hs => simp [Expr.tokens, listTokens, hk, hx, hs]
      | some hw hitems => simp [Expr.tokens, hk, hx, listTokens_items hitems, hw]

theorem listTokens_items {es : List Expr} {ls : List Lexeme} (h : Items Expr.Spelled es ls)
    {lead : Token} : listTokens lead es = lead :: ls.map Lexeme.token := by
  match es with
  | [] => cases h
  | e :: rest =>
    cases h with
    | last he hs => simp [listTokens, he.tokens, hs]
    | more he hc hrest => simp [listTokens, he.tokens, hc, listTokens_items hrest]

end

mutual

/-- Lexemes with the tokens of a tree spell it, up to places. -/
theorem exists_spelled {e : Expr} {ls : List Lexeme} (h : ls.map Lexeme.token = e.tokens)
    (hg : e.IsGrouped) : ∃ e' : Expr, e'.Spelled ls ∧ e'.bare = e.bare := by
  match e with
  | int n _ =>
    obtain ⟨l, rfl, hl⟩ := List.map_eq_singleton_iff.1 h
    exact ⟨_, .int hl, rfl⟩
  | float x _ =>
    obtain ⟨l, rfl, hl⟩ := List.map_eq_singleton_iff.1 h
    exact ⟨_, .float hl, rfl⟩
  | var x =>
    obtain ⟨l, rfl, hl⟩ := List.map_eq_singleton_iff.1 h
    exact ⟨_, .var hl, rfl⟩
  | binary op lhs rhs =>
    obtain ⟨ls, rest, rfl, hls, hrest⟩ := List.map_eq_append_iff.1 h
    obtain ⟨l, rs, rfl, hl, hrs⟩ := List.map_eq_cons_iff.1 hrest
    obtain ⟨lhs', hlhs, hbare⟩ := exists_spelled hls hg.1
    obtain ⟨rhs', hrhs, hbare'⟩ := exists_spelled hrs hg.2.1
    exact ⟨_, .binary hlhs hl hrhs, by simp only [bare, hbare, hbare']⟩
  | call callee args _ =>
    obtain ⟨k, rest, rfl, hk, hrest⟩ := List.map_eq_cons_iff.1 h
    obtain ⟨x, ls, rfl, hx, hls⟩ := List.map_eq_cons_iff.1 hrest
    obtain ⟨args', hbare, ⟨rfl, s, rfl, hs⟩ | ⟨w, rs, rfl, hw, hitems⟩⟩ := exists_list hls hg
    · exact ⟨_, .call hk hx (.none hs), by simp only [bare, hbare, Ident.bare]⟩
    · exact ⟨_, .call hk hx (.some hw hitems), by simp only [bare, hbare, Ident.bare]⟩

/-- So do those of a list, which is a semicolon or begins with `lead`. -/
theorem exists_list {es : List Expr} {lead : Token} {ls : List Lexeme}
    (h : ls.map Lexeme.token = listTokens lead es) (hg : AllGrouped es) :
    ∃ es', bareAll es' = bareAll es ∧
      ((es' = [] ∧ ∃ s, ls = [s] ∧ s.token = .mark .semicolon) ∨
        ∃ l rs, ls = l :: rs ∧ l.token = lead ∧ Items Expr.Spelled es' rs) := by
  match es with
  | [] =>
    obtain ⟨s, rfl, hs⟩ := List.map_eq_singleton_iff.1 h
    exact ⟨[], rfl, .inl ⟨rfl, s, rfl, hs⟩⟩
  | e :: rest =>
    obtain ⟨l, ls, rfl, hl, hls⟩ := List.map_eq_cons_iff.1 h
    obtain ⟨ls, rs, rfl, he, hrest⟩ := List.map_eq_append_iff.1 hls
    obtain ⟨e', hspelled, hbare⟩ := exists_spelled he hg.1
    obtain ⟨rest', hbare', ⟨rfl, s, rfl, hs⟩ | ⟨c, rs, rfl, hc, hitems⟩⟩ :=
      exists_list hrest hg.2
    · exact ⟨[e'], by simp only [bareAll, hbare, ← hbare'], .inr ⟨l, _, rfl, hl, .last hspelled hs⟩⟩
    · exact ⟨e' :: rest', by simp only [bareAll, hbare, hbare'],
        .inr ⟨l, _, rfl, hl, .more hspelled hc hitems⟩⟩

end

/-! ### Outermost operators -/

def operators : Expr → List Operator
  | binary op lhs rhs => lhs.operators ++ op :: rhs.operators
  | _ => []

theorem operators_bare (e : Expr) : e.bare.operators = e.operators := by
  match e with
  | binary op lhs rhs => simp only [bare, operators, operators_bare lhs, operators_bare rhs]
  | int .. => rfl
  | float .. => rfl
  | var _ => rfl
  | semi .. => rfl
  | call .. => rfl

/-- Where operators are grouped by precedence, none stands outside a looser one. -/
theorem IsGrouped.level_le {e : Expr} (h : e.IsGrouped) :
    ∀ o ∈ e.operators, e.level ≤ o.precedence := by
  match e with
  | binary op lhs rhs =>
    obtain ⟨hlhs, hrhs, hleft, hright⟩ := h
    intro o ho
    rcases List.mem_append.1 ho with ho | ho
    · exact Nat.le_trans hleft (hlhs.level_le o ho)
    rcases List.mem_cons.1 ho with rfl | ho
    · exact Nat.le_refl _
    · exact Nat.le_trans (Nat.le_of_lt hright) (hrhs.level_le o ho)
  | int .. | float .. | var _ | call .. => simp [operators]

/-- The tree that climbing from the precedence `n` on is to build from the lexemes. -/
structure Climbed (n : Nat) (e : Expr) (ls : List Lexeme) : Prop where
  tokens : e.tokens = ls.map Lexeme.token
  /-- In an operation of precedence `p` the left operand is no operation of a precedence below `p`,
  and the right one none of `p` or below. -/
  grouped : e.IsGrouped
  above : ∀ o ∈ e.operators, n ≤ o.precedence

variable {e : Expr} {n : Nat} {ls : List Lexeme}

theorem Grouped.climbed (h : e.Grouped ls) (hn : min n 5 ≤ e.level) : e.Climbed n ls := by
  refine ⟨h.1.tokens, h.2, fun o ho => ?_⟩
  have hle := h.2.level_le o ho
  have hlt := o.precedence_lt
  omega

theorem Climbed.level (h : e.Climbed n ls) : min n 5 ≤ e.level := by
  cases e with
  | binary op lhs rhs =>
    have hop := h.above op (by simp [operators])
    exact Nat.le_trans (Nat.min_le_left n 5) hop
  | _ => exact Nat.min_le_right n 5

theorem Climbed.grouped_bare (h : e.Climbed n ls) :
    ∃ e' : Expr, e'.Grouped ls ∧ e'.Climbed n ls ∧ e'.bare = e.bare := by
  obtain ⟨e', he', hbare⟩ := exists_spelled h.tokens.symm h.grouped
  have hgrouped : e'.IsGrouped := (isGrouped_bare e').1 (hbare ▸ (isGrouped_bare e).2 h.grouped)
  have hoperators : e'.operators = e.operators := by
    rw [← operators_bare e', hbare, operators_bare]
  exact ⟨e', ⟨he', hgrouped⟩, ⟨he'.tokens, hgrouped, hoperators ▸ h.above⟩, hbare⟩

end Expr

namespace Parser

variable {c c' : Cursor} {bound n : Nat} {used : List Lexeme}

/-- The lexeme `l` is an operator that was passed, what follows it begins no operand, and neither a
failed read nor an unrecognized lexeme explains that. -/
def LacksRightSide (used : List Lexeme) (c' : Cursor) (l : Lexeme) : Prop :=
  ∃ o pre next post, used ++ [c'.current] = pre ++ l :: next :: post ∧ l.token = .op o ∧
    ¬ next.token.OpensExpr ∧ next.failure = none ∧ ∀ text, next.token ≠ .unknown text

theorem not_lacks {l : Lexeme} (h : Supplied (used ++ [c'.current])) :
    ¬ LacksRightSide used c' l := by
  rintro ⟨o, pre, next, post, hused, hl, hnext, -⟩
  rw [hused] at h
  exact hnext ((List.isChain_append_cons_cons.1 h).2.1 o hl)

theorem exprFrom_grouped (h : c.HasEnd) (hbound : 8 * c.ahead.length + 3 ≤ bound) :
    Reads c (exprFrom bound n) fun r used c' =>
      ∀ e ∈ r, e.Grouped used ∧ e.Climbed n used ∧ c'.Below (min n 5) := by
  rw [exprFrom_clamp]
  refine (exprFrom_reads h hbound (Nat.min_le_right n 5)).mono fun r used c' _ hr e he => ?_
  obtain ⟨hgrouped, hlevel, hbelow⟩ := hr e he
  exact ⟨hgrouped, hgrouped.climbed hlevel, hbelow⟩

/-- A tree over the lexemes that is as it should be is the one that climbing builds. -/
theorem exprFrom_climbed {e : Expr} (he : e.Grouped used) (hn : min n 5 ≤ e.level)
    (hm : c.Moves used c') (hbelow : c'.Below (min n 5))
    (hbound : 8 * c.ahead.length + 3 ≤ bound) :
    (exprFrom bound n).run c = .ok (some e, c') := by
  rw [exprFrom_clamp]
  exact exprFrom_ok he hm hn (fun o ho => by have := hbelow o ho; omega) (climb_stops hbelow) bound hbound

/-- Where the right side of the last operator is missing, it is missing nowhere else. -/
theorem eq_of_lacks {l l' : Lexeme} (h : Supplied (used ++ [l]))
    (hl : LacksRightSide (used ++ [l]) c' l') :
    l' = l ∧ c'.current.failure = none ∧ ∀ text, c'.token ≠ .unknown text := by
  obtain ⟨o, pre, next, post, hused, ho, hnext, hfailure, hknown⟩ := hl
  rcases List.eq_nil_or_concat post with rfl | ⟨post, x, rfl⟩
  · have hsplit : used ++ [l] ++ [c'.current] = (pre ++ [l']) ++ [next] := by simpa using hused
    obtain ⟨hinit, hlast⟩ := List.append_inj' hsplit rfl
    obtain rfl := (List.singleton_inj.1 hlast).symm
    obtain ⟨-, hll⟩ := List.append_inj' hinit rfl
    exact ⟨(List.singleton_inj.1 hll).symm, hfailure, hknown⟩
  · have hsplit : used ++ [l] ++ [c'.current] = (pre ++ l' :: next :: post) ++ [x] := by
      simpa using hused
    obtain ⟨hinit, -⟩ := List.append_inj' hsplit rfl
    rw [hinit] at h
    exact absurd ((List.isChain_append_cons_cons.1 h).2.1 o ho) hnext

/-- An error that is not about the lexeme at hand says nothing of a failed read there, nor of an
unrecognized lexeme. -/
theorem missing_of_blame {e : Spanned SyntaxError} (h : (c.blame e).val = .missingRightSide) :
    c.blame e = e ∧ c.current.failure = none ∧ ∀ text, c.token ≠ .unknown text := by
  unfold Cursor.blame at h ⊢
  split at h
  · cases h
  · cases h
  · rename_i hfailure hknown
    exact ⟨rfl, hfailure, hknown⟩

namespace ExprBlame

variable {e : Spanned SyntaxError} {l : Lexeme}

theorem lacks (h : ExprBlame used c e) (hval : e.val = .missingRightSide) :
    ∃ l, LacksRightSide used c l ∧ e.span = l.span := by
  cases h with
  | @here _ _ what =>
    have hexpected := (missing_of_blame (e := c.span.at (.expected what)) hval).1
    cases hval.symm.trans (congrArg Spanned.val hexpected)
  | @operator used l o _ _ hl hnot =>
    obtain ⟨hblame, hfailure, hknown⟩ := missing_of_blame (e := l.span.at .missingRightSide) hval
    exact ⟨l, ⟨o, used, c.current, [], by simp, hl, hnot, hfailure, hknown⟩,
      congrArg Spanned.span hblame⟩

theorem missing (h : ExprBlame used c e) (hl : LacksRightSide used c l) :
    e = l.span.at .missingRightSide := by
  cases h with
  | here hsupplied => exact absurd hl (not_lacks hsupplied)
  | operator hsupplied =>
    obtain ⟨rfl, hfailure, hknown⟩ := eq_of_lacks hsupplied hl
    exact Cursor.blame_known hfailure hknown

end ExprBlame

/-- Any tree as it should be over the tokens that were taken is the tree, up to places. -/
theorem exprFrom_unique {e : Expr} (h : c.HasEnd) (hbound : 8 * c.ahead.length + 3 ≤ bound)
    (hrun : (exprFrom bound n).run c = .ok (some e, c')) :
    ∃ used, c.Moves used c' ∧ e.Climbed n used ∧ e.Spelled used ∧ c'.Below n ∧
      ∀ e' : Expr, e'.Climbed n used → e'.bare = e.bare := by
  obtain ⟨used, hm, hr⟩ := exprFrom_grouped h hbound _ c' hrun
  obtain ⟨hgrouped, hclimbed, hbelow⟩ := hr e rfl
  refine ⟨used, hm, hclimbed, hgrouped.1, ?_, fun e' he' => ?_⟩
  · exact fun o ho => Nat.lt_of_lt_of_le (hbelow o ho) (Nat.min_le_left n 5)
  · obtain ⟨t, ht, htn, hbare⟩ := he'.grouped_bare
    have hrun' := exprFrom_climbed ht htn.level hm hbelow hbound
    obtain ⟨htree, -⟩ := Prod.mk.inj (Except.ok.inj (hrun'.symm.trans hrun))
    rw [← hbare, Option.some.inj htree]

theorem exprFrom_stays (h : c.HasEnd) (hbound : 8 * c.ahead.length + 3 ≤ bound)
    (hrun : (exprFrom bound n).run c = .ok (none, c')) : c' = c := by
  obtain ⟨used, hm, -, hnone⟩ := exprFrom_found h hbound _ c' hrun
  exact (hnone rfl ▸ hm).eq_of_nil

theorem exprFrom_none_iff (h : c.HasEnd) (hbound : 8 * c.ahead.length + 3 ≤ bound) :
    (∃ c', (exprFrom bound n).run c = .ok (none, c')) ↔ ¬ c.token.OpensExpr := by
  constructor
  · rintro ⟨c', hrun⟩
    obtain ⟨_, _, hfound, -⟩ := exprFrom_found h hbound _ c' hrun
    simpa using hfound
  · intro hnot
    cases hrun : (exprFrom bound n).run c with
    | error s =>
      obtain ⟨_, _, _, _, _, hopens, -⟩ := exprFrom_fails h hbound s hrun
      exact absurd hopens hnot
    | ok r =>
      obtain ⟨r, c'⟩ := r
      obtain ⟨_, _, hfound, -⟩ := exprFrom_found h hbound r c' hrun
      cases r with
      | none => exact ⟨c', rfl⟩
      | some e => exact absurd (hfound.1 rfl) hnot

/-- An operator without a right side is what is reported, and nothing else is reported as one. -/
theorem exprFrom_lacks (h : c.HasEnd) (hbound : 8 * c.ahead.length + 3 ≤ bound) :
    ∃ used c', c.Moves used c' ∧
      ((∃ r, (exprFrom bound n).run c = .ok (r, c')) ∨
        ∃ e, (exprFrom bound n).run c = .error (.failed ⟨e, c'.rest⟩)) ∧
      (∀ f, (exprFrom bound n).run c = .error (.failed f) → f.error.val = .missingRightSide →
        ∃ l, LacksRightSide used c' l ∧ f.error.span = l.span) ∧
      ∀ l, LacksRightSide used c' l →
        (exprFrom bound n).run c = .error (.failed ⟨l.span.at .missingRightSide, c'.rest⟩) := by
  cases hrun : (exprFrom bound n).run c with
  | ok r =>
    obtain ⟨r, c'⟩ := r
    obtain ⟨used, hm, hr, -, hnone⟩ :=
      ((exprFrom_grouped h hbound).and (exprFrom_found h hbound)) r c' hrun
    have hsupplied : Supplied (used ++ [c'.current]) := by
      cases r with
      | none =>
        obtain rfl := hnone rfl
        exact .single _
      | some e => exact (hr e rfl).1.1.supplied _
    refine ⟨used, c', hm, .inl ⟨r, rfl⟩, fun f hf => ?_, fun l hl => ?_⟩
    · cases hf
    · exact absurd hl (not_lacks hsupplied)
  | error s =>
    obtain ⟨e, used, c', rfl, hm, -, hblame⟩ := exprFrom_fails h hbound s hrun
    refine ⟨used, c', hm, .inr ⟨e, rfl⟩, ?_, fun l hl => ?_⟩
    · rintro _ ⟨⟩ hval
      exact hblame.lacks hval
    · rw [hblame.missing hl]

/-- Climbing from any place and for any least precedence `n`. A tree is the one that the operator
table dictates over the lexemes taken: no operator of precedence `n` or more comes next, and any
tree as it should be over the same tokens is this one up to places. There is no tree, and nothing
is taken, just in case no operand begins here. The right side of an operator is reported as missing
at the operator, just in case an operator that was taken has none. -/
theorem exprFrom_outcome (h : c.HasEnd) (hbound : 8 * c.ahead.length + 3 ≤ bound) :
    (∀ e c', (exprFrom bound n).run c = .ok (some e, c') →
      ∃ used, c.Moves used c' ∧ e.Climbed n used ∧ e.Spelled used ∧ c'.Below n ∧
        ∀ e' : Expr, e'.Climbed n used → e'.bare = e.bare) ∧
    (∀ c', (exprFrom bound n).run c = .ok (none, c') → c' = c) ∧
    ((∃ c', (exprFrom bound n).run c = .ok (none, c')) ↔ ¬ c.token.OpensExpr) ∧
    ∃ used c', c.Moves used c' ∧
      ((∃ r, (exprFrom bound n).run c = .ok (r, c')) ∨
        ∃ e, (exprFrom bound n).run c = .error (.failed ⟨e, c'.rest⟩)) ∧
      (∀ f, (exprFrom bound n).run c = .error (.failed f) → f.error.val = .missingRightSide →
        ∃ l, LacksRightSide used c' l ∧ f.error.span = l.span) ∧
      ∀ l, LacksRightSide used c' l →
        (exprFrom bound n).run c = .error (.failed ⟨l.span.at .missingRightSide, c'.rest⟩) :=
  ⟨fun _ _ => exprFrom_unique h hbound, fun _ => exprFrom_stays h hbound,
    exprFrom_none_iff h hbound, exprFrom_lacks h hbound⟩

def sampleCursor : Cursor := .ofLexemes (Program.sampleLexemes.drop 1 ++ [Cursor.endLexeme])

theorem exprFrom_outcome_sample : ∃ e c', (exprFrom 64 1).run sampleCursor = .ok (some e, c') ∧
    ∃ used, sampleCursor.Moves used c' ∧ e.Climbed 1 used ∧ e.Spelled used ∧ c'.Below 1 ∧
      ∀ e' : Expr, e'.Climbed 1 used → e'.bare = e.bare := by
  have hend : sampleCursor.HasEnd := ⟨Cursor.endLexeme, by simp [sampleCursor, Program.sampleLexemes,
    Cursor.ofLexemes, Cursor.ahead], rfl⟩
  have hbound : 8 * sampleCursor.ahead.length + 3 ≤ 64 := by decide
  have hopens : sampleCursor.token.OpensExpr := trivial
  obtain ⟨htree, -, hnone, -⟩ := exprFrom_outcome (n := 1) hend hbound
  have hok : ((exprFrom 64 1).run sampleCursor).toOption.isSome := by cbv
  cases hrun : (exprFrom 64 1).run sampleCursor with
  | error f => simp [hrun, Except.toOption] at hok
  | ok r =>
    obtain ⟨r, c'⟩ := r
    cases r with
    | none => exact absurd hopens (hnone.1 ⟨c', hrun⟩)
    | some e => exact ⟨e, c', rfl, htree e c' hrun⟩

end Parser

end Quill
