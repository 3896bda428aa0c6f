import Mathlib
import Quill.Proofs.Lexer.Coverage
import Quill.Proofs.Lexer.Lexemes
import Quill.Proofs.Syntax.Errors

/-! # Failed reads

The lexer treats a failed read as the end of the input and keeps the reason aside. Wherever the
parser lacks something, it gives the reason. It does not where it turns down what it has already
passed: then a failed read behind it stays unmentioned. Expressions alone never come to that.
-/
namespace Quill

namespace Lexer

variable {l : Lexer} {i : Nat} {x : Lexeme}

theorem failure_next (l : Lexer) : l.next.1.failure = l.next.2.window.failure := by
  fun_induction next with
  | case1 => rfl
  | case2 => rfl
  | case3 _ _ _ _ _ ih => exact ih

theorem lexemes_snd (l : Lexer) : l.lexemes.2 = l.called l.lexemes.1.length := by
  fun_induction lexemes with
  | case1 => rfl
  | case2 l r h rest ih => exact ih.trans (called_succ l _).symm

theorem lexemes_eq_next (h : l.lexemes.1[i]? = some x) : x = (l.called i).next.1 := by
  induction i generalizing l with
  | zero =>
    unfold lexemes at h
    dsimp only at h
    split at h <;> exact (Option.some.inj h).symm
  | succ i ih =>
    unfold lexemes at h
    dsimp only at h
    split at h
    · simp at h
    · rw [called_succ]
      exact ih h

/-- The lexeme at a place in the list is what the call of that number gives. -/
theorem toList_eq_next (h : l.toList[i]? = some x) : x = (l.called i).next.1 := by
  unfold toList at h
  rcases Nat.lt_or_ge i l.lexemes.1.length with hi | hi
  · rw [List.getElem?_append_left hi] at h
    exact lexemes_eq_next h
  · rw [List.getElem?_append_right hi, List.getElem?_singleton] at h
    split at h
    · have hlast : i = l.lexemes.1.length := by omega
      rw [← Option.some.inj h, hlast, lexemes_snd]
    · cases h

theorem lexemes_end (l : Lexer) : ∃ ls last, l.lexemes.1 = ls ++ [last] ∧
    (∀ x ∈ ls, x.token ≠ .eof) ∧ last.token = .eof := by
  fun_induction lexemes with
  | case1 l r h => exact ⟨[], r.1, rfl, by simp, Token.isEof_iff.1 h⟩
  | case2 l r h rest ih =>
    obtain ⟨ls, last, hls, hno, hlast⟩ := ih
    refine ⟨r.1 :: ls, last, congrArg (r.1 :: ·) hls, fun x hx => ?_, hlast⟩
    rcases List.mem_cons.1 hx with rfl | hx
    · exact fun heof => h (Token.isEof_iff.2 heof)
    · exact hno x hx

theorem toList_end (l : Lexer) : ∃ ls last again, l.toList = ls ++ [last, again] ∧
    (∀ x ∈ ls, x.token ≠ .eof) ∧ last.token = .eof := by
  obtain ⟨ls, last, hls, hno, hlast⟩ := l.lexemes_end
  refine ⟨ls, last, l.lexemes.2.next.1, ?_, hno, hlast⟩
  simp [toList, hls]

/-- What a lexeme tells of a failed read is all the lexer knows after the call that gave it. -/
theorem failure_called {pre post : List Lexeme} (h : l.toList = pre ++ x :: post) :
    (l.called (l.toList.length - post.length)).window.failure = x.failure := by
  have hx : x = (l.called pre.length).next.1 := toList_eq_next (by simp [h])
  have hlength : l.toList.length - post.length = pre.length + 1 := by
    rw [h, List.length_append, List.length_cons]
    omega
  rw [hlength, hx, failure_next]
  rfl

end Lexer

namespace Parser

variable {α : Type} {l : Lexer} {c' : Cursor} {used : List Lexeme}

/-- How many lexemes were asked for until a run over them ended so. -/
def asked (lexemes : List Lexeme) : Except Stop α → Nat
  | .error (.failed f) => lexemes.length - f.unseen.length
  | .ok _ | .error .outOfBound => lexemes.length

theorem ofLexemes_toList : (Cursor.ofLexemes l.toList).ahead = l.toList := by
  obtain ⟨ls, last, again, hl, -⟩ := l.toList_end
  rw [hl]
  exact ofLexemes_ahead

theorem toList_hasEnd (l : Lexer) : (Cursor.ofLexemes l.toList).HasEnd := by
  obtain ⟨ls, last, again, hl, -, hlast⟩ := l.toList_end
  rw [hl]
  exact ofLexemes_hasEnd hlast

theorem toList_bound (l : Lexer) :
    8 * (Cursor.ofLexemes l.toList).ahead.length + 4 ≤ boundFor l.toList := by
  rw [ofLexemes_toList, boundFor]
  omega

theorem failure_current (hm : (Cursor.ofLexemes l.toList).Moves used c') :
    (l.called (l.toList.length - c'.rest.length)).window.failure = c'.current.failure :=
  Lexer.failure_called (ofLexemes_toList.symm.trans hm.ahead)

theorem failure_advance (hm : (Cursor.ofLexemes l.toList).Moves used c') :
    (l.called (l.toList.length - c'.advance.rest.length)).window.failure =
      c'.advance.current.failure := by
  unfold Cursor.advance
  cases hrest : c'.rest with
  | nil =>
    have hcurrent := failure_current hm
    rw [hrest] at hcurrent
    exact hcurrent
  | cons x rest =>
    have hsplit : l.toList = (used ++ [c'.current]) ++ x :: rest := by
      rw [← ofLexemes_toList, hm.ahead, Cursor.ahead, hrest, List.append_assoc]
      rfl
    exact Lexer.failure_called hsplit

/-- The lexemes behind which a whole run has succeeded are all of them. -/
theorem advance_rest_nil (hm : (Cursor.ofLexemes l.toList).Moves used c') (hend : c'.token = .eof) :
    c'.advance.rest = [] := by
  obtain ⟨ls, last, again, hl, hls, hlast⟩ := l.toList_end
  have hahead : (Cursor.ofLexemes l.toList).ahead = ls ++ last :: [again] := by
    rw [ofLexemes_toList, hl]
  obtain rfl := moves_to_end_unique hm hend hahead hls hlast
  rw [hm.ahead] at hahead
  obtain ⟨-, hrest⟩ := List.cons.inj (List.append_cancel_left hahead)
  rw [Cursor.advance, hrest]

/-- A failed read that was met is the error, or the error is of a kind that `P` names. -/
theorem runWhole_failed {p : Nat → Parser α} {Q : α → List Lexeme → Cursor → Prop}
    {B : List Lexeme → Cursor → Spanned SyntaxError → Prop} {P : SyntaxError → Prop}
    (hfails : Fails (.ofLexemes l.toList) (p (boundFor l.toList)) B)
    (hhere : ∀ used c what, B used c (c.blame (c.span.at (.expected what))))
    (hblind : ∀ used c e, B used c e → (∃ e', e = c.blame e') ∨ P e.val)
    (hreads : Reads (.ofLexemes l.toList) (p (boundFor l.toList)) Q) {reason : String}
    (h : (l.called (asked l.toList (runWhole p l.toList))).window.failure = some reason) :
    ∃ f, runWhole p l.toList = .error (.failed f) ∧
      (f.error.val = .unreadable reason ∨ P f.error.val) := by
  cases hrun : runWhole p l.toList with
  | ok a =>
    obtain ⟨used, c', hm, -, hend, hread⟩ := runWhole_end hreads hrun
    have hlast := failure_advance hm
    rw [advance_rest_nil hm hend, hread] at hlast
    rw [hrun] at h
    cases hlast.symm.trans h
  | error s =>
    obtain ⟨f, used, c', rfl, hm, ⟨hunseen, hB⟩ | ⟨hend, reason', hreason, rfl⟩⟩ :=
      runWhole_error hfails hhere hreads hrun
    · have hcurrent : c'.current.failure = some reason := by
        rw [hrun, asked, hunseen] at h
        exact (failure_current hm).symm.trans h
      refine ⟨f, rfl, (hblind used c' f.error hB).imp_left ?_⟩
      rintro ⟨e', he'⟩
      rw [he', Cursor.blame_failed hcurrent]
      rfl
    · have hlast : some reason' = some reason := by
        rw [← hreason, ← failure_advance hm]
        rwa [hrun] at h
      exact ⟨_, rfl, .inl (congrArg SyntaxError.unreadable (Option.some.inj hlast))⟩

theorem ExprBlame.blames {c : Cursor} {e : Spanned SyntaxError} (h : ExprBlame used c e) :
    ∃ e', e = c.blame e' := by
  cases h with
  | here => exact ⟨_, rfl⟩
  | operator => exact ⟨_, rfl⟩

theorem Blame.blind {c : Cursor} {e : Spanned SyntaxError} (h : Blame used c e) :
    (∃ e', e = c.blame e') ∨ e.val.IsBlind := by
  cases h with
  | here => exact .inl ⟨_, rfl⟩
  | operator => exact .inl ⟨_, rfl⟩
  | passed _ he => exact .inr he

end Parser

/-- Why reading has failed, if it has, when a run over the lexemes ends so. -/
def Lexer.failureAt {α : Type} (l : Lexer) (outcome : Except Parser.Stop α) : Option String :=
  (l.called (Parser.asked l.toList outcome)).window.failure

theorem LexerOptions.failureAt_lexer {α : Type} (o : LexerOptions) (feed : Feed)
    (outcome : Except Parser.Stop α) : (o.lexer feed).failureAt outcome =
      ((WholeLexer.ofBytes feed.bytes feed.ending).called
        (Parser.asked feed.lexemes outcome)).failure := by
  unfold Lexer.failureAt
  rw [o.toList_lexer]
  exact ((o.lexer_follows feed).called _).failure

theorem Program.toList_inBound (l : Lexer) (fileName : String) :
    ofLexemes fileName l.toList ≠ .error .outOfBound := by
  obtain ⟨ls, last, again, hl, -, hlast⟩ := l.toList_end
  rw [hl]
  exact ofLexemes_inBound hlast

theorem Expr.toList_inBound (l : Lexer) : ofLexemes l.toList ≠ .error .outOfBound :=
  Parser.runWhole_ne_outOfBound (Parser.expr_fails (Parser.toList_hasEnd l) (Parser.toList_bound l))
    (Parser.expr_reads (Parser.toList_hasEnd l) (Parser.toList_bound l))

theorem Program.ofLexemes_failed {l : Lexer} {fileName reason : String}
    (h : l.failureAt (ofLexemes fileName l.toList) = some reason) :
    ∃ f, ofLexemes fileName l.toList = .error (.failed f) ∧
      (f.error.val = .unreadable reason ∨ f.error.val.IsBlind) := by
  have hend := Parser.toList_hasEnd l
  have hbound : 8 * (Cursor.ofLexemes l.toList).ahead.length + 1 ≤ Parser.boundFor l.toList :=
    Nat.le_trans (by omega) (Parser.toList_bound l)
  exact Parser.runWhole_failed (p := (Parser.program · fileName)) (Parser.program_fails hend hbound)
    (fun _ _ _ => .here) (fun _ _ _ => Parser.Blame.blind) (Parser.program_reads hend hbound) h

theorem Expr.ofLexemes_failed {l : Lexer} {reason : String}
    (h : l.failureAt (ofLexemes l.toList) = some reason) :
    ∃ f, ofLexemes l.toList = .error (.failed f) ∧ f.error.val = .unreadable reason := by
  have hend := Parser.toList_hasEnd l
  have hbound := Parser.toList_bound l
  have hfails : Parser.Fails _ (Parser.expr _) fun _ c e => ∃ e', e = c.blame e' :=
    (Parser.expr_fails hend hbound).mono fun _ _ _ _ he => he.blames
  obtain ⟨f, hf, hreason⟩ := Parser.runWhole_failed (P := fun _ => False) hfails
    (fun _ _ _ => ⟨_, rfl⟩) (fun _ _ _ he => .inl he) (Parser.expr_reads hend hbound) h
  exact ⟨f, hf, hreason.resolve_right id⟩

/-- A reader that has failed by the end of parsing is always noticed. An expression is then
reported as unreadable, for the reason the reader has given. So is a program, unless the parser has
turned down something it had passed: an assignment to what is no variable, an expression that is no
statement, or a void parameter. -/
theorem Program.parse_failed_read (o : LexerOptions) (fileName : String) (feed : Feed)
    (reason : String) :
    ((o.lexer feed).failureAt (ofLexemes fileName (o.lexer feed).toList) = some reason →
      ∃ e, (Program.parse o fileName feed).outcome = .error e ∧
        (e.val = .unreadable reason ∨ e.val.IsBlind)) ∧
    ((LexerOptions.usual.lexer feed).failureAt
        (Expr.ofLexemes (LexerOptions.usual.lexer feed).toList) = some reason →
      ∃ e, (Expr.parse feed).outcome = .error e ∧ e.val = .unreadable reason) := by
  constructor
  · intro h
    obtain ⟨f, hf, hreason⟩ := ofLexemes_failed h
    refine ⟨f.error, ?_, hreason⟩
    rw [outcome_parse, hf]
    rfl
  · intro h
    obtain ⟨f, hf, hreason⟩ := Expr.ofLexemes_failed h
    exact ⟨f.error, (Parsed.outcome_eq_error (Expr.toList_inBound _)).2 ⟨f, hf, rfl⟩, hreason⟩

def failingFeed (source : String) : Feed :=
  .ofBytes (Utf8.encode source) 64 false (.failing "disk on fire")

theorem Program.parse_failed_read_sample :
    (∃ e, (Program.parse .usual "test.q" (failingFeed "main")).outcome = .error e ∧
      (e.val = .unreadable "disk on fire" ∨ e.val.IsBlind)) ∧
    ∃ e, (Expr.parse (failingFeed "1 +")).outcome = .error e ∧
      e.val = .unreadable "disk on fire" := by
  have hmain : (LexerOptions.usual.lexer (failingFeed "main")).failureAt
      (ofLexemes "test.q" (LexerOptions.usual.lexer (failingFeed "main")).toList) =
        some "disk on fire" := by
    rw [LexerOptions.failureAt_lexer, LexerOptions.toList_lexer]
    cbv
  have hsum : (LexerOptions.usual.lexer (failingFeed "1 +")).failureAt
      (Expr.ofLexemes (LexerOptions.usual.lexer (failingFeed "1 +")).toList) =
        some "disk on fire" := by
    rw [LexerOptions.failureAt_lexer, LexerOptions.toList_lexer]
    cbv
  exact ⟨(parse_failed_read .usual "test.q" (failingFeed "main") _).1 hmain,
    (parse_failed_read .usual "test.q" (failingFeed "1 +") _).2 hsum⟩

/-- The parser turns a name down as a statement without a look at how the reader has ended. -/
theorem Program.failed_read_masked :
    (LexerOptions.usual.lexer (failingFeed "main a")).failureAt
      (ofLexemes "test.q" (LexerOptions.usual.lexer (failingFeed "main a")).toList) =
        some "disk on fire" ∧
    ∃ e, (Program.parse .usual "test.q" (failingFeed "main a")).outcome = .error e ∧
      e.val = .notAStatement := by
  constructor
  · rw [LexerOptions.failureAt_lexer, LexerOptions.toList_lexer]
    cbv
  · have hmasked : (Program.parse .usual "test.q" (failingFeed "main a")).outcome.mapError
        (·.val) = .error .notAStatement := by
      rw [Program.outcome_parse_whole]
      cbv
    cases houtcome : (Program.parse .usual "test.q" (failingFeed "main a")).outcome with
    | ok p =>
      rw [houtcome] at hmasked
      cases hmasked
    | error e =>
      rw [houtcome] at hmasked
      exact ⟨e, rfl, Except.error.inj hmasked⟩

end Quill
