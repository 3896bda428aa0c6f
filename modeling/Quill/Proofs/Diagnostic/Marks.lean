import Quill.Proofs.Diagnostic.Excerpt
import Quill.Proofs.Lexer.Layout
import Quill.Proofs.Lowering.Rejections
import Quill.Proofs.Syntax.FailedReads

/-! # Diagnostics mark what they are about

The lexer counts bytes, a diagnostic is shown under characters. For every error in a source that is
text the two agree: the marker stands below the characters from the first lexeme the error is about
to the last, as far as they are on one line.
-/
namespace Quill
open Utf8 (bytes)

/-! ### Spans of lexemes -/

/-- The span of some of the lexemes, next to each other and without the end. -/
def Span.IsRunOf (s : Span) (lexemes : List Lexeme) : Prop :=
  ∃ before ls after, lexemes = before ++ (ls ++ after) ∧ ls ≠ [] ∧ (∀ l ∈ ls, l.token ≠ .eof) ∧
    s = spanOf ls

theorem Span.IsRunOf.append {s : Span} {used : List Lexeme} (h : s.IsRunOf used)
    (more : List Lexeme) : s.IsRunOf (used ++ more) := by
  obtain ⟨before, ls, after, rfl, hs⟩ := h
  exact ⟨before, ls, after ++ more, by simp, hs⟩

/-- The bytes from the first lexeme to the last, with whatever is between two of them. -/
inductive Runs : List Lexeme → List UInt8 → Prop
  | one {l} : Runs [l] l.bytes
  | more {l gap ls bs} : Runs ls bs → Runs (l :: ls) (l.bytes ++ (gap ++ bs))

theorem Runs.single {l : Lexeme} {bs : List UInt8} (h : Runs [l] bs) : bs = l.bytes := by
  cases h with
  | one => rfl
  | more hnil => cases hnil

/-- The characters `text` behind `pre` are those from the first of the lexemes to the last. Neither
their first nor their last is part of a line break. -/
structure Stretch (pre text : List Char) (ls : List Lexeme) : Prop where
  span : spanOf ls = ⟨.past pre, .past (pre ++ text)⟩
  runs : Runs ls (bytes text)
  begins : ∃ c more, text = c :: more ∧ c ≠ '\n' ∧ c ≠ '\r'
  ends : text.getLast? ≠ some '\r'
  single : ∀ l, ls = [l] → '\n' ∉ text

variable {pre text rest : List Char} {l : Lexeme} {ls after lexemes : List Lexeme}

theorem Stretch.one (hbytes : l.bytes = bytes text)
    (hspan : l.span = ⟨.past pre, .past (pre ++ text)⟩) (hne : text ≠ [])
    (hinline : '\n' ∉ text ∧ '\r' ∉ text) : Stretch pre text [l] where
  span := hspan
  runs := hbytes ▸ .one
  begins := by
    obtain ⟨c, more, rfl⟩ := List.exists_cons_of_ne_nil hne
    simp only [List.mem_cons, not_or] at hinline
    exact ⟨c, more, rfl, Ne.symm hinline.1.1, Ne.symm hinline.2.1⟩
  ends := fun hlast => hinline.2 (List.mem_of_getLast? hlast)
  single := fun _ _ => hinline.1

theorem Stretch.cons {gap more : List Char} (h : Stretch pre text [l])
    (hls : Stretch (pre ++ text ++ gap) more ls) (hne : ls ≠ []) :
    Stretch pre (text ++ (gap ++ more)) (l :: ls) where
  span := by
    rw [← List.singleton_append, spanOf_append (List.cons_ne_nil l []) hne, h.span, hls.span]
    simp [Span.through]
  runs := by
    rw [Utf8.bytes_append, Utf8.bytes_append, h.runs.single]
    exact .more hls.runs
  begins := by
    obtain ⟨c, text, rfl, hc⟩ := h.begins
    exact ⟨c, text ++ (gap ++ more), rfl, hc⟩
  ends := by
    obtain ⟨c, more, rfl, -⟩ := hls.begins
    rw [← List.append_assoc, List.getLast?_append_of_ne_nil _ (List.cons_ne_nil c more)]
    exact hls.ends
  single := fun x hx => absurd (List.cons.inj hx).2 hne

/-- Lexemes laid out over characters, none of them the end, stretch over some of the characters. -/
theorem Laid.stretch (h : Laid pre rest (ls ++ after)) (hne : ls ≠ [])
    (hls : ∀ l ∈ ls, l.token ≠ .eof) :
    ∃ gap text post, rest = gap ++ (text ++ post) ∧ Stretch (pre ++ gap) text ls := by
  induction ls generalizing pre rest with
  | nil => exact absurd rfl hne
  | cons l ls ih =>
    obtain ⟨hl, hls⟩ := List.forall_mem_cons.1 hls
    cases h with
    | ended ends => exact absurd (Token.isEof_iff.1 (ends l (by simp)).1) hl
    | @lexeme _ gap text rest _ _ _ nonempty hbytes span inline more =>
      have hone : Stretch (pre ++ gap) text [l] := .one hbytes span nonempty inline
      cases ls with
      | nil => exact ⟨gap, text, rest, rfl, hone⟩
      | cons l' ls =>
        obtain ⟨gap', text', post, rfl, hrest⟩ := ih more (List.cons_ne_nil l' ls) hls
        exact ⟨gap, text ++ (gap' ++ text'), post, by simp, hone.cons hrest (List.cons_ne_nil l' ls)⟩

/-! ### The errors of a source -/

/-- What is reported on the source of a feed, and the lexemes it was read from. -/
inductive Reported (feed : Feed) : List Lexeme → Diagnostic → Prop
  | program {o : LexerOptions} {fileName e}
      (h : (Program.parse o fileName feed).outcome = .error e) :
      Reported feed (o.lexer feed).toList ⟨e.span, e.val.message⟩
  | expr {e} (h : (Expr.parse feed).outcome = .error e) :
      Reported feed (LexerOptions.usual.lexer feed).toList ⟨e.span, e.val.message⟩
  | lowering {o : LexerOptions} {fileName p e}
      (hp : (Program.parse o fileName feed).outcome = .ok p)
      (h : p.lower.outcome = .error (.rejected e)) :
      Reported feed (o.lexer feed).toList ⟨e.span, e.val.message⟩

theorem Reported.laid {feed : Feed} {cs : List Char} {d : Diagnostic}
    (h : Reported feed lexemes d) (hfeed : feed.bytes = bytes cs) : Laid [] cs lexemes := by
  cases h with
  | program | expr | lowering => exact Lexer.laid_toList hfeed _

namespace Parser

variable {c c' : Cursor} {used : List Lexeme} {e : Spanned SyntaxError}

/-- An error stands where the cursor does or spans lexemes that it has passed. -/
theorem Blame.span (h : Blame used c e) (hused : ∀ l ∈ used, l.token ≠ .eof) :
    e.span = c.span ∨ e.span.IsRunOf used := by
  cases h with
  | here =>
    rcases Cursor.blame_span with h | h
    · exact .inl h
    · exact .inl (by rw [h]; rfl)
  | @operator used l =>
    rcases Cursor.blame_span with h | h
    · exact .inl h
    · rw [h]
      exact .inr ⟨used, [l], [], rfl, List.cons_ne_nil l [], by simpa using hused l (by simp), rfl⟩
  | @passed used ls more _ _ hls =>
    exact .inr ⟨used, ls, more, rfl, hls, fun l hl => hused l (by simp [hl]), rfl⟩

/-- An error over the lexemes of a source spans some of them or begins at the end of the source. -/
theorem runWhole_error_span {α : Type} {p : Nat → Parser α} {Q : α → List Lexeme → Cursor → Prop}
    {l : Lexer} {cs : List Char} {f : SyntaxFailure} (hlaid : Laid [] cs l.toList)
    (hfails : Fails (.ofLexemes l.toList) (p (boundFor l.toList)) Blame)
    (hreads : Reads (.ofLexemes l.toList) (p (boundFor l.toList)) Q)
    (h : runWhole p l.toList = .error (.failed f)) :
    f.error.span.IsRunOf l.toList ∨ f.error.span.first = .past cs := by
  obtain ⟨f, used, c', ⟨⟩, hm, hf⟩ := runWhole_error hfails (fun _ _ _ => .here) hreads h
  have hahead : l.toList = used ++ c'.current :: c'.rest := ofLexemes_toList.symm.trans hm.ahead
  have hend (heof : c'.token = .eof) : ∀ x ∈ c'.current :: c'.rest, x.span = .point (.past cs) := by
    rw [hahead] at hlaid
    exact hlaid.eof (Token.isEof_iff.2 heof)
  rcases hf with ⟨-, hblame⟩ | ⟨heof, reason, -, rfl⟩
  · rcases hblame.span hm.noEnd with hspan | hspan
    · rw [hspan]
      by_cases heof : c'.token = .eof
      · right
        rw [Cursor.span, hend heof _ List.mem_cons_self]
        rfl
      · left
        exact ⟨used, [c'.current], c'.rest, hahead, List.cons_ne_nil _ _,
          List.forall_mem_singleton.2 heof, rfl⟩
    · rw [hahead]
      exact .inl (hspan.append _)
  · right
    have hmem : c'.advance.current ∈ c'.current :: c'.rest := by
      unfold Cursor.advance
      split
      · exact List.mem_cons_self
      · rename_i hrest
        simp [hrest]
    change c'.advance.current.span.first = _
    rw [hend heof _ hmem]
    rfl

end Parser

/-- Every place in a tree read from a source is the span of some of its lexemes. -/
theorem Program.parse_placed {o : LexerOptions} {fileName : String} {feed : Feed} {p : Program}
    (h : (parse o fileName feed).outcome = .ok p) :
    p.Placed fun s => s.IsRunOf (o.lexer feed).toList := by
  have hend := Parser.toList_hasEnd (o.lexer feed)
  have hbound := Parser.toList_bound (o.lexer feed)
  rw [outcome_parse] at h
  obtain ⟨used, c', hm, hspelled, -⟩ :=
    Parser.runWhole_end (Parser.program_reads hend (by omega)) (Parsed.outcome_eq_ok.1 h)
  refine hspelled.placed fun ls hls hne => ?_
  obtain ⟨before, after, rfl⟩ := hls
  rw [← Parser.ofLexemes_toList, hm.ahead]
  refine Span.IsRunOf.append ⟨before, ls, after, by simp, hne, ?_, rfl⟩ _
  exact fun l hl => hm.noEnd l (by simp [hl])

/-- Whatever is reported on a source spans some of its lexemes or begins at its end. -/
theorem Reported.span {feed : Feed} {cs : List Char} {lexemes : List Lexeme} {d : Diagnostic}
    (h : Reported feed lexemes d) (hfeed : feed.bytes = bytes cs) :
    d.span.IsRunOf lexemes ∨ d.span.first = .past cs := by
  cases h with
  | @program o fileName e h =>
    have hend := Parser.toList_hasEnd (o.lexer feed)
    have hbound := Parser.toList_bound (o.lexer feed)
    rw [Program.outcome_parse] at h
    obtain ⟨f, hf, rfl⟩ :=
      (Parsed.outcome_eq_error (Program.toList_inBound (o.lexer feed) fileName)).1 h
    exact Parser.runWhole_error_span (Lexer.laid_toList hfeed o.capacity)
      (Parser.program_fails hend (by omega)) (Parser.program_reads hend (by omega)) hf
  | @expr e h =>
    have hend := Parser.toList_hasEnd (LexerOptions.usual.lexer feed)
    have hbound := Parser.toList_bound (LexerOptions.usual.lexer feed)
    rw [Expr.parse] at h
    obtain ⟨f, hf, rfl⟩ :=
      (Parsed.outcome_eq_error (Expr.toList_inBound (LexerOptions.usual.lexer feed))).1 h
    exact Parser.runWhole_error_span (Lexer.laid_toList hfeed LexerOptions.usual.capacity)
      (Parser.Fails.of_expr (Parser.expr_fails hend hbound)) (Parser.expr_reads hend hbound) hf
  | lowering hp h => exact .inl (Program.lower_rejects (Program.parse_placed hp) h)

/-! ### What is shown -/

namespace Diagnostic

/-- What a diagnostic shows of the lexemes `ls` of a source. -/
structure Marks (d : Diagnostic) (source : String) (ls : List Lexeme) (pre text post : List Char) :
    Prop where
  /-- The characters from the beginning of the first lexeme to the end of the last. -/
  split : source.toList = pre ++ (text ++ post)
  lexemes : Runs ls (bytes text)
  first : d.span.first = .past pre
  last : d.span.last = .past (pre ++ text)
  /-- The line on which they begin, a marker below it and the message. -/
  shown : ∃ line marker, d.render source =
      String.ofList line ++ "\n" ++ String.ofList marker ++ "\n" ++ d.text ∧
    line = lineBefore pre ++ lineAfter (text ++ post) ∧
    marker = mark (lineBefore pre).length (lineAfter text).length ∧
    marked line marker = lineAfter text
  /-- There is always a caret. -/
  caret : lineAfter text ≠ []
  /-- Characters behind a line break are not shown, all others are. -/
  cut : lineAfter text <+: text
  inline : '\n' ∉ text → lineAfter text = text
  single : ∀ l, ls = [l] → bytes (lineAfter text) = l.bytes
  /-- Nothing is subtracted from less than it. -/
  counted : 1 ≤ d.span.first.line ∧ 1 ≤ d.span.first.column ∧ 1 ≤ d.span.last.column

variable {d : Diagnostic} {source : String} {post : List Char}

theorem Marks.of_stretch (hsource : source.toList = pre ++ (text ++ post)) (h : Stretch pre text ls)
    (hspan : d.span = spanOf ls) : d.Marks source ls pre text post := by
  have hcovers : d.Covers source pre text post :=
    ⟨hsource, by rw [hspan, h.span], by rw [hspan, h.span], h.begins, fun hlast => absurd hlast h.ends⟩
  have hne := hcovers.lineAfter_ne_nil
  constructor
  · exact hsource
  · exact h.runs
  · exact hcovers.first
  · exact hcovers.last
  · refine ⟨_, _, hcovers.render, rfl, rfl, ?_⟩
    obtain ⟨more, hmore⟩ := lineAfter_prefix_append hcovers.ends
    rw [← hmore]
    exact marked_mark hne more
  · exact hne
  · exact lineAfter_isPrefix text
  · exact lineAfter_eq_self
  · rintro l rfl
    rw [lineAfter_eq_self (h.single l rfl)]
    exact h.runs.single
  · rw [hcovers.first, hcovers.last, Location.past_eq, Location.past_eq]
    simp

/-- The excerpt for an error that parsing or lowering a text reports, unless it is about the end of
the source. -/
theorem render_marks {feed : Feed} (hfeed : feed.bytes = Utf8.encode source)
    (h : Reported feed lexemes d)
    (hend : d.span.first ≠ Location.start.after (Utf8.encode source)) :
    ∃ before ls after pre text post, lexemes = before ++ (ls ++ after) ∧ ls ≠ [] ∧
      d.span = spanOf ls ∧ d.Marks source ls pre text post := by
  rw [Utf8.encode_eq] at hfeed hend
  obtain ⟨before, ls, after, hlexemes, hne, hnoEnd, hspan⟩ := (h.span hfeed).resolve_right hend
  have hlaid := h.laid hfeed
  rw [hlexemes] at hlaid
  obtain ⟨behind, rest, hbehind, hlaid⟩ := hlaid.skip
  obtain ⟨gap, text, post, rfl, hstretch⟩ := hlaid.stretch hne hnoEnd
  refine ⟨before, ls, after, behind ++ gap, text, post, hlexemes, hne, hspan, ?_⟩
  refine .of_stretch ?_ (by simpa using hstretch) hspan
  rw [hbehind, List.append_assoc]

/-- A wide character in a comment, a tab, and a wide character where an expression is due. -/
def sampleSource : String := "# é\r\nmain\r\n\t1 + é print\r\n"

theorem render_marks_sample :
    ∃ lexemes d, Reported (.whole (Utf8.encode sampleSource)) lexemes d ∧
      d.span.first ≠ Location.start.after (Utf8.encode sampleSource) ∧
      ∃ before ls after pre text post, lexemes = before ++ (ls ++ after) ∧ ls ≠ [] ∧
        d.span = spanOf ls ∧ d.Marks sampleSource ls pre text post := by
  have hspan : (Program.parse .usual "sample" (.whole (Utf8.encode sampleSource))).outcome.mapError
      Spanned.span = .error ⟨⟨3, 6⟩, ⟨3, 7⟩⟩ := by
    rw [Program.outcome_parse_whole]
    cbv
  have hplace : (⟨3, 6⟩ : Location) ≠ Location.start.after (Utf8.encode sampleSource) := by
    decide +kernel
  cases houtcome : (Program.parse .usual "sample" (.whole (Utf8.encode sampleSource))).outcome with
  | ok p =>
    rw [houtcome] at hspan
    cases hspan
  | error e =>
    rw [houtcome] at hspan
    have hreported := Reported.program houtcome
    have hend : e.span.first ≠ Location.start.after (Utf8.encode sampleSource) := by
      rw [Except.error.inj hspan]
      exact hplace
    exact ⟨_, _, hreported, hend, render_marks (Feed.bytes_ofBytes ..) hreported hend⟩

example : (⟨⟨⟨3, 6⟩, ⟨3, 7⟩⟩, "unrecognized input"⟩ : Diagnostic).render sampleSource =
    "\t1 + é print\n     ^\n3:6: error: unrecognized input." := by
  cbv

end Diagnostic

end Quill
