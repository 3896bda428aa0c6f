import Quill.Proofs.Lexer.Whole
import Quill.Source

/-! # The lexemes of a whole source

A source has the same lexemes whether it is lexed through a window or as a whole, so what is parsed
depends on the bytes of a feed and its ending alone: neither the capacity of the window nor where
the feed cuts the bytes makes a difference.
-/
namespace Quill

namespace WholeLexer

theorem left_next {l : WholeLexer} (h : ¬l.next.1.token.isEof) :
    l.next.2.source.length - l.next.2.position < l.source.length - l.position := by
  fun_induction next l with
  | case1 => exact absurd rfl h
  | case2 l m l' hmatch t ht =>
    obtain ⟨hlt, hsource⟩ := position_nextMatch hmatch
    rwa [hsource]
  | case3 l m l' hmatch ht ih =>
    obtain ⟨hlt, hsource⟩ := position_nextMatch hmatch
    exact Nat.lt_trans (ih h) (by rwa [hsource])

/-- All lexemes up to the first end, and the lexer after them. -/
def lexemes (l : WholeLexer) : List Lexeme × WholeLexer :=
  let r := l.next
  if _h : r.1.token.isEof then ([r.1], r.2)
  else
    let rest := r.2.lexemes
    (r.1 :: rest.1, rest.2)
termination_by l.source.length - l.position
decreasing_by exact left_next _h

def toList (l : WholeLexer) : List Lexeme :=
  let r := l.lexemes
  r.1 ++ [r.2.next.1]

end WholeLexer

namespace Lexer.Follows

variable {l : Lexer} {w : WholeLexer}

theorem lexemes (h : l.Follows w) :
    l.lexemes.1 = w.lexemes.1 ∧ l.lexemes.2.Follows w.lexemes.2 := by
  fun_induction WholeLexer.lexemes w generalizing l
  case case1 w r heof =>
    obtain ⟨hfirst, hrest⟩ := h.next
    have hlexemes : l.lexemes = ([l.next.1], l.next.2) := by
      rw [Lexer.lexemes]
      exact dif_pos (hfirst ▸ heof)
    rw [hlexemes]
    exact ⟨congrArg ([·]) hfirst, hrest⟩
  case case2 w r hne rest ih =>
    obtain ⟨hfirst, hrest⟩ := h.next
    have hlexemes : l.lexemes = (l.next.1 :: l.next.2.lexemes.1, l.next.2.lexemes.2) := by
      rw [Lexer.lexemes]
      exact dif_neg (hfirst ▸ hne)
    obtain ⟨hbehind, hlast⟩ := ih hrest
    rw [hlexemes]
    exact ⟨List.cons_eq_cons.2 ⟨hfirst, hbehind⟩, hlast⟩

theorem toList (h : l.Follows w) : l.toList = w.toList := by
  obtain ⟨hlexemes, hlast⟩ := h.lexemes
  rw [Lexer.toList, WholeLexer.toList, hlexemes, hlast.next.1]

end Lexer.Follows

def Feed.lexemes (feed : Feed) : List Lexeme := (WholeLexer.ofBytes feed.bytes feed.ending).toList

namespace LexerOptions

variable (o : LexerOptions) (feed : Feed)

theorem lexer_follows : (o.lexer feed).Follows (.ofBytes feed.bytes feed.ending) :=
  Lexer.follows_ofFeed feed o.capacity

theorem toList_lexer : (o.lexer feed).toList = feed.lexemes := (o.lexer_follows feed).toList

end LexerOptions

/-- The outcome of parsing is a function of the bytes and of how they end. -/
theorem Program.outcome_parse_whole (o : LexerOptions) (fileName : String) (feed : Feed) :
    (parse o fileName feed).outcome =
      (Parsed.ofOutcome o feed.lexemes (ofLexemes fileName feed.lexemes)).outcome := by
  rw [outcome_parse, o.toList_lexer]

end Quill
