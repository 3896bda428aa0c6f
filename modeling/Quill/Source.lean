import Quill.Basic
import Quill.Interner
import Quill.Syntax.Parser

/-! # Sources

From the feed of a source to its tokens, its syntax tree and the names in it.
-/
namespace Quill

structure LexerOptions where
  /-- How many bytes the window holds at first. -/
  capacity : Nat
  /-- Whether each lexeme leaves a record. -/
  tracing : Bool
deriving Repr

namespace LexerOptions

def usual : LexerOptions := ⟨1024 * 1024, false⟩

def records (o : LexerOptions) (lexemes : List Lexeme) : List Record :=
  if o.tracing then lexemes.map Lexeme.record else []

end LexerOptions

def LexerOptions.lexer (o : LexerOptions) (feed : Feed) : Lexer := .ofFeed feed o.capacity

def Lexeme.name? (l : Lexeme) : Option String :=
  match l.token with
  | .name text => some text
  | _ => none

/-- The names of a source, numbered in the order in which they first occur. -/
def Interner.ofLexemes (lexemes : List Lexeme) : Interner :=
  ofNames (lexemes.filterMap Lexeme.name?)

section

variable {ε α β : Type} {x : Except ε α} {a : α} {b : β}

theorem eq_ok_of_toOption (h : x.toOption = some a) : x = .ok a := by
  cases x with
  | error e => cases h
  | ok a' => exact congrArg Except.ok (Option.some.inj h)

theorem exists_ok_of_bind {f : α → Option β} (h : x.toOption.bind f = some b) :
    ∃ a, x = .ok a ∧ f a = some b := by
  obtain ⟨a, ha, hb⟩ := Option.bind_eq_some_iff.1 h
  exact ⟨a, eq_ok_of_toOption ha, hb⟩

theorem exists_ok_of_map {f : α → β} (h : x.toOption.map f = some b) :
    ∃ a, x = .ok a ∧ f a = b := by
  obtain ⟨a, ha, hb⟩ := Option.map_eq_some_iff.1 h
  exact ⟨a, eq_ok_of_toOption ha, hb⟩

end

/-- The outcome of reading a source whole: the value or the error, and the records. -/
structure Parsed (α : Type) where
  outcome : Except (Spanned SyntaxError) α
  records : List Record

namespace Parsed

/-- No source leads out of bound, so what is said of that is never seen. -/
def ofOutcome {α : Type} (o : LexerOptions) (lexemes : List Lexeme)
    (outcome : Except Parser.Stop α) : Parsed α :=
  match outcome with
  | .ok a => ⟨.ok a, o.records lexemes⟩
  | .error (.failed f) =>
    ⟨.error f.error, o.records (lexemes.take (lexemes.length - f.unseen.length))⟩
  | .error .outOfBound =>
    ⟨.error ((Span.point .start).at (.expected "rules less deeply nested")), o.records lexemes⟩

variable {α : Type} {o : LexerOptions} {lexemes : List Lexeme} {r : Except Parser.Stop α}

theorem outcome_eq_ok {a : α} : (ofOutcome o lexemes r).outcome = .ok a ↔ r = .ok a := by
  rcases r with (_ | _) | _ <;> simp [ofOutcome]

theorem outcome_eq_error {e : Spanned SyntaxError} (hr : r ≠ .error .outOfBound) :
    (ofOutcome o lexemes r).outcome = .error e ↔ ∃ f, r = .error (.failed f) ∧ f.error = e := by
  rcases r with (_ | _) | _
  · simp [ofOutcome]
  · exact absurd rfl hr
  · simp [ofOutcome]

end Parsed

namespace Program

def routineCount (p : Program) : Nat := p.functions.length + if p.main.isSome then 1 else 0

def parse (o : LexerOptions) (fileName : String) (feed : Feed) : Parsed Program :=
  let lexemes := (o.lexer feed).toList
  let parsed := Parsed.ofOutcome o lexemes (ofLexemes fileName lexemes)
  match parsed.outcome with
  | .ok p =>
    let done := Record.debug s!"parsed {p.routineCount} function(s) from {fileName}"
    { parsed with records := parsed.records ++ [done] }
  | .error _ => parsed

theorem outcome_parse (o : LexerOptions) (fileName : String) (feed : Feed) :
    (parse o fileName feed).outcome =
      (Parsed.ofOutcome o (o.lexer feed).toList
        (ofLexemes fileName (o.lexer feed).toList)).outcome := by
  unfold parse
  dsimp only
  split <;> rfl

end Program

namespace Expr

def parse (feed : Feed) : Parsed Expr :=
  let lexemes := (LexerOptions.usual.lexer feed).toList
  Parsed.ofOutcome .usual lexemes (ofLexemes lexemes)

end Expr

end Quill
