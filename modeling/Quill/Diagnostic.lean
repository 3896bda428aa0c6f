import Quill.Location

/-! # Diagnostics

An error message with its place, shown under the line of the source it is about.
-/
namespace Quill

structure Diagnostic where
  span : Span
  message : String
deriving DecidableEq, Repr

namespace Diagnostic

def text (d : Diagnostic) : String := s!"{d.span.first.text}: error: {d.message}."

/-- The lines of a text. A newline ends a line, together with a carriage return right before it;
what follows the last newline is a line unless it is empty. -/
def lines (text : List Char) : List (List Char) :=
  match text with
  | [] => []
  | '\n' :: rest => [] :: lines rest
  | '\r' :: '\n' :: rest => [] :: lines rest
  | c :: rest =>
    match lines rest with
    | [] => [[c]]
    | first :: more => (c :: first) :: more

/-- A caret under the first character and tildes under the others. There is always the caret. -/
def marker (first last : Nat) : String :=
  String.ofList
    (List.replicate first ' ' ++ '^' :: List.replicate (last - first - 1) '~')

/-- The line on which the span begins and the marker under the part of the span on it. -/
def excerpt (d : Diagnostic) (source : String) : String :=
  let first := d.span.first
  match (lines source.toList)[first.line - 1]? with
  | none => ""
  | some line =>
    let last :=
      if d.span.last.line = first.line then min (d.span.last.column - 1) line.length
      else line.length
    String.ofList line ++ "\n" ++ marker (first.column - 1) last ++ "\n"

/-- The excerpt, left out if the source has no such line, and the message. -/
def render (d : Diagnostic) (source : String) : String := d.excerpt source ++ d.text

end Diagnostic

end Quill
