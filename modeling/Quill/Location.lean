import Quill.Text.Utf8

/-! # Places in a source text

Lines and columns count from 1. A column is one character: bytes that continue a UTF-8 sequence
do not count.
-/
namespace Quill

structure Location where
  line : Nat
  column : Nat
deriving DecidableEq, Repr, Inhabited

namespace Location

def start : Location := ⟨1, 1⟩

def step (l : Location) (b : UInt8) : Location :=
  if b = 10 then ⟨l.line + 1, 1⟩
  else if Utf8.isContinuation b then l
  else ⟨l.line, l.column + 1⟩

def after (l : Location) (bytes : List UInt8) : Location := bytes.foldl step l

@[simp] theorem after_append (l : Location) (xs ys : List UInt8) :
    l.after (xs ++ ys) = (l.after xs).after ys := List.foldl_append

/-- Earlier lines come first, then earlier columns. -/
def before (a b : Location) : Bool :=
  a.line < b.line || (a.line == b.line && a.column < b.column)

def text (l : Location) : String := s!"{l.line}:{l.column}"

end Location

/-- A region of the source. `last` is the place just after its final character. -/
structure Span where
  first : Location
  last : Location
deriving DecidableEq, Repr, Inhabited

namespace Span

def point (l : Location) : Span := ⟨l, l⟩

def through (a b : Span) : Span := ⟨a.first, b.last⟩

def text (s : Span) : String := s!"{s.first.text}..{s.last.text}"

end Span

structure Spanned (α : Type) where
  span : Span
  val : α
deriving Repr

def Span.at {α : Type} (s : Span) (a : α) : Spanned α := ⟨s, a⟩

end Quill
