/-! # Basics

What all parts share: the powers of numbers, the bytes that stand between words, and the records
that the stages leave of their progress.
-/
namespace Quill

/- Powers are the ones of the core library, also where an algebraic hierarchy that brings its own is
imported. Elaboration finds them only where the exponent's type is known: a literal exponent is
written with its type. -/
attribute [scoped instance (high)] instPowNat

/-- The space, the tab, the newline, the form feed and the carriage return. -/
def isBlank (b : UInt8) : Bool := b == 32 || b == 9 || b == 10 || b == 12 || b == 13

inductive Level where
  | trace | debug
deriving DecidableEq, Repr

structure Record where
  level : Level
  text : String
deriving DecidableEq, Repr

def Record.debug (text : String) : Record := ⟨.debug, text⟩

def Record.trace (text : String) : Record := ⟨.trace, text⟩

end Quill
