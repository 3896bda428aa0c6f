import Quill.Basic
import Quill.Text.Quoted

/-! # Numbered names

An interner numbers texts from 1 in the order in which they are first seen. It keeps a table from
texts to symbols and, for the way back, the texts by their indices.
-/
namespace Quill

structure Symbol where
  number : Nat
deriving DecidableEq, Repr, Inhabited

namespace Symbol

def text (s : Symbol) : String := s!"Symbol({s.number})"

/-- The greatest number a symbol has room for. -/
def greatest : Nat := 2 ^ (32 : Nat) - 1

/-- The symbol of the text at an index, the next number. Where that has no room it is the greatest
one. -/
def ofIndex (index : Nat) : Symbol := ⟨min (1 + min index greatest) greatest⟩

end Symbol

structure Interner where
  /-- The symbol of each text seen so far. -/
  symbols : List (String × Symbol)
  /-- The texts seen so far, each once. -/
  names : Array String
deriving DecidableEq, Repr

namespace Interner

def empty : Interner := ⟨[], #[]⟩

def size (i : Interner) : Nat := i.names.size

def lookup? (i : Interner) (name : String) : Option Symbol := i.symbols.lookup name

def get? (i : Interner) (s : Symbol) : Option String :=
  if s.number = 0 then none else i.names[s.number - 1]?

/-- The symbol of a text. A text that was not seen before is added under a new symbol. -/
def internAs (i : Interner) (name : String) (new : Symbol) : Symbol × Interner :=
  match i.lookup? name with
  | some s => (s, i)
  | none => (new, ⟨(name, new) :: i.symbols, i.names.push name⟩)

def intern (i : Interner) (name : String) : Symbol × Interner :=
  i.internAs name (.ofIndex i.size)

def internAll (i : Interner) (names : List String) : Interner :=
  names.foldl (fun i name => (i.intern name).2) i

/-- The distinct names of a list, numbered without end. -/
def ofNames (names : List String) : Interner :=
  names.foldl (fun i name => (i.internAs name ⟨i.size + 1⟩).2) empty

def text (i : Interner) : String :=
  let entries := i.names.toList.mapIdx fun k name => s!"{k + 1}: {Quoted.quote name}"
  "\x7b" ++ ", ".intercalate entries ++ "\x7d"

end Interner

end Quill
