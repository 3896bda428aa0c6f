import Quill.Decimal.Text
import Quill.Location
import Quill.Text.Quoted

/-! # Tokens

The words, marks and operators of the language, and the tokens that carry a value.
-/
namespace Quill

inductive BaseType where
  | integer | char | bool | float | double | void
deriving DecidableEq, Repr, Inhabited

namespace BaseType

def text : BaseType → String
  | integer => "integer"
  | char => "char"
  | bool => "bool"
  | float => "float"
  | double => "double"
  | void => "void"

def name : BaseType → String
  | integer => "Integer"
  | char => "Char"
  | bool => "Bool"
  | float => "Float"
  | double => "Double"
  | void => "Void"

def all : List BaseType := [integer, char, bool, float, double, void]

end BaseType

inductive Keyword where
  | function | withArgs | main | call | var | read | print | abort | assert | ret
  | branch | of | or | otherwise | endBranch | doLoop | while
deriving DecidableEq, Repr

namespace Keyword

def text : Keyword → String
  | function => "function"
  | withArgs => "with"
  | main => "main"
  | call => "call"
  | var => "var"
  | read => "read"
  | print => "print"
  | abort => "abort"
  | assert => "assert"
  | ret => "return"
  | branch => "branch"
  | of => "of"
  | or => "or"
  | otherwise => "otherwise"
  | endBranch => "end"
  | doLoop => "do"
  | «while» => "while"

def name : Keyword → String
  | function => "Function"
  | withArgs => "With"
  | main => "Main"
  | call => "Call"
  | var => "Var"
  | read => "Read"
  | print => "Print"
  | abort => "Abort"
  | assert => "Assert"
  | ret => "Return"
  | branch => "Branch"
  | of => "Of"
  | or => "Or"
  | otherwise => "Otherwise"
  | endBranch => "End"
  | doLoop => "Do"
  | «while» => "While"

def all : List Keyword :=
  [function, withArgs, main, call, var, read, print, abort, assert, ret, branch, of, or,
    otherwise, endBranch, doLoop, «while»]

end Keyword

/-- Marks that separate or close. -/
inductive Mark where
  | bang | colon | comma | semicolon | assign
deriving DecidableEq, Repr

namespace Mark

def name : Mark → String
  | bang => "Bang"
  | colon => "Colon"
  | comma => "Comma"
  | semicolon => "Semicolon"
  | assign => "Assign"

end Mark

/-- The binary operators. The star also marks a pointer type. -/
inductive Operator where
  | add | sub | mul | div | shl | shr | lt | gt | le | ge | eq
deriving DecidableEq, Repr, Inhabited

namespace Operator

def symbol : Operator → String
  | add => "+"
  | sub => "-"
  | mul => "*"
  | div => "/"
  | shl => "<<"
  | shr => ">>"
  | lt => "<"
  | gt => ">"
  | le => "<="
  | ge => ">="
  | eq => "=="

def name : Operator → String
  | add => "Add"
  | sub => "Sub"
  | mul => "Mul"
  | div => "Div"
  | shl => "Shl"
  | shr => "Shr"
  | lt => "Lt"
  | gt => "Gt"
  | le => "Le"
  | ge => "Ge"
  | eq => "Eq"

/-- The name of the token, which says nothing of its use. -/
def tokenName : Operator → String
  | add => "Plus"
  | sub => "Minus"
  | mul => "Star"
  | div => "Slash"
  | shl => "Shl"
  | shr => "Shr"
  | lt => "Less"
  | gt => "Greater"
  | le => "LessEq"
  | ge => "GreaterEq"
  | eq => "EqEq"

def all : List Operator := [add, sub, mul, div, shl, shr, lt, gt, le, ge, eq]

def isComparison : Operator → Bool
  | lt | gt | le | ge | eq => true
  | _ => false

def isShift : Operator → Bool
  | shl | shr => true
  | _ => false

/-- Tighter operators have the higher precedence; operators of one level group to the left. -/
def precedence : Operator → Nat
  | lt | gt | le | ge | eq => 1
  | shl | shr => 2
  | add | sub => 3
  | mul | div => 4

end Operator

inductive Token where
  | word (k : Keyword)
  | mark (m : Mark)
  | op (o : Operator)
  | integer (value : UInt64)
  | float (value : Float)
  | name (text : String)
  | typeName (base : BaseType)
  /-- The end of the input. -/
  | eof
  /-- Input that no rule matches. -/
  | unknown (text : String)
deriving Repr, BEq

namespace Token

def isOperator : Token → Bool
  | op _ => true
  | _ => false

def isEof : Token → Bool
  | eof => true
  | _ => false

/-- The word or type name spelled `text`, if it is one. -/
def reserved? (text : String) : Option Token :=
  match Keyword.all.find? (·.text == text) with
  | some k => some (.word k)
  | none => (BaseType.all.find? (·.text == text)).map .typeName

/-! ### Tokens in words -/

def kind : Token → String
  | word k => k.name
  | mark m => m.name
  | op o => o.tokenName
  | integer _ => "Integer"
  | float _ => "Float"
  | name _ => "Identifier"
  | typeName _ => "TypeName"
  | eof => "Eof"
  | unknown _ => "Unknown"

/-- The kind, and in brackets the value if there is one. -/
def text (t : Token) : String :=
  let value? :=
    match t with
    | integer n => some (toString n.toNat)
    | float x => some (Decimal.Layout.telling.text x)
    | name s | unknown s => some (Quoted.quote s)
    | typeName b => some b.name
    | _ => none
  match value? with
  | some v => s!"{t.kind}({v})"
  | none => t.kind

end Token

end Quill
