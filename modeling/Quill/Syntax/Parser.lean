import Quill.Lexer.Lexeme
import Quill.Syntax.Basic

/-! # From lexemes to syntax trees

A cursor moves along the lexemes of a source. The first place where no rule applies is the error,
unless reading failed there or the lexeme itself is unrecognized: either explains the trouble
better than what the rules expected.

Rules call each other to a depth that the number of lexemes bounds, so every rule takes a bound.
One that is left without any stops in a way of its own, and the entry points supply so much of it
that none ever is.
-/
namespace Quill

structure Cursor where
  current : Lexeme
  rest : List Lexeme
  /-- The end of the last lexeme passed. -/
  passed : Location

namespace Cursor

/-- The end of the input, for a list of lexemes that does not contain it. -/
def endLexeme : Lexeme := ⟨.eof, .point .start, [], none⟩

def ofLexemes : List Lexeme → Cursor
  | [] => ⟨endLexeme, [], .start⟩
  | l :: rest => ⟨l, rest, .start⟩

def token (c : Cursor) : Token := c.current.token

def span (c : Cursor) : Span := c.current.span

/-- The last lexeme is never left behind. -/
def advance (c : Cursor) : Cursor :=
  match c.rest with
  | [] => { c with passed := c.current.span.last }
  | l :: rest => ⟨l, rest, c.current.span.last⟩

end Cursor

/-! ### Errors -/

inductive SyntaxError where
  | expected (what : String)
  | unrecognized (text : String)
  | invalidAssignmentTarget
  | notAStatement
  | missingRightSide
  | voidParameter
  /-- The source could not be read to its end. -/
  | unreadable (reason : String)
deriving DecidableEq, Repr

namespace SyntaxError

def message : SyntaxError → String
  | expected what => s!"expected {what}"
  | unrecognized text => s!"unrecognized input `{text}`"
  | invalidAssignmentTarget => "assignment target must be an identifier"
  | notAStatement => "only a function call can be a statement"
  | missingRightSide => "binary operation is missing a right side"
  | voidParameter => "parameters cannot have type void"
  | unreadable reason => s!"cannot read input: {reason}"

end SyntaxError

/-- An error and the lexemes that had not been looked at when it arose. -/
structure SyntaxFailure where
  error : Spanned SyntaxError
  unseen : List Lexeme

/-- Why a rule ends without a result. -/
inductive Parser.Stop where
  | failed (f : SyntaxFailure)
  /-- It was left without any bound. -/
  | outOfBound

abbrev Parser := StateT Cursor (Except Parser.Stop)

namespace Parser

def raise {α : Type} (span : Span) (e : SyntaxError) : Parser α := do
  let c ← get
  throw (.failed ⟨span.at e, c.rest⟩)

/-- A failed read or an unrecognized lexeme takes the place of `e`. -/
def failAt {α : Type} (span : Span) (e : SyntaxError) : Parser α := do
  let c ← get
  match c.current.failure, c.token with
  | some reason, _ => raise c.span (.unreadable reason)
  | none, .unknown text => raise c.span (.unrecognized text)
  | none, _ => raise span e

def unexpected {α : Type} (what : String) : Parser α := do
  failAt (← get).span (.expected what)

def isWord (k : Keyword) : Parser Bool := do
  match (← get).token with
  | .word k' => return k' == k
  | _ => return false

def isMark (m : Mark) : Parser Bool := do
  match (← get).token with
  | .mark m' => return m' == m
  | _ => return false

def advance : Parser Unit := modify Cursor.advance

def takeWord (k : Keyword) : Parser Bool := do
  let found ← isWord k
  if found then advance
  return found

def takeMark (m : Mark) : Parser Bool := do
  let found ← isMark m
  if found then advance
  return found

def word (k : Keyword) (what : String) : Parser Unit := do
  if !(← takeWord k) then unexpected what

def mark (m : Mark) (what : String) : Parser Unit := do
  if !(← takeMark m) then unexpected what

def here : Parser Location := return (← get).span.first

def spanFrom (first : Location) : Parser Span := return ⟨first, (← get).passed⟩

def ident (what : String) : Parser Ident := do
  let c ← get
  match c.token with
  | .name text =>
    advance
    return ⟨text, c.span⟩
  | _ => unexpected what

def typeExpr : Parser TypeExpr := do
  let isPointer ← do
    match (← get).token with
    | .op .mul =>
      advance
      pure true
    | _ => pure false
  match (← get).token with
  | .typeName base =>
    advance
    return ⟨base, isPointer⟩
  | _ => unexpected "type name"

/-- Whether the list that `with` opens goes on: a comma says so and a semicolon closes it. -/
def listGoesOn (what : String) : Parser Bool := do
  if ← takeMark .comma then return true
  if ← takeMark .semicolon then return false
  unexpected what

/-- Whether a list follows: `with` opens one and a semicolon stands for none. -/
def listFollows (what : String) : Parser Bool := do
  if ← takeWord .withArgs then return true
  if ← takeMark .semicolon then return false
  unexpected what

mutual

/-- An expression all of whose outermost operators have precedence `min` or more. None if the
lexeme at hand begins no expression. -/
def exprFrom (bound min : Nat) : Parser (Option Expr) :=
  match bound with
  | 0 => throw .outOfBound
  | bound + 1 => do
    match ← atom bound with
    | none => return none
    | some lhs => climb bound min lhs

/-- Continues `lhs` by operators of precedence `min` or more. A right operand only takes tighter
operators, so operators of one level group to the left. -/
def climb (bound min : Nat) (lhs : Expr) : Parser Expr :=
  match bound with
  | 0 => throw .outOfBound
  | bound + 1 => do
    let c ← get
    match c.token with
    | .op o =>
      if o.precedence < min then return lhs
      advance
      match ← exprFrom bound (o.precedence + 1) with
      | none => failAt c.span .missingRightSide
      | some rhs => climb bound min (.binary o lhs rhs)
    | _ => return lhs

def atom (bound : Nat) : Parser (Option Expr) :=
  match bound with
  | 0 => throw .outOfBound
  | bound + 1 => do
    let c ← get
    match c.token with
    | .word .call => call bound
    | .name text =>
      advance
      return some (.var ⟨text, c.span⟩)
    | .integer n =>
      advance
      return some (.int n c.span)
    | .float x =>
      advance
      return some (.float x c.span)
    | _ => return none

def call (bound : Nat) : Parser Expr :=
  match bound with
  | 0 => throw .outOfBound
  | bound + 1 => do
    let first ← here
    word .call "call"
    let callee ← ident "name of the function to call"
    let args ←
      if ← listFollows "either call arguments or end of call" then arguments bound
      else pure []
    return .call callee args (← spanFrom first)

def arguments (bound : Nat) : Parser (List Expr) :=
  match bound with
  | 0 => throw .outOfBound
  | bound + 1 => do
    let arg ← expr bound
    if ← listGoesOn "either more arguments or end of call" then
      return arg :: (← arguments bound)
    else return [arg]

def expr (bound : Nat) : Parser Expr :=
  match bound with
  | 0 => throw .outOfBound
  | bound + 1 => do
    match ← exprFrom bound 0 with
    | some e => return e
    | none => unexpected "expression"

end

/-- An assignment, a print or a call: what follows the expression decides. -/
def exprStmt (bound : Nat) (first : Location) : Parser Stmt := do
  let e ← expr bound
  if ← takeMark .assign then
    match e with
    | .var target =>
      let value ← expr bound
      return .assign target value (← spanFrom first)
    | _ => raise e.span .invalidAssignmentTarget
  else if ← takeWord .print then return .print e (← spanFrom first)
  else
    match e with
    | .call callee args span => return .call callee args span
    | _ => raise e.span .notAStatement

/-- The operator of a case; equality if none is written. -/
def caseOperator : Parser Operator := do
  match (← get).token with
  | .op o =>
    advance
    return o
  | _ => return .eq

mutual

def stmts (bound : Nat) : Parser (List Stmt) :=
  match bound with
  | 0 => throw .outOfBound
  | bound + 1 => do
    match ← stmt? bound with
    | none => return []
    | some s => return s :: (← stmts bound)

/-- The next statement after any commas. None if the lexeme at hand begins no statement. -/
def stmt? (bound : Nat) : Parser (Option Stmt) :=
  match bound with
  | 0 => throw .outOfBound
  | bound + 1 => do
    let first ← here
    match (← get).token with
    | .mark .comma =>
      advance
      stmt? bound
    | .word .assert =>
      advance
      let condition ← expr bound
      mark .bang "final !"
      return some (.assert condition (← spanFrom first))
    | .word .read =>
      advance
      let target ← ident "variable name"
      return some (.read target (← spanFrom first))
    | .word .abort =>
      advance
      return some (.abort (← spanFrom first))
    | .word .ret =>
      advance
      if ← takeMark .bang then return some (.ret none (← spanFrom first))
      let value ← expr bound
      mark .bang "!"
      return some (.ret (some value) (← spanFrom first))
    | .word .var =>
      advance
      let target ← ident "variable name"
      mark .colon ":"
      let type ← typeExpr
      let init ← if ← takeMark .assign then some <$> expr bound else pure none
      return some (.declare target type init (← spanFrom first))
    | .word .doLoop =>
      advance
      let body ← stmts bound
      word .while "statement"
      let condition ← expr bound
      return some (.loop body condition (← spanFrom first))
    | .word .branch =>
      advance
      let lead ← ident "variable name"
      word .of "of"
      let cases ← cases bound lead
      let otherwise ←
        if ← takeWord .otherwise then
          discard (takeMark .colon)
          some <$> stmts bound
        else pure none
      word .endBranch "end of branch"
      return some (.branch lead cases otherwise (← spanFrom first))
    | .name _ | .integer _ | .float _ | .word .call => some <$> exprStmt bound first
    | _ => return none

/-- One case or more, with `or` between them. The conditions of all have `lead` as their left
operand. -/
def cases (bound : Nat) (lead : Ident) : Parser (List Case) :=
  match bound with
  | 0 => throw .outOfBound
  | bound + 1 => do
    let first ← here
    let op ← caseOperator
    let rhs ← expr bound
    let condition := .semi op lead rhs (← spanFrom first)
    discard (takeMark .colon)
    let body ← stmts bound
    match (← get).token with
    | .word .or =>
      advance
      return .mk condition body :: (← cases bound lead)
    | .word .otherwise | .word .endBranch => return [.mk condition body]
    | _ => unexpected "other cases, otherwise case or end of branch"

end

def param : Parser Param := do
  let name ← ident "parameter name"
  mark .colon ":"
  let type ← typeExpr
  if type.isVoid then raise name.span .voidParameter
  return ⟨name, type⟩

def params (bound : Nat) : Parser (List Param) :=
  match bound with
  | 0 => throw .outOfBound
  | bound + 1 => do
    let p ← param
    if ← listGoesOn "either more parameters or function body begin" then
      return p :: (← params bound)
    else return [p]

/-- The type before a function's name; a function without one gives nothing. -/
def resultType : Parser TypeExpr := do
  match (← get).token with
  | .typeName _ | .op .mul => typeExpr
  | _ => return .void

def functionDecl (bound : Nat) : Parser FunctionDecl := do
  let first ← here
  word .function "function"
  let result ← resultType
  let name ← ident "function name"
  let params ←
    if ← listFollows "either parameters or function body begin" then params bound
    else pure []
  let body ← stmts bound
  return { name, result, params, body, span := ← spanFrom first }

def functionDecls (bound : Nat) : Parser (List FunctionDecl) :=
  match bound with
  | 0 => throw .outOfBound
  | bound + 1 => do
    if ← isWord .function then
      let f ← functionDecl bound
      return f :: (← functionDecls bound)
    else return []

def entryPoint (bound : Nat) : Parser EntryPoint := do
  let first ← here
  word .main "main"
  let body ← stmts bound
  return { body, span := ← spanFrom first }

def program (bound : Nat) (fileName : String) : Parser Program := do
  let before ← functionDecls bound
  if ← isWord .main then
    let main ← entryPoint bound
    let after ← functionDecls bound
    return { functions := before ++ after, main := some main, fileName }
  else return { functions := before, main := none, fileName }

/-- Nothing may follow, and the source must have been read to its end. -/
def finish : Parser Unit := do
  match (← get).token with
  | .eof => advance
  | _ => unexpected "end of file"
  let c ← get
  match c.current.failure with
  | some reason => raise c.span (.unreadable reason)
  | none => return

/-- More than the depth that rules can reach on that many lexemes. -/
def boundFor (lexemes : List Lexeme) : Nat := 8 * (lexemes.length + 1)

def runWhole {α : Type} (p : Nat → Parser α) (lexemes : List Lexeme) :
    Except Stop α := do
  let whole := do
    let a ← p (boundFor lexemes)
    finish
    return a
  whole.run' (.ofLexemes lexemes)

end Parser

namespace Program

def ofLexemes (fileName : String) (lexemes : List Lexeme) : Except Parser.Stop Program :=
  Parser.runWhole (Parser.program · fileName) lexemes

end Program

namespace Expr

def ofLexemes (lexemes : List Lexeme) : Except Parser.Stop Expr :=
  Parser.runWhole Parser.expr lexemes

end Expr

end Quill
