import Quill.Proofs.Syntax.Moves

/-! # Behind the leading word of a statement

Most statements are told apart by their first lexeme. What the parser does from the second lexeme
on is named here, one tail for each leading word, so that what holds of statements can be said of
one tail at a time.
-/
namespace Quill.Parser

def assertTail (bound : Nat) (first : Location) : Parser (Option Stmt) := do
  let condition ← expr bound
  mark .bang "final !"
  return some (.assert condition (← spanFrom first))

def readTail (first : Location) : Parser (Option Stmt) := do
  let target ← ident "variable name"
  return some (.read target (← spanFrom first))

def abortTail (first : Location) : Parser (Option Stmt) := do
  return some (.abort (← spanFrom first))

def retTail (bound : Nat) (first : Location) : Parser (Option Stmt) := do
  if ← takeMark .bang then return some (.ret none (← spanFrom first))
  let value ← expr bound
  mark .bang "!"
  return some (.ret (some value) (← spanFrom first))

def declareTail (bound : Nat) (first : Location) : Parser (Option Stmt) := do
  let target ← ident "variable name"
  mark .colon ":"
  let type ← typeExpr
  let init ← if ← takeMark .assign then some <$> expr bound else pure none
  return some (.declare target type init (← spanFrom first))

def loopTail (bound : Nat) (first : Location) : Parser (Option Stmt) := do
  let body ← stmts bound
  word .while "statement"
  let condition ← expr bound
  return some (.loop body condition (← spanFrom first))

def branchTail (bound : Nat) (first : Location) : Parser (Option Stmt) := do
  let lead ← ident "variable name"
  word .of "of"
  let cases ← cases bound lead
  let otherwise ←
    if ← takeWord .otherwise then
      discard (takeMark .colon)
      some <$> stmts bound
    else pure none
  word .endBranch "end of branch"
  return some (.branch lead cases otherwise (← spanFrom first))

/-- The tail behind a leading word, for every bound. -/
inductive LeadsTo (first : Location) : Keyword → (Nat → Parser (Option Stmt)) → Prop
  | assert : LeadsTo first .assert (assertTail · first)
  | read : LeadsTo first .read fun _ => readTail first
  | abort : LeadsTo first .abort fun _ => abortTail first
  | ret : LeadsTo first .ret (retTail · first)
  | declare : LeadsTo first .var (declareTail · first)
  | loop : LeadsTo first .doLoop (loopTail · first)
  | branch : LeadsTo first .branch (branchTail · first)

/-- How a statement is parsed that begins with the lexeme at hand, for every bound. -/
inductive Begins (c : Cursor) : (Nat → Parser (Option Stmt)) → Prop
  | comma : c.token = .mark .comma → Begins c fun bound => do advance; stmt? bound
  | led {k tail} : c.token = .word k → LeadsTo c.span.first k tail →
      Begins c fun bound => do advance; tail bound
  | expr : Begins c fun bound => some <$> exprStmt bound c.span.first
  | none : Begins c fun _ => pure none

variable {c : Cursor}

theorem stmt?_led {k : Keyword} {tail : Nat → Parser (Option Stmt)} (hc : c.token = .word k)
    (ht : LeadsTo c.span.first k tail) (bound : Nat) :
    (stmt? (bound + 1)).run c = (tail bound).run c.advance := by
  refine (bind_ok here_ok).trans ?_
  rw [get_bind, hc]
  cases ht <;> rfl

theorem stmt?_begins (c : Cursor) :
    ∃ x, Begins c x ∧ ∀ bound, (stmt? (bound + 1)).run c = (x bound).run c := by
  have hrun (bound : Nat) : (stmt? (bound + 1)).run c = _ := (bind_ok here_ok).trans get_bind
  have hled {k : Keyword} {tail : Nat → Parser (Option Stmt)} (hc : c.token = .word k)
      (ht : LeadsTo c.span.first k tail) :
      ∃ x, Begins c x ∧ ∀ bound, (stmt? (bound + 1)).run c = (x bound).run c :=
    ⟨_, .led hc ht, stmt?_led hc ht⟩
  cases hc : c.token with
  | word k =>
    cases k with
    | assert => exact hled hc .assert
    | read => exact hled hc .read
    | abort => exact hled hc .abort
    | ret => exact hled hc .ret
    | var => exact hled hc .declare
    | doLoop => exact hled hc .loop
    | branch => exact hled hc .branch
    | call => exact ⟨_, .expr, fun bound => by rw [hrun, hc]⟩
    | _ => exact ⟨_, .none, fun bound => by rw [hrun, hc]⟩
  | mark m =>
    cases m with
    | comma => exact ⟨_, .comma hc, fun bound => by rw [hrun, hc]⟩
    | _ => exact ⟨_, .none, fun bound => by rw [hrun, hc]⟩
  | name | integer | float => exact ⟨_, .expr, fun bound => by rw [hrun, hc]⟩
  | _ => exact ⟨_, .none, fun bound => by rw [hrun, hc]⟩

end Quill.Parser
