import Quill.Proofs.Lexer.Whole
import Quill.Proofs.Syntax.Interner
import Quill.Proofs.Syntax.Tails
import Quill.Source

/-! # Names in syntax trees

Every name in a syntax tree is the name on a lexeme of its source. So each has a number, and none
is spelled like a word of the language.
-/
namespace Quill

mutual

def Expr.names : Expr → List String
  | .int .. | .float .. => []
  | .var x => [x.text]
  | .binary _ lhs rhs => lhs.names ++ rhs.names
  | .semi _ lead rhs _ => lead.text :: rhs.names
  | .call callee args _ => callee.text :: Expr.namesAll args

def Expr.namesAll : List Expr → List String
  | [] => []
  | e :: rest => e.names ++ Expr.namesAll rest

end

mutual

def Stmt.names : Stmt → List String
  | .assert c _ => c.names
  | .read x _ => [x.text]
  | .abort _ => []
  | .call callee args _ => callee.text :: Expr.namesAll args
  | .print e _ => e.names
  | .assign x e _ => x.text :: e.names
  | .declare x _ none _ => [x.text]
  | .declare x _ (some e) _ => x.text :: e.names
  | .loop body c _ => Stmt.namesAll body ++ c.names
  | .branch lead cs none _ => lead.text :: Case.namesAll cs
  | .branch lead cs (some body) _ => lead.text :: (Case.namesAll cs ++ Stmt.namesAll body)
  | .ret none _ => []
  | .ret (some e) _ => e.names

def Stmt.namesAll : List Stmt → List String
  | [] => []
  | s :: rest => s.names ++ Stmt.namesAll rest

def Case.namesAll : List Case → List String
  | [] => []
  | .mk c body :: rest => c.names ++ (Stmt.namesAll body ++ Case.namesAll rest)

end

theorem Expr.namesAll_eq (es : List Expr) : namesAll es = es.flatMap names := by
  induction es with
  | nil => rfl
  | cons e es ih => rw [namesAll, List.flatMap_cons, ih]

theorem Stmt.namesAll_eq (ss : List Stmt) : namesAll ss = ss.flatMap names := by
  induction ss with
  | nil => rfl
  | cons s ss ih => rw [namesAll, List.flatMap_cons, ih]

def FunctionDecl.names (f : FunctionDecl) : List String :=
  f.name.text :: (f.params.map (·.name.text) ++ Stmt.namesAll f.body)

def Program.names (p : Program) : List String :=
  p.functions.flatMap FunctionDecl.names ++ (p.main.map (Stmt.namesAll ·.body)).getD []

/-! ### Rules keep to the names ahead -/

def Cursor.Names (P : String → Prop) (c : Cursor) : Prop :=
  ∀ l ∈ c.current :: c.rest, ∀ x, l.token = .name x → P x

theorem Cursor.Names.advance {P : String → Prop} {c : Cursor} (h : c.Names P) :
    c.advance.Names P := by
  unfold Cursor.advance
  split
  · exact h
  · rename_i l rest hrest
    intro l' hl'
    exact h l' (List.mem_cons_of_mem _ (hrest ▸ hl'))

theorem Cursor.Names.name {P : String → Prop} {c : Cursor} {x : String} (h : c.Names P)
    (hx : c.token = .name x) : P x :=
  h c.current List.mem_cons_self x hx

namespace Parser

variable {α β : Type} {P : String → Prop} {x : Parser α} {Q R : α → Prop}

/-- With names ahead that satisfy `P`, what `x` yields satisfies `Q`. -/
def Yields (P : String → Prop) (x : Parser α) (Q : α → Prop) : Prop :=
  ∀ c, c.Names P → ∀ a c', x.run c = .ok (a, c') → c'.Names P ∧ Q a

namespace Yields

theorem of_run (h : ∀ c, ∃ y : Parser α, x.run c = y.run c ∧ Yields P y Q) : Yields P x Q := by
  intro c hc a c' hrun
  obtain ⟨y, heq, hy⟩ := h c
  exact hy c hc a c' (heq ▸ hrun)

theorem pure {a : α} (h : Q a) : Yields P (Pure.pure a) Q := by
  intro c hc a' c' hrun
  obtain ⟨rfl, rfl⟩ := Prod.mk.inj (Except.ok.inj hrun)
  exact ⟨hc, h⟩

theorem bind {S : β → Prop} {f : α → Parser β} (h : Yields P x Q)
    (hf : ∀ a, Q a → Yields P (f a) S) : Yields P (x >>= f) S := by
  intro c hc b c' hrun
  have hbind : (x >>= f).run c = x.run c >>= fun r => (f r.1).run r.2 := rfl
  rw [hbind] at hrun
  cases hx : x.run c with
  | error e => simp [hx, Bind.bind, Except.bind] at hrun
  | ok r =>
    obtain ⟨a, c₁⟩ := r
    obtain ⟨hc₁, ha⟩ := h c hc a c₁ hx
    rw [hx] at hrun
    exact hf a ha c₁ hc₁ b c' hrun

theorem mono (h : Yields P x Q) (hQ : ∀ a, Q a → R a) : Yields P x R := by
  intro c hc a c' hrun
  obtain ⟨hc', ha⟩ := h c hc a c' hrun
  exact ⟨hc', hQ a ha⟩

theorem map {S : β → Prop} {f : α → β} (h : Yields P x Q) (hS : ∀ a, Q a → S (f a)) :
    Yields P (f <$> x) S := by
  rw [map_eq_pure_bind]
  exact h.bind fun a ha => .pure (hS a ha)

theorem some (h : Yields P x Q) : Yields P (some <$> x) fun o => ∀ a ∈ o, Q a :=
  h.map fun _ ha _ hb => Option.some.inj hb ▸ ha

theorem discard (h : Yields P x Q) : Yields P (discard x) fun _ => True :=
  h.map fun _ _ => True.intro

theorem get : Yields P get fun c => c.Names P := by
  intro c hc a c' hrun
  obtain ⟨rfl, rfl⟩ := Prod.mk.inj (Except.ok.inj hrun)
  exact ⟨hc, hc⟩

theorem raise {span : Span} {e : SyntaxError} : Yields P (Parser.raise span e : Parser α) Q := by
  intro c _ a c' hrun
  cases hrun

theorem stopped {s : Stop} : Yields P (throw s : Parser α) Q := by
  intro c _ a c' hrun
  cases hrun

theorem failAt {span : Span} {e : SyntaxError} : Yields P (Parser.failAt span e : Parser α) Q := by
  refine get.bind fun c _ => ?_
  split <;> exact raise

theorem unexpected {what : String} : Yields P (Parser.unexpected what : Parser α) Q :=
  get.bind fun _ _ => failAt

theorem advance : Yields P Parser.advance fun _ => True := by
  intro c hc a c' hrun
  obtain ⟨-, rfl⟩ := Prod.mk.inj (Except.ok.inj hrun)
  exact ⟨hc.advance, True.intro⟩

theorem isWord {k : Keyword} : Yields P (Parser.isWord k) fun _ => True := by
  refine get.bind fun c _ => ?_
  split <;> exact .pure True.intro

theorem isMark {m : Mark} : Yields P (Parser.isMark m) fun _ => True := by
  refine get.bind fun c _ => ?_
  split <;> exact .pure True.intro

theorem takeWord {k : Keyword} : Yields P (Parser.takeWord k) fun _ => True := by
  refine isWord.bind fun found _ => ?_
  split
  · exact advance.bind fun _ _ => .pure True.intro
  · exact .pure True.intro

theorem takeMark {m : Mark} : Yields P (Parser.takeMark m) fun _ => True := by
  refine isMark.bind fun found _ => ?_
  split
  · exact advance.bind fun _ _ => .pure True.intro
  · exact .pure True.intro

theorem word {k : Keyword} {what : String} : Yields P (Parser.word k what) fun _ => True := by
  refine takeWord.bind fun found _ => ?_
  split
  · exact unexpected
  · exact .pure True.intro

theorem mark {m : Mark} {what : String} : Yields P (Parser.mark m what) fun _ => True := by
  refine takeMark.bind fun found _ => ?_
  split
  · exact unexpected
  · exact .pure True.intro

theorem here : Yields P Parser.here fun _ => True := get.bind fun _ _ => .pure True.intro

theorem spanFrom {first : Location} : Yields P (Parser.spanFrom first) fun _ => True :=
  get.bind fun _ _ => .pure True.intro

theorem ident {what : String} : Yields P (Parser.ident what) fun x => P x.text := by
  refine get.bind fun c hc => ?_
  split
  · rename_i x hx
    exact advance.bind fun _ _ => .pure (hc.name hx)
  · exact unexpected

theorem typeName (isPointer : Bool) : Yields P (do
    match (← MonadState.get).token with
    | .typeName base =>
      Parser.advance
      return ⟨base, isPointer⟩
    | _ => Parser.unexpected "type name" : Parser TypeExpr) fun _ => True := by
  refine get.bind fun c _ => ?_
  split
  · exact advance.bind fun _ _ => .pure True.intro
  · exact unexpected

theorem typeExpr : Yields P Parser.typeExpr fun _ => True := by
  refine get.bind fun c _ => ?_
  dsimp only
  split
  · exact advance.bind fun _ _ => typeName true
  · exact typeName false

theorem listGoesOn {what : String} : Yields P (Parser.listGoesOn what) fun _ => True := by
  refine takeMark.bind fun _ _ => ?_
  split
  · exact .pure True.intro
  refine takeMark.bind fun _ _ => ?_
  split
  · exact .pure True.intro
  · exact unexpected

theorem listFollows {what : String} : Yields P (Parser.listFollows what) fun _ => True := by
  refine takeWord.bind fun _ _ => ?_
  split
  · exact .pure True.intro
  refine takeMark.bind fun _ _ => ?_
  split
  · exact .pure True.intro
  · exact unexpected

theorem readable : Yields P (do
    let c ← MonadState.get
    match c.current.failure with
    | .some reason => Parser.raise c.span (.unreadable reason)
    | .none => return) fun _ => True := by
  refine get.bind fun c _ => ?_
  split
  · exact .raise
  · exact .pure True.intro

theorem finish : Yields P Parser.finish fun _ => True := by
  refine get.bind fun c _ => ?_
  dsimp only
  split
  · exact advance.bind fun _ _ => readable
  · exact unexpected.bind (Q := fun _ => True) fun _ _ => readable

end Yields

/-! ### Expressions -/

mutual

theorem exprFrom_yields (bound min : Nat) :
    Yields P (exprFrom bound min) fun e => ∀ a ∈ e, ∀ x ∈ a.names, P x := by
  cases bound with
  | zero => exact .stopped
  | succ bound =>
    refine (atom_yields bound).bind fun e he => ?_
    cases e with
    | none => exact .pure (by simp)
    | some lhs =>
      refine .map (climb_yields bound min (he lhs rfl)) fun e he => ?_
      simpa using he

theorem climb_yields (bound min : Nat) {lhs : Expr} (h : ∀ x ∈ lhs.names, P x) :
    Yields P (climb bound min lhs) fun e => ∀ x ∈ e.names, P x := by
  cases bound with
  | zero => exact .stopped
  | succ bound =>
    refine Yields.get.bind fun c _ => ?_
    split
    · split
      · exact .pure h
      refine Yields.advance.bind fun _ _ => ?_
      refine (exprFrom_yields bound _).bind fun rhs hrhs => ?_
      split
      · exact .failAt
      · rename_i rhs
        refine climb_yields bound min fun x hx => ?_
        rcases List.mem_append.1 hx with hx | hx
        · exact h x hx
        · exact hrhs rhs rfl x hx
    · exact .pure h

theorem atom_yields (bound : Nat) :
    Yields P (atom bound) fun e => ∀ a ∈ e, ∀ x ∈ a.names, P x := by
  cases bound with
  | zero => exact .stopped
  | succ bound =>
    refine Yields.get.bind fun c hc => ?_
    split
    · exact .map (call_yields bound) fun e he => by simpa using he
    · rename_i text htext
      refine Yields.advance.bind fun _ _ => .pure ?_
      simpa [Expr.names] using hc.name htext
    · exact Yields.advance.bind fun _ _ => .pure (by simp [Expr.names])
    · exact Yields.advance.bind fun _ _ => .pure (by simp [Expr.names])
    · exact .pure (by simp)

theorem call_yields (bound : Nat) : Yields P (call bound) fun e => ∀ x ∈ e.names, P x := by
  cases bound with
  | zero => exact .stopped
  | succ bound =>
    refine Yields.here.bind fun first _ => ?_
    refine Yields.word.bind fun _ _ => ?_
    refine Yields.ident.bind fun callee hcallee => ?_
    refine Yields.listFollows.bind fun goes _ => ?_
    have hcall (args : List Expr) (hargs : ∀ x ∈ Expr.namesAll args, P x) :
        Yields P (do return Expr.call callee args (← spanFrom first)) fun e => ∀ x ∈ e.names, P x :=
      Yields.spanFrom.bind fun _ _ => .pure fun x hx => by
        rcases List.mem_cons.1 hx with rfl | hx
        · exact hcallee
        · exact hargs x hx
    split
    · exact (arguments_yields bound).bind hcall
    · exact hcall [] (by simp [Expr.namesAll])

theorem arguments_yields (bound : Nat) :
    Yields P (arguments bound) fun es => ∀ x ∈ Expr.namesAll es, P x := by
  cases bound with
  | zero => exact .stopped
  | succ bound =>
    refine (expr_yields bound).bind fun arg harg => ?_
    refine Yields.listGoesOn.bind fun goes _ => ?_
    split
    · refine (arguments_yields bound).bind fun args hargs => .pure fun x hx => ?_
      rcases List.mem_append.1 hx with hx | hx
      · exact harg x hx
      · exact hargs x hx
    · exact .pure (by simpa [Expr.namesAll] using harg)

theorem expr_yields (bound : Nat) : Yields P (expr bound) fun e => ∀ x ∈ e.names, P x := by
  cases bound with
  | zero => exact .stopped
  | succ bound =>
    refine (exprFrom_yields bound 0).bind fun e he => ?_
    split
    · exact .pure (he _ rfl)
    · exact .unexpected

end

/-! ### Statements -/

theorem exprStmt_yields (bound : Nat) (first : Location) :
    Yields P (exprStmt bound first) fun s => ∀ x ∈ s.names, P x := by
  refine (expr_yields bound).bind fun e he => ?_
  refine Yields.takeMark.bind fun _ _ => ?_
  split
  · split
    · refine (expr_yields bound).bind fun value hvalue => ?_
      refine Yields.spanFrom.bind fun _ _ => .pure fun x hx => ?_
      rcases List.mem_cons.1 hx with rfl | hx
      · exact he _ (List.mem_singleton_self _)
      · exact hvalue x hx
    · exact .raise
  · refine Yields.takeWord.bind fun _ _ => ?_
    split
    · exact Yields.spanFrom.bind fun _ _ => .pure he
    · split
      · exact .pure he
      · exact .raise

theorem caseOperator_yields : Yields P caseOperator fun _ => True := by
  refine Yields.get.bind fun c _ => ?_
  split
  · exact Yields.advance.bind fun _ _ => .pure True.intro
  · exact .pure True.intro

/-- The last act of a statement, with names that are told before its span. -/
theorem spanned_yields {f : Span → Stmt} (first : Location)
    (h : ∀ span, ∀ x ∈ (f span).names, P x) :
    Yields P (do return some (f (← spanFrom first))) fun s => ∀ a ∈ s, ∀ x ∈ a.names, P x :=
  Yields.spanFrom.bind fun span _ => .pure (by simpa using h span)

section

variable (bound : Nat) (first : Location)

theorem assertTail_yields :
    Yields P (assertTail bound first) fun s => ∀ a ∈ s, ∀ x ∈ a.names, P x :=
  (expr_yields bound).bind fun e he => Yields.mark.bind fun _ _ =>
    spanned_yields (f := .assert e) first fun _ => he

theorem readTail_yields : Yields P (readTail first) fun s => ∀ a ∈ s, ∀ x ∈ a.names, P x :=
  Yields.ident.bind fun x hx =>
    spanned_yields (f := .read x) first fun _ => by simpa [Stmt.names] using hx

theorem abortTail_yields : Yields P (abortTail first) fun s => ∀ a ∈ s, ∀ x ∈ a.names, P x :=
  spanned_yields (f := .abort) first fun _ => by simp [Stmt.names]

theorem retTail_yields :
    Yields P (retTail bound first) fun s => ∀ a ∈ s, ∀ x ∈ a.names, P x := by
  refine Yields.takeMark.bind fun _ _ => ?_
  split
  · exact spanned_yields (f := .ret none) first fun _ => by simp [Stmt.names]
  · refine (expr_yields bound).bind fun e he => Yields.mark.bind fun _ _ => ?_
    exact spanned_yields (f := .ret (some e)) first fun _ => he

theorem declareTail_yields :
    Yields P (declareTail bound first) fun s => ∀ a ∈ s, ∀ x ∈ a.names, P x := by
  refine Yields.ident.bind fun x hx => Yields.mark.bind fun _ _ => ?_
  refine Yields.typeExpr.bind fun type _ => Yields.takeMark.bind fun _ _ => ?_
  split
  · refine (Yields.some (expr_yields bound)).bind fun init hinit => ?_
    refine spanned_yields (f := .declare x type init) first fun _ y hy => ?_
    cases init with
    | none => exact List.mem_singleton.1 hy ▸ hx
    | some e =>
      rcases List.mem_cons.1 hy with rfl | hy
      · exact hx
      · exact hinit e rfl y hy
  · exact spanned_yields (f := .declare x type none) first fun _ => by simpa [Stmt.names] using hx

theorem loopTail_yields (hstmts : Yields P (stmts bound) fun ss => ∀ x ∈ Stmt.namesAll ss, P x) :
    Yields P (loopTail bound first) fun s => ∀ a ∈ s, ∀ x ∈ a.names, P x := by
  refine hstmts.bind fun body hbody => Yields.word.bind fun _ _ => ?_
  refine (expr_yields bound).bind fun c hc => ?_
  refine spanned_yields (f := .loop body c) first fun _ x hx => ?_
  rcases List.mem_append.1 hx with hx | hx
  · exact hbody x hx
  · exact hc x hx

theorem branchTail_yields (hstmts : Yields P (stmts bound) fun ss => ∀ x ∈ Stmt.namesAll ss, P x)
    (hcases : ∀ lead : Ident, P lead.text →
      Yields P (cases bound lead) fun cs => ∀ x ∈ Case.namesAll cs, P x) :
    Yields P (branchTail bound first) fun s => ∀ a ∈ s, ∀ x ∈ a.names, P x := by
  refine Yields.ident.bind fun lead hlead => Yields.word.bind fun _ _ => ?_
  refine (hcases lead hlead).bind fun cs hcs => ?_
  have hbranch (otherwise : Option (List Stmt))
      (h : ∀ body ∈ otherwise, ∀ x ∈ Stmt.namesAll body, P x) (span : Span) :
      ∀ x ∈ (Stmt.branch lead cs otherwise span).names, P x := by
    intro x hx
    cases otherwise with
    | none =>
      rcases List.mem_cons.1 hx with rfl | hx
      · exact hlead
      · exact hcs x hx
    | some body =>
      rcases List.mem_cons.1 hx with rfl | hx
      · exact hlead
      rcases List.mem_append.1 hx with hx | hx
      · exact hcs x hx
      · exact h body rfl x hx
  refine Yields.takeWord.bind fun _ _ => ?_
  split
  · refine Yields.takeMark.discard.bind fun _ _ => ?_
    refine (Yields.some hstmts).bind fun otherwise hotherwise => ?_
    exact Yields.word.bind fun _ _ => spanned_yields first (hbranch otherwise hotherwise)
  · exact Yields.word.bind fun _ _ => spanned_yields first (hbranch none (by simp))

end

mutual

theorem stmts_yields (bound : Nat) :
    Yields P (stmts bound) fun ss => ∀ x ∈ Stmt.namesAll ss, P x := by
  cases bound with
  | zero => exact .stopped
  | succ bound =>
    refine (stmt?_yields bound).bind fun s hs => ?_
    split
    · exact .pure (by simp [Stmt.namesAll])
    · refine (stmts_yields bound).bind fun rest hrest => .pure fun x hx => ?_
      rcases List.mem_append.1 hx with hx | hx
      · exact hs _ rfl x hx
      · exact hrest x hx

theorem stmt?_yields (bound : Nat) :
    Yields P (stmt? bound) fun s => ∀ a ∈ s, ∀ x ∈ a.names, P x := by
  cases bound with
  | zero => exact .stopped
  | succ bound =>
    refine .of_run fun c => ?_
    obtain ⟨x, hx, hrun⟩ := stmt?_begins c
    refine ⟨_, hrun bound, ?_⟩
    cases hx with
    | comma => exact Yields.advance.bind fun _ _ => stmt?_yields bound
    | led _ htail =>
      refine Yields.advance.bind fun _ _ => ?_
      cases htail with
      | assert => exact assertTail_yields bound _
      | read => exact readTail_yields _
      | abort => exact abortTail_yields _
      | ret => exact retTail_yields bound _
      | declare => exact declareTail_yields bound _
      | loop => exact loopTail_yields bound _ (stmts_yields bound)
      | branch =>
        exact branchTail_yields bound _ (stmts_yields bound) fun _ hlead => cases_yields bound hlead
    | expr => exact (exprStmt_yields bound _).some
    | none => exact .pure (by simp)

theorem cases_yields (bound : Nat) {lead : Ident} (hlead : P lead.text) :
    Yields P (cases bound lead) fun cs => ∀ x ∈ Case.namesAll cs, P x := by
  cases bound with
  | zero => exact .stopped
  | succ bound =>
    refine Yields.here.bind fun first _ => caseOperator_yields.bind fun op _ => ?_
    refine (expr_yields bound).bind fun rhs hrhs => Yields.spanFrom.bind fun span _ => ?_
    refine Yields.takeMark.discard.bind fun _ _ => (stmts_yields bound).bind fun body hbody => ?_
    have hcase (rest : List Case) (h : ∀ x ∈ Case.namesAll rest, P x) :
        ∀ x ∈ Case.namesAll (.mk (.semi op lead rhs span) body :: rest), P x := by
      intro x hx
      rcases List.mem_append.1 hx with hx | hx
      · rcases List.mem_cons.1 hx with rfl | hx
        · exact hlead
        · exact hrhs x hx
      rcases List.mem_append.1 hx with hx | hx
      · exact hbody x hx
      · exact h x hx
    refine Yields.get.bind fun c _ => ?_
    split
    · refine Yields.advance.bind fun _ _ => (cases_yields bound hlead).bind fun rest hrest => ?_
      exact .pure (hcase rest hrest)
    · exact .pure (hcase [] (by simp [Case.namesAll]))
    · exact .pure (hcase [] (by simp [Case.namesAll]))
    · exact .unexpected

end

/-! ### Programs -/

/-- The names satisfy `P`, and no parameter is void. -/
def Declared (P : String → Prop) (f : FunctionDecl) : Prop :=
  (∀ x ∈ f.names, P x) ∧ ∀ p ∈ f.params, p.type.isVoid = false

theorem param_yields :
    Yields P param fun p => P p.name.text ∧ p.type.isVoid = false := by
  refine Yields.ident.bind fun name hname => Yields.mark.bind fun _ _ => ?_
  refine Yields.typeExpr.bind fun type _ => ?_
  split
  · exact .bind (Q := fun _ => False) .raise fun _ hfalse => hfalse.elim
  · rename_i hvoid
    exact .pure ⟨hname, by simpa using hvoid⟩

theorem params_yields (bound : Nat) :
    Yields P (params bound) fun ps => ∀ p ∈ ps, P p.name.text ∧ p.type.isVoid = false := by
  induction bound with
  | zero => exact .stopped
  | succ bound ih =>
    refine param_yields.bind fun p hp => Yields.listGoesOn.bind fun _ _ => ?_
    split
    · refine ih.bind fun ps hps => .pure ?_
      simpa using ⟨hp, hps⟩
    · exact .pure (by simpa using hp)

theorem resultType_yields : Yields P resultType fun _ => True := by
  refine Yields.get.bind fun c _ => ?_
  split
  · exact .typeExpr
  · exact .typeExpr
  · exact .pure True.intro

theorem functionDecl_yields (bound : Nat) : Yields P (functionDecl bound) (Declared P) := by
  refine Yields.here.bind fun first _ => Yields.word.bind fun _ _ => ?_
  refine resultType_yields.bind fun result _ => Yields.ident.bind fun name hname => ?_
  refine Yields.listFollows.bind fun _ _ => ?_
  have hrest (ps : List Param) (hps : ∀ p ∈ ps, P p.name.text ∧ p.type.isVoid = false) :
      Yields P (do
        let body ← stmts bound
        return { name, result, params := ps, body, span := ← spanFrom first }) (Declared P) := by
    refine (stmts_yields bound).bind fun body hbody => Yields.spanFrom.bind fun span _ => .pure ?_
    refine ⟨fun x hx => ?_, fun p hp => (hps p hp).2⟩
    rcases List.mem_cons.1 hx with rfl | hx
    · exact hname
    rcases List.mem_append.1 hx with hx | hx
    · obtain ⟨p, hp, rfl⟩ := List.mem_map.1 hx
      exact (hps p hp).1
    · exact hbody x hx
  split
  · exact (params_yields bound).bind hrest
  · exact hrest [] (by simp)

theorem functionDecls_yields (bound : Nat) :
    Yields P (functionDecls bound) fun fs => ∀ f ∈ fs, Declared P f := by
  induction bound with
  | zero => exact .stopped
  | succ bound ih =>
    refine Yields.isWord.bind fun _ _ => ?_
    split
    · refine (functionDecl_yields bound).bind fun f hf => ih.bind fun fs hfs => .pure ?_
      simpa using ⟨hf, hfs⟩
    · exact .pure (by simp)

theorem program_yields (bound : Nat) (fileName : String) :
    Yields P (program bound fileName) fun p =>
      (∀ x ∈ p.names, P x) ∧ ∀ f ∈ p.functions, ∀ q ∈ f.params, q.type.isVoid = false := by
  have hnames (fs : List FunctionDecl) (main : Option EntryPoint) (hfs : ∀ f ∈ fs, Declared P f)
      (hmain : ∀ e ∈ main, ∀ x ∈ Stmt.namesAll e.body, P x) :
      (∀ x ∈ (Program.mk fs main fileName).names, P x) ∧
        ∀ f ∈ fs, ∀ q ∈ f.params, q.type.isVoid = false := by
    refine ⟨fun x hx => ?_, fun f hf => (hfs f hf).2⟩
    rcases List.mem_append.1 hx with hx | hx
    · obtain ⟨f, hf, hx⟩ := List.mem_flatMap.1 hx
      exact (hfs f hf).1 x hx
    · cases main with
      | none => simp at hx
      | some e => exact hmain e rfl x hx
  refine (functionDecls_yields bound).bind fun before hbefore => Yields.isWord.bind fun _ _ => ?_
  split
  · refine .bind (Q := fun e => ∀ x ∈ Stmt.namesAll e.body, P x) ?_ fun e he => ?_
    · refine Yields.here.bind fun first _ => Yields.word.bind fun _ _ => ?_
      exact (stmts_yields bound).bind fun body hbody => Yields.spanFrom.bind fun _ _ => .pure hbody
    · refine (functionDecls_yields bound).bind fun after hafter => .pure ?_
      refine hnames (before ++ after) (some e) (fun f hf => ?_) (by simpa using he)
      exact (List.mem_append.1 hf).elim (hbefore f) (hafter f)
  · exact .pure (hnames before none hbefore (by simp))

end Parser

/-! ### Names on lexemes -/

theorem Scan.name_token? {s : Scan} {bytes : List UInt8} {x : String} (hs : s.IsText)
    (h : s.token? bytes = some (.name x)) : Token.reserved? x = none := by
  cases s with
  | single t =>
    cases h
    obtain ⟨o, ho⟩ | ⟨m, hm⟩ := hs
    · cases ho
    · cases hm
  | word =>
    simp only [token?, Option.some.injEq] at h
    cases hreserved : Token.reserved? (Utf8.decodeLossy bytes) with
    | none =>
      rw [hreserved, Option.getD_none] at h
      exact Token.name.inj h ▸ hreserved
    | some t =>
      rw [hreserved, Option.getD_some] at h
      subst h
      unfold Token.reserved? at hreserved
      split at hreserved
      · cases hreserved
      · obtain ⟨b, -, hb⟩ := Option.map_eq_some_iff.1 hreserved
        cases hb
  | number phase =>
    simp only [token?, Option.some.injEq] at h
    split at h
    · unfold wholeNumber at h
      dsimp only at h
      split at h <;> cases h
    · unfold fractionalNumber at h
      split at h <;> cases h
  | _ => cases h

theorem Window.isText_run {s : Scan} (w : Window) (hs : s.IsText) : (w.run s).1.IsText := by
  fun_induction run with
  | case1 => exact hs
  | case2 s w _ next rest h ih =>
    obtain ⟨b, -, hb, -⟩ := take?_some h
    exact ih (Scan.isText_step hb)
  | case3 => exact hs

namespace Lexer

theorem isText_nextMatch {l l' : Lexer} {m : Match} (h : l.nextMatch = (some m, l')) :
    m.scan.IsText := by
  unfold nextMatch at h
  split at h
  · simp at h
  · rename_i s w hw
    obtain ⟨b, -, hb, -⟩ := Window.take?_some hw
    obtain ⟨hm, -⟩ := Prod.mk.inj h
    rw [← Option.some.inj hm]
    exact Window.isText_run _ (Option.some.inj hb ▸ Scan.isText_start b)

theorem reserved?_next (l : Lexer) {x : String} (h : l.next.1.token = .name x) :
    Token.reserved? x = none := by
  fun_induction next with
  | case1 => cases h
  | case2 l m l' hm t ht =>
    obtain rfl : t = .name x := h
    exact Scan.name_token? (isText_nextMatch hm) ht
  | case3 l m l' hm ht ih => exact ih h

theorem reserved?_lexemes (l : Lexer) {x : String} {lexeme : Lexeme} (h : lexeme ∈ l.lexemes.1)
    (hx : lexeme.token = .name x) : Token.reserved? x = none := by
  fun_induction lexemes with
  | case1 l r hr =>
    rw [List.mem_singleton.1 h] at hx
    exact reserved?_next l hx
  | case2 l r hr rest ih =>
    rcases List.mem_cons.1 h with rfl | h
    · exact reserved?_next l hx
    · exact ih h

theorem reserved?_toList {l : Lexer} {x : String} {lexeme : Lexeme} (h : lexeme ∈ l.toList)
    (hx : lexeme.token = .name x) : Token.reserved? x = none := by
  rcases List.mem_append.1 h with h | h
  · exact reserved?_lexemes l h hx
  · rw [List.mem_singleton.1 h] at hx
    exact reserved?_next _ hx

end Lexer

/-! ### Names of a parsed program -/

theorem Parser.runWhole_yields {α : Type} {P : String → Prop} {p : Nat → Parser α} {Q : α → Prop}
    {lexemes : List Lexeme} {a : α} (hp : ∀ bound, Yields P (p bound) Q)
    (hP : ∀ l ∈ lexemes, ∀ x, l.token = .name x → P x) (h : runWhole p lexemes = .ok a) : Q a := by
  have hnames : (Cursor.ofLexemes lexemes).Names P := by
    cases lexemes with
    | nil =>
      intro l hl x hx
      rw [List.mem_singleton.1 hl] at hx
      cases hx
    | cons => exact hP
  have hwhole : Yields P (do
      let a ← p (boundFor lexemes)
      finish
      return a) Q :=
    (hp _).bind fun _ ha => Yields.finish.bind fun _ _ => .pure ha
  unfold runWhole at h
  change Prod.fst <$> StateT.run _ _ = _ at h
  cases hrun : StateT.run (do
      let a ← p (boundFor lexemes)
      finish
      return a) (Cursor.ofLexemes lexemes) with
  | error e => rw [hrun] at h; cases h
  | ok r =>
    rw [hrun] at h
    cases h
    exact (hwhole _ hnames r.1 r.2 hrun).2

theorem Program.parse_ok {o : LexerOptions} {fileName : String} {feed : Feed} {p : Program}
    (h : (Program.parse o fileName feed).outcome = .ok p) :
    ofLexemes fileName (o.lexer feed).toList = .ok p := by
  rw [outcome_parse, Parsed.outcome_eq_ok] at h
  exact h

theorem Program.names_parse {o : LexerOptions} {fileName : String} {feed : Feed} {p : Program}
    (h : (Program.parse o fileName feed).outcome = .ok p) :
    ∀ x ∈ p.names, ∃ l ∈ (o.lexer feed).toList, l.token = .name x :=
  (Parser.runWhole_yields (P := fun x => ∃ l ∈ (o.lexer feed).toList, l.token = .name x)
    (Parser.program_yields · fileName) (fun l hl _ hx => ⟨l, hl, hx⟩) (parse_ok h)).1

theorem Program.params_parse {o : LexerOptions} {fileName : String} {feed : Feed} {p : Program}
    (h : (Program.parse o fileName feed).outcome = .ok p) :
    ∀ f ∈ p.functions, ∀ x ∈ f.params, x.type.isVoid = false :=
  (Parser.runWhole_yields (P := fun _ => True) (Parser.program_yields · fileName)
    (fun _ _ _ _ => True.intro) (parse_ok h)).2

theorem Program.reserved?_parse {o : LexerOptions} {fileName : String} {feed : Feed} {p : Program}
    (h : (Program.parse o fileName feed).outcome = .ok p) :
    ∀ x ∈ p.names, Token.reserved? x = none := by
  intro x hx
  obtain ⟨l, hl, hname⟩ := names_parse h x hx
  exact Lexer.reserved?_toList hl hname

/-- Each name on a lexeme has a number, and the number leads back to it. -/
theorem Interner.exists_ofLexemes {lexemes : List Lexeme} {l : Lexeme} {x : String}
    (hl : l ∈ lexemes) (hx : l.token = .name x) :
    ∃ s, (ofLexemes lexemes).lookup? x = some s ∧ (ofLexemes lexemes).get? s = some x := by
  have hmem : x ∈ lexemes.filterMap Lexeme.name? :=
    List.mem_filterMap.2 ⟨l, hl, by simp [Lexeme.name?, hx]⟩
  obtain ⟨s, hs⟩ := exists_lookup?_ofNames.2 hmem
  exact ⟨s, hs, (inverse_ofNames _ x s).1 hs⟩

end Quill
