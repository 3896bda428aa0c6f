import Quill.Proofs.Meaning.Inside
import Quill.Proofs.Meaning.Outside

/-! # Code of statements does what they do

From the place where the code of a statement begins the machine follows the statement to its end,
or to the exit if it leaves the function.
-/
namespace Quill

open Ir (BlockId FuncId Function Module Operand SlotId Ty)
open Meaning (Env Eval Flow Setting Simulates Typed consoleOf)

variable {f : Function} {frame : BodyFrame} {callers : List Activation} {m : Module}
  {c c' : Config} {p p₁ p₂ q : Spot} {v : Operand} {env : Env} {scopes s' : Scopes} {slot : SlotId}
  {x : String} {ty : Ty} {fuel : Nat} {table : List (String × FuncId)} {S : Setting}

/-! ### Blocks and loops -/

theorem StmtCode.leave {a : Stmt} (h : StmtCode m table f frame a scopes p s' q) :
    s'.leave = scopes.leave := by
  cases h <;> rfl

theorem StmtsCode.leave {body : List Stmt} (h : StmtsCode m table f frame body scopes p s' q) :
    s'.leave = scopes.leave := by
  induction body generalizing scopes p with
  | nil =>
    cases h
    rfl
  | cons a rest ih =>
    cases h with
    | cons ha hrest => exact (ih hrest).trans ha.leave

/-- A block ends with a jump; its variables are out of sight then. -/
theorem nested_simulates {block : Env → Eval Flow} {dest : BlockId} {n : Nat}
    (hblock : Simulates m fuel (block ([] :: env)) c (Follows f frame callers p s'))
    (hleave : s'.leave = scopes) (hend : f.Ends p (.br dest)) :
    Simulates m fuel (Meaning.nested block env) c
      (Follows f frame callers (.start dest n) scopes) := by
  apply hblock.bind
  rintro (env' | r) c₁ h
  · have h : Inside f frame callers c₁ p env' s' := h
    apply Simulates.steps (br_steps h.arrives hend) rfl
    exact .pure (hleave ▸ h.leave.jumped dest n)
  · exact .pure h

/-- The machine takes at least one step each time a loop goes round. -/
theorem iterate_simulates {block : Env → Eval Flow} {test : Env → Eval Bool}
    {first after : BlockId} {n₁ n₃ : Nat}
    (hblock : ∀ {env c}, Inside f frame callers c (.start first n₁) env scopes →
      Simulates m fuel (block env) c (Follows f frame callers p scopes))
    (htest : ∀ {env c}, Inside f frame callers c p env scopes →
      Simulates m fuel (test env) c fun b => Worth f frame callers q env scopes v (.bool b))
    (hend : f.Ends q (.condBr v first after)) {k : Nat} (hk : k ≤ fuel)
    (h : Inside f frame callers c (.start first n₁) env scopes) :
    Simulates m k (Meaning.iterate block test k env) c
      (Follows f frame callers (.start after n₃) scopes) := by
  induction k generalizing env c with
  | zero => exact ⟨0, c, Nat.le_refl 0, .refl⟩
  | succ k ih =>
    unfold Meaning.iterate
    apply ((hblock h).weaken hk).bind
    rintro (env₁ | r) c₁ h₁
    · apply ((htest h₁).weaken hk).bind
      rintro b c₂ ⟨hinside, hb⟩
      have hsteps := condBr_steps (m := m) hinside.arrives hend hb
      cases b with
      | true =>
        have hagain := ih (Nat.le_of_succ_le hk) (hinside.jumped first n₁)
        rw [Nat.add_comm k 1]
        exact hagain.stepsCounted hsteps rfl
      | false =>
        apply Simulates.steps hsteps rfl
        exact .pure (hinside.jumped after n₃)
    · exact .pure h₁

/-! ### Reading -/

theorem word_zero : (Value.int 0).HasType .i32 := .whole rfl (by decide)

/-- After a scan the room for a word holds it, or is still zero. -/
theorem word_scanned {word : SlotId} {r : Option Value} (hlt : word.index < c.current.slots.size)
    (hzero : c.current.slots[word.index]? = some (.zero .i32)) (h : Scans f c q word .i32 r c') :
    ∃ n : Int64, r.getD (.int 0) = .int n ∧ c'.current.slots[word.index]? = some (.int n) ∧
      (Value.int n).HasType .i32 := by
  have hslots := h.slots
  cases r with
  | none =>
    dsimp only at hslots
    exact ⟨0, rfl, hslots ▸ hzero, word_zero⟩
  | some y =>
    dsimp only at hslots
    have hy := h.hasType y rfl
    obtain ⟨n, rfl, -⟩ := hy.of_isInt rfl
    exact ⟨n, rfl, by simp [hslots, hlt], hy⟩

/-- A truth value is read as a word, and is whether the word is not zero. -/
theorem word_simulates {word : SlotId} {format : Operand} (hm : Library.IsIn m)
    (h : Inside f frame callers c p env scopes) (hformat : m.HasFormat .i1 .input format)
    (hfresh : FreshSlot f frame scopes word .i32) (halloca : f.Performs p (.alloca word))
    (hread : f.Computes p.next (.call Library.readId [format, .slotAddr word]) .i32)
    (hload : f.Computes p.next.past (.load word) .i32)
    (hcompare : f.Computes p.next.past.past (.compare .ine p.next.past.value (.zero .i32)) .i1) :
    Simulates m fuel (Meaning.scan .i32) c fun r =>
      Worth f frame callers p.next.past.past.past env scopes p.next.past.past.value
        (.bool ((r.getD (.int 0)).toInt != 0)) := by
  obtain ⟨hsteps, hinside⟩ := h.alloca_steps (m := m) halloca hfresh
  apply Simulates.steps hsteps rfl
  apply (scan_simulates hm hinside.arrives .bool hformat hfresh.type hread).followed
  intro r c₁ hscan
  have hlt := h.slot_lt hfresh.type
  have hzero : (c.stored word (.zero .i32)).current.slots[word.index]? = some (.zero .i32) := by
    change (c.current.slots.set! _ _)[_]? = _
    simp [hlt]
  obtain ⟨n, hn, hword, hty⟩ := word_scanned (hinside.slot_lt hfresh.type) hzero hscan
  have hinside₁ : Inside f frame callers c₁ p.next.past env scopes := by
    have hslots := hscan.slots
    cases r with
    | none => exact hinside.same hscan.arrives hscan.callers hslots
    | some y => exact hinside.elsewhere hfresh hscan.arrives hscan.callers hslots
  obtain ⟨hsteps₂, hpasses₂, hgives₂⟩ := load_steps (m := m) hscan.arrives hload hfresh.type hword hty
  have hvoid : Ty.i32 ≠ .void := by decide
  obtain ⟨k, c₂, hsteps₃, hworld₃, hpasses₃, hgives₃⟩ := compare_computed (m := m) hpasses₂.arrives
    (hgives₂.reads hpasses₂.arrives.function hvoid) ⟨get_zero rfl, rfl, word_zero⟩ hcompare
  refine ⟨_, c₂, hsteps₂.trans hsteps₃, congrArg consoleOf hworld₃, ?_⟩
  rw [hn]
  exact ⟨hinside₁.passes (hpasses₂.trans hpasses₃), hgives₃⟩

theorem read_simulates (hm : Library.IsIn m) (h : Inside f frame callers c p env scopes)
    (hx : scopes.find? x = some slot) (hslot : f.HasSlot slot ty)
    (hcode : ReadCode m f frame scopes slot ty p q) :
    Simulates m fuel (Meaning.readInto env x) c (Follows f frame callers q scopes) := by
  obtain ⟨old, hold, hin⟩ := h.binds.find? hx
  obtain rfl := hin.declared.unique hslot
  apply Simulates.bindKnown hold
  cases hcode with
  | bool hbool hformat hfresh halloca hread hload hcompare hstore =>
    rw [hbool] at hformat hslot
    rw [if_pos hbool]
    apply (word_simulates hm h hformat hfresh halloca hread hload hcompare).bind
    rintro r c₁ ⟨hinside, hb⟩
    have hvoid : Ty.i1 ≠ .void := by decide
    apply Simulates.steps (store_steps hinside.arrives hstore hslot hb hvoid) rfl
    exact .pure (hinside.assigned hx hslot (.bool _) (hinside.arrives.stored slot _) rfl rfl)
  | number hne hnumber hformat hread =>
    rw [if_neg hne]
    apply (scan_simulates hm h.arrives (.number hnumber hne) hformat hslot hread).bind
    rintro (_ | y) c' ⟨harrives, hcallers, hslots, hy⟩
    · exact .pure (h.same harrives hcallers hslots)
    · exact .pure (h.assigned hx hslot (hy y rfl) harrives hcallers hslots)

/-! ### Statements without blocks -/

theorem assert_simulates (hS : Stage m table f S callers.length) {e : Expr} {span : Span}
    {check success fail : BlockId} {n₁ n₂ n₃ : Nat} {t : Operand}
    (h : Inside f frame callers c p env scopes) (hcheck : f.Ends p (.br check))
    (hcond : ConditionCode m table f scopes e (.start check n₁) t p₁)
    (hend : f.Ends p₁ (.condBr t success fail)) (habort : AbortCode f (.start fail n₂)) :
    Simulates m S.fuel (Meaning.stmt S env (.assert e span)) c
      (Follows f frame callers (.start success n₃) scopes) := by
  apply Simulates.steps (br_steps h.arrives hcheck) rfl
  apply ((h.jumped check n₁).condition_simulates hS hcond).bind
  rintro b c₁ ⟨hinside, hb⟩
  apply Simulates.steps (condBr_steps hinside.arrives hend hb) rfl
  cases b with
  | true => exact .pure (hinside.jumped success n₃)
  | false => exact abort_simulates hS.outside (hinside.jumped fail n₂).arrives habort

theorem print_statement_simulates (hS : Stage m table f S callers.length) {e : Expr} {span : Span}
    {v' format : Operand} (h : Inside f frame callers c p env scopes)
    (he : ExprCode m table f scopes e p v p₁) (hty : f.typeOf v = .ok ty) (hnumber : ty.isNumber)
    (hpromote : PromoteCode f ty v p₁ v' p₂) (hformat : m.HasFormat ty .output format)
    (hcode : f.Computes p₂ (.call Library.printId [format, v']) .i32) :
    Simulates m S.fuel (Meaning.stmt S env (.print e span)) c
      (Follows f frame callers p₂.past scopes) := by
  apply (h.expr_simulates hS he).bind
  rintro ⟨xty, x⟩ c₁ ⟨hinside, hx⟩
  obtain rfl := Except.ok.inj (hx.typeOf.symm.trans hty)
  have htyped := hx.hasType (Ir.Ty.ne_void_of_isNumber hnumber)
  obtain ⟨t, ht, hcomputed⟩ := promote_computed (m := m) hinside.arrives hx hnumber hpromote
  apply hcomputed.simulates
  intro c₂ hpasses hv
  apply (print_simulates hS.outside hpasses.arrives htyped hnumber hformat hv ht hcode).bind
  intro _ c₃ hpasses'
  exact .pure (hinside.passes (hpasses.trans hpasses'))

theorem assign_simulates (hS : Stage m table f S callers.length) {x : Ident} {e : Expr} {span : Span}
    (h : Inside f frame callers c p env scopes) (hx : scopes.find? x.text = some slot)
    (hslot : f.HasSlot slot ty) (he : CoerceCode m table f scopes e ty p v p₁)
    (hstore : f.Performs p₁ (.store slot v)) :
    Simulates m S.fuel (Meaning.stmt S env (.assign x e span)) c
      (Follows f frame callers p₁.next scopes) := by
  obtain ⟨old, hold, hin⟩ := h.binds.find? hx
  obtain rfl := hin.declared.unique hslot
  have hknown : Meaning.known (env.find? x.text) = pure old := by
    rw [hold]
    rfl
  have hvoid := hin.hasType.ne_void
  rw [Meaning.stmt, hknown]
  simp only [pure_bind]
  apply h.coerce_simulates hS he hvoid
  rintro y c₁ ⟨hinside, hy⟩
  apply Simulates.steps (store_steps hinside.arrives hstore hslot hy hvoid) rfl
  exact .pure (hinside.assigned hx hslot (hy.hasType hvoid) (hinside.arrives.stored slot y) rfl rfl)

/-- A variable that is declared with a value gets room when the value is there. -/
theorem declareAs_simulates (hS : Stage m table f S callers.length) {x : Ident} {type : TypeExpr}
    {e : Expr} {span : Span} (h : Inside f frame callers c p env scopes)
    (he : CoerceCode m table f scopes e type.ty p v p₁) (hfresh : FreshSlot f frame scopes slot type.ty)
    (halloca : f.Performs p₁ (.alloca slot)) (hstore : f.Performs p₁.next (.store slot v)) :
    Simulates m S.fuel (Meaning.stmt S env (.declare x type (some e) span)) c
      (Follows f frame callers p₁.next.next (scopes.bind x.text slot)) := by
  rw [Meaning.stmt, Meaning.initial]
  simp only [bind_assoc]
  apply h.coerce_simulates hS he hfresh.nonVoid
  rintro y c₁ ⟨hinside, hy⟩
  obtain ⟨hsteps, hinside₁⟩ := hinside.alloca_steps (m := m) halloca hfresh
  apply Simulates.steps hsteps rfl
  have hstored := store_steps (m := m) hinside₁.arrives hstore hfresh.type (hy.stored slot _)
    hfresh.nonVoid
  apply Simulates.steps hstored rfl
  have hat := hinside₁.arrives.stored slot y
  exact .pure (hinside₁.declared hfresh (hy.hasType hfresh.nonVoid) hat rfl rfl x.text)

theorem retAs_simulates (hS : Stage m table f S callers.length) {e : Expr} {span : Span}
    (h : Inside f frame callers c p env scopes) (hframe : frame.result = some slot)
    (he : CoerceCode m table f scopes e f.ret p v p₁) (hstore : f.Performs p₁ (.store slot v))
    (hend : f.Ends p₁.next (.br frame.exit)) :
    Simulates m S.fuel (Meaning.stmt S env (.ret (some e) span)) c
      (Follows f frame callers q scopes) := by
  have hin := h.result slot hframe
  have hvoid := hin.hasType.ne_void
  rw [Meaning.stmt, ← hS.ret]
  apply h.coerce_simulates hS he hvoid
  rintro y c₁ ⟨hinside, hy⟩
  apply Simulates.steps (store_steps hinside.arrives hstore hin.declared hy hvoid) rfl
  apply Simulates.steps (br_steps (hinside.arrives.stored slot y) hend) rfl
  exact .pure (hinside.leftWith hframe (hy.hasType hvoid))

/-! ### Loops and branches -/

theorem loop_simulates (hS : Stage m table f S callers.length) {body : List Stmt} {e : Expr}
    {span : Span} {first test after : BlockId} {n₁ n₂ n₃ : Nat} {t : Operand}
    (h : Inside f frame callers c p env scopes) (hfirst : f.Ends p (.br first))
    (hbody : ∀ {env c}, Inside f frame callers c (.start first n₁) env scopes.enter →
      Simulates m S.fuel (Meaning.stmts S env body) c (Follows f frame callers p₁ s'))
    (hleave : s'.leave = scopes) (hback : f.Ends p₁ (.br test))
    (hcond : ConditionCode m table f scopes e (.start test n₂) t p₂)
    (hend : f.Ends p₂ (.condBr t first after)) :
    Simulates m S.fuel (Meaning.stmt S env (.loop body e span)) c
      (Follows f frame callers (.start after n₃) scopes) := by
  have hblock : ∀ {env c}, Inside f frame callers c (.start first n₁) env scopes →
      Simulates m S.fuel (Meaning.nested (fun env => Meaning.stmts S env body) env) c
        (Follows f frame callers (.start test n₂) scopes) :=
    fun h => nested_simulates (hbody h.enter) hleave hback
  apply Simulates.steps (br_steps h.arrives hfirst) rfl
  exact iterate_simulates hblock (fun h => h.condition_simulates hS hcond) hend (Nat.le_refl _)
    (h.jumped first n₁)

/-- A case that was chosen goes on at `exit`; without one the next block goes on. -/
def Chooses (f : Function) (frame : BodyFrame) (callers : List Activation) (exit q : Spot)
    (env : Env) (scopes : Scopes) : Option Flow → Config → Prop
  | some flow, c => Follows f frame callers exit scopes flow c
  | none, c => Inside f frame callers c q env scopes

theorem branch_simulates {lead : Ident} {cs : List Case} {span : Span} {first exit : BlockId}
    {n : Nat} (h : Inside f frame callers c p env scopes) (hfirst : f.Ends p (.br first))
    (hcases : Simulates m S.fuel (Meaning.cases S env cs) (c.jumped first)
      (Chooses f frame callers (.start exit n) p₁ env scopes))
    (hend : f.Ends p₁ (.br exit)) :
    Simulates m S.fuel (Meaning.stmt S env (.branch lead cs none span)) c
      (Follows f frame callers (.start exit n) scopes) := by
  apply Simulates.steps (br_steps h.arrives hfirst) rfl
  apply hcases.bind
  rintro (_ | flow) c₁ h₁
  · have h₁ : Inside f frame callers c₁ p₁ env scopes := h₁
    apply Simulates.steps (br_steps h₁.arrives hend) rfl
    exact .pure (h₁.jumped exit n)
  · exact .pure h₁

theorem branchElse_simulates {lead : Ident} {cs : List Case} {body : List Stmt} {span : Span}
    {first other exit : BlockId} {n₂ n : Nat} (h : Inside f frame callers c p env scopes)
    (hfirst : f.Ends p (.br first))
    (hcases : Simulates m S.fuel (Meaning.cases S env cs) (c.jumped first)
      (Chooses f frame callers (.start exit n) p₁ env scopes))
    (hother : f.Ends p₁ (.br other))
    (hbody : ∀ {env c}, Inside f frame callers c (.start other n₂) env scopes.enter →
      Simulates m S.fuel (Meaning.stmts S env body) c (Follows f frame callers p₂ s'))
    (hleave : s'.leave = scopes) (hend : f.Ends p₂ (.br exit)) :
    Simulates m S.fuel (Meaning.stmt S env (.branch lead cs (some body) span)) c
      (Follows f frame callers (.start exit n) scopes) := by
  apply Simulates.steps (br_steps h.arrives hfirst) rfl
  apply hcases.bind
  rintro (_ | flow) c₁ h₁
  · have h₁ : Inside f frame callers c₁ p₁ env scopes := h₁
    apply Simulates.steps (br_steps h₁.arrives hother) rfl
    exact nested_simulates (hbody (h₁.jumped other n₂).enter) hleave hend
  · exact .pure h₁

/-! ### All statements -/

mutual

theorem stmt_simulates {m : Module} {f : Function} {frame : BodyFrame} {callers : List Activation}
    {c : Config} {p q : Spot} {env : Env} {scopes s' : Scopes} {table : List (String × FuncId)}
    {S : Setting} (hS : Stage m table f S callers.length) {a : Stmt}
    (hcode : StmtCode m table f frame a scopes p s' q)
    (h : Inside f frame callers c p env scopes) :
    Simulates m S.fuel (Meaning.stmt S env a) c (Follows f frame callers q s') := by
  match a, hcode with
  | .assert e _, .assert hcheck hcond hend habort =>
    exact assert_simulates hS h hcheck hcond hend habort
  | .read x _, .read hx hslot hread => exact read_simulates hS.outside h hx hslot hread
  | .abort _, .abort habort => exact abort_simulates hS.outside h.arrives habort
  | .call callee args span, .call hcall =>
    have hdone := (h.expr_simulates hS hcall).discard
      (S := fun _ c' => Inside f frame callers c' q env scopes) fun _ _ hx => hx.1
    apply hdone.bind
    intro _ c' h'
    exact .pure h'
  | .print e _, .print he hty hnumber hpromote hformat hprint =>
    exact print_statement_simulates hS h he hty hnumber hpromote hformat hprint
  | .assign x e _, .assign hx hslot he hstore => exact assign_simulates hS h hx hslot he hstore
  | .declare x type none _, .declare hundefined hfresh halloca =>
    apply Simulates.steps (alloca_steps h.arrives halloca hfresh.type) rfl
    exact .pure (h.declared hfresh (.zero hfresh.nonVoid) (h.arrives.stored _ _) rfl rfl x.text)
  | .declare x type (some e) _, .declareAs he hundefined hfresh halloca hstore =>
    exact declareAs_simulates hS h he hfresh halloca hstore
  | .loop body e _, .loop hfirst hbody hback hcond hend =>
    exact loop_simulates hS h hfirst (fun h => stmts_simulates hS hbody h) hbody.leave hback hcond
      hend
  | .branch lead cs none _, .branch hfirst hcases hend =>
    exact branch_simulates h hfirst (cases_simulates hS hcases (h.jumped _ _)) hend
  | .branch lead cs (some body) _, .branchElse hfirst hcases hother hbody hend =>
    exact branchElse_simulates h hfirst (cases_simulates hS hcases (h.jumped _ _)) hother
      (fun h => stmts_simulates hS hbody h) hbody.leave hend
  | .ret none _, .ret hend =>
    apply Simulates.steps (br_steps h.arrives hend) rfl
    exact .pure h.left
  | .ret (some e) _, .retAs hframe he hstore hend =>
    exact retAs_simulates hS h hframe he hstore hend

theorem stmts_simulates {m : Module} {f : Function} {frame : BodyFrame} {callers : List Activation}
    {c : Config} {p q : Spot} {env : Env} {scopes s' : Scopes} {table : List (String × FuncId)}
    {S : Setting} (hS : Stage m table f S callers.length) {body : List Stmt}
    (hcode : StmtsCode m table f frame body scopes p s' q)
    (h : Inside f frame callers c p env scopes) :
    Simulates m S.fuel (Meaning.stmts S env body) c (Follows f frame callers q s') := by
  match body, hcode with
  | [], .nil => exact .pure h
  | a :: rest, .cons ha hrest =>
    apply (stmt_simulates hS ha h).bind
    rintro (env₁ | r) c₁ h₁
    · exact stmts_simulates hS hrest h₁
    · exact .pure h₁

theorem cases_simulates {m : Module} {f : Function} {frame : BodyFrame} {callers : List Activation}
    {c : Config} {p q : Spot} {env : Env} {scopes : Scopes} {table : List (String × FuncId)}
    {S : Setting} {exit : BlockId} {n : Nat} (hS : Stage m table f S callers.length) {cs : List Case}
    (hcode : CasesCode m table f frame exit cs scopes p q)
    (h : Inside f frame callers c p env scopes) :
    Simulates m S.fuel (Meaning.cases S env cs) c
      (Chooses f frame callers (.start exit n) q env scopes) := by
  match cs, hcode with
  | [], .nil => exact .pure h
  | .mk e body :: rest, .cons hcond hend hbody hexit hrest =>
    rw [Meaning.cases]
    apply (h.condition_simulates hS hcond).bind
    rintro b c₁ ⟨hinside, hb⟩
    apply Simulates.steps (condBr_steps hinside.arrives hend hb) rfl
    cases b with
    | true =>
      have hnested : Simulates m S.fuel (Meaning.nested (fun env => Meaning.stmts S env body) env)
          (c₁.jumped _) (Follows f frame callers (.start exit n) scopes) :=
        nested_simulates (stmts_simulates hS hbody (hinside.jumped _ _).enter) hbody.leave hexit
      exact hnested.map fun _ _ h => h
    | false => exact cases_simulates hS hrest (hinside.jumped _ _)

end

end Quill
