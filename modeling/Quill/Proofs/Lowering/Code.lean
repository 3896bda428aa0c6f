import Quill.Lowering.Program
import Quill.Proofs.Ir.Growth
import Quill.Proofs.Lowering.Numbers

/-! # Code of a program

Which instructions of a function stand for a part of the source. The relations say where the code
begins, where it goes on and which operand holds the result; they mention neither how the code
came about nor what it does.
-/
namespace Quill

open Ir (Action BlockId BinaryOp CastOp FuncId Function Module Operand SlotId Terminator Ty)
open Library (Direction)

/-- A place in the code of a function. The next instruction is the one at `position`, and the
next result is the value `fresh`. -/
structure Spot where
  block : BlockId
  position : Nat
  fresh : Nat
deriving DecidableEq, Repr

namespace Spot

def start (block : BlockId) (fresh : Nat) : Spot := ⟨block, 0, fresh⟩

variable (p : Spot)

def next : Spot := { p with position := p.position + 1 }

def past : Spot := { p with position := p.position + 1, fresh := p.fresh + 1 }

/-- The result of the instruction, if it has one. -/
def value : Operand := .inst ⟨p.fresh⟩

end Spot

namespace Scopes

def slots (s : Scopes) : List SlotId := s.flatten.map Prod.snd

def bind (s : Scopes) (x : String) (slot : SlotId) : Scopes := ((x, slot) :: s.headD []) :: s.tail

variable {s : Scopes} {frame : ScopeFrame} {x : String} {slot : SlotId}

@[simp] theorem slots_cons : slots (frame :: s) = frame.map Prod.snd ++ slots s := by
  simp [slots]

theorem mem_of_lookup (h : frame.lookup x = some slot) : (x, slot) ∈ frame := by
  obtain ⟨before, behind, rfl, -⟩ := List.lookup_eq_some_iff.1 h
  simp

theorem mem_slots (hframe : frame ∈ s) (h : (x, slot) ∈ frame) : slot ∈ s.slots :=
  List.mem_map.2 ⟨(x, slot), List.mem_flatten.2 ⟨frame, hframe, h⟩, rfl⟩

theorem mem_slots_of_find? (h : s.find? x = some slot) : slot ∈ s.slots := by
  obtain ⟨frame, hframe, hslot⟩ := List.exists_of_findSome?_eq_some h
  exact mem_slots hframe (mem_of_lookup hslot)

end Scopes

namespace Library

def printId : FuncId := ⟨0⟩

def readId : FuncId := ⟨1⟩

def abortId : FuncId := ⟨2⟩

/-- The outside functions as lowering declares them. -/
def printFunction : Function :=
  { Function.declared printName [⟨"format", .pointerTo .i8⟩] .i32 with isVariadic := true }

def readFunction : Function :=
  { Function.declared readName [⟨"format", .pointerTo .i8⟩] .i32 with isVariadic := true }

def abortFunction : Function := { Function.declared abortName [] .void with isNoReturn := true }

/-- A module whose first functions are the outside ones. -/
structure IsIn (m : Module) : Prop where
  print : m.functions[0]? = some printFunction
  read : m.functions[1]? = some readFunction
  abort : m.functions[2]? = some abortFunction

end Library

namespace Lower

def operation? (op : Operator) (ty : Ty) : Option Operation :=
  if ty.isFloat then fractionOperation? op else some (wholeOperation op)

namespace Operation

def action : Operation → Operand → Operand → Action
  | arithmetic op, l, r => .binary op l r
  | comparison pred, l, r => .compare pred l r

def resultTy (ty : Ty) : Operation → Ty
  | arithmetic _ => ty
  | comparison _ => .i1

end Operation

end Lower

namespace Ir.Function

variable (f : Function)

def Performs (p : Spot) (action : Action) : Prop :=
  ∃ b, f.blocks[p.block.index]? = some b ∧ b.insts[p.position]? = some ⟨none, action⟩

def Computes (p : Spot) (action : Action) (ty : Ty) : Prop :=
  (∃ b, f.blocks[p.block.index]? = some b ∧ b.insts[p.position]? = some ⟨some ⟨p.fresh⟩, action⟩) ∧
  ∃ c, f.values[p.fresh]? = some ⟨ty, c⟩

/-- The instruction computes `v` and is followed by `q`. -/
def Makes (action : Action) (ty : Ty) (p : Spot) (v : Operand) (q : Spot) : Prop :=
  f.Computes p action ty ∧ v = p.value ∧ q = p.past

def Ends (p : Spot) (t : Terminator) : Prop :=
  ∃ b, f.blocks[p.block.index]? = some b ∧ b.insts.size = p.position ∧ b.terminator = some t

def HasSlot (s : SlotId) (ty : Ty) : Prop := ∃ name, f.slots[s.index]? = some ⟨name, ty⟩

end Ir.Function

/-- The module holds the format text for a type and direction there. -/
def Ir.Module.HasFormat (m : Module) (ty : Ty) (d : Direction) (v : Operand) : Prop :=
  ∃ id name, v = .global id ∧ m.globals[id.index]? = some ⟨name, Library.format ty d⟩

section

variable (f : Function)

/-- A cast of `v`, which may be done already. -/
inductive CastCode (op : CastOp) (source target : Ty) (v : Operand) :
    Spot → Operand → Spot → Prop
  | folded {v' p} : Ir.foldCast op source v target = some v' → CastCode op source target v p v' p
  | cast {p} : f.Computes p (.cast op v target) target →
      CastCode op source target v p p.value p.past

/-- A conversion of `v` between two types: none, or a cast between numbers. -/
inductive ConvertCode (source target : Ty) (v : Operand) : Spot → Operand → Spot → Prop
  | same {p} : source = target → ConvertCode source target v p v p
  | numbers {p v' q} : source ≠ target → source.isNumber → target.isNumber →
      CastCode f (Lower.castOp source target) source target v p v' q →
      ConvertCode source target v p v' q

inductive BinaryCode (op : Operator) (l r : Operand) : Spot → Operand → Spot → Prop
  | pointers {ty p} : f.typeOf l = .ok ty → f.typeOf r = .ok ty → ty.isPointer → op = .eq →
      f.Computes p (.compare .ieq l r) .i1 → BinaryCode op l r p p.value p.past
  | numbers {tl tr ty p l' p₁ r' p₂ operation} : f.typeOf l = .ok tl → f.typeOf r = .ok tr →
      resultType tl tr = .ok ty → ty.isPointer = false → ConvertCode f tl ty l p l' p₁ →
      ConvertCode f tr ty r p₁ r' p₂ → Lower.operation? op ty = some operation →
      f.Computes p₂ (operation.action l' r') (operation.resultTy ty) →
      BinaryCode op l r p p₂.value p₂.past

/-- A truth value for `v`: itself if it is the result of a comparison. -/
inductive TruthCode (v : Operand) : Spot → Operand → Spot → Prop
  | comparison {p} : f.typeOf v = .ok .i1 → TruthCode v p v p
  | whole {ty p} : f.typeOf v = .ok ty → ty.isInt → f.Computes p (.compare .ine v (.zero ty)) .i1 →
      TruthCode v p p.value p.past
  | fraction {ty p} : f.typeOf v = .ok ty → ty.isFloat →
      f.Computes p (.compare .fune v (.zero ty)) .i1 → TruthCode v p p.value p.past

/-- Numbers of fewer bits are brought to a plain word or a double before they are printed. -/
inductive PromoteCode (ty : Ty) (v : Operand) : Spot → Operand → Spot → Prop
  | whole {p v' q} : ty.isInt → ty.bits < 32 → CastCode f .zext ty .i32 v p v' q →
      PromoteCode ty v p v' q
  | fraction {p v' q} : ty = .f32 → CastCode f .fpExt ty .f64 v p v' q → PromoteCode ty v p v' q
  | same {p} : ¬(ty.isInt ∧ ty.bits < 32) → ty ≠ .f32 → PromoteCode ty v p v p

/-- A call of a function with a result of type `ret`. -/
inductive CallCode (callee : FuncId) (ret : Ty) (args : List Operand) : Spot → Operand → Spot → Prop
  | void {p} : ret = .void → f.Performs p (.call callee args) →
      CallCode callee ret args p .void p.next
  | value {p} : ret ≠ .void → f.Computes p (.call callee args) ret →
      CallCode callee ret args p p.value p.past

structure AbortCode (p : Spot) : Prop where
  call : f.Performs p (.call Library.abortId [])
  ends : f.Ends p.next .unreachable

end

section

variable (m : Module) (table : List (String × FuncId)) (f : Function)

mutual

inductive ExprCode (scopes : Scopes) : Expr → Spot → Operand → Spot → Prop
  | int {n span p} : ExprCode scopes (.int n span) p (Lower.literal n) p
  | float {x span p} : ExprCode scopes (.float x span) p (.float .f64 x) p
  | var {x slot ty p} : scopes.find? x.text = some slot → f.HasSlot slot ty →
      f.Computes p (.load slot) ty → ExprCode scopes (.var x) p p.value p.past
  | binary {op lhs rhs p l p₁ r p₂ v q} : ExprCode scopes lhs p l p₁ → ExprCode scopes rhs p₁ r p₂ →
      BinaryCode f op l r p₂ v q → ExprCode scopes (.binary op lhs rhs) p v q
  | semi {op lead rhs span p l p₁ r p₂ v q} : ExprCode scopes (.var lead) p l p₁ →
      ExprCode scopes rhs p₁ r p₂ → BinaryCode f op l r p₂ v q →
      ExprCode scopes (.semi op lead rhs span) p v q
  | call {callee args span id g p vs p₁ v q} : table.lookup callee.text = some id →
      m.functions[id.index]? = some g → g.params.length = args.length →
      ArgsCode scopes args (g.params.map Ir.Param.ty) p vs p₁ →
      CallCode f id g.ret vs p₁ v q → ExprCode scopes (.call callee args span) p v q

/-- Arguments from left to right, each converted to the type of its parameter. -/
inductive ArgsCode (scopes : Scopes) : List Expr → List Ty → Spot → List Operand → Spot → Prop
  | nil {p} : ArgsCode scopes [] [] p [] p
  | cons {arg args ty types p v p₁ source v' p₂ vs q} : ExprCode scopes arg p v p₁ →
      f.typeOf v = .ok source → ConvertCode f source ty v p₁ v' p₂ →
      ArgsCode scopes args types p₂ vs q →
      ArgsCode scopes (arg :: args) (ty :: types) p (v' :: vs) q

end

def ConditionCode (scopes : Scopes) (c : Expr) (p : Spot) (t : Operand) (q : Spot) : Prop :=
  ∃ v p₁, ExprCode m table f scopes c p v p₁ ∧ TruthCode f v p₁ t q

def CoerceCode (scopes : Scopes) (e : Expr) (ty : Ty) (p : Spot) (v' : Operand) (q : Spot) : Prop :=
  ∃ v p₁ source, ExprCode m table f scopes e p v p₁ ∧ f.typeOf v = .ok source ∧
    ConvertCode f source ty v p₁ v' q

/-- Room for a variable that nothing else uses. -/
structure FreshSlot (frame : BodyFrame) (scopes : Scopes) (slot : SlotId) (ty : Ty) : Prop where
  type : f.HasSlot slot ty
  nonVoid : ty ≠ .void
  unbound : slot ∉ scopes.slots
  notResult : frame.result ≠ some slot

variable (frame : BodyFrame)

inductive ReadCode (scopes : Scopes) (slot : SlotId) (ty : Ty) : Spot → Spot → Prop
  | bool {word format p} : ty = .i1 → m.HasFormat ty .input format →
      FreshSlot f frame scopes word .i32 → f.Performs p (.alloca word) →
      f.Computes p.next (.call Library.readId [format, .slotAddr word]) .i32 →
      f.Computes p.next.past (.load word) .i32 →
      f.Computes p.next.past.past (.compare .ine p.next.past.value (.zero .i32)) .i1 →
      f.Performs p.next.past.past.past (.store slot p.next.past.past.value) →
      ReadCode scopes slot ty p p.next.past.past.past.next
  | number {format p} : ty ≠ .i1 → ty.isNumber → m.HasFormat ty .input format →
      f.Computes p (.call Library.readId [format, .slotAddr slot]) .i32 →
      ReadCode scopes slot ty p p.past

mutual

/-- Code of a statement between two places, with the scopes before and after it. A statement that
is never left goes on in a block that nothing leads to. -/
inductive StmtCode : Stmt → Scopes → Spot → Scopes → Spot → Prop
  | assert {c span s p check fail success n₁ t p₁ n₂ n₃} : f.Ends p (.br check) →
      ConditionCode m table f s c (.start check n₁) t p₁ → f.Ends p₁ (.condBr t success fail) →
      AbortCode f (.start fail n₂) → StmtCode (.assert c span) s p s (.start success n₃)
  | read {x span s p slot ty q} : s.find? x.text = some slot → f.HasSlot slot ty →
      ReadCode m f frame s slot ty p q → StmtCode (.read x span) s p s q
  | abort {span s p dead n} : AbortCode f p → StmtCode (.abort span) s p s (.start dead n)
  | call {callee args span s p v q} : ExprCode m table f s (.call callee args span) p v q →
      StmtCode (.call callee args span) s p s q
  | print {e span s p v p₁ ty v' p₂ format} : ExprCode m table f s e p v p₁ →
      f.typeOf v = .ok ty → ty.isNumber → PromoteCode f ty v p₁ v' p₂ →
      m.HasFormat ty .output format → f.Computes p₂ (.call Library.printId [format, v']) .i32 →
      StmtCode (.print e span) s p s p₂.past
  | assign {x e span s p slot ty v p₁} : s.find? x.text = some slot → f.HasSlot slot ty →
      CoerceCode m table f s e ty p v p₁ → f.Performs p₁ (.store slot v) →
      StmtCode (.assign x e span) s p s p₁.next
  | declare {x type span s p slot} : s.definedHere x.text = false →
      FreshSlot f frame s slot type.ty → f.Performs p (.alloca slot) →
      StmtCode (.declare x type none span) s p (s.bind x.text slot) p.next
  | declareAs {x type e span s p v p₁ slot} : CoerceCode m table f s e type.ty p v p₁ →
      s.definedHere x.text = false → FreshSlot f frame s slot type.ty →
      f.Performs p₁ (.alloca slot) → f.Performs p₁.next (.store slot v) →
      StmtCode (.declare x type (some e) span) s p (s.bind x.text slot) p₁.next.next
  | loop {body c span s p first n₁ s' p₁ test n₂ t p₂ after n₃} : f.Ends p (.br first) →
      StmtsCode body s.enter (.start first n₁) s' p₁ → f.Ends p₁ (.br test) →
      ConditionCode m table f s c (.start test n₂) t p₂ → f.Ends p₂ (.condBr t first after) →
      StmtCode (.loop body c span) s p s (.start after n₃)
  | branch {lead cs span s p first n₁ exit p₁ n₂} : f.Ends p (.br first) →
      CasesCode exit cs s (.start first n₁) p₁ → f.Ends p₁ (.br exit) →
      StmtCode (.branch lead cs none span) s p s (.start exit n₂)
  | branchElse {lead cs body span s p first n₁ exit p₁ other n₂ s' p₂ n₃} : f.Ends p (.br first) →
      CasesCode exit cs s (.start first n₁) p₁ → f.Ends p₁ (.br other) →
      StmtsCode body s.enter (.start other n₂) s' p₂ → f.Ends p₂ (.br exit) →
      StmtCode (.branch lead cs (some body) span) s p s (.start exit n₃)
  | ret {span s p dead n} : f.Ends p (.br frame.exit) →
      StmtCode (.ret none span) s p s (.start dead n)
  | retAs {e span s p slot v p₁ dead n} : frame.result = some slot →
      CoerceCode m table f s e f.ret p v p₁ → f.Performs p₁ (.store slot v) →
      f.Ends p₁.next (.br frame.exit) → StmtCode (.ret (some e) span) s p s (.start dead n)

inductive StmtsCode : List Stmt → Scopes → Spot → Scopes → Spot → Prop
  | nil {s p} : StmtsCode [] s p s p
  | cons {a rest s p s₁ p₁ s₂ q} : StmtCode a s p s₁ p₁ → StmtsCode rest s₁ p₁ s₂ q →
      StmtsCode (a :: rest) s p s₂ q

/-- The cases of a branch. A body leaves for `exit`; the end is reached when no case holds. -/
inductive CasesCode : BlockId → List Case → Scopes → Spot → Spot → Prop
  | nil {exit s p} : CasesCode exit [] s p p
  | cons {exit c body rest s p t p₁ first n₁ s' p₂ next n₂ q} :
      ConditionCode m table f s c p t p₁ → f.Ends p₁ (.condBr t first next) →
      StmtsCode body s.enter (.start first n₁) s' p₂ → f.Ends p₂ (.br exit) →
      CasesCode exit rest s (.start next n₂) q → CasesCode exit (.mk c body :: rest) s p q

end

end

inductive ParamsCode (f : Function) (frame : BodyFrame) :
    Nat → List Param → Scopes → Spot → Scopes → Spot → Prop
  | nil {index s p} : ParamsCode f frame index [] s p s p
  | cons {index x rest s p slot s' q} : s.definedHere x.name.text = false →
      FreshSlot f frame s slot x.type.ty → f.Performs p (.alloca slot) →
      f.Performs p.next (.store slot (.param index)) →
      ParamsCode f frame (index + 1) rest (s.bind x.name.text slot) p.next.next s' q →
      ParamsCode f frame index (x :: rest) s p s' q

/-- The room for the result, which is zero at first. -/
inductive ResultCode (f : Function) (r : Routine) : Option SlotId → Spot → Spot → Prop
  | void {p} : r.result.ty = .void → ResultCode f r none p p
  | zero {slot p} : r.result.ty ≠ .void → r.isEntry = false → f.HasSlot slot r.result.ty →
      f.Performs p (.alloca slot) → ResultCode f r (some slot) p p.next
  | entry {slot p} : r.result.ty ≠ .void → r.isEntry → f.HasSlot slot r.result.ty →
      f.Performs p (.alloca slot) → f.Performs p.next (.store slot (.zero r.result.ty)) →
      ResultCode f r (some slot) p p.next.next

inductive ExitCode (f : Function) : BodyFrame → Prop
  | void {exit n} : f.Ends (.start exit n) (.ret none) → ExitCode f ⟨exit, none⟩
  | value {exit slot n} : f.Computes (.start exit n) (.load slot) f.ret →
      f.Ends (Spot.start exit n).past (.ret (some (Spot.start exit n).value)) →
      ExitCode f ⟨exit, some slot⟩

/-- Code of a routine with a body, from the entry of the function to its exit. -/
def BodyCode (m : Module) (table : List (String × FuncId)) (f : Function) (r : Routine) : Prop :=
  ∃ entry n frame p₁ s p₂ s' p₃, f.entryBlock? = some entry ∧
    ResultCode f r frame.result (.start entry n) p₁ ∧
    ParamsCode f frame 0 r.params [[]] p₁ s p₂ ∧ StmtsCode m table f frame r.body s p₂ s' p₃ ∧
    f.Ends p₃ (.br frame.exit) ∧ ExitCode f frame

/-- The function of a routine before it has a body. -/
def Routine.declared (r : Routine) : Function :=
  .declared r.name (r.params.map fun p => ⟨p.name.text, p.type.ty⟩) r.result.ty

/-- The function for a routine: a declaration if the body is empty. -/
structure RoutineCode (m : Module) (table : List (String × FuncId)) (r : Routine) (f : Function) :
    Prop where
  signature : f.signature = r.declared.signature
  declared : r.body = [] → f = r.declared
  defined : r.body ≠ [] → BodyCode m table f r

/-- A module that holds the code of routines, behind the outside functions and in their order. -/
structure RoutinesCode (m : Module) (rs : List Routine) : Prop where
  size : m.functions.size = 3 + rs.length
  indexed : m.IsIndexed
  outside : Library.IsIn m
  names : (rs.map Routine.name).Nodup
  notReserved : ∀ r ∈ rs, Library.isReserved r.name = false
  code : ∃ table : List (String × FuncId),
    (∀ x id, table.lookup x = some id ↔
      ∃ k r, rs[k]? = some r ∧ r.isEntry = false ∧ r.name = x ∧ id = ⟨3 + k⟩) ∧
    ∀ (k : Nat) (r : Routine), rs[k]? = some r →
      ∃ f, m.functions[3 + k]? = some f ∧ RoutineCode m table r f

end Quill
