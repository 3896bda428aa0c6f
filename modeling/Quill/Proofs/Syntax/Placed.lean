import Quill.Lowering.Program
import Quill.Proofs.Syntax.Errors

/-! # Where the parts of a tree stand

A tree holds places of its parts for the errors about them. In a tree that was read from lexemes
each of these places is the span of some of the lexemes, next to each other.
-/
namespace Quill

/-! ### A condition on all spans of a tree -/

variable (P : Span → Prop)

namespace Expr

mutual

def Placed : Expr → Prop
  | int _ s | float _ s => P s
  | var x => P x.span
  | binary _ lhs rhs => P (lhs.span.through rhs.span) ∧ lhs.Placed ∧ rhs.Placed
  | semi _ lead rhs s => P s ∧ P lead.span ∧ rhs.Placed
  | call callee args s => P s ∧ P callee.span ∧ AllPlaced args

def AllPlaced : List Expr → Prop
  | [] => True
  | e :: rest => e.Placed ∧ AllPlaced rest

end

end Expr

mutual

def Stmt.Placed : Stmt → Prop
  | .assert c s => P s ∧ c.Placed P
  | .read x s => P s ∧ P x.span
  | .abort s => P s
  | .call callee args s => (Expr.call callee args s).Placed P
  | .print e s => P s ∧ e.Placed P
  | .assign x e s => P s ∧ P x.span ∧ e.Placed P
  | .declare x _ none s => P s ∧ P x.span
  | .declare x _ (some e) s => P s ∧ P x.span ∧ e.Placed P
  | .loop body c s => P s ∧ Stmt.AllPlaced body ∧ c.Placed P
  | .branch lead cs none s => P s ∧ P lead.span ∧ Case.AllPlaced cs
  | .branch lead cs (some body) s =>
    P s ∧ P lead.span ∧ Case.AllPlaced cs ∧ Stmt.AllPlaced body
  | .ret none s => P s
  | .ret (some e) s => P s ∧ e.Placed P

def Stmt.AllPlaced : List Stmt → Prop
  | [] => True
  | s :: rest => s.Placed ∧ Stmt.AllPlaced rest

def Case.Placed : Case → Prop
  | .mk c body => c.Placed P ∧ Stmt.AllPlaced body

def Case.AllPlaced : List Case → Prop
  | [] => True
  | c :: rest => c.Placed ∧ Case.AllPlaced rest

end

structure Routine.Placed (r : Routine) : Prop where
  name : P r.nameSpan
  whole : P r.span
  params : ∀ p ∈ r.params, P p.name.span
  body : Stmt.AllPlaced P r.body

def Program.Placed (p : Program) : Prop := ∀ r ∈ p.routines, r.Placed P

/-! ### Trees read from lexemes -/

variable {P}

theorem Expr.Placed.span {e : Expr} (h : e.Placed P) : P e.span := by
  cases e with
  | int | float | var => exact h
  | binary | semi | call => exact h.1

/-- The condition holds for any of the lexemes that stand next to each other. -/
def Covered (P : Span → Prop) (ls : List Lexeme) : Prop :=
  ∀ ms, ms <:+: ls → ms ≠ [] → P (spanOf ms)

namespace Covered

variable {l : Lexeme} {xs ys : List Lexeme}

theorem left (h : Covered P (xs ++ ys)) : Covered P xs :=
  fun ms hms => h ms (hms.trans (List.prefix_append xs ys).isInfix)

theorem right (h : Covered P (xs ++ ys)) : Covered P ys :=
  fun ms hms => h ms (hms.trans (List.suffix_append xs ys).isInfix)

theorem tail (h : Covered P (l :: xs)) : Covered P xs :=
  fun ms hms => h ms (hms.trans (List.suffix_cons l xs).isInfix)

theorem whole (h : Covered P xs) (hne : xs ≠ []) : P (spanOf xs) := h xs List.infix_rfl hne

theorem head (h : Covered P (l :: xs)) : P l.span :=
  h [l] ⟨[], xs, rfl⟩ (List.cons_ne_nil l [])

end Covered

mutual

theorem Expr.Spelled.placed {e : Expr} {ls : List Lexeme} (h : e.Spelled ls)
    (hP : Covered P ls) : e.Placed P := by
  match e with
  | .int .. =>
    cases h with
    | int => exact hP.head
  | .float .. =>
    cases h with
    | float => exact hP.head
  | .var _ =>
    cases h with
    | var => exact hP.head
  | .binary op lhs rhs =>
    have hspan := h.span
    have hne := h.ne_nil
    cases h with
    | binary hlhs _ hrhs =>
      refine ⟨?_, hlhs.placed hP.left, hrhs.placed hP.right.tail⟩
      have hwhole := hP.whole hne
      rwa [← hspan] at hwhole
  | .call callee args span =>
    cases h with
    | call _ _ hargs =>
      refine ⟨hP.whole (List.cons_ne_nil _ _), hP.tail.head, ?_⟩
      cases hargs with
      | none => trivial
      | some _ hitems => exact Expr.items_placed hitems hP.tail.tail.tail

theorem Expr.items_placed {es : List Expr} {ls : List Lexeme} (h : Items Expr.Spelled es ls)
    (hP : Covered P ls) : Expr.AllPlaced P es := by
  match es with
  | [] => trivial
  | e :: rest =>
    cases h with
    | last he _ => exact ⟨he.placed hP.left, trivial⟩
    | more he _ hrest => exact ⟨he.placed hP.left, Expr.items_placed hrest hP.right.tail⟩

end

mutual

theorem Stmt.Spelled.placed {s : Stmt} {ls : List Lexeme} (h : s.Spelled Expr.Grouped ls)
    (hspan : P s.span) (hP : Covered P ls) : s.Placed P := by
  match s with
  | .assert c span =>
    cases h with
    | assert _ hc _ => exact ⟨hspan, hc.1.placed hP.tail.left⟩
  | .read .. =>
    cases h with
    | read => exact ⟨hspan, hP.tail.head⟩
  | .abort _ => exact hspan
  | .call callee args span =>
    cases h with
    | call hcall => exact hcall.1.placed hP
  | .print e span =>
    cases h with
    | print he _ => exact ⟨hspan, he.1.placed hP.left⟩
  | .assign x e span =>
    cases h with
    | assign _ _ he => exact ⟨hspan, hP.head, he.1.placed hP.tail.tail⟩
  | .declare x type none span =>
    cases h with
    | declare => exact ⟨hspan, hP.tail.head⟩
  | .declare x type (some e) span =>
    cases h with
    | declareAs _ _ _ _ _ he => exact ⟨hspan, hP.tail.head, he.1.placed hP.tail.tail.tail.right.tail⟩
  | .loop body c span =>
    cases h with
    | loop _ hbody _ hc =>
      exact ⟨hspan, stmts_placed hbody hP.tail.left, hc.1.placed hP.tail.right.tail⟩
  | .branch lead cs none span =>
    cases h with
    | branch _ _ _ hcs _ =>
      exact ⟨hspan, hP.tail.head, cases_placed hcs hP.tail.head hP.tail.tail.tail.left⟩
  | .branch lead cs (some body) span =>
    cases h with
    | branchElse _ _ _ hcs _ _ hbody _ =>
      have hrest := hP.tail.tail.tail
      exact ⟨hspan, hP.tail.head, cases_placed hcs hP.tail.head hrest.left,
        stmts_placed hbody hrest.right.tail.right.left⟩
  | .ret none span => exact hspan
  | .ret (some e) span =>
    cases h with
    | retAs _ he _ => exact ⟨hspan, he.1.placed hP.tail.left⟩

theorem stmts_placed {ss : List Stmt} {ls : List Lexeme} (h : Stmt.AllSpelled Expr.Grouped ss ls)
    (hP : Covered P ls) : Stmt.AllPlaced P ss := by
  match ss with
  | [] => trivial
  | s :: rest =>
    cases h with
    | cons _ hs hspan hrest =>
      refine ⟨hs.placed ?_ hP.right.left, stmts_placed hrest hP.right.right⟩
      rw [hspan]
      exact hP.right.left.whole hs.ne_nil

theorem case_placed {lead : Ident} {c : Case} {ls : List Lexeme}
    (h : c.Spelled Expr.Grouped lead ls) (hlead : P lead.span) (hP : Covered P ls) :
    c.Placed P := by
  match c with
  | .mk condition body =>
    cases h with
    | mk _ hrhs _ hbody =>
      refine ⟨⟨?_, hlead, hrhs.1.placed hP.right.left⟩, stmts_placed hbody hP.right.right.right⟩
      rw [← List.append_assoc] at hP
      exact hP.left.whole (List.append_ne_nil_of_right_ne_nil _ hrhs.1.ne_nil)

theorem cases_placed {lead : Ident} {cs : List Case} {ls : List Lexeme}
    (h : Case.AllSpelled Expr.Grouped lead cs ls) (hlead : P lead.span) (hP : Covered P ls) :
    Case.AllPlaced P cs := by
  match cs with
  | [] => trivial
  | c :: rest =>
    cases h with
    | one hc => exact ⟨case_placed hc hlead hP, trivial⟩
    | more hc _ hrest =>
      exact ⟨case_placed hc hlead hP.left, cases_placed hrest hlead hP.right.tail⟩

end

theorem params_placed {ps : List Param} {ls : List Lexeme} (h : Items Param.Spelled ps ls)
    (hP : Covered P ls) : ∀ p ∈ ps, P p.name.span := by
  induction h with
  | last hp _ =>
    cases hp with
    | mk => exact List.forall_mem_singleton.2 hP.left.head
  | more hp _ _ ih =>
    cases hp with
    | mk => exact List.forall_mem_cons.2 ⟨hP.left.head, ih hP.right.tail⟩

theorem FunctionDecl.Spelled.placed {f : FunctionDecl} {ls : List Lexeme}
    (h : f.Spelled Expr.Grouped ls) (hP : Covered P ls) : f.routine.Placed P := by
  cases h with
  | mk _ _ _ hparams hbody =>
    have hname := hP.tail.right
    refine ⟨hname.head, hP.whole (List.cons_ne_nil _ _), ?_,
      stmts_placed hbody hname.tail.right⟩
    cases hparams with
    | none => exact List.forall_mem_nil _
    | some _ hitems => exact params_placed hitems hname.tail.left.tail

theorem functions_placed {fs : List FunctionDecl} {ls : List Lexeme}
    (h : FunctionDecl.AllSpelled Expr.Grouped fs ls) (hP : Covered P ls) :
    ∀ f ∈ fs, f.routine.Placed P := by
  induction h with
  | nil => exact List.forall_mem_nil _
  | cons hf _ ih => exact List.forall_mem_cons.2 ⟨hf.placed hP.left, ih hP.right⟩

theorem EntryPoint.Spelled.placed {m : EntryPoint} {ls : List Lexeme}
    (h : m.Spelled Expr.Grouped ls) (hP : Covered P ls) : m.routine.Placed P := by
  cases h with
  | mk _ hbody =>
    have hwhole := hP.whole (List.cons_ne_nil _ _)
    exact ⟨hwhole, hwhole, List.forall_mem_nil _, stmts_placed hbody hP.tail⟩

theorem Program.Spelled.placed {fileName : String} {p : Program} {ls : List Lexeme}
    (h : p.Spelled Expr.Grouped fileName ls) (hP : Covered P ls) : p.Placed P := by
  intro r hr
  cases h with
  | library hfs =>
    simp only [routines, Option.map_none, Option.toList_none, List.append_nil] at hr
    obtain ⟨f, hf, rfl⟩ := List.mem_map.1 hr
    exact functions_placed hfs hP f hf
  | withMain hfs hm hgs =>
    simp only [routines, Option.map_some, Option.toList_some, List.map_append, List.mem_append,
      List.mem_singleton] at hr
    rcases hr with (hr | hr) | rfl
    · obtain ⟨f, hf, rfl⟩ := List.mem_map.1 hr
      exact functions_placed hfs hP.left f hf
    · obtain ⟨f, hf, rfl⟩ := List.mem_map.1 hr
      exact functions_placed hgs hP.right.right f hf
    · exact hm.placed hP.right.left

end Quill
