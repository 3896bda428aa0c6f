import Quill.Proofs.Meaning.Program
import Quill.Proofs.Typing.Program

/-! # Casts of constants

A constant that is cast at once becomes what the instruction would give in its place. So a program
may as well be lowered with an instruction for every cast: that makes another module, which does
the same.
-/
namespace Quill

open Ir (Build Builder CastOp Function Module Operand Ty)
open Meaning (Console consoleOf)

/-! ### One cast -/

section

variable {op : CastOp} {source target : Ty} {v v' : Operand} {b c : Builder}

/-- A cast is the instruction, or it is a constant and the builder stays as it is. -/
theorem Ir.Build.cast_cases (h : Build.cast op v target b = .ok (v', c)) :
    Build.emitCast op v target b = .ok (v', c) ∨
    c = b ∧ ∃ (source : Ty) (f : Function), f.typeOf v = .ok source ∧
      foldCast op source v target = some v' := by
  obtain ⟨source, s, hty, hrest⟩ := bind_ok_iff.1 h
  obtain ⟨f, s', hcurrent, hread⟩ := bind_ok_iff.1 hty
  obtain ⟨id, -, rfl⟩ := currentFunction_eq_ok hcurrent
  obtain ⟨hsource, rfl⟩ := ofExcept_ok_iff.1 hread
  cases hfold : foldCast op source v target with
  | none =>
    rw [hfold] at hrest
    exact .inl hrest
  | some folded =>
    rw [hfold] at hrest
    cases hrest
    exact .inr ⟨rfl, source, f, hsource, hfold⟩

theorem Ir.Operand.typeOf_constant {x : Value} (h : v.constant? = some x) (f g : Function) :
    f.typeOf v = g.typeOf v := by
  cases v <;> first | rfl | cases h

/-- Every activation reads for the folded constant what the instruction gives there. -/
theorem Ir.foldCast_perform {f : Function} (hty : f.typeOf v = .ok source)
    (h : foldCast op source v target = some v') (a : Activation) :
    ∃ y, a.get v' = .ok y ∧ a.perform (.cast op v target) = .ok (y, a) := by
  obtain ⟨x, hx, hy⟩ := foldCast_constant h
  have hsource : a.function.typeOf v = .ok source := (Operand.typeOf_constant hx _ f).trans hty
  exact ⟨_, get_constant hy, perform_cast (get_constant hx) hsource⟩

end

/-! ### Programs -/

/-- Lowering starts, and every cast is going to be an instruction. -/
def Lowering.startUnfolded (name : String) : Lowering := { start name with folds := false }

theorem Lower.startUnfolded_declares (name : String) : Declares [] (.startUnfolded name) :=
  { start_declares name with }

namespace Program

variable {o : LexerOptions} {fileName : String} {feed : Feed} {p : Program} {m m' : Module}

def lowerUnfolded (p : Program) : Lowered := p.lowerFrom (.startUnfolded p.fileName)

theorem lowerUnfolded_ok_iff (hparse : (Program.parse o fileName feed).outcome = .ok p) :
    (∃ m', p.lowerUnfolded.outcome = .ok m') ↔ ∃ m, p.lower.outcome = .ok m := by
  rw [lower_ok_iff_wellTyped hparse]
  rcases lowerFrom_decides hparse (Lower.startUnfolded_declares p.fileName) with
    ⟨m', hm', hp⟩ | ⟨e, he, hno⟩
  · exact iff_of_true ⟨m', hm'⟩ hp
  · refine iff_of_false ?_ hno
    rintro ⟨m', hm'⟩
    cases hm'.symm.trans he

/-- Of two modules that are code of one program, the second ends as the first does. -/
theorem callable_ends (hparse : (Program.parse o fileName feed).outcome = .ok p)
    (h : Callable m p.routines) (h' : Callable m' p.routines) {w : World}
    {out : Except Halt Int64} {k : Console} :
    (∃ fuel M, (Machine.mk m w).runMain fuel = some (out, M) ∧ consoleOf M.world = k) →
      ∃ fuel M, (Machine.mk m' w).runMain fuel = some (out, M) ∧ consoleOf M.world = k := by
  rintro ⟨fuel, M, hrun, hk⟩
  obtain ⟨r, -, -, rfl, -⟩ := (callable_meets hparse h w fuel).ended hrun
  rw [callable_runMain hparse h' w r k, ← callable_runMain hparse h w r k]
  exact ⟨fuel, M, hrun, hk⟩

/-- Folding agrees with execution. Where a cast is not emitted, its result has the target type, and
every activation reads for it the value that the instruction gives there. An accepted program is
lowered with an instruction for every cast, too, and runs of both modules end in the same exit code
or trap, with the same output and the same input left. -/
theorem lowerUnfolded_agrees :
    (∀ (op : CastOp) (v : Operand) (target : Ty) (b : Builder) (v' : Operand) (c : Builder),
      Build.cast op v target b = .ok (v', c) →
        Build.emitCast op v target b = .ok (v', c) ∨
        c = b ∧ (∀ f : Function, f.typeOf v' = .ok target) ∧
          ∀ a : Activation, ∃ y, a.get v' = .ok y ∧ a.perform (.cast op v target) = .ok (y, a)) ∧
    ∀ (o : LexerOptions) (fileName : String) (feed : Feed) (p : Program) (m : Module),
      (Program.parse o fileName feed).outcome = .ok p → p.lower.outcome = .ok m →
      ∃ m', p.lowerUnfolded.outcome = .ok m' ∧
        ∀ (w : World) (out : Except Halt Int64) (k : Console),
          (∃ fuel M, (Machine.mk m w).runMain fuel = some (out, M) ∧ consoleOf M.world = k) ↔
          ∃ fuel M, (Machine.mk m' w).runMain fuel = some (out, M) ∧ consoleOf M.world = k := by
  constructor
  · intro op v target b v' c hcast
    refine (Build.cast_cases hcast).imp_right ?_
    rintro ⟨rfl, source, f, hty, hfold⟩
    exact ⟨rfl, fun g => Ir.foldCast_typeOf hfold, Ir.foldCast_perform hty hfold⟩
  · intro o fileName feed p m hparse hlower
    obtain ⟨m', hm'⟩ := (lowerUnfolded_ok_iff hparse).2 ⟨m, hlower⟩
    have h := callable hparse hlower
    have h' := callable_of_lowerFrom hparse (Lower.startUnfolded_declares p.fileName) hm'
    exact ⟨m', hm', fun w out k => ⟨callable_ends hparse h h', callable_ends hparse h' h⟩⟩

def wideningSource : List UInt8 := Utf8.encode "main var x: double = 2, x print return 0!"

theorem widening_lowers : ∃ p m m',
    (Program.parse .usual "sample" (.whole wideningSource)).outcome = .ok p ∧
    p.lower.outcome = .ok m ∧ p.lowerUnfolded.outcome = .ok m' ∧ m ≠ m' := by
  have hvalues : (Program.parse .usual "sample" (.whole wideningSource)).outcome.toOption.map
      (fun p => (p.lower.outcome.toOption.map fun m => m.functions.map (·.values.size),
        p.lowerUnfolded.outcome.toOption.map fun m => m.functions.map (·.values.size))) =
      some (some #[0, 0, 0, 3], some #[0, 0, 0, 5]) := by
    rw [Program.outcome_parse_whole]
    decide +kernel
  obtain ⟨p, hp, hvalues⟩ := exists_ok_of_map hvalues
  obtain ⟨hfolded, hunfolded⟩ := Prod.mk.inj hvalues
  obtain ⟨m, hm, hsizes⟩ := exists_ok_of_map hfolded
  obtain ⟨m', hm', hsizes'⟩ := exists_ok_of_map hunfolded
  refine ⟨p, m, m', hp, hm, hm', ?_⟩
  rintro rfl
  simpa using hsizes.symm.trans hsizes'

def bareBuilder : Builder :=
  ⟨{ Module.empty "sample" with functions := #[.declared "f" [] .void] }, some ⟨0⟩, none⟩

theorem lowerUnfolded_agrees_sample :
    (Build.cast .zext (.int .i8 (-1)) .i32 bareBuilder = .ok (.int .i32 255, bareBuilder) ∧
      (Build.emitCast .zext (.int .i8 (-1)) .i32 bareBuilder =
          .ok (.int .i32 255, bareBuilder) ∨
        bareBuilder = bareBuilder ∧ (∀ f : Function, f.typeOf (.int .i32 255) = .ok .i32) ∧
          ∀ a : Activation, ∃ y, a.get (.int .i32 255) = .ok y ∧
            a.perform (.cast .zext (.int .i8 (-1)) .i32) = .ok (y, a))) ∧
    ∃ p m m', (Program.parse .usual "sample" (.whole wideningSource)).outcome = .ok p ∧
      p.lower.outcome = .ok m ∧ p.lowerUnfolded.outcome = .ok m' ∧ m ≠ m' ∧
      ∀ (w : World) (out : Except Halt Int64) (k : Console),
        (∃ fuel M, (Machine.mk m w).runMain fuel = some (out, M) ∧ consoleOf M.world = k) ↔
        ∃ fuel M, (Machine.mk m' w).runMain fuel = some (out, M) ∧ consoleOf M.world = k := by
  have hcast : Build.cast .zext (.int .i8 (-1)) .i32 bareBuilder =
      .ok (.int .i32 255, bareBuilder) := by
    rfl
  refine ⟨⟨hcast, lowerUnfolded_agrees.1 _ _ _ _ _ _ hcast⟩, ?_⟩
  obtain ⟨p, m, m', hp, hm, hm', hne⟩ := widening_lowers
  obtain ⟨m'', hm'', hruns⟩ := lowerUnfolded_agrees.2 _ _ _ _ _ hp hm
  obtain rfl := Except.ok.inj (hm'.symm.trans hm'')
  exact ⟨p, m, m', hp, hm, hm', hne, hruns⟩

end Program

end Quill
