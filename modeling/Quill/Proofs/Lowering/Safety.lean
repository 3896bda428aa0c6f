import Mathlib
import Quill.Proofs.Lexer.Lexemes
import Quill.Proofs.Lowering.Program
import Quill.Proofs.Syntax.Names

/-! # Lowering of parsed programs is safe

What the parser produces is lowered to a module that passes verification, or rejected for a cause
that its author can mend. No step of the lowering misuses the builder.
-/
namespace Quill

open Ir (FuncId Module Ty)

theorem TypeExpr.ty_ne_void {t : TypeExpr} (h : t.isVoid = false) : t.ty ≠ .void := by
  revert h
  obtain ⟨base, isPointer⟩ := t
  cases base <;> cases isPointer <;> decide

namespace Program

variable {o : LexerOptions} {fileName : String} {feed : Feed} {p : Program}

theorem params_routines (h : (Program.parse o fileName feed).outcome = .ok p) :
    ∀ r ∈ p.routines, ∀ x ∈ r.params, x.type.ty ≠ .void := by
  intro r hr x hx
  have hvoid : x.type.isVoid = false := by
    rcases List.mem_append.1 hr with hr | hr
    · obtain ⟨f, hf, rfl⟩ := List.mem_map.1 hr
      exact params_parse h f hf x hx
    · obtain ⟨e, -, rfl⟩ := Option.map_eq_some_iff.1 (Option.mem_toList.1 hr)
      simp [EntryPoint.routine] at hx
  exact TypeExpr.ty_ne_void hvoid

/-- Only the entry point of a parsed program is called as it is. -/
theorem isEntry_of_main (h : (Program.parse o fileName feed).outcome = .ok p) :
    ∀ r ∈ p.routines, r.name = "main" → r.isEntry := by
  intro r hr hname
  rcases List.mem_append.1 hr with hr | hr
  · obtain ⟨f, hf, rfl⟩ := List.mem_map.1 hr
    have hmem : f.name.text ∈ p.names :=
      List.mem_append_left _ (List.mem_flatMap.2 ⟨f, hf, List.mem_cons_self⟩)
    have hreserved := reserved?_parse h _ hmem
    rw [show f.name.text = "main" from hname] at hreserved
    cases hreserved
  · obtain ⟨e, -, rfl⟩ := Option.map_eq_some_iff.1 (Option.mem_toList.1 hr)
    rfl

/-- A parsed program is accepted, and then all functions of the module pass verification, or it is
rejected for a cause other than that; nothing is misused on the way. The names of the program are
all numbered. -/
theorem lower_safe (h : (Program.parse o fileName feed).outcome = .ok p) :
    ((∃ m, p.lower.outcome = .ok m ∧
        ∀ id : FuncId, id.index < m.functions.size → m.verify id = .ok ()) ∨
      ∃ e, p.lower.outcome = .error (.rejected e) ∧ e.val.IsUserFacing) ∧
    ∀ x ∈ p.names, ∃ s, (Interner.ofLexemes (o.lexer feed).toList).lookup? x = some s ∧
      (Interner.ofLexemes (o.lexer feed).toList).get? s = some x := by
  constructor
  · refine (p.lower_outcome (params_routines h)).imp_left ?_
    rintro ⟨m, hm, -, hverify⟩
    exact ⟨m, hm, hverify⟩
  · intro x hx
    obtain ⟨l, hl, hname⟩ := names_parse h x hx
    exact Interner.exists_ofLexemes hl hname

def sampleSource : List UInt8 :=
  Utf8.encode "main var n: integer = 2, do n print, n = n - 1, while n > 0 return n!"

theorem sample_compiles : ∃ p m,
    (Program.parse .usual "sample" (.whole sampleSource)).outcome = .ok p ∧
    p.lower.outcome = .ok m := by
  have hok : ((Program.parse .usual "sample" (.whole sampleSource)).outcome.toOption.bind
      fun p => p.lower.outcome.toOption).isSome := by
    rw [Program.outcome_parse_whole]
    decide +kernel
  obtain ⟨m, hok⟩ := Option.isSome_iff_exists.1 hok
  obtain ⟨p, hp, hm⟩ := exists_ok_of_bind hok
  exact ⟨p, m, hp, eq_ok_of_toOption hm⟩

theorem lower_safe_sample : ∃ p,
    (Program.parse .usual "sample" (.whole sampleSource)).outcome = .ok p ∧
    ((∃ m, p.lower.outcome = .ok m ∧
        ∀ id : FuncId, id.index < m.functions.size → m.verify id = .ok ()) ∨
      ∃ e, p.lower.outcome = .error (.rejected e) ∧ e.val.IsUserFacing) ∧
    ∀ x ∈ p.names, ∃ s,
      (Interner.ofLexemes (LexerOptions.usual.lexer (.whole sampleSource)).toList).lookup? x =
        some s ∧
      (Interner.ofLexemes (LexerOptions.usual.lexer (.whole sampleSource)).toList).get? s =
        some x := by
  obtain ⟨p, m, hp, -⟩ := sample_compiles
  exact ⟨p, hp, lower_safe hp⟩

end Program

end Quill
