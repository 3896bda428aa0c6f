import Quill.Proofs.Meaning.Bare
import Quill.Proofs.Meaning.Program
import Quill.Proofs.Typing.Bare
import Quill.Proofs.Typing.Program

/-! # The order of functions

Functions may stand in any order in a source, before and after the entry point. The order decides
under which number a function and the text of a format are kept, but neither whether a program is
accepted nor what it does.
-/
namespace Quill

theorem find?_perm {α : Type} {P : α → Bool} {xs ys : List α} (h : xs.Perm ys)
    (hone : ∀ a ∈ xs, ∀ b ∈ xs, P a → P b → a = b) : xs.find? P = ys.find? P := by
  cases hx : xs.find? P with
  | none =>
    symm
    rw [List.find?_eq_none] at hx ⊢
    exact fun b hb => hx b (h.mem_iff.2 hb)
  | some a =>
    have ha := List.mem_of_find?_eq_some hx
    have hP := List.find?_some hx
    cases hy : ys.find? P with
    | none => exact absurd hP (List.find?_eq_none.1 hy a (h.mem_iff.1 ha))
    | some b =>
      have hb := h.mem_iff.2 (List.mem_of_find?_eq_some hy)
      rw [hone a ha b hb hP (List.find?_some hy)]

/-- The programs are the same up to places and the order of their functions. -/
structure Program.Rearranged (p q : Program) : Prop where
  main : p.main.map EntryPoint.bare = q.main.map EntryPoint.bare
  functions : (p.functions.map FunctionDecl.bare).Perm (q.functions.map FunctionDecl.bare)

namespace Program

variable {p q : Program}

theorem routines_bare (p : Program) : p.routines.map Routine.bare =
    (p.functions.map FunctionDecl.bare).map FunctionDecl.routine ++
      ((p.main.map EntryPoint.bare).map EntryPoint.routine).toList := by
  unfold routines
  rw [List.map_append, List.map_map, List.map_map]
  cases p.main <;> rfl

theorem names_bare (p : Program) : p.functions.map (·.name.text) =
    (p.functions.map FunctionDecl.bare).map (·.name.text) := by
  rw [List.map_map]
  rfl

theorem signature_bare (p : Program) (name : String) (types : List Ir.Ty) (result : Ir.Ty) :
    (∃ g ∈ p.functions, g.HasSignature name types result) ↔
      ∃ g ∈ p.functions.map FunctionDecl.bare, g.HasSignature name types result := by
  have hbare (g : FunctionDecl) : g.bare.HasSignature name types result ↔
      g.HasSignature name types result := by
    simp [FunctionDecl.HasSignature, FunctionDecl.bare, Ident.bare, Param.bare, Function.comp_def]
  simp [hbare]

namespace Rearranged

theorem symm (h : Rearranged p q) : Rearranged q p := ⟨h.main.symm, h.functions.symm⟩

theorem routines (h : Rearranged p q) :
    (p.routines.map Routine.bare).Perm (q.routines.map Routine.bare) := by
  rw [p.routines_bare, q.routines_bare, h.main]
  exact (h.functions.map _).append_right _

theorem signatures (h : Rearranged p q) : SameSignatures p.functions q.functions := by
  intro name types result
  rw [p.signature_bare, q.signature_bare]
  exact exists_congr fun g => and_congr_left' h.functions.mem_iff

theorem names (h : Rearranged p q) :
    (p.functions.map (·.name.text)).Perm (q.functions.map (·.name.text)) := by
  rw [p.names_bare, q.names_bare]
  exact h.functions.map _

theorem wellTyped (h : Rearranged p q) (hp : p.WellTyped) : q.WellTyped := by
  refine ⟨fun f hf => ?_, h.names.nodup_iff.1 hp.names, fun r hr => ?_⟩
  · obtain ⟨g, hg, hname⟩ := List.mem_map.1 (h.names.mem_iff.2 (List.mem_map_of_mem hf))
    exact hname ▸ hp.notReserved g hg
  · obtain ⟨r', hr', hbare⟩ := List.mem_map.1 (h.routines.mem_iff.2 (List.mem_map_of_mem hr))
    rw [r.wellTyped_bare (.refl q.functions), ← hbare, ← r'.wellTyped_bare h.signatures]
    exact hp.bodies r' hr'

/-- A name calls the same function in both, as no two functions have the same name. -/
theorem callables (h : Rearranged p q) (hnames : (p.functions.map (·.name.text)).Nodup) :
    Meaning.SameCallables p.routines q.routines := by
  intro x
  have hbare (rs : List Routine) : (rs.find? fun r => !r.isEntry && r.name == x).map Routine.bare =
      (rs.map Routine.bare).find? fun r => !r.isEntry && r.name == x := by
    rw [List.find?_map]
    rfl
  rw [hbare, hbare]
  refine find?_perm h.routines fun a ha b hb hax hbx => ?_
  have hfunction {r : Routine} (hr : r ∈ p.routines.map Routine.bare)
      (hrx : !r.isEntry && r.name == x) : ∃ f ∈ p.functions, f.name.text = x ∧ r = f.routine.bare := by
    obtain ⟨r, hmem, rfl⟩ := List.mem_map.1 hr
    rw [Routine.isEntry_bare, Routine.name_bare, Bool.and_eq_true, Bool.not_eq_true'] at hrx
    obtain ⟨hentry, hname⟩ := hrx
    rcases List.mem_append.1 hmem with hmem | hmem
    · obtain ⟨f, hf, rfl⟩ := List.mem_map.1 hmem
      exact ⟨f, hf, eq_of_beq hname, rfl⟩
    · obtain ⟨e, -, rfl⟩ := Option.map_eq_some_iff.1 (Option.mem_toList.1 hmem)
      cases hentry
  obtain ⟨f, hf, hfx, rfl⟩ := hfunction ha hax
  obtain ⟨g, hg, hgx, rfl⟩ := hfunction hb hbx
  rw [List.inj_on_of_nodup_map hnames hf hg (hfx.trans hgx.symm)]

end Rearranged

variable {o o' : LexerOptions} {fileName fileName' : String} {feed feed' : Feed}

/-- The order of functions does not matter. Of two parsed programs that are the same up to places
and the order of their functions, both are lowered to a module or none is. Runs of the modules in
the same world end in an exit code or a trap, and if one ends, so does the other, in the same way,
with the same output and the same input left. -/
theorem lower_rearranged (hp : (Program.parse o fileName feed).outcome = .ok p)
    (hq : (Program.parse o' fileName' feed').outcome = .ok q) (h : Rearranged p q) :
    ((∃ m, p.lower.outcome = .ok m) ↔ ∃ m, q.lower.outcome = .ok m) ∧
    ∀ m m', p.lower.outcome = .ok m → q.lower.outcome = .ok m' → ∀ w,
      (∀ fuel out M, (Machine.mk m w).runMain fuel = some (out, M) →
        ∃ r : Except Trap Int64, out = r.mapError .trap) ∧
      ∀ (r : Except Trap Int64) (k : Meaning.Console),
        (∃ fuel M, (Machine.mk m w).runMain fuel = some (r.mapError .trap, M) ∧
          Meaning.consoleOf M.world = k) ↔
        ∃ fuel M, (Machine.mk m' w).runMain fuel = some (r.mapError .trap, M) ∧
          Meaning.consoleOf M.world = k := by
  constructor
  · constructor
    · rintro ⟨m, hm⟩
      exact exists_lower hq (h.wellTyped (wellTyped_of_lower hp hm))
    · rintro ⟨m, hm⟩
      exact exists_lower hp (h.symm.wellTyped (wellTyped_of_lower hq hm))
  · intro m m' hm hm' w
    have hcallables := h.callables (wellTyped_of_lower hp hm).names
    refine ⟨fun fuel out M hrun => ?_, fun r k => ?_⟩
    · obtain ⟨r, k, -, rfl, -⟩ := (evaluate_meets hp hm w fuel).ended hrun
      exact ⟨r, rfl⟩
    · rw [evaluate_runMain hp hm, evaluate_runMain hq hm']
      simp only [Meaning.evaluate_bare h.main hcallables]

/-- A function that calls what follows it, and the entry point behind both. -/
def forwardSource : List UInt8 :=
  Utf8.encode "function f; call g; function g; 2 print main call f;"

/-- The same functions in another order and behind the entry point. -/
def backwardSource : List UInt8 :=
  Utf8.encode "main call f; function g; 2 print function f; call g;"

theorem forward_lowers : ∃ p m,
    (Program.parse .usual "sample" (.whole forwardSource)).outcome = .ok p ∧
    p.lower.outcome = .ok m := by
  have hok : ((Program.parse .usual "sample" (.whole forwardSource)).outcome.toOption.bind
      fun p => p.lower.outcome.toOption).isSome := by
    rw [Program.outcome_parse_whole]
    decide +kernel
  obtain ⟨m, hok⟩ := Option.isSome_iff_exists.1 hok
  obtain ⟨p, hp, hm⟩ := exists_ok_of_bind hok
  exact ⟨p, m, hp, eq_ok_of_toOption hm⟩

theorem backward_rearranged
    (hp : (Program.parse .usual "sample" (.whole forwardSource)).outcome = .ok p) :
    ∃ q, (Program.parse .usual "sample" (.whole backwardSource)).outcome = .ok q ∧
      Rearranged p q := by
  have hsame : ((Program.parse .usual "sample" (.whole forwardSource)).outcome.toOption.map
      fun p => (p.main.map EntryPoint.bare, p.functions.map FunctionDecl.bare)) =
      (Program.parse .usual "sample" (.whole backwardSource)).outcome.toOption.map
        fun q => (q.main.map EntryPoint.bare, (q.functions.map FunctionDecl.bare).reverse) := by
    rw [Program.outcome_parse_whole, Program.outcome_parse_whole]
    cbv
  rw [hp] at hsame
  obtain ⟨q, hq, hsame⟩ := exists_ok_of_map hsame.symm
  obtain ⟨hmain, hfunctions⟩ := Prod.mk.inj hsame
  exact ⟨q, hq, hmain.symm, hfunctions ▸ List.reverse_perm _⟩

theorem lower_rearranged_sample : ∃ p q m m',
    (Program.parse .usual "sample" (.whole forwardSource)).outcome = .ok p ∧
    (Program.parse .usual "sample" (.whole backwardSource)).outcome = .ok q ∧ Rearranged p q ∧
    p.lower.outcome = .ok m ∧ q.lower.outcome = .ok m' ∧
    ∀ (r : Except Trap Int64) (k : Meaning.Console),
      (∃ fuel M, (Machine.mk m emptyWorld).runMain fuel = some (r.mapError .trap, M) ∧
        Meaning.consoleOf M.world = k) ↔
      ∃ fuel M, (Machine.mk m' emptyWorld).runMain fuel = some (r.mapError .trap, M) ∧
        Meaning.consoleOf M.world = k := by
  obtain ⟨p, m, hp, hm⟩ := forward_lowers
  obtain ⟨q, hq, h⟩ := backward_rearranged hp
  obtain ⟨hlowers, hruns⟩ := lower_rearranged hp hq h
  obtain ⟨m', hm'⟩ := hlowers.1 ⟨m, hm⟩
  exact ⟨p, q, m, m', hp, hq, h, hm, hm', (hruns m m' hm hm' emptyWorld).2⟩

end Program

end Quill
