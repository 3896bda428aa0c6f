import Mathlib
import Quill.Proofs.Lowering.ProgramFlow
import Quill.Proofs.Lowering.Safety

/-! # Definitions dominate uses

In an accepted module, whatever a path from the entry of a function comes to use has been given on
that path before: the result of an instruction by that instruction, and a slot by the only
instruction that makes room for it. Verification looks at tables only and does not check this.
-/
namespace Quill

open Ir (Function Module Name Point)

namespace Program

variable {p : Program} {m : Module} {f : Function} {past : List Point} {point : Point} {n : Name}

/-- On every path from the entry, what is used was given before, at the only place that gives it. -/
theorem given_before_use (h : p.lower.outcome = .ok m) (hf : f ∈ m.functions)
    (hpath : f.Path past point) (huse : f.Uses point n) :
    ∃ q ∈ past, ∀ q', f.Gives q' n ↔ q' = q := by
  obtain ⟨t, ht, rfl⟩ := lower_drawn h
  obtain ⟨k, hk⟩ := Array.mem_iff_getElem?.1 hf
  rcases ht.function_cases hk with hempty | ⟨j, r, -, -, -, hdrawn⟩
  · exact absurd hpath (Function.not_path_of_empty hempty)
  · obtain ⟨c, rfl, hshape, hgrounded, -⟩ := hdrawn
    exact (hgrounded.accounts hshape.entry).given_before hpath huse

def returnSource : List UInt8 := Utf8.encode "main return 7!"

/-- The entry has three instructions and leads to the exit, which loads a value and uses it. -/
def leadsToExit (f : Function) : Bool :=
  f.entryBlock? = some entryId ∧ (f.instAt ⟨entryId, 0⟩).isSome ∧
    (f.instAt ⟨entryId, 1⟩).isSome ∧ (f.instAt ⟨entryId, 2⟩).isSome ∧
    f.instAt ⟨entryId, 3⟩ = none ∧
    (f.terminatorOf entryId).map Ir.Terminator.successors = some [exitId] ∧
    (f.instAt ⟨exitId, 0⟩).isSome ∧ f.instAt ⟨exitId, 1⟩ = none ∧
    (f.terminatorOf exitId).map Ir.Terminator.uses = some [.value ⟨0⟩]

theorem exists_path_of_leadsToExit (h : leadsToExit f) :
    (∃ past, f.Path past ⟨exitId, 1⟩) ∧ f.Uses ⟨exitId, 1⟩ (.value ⟨0⟩) := by
  simp only [leadsToExit, decide_eq_true_eq, Option.isSome_iff_exists,
    Option.map_eq_some_iff] at h
  obtain ⟨hentry, ⟨i₀, h₀⟩, ⟨i₁, h₁⟩, ⟨i₂, h₂⟩, hend, ⟨br, hbr, hnext⟩, ⟨i, hi⟩, hexit,
    ret, hret, huses⟩ := h
  constructor
  · have hwalked := ((Function.Path.entry hentry).next h₀ |>.next h₁).next h₂
    have hjumped := hwalked.jump hend hbr (hnext ▸ List.mem_singleton_self exitId)
    exact ⟨_, hjumped.next hi⟩
  · exact .inr ⟨hexit, ret, hret, by simp [huses]⟩

/-- On the way to the return of a program, its operand is loaded. -/
theorem given_before_use_return : ∃ p m f past,
    (Program.parse .usual "return" (.whole returnSource)).outcome = .ok p ∧
    p.lower.outcome = .ok m ∧ f ∈ m.functions ∧ f.Path past ⟨exitId, 1⟩ ∧
    f.Uses ⟨exitId, 1⟩ (.value ⟨0⟩) ∧ ∃ q ∈ past, ∀ q', f.Gives q' (.value ⟨0⟩) ↔ q' = q := by
  have hok : ((Program.parse .usual "return" (.whole returnSource)).outcome.toOption.bind
      fun p => p.lower.outcome.toOption.bind fun m => m.functions[3]?.map leadsToExit) =
        some true := by
    rw [Program.outcome_parse_whole]
    decide +kernel
  obtain ⟨p, hp, hok⟩ := exists_ok_of_bind hok
  obtain ⟨m, hm, hok⟩ := exists_ok_of_bind hok
  obtain ⟨f, hf, hleads⟩ := Option.map_eq_some_iff.1 hok
  obtain ⟨⟨past, hpath⟩, huse⟩ := exists_path_of_leadsToExit hleads
  exact ⟨p, m, f, past, hp, hm, Array.mem_of_getElem? hf, hpath, huse,
    given_before_use hm (Array.mem_of_getElem? hf) hpath huse⟩

end Program

end Quill
