import Quill.Proofs.Lowering.ProgramFlow
import Quill.Proofs.Lowering.Safety

/-! # The control flow of lowered functions

In an accepted module every function with a body has one shape: all its blocks are attached and
end, only the exit returns, and the returns of the source are the blocks that leave for it.
-/
namespace Quill

open Ir (Block BlockId FuncId Function Module Operand SlotId Terminator)

namespace Ir.Function

/-- The shape of the control flow of a routine with a body. -/
structure HasFlow (f : Function) (r : Routine) : Prop where
  /-- Each block that was made is in the layout, once. -/
  attached : f.layout.toList.Perm ((List.range f.blocks.size).map BlockId.mk)
  ended : ∀ id : BlockId, id.index < f.blocks.size → ∃ t, f.terminatorOf id = some t
  /-- The exit is attached last, and no other block returns. -/
  last : f.layout.back? = some exitId
  returns : ∀ id value, f.terminatorOf id = some (.ret value) → id = exitId
  result : f.ReturnsResult r
  /-- The blocks with an edge to the exit: one for each return of the source, in order, and the
  one in which the end of the body is reached. -/
  leaves : ∃ leaves final, List.Forall₂ (f.Returns r.slot?) (Stmt.returnsAll r.body) leaves ∧
    (leaves ++ [final]).Nodup ∧ ∀ id, id ∈ leaves ++ [final] ↔
      ∃ t, f.terminatorOf id = some t ∧ exitId ∈ t.successors
  /-- No edge leads to the entry or to a block that is marked unreachable. -/
  targets : ∀ id t next, f.terminatorOf id = some t → next ∈ t.successors →
    f.entryBlock? ≠ some next ∧ f.IsLive next
  /-- Nothing but a call of abort is followed by no way on. -/
  aborts : ∀ id, f.terminatorOf id = some .unreachable →
    ∃ r, f.lastOf id = some ⟨r, .call Library.abortId []⟩

end Ir.Function

namespace Chart

variable {c : Chart} {r : Routine}

theorem Finished.attached (h : c.Finished r) (hc : c.Shape) :
    c.function.layout.toList.Perm (blockIds c.function.blocks.size) := by
  simpa [h.loose] using hc.attached

/-- Verification looks for the terminator of every block in the layout. -/
theorem Finished.ended (h : c.Finished r) (hc : c.Shape) {m : Module}
    (hcheck : c.function.check m = .ok ()) {id : BlockId}
    (hid : id.index < c.function.blocks.size) : ∃ t, c.function.terminatorOf id = some t := by
  have hmem : id ∈ c.function.layout :=
    Array.mem_toList_iff.1 ((h.attached hc).mem_iff.2
      (List.mem_map.2 ⟨id.index, List.mem_range.2 hid, rfl⟩))
  obtain ⟨b, t, hb, hpasses⟩ := Function.passes_of_check hcheck hmem
  refine ⟨t, ?_⟩
  simp [Function.terminatorOf, Ir.entry_eq_ok.1 hb, hpasses.terminator]

theorem Finished.hasFlow (h : c.Finished r) (hc : c.Shape) {m : Module}
    (hcheck : c.function.check m = .ok ()) : c.function.HasFlow r where
  attached := h.attached hc
  ended id hid := h.ended hc hcheck hid
  last := h.last
  returns id value ht := (hc.legal id _ ht).ret rfl
  result := h.returns
  leaves := by
    obtain ⟨leaves, final, hleaves, hforall⟩ := h.leaves
    refine ⟨leaves, final, hforall, hleaves ▸ hc.leaves, fun id => ?_⟩
    rw [← hleaves]
    constructor
    · exact fun hid => ⟨_, hc.left id hid, List.mem_singleton_self _⟩
    · rintro ⟨t, ht, hexit⟩
      exact (hc.legal id t ht).exit hexit
  targets id t next ht hnext := by
    obtain ⟨hne, hlive⟩ := (hc.legal id t ht).targets next hnext
    refine ⟨fun hentry => hne ?_, hlive⟩
    exact Option.some.inj (hentry.symm.trans hc.entry)
  aborts id ht := (hc.legal id _ ht).unreachable rfl

end Chart

namespace Program

variable {p : Program} {m : Module}

/-- In an accepted module each routine with a body has become a function of that shape, and there
are no other functions with blocks. -/
theorem lower_hasFlow (h : p.lower.outcome = .ok m) :
    m.functions[Library.abortId.index]? = some Library.abortFunction ∧
    (∀ (k : Nat) (r : Routine), p.routines[k]? = some r → r.body ≠ [] →
      ∃ f, m.functions[3 + k]? = some f ∧ f.HasFlow r) ∧
    ∀ (j : Nat) (f : Function), m.functions[j]? = some f → f.layout ≠ #[] →
      ∃ k r, j = 3 + k ∧ p.routines[k]? = some r ∧ r.body ≠ [] := by
  obtain ⟨t, ht, rfl⟩ := lower_drawn h
  refine ⟨ht.outside.abort, fun k r hr hbody => ?_, fun j f hf hlayout => ?_⟩
  · have hk := (List.getElem?_eq_some_iff.1 hr).1
    obtain ⟨f, hf, c, rfl, hshape, -, hfinished, m, hcheck⟩ := ht.drawn k r hk hr hbody
    exact ⟨c.function, hf, hfinished.hasFlow hshape hcheck⟩
  · rcases ht.function_cases hf with hempty | ⟨k, r, hj, hr, hbody, -⟩
    · exact absurd hempty hlayout
    · exact ⟨k, r, hj, hr, hbody⟩

theorem lower_hasFlow_sample : ∃ p m,
    (Program.parse .usual "sample" (.whole sampleSource)).outcome = .ok p ∧
    p.lower.outcome = .ok m ∧
    m.functions[Library.abortId.index]? = some Library.abortFunction ∧
    (∀ (k : Nat) (r : Routine), p.routines[k]? = some r → r.body ≠ [] →
      ∃ f, m.functions[3 + k]? = some f ∧ f.HasFlow r) ∧
    ∀ (j : Nat) (f : Function), m.functions[j]? = some f → f.layout ≠ #[] →
      ∃ k r, j = 3 + k ∧ p.routines[k]? = some r ∧ r.body ≠ [] := by
  obtain ⟨p, m, hp, hm⟩ := sample_compiles
  exact ⟨p, m, hp, hm, lower_hasFlow hm⟩

end Program

end Quill
