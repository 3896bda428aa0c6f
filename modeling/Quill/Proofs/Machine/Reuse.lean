import Quill.Proofs.Machine.Counter
import Quill.Proofs.Machine.Reading

/-! # Runs after runs

A machine may be asked to run its module again, whatever came of the runs before. Nothing but the
input that they left, and what they wrote, is still there, and the counter of calls is at zero.
-/
namespace Quill

open Ir (Module)

/-- A sink that takes everything. -/
structure Sink.NeverFails (s : Sink) : Prop where
  limit : s.limit = none
  flush : s.flushFailure = none

theorem Sink.NeverFails.write {s : Sink} (h : s.NeverFails) (bytes : List UInt8) :
    s.write bytes = (none, { s with written := s.written ++ bytes.toArray }) := by
  obtain ⟨written, limit, flushFailure⟩ := s
  obtain ⟨rfl, rfl⟩ := h
  cases bytes with
  | nil => simp [Sink.write]
  | cons b bs => rfl

/-- The same input, behind `before` and `records` that only the first world has. -/
def Likeness.behind (before : Array UInt8) (records : Array Record) : Likeness where
  input i j := i = j
  sink s t := s.NeverFails ∧ t.NeverFails ∧ s.written = before ++ t.written
  records r t := r = records ++ t
  readChar := by
    rintro i _ rfl
    exact ⟨rfl, rfl⟩
  readWord := by
    rintro i _ rfl
    exact ⟨rfl, rfl⟩
  write := by
    rintro s t bytes ⟨hs, ht, hwritten⟩
    rw [hs.write, ht.write]
    refine ⟨rfl, ⟨hs.limit, hs.flush⟩, ⟨ht.limit, ht.flush⟩, ?_⟩
    show s.written ++ bytes.toArray = before ++ (t.written ++ bytes.toArray)
    rw [hwritten, Array.append_assoc]
  flush := fun h => h.1.flush.trans h.2.1.flush.symm
  push := by
    rintro r t x rfl
    exact Array.push_append

namespace Machine

variable {m : Module} {input : Input} {sink : Sink} {M M' : Machine}

/-- So many runs, one after the other, whatever they ended in. -/
inductive RunsTo (M : Machine) : Machine → Prop
  | refl : RunsTo M M
  | next {M₁ M₂ : Machine} {fuel : Nat} {out : Except Halt Int64} :
      RunsTo M M₁ → M₁.runMain fuel = some (out, M₂) → RunsTo M M₂

theorem runMain_module {fuel : Nat} {out : Except Halt Int64} (h : M.runMain fuel = some (out, M')) :
    M'.module = M.module := by
  unfold runMain at h
  split at h
  · cases h
    rfl
  · split at h
    · cases h
      rfl
    · split at h
      · cases h
        rfl
      · dsimp only at h
        split at h
        · cases h
        · cases h
          rfl

theorem runMain_neverFails {fuel : Nat} {out : Except Halt Int64}
    (h : M.runMain fuel = some (out, M')) (hsink : M.world.sink.NeverFails) :
    M'.world.sink.NeverFails := by
  have hself : M.world.Alike (.behind #[] #[]) M.world :=
    ⟨rfl, ⟨hsink, hsink, Array.empty_append.symm⟩, Array.empty_append.symm⟩
  have hrun := runMain_alike rfl hself fuel
  rw [h] at hrun
  cases hrun with
  | some h => exact h.2.2.sink.1

theorem RunsTo.keeps (h : M.RunsTo M') (hsink : M.world.sink.NeverFails) :
    M'.module = M.module ∧ M'.world.sink.NeverFails := by
  induction h with
  | refl => exact ⟨rfl, hsink⟩
  | next _ hrun ih => exact ⟨(runMain_module hrun).trans ih.1, runMain_neverFails hrun ih.2⟩

/-- After any number of runs, whatever they ended in, a machine does what a new one does that is
given the input they left: the same result, the same bytes behind those already written, and the
same input left. Each run, and each call in it, leaves a counter of calls as it was, and with the
counter at zero a run ends as that of a machine that has no counter. -/
theorem reusable (hsink : sink.NeverFails) (h : (start m input sink).RunsTo M) :
    (∀ fuel, Option.Rel
      (fun p q => p.1 = q.1 ∧ p.2.world.input = q.2.world.input ∧
        p.2.world.sink.written = M.world.sink.written ++ q.2.world.sink.written ∧
        p.2.world.records = M.world.records ++ q.2.world.records)
      (M.runMain fuel) ((start m M.world.input .unlimited).runMain fuel)) ∧
    (∀ fuel t out, Counter.runMain m fuel t = some out → out.2.depth = t.depth) ∧
    (∀ fuel a t out, Counter.execute m fuel a t = some out → out.2.depth = t.depth) ∧
    ∀ out w, (∃ fuel, Counter.runMain m fuel ⟨M.world, 0⟩ = some (out, ⟨w, 0⟩)) ↔
      ∃ fuel, M.runMain fuel = some (out, ⟨m, w⟩) := by
  obtain ⟨hmodule, hsink⟩ := h.keeps hsink
  replace hmodule : M.module = (start m M.world.input .unlimited).module := hmodule
  have hworld : M.world.Alike (.behind M.world.sink.written M.world.records)
      (start m M.world.input .unlimited).world :=
    ⟨rfl, ⟨hsink, ⟨rfl, rfl⟩, Array.append_empty.symm⟩, Array.append_empty.symm⟩
  refine ⟨fun fuel => ?_, fun _ _ _ => Counter.runMain_restores,
    fun fuel => Counter.execute_restores, fun out w => ?_⟩
  · have hrun := runMain_alike hmodule hworld fuel
    generalize M.runMain fuel = x at hrun ⊢
    generalize (start m M.world.input .unlimited).runMain fuel = y at hrun ⊢
    cases hrun with
    | none => exact .none
    | some h =>
      obtain ⟨hresult, -, hend⟩ := h
      exact .some ⟨hresult, hend.input, hend.sink.2.2, hend.records⟩
  · obtain ⟨module, world⟩ := M
    obtain rfl : module = m := hmodule
    exact Counter.runMain_iff

end Machine

namespace Scanner

/-- The first run takes the number, and the second fails with the input; a third does what a new
machine does with what they left. -/
theorem reusable_sample : ∃ M₁ M₂ : Machine,
    (machine [(32, [50, 49, 32, 120])]).runMain 9 = some (.ok 21, M₁) ∧
    M₁.runMain 9 = some (.error (.trap (.io "disk")), M₂) ∧
    ∀ fuel, Option.Rel
      (fun p q => p.1 = q.1 ∧ p.2.world.input = q.2.world.input ∧
        p.2.world.sink.written = M₂.world.sink.written ++ q.2.world.sink.written ∧
        p.2.world.records = M₂.world.records ++ q.2.world.records)
      (M₂.runMain fuel) ((Machine.start module M₂.world.input .unlimited).runMain fuel) := by
  have hruns : ∃ M₁ M₂ : Machine,
      (machine [(32, [50, 49, 32, 120])]).runMain 9 = some (.ok 21, M₁) ∧
      M₁.runMain 9 = some (.error (.trap (.io "disk")), M₂) := ⟨_, _, by cbv, by cbv⟩
  obtain ⟨M₁, M₂, h₁, h₂⟩ := hruns
  exact ⟨M₁, M₂, h₁, h₂, (Machine.reusable ⟨rfl, rfl⟩ ((Machine.RunsTo.refl.next h₁).next h₂)).1⟩

end Scanner

end Quill
