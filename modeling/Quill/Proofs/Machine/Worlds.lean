import Mathlib.Data.Option.Basic
import Mathlib.Tactic.SplitIfs
import Quill.Proofs.Machine.Steps

/-! # Worlds that no run can tell apart

A machine sees its world only through the answers to its reads and writes. If worlds that are alike
answer alike and stay so, then steps, and with them whole runs, do the same in both.
-/
namespace Quill

open Ir (FuncId Inst Module Operand Terminator Ty)

/-- When two worlds are alike, part by part: they give the same answers, and are alike again
behind them. -/
structure Likeness where
  input : Input → Input → Prop
  sink : Sink → Sink → Prop
  records : Array Record → Array Record → Prop
  readChar {i j} : input i j → i.readChar.1 = j.readChar.1 ∧ input i.readChar.2 j.readChar.2
  readWord {i j} : input i j → i.readWord.1 = j.readWord.1 ∧ input i.readWord.2 j.readWord.2
  write {s t} (bytes : List UInt8) : sink s t →
    (s.write bytes).1 = (t.write bytes).1 ∧ sink (s.write bytes).2 (t.write bytes).2
  flush {s t} : sink s t → s.flushFailure = t.flushFailure
  push {r s} (x : Record) : records r s → records (r.push x) (s.push x)

variable {L : Likeness}

structure World.Alike (L : Likeness) (w₁ w₂ : World) : Prop where
  input : L.input w₁.input w₂.input
  sink : L.sink w₁.sink w₂.sink
  records : L.records w₁.records w₂.records

/-- Equal but for the worlds, which are alike. -/
structure Config.Alike (L : Likeness) (c₁ c₂ : Config) : Prop where
  current : c₁.current = c₂.current
  callers : c₁.callers = c₂.callers
  world : c₁.world.Alike L c₂.world

inductive Step.Alike (L : Likeness) : Step → Step → Prop
  | running {c₁ c₂} : c₁.Alike L c₂ → Alike L (.running c₁) (.running c₂)
  | returned {w₁ w₂} (v : Value) : w₁.Alike L w₂ → Alike L (.returned v w₁) (.returned v w₂)
  | halted {w₁ w₂} (h : Halt) : w₁.Alike L w₂ → Alike L (.halted h w₁) (.halted h w₂)

/-! ### Calls of the outside library -/

namespace Library

theorem scanOne_alike {i j : Input} (h : L.input i j) (ty : Ty) (longs : Nat) (letter : Char) :
    (scanOne ty longs letter i).1 = (scanOne ty longs letter j).1 ∧
      L.input (scanOne ty longs letter i).2 (scanOne ty longs letter j).2 := by
  unfold scanOne
  by_cases hchar : longs = 0 ∧ letter = 'c'
  · simp only [if_pos hchar]
    obtain ⟨hanswer, hrest⟩ := L.readChar h
    generalize i.readChar = x at hanswer hrest ⊢
    generalize j.readChar = y at hanswer hrest ⊢
    obtain ⟨r, i⟩ := x
    obtain ⟨r', j⟩ := y
    obtain rfl : r = r' := hanswer
    rcases r with reason | _ | b <;> exact ⟨rfl, hrest⟩
  · simp only [if_neg hchar]
    obtain ⟨hanswer, hrest⟩ := L.readWord h
    generalize i.readWord = x at hanswer hrest ⊢
    generalize j.readWord = y at hanswer hrest ⊢
    obtain ⟨r, i⟩ := x
    obtain ⟨r', j⟩ := y
    obtain rfl : r = r' := hanswer
    rcases r with reason | _ | word
    · exact ⟨rfl, hrest⟩
    · exact ⟨rfl, hrest⟩
    · dsimp only
      rcases Value.ofWord? ty longs letter word with _ | _ | v <;> exact ⟨rfl, hrest⟩

/-- Each conversion answers alike, so the next one begins with the same slots. -/
theorem readPieces_alike {i j : Input} (h : L.input i j) (text : String)
    (pieces : List FormatPiece) (targets : List Value) (count : Int64) (a : Activation) :
    (readPieces text pieces targets count a i).1 = (readPieces text pieces targets count a j).1 ∧
    (readPieces text pieces targets count a i).2.1 =
      (readPieces text pieces targets count a j).2.1 ∧
    L.input (readPieces text pieces targets count a i).2.2
      (readPieces text pieces targets count a j).2.2 := by
  induction pieces generalizing targets count a i j with
  | nil => exact ⟨rfl, rfl, h⟩
  | cons piece pieces ih =>
    cases piece with
    | char c => exact ih h targets count a
    | cutOff => exact ⟨rfl, rfl, h⟩
    | conversion longs letter =>
      unfold readPieces
      split
      · rename_i id targets
        cases a.function.slot id with
        | error f => exact ⟨rfl, rfl, h⟩
        | ok slot =>
          dsimp only
          obtain ⟨hanswer, hrest⟩ := scanOne_alike h slot.ty longs letter
          generalize scanOne slot.ty longs letter i = x at hanswer hrest ⊢
          generalize scanOne slot.ty longs letter j = y at hanswer hrest ⊢
          obtain ⟨r, i⟩ := x
          obtain ⟨r', j⟩ := y
          obtain rfl : r = r' := hanswer
          rcases r with reason | v | _ | _ | _
          · exact ⟨rfl, rfl, hrest⟩
          · dsimp only
            cases a.setSlot id v with
            | error f => exact ⟨rfl, rfl, hrest⟩
            | ok a => exact ih hrest targets (count + 1) a
          · exact ⟨rfl, rfl, hrest⟩
          · exact ⟨rfl, rfl, hrest⟩
          · exact ⟨rfl, rfl, hrest⟩
      · exact ⟨rfl, rfl, h⟩

theorem print_alike {w₁ w₂ : World} (h : w₁.Alike L w₂) (m : Module) (args : List Value) :
    (print m w₁ args).1 = (print m w₂ args).1 ∧ (print m w₁ args).2.Alike L (print m w₂ args).2 := by
  unfold print
  cases formatText m args with
  | error e => exact ⟨rfl, h⟩
  | ok text =>
    dsimp only
    cases formatBytes? (FormatPiece.ofText text) args.tail with
    | none => exact ⟨rfl, h⟩
    | some bytes =>
      dsimp only
      obtain ⟨hanswer, hrest⟩ := L.write bytes h.sink
      generalize w₁.sink.write bytes = x at hanswer hrest ⊢
      generalize w₂.sink.write bytes = y at hanswer hrest ⊢
      obtain ⟨r, s⟩ := x
      obtain ⟨r', t⟩ := y
      obtain rfl : r = r' := hanswer
      cases r with
      | some reason => exact ⟨rfl, h.input, hrest, h.records⟩
      | none => exact ⟨rfl, h.input, hrest, h.records⟩

theorem read_alike {w₁ w₂ : World} (h : w₁.Alike L w₂) (m : Module) (a : Activation)
    (args : List Value) :
    (read m w₁ a args).1 = (read m w₂ a args).1 ∧ (read m w₁ a args).2.1 = (read m w₂ a args).2.1 ∧
      (read m w₁ a args).2.2.Alike L (read m w₂ a args).2.2 := by
  unfold read
  cases formatText m args with
  | error e => exact ⟨rfl, rfl, h⟩
  | ok text =>
    obtain ⟨hanswer, hslots, hrest⟩ :=
      readPieces_alike h.input text (FormatPiece.ofText text) args.tail 0 a
    exact ⟨hanswer, hslots, hrest, h.sink, h.records⟩

theorem call_alike {w₁ w₂ : World} (h : w₁.Alike L w₂) (m : Module) (name : String)
    (a : Activation) (args : List Value) :
    (call m name w₁ a args).1 = (call m name w₂ a args).1 ∧
      (call m name w₁ a args).2.1 = (call m name w₂ a args).2.1 ∧
      (call m name w₁ a args).2.2.Alike L (call m name w₂ a args).2.2 := by
  unfold call
  split_ifs
  · exact ⟨rfl, rfl, h⟩
  · obtain ⟨hanswer, hrest⟩ := print_alike h m args
    exact ⟨hanswer, rfl, hrest⟩
  · exact read_alike h m a args
  · exact ⟨rfl, rfl, h⟩

end Library

/-! ### Steps and runs -/

namespace Config

variable {c₁ c₂ : Config} {m : Module}

theorem call_alike (h : c₁.Alike L c₂) (inst : Inst) (callee : FuncId) (args : List Operand) :
    (c₁.call m inst callee args).Alike L (c₂.call m inst callee args) := by
  obtain ⟨a, callers, w₁⟩ := c₁
  obtain ⟨a', callers', w₂⟩ := c₂
  obtain ⟨rfl, rfl, hw⟩ := h
  unfold call
  cases a.getAll args with
  | error f => exact .halted _ hw
  | ok args =>
    cases m.function callee with
    | error f => exact .halted _ hw
    | ok f =>
      dsimp only
      cases f.entryBlock? with
      | some start =>
        show (if callers.length + 1 ≥ maxDepth then _ else _ : Step).Alike L
          (if callers.length + 1 ≥ maxDepth then _ else _)
        split_ifs
        · exact .halted _ hw
        · exact .running ⟨rfl, rfl, hw.input, hw.sink, L.push _ hw.records⟩
      | none =>
        dsimp only
        obtain ⟨hanswer, hslots, hrest⟩ := Library.call_alike hw m f.name a args
        generalize Library.call m f.name w₁ a args = x at hanswer hslots hrest ⊢
        generalize Library.call m f.name w₂ a args = y at hanswer hslots hrest ⊢
        obtain ⟨r, a₁, w₁⟩ := x
        obtain ⟨r', a₂, w₂⟩ := y
        obtain rfl : r = r' := hanswer
        obtain rfl : a₁ = a₂ := hslots
        cases r with
        | error e => exact .halted e hrest
        | ok v =>
          dsimp only
          cases a₁.complete inst.result v with
          | error f => exact .halted _ hrest
          | ok a => exact .running ⟨rfl, rfl, hrest⟩

theorem giveBack_alike (h : c₁.Alike L c₂) (v : Value) :
    (c₁.giveBack v).Alike L (c₂.giveBack v) := by
  obtain ⟨a, callers, w₁⟩ := c₁
  obtain ⟨a', callers', w₂⟩ := c₂
  obtain ⟨rfl, rfl, hw⟩ := h
  unfold giveBack
  cases callers with
  | nil => exact .returned v hw
  | cons caller callers =>
    dsimp only
    cases caller.function.block caller.block with
    | error f => exact .halted _ hw
    | ok b =>
      dsimp only
      cases caller.complete ((b.insts[caller.position]?).bind Inst.result) v with
      | error f => exact .halted _ hw
      | ok next => exact .running ⟨rfl, rfl, hw⟩

theorem terminate_alike (h : c₁.Alike L c₂) (t : Option Terminator) :
    (c₁.terminate t).Alike L (c₂.terminate t) := by
  have hback := giveBack_alike h
  obtain ⟨a, callers, w₁⟩ := c₁
  obtain ⟨a', callers', w₂⟩ := c₂
  obtain ⟨rfl, rfl, hw⟩ := h
  unfold terminate
  rcases t with _ | dest | ⟨cond, t, e⟩ | (_ | v) | _
  · exact .halted _ hw
  · exact .running ⟨rfl, rfl, hw⟩
  · dsimp only
    cases a.get cond with
    | error f => exact .halted _ hw
    | ok v => exact .running ⟨rfl, rfl, hw⟩
  · exact hback .void
  · dsimp only
    cases a.get v with
    | error f => exact .halted _ hw
    | ok v => exact hback v
  · exact .halted _ hw

theorem step_alike (h : c₁.Alike L c₂) : (c₁.step m).Alike L (c₂.step m) := by
  have hcall := call_alike (m := m) h
  have hend := terminate_alike h
  obtain ⟨a, callers, w₁⟩ := c₁
  obtain ⟨a', callers', w₂⟩ := c₂
  obtain ⟨rfl, rfl, hw⟩ := h
  unfold step
  dsimp only
  cases a.function.block a.block with
  | error f => exact .halted _ hw
  | ok b =>
    dsimp only
    split
    · exact hend b.terminator
    · exact hcall _ _ _
    · rename_i result action _ _
      cases a.perform action with
      | error e => exact .halted e hw
      | ok out =>
        obtain ⟨v, a⟩ := out
        dsimp only
        cases a.complete result v with
        | error f => exact .halted _ hw
        | ok a => exact .running ⟨rfl, rfl, hw⟩

theorem run_alike (h : c₁.Alike L c₂) (fuel : Nat) :
    Option.Rel (fun p q => p.1 = q.1 ∧ p.2.Alike L q.2) (c₁.run m fuel) (c₂.run m fuel) := by
  induction fuel generalizing c₁ c₂ with
  | zero => exact .none
  | succ fuel ih =>
    have hstep := step_alike (m := m) h
    unfold run
    generalize c₁.step m = x at hstep ⊢
    generalize c₂.step m = y at hstep ⊢
    cases hstep with
    | running h => exact ih h
    | returned v h => exact .some ⟨rfl, h⟩
    | halted e h => exact .some ⟨rfl, h⟩

end Config

namespace Machine

theorem runMain_alike {m₁ m₂ : Machine} (hm : m₁.module = m₂.module)
    (hw : m₁.world.Alike L m₂.world) (fuel : Nat) :
    Option.Rel (fun p q => p.1 = q.1 ∧ p.2.module = q.2.module ∧ p.2.world.Alike L q.2.world)
      (m₁.runMain fuel) (m₂.runMain fuel) := by
  obtain ⟨m, w₁⟩ := m₁
  obtain ⟨m', w₂⟩ := m₂
  obtain rfl : m = m' := hm
  unfold runMain
  dsimp only
  cases m.lookup? "main" with
  | none => exact .some ⟨rfl, rfl, hw⟩
  | some id =>
    dsimp only
    cases m.function id with
    | error f => exact .some ⟨rfl, rfl, hw⟩
    | ok f =>
      have flushed_alike {v₁ v₂ : World} (hv : v₁.Alike L v₂) (r : Except Halt Value) :
          flushed r v₁ = flushed r v₂ := by
        unfold flushed
        rw [L.flush hv.sink]
      dsimp only
      cases f.entryBlock? with
      | none => exact .some ⟨by rw [flushed_alike hw], rfl, hw⟩
      | some start =>
        dsimp only
        have hfirst : Config.Alike L
            ⟨.enter f start [], [], { w₁ with
              records := w₁.records.push (.trace s!"entering {f.name}") }⟩
            ⟨.enter f start [], [], { w₂ with
              records := w₂.records.push (.trace s!"entering {f.name}") }⟩ :=
          ⟨rfl, rfl, hw.input, hw.sink, L.push _ hw.records⟩
        have hrun := Config.run_alike (m := m) hfirst fuel
        revert hrun
        generalize Config.run m fuel _ = x
        generalize Config.run m fuel _ = y
        intro hrun
        cases hrun with
        | none => exact .none
        | some h =>
          rename_i p q
          obtain ⟨r, v₁⟩ := p
          obtain ⟨r', v₂⟩ := q
          obtain ⟨hr, hv⟩ := h
          obtain rfl : r = r' := hr
          exact .some ⟨by rw [flushed_alike hv], rfl, hv⟩

end Machine

end Quill
