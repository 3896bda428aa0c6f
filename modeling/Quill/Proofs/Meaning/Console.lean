import Quill.Proofs.Meaning.Numbers

/-! # Printing and reading

The format texts that lowering chooses print a value as the evaluator shows it, and read what the
evaluator scans.
-/
namespace Quill

open Ir (Module SlotId Ty)
open Library (Direction)
open Meaning (Break Console Eval Typed)

/-- A number as it is passed to an outside function: at least a plain word, or a double. -/
def Value.promoted (ty : Ty) (x : Value) : Value :=
  if ty.isInt ∧ ty.bits < 32 then x.cast .zext ty .i32
  else if ty = .f32 then x.cast .fpExt .f32 .f64
  else x

/-! ### Formats -/

/-- What is printed for a number is what the evaluator shows, and the end of the line. -/
theorem formatBytes?_output {ty : Ty} {x : Value} (hx : x.HasType ty) (hty : ty.isNumber) :
    formatBytes? (FormatPiece.ofText (Library.format ty .output)) [x.promoted ty] =
      ((Typed.mk ty x).shown?).map (· ++ [10]) := by
  obtain ⟨p, q⟩ := ty
  cases q with
  | true => cases p <;> cases hty
  | false =>
    cases p
    case void => cases hty
    case i1 =>
      obtain ⟨n, rfl, hn⟩ := hx.of_isInt rfl
      have hprinted : formatBytes? [.conversion 0 'd', .char '\n']
          [.int (Ty.i32.wrap (Ty.i1.unsigned n).toInt64)] = some (Utf8.encode
            (toString (Ty.i32.wrap (Ty.i1.unsigned n).toInt64).toInt32.toInt) ++ [10]) := rfl
      have hn : Ty.i1.wrap n = n := hn
      have hword : Ty.i32.wrap n = n := by
        rcases Ty.wrap_i1 n with h | h <;> rw [hn] at h <;> subst h <;> decide
      refine hprinted.trans ?_
      rw [Ty.unsigned_i1 hn, hword, Ty.wrap_i32 hword]
      rfl
    case i8 =>
      obtain ⟨n, rfl, hn⟩ := hx.of_isInt rfl
      have hprinted : formatBytes? [.conversion 0 'c', .char '\n']
          [.int (Ty.i32.wrap (Ty.i8.unsigned n).toInt64)] =
            some ([(Ty.i32.wrap (Ty.i8.unsigned n).toInt64).toUInt64.toUInt8] ++ [10]) := rfl
      refine hprinted.trans ?_
      rw [Ty.byte_promoted]
      rfl
    case i32 =>
      obtain ⟨n, rfl, hn⟩ := hx.of_isInt rfl
      have hprinted : formatBytes? [.conversion 0 'd', .char '\n'] [.int n] =
          some (Utf8.encode (toString n.toInt32.toInt) ++ [10]) := rfl
      refine hprinted.trans ?_
      rw [Ty.wrap_i32 hn]
      rfl
    case i64 =>
      obtain ⟨n, rfl, hn⟩ := hx.of_isInt rfl
      rfl
    all_goals
      obtain ⟨y, rfl⟩ := hx.of_isFloat rfl
      rfl

/-! ### Reading -/

/-- The types that an outside function reads a value of, and the types in whose format. A boolean
is read as a word. -/
inductive Library.Reads : Ty → Ty → Prop
  | bool : Reads .i1 .i32
  | number {ty} : ty.isNumber → ty ≠ .i1 → Reads ty ty

theorem Meaning.consume_run {α : Type} (f : Input → Except String α × Input) (k : Console) :
    (Meaning.consume f).run k =
      match f k.input with
      | (.ok a, i) => (.ok a, { k with input := i })
      | (.error reason, i) => (.error (.trap (.io reason)), { k with input := i }) := by
  rw [Meaning.consume, Meaning.get_bind_run]
  cases f k.input with
  | mk r i => cases r <;> rfl

theorem Meaning.scan_run (ty : Ty) (k : Console) :
    (Meaning.scan ty).run k =
      if ty = .i8 then
        match k.input.readChar with
        | (.ok r, i) => (.ok (r.map fun b => .int b.toInt8.toInt64), { k with input := i })
        | (.error reason, i) => (.error (.trap (.io reason)), { k with input := i })
      else
        match k.input.readWord with
        | (.ok r, i) => (.ok (r.bind fun word =>
            if ty.isFloat then (Decimal.readFloat? word).map fun x => .float (ty.round x)
            else (Decimal.readInt64? word).map fun n => .int (ty.wrap n)), { k with input := i })
        | (.error reason, i) => (.error (.trap (.io reason)), { k with input := i }) := by
  unfold Meaning.scan
  split
  · rw [Meaning.run_bind, Meaning.consume_run]
    match k.input.readChar with
    | (.ok r, i) => rfl
    | (.error reason, i) => rfl
  · rw [Meaning.run_bind, Meaning.consume_run]
    match k.input.readWord with
    | (.ok r, i) => rfl
    | (.error reason, i) => rfl

theorem ofText_input {ty source : Ty} (h : Library.Reads source ty) :
    (ty = .i8 ∧ FormatPiece.ofText (Library.format source .input) =
      [.char ' ', .conversion 0 'c']) ∨
    ∃ longs letter, ty ≠ .i8 ∧ FormatPiece.ofText (Library.format source .input) =
      [.conversion longs letter] ∧ letter ≠ 'c' ∧ ∀ word, Value.ofWord? ty longs letter word =
        some (if ty.isFloat then (Decimal.readFloat? word).map fun x => .float (ty.round x)
          else (Decimal.readInt64? word).map fun n => .int (ty.wrap n)) := by
  cases h with
  | bool => exact .inr ⟨0, 'd', by decide, rfl, by decide, fun _ => rfl⟩
  | number hty hne =>
    obtain ⟨p, q⟩ := ty
    cases q with
    | true => cases p <;> cases hty
    | false =>
      cases p
      case void => cases hty
      case i1 => exact absurd rfl hne
      case i8 => exact .inl ⟨rfl, rfl⟩
      case i32 => exact .inr ⟨0, 'd', by decide, rfl, by decide, fun _ => rfl⟩
      case i64 => exact .inr ⟨1, 'd', by decide, rfl, by decide, fun _ => rfl⟩
      case f32 => exact .inr ⟨0, 'f', by decide, rfl, by decide, fun _ => rfl⟩
      case f64 => exact .inr ⟨1, 'f', by decide, rfl, by decide, fun _ => rfl⟩

theorem Library.Reads.hasType {ty source : Ty} (h : Library.Reads source ty) {word : List UInt8}
    {v : Value} (hv : (if ty.isFloat then
        (Decimal.readFloat? word).map fun x => Value.float (ty.round x)
      else (Decimal.readInt64? word).map fun n => Value.int (ty.wrap n)) = some v) :
    v.HasType ty := by
  have hty : ty.isNumber := by
    cases h with
    | bool => rfl
    | number hty _ => exact hty
  split at hv
  · rename_i hfloat
    obtain ⟨x, -, rfl⟩ := Option.map_eq_some_iff.1 hv
    exact .fraction hfloat
  · rename_i hfloat
    obtain ⟨n, -, rfl⟩ := Option.map_eq_some_iff.1 hv
    exact .wrapped ((Ty.isNumber_cases hty).resolve_right hfloat) n

/-- How a read of one value ends for the machine, given how it ends for the evaluator. -/
def Library.ReadsLike (a : Activation) (id : SlotId) (ty : Ty) (sink : Sink)
    (r : Except Halt Value × Activation × Input) : Except Break (Option Value) × Console → Prop
  | (.ok none, k) => k.sink = sink ∧ ∃ n, r = (.ok (.int n), a, k.input)
  | (.ok (some v), k) => k.sink = sink ∧ v.HasType ty ∧
      ∃ n, r = (.ok (.int n), { a with slots := a.slots.set! id.index v }, k.input)
  | (.error (.trap (.io reason)), k) => k.sink = sink ∧
      r = (.error (.trap (.io reason)), a, k.input)
  | (.error _, _) => False

theorem readPieces_input {ty source : Ty} (h : Library.Reads source ty) {a : Activation}
    {id : SlotId} {slot : Ir.Slot} (hslot : a.function.slot id = .ok slot) (hty : slot.ty = ty)
    (hid : id.index < a.slots.size) (k : Console) :
    Library.ReadsLike a id ty k.sink
      (Library.readPieces (Library.format source .input)
        (FormatPiece.ofText (Library.format source .input)) [.ptr (.slot id)] 0 a k.input)
      ((Meaning.scan ty).run k) := by
  rw [Meaning.scan_run]
  rcases ofText_input h with ⟨hi8, hpieces⟩ | ⟨longs, letter, hi8, hpieces, hletter, hword⟩
  · rw [hpieces, if_pos hi8]
    cases hr : k.input.readChar with
    | mk r i =>
      match r with
      | .error reason => simp [Library.readPieces, hslot, Library.scanOne, hr, Library.ReadsLike]
      | .ok none => simp [Library.readPieces, hslot, Library.scanOne, hr, Library.ReadsLike]
      | .ok (some b) =>
        have hb : (Value.int b.toInt8.toInt64).HasType ty := by
          rw [hi8]
          exact .whole rfl (by simp [Ty.wrap, Ty.i8])
        simp [Library.readPieces, hslot, Library.scanOne, hr, Library.ReadsLike,
          Activation.setSlot, hid, hb]
  · rw [hpieces, if_neg hi8]
    cases hr : k.input.readWord with
    | mk r i =>
      match r with
      | .error reason =>
        simp [Library.readPieces, hslot, Library.scanOne, hr, Library.ReadsLike, hletter]
      | .ok none =>
        simp [Library.readPieces, hslot, Library.scanOne, hr, Library.ReadsLike, hletter]
      | .ok (some word) =>
        cases hv : (if ty.isFloat then
            (Decimal.readFloat? word).map fun x => Value.float (ty.round x)
          else (Decimal.readInt64? word).map fun n => Value.int (ty.wrap n)) with
        | none =>
          simp [Library.readPieces, hslot, Library.scanOne, hr, Library.ReadsLike, hletter, hty,
            hword, hv]
        | some v =>
          have hv' := h.hasType hv
          simp [Library.readPieces, hslot, Library.scanOne, hr, Library.ReadsLike, hletter, hty,
            hword, hv, Activation.setSlot, hid, hv']

end Quill
