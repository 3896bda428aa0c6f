import Quill.Proofs.Lowering.Draft
import Quill.Proofs.Lowering.Numbers
import Quill.Proofs.Meaning.Simulates

/-! # Numbers of the machine and of the evaluator

What casts, arithmetic and comparisons of the machine do to values of the right types is what the
evaluator says, and the results have the right types again.
-/
namespace Quill

open Ir (BinaryOp CastOp Function Operand Predicate Prim Ty)
open Meaning (Typed)

/-! ### Words -/

namespace Ir.Ty

variable {t : Ty} {n : Int64}

theorem wrap_wrap (t : Ty) (n : Int64) : t.wrap (t.wrap n) = t.wrap n := by
  unfold wrap
  cases t.prim with
  | i1 => simp [Int64.and_assoc]
  | _ => simp

theorem wrap_i1 (n : Int64) : Ty.i1.wrap n = 0 ∨ Ty.i1.wrap n = 1 := by
  have hbit : (n.toBitVec &&& 1#64).toNat = n.toBitVec.toNat % 2 := by simp [Nat.and_one_is_mod]
  rcases Nat.mod_two_eq_zero_or_one n.toBitVec.toNat with h | h
  · refine .inl (Int64.toBitVec_inj.1 (BitVec.eq_of_toNat_eq ?_))
    exact hbit.trans h
  · refine .inr (Int64.toBitVec_inj.1 (BitVec.eq_of_toNat_eq ?_))
    exact hbit.trans h

theorem unsigned_i1 (h : Ty.i1.wrap n = n) : (Ty.i1.unsigned n).toInt64 = n := by
  rcases wrap_i1 n with h' | h' <;> rw [h] at h' <;> subst h' <;> decide

theorem wrap_literal {n : UInt64} (h : n.toNat < 2 ^ (31 : Nat)) : Ty.i32.wrap n.toInt64 = n.toInt64 := by
  have hn : n.toInt64.toInt = n.toNat :=
    BitVec.toInt_eq_toNat_of_lt (x := n.toBitVec) (by change 2 * n.toNat < _; omega)
  refine Int64.toInt_inj.1 ?_
  change n.toInt64.toInt32.toInt64.toInt = _
  rw [Int32.toInt_toInt64, Int64.toInt_toInt32, hn, Int.bmod_eq_of_le] <;> omega

theorem wrap_i32 (h : Ty.i32.wrap n = n) : n.toInt32.toInt = n.toInt := by
  rw [← Int32.toInt_toInt64]
  exact congrArg Int64.toInt h

theorem low_byte (b : BitVec 64) :
    (((b % 256#64).signExtend 32).signExtend 64).setWidth 8 = b.setWidth 8 := by
  have hlow : b % 256#64 = (b.setWidth 8).setWidth 64 := by
    refine BitVec.eq_of_toNat_eq ?_
    simp [BitVec.toNat_umod]
    omega
  rw [hlow]
  ext i hi
  have h32 : i < 32 := by omega
  have h64 : i < 64 := by omega
  simp only [BitVec.getElem_setWidth, BitVec.getLsbD_signExtend, BitVec.getLsbD_setWidth, h32, h64,
    hi, decide_true, Bool.true_and, if_true]

theorem byte_promoted (n : Int64) :
    (Ty.i32.wrap (Ty.i8.unsigned n).toInt64).toUInt64.toUInt8 = n.toUInt64.toUInt8 :=
  UInt8.toBitVec_inj.1 (low_byte n.toBitVec)

end Ir.Ty

/-! ### Typed values -/

namespace Value.HasType

variable {x : Value} {t : Ty}

theorem of_isInt (h : x.HasType t) (ht : t.isInt) : ∃ n, x = .int n ∧ t.wrap n = n := by
  cases h with
  | whole _ hn => exact ⟨_, rfl, hn⟩
  | fraction hf => simp [Ty.isFloat_of_isInt ht] at hf
  | pointer hp => simp [Ty.isPointer_of_isInt ht] at hp

theorem of_isFloat (h : x.HasType t) (ht : t.isFloat) : ∃ y, x = .float y := by
  cases h with
  | whole hi _ => simp [Ty.isInt_of_isFloat ht] at hi
  | fraction => exact ⟨_, rfl⟩
  | pointer hp => simp [Ty.isPointer_of_isFloat ht] at hp

theorem of_isPointer (h : x.HasType t) (ht : t.isPointer) : ∃ p, x = .ptr p := by
  cases h with
  | whole hi _ => simp [Ty.isPointer_of_isInt hi] at ht
  | fraction hf => simp [Ty.isPointer_of_isFloat hf] at ht
  | pointer => exact ⟨_, rfl⟩

theorem wrapped (ht : t.isInt) (n : Int64) : (Value.int (t.wrap n)).HasType t :=
  .whole ht (t.wrap_wrap n)

theorem bool (b : Bool) : (Typed.bool b).value.HasType .i1 := by
  cases b <;> exact .whole rfl (by decide)

theorem zero (ht : t ≠ .void) : (Value.zero t).HasType t := by
  obtain ⟨p, q⟩ := t
  cases q with
  | true => exact .pointer rfl
  | false =>
    cases p
    case void => exact absurd rfl ht
    case f32 => exact .fraction rfl
    case f64 => exact .fraction rfl
    all_goals exact .whole rfl (by decide)

end Value.HasType

theorem Meaning.Typed.literal_hasType (n : UInt64) :
    (Typed.literal n).value.HasType (Typed.literal n).ty := by
  unfold literal
  split
  · rename_i h
    exact .whole rfl (Ty.wrap_literal h)
  · exact .whole rfl rfl

/-! ### Casts -/

/-- What a constant is worth, whatever else there is. -/
def Ir.Operand.constant? : Operand → Option Value
  | .int _ n => some (.int n)
  | .float _ x => some (.float x)
  | _ => none

theorem foldCast_constant {op : CastOp} {source target : Ty} {v v' : Operand}
    (h : Ir.foldCast op source v target = some v') :
    ∃ x, v.constant? = some x ∧ v'.constant? = some (x.cast op source target) := by
  cases op <;> cases v <;> simp only [Ir.foldCast, Option.some.injEq, reduceCtorEq] at h <;>
    subst h <;> exact ⟨_, rfl, rfl⟩

section

variable {source target : Ty} {x : Value}

/-- A cast between two numeric types converts, and gives a value of the target type. -/
theorem convert?_cast (hx : x.HasType source) (hs : source.isNumber) (ht : target.isNumber)
    (hne : source ≠ target) :
    (Typed.mk source x).convert? target =
        some (x.cast (Lower.castOp source target) source target) ∧
      (x.cast (Lower.castOp source target) source target).HasType target := by
  unfold Typed.convert?
  rw [if_neg hne]
  rcases Ty.isNumber_cases hs with hsi | hsf <;> rcases Ty.isNumber_cases ht with hti | htf
  · obtain ⟨n, rfl, hn⟩ := hx.of_isInt hsi
    have hcast : (Value.int n).cast (Lower.castOp source target) source target =
        .int (target.wrap n) := by
      unfold Lower.castOp
      rw [Ty.isFloat_of_isInt hsi, Ty.isFloat_of_isInt hti]
      dsimp only
      split
      · split
        · rename_i hi1
          subst hi1
          simp [Value.cast, Value.toInt, Ty.unsigned_i1 hn]
        · rfl
      · rfl
    rw [hcast]
    simp only [hti, ↓reduceIte]
    exact ⟨trivial, .wrapped hti n⟩
  · obtain ⟨n, rfl, hn⟩ := hx.of_isInt hsi
    unfold Lower.castOp
    rw [Ty.isFloat_of_isInt hsi, htf]
    simp only [Ty.isInt_of_isFloat htf, Bool.false_eq_true, ↓reduceIte]
    split <;> exact ⟨rfl, .fraction htf⟩
  · obtain ⟨y, rfl⟩ := hx.of_isFloat hsf
    unfold Lower.castOp
    rw [hsf, Ty.isFloat_of_isInt hti]
    simp only [hti, ↓reduceIte]
    exact ⟨rfl, .wrapped hti _⟩
  · obtain ⟨y, rfl⟩ := hx.of_isFloat hsf
    unfold Lower.castOp
    rw [hsf, htf]
    simp only [Ty.isInt_of_isFloat htf, Bool.false_eq_true, ↓reduceIte]
    split <;> exact ⟨rfl, .fraction htf⟩

end

/-! ### Operators -/

/-- The value of an operation on two values of type `ty`. None if zero divides. -/
def Lower.Operation.value? (ty : Ty) (l r : Value) : Lower.Operation → Option Value
  | arithmetic op => Value.binary? op ty l r
  | comparison pred => some (.ofBool (Value.compare pred l r))

section

variable {op : Operator} {ty : Ty}

theorem value?_whole (a b : Int64) :
    (Lower.wholeOperation op).value? ty (.int a) (.int b) =
      (Meaning.whole? op ty a b).map Typed.value := by
  cases op
  case div =>
    simp only [Lower.wholeOperation, Lower.Operation.value?, Value.binary?, Value.toInt,
      Meaning.whole?, apply_ite (Option.map Typed.value)]
    rfl
  all_goals rfl

theorem whole?_hasType (hty : ty.isInt) {a b : Int64} {v : Typed}
    (h : Meaning.whole? op ty a b = some v) :
    v.ty = (Lower.wholeOperation op).resultTy ty ∧ v.value.HasType v.ty := by
  cases op <;> simp only [Meaning.whole?, Option.some.injEq, Option.ite_none_left_eq_some] at h
  case div =>
    obtain ⟨-, rfl⟩ := h
    exact ⟨rfl, .wrapped hty _⟩
  all_goals
    subst h
    first | exact ⟨rfl, .wrapped hty _⟩ | exact ⟨rfl, .bool _⟩

theorem value?_fraction {operation : Lower.Operation}
    (h : Lower.fractionOperation? op = some operation) (hty : ty.isFloat) (x y : Float) :
    ∃ v, Meaning.fraction? op ty x y = some v ∧
      operation.value? ty (.float x) (.float y) = some v.value ∧
      v.ty = operation.resultTy ty ∧ v.value.HasType v.ty := by
  cases op <;> simp only [Lower.fractionOperation?, Option.some.injEq, reduceCtorEq] at h <;>
    subst h <;>
    first
      | exact ⟨_, rfl, rfl, rfl, .fraction hty⟩
      | exact ⟨_, rfl, rfl, rfl, .bool _⟩

end

end Quill
