import Mathlib.Data.Int.ModEq
import Quill.Ir.Type

/-! # Words as whole numbers

Which whole numbers a type holds, and what wrapping does to them: the result is in range and
differs by a multiple of two to the power of the width. The operations on words are those on
whole numbers, up to such a multiple.
-/
namespace Quill

namespace Ir.Ty

/-- The whole numbers of a type: two's complement words, and 0 and 1 for booleans. -/
def InRange (t : Ty) (n : Int) : Prop :=
  if t = .i1 then 0 ≤ n ∧ n ≤ 1 else -2 ^ (t.bits - 1) ≤ n ∧ n < 2 ^ (t.bits - 1)

instance (t : Ty) (n : Int) : Decidable (t.InRange n) :=
  inferInstanceAs (Decidable (if t = .i1 then _ else _))

variable {s t : Ty} {a b : Int} {n : Int64}

theorem isInt_cases (h : t.isInt) : t = .i1 ∨ t = .i8 ∨ t = .i32 ∨ t = .i64 := by
  obtain ⟨p, q⟩ := t
  cases q <;> cases p <;> first | exact absurd h (by decide) | decide

theorem inRange_i1 : Ty.i1.InRange a ↔ 0 ≤ a ∧ a ≤ 1 := by simp [InRange]

theorem inRange_i8 : Ty.i8.InRange a ↔ -128 ≤ a ∧ a < 128 := by simp [InRange, bits, i8, i1]

theorem inRange_i32 : Ty.i32.InRange a ↔ -2147483648 ≤ a ∧ a < 2147483648 := by
  simp [InRange, bits, i32, i1]

theorem inRange_i64 :
    Ty.i64.InRange a ↔ -9223372036854775808 ≤ a ∧ a < 9223372036854775808 := by
  simp [InRange, bits, i64, i1]

theorem InRange.widen (h : s.InRange a) (hs : s.isInt) (ht : t.isInt) (hbits : s.bits ≤ t.bits) :
    t.InRange a := by
  rcases isInt_cases hs with rfl | rfl | rfl | rfl <;>
    rcases isInt_cases ht with rfl | rfl | rfl | rfl <;>
    simp only [inRange_i1, inRange_i8, inRange_i32, inRange_i64] at h ⊢ <;>
    first | omega | exact absurd hbits (by decide)

/-- Division by a positive number leads towards zero, or to minus one. -/
theorem InRange.ediv (h : t.InRange a) (ht : t.isInt) (hb : 0 < b) : t.InRange (a / b) := by
  have hlow : a < 0 → a ≤ a / b ∧ a / b < 0 := fun ha => by
    refine ⟨?_, Int.ediv_neg_of_neg_of_pos ha hb⟩
    rw [Int.le_ediv_iff_mul_le hb]
    calc a * b ≤ a * 1 := Int.mul_le_mul_of_nonpos_left ha.le hb
      _ = a := Int.mul_one a
  have hhigh : 0 ≤ a → 0 ≤ a / b ∧ a / b ≤ a := fun ha =>
    ⟨Int.ediv_nonneg ha hb.le, Int.ediv_le_self b ha⟩
  rcases isInt_cases ht with rfl | rfl | rfl | rfl <;>
    simp only [inRange_i1, inRange_i8, inRange_i32, inRange_i64] at h ⊢ <;>
    omega

def wider (s t : Ty) : Ty := if s.bits ≥ t.bits then s else t

theorem isInt_wider (hs : s.isInt) (ht : t.isInt) : (s.wider t).isInt := by
  unfold wider
  split
  · exact hs
  · exact ht

theorem bits_wider (s t : Ty) : (s.wider t).bits = max s.bits t.bits := by
  unfold wider
  split <;> omega

/-! ### Wrapping -/

theorem toInt_wrap_i1 (n : Int64) : (Ty.i1.wrap n).toInt = n.toInt % 2 := by
  have hbit : (n.toBitVec &&& 1#64).toNat = n.toBitVec.toNat % 2 := by simp [Nat.and_one_is_mod]
  have hword : n.toInt = if 2 * n.toBitVec.toNat < 2 ^ (64 : Nat) then (n.toBitVec.toNat : Int)
      else n.toBitVec.toNat - (2 ^ (64 : Nat) : Nat) := BitVec.toInt_eq_toNat_cond n.toBitVec
  have hlow : (Ty.i1.wrap n).toInt = (n.toBitVec &&& 1#64).toNat :=
    BitVec.toInt_eq_toNat_of_lt (x := n.toBitVec &&& 1#64) (by omega)
  rw [hlow, hbit, hword]
  split <;> omega

theorem toInt_wrap_i8 (n : Int64) : (Ty.i8.wrap n).toInt = n.toInt.bmod (2 ^ (8 : Nat)) := by
  change n.toInt8.toInt64.toInt = _
  rw [Int8.toInt_toInt64, Int64.toInt_toInt8]

theorem toInt_wrap_i32 (n : Int64) : (Ty.i32.wrap n).toInt = n.toInt.bmod (2 ^ (32 : Nat)) := by
  change n.toInt32.toInt64.toInt = _
  rw [Int32.toInt_toInt64, Int64.toInt_toInt32]

theorem inRange_wrap (ht : t.isInt) (n : Int64) : t.InRange (t.wrap n).toInt := by
  rcases isInt_cases ht with rfl | rfl | rfl | rfl
  · rw [inRange_i1, toInt_wrap_i1]
    omega
  · exact inRange_i8.2 ⟨(Int8.toInt_toInt64 _).symm ▸ n.toInt8.le_toInt,
      (Int8.toInt_toInt64 _).symm ▸ n.toInt8.toInt_lt⟩
  · exact inRange_i32.2 ⟨(Int32.toInt_toInt64 _).symm ▸ n.toInt32.le_toInt,
      (Int32.toInt_toInt64 _).symm ▸ n.toInt32.toInt_lt⟩
  · exact inRange_i64.2 ⟨n.le_toInt, n.toInt_lt⟩

theorem wrap_modEq (ht : t.isInt) (n : Int64) :
    (t.wrap n).toInt ≡ n.toInt [ZMOD 2 ^ t.bits] := by
  rcases isInt_cases ht with rfl | rfl | rfl | rfl
  · rw [toInt_wrap_i1]
    exact Int.mod_modEq _ _
  · rw [toInt_wrap_i8]
    exact Int.bmod_emod
  · rw [toInt_wrap_i32]
    exact Int.bmod_emod
  · exact Int.ModEq.refl _

theorem InRange.eq_of_modEq (ha : t.InRange a) (hb : t.InRange b) (ht : t.isInt)
    (h : a ≡ b [ZMOD 2 ^ t.bits]) : a = b := by
  obtain ⟨k, hk⟩ := h.dvd
  rcases isInt_cases ht with rfl | rfl | rfl | rfl <;>
    simp only [inRange_i1, inRange_i8, inRange_i32, inRange_i64] at ha hb <;>
    simp only [bits, i1, i8, i32, i64, Bool.false_eq_true, ↓reduceIte] at hk <;>
    omega

theorem InRange.wrap (h : t.InRange n.toInt) (ht : t.isInt) : t.wrap n = n :=
  Int64.toInt_inj.1 ((inRange_wrap ht n).eq_of_modEq h ht (wrap_modEq ht n))

/-- The result of an operation modulo the machine word, wrapped to a type. -/
theorem wrap_modEq_of_bmod (ht : t.isInt) (h : n.toInt = a.bmod (2 ^ (64 : Nat))) :
    (t.wrap n).toInt ≡ a [ZMOD 2 ^ t.bits] := by
  have hword : n.toInt ≡ a [ZMOD 2 ^ (64 : Nat)] := by
    rw [h]
    exact Int.bmod_emod
  have hbits : t.bits ≤ 64 := by
    rcases isInt_cases ht with rfl | rfl | rfl | rfl <;> decide
  exact (wrap_modEq ht n).trans (hword.of_dvd (pow_dvd_pow 2 hbits))

end Ir.Ty

/-! ### Shifts -/

namespace Word

variable {a b : Int64}

theorem toNat_distance (hb : 0 ≤ b.toInt) (hb' : b.toInt < 64) :
    (b.toBitVec.smod 64).toNat = b.toInt.toNat := by
  have hmod : (b.toBitVec.smod 64).toInt = b.toInt := by
    rw [BitVec.toInt_smod]
    exact Int.fmod_eq_of_lt hb hb'
  rw [← hmod] at hb ⊢
  rw [BitVec.toInt_eq_toNat_cond] at hb ⊢
  split at hb <;> omega

theorem toInt_shiftLeft (hb : 0 ≤ b.toInt) (hb' : b.toInt < 64) :
    (a <<< b).toInt = (a.toInt * 2 ^ b.toInt.toNat).bmod (2 ^ (64 : Nat)) := by
  change (a <<< b).toBitVec.toInt = _
  rw [Int64.toBitVec_shiftLeft, BitVec.shiftLeft_eq', BitVec.toInt_shiftLeft, toNat_distance hb hb',
    Nat.shiftLeft_eq, Int.natCast_mul, ← Int.bmod_mul_bmod, ← BitVec.toInt_eq_toNat_bmod]
  rfl

theorem toInt_shiftRight (hb : 0 ≤ b.toInt) (hb' : b.toInt < 64) :
    (a >>> b).toInt = a.toInt / 2 ^ b.toInt.toNat := by
  change (a >>> b).toBitVec.toInt = _
  rw [Int64.toBitVec_shiftRight, BitVec.sshiftRight', BitVec.toInt_sshiftRight, toNat_distance hb hb',
    Int.shiftRight_eq_div_pow]
  rfl

end Word

end Quill
