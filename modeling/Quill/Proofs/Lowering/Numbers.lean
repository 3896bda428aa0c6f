import Quill.Lowering.Expr

/-! # Types of numbers

Which types are numbers, and what the common type of two operands can be.
-/
namespace Quill

open Ir (Ty)

namespace Ir.Ty

/-- Whole numbers, booleans among them, and fractions. -/
def isNumber (t : Ty) : Bool := t.isInt || t.isFloat

variable {t : Ty}

theorem isNumber_of_isInt (h : t.isInt) : t.isNumber := by simp [isNumber, h]

theorem isNumber_of_isFloat (h : t.isFloat) : t.isNumber := by simp [isNumber, h]

theorem not_isNumber (t : Ty) : (!t.isInt && !t.isFloat) = !t.isNumber := by simp [isNumber]

theorem isNumber_cases (h : t.isNumber) : t.isInt ∨ t.isFloat := by simpa [isNumber] using h

theorem isFloat_of_isInt (h : t.isInt) : t.isFloat = false := by
  obtain ⟨p, q⟩ := t
  cases p <;> cases q <;> first | rfl | cases h

theorem isPointer_of_isInt (h : t.isInt) : t.isPointer = false := by
  obtain ⟨p, q⟩ := t
  cases p <;> cases q <;> first | rfl | cases h

theorem isInt_of_isFloat (h : t.isFloat) : t.isInt = false := by
  obtain ⟨p, q⟩ := t
  cases p <;> cases q <;> first | rfl | cases h

theorem isPointer_of_isFloat (h : t.isFloat) : t.isPointer = false := by
  obtain ⟨p, q⟩ := t
  cases p <;> cases q <;> first | rfl | cases h

end Ir.Ty

theorem Ir.Ty.ne_void_of_isNumber {t : Ty} (h : t.isNumber) : t ≠ .void := by
  rintro rfl
  exact absurd h (by decide)

theorem Ir.Ty.isNumber_of {t : Ty} (hp : t.isPointer = false) (hv : t ≠ .void) : t.isNumber := by
  obtain ⟨p, q⟩ := t
  subst hp
  cases p <;> first | rfl | exact absurd rfl hv

theorem Lower.castOp_isLegal {s t : Ty} (hs : s.isNumber) (ht : t.isNumber) (hne : s ≠ t) :
    (Lower.castOp s t).isLegal s t = true := by
  obtain ⟨p, ps⟩ := s
  obtain ⟨q, qs⟩ := t
  cases ps with
  | true => exact absurd hs (by simp [Ty.isNumber, Ty.isInt, Ty.isFloat])
  | false =>
    cases qs with
    | true => exact absurd ht (by simp [Ty.isNumber, Ty.isInt, Ty.isFloat])
    | false =>
      cases p <;> first
        | exact absurd hs (by decide)
        | (cases q <;> first | exact absurd ht (by decide) | exact absurd rfl hne | rfl)

theorem resultType_cases {l r ty : Ty} (h : resultType l r = .ok ty) :
    l ≠ .void ∧ r ≠ .void ∧ ((ty.isPointer = true ∧ l = ty ∧ r = ty) ∨
      (ty.isPointer = false ∧ l.isNumber = true ∧ r.isNumber = true ∧ ty.isNumber = true)) := by
  unfold resultType at h
  by_cases hvoid : (l.isVoid || r.isVoid) = true
  · simp [hvoid] at h
  · have hl : l ≠ .void := by
      rintro rfl
      exact hvoid rfl
    have hr : r ≠ .void := by
      rintro rfl
      exact hvoid (Bool.or_true _)
    refine ⟨hl, hr, ?_⟩
    rw [if_neg hvoid] at h
    by_cases hmixed : (l.isPointer != r.isPointer) = true
    · simp [hmixed] at h
    · rw [if_neg hmixed] at h
      have hsame : l.isPointer = r.isPointer := by simpa using hmixed
      cases hp : l.isPointer with
      | true =>
        rw [hp, if_pos rfl] at h
        by_cases heq : (l == r) = true
        · rw [if_pos heq] at h
          obtain rfl := Except.ok.inj h
          exact .inl ⟨hp, rfl, (eq_of_beq heq).symm⟩
        · simp [heq] at h
      | false =>
        have hln := Ty.isNumber_of hp hl
        have hrn := Ty.isNumber_of (hsame ▸ hp) hr
        have hty : ty = l ∨ ty = r := by
          simp only [hp, Bool.false_eq_true, ↓reduceIte] at h
          split at h <;> split at h <;> simp_all
        rcases hty with rfl | rfl
        · exact .inr ⟨hp, hln, hrn, hln⟩
        · exact .inr ⟨hsame ▸ hp, hln, hrn, hrn⟩

end Quill
