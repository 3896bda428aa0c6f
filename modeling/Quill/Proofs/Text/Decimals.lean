import Mathlib
import Quill.Decimal.Text
import Quill.Proofs.Text.Words

/-! # Written doubles

The text of a double is one word. With a point or an exponent always written, it is not the text of
a whole number.
-/
namespace Quill.Decimal

/-- The characters that the text of a double is made of. -/
def isWritten (c : Char) : Bool := c.isDigit || ['-', '.', 'e', 'N', 'a', 'i', 'n', 'f'].contains c

def IsWritten (cs : List Char) : Prop := ∀ c ∈ cs, isWritten c

instance (cs : List Char) : Decidable (IsWritten cs) := List.decidableBAll (isWritten · = true) cs

namespace IsWritten

variable {cs ds : List Char} {c : Char}

theorem append (hc : IsWritten cs) (hd : IsWritten ds) : IsWritten (cs ++ ds) :=
  List.forall_mem_append.2 ⟨hc, hd⟩

theorem cons (hc : isWritten c) (hd : IsWritten ds) : IsWritten (c :: ds) :=
  List.forall_mem_cons.2 ⟨hc, hd⟩

theorem of_digits (h : ∀ c ∈ cs, c.isDigit) : IsWritten cs :=
  fun c hc => by simp [isWritten, h c hc]

theorem zeros (n : Nat) : IsWritten (List.replicate n '0') :=
  of_digits fun c hc => by rw [List.eq_of_mem_replicate hc]; rfl

theorem intRepr (n : Int) : IsWritten (toString n).toList := by
  rw [Int.toString_eq_repr, Int.repr_eq_if]
  split
  · rw [Nat.toList_repr]
    exact of_digits fun _ => isDigit_toDigits
  · rw [String.toList_append, Nat.toList_repr]
    exact .cons (by decide) (of_digits fun _ => isDigit_toDigits)

theorem solid (h : IsWritten cs) : IsSolid cs := by
  intro c hc
  have hwritten := h c hc
  simp only [isBreak, Bool.or_eq_false_iff, beq_eq_false_iff_ne]
  refine ⟨⟨⟨⟨?_, ?_⟩, ?_⟩, ?_⟩, ?_⟩ <;> rintro rfl <;> exact absurd hwritten (by decide)

end IsWritten

theorem isDigit_trimmed {n : Nat} {c : Char} (h : c ∈ (trimmed n).1) : c.isDigit := by
  refine isDigit_toDigits (n := n) ?_
  rw [trimmed, List.mem_reverse] at h
  exact List.mem_reverse.1 ((List.dropWhile_suffix _).subset h)

theorem isWritten_placePoint {keepsPoint : Bool} {digits : List Char} {whole : Int}
    (h : ∀ c ∈ digits, c.isDigit) : IsWritten (placePoint keepsPoint digits whole) := by
  have hfront : IsWritten (digits.take whole.toNat ++
      List.replicate (whole.toNat - digits.length) '0') :=
    (IsWritten.of_digits fun c hc => h c (List.mem_of_mem_take hc)).append (.zeros _)
  have hrest : IsWritten (digits.drop whole.toNat) :=
    .of_digits fun c hc => h c (List.mem_of_mem_drop hc)
  unfold placePoint
  split
  · exact .cons rfl (.cons rfl ((IsWritten.zeros _).append (.of_digits h)))
  · dsimp only
    split
    · refine hfront.append ?_
      split
      · exact .cons rfl (.cons rfl (List.forall_mem_nil _))
      · exact List.forall_mem_nil _
    · exact hfront.append (.cons rfl hrest)

theorem isWritten_withExponent {digits : List Char} (h : ∀ c ∈ digits, c.isDigit) (exponent : Int) :
    IsWritten (withExponent digits exponent) := by
  have hdigits := IsWritten.of_digits h
  unfold withExponent
  split
  · exact List.forall_mem_nil _
  · exact .cons (hdigits _ (by simp)) (.cons rfl (.intRepr _))
  · rename_i d ds _
    refine .cons (hdigits _ (by simp)) (.cons rfl (.append ?_ (.cons rfl (.intRepr _))))
    exact fun c hc => hdigits c (by simp [hc])

theorem isWritten_magnitude (layout : Layout) (b : Binary) : IsWritten (layout.magnitude b) := by
  unfold Layout.magnitude
  dsimp only
  split
  · exact isWritten_placePoint fun _ => isDigit_trimmed
  · exact isWritten_withExponent (fun _ => isDigit_trimmed) _

theorem isWritten_text (layout : Layout) (x : Float) : IsWritten (layout.text x).toList := by
  unfold Layout.text signed
  split
  · decide
  · dsimp only
    rw [String.toList_ofList]
    refine IsWritten.append ?_ ?_
    · split
      · decide
      · exact List.forall_mem_nil _
    · split
      · decide
      · split
        · split <;> decide
        · exact isWritten_magnitude _ _

theorem isSolid_text (layout : Layout) (x : Float) : IsSolid (layout.text x).toList :=
  (isWritten_text layout x).solid

/-! ### Doubles and whole numbers -/

/-- Something in the text is not part of a whole number, or no digit is in it. -/
def TellsFraction (cs : List Char) : Prop :=
  (∃ c ∈ cs, c.isDigit = false ∧ c ≠ '-') ∨ ∀ c ∈ cs, c.isDigit = false

theorem TellsFraction.sign {cs ds : List Char} (h : TellsFraction cs)
    (hds : ∀ c ∈ ds, c.isDigit = false) : TellsFraction (ds ++ cs) := by
  rcases h with ⟨c, hc, hcs⟩ | h
  · exact .inl ⟨c, List.mem_append_right ds hc, hcs⟩
  · exact .inr (List.forall_mem_append.2 ⟨hds, h⟩)

theorem tellsFraction_of_mem {cs : List Char} {c : Char} (hc : c ∈ cs)
    (h : c.isDigit = false ∧ c ≠ '-') : TellsFraction cs := .inl ⟨c, hc, h⟩

theorem point_mem_placePoint (digits : List Char) (whole : Int) :
    '.' ∈ placePoint true digits whole := by
  unfold placePoint
  split
  · simp
  · dsimp only
    split <;> simp

theorem tellsFraction_withExponent (digits : List Char) (exponent : Int) :
    TellsFraction (withExponent digits exponent) := by
  unfold withExponent
  split
  · exact .inr (List.forall_mem_nil _)
  · exact tellsFraction_of_mem (c := 'e') (by simp) (by decide)
  · exact tellsFraction_of_mem (c := 'e') (by simp) (by decide)

theorem tellsFraction_text (x : Float) : TellsFraction (Layout.telling.text x).toList := by
  unfold Layout.text signed
  split
  · exact tellsFraction_of_mem (c := 'N') (by simp) (by decide)
  · dsimp only
    rw [String.toList_ofList]
    refine TellsFraction.sign ?_ ?_
    · split
      · exact tellsFraction_of_mem (c := 'i') (by simp) (by decide)
      · split
        · exact tellsFraction_of_mem (c := '.') (by simp [Layout.telling]) (by decide)
        · unfold Layout.magnitude
          dsimp only
          split
          · exact tellsFraction_of_mem (point_mem_placePoint _ _) (by decide)
          · exact tellsFraction_withExponent _ _
    · split <;> simp

theorem not_tellsFraction_intRepr (n : Int) : ¬ TellsFraction n.repr.toList := by
  have hdigits (n : Nat) : ∃ c ∈ Nat.toDigits 10 n, c.isDigit := by
    obtain ⟨c, hc⟩ := List.exists_mem_of_ne_nil _ (Nat.toDigits_ne_nil (n := n) (b := 10))
    exact ⟨c, hc, isDigit_toDigits hc⟩
  rintro (⟨c, hc, hdigit, hsign⟩ | h)
  · rw [Int.repr_eq_if] at hc
    split at hc
    · rw [Nat.toList_repr] at hc
      simp [isDigit_toDigits hc] at hdigit
    · rw [String.toList_append, Nat.toList_repr] at hc
      rcases List.mem_append.1 hc with hc | hc
      · exact hsign (by simpa using hc)
      · simp [isDigit_toDigits hc] at hdigit
  · rw [Int.repr_eq_if] at h
    split at h
    · rw [Nat.toList_repr] at h
      obtain ⟨c, hc, hdigit⟩ := hdigits n.toNat
      exact absurd hdigit (by simp [h c hc])
    · rw [String.toList_append, Nat.toList_repr] at h
      obtain ⟨c, hc, hdigit⟩ := hdigits (-n).toNat
      exact absurd hdigit (by simp [h c (List.mem_append_right _ hc)])

end Quill.Decimal
