import Quill.Machine.Conversion
import Quill.Proofs.Text.Decoding

/-! # Numbers in decoded text

Words are decoded before they are read as numbers. Decoding keeps words of bytes below 128, and
of any other word it makes a text that is no number, as the word was none.
-/
namespace Quill

/-- No number is written with such a byte. -/
def IsForeign (b : UInt8) : Prop := b = 0 ∨ 128 ≤ b.toNat

instance (b : UInt8) : Decidable (IsForeign b) := inferInstanceAs (Decidable (b = 0 ∨ _))

namespace Utf8

/-- What is known of an open sequence already makes its character one of several bytes. -/
structure Pending.IsWide (p : Pending) : Prop where
  low : 128 ≤ p.low.toNat
  last : p.due = 1 → 2 ≤ p.payload
  second : p.due = 2 → 2 ≤ p.payload * 64 + (p.low.toNat - 128)
  first : p.due = 3 → 1 ≤ p.payload * 64 + (p.low.toNat - 128)
  due : p.due = 1 ∨ p.due = 2 ∨ p.due = 3

/-- A byte from 128 on stands for the replacement, or it opens a sequence. -/
theorem start_wide {b : UInt8} (hb : 128 ≤ b.toNat) :
    start b = ([replacement], none) ∨ ∃ p : Pending, p.IsWide ∧ start b = ([], some p) := by
  unfold start
  simp only [Nat.not_lt.2 hb, if_false]
  split_ifs
  case pos => exact .inl rfl
  case neg => exact .inl rfl
  all_goals
    right
    refine ⟨_, ?_, rfl⟩
    constructor <;> simp <;> omega

/-- A character that is zero or from 128 on begins with a foreign byte. -/
theorem exists_foreign {c : Char} (h : c.toNat = 0 ∨ 128 ≤ c.toNat) :
    ∃ b ∈ String.utf8EncodeChar c, IsForeign b := by
  obtain ⟨b, tail, hc⟩ := exists_encoded c
  refine ⟨b, hc.eq ▸ List.mem_cons_self, ?_⟩
  by_cases hb : b.toNat < 128
  · obtain ⟨-, hsame⟩ := hc.narrow hb
    left
    apply UInt8.toNat_inj.1
    show b.toNat = 0
    omega
  · exact .inr (Nat.le_of_not_lt hb)

theorem foreign_replacement (cs : List Char) : ∃ b ∈ bytes (replacement :: cs), IsForeign b := by
  obtain ⟨b, hb, hforeign⟩ := exists_foreign (c := replacement) (.inr (by decide))
  exact ⟨b, List.mem_append_left _ hb, hforeign⟩

theorem foreign_ofNat {n : Nat} (h : 128 ≤ n) (cs : List Char) :
    ∃ b ∈ bytes (Char.ofNat n :: cs), IsForeign b := by
  have hc : (Char.ofNat n).toNat = 0 ∨ 128 ≤ (Char.ofNat n).toNat := by
    by_cases hvalid : n.isValidChar
    · have hsame : Char.ofNat n = Char.ofNatAux n hvalid := dif_pos hvalid
      rw [hsame]
      exact .inr h
    · have hzero : Char.ofNat n = '\x00' := dif_neg hvalid
      rw [hzero]
      exact .inl rfl
  obtain ⟨b, hb, hforeign⟩ := exists_foreign hc
  exact ⟨b, List.mem_append_left _ hb, hforeign⟩

/-- An open sequence becomes a foreign character, whatever follows. -/
theorem foreign_open {p : Pending} (hp : p.IsWide) (bs : List UInt8) :
    ∃ b ∈ bytes (decodeChars (some p) bs), IsForeign b := by
  induction bs generalizing p with
  | nil => exact foreign_replacement []
  | cons b bs ih =>
    rw [decodeChars, step]
    by_cases hin : p.low ≤ b ∧ b ≤ p.high
    · rw [if_pos hin]
      have hlow : p.low.toNat ≤ b.toNat := hin.1
      have hbase := hp.low
      by_cases hdue : p.due = 1
      · have hpayload := hp.last hdue
        rw [if_pos hdue]
        exact foreign_ofNat (by omega) _
      · rw [if_neg hdue]
        apply ih
        have hsecond := hp.second
        have hfirst := hp.first
        have hcount := hp.due
        constructor <;> simp <;> omega
    · rw [if_neg hin]
      exact foreign_replacement _

/-- A word with a byte from 128 on is decoded to a text with a foreign byte. -/
theorem foreign_decodeLossy {bs : List UInt8} (h : ∃ b ∈ bs, 128 ≤ b.toNat) :
    ∃ b ∈ encode (decodeLossy bs), IsForeign b := by
  rw [decodeLossy, encode_eq, String.toList_ofList]
  obtain ⟨x, hx, hwide⟩ := h
  induction bs with
  | nil => cases hx
  | cons b bs ih =>
    rw [decodeChars, step]
    by_cases hb : b.toNat < 128
    · -- A byte below 128 is a character of its own, so the other one comes behind it.
      have hne : x ≠ b := by
        rintro rfl
        omega
      obtain ⟨y, hy, hforeign⟩ := ih ((List.mem_cons.1 hx).resolve_left hne)
      rw [start, if_pos hb]
      exact ⟨y, List.mem_append_right _ hy, hforeign⟩
    · rcases start_wide (Nat.le_of_not_lt hb) with hstart | ⟨p, hp, hstart⟩
      · rw [hstart]
        exact foreign_replacement _
      · rw [hstart]
        exact foreign_open hp bs

end Utf8

namespace Decimal

variable {b : UInt8} {bs : List UInt8}

theorem isDigit_foreign : ∀ b : UInt8, IsForeign b → isDigit b = false := by
  decide +kernel

theorem lower_foreign : ∀ b : UInt8, IsForeign b → IsForeign (lower b) := by
  decide +kernel

/-- A sign is not foreign, so the byte is still there behind it. -/
theorem foreign_splitSign (h : ∃ b ∈ bs, IsForeign b) : ∃ b ∈ (splitSign bs).2, IsForeign b := by
  obtain ⟨b, hb, hforeign⟩ := h
  unfold splitSign
  split
  · rcases List.mem_cons.1 hb with rfl | hb
    · exact absurd hforeign (by decide)
    · exact ⟨b, hb, hforeign⟩
  · rcases List.mem_cons.1 hb with rfl | hb
    · exact absurd hforeign (by decide)
    · exact ⟨b, hb, hforeign⟩
  · exact ⟨b, hb, hforeign⟩

theorem readInt?_foreign (h : ∃ b ∈ bs, IsForeign b) : readInt? bs = none := by
  obtain ⟨b, hb, hforeign⟩ := foreign_splitSign h
  have hdigits : (splitSign bs).2.all isDigit = false := by
    rw [List.all_eq_false]
    exact ⟨b, hb, by rw [isDigit_foreign b hforeign]; decide⟩
  rw [readInt?]
  simp only [hdigits, Bool.not_false, Bool.or_true, if_true]

theorem mem_dropWhile_digits (hb : b ∈ bs) (h : IsForeign b) : b ∈ bs.dropWhile isDigit := by
  rw [← List.takeWhile_append_dropWhile (p := isDigit) (l := bs)] at hb
  rcases List.mem_append.1 hb with hb | hb
  · have hdigit := List.mem_takeWhile_imp hb
    rw [isDigit_foreign b h] at hdigit
    cases hdigit
  · exact hb

theorem readExponent?_foreign (h : ∃ b ∈ bs, IsForeign b) : readExponent? bs = none := by
  obtain ⟨b, hb, hforeign⟩ := h
  cases bs with
  | nil => cases hb
  | cons x bs =>
    rw [readExponent?]
    by_cases hx : x = 101 ∨ x = 69
    · rw [if_pos hx]
      rcases List.mem_cons.1 hb with rfl | hb
      · rcases hx with rfl | rfl <;> exact absurd hforeign (by decide)
      · exact readInt?_foreign ⟨b, hb, hforeign⟩
    · rw [if_neg hx]

theorem readMagnitude?_foreign (h : ∃ b ∈ bs, IsForeign b) : readMagnitude? bs = none := by
  obtain ⟨b, hb, hforeign⟩ := h
  have hafter := mem_dropWhile_digits hb hforeign
  unfold readMagnitude?
  dsimp only
  split
  · rename_i behind hpoint
    rw [hpoint] at hafter
    rcases List.mem_cons.1 hafter with rfl | hbehind
    · exact absurd hforeign (by decide)
    · rw [readExponent?_foreign ⟨b, mem_dropWhile_digits hbehind hforeign, hforeign⟩,
        Option.map_none, ite_self]
  · rw [readExponent?_foreign ⟨b, hafter, hforeign⟩, Option.map_none, ite_self]

theorem named?_foreign (h : ∃ b ∈ bs, IsForeign b) : named? bs = none := by
  obtain ⟨b, hb, hforeign⟩ := h
  have ne {word : List UInt8} (hword : ∀ x ∈ word, ¬ IsForeign x) : bs.map lower ≠ word := by
    rintro rfl
    exact hword _ (List.mem_map_of_mem hb) (lower_foreign b hforeign)
  unfold named?
  rw [if_neg (not_or.2 ⟨ne (by decide +kernel), ne (by decide +kernel)⟩),
    if_neg (ne (by decide +kernel))]

theorem readInt64?_foreign (h : ∃ b ∈ bs, IsForeign b) : readInt64? bs = none := by
  rw [readInt64?, readInt?_foreign h]

theorem readFloat?_foreign (h : ∃ b ∈ bs, IsForeign b) : readFloat? bs = none := by
  have hrest := foreign_splitSign h
  rw [readFloat?]
  simp only [named?_foreign hrest, readMagnitude?_foreign hrest, Option.or_none, Option.map_none,
    ite_self]

end Decimal

/-- Decoding a word changes nothing about the number it is, or that it is none. -/
theorem Value.ofWord?_decoded (ty : Ir.Ty) (longs : Nat) (letter : Char) (word : List UInt8) :
    ofWord? ty longs letter (Utf8.encode (Utf8.decodeLossy word)) =
      ofWord? ty longs letter word := by
  by_cases h : ∀ b ∈ word, b.toNat < 128
  · rw [Utf8.encode_decodeLossy h]
  · have hwide : ∃ b ∈ word, 128 ≤ b.toNat := by simpa using h
    have hdecoded := Utf8.foreign_decodeLossy hwide
    have hforeign : ∃ b ∈ word, IsForeign b := by
      obtain ⟨b, hb, hwide⟩ := hwide
      exact ⟨b, hb, .inr hwide⟩
    unfold ofWord?
    rw [Decimal.readInt64?_foreign hdecoded, Decimal.readInt64?_foreign hforeign,
      Decimal.readFloat?_foreign hdecoded, Decimal.readFloat?_foreign hforeign]

end Quill
