import Mathlib.Data.FinEnum
import Quill.Proofs.Text.Characters

/-! # Decoding

Decoding never fails, and it gives back what was encoded: the first byte of a character opens a
sequence, each byte that continues it puts six more bits to its payload, and the last one closes it.
-/
namespace Quill.Utf8

/-- `m` may be the payload of the byte that comes next in an open sequence. -/
def Pending.Admits (p : Pending) (m : Nat) : Prop :=
  p.low.toNat ≤ m % 64 + 128 ∧ m % 64 + 128 ≤ p.high.toNat

theorem step_continuing {p : Pending} {m : Nat} (h : p.Admits m) :
    step (some p) (UInt8.ofNat (m % 64 + 128)) =
      if p.due = 1 then ([Char.ofNat (p.payload * 64 + m % 64)], none)
      else ([], some ⟨p.payload * 64 + m % 64, p.due - 1, 0x80, 0xBF⟩) := by
  have hb : (UInt8.ofNat (m % 64 + 128)).toNat = m % 64 + 128 := by
    refine UInt8.toNat_ofNat_of_lt' ?_
    show m % 64 + 128 < 256
    omega
  have hin : p.low ≤ UInt8.ofNat (m % 64 + 128) ∧ UInt8.ofNat (m % 64 + 128) ≤ p.high := by
    rw [UInt8.le_iff_toNat_le, UInt8.le_iff_toNat_le, hb]
    exact h
  rw [step, if_pos hin, hb, Nat.add_sub_cancel]

theorem decodeChars_last {p : Pending} {m : Nat} (h : p.Admits m) (hdue : p.due = 1)
    (bs : List UInt8) : decodeChars (some p) (UInt8.ofNat (m % 64 + 128) :: bs) =
      Char.ofNat (p.payload * 64 + m % 64) :: decodeChars none bs := by
  rw [decodeChars, step_continuing h, if_pos hdue]
  rfl

theorem decodeChars_more {p : Pending} {m : Nat} (h : p.Admits m) (hdue : p.due ≠ 1)
    (bs : List UInt8) : decodeChars (some p) (UInt8.ofNat (m % 64 + 128) :: bs) =
      decodeChars (some ⟨p.payload * 64 + m % 64, p.due - 1, 0x80, 0xBF⟩) bs := by
  rw [decodeChars, step_continuing h, if_neg hdue]
  rfl

/-- The first byte of a longer character opens a sequence. -/
def Opens (n payload due m : Nat) : Prop :=
  ∃ p : Pending, start (UInt8.ofNat n) = ([], some p) ∧ p.payload = payload ∧ p.due = due ∧
    p.Admits m

theorem decodeChars_opens {n payload due m : Nat} (h : Opens n payload due m) :
    ∃ p : Pending, p.payload = payload ∧ p.due = due ∧ p.Admits m ∧
      ∀ bs, decodeChars none (UInt8.ofNat n :: bs) = decodeChars (some p) bs := by
  obtain ⟨p, hstart, hpayload, hdue, hadmits⟩ := h
  refine ⟨p, hpayload, hdue, hadmits, fun bs => ?_⟩
  rw [decodeChars, step, hstart]
  rfl

theorem admits_any (payload due m : Nat) : Pending.Admits ⟨payload, due, 0x80, 0xBF⟩ m := by
  show 128 ≤ m % 64 + 128 ∧ m % 64 + 128 ≤ 191
  omega

theorem opens_two {v : Nat} (h : 0x80 ≤ v ∧ v < 0x800) :
    Opens (v / 64 % 32 + 192) (v / 64) 1 v := by
  have hb : (UInt8.ofNat (v / 64 % 32 + 192)).toNat = v / 64 % 32 + 192 :=
    UInt8.toNat_ofNat_of_lt' (by show _ < 256; omega)
  have hvalue : v / 64 % 32 + 192 - 0xC0 = v / 64 := by omega
  refine ⟨⟨v / 64, 1, 0x80, 0xBF⟩, ?_, rfl, rfl, admits_any _ _ _⟩
  simp only [start, hb, hvalue]
  rw [if_neg (by omega), if_neg (by omega), if_pos (by omega)]

theorem opens_three {v : Nat} (h : 0x800 ≤ v ∧ v < 0x10000) (hvalid : v < 0xD800 ∨ 0xDFFF < v) :
    Opens (v / 4096 % 16 + 224) (v / 4096) 2 (v / 64) := by
  have hb : (UInt8.ofNat (v / 4096 % 16 + 224)).toNat = v / 4096 % 16 + 224 :=
    UInt8.toNat_ofNat_of_lt' (by show _ < 256; omega)
  have hvalue : v / 4096 % 16 + 224 - 0xE0 = v / 4096 := by omega
  simp only [Opens, start, hb, hvalue]
  rw [if_neg (by omega), if_neg (by omega), if_neg (by omega)]
  -- The shortest and the surrogate forms narrow the range of the second byte.
  by_cases hlow : v / 4096 % 16 + 224 = 0xE0
  · rw [if_pos hlow]
    refine ⟨_, rfl, ?_, rfl, ?_⟩
    · show 0 = v / 4096
      omega
    · show 160 ≤ v / 64 % 64 + 128 ∧ v / 64 % 64 + 128 ≤ 191
      omega
  rw [if_neg hlow]
  by_cases hhigh : v / 4096 % 16 + 224 = 0xED
  · rw [if_pos hhigh]
    refine ⟨_, rfl, ?_, rfl, ?_⟩
    · show 13 = v / 4096
      omega
    · show 128 ≤ v / 64 % 64 + 128 ∧ v / 64 % 64 + 128 ≤ 159
      omega
  rw [if_neg hhigh, if_pos (by omega)]
  exact ⟨_, rfl, rfl, rfl, admits_any _ _ _⟩

theorem opens_four {v : Nat} (h : 0x10000 ≤ v ∧ v < 0x110000) :
    Opens (v / 262144 % 8 + 240) (v / 262144) 3 (v / 4096) := by
  have hb : (UInt8.ofNat (v / 262144 % 8 + 240)).toNat = v / 262144 % 8 + 240 :=
    UInt8.toNat_ofNat_of_lt' (by show _ < 256; omega)
  have hvalue : v / 262144 % 8 + 240 - 0xF0 = v / 262144 := by omega
  simp only [Opens, start, hb, hvalue]
  rw [if_neg (by omega), if_neg (by omega), if_neg (by omega), if_neg (by omega), if_neg (by omega),
    if_neg (by omega)]
  -- The shortest form and the greatest character narrow the range of the second byte.
  split_ifs with hlow hmiddle hhigh
  · refine ⟨_, rfl, ?_, rfl, ?_⟩
    · show 0 = v / 262144
      omega
    · show 144 ≤ v / 4096 % 64 + 128 ∧ v / 4096 % 64 + 128 ≤ 191
      omega
  · exact ⟨_, rfl, rfl, rfl, admits_any _ _ _⟩
  · refine ⟨_, rfl, ?_, rfl, ?_⟩
    · show 4 = v / 262144
      omega
    · show 128 ≤ v / 4096 % 64 + 128 ∧ v / 4096 % 64 + 128 ≤ 143
      omega
  · omega

/-- The bytes of a character are decoded to it, whatever follows. -/
theorem decodeChars_char (c : Char) (bs : List UInt8) :
    decodeChars none (String.utf8EncodeChar c ++ bs) = c :: decodeChars none bs := by
  have encoding := String.utf8EncodeChar.eq_1 c
  rw [show c.val.toNat = c.toNat from rfl] at encoding
  have hvalid : c.toNat < 0xD800 ∨ 0xDFFF < c.toNat ∧ c.toNat < 0x110000 := c.valid
  have whole {v : Nat} (h : v = c.toNat) : Char.ofNat v = c := h ▸ Char.ofNat_toNat c
  rw [encoding]
  split_ifs with one two three
  · have hb : (UInt8.ofNat c.toNat).toNat = c.toNat :=
      UInt8.toNat_ofNat_of_lt' (by show _ < 256; omega)
    rw [List.singleton_append, decodeChars, step, start, hb, if_pos (by omega), whole rfl]
    rfl
  · obtain ⟨p, hpayload, hdue, hadmits, hopens⟩ :=
      decodeChars_opens (opens_two (v := c.toNat) (by omega))
    rw [List.cons_append, List.singleton_append, hopens, decodeChars_last hadmits hdue,
      whole (by omega)]
  · obtain ⟨p, hpayload, hdue, hadmits, hopens⟩ :=
      decodeChars_opens (opens_three (v := c.toNat) (by omega) (by omega))
    rw [List.cons_append, List.cons_append, List.singleton_append, hopens,
      decodeChars_more hadmits (by omega), decodeChars_last (admits_any _ _ _) (by simp [hdue]),
      whole (by dsimp only; omega)]
  · obtain ⟨p, hpayload, hdue, hadmits, hopens⟩ :=
      decodeChars_opens (opens_four (v := c.toNat) (by omega))
    rw [List.cons_append, List.cons_append, List.cons_append, List.singleton_append, hopens,
      decodeChars_more hadmits (by omega),
      decodeChars_more (admits_any _ _ _) (by simp [hdue]),
      decodeChars_last (admits_any _ _ _) (by simp [hdue]), whole (by dsimp only; omega)]

theorem decodeChars_bytes (cs : List Char) : decodeChars none (bytes cs) = cs := by
  induction cs with
  | nil => rfl
  | cons c cs ih => rw [bytes_cons, decodeChars_char, ih]

theorem decodeLossy_encode (s : String) : decodeLossy (encode s) = s := by
  rw [decodeLossy, encode_eq, decodeChars_bytes, String.ofList_toList]

theorem encode_narrow :
    ∀ b : UInt8, b.toNat < 128 → String.utf8EncodeChar (Char.ofNat b.toNat) = [b] := by
  decide +kernel

/-- Bytes below 128 are the encoding of what they are decoded to. -/
theorem encode_decodeLossy {bs : List UInt8} (h : ∀ b ∈ bs, b.toNat < 128) :
    encode (decodeLossy bs) = bs := by
  suffices hchars : ∃ cs, bytes cs = bs by
    obtain ⟨cs, rfl⟩ := hchars
    rw [decodeLossy, decodeChars_bytes, encode_eq, String.toList_ofList]
  induction bs with
  | nil => exact ⟨[], rfl⟩
  | cons b bs ih =>
    obtain ⟨hb, hbs⟩ := List.forall_mem_cons.1 h
    obtain ⟨cs, rfl⟩ := ih hbs
    exact ⟨Char.ofNat b.toNat :: cs, by rw [bytes_cons, encode_narrow b hb, List.singleton_append]⟩

end Quill.Utf8
