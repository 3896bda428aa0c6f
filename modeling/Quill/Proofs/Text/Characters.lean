import Mathlib.Data.FinEnum
import Mathlib.Data.List.DropRight
import Mathlib.Data.List.Infix
import Quill.Lexer.Scan
import Quill.Location

/-! # Characters, bytes and places

The text of a source is a list of characters, a lexer sees their bytes, and a place counts lines
and columns of the bytes. A character is a first byte and bytes that continue it, so a cut between
two bytes falls between two characters as soon as the byte after it continues nothing.
-/
namespace Quill

namespace Utf8

def bytes (cs : List Char) : List UInt8 := cs.flatMap String.utf8EncodeChar

theorem encode_eq (s : String) : encode s = bytes s.toList := rfl

@[simp] theorem bytes_nil : bytes [] = [] := rfl

@[simp] theorem bytes_cons (c : Char) (cs : List Char) :
    bytes (c :: cs) = String.utf8EncodeChar c ++ bytes cs := rfl

@[simp] theorem bytes_append (xs ys : List Char) : bytes (xs ++ ys) = bytes xs ++ bytes ys :=
  List.flatMap_append

/-- A byte continues a character if its two high bits are `10`. -/
theorem isContinuation_iff :
    ∀ b : UInt8, isContinuation b ↔ 128 ≤ b.toNat ∧ b.toNat < 192 := by
  decide +kernel

theorem isContinuation_ofNat {n : Nat} (h : n < 256) :
    isContinuation (UInt8.ofNat n) ↔ 128 ≤ n ∧ n < 192 := by
  rw [isContinuation_iff, UInt8.toNat_ofNat_of_lt' h]

/-- The first byte of a character, and the bytes after it that continue it. -/
structure Encoded (c : Char) (b : UInt8) (tail : List UInt8) : Prop where
  eq : String.utf8EncodeChar c = b :: tail
  first : ¬ isContinuation b
  more : ∀ x ∈ tail, isContinuation x
  length : Scan.continuations b = tail.length
  /-- A byte below 128 is all of its character. -/
  narrow : b.toNat < 128 → tail = [] ∧ b.toNat = c.toNat

/-- A first byte of 192 or more says how many bytes continue it. -/
theorem continuations_ofNat {n : Nat} (h : n < 248) :
    Scan.continuations (UInt8.ofNat n) =
      if n < 192 then 0 else if n < 224 then 1 else if n < 240 then 2 else 3 := by
  have hsize : n < UInt8.size := Nat.lt_trans h (by decide)
  simp only [Scan.continuations, UInt8.le_iff_toNat_le, UInt8.toNat_ofNat_of_lt' hsize,
    UInt8.reduceToNat]
  split_ifs <;> omega

theorem Encoded.wide {c : Char} {n : Nat} {tail : List UInt8} (h : 192 ≤ n ∧ n < 248)
    (eq : String.utf8EncodeChar c = UInt8.ofNat n :: tail) (more : ∀ x ∈ tail, isContinuation x)
    (length : (if n < 224 then 1 else if n < 240 then 2 else 3) = tail.length) :
    Encoded c (UInt8.ofNat n) tail where
  eq := eq
  first := by
    rw [isContinuation_ofNat (by omega)]
    omega
  more := more
  length := by rw [continuations_ofNat h.2, if_neg (by omega), length]
  narrow hb := by
    rw [UInt8.toNat_ofNat_of_lt' (Nat.lt_trans h.2 (by decide))] at hb
    omega

theorem exists_encoded (c : Char) : ∃ b tail, Encoded c b tail := by
  have cont (n : Nat) : isContinuation (UInt8.ofNat (n % 64 + 128)) :=
    (isContinuation_ofNat (by omega)).2 (by omega)
  have encoding := String.utf8EncodeChar.eq_1 c
  rw [show c.val.toNat = c.toNat from rfl] at encoding
  split_ifs at encoding with one two three
  · have hsize : c.toNat < UInt8.size := Nat.lt_of_le_of_lt one (by decide)
    refine ⟨_, _, encoding, ?_, List.forall_mem_nil _, ?_, ?_⟩
    · rw [isContinuation_ofNat hsize]
      omega
    · rw [continuations_ofNat (by omega), if_pos (by omega)]
      rfl
    · exact fun _ => ⟨rfl, UInt8.toNat_ofNat_of_lt' hsize⟩
  · exact ⟨_, _, .wide (by omega) encoding (by simpa only [List.forall_mem_singleton] using cont _)
      (by rw [if_pos (by omega)]; rfl)⟩
  · exact ⟨_, _, .wide (by omega) encoding
      (List.forall_mem_cons.2 ⟨cont _, by simpa only [List.forall_mem_singleton] using cont _⟩)
      (by rw [if_neg (by omega), if_pos (by omega)]; rfl)⟩
  · exact ⟨_, _, .wide (by omega) encoding
      (List.forall_mem_cons.2 ⟨cont _, List.forall_mem_cons.2
        ⟨cont _, by simpa only [List.forall_mem_singleton] using cont _⟩⟩)
      (by rw [if_neg (by omega), if_neg (by omega)]; rfl)⟩

def Resumes (bs : List UInt8) : Prop := ∀ b ∈ bs.head?, ¬ isContinuation b

theorem resumes_bytes (cs : List Char) : Resumes (bytes cs) := by
  cases cs with
  | nil => simp [Resumes]
  | cons c cs =>
    obtain ⟨b, tail, h⟩ := exists_encoded c
    simpa [Resumes, h.eq] using h.first

/-- A cut before a byte that continues nothing falls between two characters. -/
theorem bytes_cut {cs : List Char} {xs ys : List UInt8} (h : bytes cs = xs ++ ys)
    (hys : Resumes ys) : ∃ left right, cs = left ++ right ∧ xs = bytes left ∧ ys = bytes right := by
  induction cs generalizing xs with
  | nil =>
    obtain ⟨rfl, rfl⟩ := List.append_eq_nil_iff.1 h.symm
    exact ⟨[], [], rfl, rfl, rfl⟩
  | cons c cs ih =>
    cases xs with
    | nil => exact ⟨[], c :: cs, rfl, rfl, h.symm⟩
    | cons x xs =>
      obtain ⟨b, tail, hc⟩ := exists_encoded c
      rw [bytes_cons, hc.eq, List.cons_append, List.cons_append] at h
      obtain ⟨rfl, hrest⟩ := List.cons.inj h
      rcases List.append_eq_append_iff.1 hrest with ⟨more, rfl, hmore⟩ | ⟨cut, htail, rfl⟩
      · obtain ⟨left, right, rfl, rfl, rfl⟩ := ih hmore
        exact ⟨c :: left, right, rfl, by simp [hc.eq], rfl⟩
      · -- A cut inside the character would leave one of its later bytes in front.
        cases cut with
        | nil => exact ⟨[c], cs, rfl, by simp [hc.eq, htail], rfl⟩
        | cons y cut => exact absurd (hc.more y (by simp [htail])) (hys y rfl)

theorem resumes_after {cs : List Char} {xs ys : List UInt8} {b : UInt8}
    (h : bytes cs = xs ++ b :: ys) (hb : b.toNat < 128) : Resumes ys := by
  have hfirst : Resumes (b :: ys) := by
    intro x hx
    obtain rfl := Option.some.inj hx
    rw [isContinuation_iff]
    omega
  obtain ⟨left, right, rfl, -, hright⟩ := bytes_cut h hfirst
  cases right with
  | nil => simp at hright
  | cons c right =>
    obtain ⟨b', tail, hc⟩ := exists_encoded c
    rw [bytes_cons, hc.eq, List.cons_append] at hright
    obtain ⟨rfl, rfl⟩ := List.cons.inj hright
    rw [(hc.narrow hb).1]
    exact resumes_bytes right

theorem mem_bytes_of_mem {c : Char} {cs : List Char} (h : c ∈ cs) {b : UInt8}
    (hb : String.utf8EncodeChar c = [b]) : b ∈ bytes cs :=
  List.mem_flatMap.2 ⟨c, h, by simp [hb]⟩

end Utf8

namespace Location

theorem after_char (l : Location) (c : Char) :
    l.after (String.utf8EncodeChar c) =
      if c = '\n' then ⟨l.line + 1, 1⟩ else ⟨l.line, l.column + 1⟩ := by
  obtain ⟨b, tail, h⟩ := Utf8.exists_encoded c
  have stays : ∀ (l : Location) (tail : List UInt8), (∀ x ∈ tail, Utf8.isContinuation x) →
      l.after tail = l := by
    intro l tail htail
    induction tail with
    | nil => rfl
    | cons x tail ih =>
      obtain ⟨hx, htail⟩ := List.forall_mem_cons.1 htail
      have hne : x ≠ 10 := by
        rintro rfl
        exact absurd hx (by decide)
      have hstep : l.step x = l := by simp [step, hne, hx]
      rw [after, List.foldl_cons, hstep]
      exact ih htail
  have hnewline : b = 10 ↔ c = '\n' := by
    constructor
    · rintro rfl
      exact Char.ext (UInt32.toNat_inj.1 (h.narrow (by decide)).2.symm)
    · rintro rfl
      exact (List.cons.inj h.eq).1.symm
  rw [h.eq, after, List.foldl_cons]
  refine (stays _ tail h.more).trans ?_
  simp [step, hnewline, h.first]

/-- The place after the characters `cs` of a source. -/
def past (cs : List Char) : Location := start.after (Utf8.bytes cs)

end Location

/-- What a line already holds where the text before is `cs`. -/
def lineBefore (cs : List Char) : List Char := cs.rtakeWhile (· ≠ '\n')

theorem lineBefore_concat (cs : List Char) (c : Char) :
    lineBefore (cs ++ [c]) = if c = '\n' then [] else lineBefore cs ++ [c] := by
  by_cases h : c = '\n' <;> simp [lineBefore, h]

/-- A place counts the lines before it and the characters before it on its line. -/
theorem Location.past_eq (cs : List Char) :
    past cs = ⟨cs.count '\n' + 1, (lineBefore cs).length + 1⟩ := by
  induction cs using List.reverseRecOn with
  | nil => rfl
  | append_singleton cs c ih =>
    have hstep : past (cs ++ [c]) = (past cs).after (String.utf8EncodeChar c) := by
      simp [past]
    rw [hstep, ih, after_char, lineBefore_concat]
    by_cases h : c = '\n' <;> simp [h, List.count_append]

end Quill
