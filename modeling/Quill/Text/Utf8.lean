/-! # UTF-8

Encoding of text into bytes, and the decoding that never fails: each maximal ill-formed part
of the bytes becomes one replacement character.
-/
namespace Quill.Utf8

def encode (s : String) : List UInt8 := s.toList.flatMap String.utf8EncodeChar

/-- Whether a byte only continues a sequence that an earlier byte started. -/
def isContinuation (b : UInt8) : Bool := b &&& 0xC0 == 0x80

def replacement : Char := '\uFFFD'

/-- A sequence whose first bytes have been seen: their payload, how many bytes are due, and the
range that the next of them has to lie in. -/
structure Pending where
  payload : Nat
  due : Nat
  low : UInt8
  high : UInt8

/-- What a byte outside any sequence stands for, or starts. -/
def start (b : UInt8) : List Char × Option Pending :=
  let n := b.toNat
  if n < 0x80 then ([Char.ofNat n], none)
  else if n < 0xC2 then ([replacement], none)
  else if n < 0xE0 then ([], some ⟨n - 0xC0, 1, 0x80, 0xBF⟩)
  else if n = 0xE0 then ([], some ⟨0, 2, 0xA0, 0xBF⟩)
  else if n = 0xED then ([], some ⟨0xD, 2, 0x80, 0x9F⟩)
  else if n < 0xF0 then ([], some ⟨n - 0xE0, 2, 0x80, 0xBF⟩)
  else if n = 0xF0 then ([], some ⟨0, 3, 0x90, 0xBF⟩)
  else if n < 0xF4 then ([], some ⟨n - 0xF0, 3, 0x80, 0xBF⟩)
  else if n = 0xF4 then ([], some ⟨4, 3, 0x80, 0x8F⟩)
  else ([replacement], none)

/-- A byte that does not fit the open sequence ends it and is looked at afresh. -/
def step (open? : Option Pending) (b : UInt8) : List Char × Option Pending :=
  match open? with
  | none => start b
  | some p =>
    if p.low ≤ b ∧ b ≤ p.high then
      let payload := p.payload * 64 + (b.toNat - 0x80)
      if p.due = 1 then ([Char.ofNat payload], none)
      else ([], some ⟨payload, p.due - 1, 0x80, 0xBF⟩)
    else
      let (chars, next) := start b
      (replacement :: chars, next)

def decodeChars (open? : Option Pending) : List UInt8 → List Char
  | [] => if open?.isSome then [replacement] else []
  | b :: bs =>
    let (chars, next) := step open? b
    chars ++ decodeChars next bs

def decodeLossy (bytes : List UInt8) : String := String.ofList (decodeChars none bytes)

end Quill.Utf8
