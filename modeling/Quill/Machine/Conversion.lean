import Quill.Decimal.Reading
import Quill.Machine.Value
import Quill.Text.Utf8

/-! # Format texts

A format text is a run of characters and conversions. A conversion is a percent sign, any number
of the letter l, and one other character.
-/
namespace Quill

open Ir (Ty)

inductive FormatPiece where
  | char (c : Char)
  | conversion (longs : Nat) (letter : Char)
  /-- A conversion that the end of the text cuts off. -/
  | cutOff
deriving DecidableEq, Repr

namespace FormatPiece

/-- The pieces of a text. Within a conversion, `open?` counts its letters l. -/
def ofChars (open? : Option Nat) : List Char → List FormatPiece
  | [] => if open?.isSome then [.cutOff] else []
  | c :: cs =>
    match open? with
    | none => if c = '%' then ofChars (some 0) cs else .char c :: ofChars none cs
    | some longs =>
      if c = 'l' then ofChars (some (longs + 1)) cs
      else .conversion longs c :: ofChars none cs

def ofText (s : String) : List FormatPiece := ofChars none s.toList

end FormatPiece

namespace Value

/-- The value in the form that a conversion asks for. None if there is no such conversion. -/
def formatted? (v : Value) (longs : Nat) (letter : Char) : Option (List UInt8) :=
  match longs, letter with
  | 0, 'd' => some (Utf8.encode (toString v.toInt.toInt32.toInt))
  | 1, 'd' => some (Utf8.encode (toString v.toInt.toInt))
  | 0, 'c' => some [v.toInt.toUInt64.toUInt8]
  | 0, 'f' | 1, 'f' => some (Utf8.encode (Decimal.fixed 6 v.toFloat))
  | _, _ => none

/-- The value of type `ty` that a word stands for under a conversion: `none` if there is no such
conversion, `some none` if the word is not of that form. -/
def ofWord? (ty : Ty) (longs : Nat) (letter : Char) (word : List UInt8) :
    Option (Option Value) :=
  match longs, letter with
  | 0, 'd' | 1, 'd' => some ((Decimal.readInt64? word).map fun v => int (ty.wrap v))
  | 0, 'f' | 1, 'f' => some ((Decimal.readFloat? word).map fun x => float (ty.round x))
  | _, _ => none

end Value

/-- The bytes printed for a format and its arguments. None if a conversion is unknown, cut off,
or has no argument. -/
def formatBytes? : List FormatPiece → List Value → Option (List UInt8)
  | [], _ => some []
  | .char c :: rest, args => (String.utf8EncodeChar c ++ ·) <$> formatBytes? rest args
  | .cutOff :: _, _ => none
  | .conversion 0 '%' :: rest, args => (37 :: ·) <$> formatBytes? rest args
  | .conversion _ _ :: _, [] => none
  | .conversion longs letter :: rest, v :: args => do
    let bytes ← v.formatted? longs letter
    let more ← formatBytes? rest args
    return bytes ++ more

end Quill
