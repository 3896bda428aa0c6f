import Quill.Basic

/-! # Reading decimal numbers

Whole and fractional numbers written in ASCII digits, as bytes.
-/
namespace Quill.Decimal

def isDigit (b : UInt8) : Bool := 48 ≤ b && b ≤ 57

/-- The number whose decimal digits are `bytes`, most significant first. -/
def ofDigits (bytes : List UInt8) : Nat :=
  bytes.foldl (fun n b => 10 * n + (b.toNat - 48)) 0

/-- A leading sign: whether it is a minus, and the rest. -/
def splitSign (bytes : List UInt8) : Bool × List UInt8 :=
  match bytes with
  | 45 :: rest => (true, rest)
  | 43 :: rest => (false, rest)
  | _ => (false, bytes)

def readInt? (bytes : List UInt8) : Option Int :=
  let (negative, digits) := splitSign bytes
  if digits.isEmpty || !digits.all isDigit then none
  else some (if negative then -(ofDigits digits : Int) else ofDigits digits)

def readInt64? (bytes : List UInt8) : Option Int64 :=
  match readInt? bytes with
  | some n => if -2 ^ (63 : Nat) ≤ n ∧ n < 2 ^ (63 : Nat) then some (Int64.ofInt n) else none
  | none => none

/-- The double nearest to `significand * 10 ^ exponent`. Exponents that leave the range of
doubles whatever the digits are cut off first. -/
def nearest (significand : Nat) (exponent : Int) : Float :=
  let places := (Nat.toDigits 10 significand).length
  if significand = 0 then 0.0
  else if exponent > 400 then Float.ofScientific 1 false 400
  else if exponent + places < -400 then 0.0
  else if exponent < 0 then Float.ofScientific significand true exponent.natAbs
  else Float.ofScientific significand false exponent.natAbs

/-- What follows the digits: nothing, or an exponent mark with a signed whole number. -/
def readExponent? (bytes : List UInt8) : Option Int :=
  match bytes with
  | [] => some 0
  | b :: rest => if b = 101 ∨ b = 69 then readInt? rest else none

/-- An unsigned finite number: digits with at most one point among them, at least one digit,
and perhaps an exponent. -/
def readMagnitude? (bytes : List UInt8) : Option Float :=
  let whole := bytes.takeWhile isDigit
  let afterWhole := bytes.dropWhile isDigit
  let (places, rest) :=
    match afterWhole with
    | 46 :: rest => (rest.takeWhile isDigit, rest.dropWhile isDigit)
    | _ => ([], afterWhole)
  if whole.isEmpty && places.isEmpty then none
  else (readExponent? rest).map fun e => nearest (ofDigits (whole ++ places)) (e - places.length)

def lower (b : UInt8) : UInt8 := if 65 ≤ b ∧ b ≤ 90 then b + 32 else b

/-- The words that stand for a value without digits, in any case. -/
def named? (bytes : List UInt8) : Option Float :=
  let text := bytes.map lower
  if text = "inf".toUTF8.data.toList ∨ text = "infinity".toUTF8.data.toList then some (1.0 / 0.0)
  else if text = "nan".toUTF8.data.toList then some (0.0 / 0.0)
  else none

/-- A signed number with a fraction or an exponent, or a named value. -/
def readFloat? (bytes : List UInt8) : Option Float :=
  let (negative, rest) := splitSign bytes
  let magnitude := (named? rest).or (readMagnitude? rest)
  if negative then magnitude.map (- ·) else magnitude

end Quill.Decimal
