import Quill.Decimal.Shortest

/-! # Writing doubles

Three forms of a double: its shortest digits with a point or an exponent, its shortest digits
without an exponent, and a fixed number of places.
-/
namespace Quill.Decimal

structure Layout where
  /-- Whether a point and a digit behind it are always written. -/
  keepsPoint : Bool
  /-- Positional between `10 ^ p.1` (included) and `10 ^ p.2`; `none` is everywhere. -/
  positional : Option (Int × Int)

/-- Always tells a fraction from a whole number: positional from `10 ^ -4` up to `10 ^ 16`, and
with an exponent elsewhere. -/
def Layout.telling : Layout := ⟨true, some (-4, 16)⟩

/-- Never an exponent, and a point only before a fraction. -/
def Layout.plain : Layout := ⟨false, none⟩

/-- Decimal digits without the zeros at the end, and how many zeros there were. -/
def trimmed (n : Nat) : List Char × Nat :=
  let reversed := (Nat.toDigits 10 n).reverse
  ((reversed.dropWhile (· == '0')).reverse, (reversed.takeWhile (· == '0')).length)

/-- Digits with a point after the first `whole` of them, and zeros where digits are missing. -/
def placePoint (keepsPoint : Bool) (digits : List Char) (whole : Int) : List Char :=
  if whole ≤ 0 then '0' :: '.' :: List.replicate whole.natAbs '0' ++ digits
  else
    let missing := whole.toNat - digits.length
    let front := digits.take whole.toNat ++ List.replicate missing '0'
    match digits.drop whole.toNat with
    | [] => front ++ if keepsPoint then ['.', '0'] else []
    | rest => front ++ '.' :: rest

/-- One digit, a point before any others, and the exponent. -/
def withExponent (digits : List Char) (exponent : Int) : List Char :=
  match digits with
  | [] => []
  | [d] => d :: 'e' :: (toString exponent).toList
  | d :: ds => d :: '.' :: ds ++ 'e' :: (toString exponent).toList

def Layout.magnitude (layout : Layout) (b : Binary) : List Char :=
  let s := shortest b
  let (digits, zeros) := trimmed s.digits
  let whole := s.exponent + zeros + digits.length
  let isPositional := layout.positional.all fun r => r.1 < whole && whole ≤ r.2
  if isPositional then placePoint layout.keepsPoint digits whole
  else withExponent digits (whole - 1)

def isNegative (x : Float) : Bool := x.toBits >>> 63 == 1

/-- A sign for negative numbers, zero included, before the magnitude; words for the rest. -/
def signed (x : Float) (magnitude : Binary → List Char) : String :=
  if x.isNaN then "NaN"
  else
    let sign := if isNegative x then ['-'] else []
    let body := if x.isInf then "inf".toList else magnitude (Binary.ofBits x.toBits)
    String.ofList (sign ++ body)

def Layout.text (layout : Layout) (x : Float) : String :=
  signed x fun b =>
    if b.significand = 0 then if layout.keepsPoint then "0.0".toList else ['0']
    else layout.magnitude b

/-- Rounds `n / d` to a whole number, a half to the even neighbour. -/
def roundEven (n d : Nat) : Nat :=
  let low := n / d
  let rest := n % d
  if 2 * rest > d || (2 * rest == d && low % 2 == 1) then low + 1 else low

/-- The magnitude with exactly `places` digits behind the point. -/
def fixedMagnitude (places : Nat) (b : Binary) : List Char :=
  let (n, d) := b.fraction
  let digits := Nat.toDigits 10 (roundEven (n * 10 ^ places) d)
  let digits := List.replicate (places + 1 - digits.length) '0' ++ digits
  let whole := digits.length - places
  digits.take whole ++ '.' :: digits.drop whole

def fixed (places : Nat) (x : Float) : String := signed x (fixedMagnitude places)

end Quill.Decimal
