import Quill.Basic

/-! # Shortest decimals

A finite double is a sign, a whole number and a power of two. Of the decimals that read back as
that double, those with the fewest digits are shortest, and of two of them the nearer is taken;
if both are equally near, the larger.
-/
namespace Quill.Decimal

/-- The magnitude of a double: `significand * 2 ^ exponent`. -/
structure Binary where
  significand : Nat
  exponent : Int
deriving DecidableEq, Repr

namespace Binary

/-- Splits the bits of a finite double, its sign left out. -/
def ofBits (bits : UInt64) : Binary :=
  let fraction := (bits % 2 ^ (52 : Nat)).toNat
  let biased := ((bits >>> 52) % 2048).toNat
  if biased = 0 then ⟨fraction, -1074⟩ else ⟨fraction + 2 ^ (52 : Nat), biased - 1075⟩

/-- Whether the next smaller double is only half as far away as the next larger one. -/
def atPowerOfTwo (b : Binary) : Bool := b.significand = 2 ^ (52 : Nat) && b.exponent != -1074

def fraction (b : Binary) : Nat × Nat :=
  if b.exponent < 0 then (b.significand, 2 ^ b.exponent.natAbs)
  else (b.significand * 2 ^ b.exponent.natAbs, 1)

end Binary

structure Scientific where
  digits : Nat
  exponent : Int
deriving DecidableEq, Repr

/-- A positive number `value / unit` and how far below and above it a number may lie to be taken
for it. -/
structure Interval where
  value : Nat
  unit : Nat
  below : Nat
  above : Nat
  /-- Whether the two ends are taken for it too. -/
  closed : Bool

namespace Interval

/-- The numbers that round to a double. In quarters of its last place they reach two up, and two
down or, next to a narrower range of doubles, one. -/
def ofBinary (b : Binary) : Interval :=
  let (n, d) := b.fraction
  let place := n / b.significand
  { value := 4 * n
    unit := 4 * d
    below := if b.atPowerOfTwo then place else 2 * place
    above := 2 * place
    closed := b.significand % 2 = 0 }

def scale (i : Interval) (exponent : Int) : Interval :=
  if exponent < 0 then
    let f := 10 ^ exponent.natAbs
    { i with value := i.value * f, below := i.below * f, above := i.above * f }
  else { i with unit := i.unit * 10 ^ exponent.natAbs }

def within (i : Interval) (distance reach : Nat) : Bool :=
  if i.closed then distance ≤ reach else distance < reach

/-- The whole number in the interval that is nearest to the value. -/
def nearestWhole? (i : Interval) : Option Nat :=
  let low := i.value / i.unit
  let rest := i.value % i.unit
  let lowFits := i.within rest i.below
  let highFits := i.within (i.unit - rest) i.above
  if lowFits && (!highFits || 2 * rest < i.unit) then some low
  else if highFits then some (low + 1)
  else none

/-- The least `k` with the value below `10 ^ k`; the value is at least `10 ^ -400`. -/
def magnitude (i : Interval) : Int :=
  ((Nat.toDigits 10 (i.value * 10 ^ (400 : Nat) / i.unit)).length : Int) - 400

end Interval

/-- Tries grids of one digit, two digits and so on. -/
def shortestFrom (i : Interval) (exponent : Int) : Nat → Scientific
  | 0 => ⟨i.value / i.unit, 0⟩
  | places + 1 =>
    match (i.scale exponent).nearestWhole? with
    | some digits => ⟨digits, exponent⟩
    | none => shortestFrom i (exponent - 1) places

/-- Seventeen digits are enough for every double. -/
def shortest (b : Binary) : Scientific :=
  let i := Interval.ofBinary b
  shortestFrom i (i.magnitude - 1) 17

end Quill.Decimal
