import Quill.Basic
import Quill.Decimal.Reading
import Quill.Token

/-! # Matches in progress

The lexical rules as one automaton on bytes. The first byte selects a rule, each further byte is
taken as long as `Scan.step` accepts it, and `Scan.finish` says what the match stands for and how
many bytes at its end do not belong to it.
-/
namespace Quill
open Decimal (isDigit)

def isLetter (b : UInt8) : Bool := (65 ≤ b && b ≤ 90) || (97 ≤ b && b ≤ 122)

def isNameStart (b : UInt8) : Bool := isLetter b || b == 95

def isNamePart (b : UInt8) : Bool := isNameStart b || isDigit b

inductive NumberPhase where
  | digits | point | fraction | exponent | sign | exponentDigits
deriving DecidableEq, Repr

namespace NumberPhase

def step (phase : NumberPhase) (b : UInt8) : Option NumberPhase :=
  match phase with
  | digits => if isDigit b then some digits else if b = 46 then some point else none
  | point => if isDigit b then some fraction else none
  | fraction =>
    if isDigit b then some fraction else if b = 101 ∨ b = 69 then some exponent else none
  | exponent =>
    if b = 43 ∨ b = 45 then some sign else if isDigit b then some exponentDigits else none
  | sign | exponentDigits => if isDigit b then some exponentDigits else none

/-- Bytes taken since the number was last complete. -/
def surplus : NumberPhase → Nat
  | digits | fraction | exponentDigits => 0
  | point | exponent => 1
  | sign => 2

/-- Whether the last complete number is a whole one. -/
def isWhole : NumberPhase → Bool
  | digits | point => true
  | _ => false

end NumberPhase

inductive Scan where
  /-- Complete: no further byte is looked at. -/
  | single (t : Token)
  | assign
  | less
  | greater
  | blank
  | comment
  | word
  | number (phase : NumberPhase)
  /-- Unrecognized; up to `due` bytes that continue its first one are taken. -/
  | stray (due : Nat)
deriving Repr

namespace Scan

/-- How many bytes may continue a character that starts with `b`. -/
def continuations (b : UInt8) : Nat :=
  if 0xC0 ≤ b ∧ b ≤ 0xDF then 1
  else if 0xE0 ≤ b ∧ b ≤ 0xEF then 2
  else if 0xF0 ≤ b ∧ b ≤ 0xF7 then 3
  else 0

/-- The token that a byte is by itself, whatever follows. -/
def alone? (b : UInt8) : Option Token :=
  match b with
  | 43 => some (.op .add)
  | 45 => some (.op .sub)
  | 42 => some (.op .mul)
  | 47 => some (.op .div)
  | 33 => some (.mark .bang)
  | 58 => some (.mark .colon)
  | 44 => some (.mark .comma)
  | 59 => some (.mark .semicolon)
  | _ => none

def start (b : UInt8) : Scan :=
  match alone? b with
  | some t => single t
  | none =>
    if b = 61 then assign
    else if b = 60 then less
    else if b = 62 then greater
    else if b = 35 then comment
    else if isBlank b then blank
    else if isNameStart b then word
    else if isDigit b then number .digits
    else stray (continuations b)

/-- Whether the match can be told to be over without looking at the next byte. -/
def isComplete : Scan → Bool
  | single _ | stray 0 => true
  | _ => false

def step (s : Scan) (b : UInt8) : Option Scan :=
  match s with
  | single _ => none
  | assign => if b = 61 then some (single (.op .eq)) else none
  | less =>
    if b = 60 then some (single (.op .shl))
    else if b = 61 then some (single (.op .le))
    else none
  | greater =>
    if b = 62 then some (single (.op .shr))
    else if b = 61 then some (single (.op .ge))
    else none
  | blank => if isBlank b then some blank else none
  | comment => if b = 10 then none else some comment
  | word => if isNamePart b then some word else none
  | number phase => (phase.step b).map number
  | stray 0 => none
  | stray (due + 1) => if Utf8.isContinuation b then some (stray due) else none

/-- Bytes at the end of the match that are given back. -/
def surplus : Scan → Nat
  | number phase => phase.surplus
  | _ => 0

/-- A whole number that needs more than 64 bits is not recognized. -/
def wholeNumber (bytes : List UInt8) : Token :=
  let value := Decimal.ofDigits bytes
  if value < 2 ^ (64 : Nat) then .integer (UInt64.ofNat value) else .unknown (Utf8.decodeLossy bytes)

def fractionalNumber (bytes : List UInt8) : Token :=
  match Decimal.readFloat? bytes with
  | some x => .float x
  | none => .unknown (Utf8.decodeLossy bytes)

/-- The token that the matched bytes stand for; blanks and comments stand for none. -/
def token? (s : Scan) (bytes : List UInt8) : Option Token :=
  match s with
  | single t => some t
  | assign => some (.mark .assign)
  | less => some (.op .lt)
  | greater => some (.op .gt)
  | blank | comment => none
  | word =>
    let text := Utf8.decodeLossy bytes
    some ((Token.reserved? text).getD (.name text))
  | number phase => some (if phase.isWhole then wholeNumber bytes else fractionalNumber bytes)
  | stray _ => some (.unknown (Utf8.decodeLossy bytes))

theorem surplus_start (b : UInt8) : (start b).surplus = 0 := by
  unfold start
  split
  · rfl
  · iterate 7 rw [apply_ite surplus]
    simp [surplus, NumberPhase.surplus]

theorem surplus_step {s next : Scan} {b : UInt8} (h : s.step b = some next) :
    next.surplus ≤ s.surplus + 1 := by
  cases s with
  | number phase =>
    obtain ⟨p, hp, rfl⟩ := Option.map_eq_some_iff.1 h
    cases phase <;> simp only [NumberPhase.step] at hp <;> (repeat' split at hp) <;>
      simp_all [surplus, NumberPhase.surplus] <;> subst hp <;> decide
  | stray due =>
    cases due <;> simp_all [step, surplus]
    simp [← h.2]
  | _ =>
    simp only [step] at h
    (repeat' split at h) <;> simp_all <;> (try subst h) <;> simp [surplus]

end Scan

end Quill
