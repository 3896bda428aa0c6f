import Quill.Ir.Verifier
import Quill.Typing

/-! # Why lowering stops

A program is rejected for a cause its author can mend. A misuse is a mistake of the lowering
itself in handling its scopes, its formats or the builder.
-/
namespace Quill

open Ir (Ty)

inductive LoweringError where
  | undefinedVariable (name : String)
  | assignUndefined (name : String)
  | readUndefined (name : String)
  | redefinition (name : String)
  | functionRedefinition (name : String)
  | reservedName (name : String)
  | undefinedFunction (name : String)
  | argumentCount (function : String) (expected found : Nat)
  | argumentType (function : String) (expected found : Ty)
  | initType (expected found : Ty)
  | assignType (expected found : Ty)
  | returnType (expected found : Ty)
  | returnValueFromVoid
  | voidVariable (name : String)
  | types (e : TypeError)
  | pointerArithmetic
  | floatShift
  | condition (found : Ty)
  | notPrintable
  | notReadable
  /-- The function that came out does not pass verification. -/
  | verify (e : Ir.VerifyError)
deriving DecidableEq, Repr

def LoweringError.message : LoweringError → String
  | undefinedVariable x => s!"undefined variable {x}"
  | assignUndefined x => s!"assigning to undefined variable {x}"
  | readUndefined x => s!"reading an undefined variable {x}"
  | redefinition x => s!"redefining an existing variable {x}"
  | functionRedefinition f => s!"redefining an existing function {f}"
  | reservedName f => s!"function name {f} is reserved"
  | undefinedFunction f => s!"call to undefined function {f}"
  | argumentCount f expected found =>
    s!"wrong number of arguments in call to {f}: expected {expected}, found {found}"
  | argumentType f expected found =>
    s!"cannot pass expression of type {found.sourceName} as argument of type {expected.sourceName} in call to {f}"
  | initType expected found =>
    s!"cannot initialize variable of type {expected.sourceName} with expression of type {found.sourceName}"
  | assignType expected found =>
    s!"cannot assign expression of type {found.sourceName} to variable of type {expected.sourceName}"
  | returnType expected found =>
    s!"cannot return expression of type {found.sourceName} from function of type {expected.sourceName}"
  | returnValueFromVoid => "cannot return a value from a void function"
  | voidVariable x => s!"cannot declare variable {x} of type void"
  | types e => e.message
  | pointerArithmetic => "pointer arithmetic is not supported"
  | floatShift => "this operation cannot be applied to floats"
  | condition found => s!"cannot convert expression of type {found.sourceName} to boolean"
  | notPrintable => "only integer and float valued expressions may be printed"
  | notReadable => "can only read integers and floating point"
  | verify e => s!"invalid function generated: {e.message}"

inductive Misuse where
  | build (f : Ir.Fault)
  | noScope
  /-- A return outside of a function. -/
  | noBody
  | noFormat (ty : Ty)
deriving DecidableEq, Repr

def Misuse.message : Misuse → String
  | build f => f.message
  | noScope => "defining a variable outside of any scope"
  | noBody => "return outside of a function body"
  | noFormat ty => s!"no format for {ty.text}"

inductive Stop where
  | rejected (e : Spanned LoweringError)
  | misuse (m : Misuse)
deriving Repr

end Quill
