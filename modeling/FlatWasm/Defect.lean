import FlatWasm.Text.Hex

/-!
# Defects and failures

An operation of this library has three ways to end. It answers; it refuses what it was given, with an error
of its own layer; or it meets a defect, a state that no well-formed caller can bring about: a description
with a part left out that has to be there, a position outside its buffer, a value type that has no width.

## Why defects are values

A refusal belongs to the contract of one operation, and each layer has its own type of errors. A defect says
that a precondition was broken, so it passes through every layer unchanged. Keeping it apart from the errors
lets a theorem say that an operation never meets one, without listing the errors that it does report.
-/

namespace FlatWasm

/-- A broken precondition. -/
inductive Defect where
  /-- A part of a description is missing where it is needed. -/
  | absentPart
  /-- A position lies outside the buffer or list that it indexes. -/
  | outOfBounds
  /-- A size is asked for in units of zero bytes. -/
  | zeroUnit
  /-- A store would become longer than can be addressed. -/
  | unaddressable
  /-- A value type without a width. -/
  | unknownWidth (code : UInt8)
  /-- A global whose type has no text. -/
  | unprintableGlobal (code : UInt8)
  /-- An import of a kind that has no binary form. -/
  | unknownExternKind (code : UInt8)
deriving DecidableEq, Repr

/-- The text of a defect, for those that have one. -/
def Defect.message? : Defect → Option String
  | .absentPart | .outOfBounds | .zeroUnit | .unaddressable => none
  | .unknownWidth code => some s!"BUG: unknown value type {Text.hex code.toNat}"
  | .unprintableGlobal code =>
    some s!"BUG: unknown value type {(Text.hexDigits code.toNat).toUpper}"
  | .unknownExternKind code => some s!"invalid externtype: {Text.hex code.toNat}"

/-- Why an operation did not answer: an error of its own layer, or a defect. -/
inductive Failure (ε : Type) where
  | error (cause : ε)
  | defect (defect : Defect)
deriving DecidableEq, Repr

namespace Failure

variable {ε ε' : Type}

/-- Replaces the error, leaving a defect as it is. -/
def map (f : ε → ε') : Failure ε → Failure ε'
  | .error e => .error (f e)
  | .defect d => .defect d

end Failure

section Context

variable {ε ε' α : Type}

/-- Runs `x`, putting its error in a context. -/
def inContext (f : ε → ε') (x : Except ε α) : Except ε' α :=
  x.mapError f

/-- Refuses with an error of the layer. -/
def refuse (e : ε) : Except (Failure ε) α :=
  .error (.error e)

/-- Runs `x`, whose errors are never defects, in a layer that can meet defects. -/
def orRefuse (f : ε → ε') (x : Except ε α) : Except (Failure ε') α :=
  x.mapError fun e => .error (f e)

/-- Runs `x`, which has no errors besides defects, in a layer that has. -/
def orDefect (x : Except Defect α) : Except (Failure ε) α :=
  x.mapError .defect

/-- A part that has to be there. -/
def present (x : Option α) : Except (Failure ε) α :=
  match x with
  | some a => .ok a
  | none => .error (.defect .absentPart)

/-- What stands at a position that has to be within its list. -/
def inBounds (x : Option α) : Except (Failure ε) α :=
  match x with
  | some a => .ok a
  | none => .error (.defect .outOfBounds)

end Context

end FlatWasm
