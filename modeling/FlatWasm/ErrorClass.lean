/-!
# Classes of errors

An error says in its text what was met and where. Callers that act on it look at its class. An error that
explains another one keeps the classes of that one, unless the context only quotes its text; so an error can
belong to several classes, and `classes` functions of the layers list them, the outermost first.
-/

namespace FlatWasm

/-- What kind of mistake an error reports. -/
inductive ErrorClass where
  /-- An instruction pops below the operands of its frame. -/
  | stackUnderflow
  /-- An operand has the wrong type. -/
  | typeMismatch
  /-- A frame closes with the wrong number of operands. -/
  | stackMismatch
  /-- An else without if, frames left open, or bytes after the last end. -/
  | malformedControl
  /-- A branch to more frames than are open. -/
  | branchDepth
  /-- A call without callee or table. -/
  | invalidCall
  /-- A local, global, memory or type that does not exist, or a global that cannot be written. -/
  | invalidIndex
  /-- An instruction outside the supported set. -/
  | unsupportedOpcode
  /-- An immediate that cannot be read or is out of range. -/
  | malformedImmediate
  /-- A function body that was replaced before. -/
  | alreadyLowered
  /-- An import without binding. -/
  | importMissing
  /-- A binding that does not match its import. -/
  | importMismatch
  /-- A segment that does not fit its store. -/
  | segmentOutOfBounds
  /-- An index that does not exist in its namespace. -/
  | indexOutOfRange
  /-- An index space that was sealed before. -/
  | indexSpaceSealed
  /-- A byte that the binary format does not allow there. -/
  | invalidByte
  | invalidMagic
  | invalidVersion
  | invalidSection
  /-- A part of the binary format that is not supported. -/
  | unsupportedEncoding
  /-- The work was called off. -/
  | canceled
deriving DecidableEq, Repr

end FlatWasm
