import FlatWasm.Flat.Instr

/-!
# Listings of flat code

`disassemble` reads code back into instructions, each with its offset, and `format` writes one line for each. Code
that cannot be read has no listing but the line that says where it stops making sense.
-/

namespace FlatWasm.Flat

/-- The runs of names of opcodes, each with its first byte. -/
def nameRuns : List (Nat × List String) :=
  [(0x00, ["unreachable", "locals", "jump", "jump_if", "jump_unless", "br", "br_if", "br_table",
     "return", "call_local", "call_import", "call_indirect", "drop", "select", "local.get",
     "local.set", "local.tee", "use_memory", "use_table", "use_global", "global.get32",
     "global.get64", "global.set32", "global.set64", "load8_u", "load8_u_offset", "load8_s32",
     "load8_s32_offset", "load8_s64", "load8_s64_offset", "load16_u", "load16_u_offset",
     "load16_s32", "load16_s32_offset", "load16_s64", "load16_s64_offset", "load32_u",
     "load32_u_offset", "load32_s64", "load32_s64_offset", "load64", "load64_offset", "store8",
     "store8_offset", "store16", "store16_offset", "store32", "store32_offset", "store64",
     "store64_offset", "memory.size", "memory.grow", "memory.copy", "memory.fill", "const32",
     "const64"]),
   (0x45, Opcode.numericNames),
   (0xc5, Opcode.truncationNames)]

/-- The name of an opcode, its hexadecimal text for a byte that is none. -/
def opName (op : UInt8) : String :=
  (Opcode.nameIn? nameRuns op.toNat).getD (Text.hex op.toNat)

namespace Instr

/-- The immediates as numbers, in the order of their encoding. -/
def immediates : Instr → List Nat
  | .locals v | .jump v | .jumpIf v | .jumpUnless v | .callLocal v | .callImport v
  | .callIndirect v | .localGet v | .localSet v | .localTee v | .const32 v => [v.toNat]
  | .br keep dropped target | .brIf keep dropped target =>
    [keep.toNat, dropped.toNat, target.toNat]
  | .brTable keep entries fallback =>
    keep.toNat :: entries.length ::
      (entries ++ [fallback]).flatMap fun e => [e.drop.toNat, e.target.toNat]
  | .ret keep dropped => [keep.toNat, dropped.toNat]
  | .use _ origin position => [origin.toNat, position.toNat]
  | .load _ offset | .store _ offset => offset.toList.map UInt32.toNat
  | .const64 bits => [bits.toNat]
  | .unreachable | .drop | .select | .globalGet _ | .globalSet _ | .memorySize | .memoryGrow
  | .memoryCopy | .memoryFill | .numeric _ | .truncate _ => []

/-- The immediates as they stand in a listing. -/
def immediatesText : Instr → String
  | .use _ origin position => " " ++ Location.textOf origin position
  | i => String.join (i.immediates.map fun v => s!" {v}")

end Instr

/-- An instruction at its offset in the code. -/
structure Line where
  offset : Nat
  instr : Instr
deriving DecidableEq, Repr

/-- The offset in four hexadecimal digits or more, the name, the immediates. -/
def Line.text (l : Line) : String :=
  s!"{Text.hexPadded 4 l.offset} {opName l.instr.opcode}{l.instr.immediatesText}"

/-- Why code cannot be read, with the opcode and the offset of the instruction that it stops at. -/
structure ListingError where
  fault : Fault
  opcode : UInt8
  offset : Nat
deriving DecidableEq, Repr

def ListingError.message (e : ListingError) : String :=
  match e.fault with
  | .opcode => s!"invalid opcode {Text.hex e.opcode.toNat} at {Text.hex e.offset}"
  | .truncated => s!"{opName e.opcode} at {Text.hex e.offset}: truncated immediates"

/-- Reads the instructions of `code`, which starts at `offset`. -/
def disassembleFrom (offset : Nat) (code : List UInt8) : Except ListingError (List Line) :=
  match code with
  | [] => .ok []
  | op :: bytes =>
    match _h : Instr.read op bytes with
    | .error fault => .error ⟨fault, op, offset⟩
    | .ok (instr, rest) =>
      match disassembleFrom (offset + instr.size) rest with
      | .error e => .error e
      | .ok lines => .ok (⟨offset, instr⟩ :: lines)
termination_by code.length
decreasing_by
  have := (Instr.forward_read op _h).length_le
  simp only [List.length_cons]
  omega

/-- Reads the instructions of `code`. -/
def disassemble (code : List UInt8) : Except ListingError (List Line) :=
  disassembleFrom 0 code

/-- The lines of a listing. -/
def listing (code : List UInt8) : List String :=
  match disassemble code with
  | .ok lines => lines.map Line.text
  | .error e => [e.message]

/-- The listing as text, a newline after every line. -/
def format (code : List UInt8) : String :=
  String.join ((listing code).map (· ++ "\n"))

end FlatWasm.Flat
