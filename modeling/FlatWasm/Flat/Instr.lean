import FlatWasm.ByteOrder
import FlatWasm.Location
import FlatWasm.Operator
import FlatWasm.Reader

/-!
# Flat instructions

The code that an interpreter runs. Control is flat: a jump names the offset of its target in the code, and a
branch that leaves operands behind says how many it keeps and how many it drops. Immediates are little-endian
words of fixed width.

One memory, one table and one global are selected at any time. The instructions that work on a store work on the
selected one, and `use` selects another. Loads and stores come in two forms, without and with an offset that is
added to the address.

## Why instructions are typed

Bytes are the form in which code is kept, and `encode` and `read` go back and forth. What code *means*, and how it
is put together, is said of the typed instructions, where a jump has a target and not four bytes at a position.
-/

namespace FlatWasm.Flat

/-- The three kinds of stores. -/
inductive StoreKind where
  | memory | table | global
deriving DecidableEq, Repr

/-- Whether a global holds four or eight bytes. -/
inductive Width where
  | four | eight
deriving DecidableEq, Repr

/-- One way out of a branch table. -/
structure Entry where
  drop : UInt32
  target : UInt32
deriving DecidableEq, Repr

/-- The target of a table entry that returns from the function. -/
def returnTarget : UInt32 := 0xffffffff

/-- An instruction of flat code. -/
inductive Instr where
  /-- Traps. -/
  | unreachable
  /-- Pushes zeroed locals. It only appears as the first instruction. -/
  | locals (count : UInt32)
  | jump (target : UInt32)
  /-- Pops a condition and jumps if it is not zero. -/
  | jumpIf (target : UInt32)
  /-- Pops a condition and jumps if it is zero. -/
  | jumpUnless (target : UInt32)
  /-- Moves the top `keep` values down over `drop` values, then jumps. -/
  | br (keep drop target : UInt32)
  /-- Pops a condition and branches if it is not zero. -/
  | brIf (keep drop target : UInt32)
  /-- Pops an index and branches with that entry, or with the last one beyond the end. -/
  | brTable (keep : UInt32) (entries : List Entry) (fallback : Entry)
  /-- Moves the top `keep` values down over `drop` values, locals included, and returns. -/
  | ret (keep drop : UInt32)
  | callLocal (position : UInt32)
  | callImport (position : UInt32)
  /-- Pops an entry of the selected table and calls it, trapping unless its type matches. -/
  | callIndirect (typeIndex : UInt32)
  | drop
  /-- Pops a condition and two values; pushes the first if the condition is not zero, else the second. -/
  | select
  | localGet (index : UInt32)
  | localSet (index : UInt32)
  | localTee (index : UInt32)
  /-- Selects the store at a location. -/
  | use (kind : StoreKind) (origin : UInt8) (position : UInt32)
  | globalGet (width : Width)
  | globalSet (width : Width)
  | load (kind : LoadKind) (offset : Option UInt32)
  | store (width : StoreWidth) (offset : Option UInt32)
  | memorySize
  /-- Grows the selected memory. Its bytes are somewhere else afterward. -/
  | memoryGrow
  | memoryCopy
  | memoryFill
  | const32 (bits : UInt32)
  | const64 (bits : UInt64)
  | numeric (op : NumericOp)
  | truncate (op : Truncation)
deriving DecidableEq, Repr

/-! ## Opcodes -/

/-- The opcodes of loads and stores come in pairs, the second with an offset. -/
def withOffset (code : UInt8) (offset : Option UInt32) : UInt8 :=
  if offset.isSome then code + 1 else code

namespace Instr

/-- The byte that starts an instruction. -/
def opcode : Instr → UInt8
  | .unreachable => 0x00
  | .locals _ => 0x01
  | .jump _ => 0x02
  | .jumpIf _ => 0x03
  | .jumpUnless _ => 0x04
  | .br .. => 0x05
  | .brIf .. => 0x06
  | .brTable .. => 0x07
  | .ret .. => 0x08
  | .callLocal _ => 0x09
  | .callImport _ => 0x0a
  | .callIndirect _ => 0x0b
  | .drop => 0x0c
  | .select => 0x0d
  | .localGet _ => 0x0e
  | .localSet _ => 0x0f
  | .localTee _ => 0x10
  | .use .memory .. => 0x11
  | .use .table .. => 0x12
  | .use .global .. => 0x13
  | .globalGet .four => 0x14
  | .globalGet .eight => 0x15
  | .globalSet .four => 0x16
  | .globalSet .eight => 0x17
  | .load kind offset => withOffset (0x18 + 2 * kind.index) offset
  | .store width offset => withOffset (0x2a + 2 * width.index) offset
  | .memorySize => 0x32
  | .memoryGrow => 0x33
  | .memoryCopy => 0x34
  | .memoryFill => 0x35
  | .const32 _ => 0x36
  | .const64 _ => 0x37
  | .numeric op => op.code
  | .truncate op => 0xc5 + UInt8.ofNat op.val

/-! ## Bytes -/

/-- A table entry: what it drops, then its target. -/
def encodeEntry (e : Entry) : List UInt8 :=
  word32 e.drop ++ word32 e.target

/-- The bytes of the immediates. A branch table has what it keeps and the number of its entries without the last
one, then the entries. -/
def encodeImmediates : Instr → List UInt8
  | .locals v | .jump v | .jumpIf v | .jumpUnless v | .callLocal v | .callImport v
  | .callIndirect v | .localGet v | .localSet v | .localTee v | .const32 v => word32 v
  | .br keep dropped target | .brIf keep dropped target =>
    word32 keep ++ word32 dropped ++ word32 target
  | .brTable keep entries fallback =>
    word32 keep ++ word32 (UInt32.ofNat entries.length)
      ++ entries.flatMap encodeEntry ++ encodeEntry fallback
  | .ret keep dropped => word32 keep ++ word32 dropped
  | .use _ origin position => origin :: word32 position
  | .load _ offset | .store _ offset => offset.elim [] word32
  | .const64 bits => word64 bits
  | .unreachable | .drop | .select | .globalGet _ | .globalSet _ | .memorySize | .memoryGrow
  | .memoryCopy | .memoryFill | .numeric _ | .truncate _ => []

/-- The bytes of an instruction. -/
def encode (i : Instr) : List UInt8 :=
  i.opcode :: i.encodeImmediates

/-- The number of bytes of an instruction. -/
def size (i : Instr) : Nat :=
  i.encode.length

end Instr

/-- The bytes of code. -/
def encode (code : List Instr) : List UInt8 :=
  code.flatMap Instr.encode

/-! ## Reading -/

/-- Why bytes do not start with an instruction. -/
inductive Fault where
  | opcode
  | truncated
deriving DecidableEq, Repr

/-- A word of `n` bytes. -/
def readWord (n : Nat) : Reader Fault Nat := fun bytes =>
  if Reader.atLeast n bytes then .ok (ofLittleEndian (bytes.take n), bytes.drop n)
  else .error .truncated

def read32 : Reader Fault UInt32 := do
  return UInt32.ofNat (← readWord 4)

def readEntry : Reader Fault Entry := do
  let drop ← read32
  let target ← read32
  return { drop, target }

namespace Instr

/-- An instruction with one word. -/
def read1 (f : UInt32 → Instr) : Reader Fault Instr := do
  return f (← read32)

/-- An instruction with three words. -/
def read3 (f : UInt32 → UInt32 → UInt32 → Instr) : Reader Fault Instr := do
  let a ← read32
  let b ← read32
  let c ← read32
  return f a b c

/-- A marker: the kind byte of a location, then its position. -/
def readUse (kind : StoreKind) : Reader Fault Instr := do
  let origin ← readWord 1
  let position ← read32
  return .use kind (UInt8.ofNat origin) position

def readReturn : Reader Fault Instr := do
  let keep ← read32
  let drop ← read32
  return .ret keep drop

/-- A branch table. The number of its entries is compared with the bytes that remain before any is read. -/
def readTable : Reader Fault Instr := do
  let keep ← read32
  let count ← read32
  let remaining ← Reader.remaining
  if remaining < 8 * (count.toNat + 1) then Reader.fail .truncated
  else
    let entries ← Reader.replicate count.toNat fun _ => readEntry
    let fallback ← readEntry
    return .brTable keep entries fallback

/-- A load or store: its kind, with an offset if the opcode is the second of a pair. -/
def readAccess {α : Type} (kinds : List α) (f : α → Option UInt32 → Instr) (pair : Nat) :
    Reader Fault Instr :=
  match kinds[pair / 2]? with
  | none => Reader.fail .opcode
  | some kind => if pair % 2 = 1 then read1 fun v => f kind (some v) else pure (f kind none)

/-- The instruction that starts with the byte `op`; what follows the byte is read. -/
def read (op : UInt8) : Reader Fault Instr :=
  if h : Opcode.firstNumeric ≤ op ∧ op ≤ Opcode.lastNumeric then pure (.numeric ⟨op, h⟩)
  else if 0x18 ≤ op ∧ op < 0x2a then readAccess LoadKind.all .load (op.toNat - 0x18)
  else if 0x2a ≤ op ∧ op < 0x32 then readAccess StoreWidth.all .store (op.toNat - 0x2a)
  else if 0xc5 ≤ op ∧ op < 0xcd then pure (.truncate (Fin.ofNat 8 (op.toNat - 0xc5)))
  else
    match op.toNat with
    | 0x00 => pure .unreachable
    | 0x01 => read1 .locals
    | 0x02 => read1 .jump
    | 0x03 => read1 .jumpIf
    | 0x04 => read1 .jumpUnless
    | 0x05 => read3 .br
    | 0x06 => read3 .brIf
    | 0x07 => readTable
    | 0x08 => readReturn
    | 0x09 => read1 .callLocal
    | 0x0a => read1 .callImport
    | 0x0b => read1 .callIndirect
    | 0x0c => pure .drop
    | 0x0d => pure .select
    | 0x0e => read1 .localGet
    | 0x0f => read1 .localSet
    | 0x10 => read1 .localTee
    | 0x11 => readUse .memory
    | 0x12 => readUse .table
    | 0x13 => readUse .global
    | 0x14 => pure (.globalGet .four)
    | 0x15 => pure (.globalGet .eight)
    | 0x16 => pure (.globalSet .four)
    | 0x17 => pure (.globalSet .eight)
    | 0x32 => pure .memorySize
    | 0x33 => pure .memoryGrow
    | 0x34 => pure .memoryCopy
    | 0x35 => pure .memoryFill
    | 0x36 => read1 .const32
    | 0x37 => do return .const64 (UInt64.ofNat (← readWord 8))
    | _ => Reader.fail .opcode

/-! ## Reading goes forward -/

open Reader

theorem forward_readWord (n : Nat) : Forward (readWord n) := by
  intro bytes v rest h
  rw [readWord] at h
  split at h
  · cases h
    exact List.drop_suffix n bytes
  · cases h

theorem forward_read32 : Forward read32 :=
  forward_bind (forward_readWord 4) fun _ => forward_pure _

theorem forward_read1 (f : UInt32 → Instr) : Forward (read1 f) :=
  forward_bind forward_read32 fun _ => forward_pure _

theorem forward_read3 (f : UInt32 → UInt32 → UInt32 → Instr) : Forward (read3 f) :=
  forward_bind forward_read32 fun _ => forward_bind forward_read32 fun _ =>
    forward_bind forward_read32 fun _ => forward_pure _

theorem forward_readUse (kind : StoreKind) : Forward (readUse kind) :=
  forward_bind (forward_readWord 1) fun _ => forward_bind forward_read32 fun _ => forward_pure _

theorem forward_readReturn : Forward readReturn :=
  forward_bind forward_read32 fun _ => forward_bind forward_read32 fun _ => forward_pure _

theorem forward_readEntry : Forward readEntry :=
  forward_bind forward_read32 fun _ => forward_bind forward_read32 fun _ => forward_pure _

theorem forward_readTable : Forward readTable := by
  refine forward_bind forward_read32 fun keep => forward_bind forward_read32 fun count =>
    forward_bind forward_remaining fun remaining => ?_
  split
  · exact forward_fail _
  · exact forward_bind (forward_replicate (fun _ => forward_readEntry) _ _) fun entries =>
      forward_bind forward_readEntry fun fallback => forward_pure _

theorem forward_readAccess {α : Type} (kinds : List α) (f : α → Option UInt32 → Instr)
    (pair : Nat) : Forward (readAccess kinds f pair) := by
  rw [readAccess]
  split
  · exact forward_fail _
  · split
    · exact forward_read1 _
    · exact forward_pure _

theorem forward_read (op : UInt8) : Forward (read op) := by
  rw [read]
  repeat' split
  all_goals first
    | exact forward_pure _
    | exact forward_read1 _
    | exact forward_read3 _
    | exact forward_readUse _
    | exact forward_readAccess _ _ _
    | exact forward_readTable
    | exact forward_readReturn
    | exact forward_fail _
    | exact forward_bind (forward_readWord 8) fun _ => forward_pure _

end Instr

end FlatWasm.Flat
