import FlatWasm.ByteOrder
import FlatWasm.Instr
import FlatWasm.Reader
import FlatWasm.Validation

/-!
# Reading source instructions

An instruction is read from the bytes after its opcode, and resolved while it is read: an index is looked up as
soon as it is known, and a label is compared with the frames that are open. So of two faults in one instruction
the first in the bytes is reported, and everything that is wrong with an instruction apart from its operands is
reported here.
-/

namespace FlatWasm

/-- What an instruction can refer to besides frames: the index spaces of the module, and the locals and results
of the function. Parameters are the first locals. -/
structure Scope where
  space : IndexSpace
  locals : Locals
  results : List ValueType
deriving Repr

/-- The number of locals, which sit below the operands when the function runs. -/
def Scope.localCount (scope : Scope) : UInt32 :=
  UInt32.ofNat scope.locals.length

namespace Instr

/-- A reader of a part of an instruction. -/
abbrev Part (α : Type) := Reader (Failure Cause) α

/-- Refuses the instruction. -/
def invalid {α : Type} (cause : Cause) : Part α :=
  Reader.fail (.error cause)

/-- Looks something up; `f` says what a failure means for the instruction. -/
def lookUp {α : Type} (f : IndexSpace.Error → Cause) (x : Except IndexSpace.Error α) : Part α :=
  Reader.ofExcept (orRefuse f x)

/-- A part of a description that has to be there. -/
def available {α : Type} (x : Option α) : Part α :=
  Reader.ofExcept (present x)

/-! ## Immediates -/

/-- A number as `load` reads it. -/
def number {α : Type} (load : List UInt8 → Except Leb128.Error (α × Nat)) (what : String) :
    Part α := fun bytes =>
  match load bytes with
  | .ok (v, length) => .ok (v, bytes.drop length)
  | .error e => .error (.error (.immediate what e))

/-- An unsigned number of 32 bits. -/
def word (what : String) : Part UInt32 := do
  return UInt32.ofNat (← number (Leb128.loadUnsigned 32) what)

/-- A signed number, as a word of `bits` bits. -/
def signedWord (bits : Nat) (what : String) : Part Nat := do
  let v ← number (Leb128.loadSigned bits) what
  return (BitVec.ofInt bits v).toNat

/-- Exactly `n` bytes. -/
def raw (n : Nat) (what : String) : Part (List UInt8) := fun bytes =>
  if Reader.atLeast n bytes then .ok (bytes.take n, bytes.drop n)
  else .error (.error (.immediate what .truncated))

/-- The next byte, which stays to be read. -/
def peek : Part (Option UInt8) := fun bytes =>
  .ok (bytes.head?, bytes)

/-- The type of a block: nothing, one result, or an index of the type section. -/
def blockType (space : IndexSpace) : Part FuncType := do
  match ← peek with
  | none => invalid (.immediate "block type" .truncated)
  | some b =>
    if b = 0x40 then
      let _ ← raw 1 "block type"
      return {}
    else if (ValueType.mk b).isNumeric then
      let _ ← raw 1 "block type"
      return { results := [⟨b⟩] }
    else
      let v ← number (Leb128.loadSigned 33) "block type"
      if v < 0 then invalid (.blockType v)
      else
        let type ← lookUp .index (space.type (UInt32.ofNat v.toNat))
        available type

/-- The depth of a branch, below the number of open frames. -/
def label (frames : Nat) : Part Nat := do
  let depth ← word "label"
  if frames ≤ depth.toNat then invalid (.branchDepth depth frames) else return depth.toNat

/-- The labels of a branch table. Each takes at least one byte, so their number is bounded by what remains. -/
def table (frames : Nat) : Part Instr := do
  let length ← word "br_table length"
  let remaining ← Reader.remaining
  if remaining ≤ length.toNat then invalid (.tableLength length)
  else
    let labels ← Reader.replicate length.toNat fun _ => label frames
    let fallback ← label frames
    return .brTable labels fallback

/-- A memory index. -/
def memory (space : IndexSpace) : Part Location := do
  let i ← word "memory index"
  let (loc, _) ← lookUp .index (space.memory i)
  return loc

def readCall (space : IndexSpace) : Part Instr := do
  let i ← word "function index"
  let (loc, type) ← lookUp .callee (space.function i)
  let type ← available type
  return .call loc type

def readCallIndirect (space : IndexSpace) : Part Instr := do
  let typeIndex ← word "type index"
  let tableIndex ← word "table index"
  let type ← lookUp .callee (space.type typeIndex)
  let (loc, _) ← lookUp .callTable (space.table tableIndex)
  let type ← available type
  return .callIndirect typeIndex type loc

def readTypedSelect : Part Instr := do
  let count ← word "select type count"
  if count ≠ 1 then invalid (.selectCount count)
  else
    let bytes ← raw 1 "select type"
    let type := ValueType.mk (bytes.headD 0)
    if type.isNumeric then return .typedSelect type else invalid (.selectType type)

def readLocal (scope : Scope) (f : UInt32 → ValueType → Instr) : Part Instr := do
  let i ← word "local index"
  match scope.locals.get? i.toNat with
  | some type => return f i type
  | none => invalid (.localIndex i scope.localCount)

/-- An access to a global. Only a mutable one can be written. -/
def readGlobal (space : IndexSpace) (writes : Bool)
    (f : Location → ValueType → UInt32 → Instr) : Part Instr := do
  let i ← word "global index"
  let (loc, type) ← lookUp .index (space.global i)
  let type ← available type
  let width ← Reader.ofExcept (orDefect type.valueType.width)
  if writes && !type.isMutable then invalid (.immutableGlobal i)
  else return f loc type.valueType width

/-- The bit of an alignment that says that a memory index follows. -/
def memoryIndexBit : UInt32 := 0x40

/-- The memory that the flags of an access announce, the first if they announce none. -/
def accessMemory (flags : UInt32) : Part UInt32 :=
  if flags &&& memoryIndexBit ≠ 0 then word "memory index" else pure 0

/-- A load or store: its alignment, the memory if it is not the first, the offset. -/
def readAccess (space : IndexSpace) (a : Access) : Part Instr := do
  let flags ← word "alignment"
  let i ← accessMemory flags
  let offset ← word "offset"
  let align := flags &&& ~~~memoryIndexBit
  if a.allowsAlignment align then
    let (loc, _) ← lookUp .index (space.memory i)
    return .access a offset loc
  else invalid (.alignment align a.bytes)

/-- A copy within one memory. -/
def readCopy (space : IndexSpace) : Part Instr := do
  let target ← memory space
  let source ← memory space
  if target ≠ source then invalid .copyAcross else return .memoryCopy target

/-- The instructions after the byte `0xfc`. -/
def readMisc (space : IndexSpace) : Part Instr := do
  let op ← word "misc opcode"
  if h : op.toNat < 8 then return .truncate ⟨op.toNat, h⟩
  else if op = 0x0a then readCopy space
  else if op = 0x0b then return .memoryFill (← memory space)
  else invalid (.miscOpcode op)

/-- A numeric operator, which has no immediates. -/
def readNumeric (op : UInt8) : Part Instr :=
  if h : Opcode.firstNumeric ≤ op ∧ op ≤ Opcode.lastNumeric then pure (.numeric ⟨op, h⟩)
  else invalid (.opcode op)

/-- The instruction that starts with the byte `op`, where `frames` frames are open; what follows the byte is
read. -/
def read (scope : Scope) (frames : Nat) (op : UInt8) : Part Instr :=
  match Access.ofOpcode? op with
  | some a => readAccess scope.space a
  | none =>
    match op.toNat with
    | 0x00 => pure .unreachable
    | 0x01 => pure .nop
    | 0x02 => do return .block (← blockType scope.space)
    | 0x03 => do return .loop (← blockType scope.space)
    | 0x04 => do return .ifThen (← blockType scope.space)
    | 0x05 => pure .elseMark
    | 0x0b => pure .endMark
    | 0x0c => do return .br (← label frames)
    | 0x0d => do return .brIf (← label frames)
    | 0x0e => table frames
    | 0x0f => pure .ret
    | 0x10 => readCall scope.space
    | 0x11 => readCallIndirect scope.space
    | 0x1a => pure .drop
    | 0x1b => pure .select
    | 0x1c => readTypedSelect
    | 0x20 => readLocal scope .localGet
    | 0x21 => readLocal scope .localSet
    | 0x22 => readLocal scope .localTee
    | 0x23 => readGlobal scope.space false .globalGet
    | 0x24 => readGlobal scope.space true .globalSet
    | 0x3f => do return .memorySize (← memory scope.space)
    | 0x40 => do return .memoryGrow (← memory scope.space)
    | 0x41 => do return .const32 .i32 (UInt32.ofNat (← signedWord 32 "i32.const"))
    | 0x42 => do return .const64 .i64 (UInt64.ofNat (← signedWord 64 "i64.const"))
    | 0x43 => do return .const32 .f32 (UInt32.ofNat (ofLittleEndian (← raw 4 "f32.const")))
    | 0x44 => do return .const64 .f64 (UInt64.ofNat (ofLittleEndian (← raw 8 "f64.const")))
    | 0xfc => readMisc scope.space
    | _ => readNumeric op

/-! ## Reading goes forward -/

open Reader

theorem forward_lookUp {α : Type} (f : IndexSpace.Error → Cause)
    (x : Except IndexSpace.Error α) : Forward (lookUp f x) :=
  forward_ofExcept _

theorem forward_number {α : Type} (load : List UInt8 → Except Leb128.Error (α × Nat))
    (what : String) : Forward (number load what) := by
  intro bytes v rest h
  rw [number] at h
  split at h
  · cases h
    exact List.drop_suffix _ bytes
  · cases h

theorem forward_word (what : String) : Forward (word what) :=
  forward_bind (forward_number _ what) fun _ => forward_pure _

theorem forward_signedWord (bits : Nat) (what : String) : Forward (signedWord bits what) :=
  forward_bind (forward_number _ what) fun _ => forward_pure _

theorem forward_raw (n : Nat) (what : String) : Forward (raw n what) := by
  intro bytes v rest h
  rw [raw] at h
  split at h
  · cases h
    exact List.drop_suffix n bytes
  · cases h

theorem forward_peek : Forward peek := by
  intro bytes v rest h
  cases h
  exact List.suffix_refl bytes

theorem forward_blockType (space : IndexSpace) : Forward (blockType space) := by
  refine forward_bind forward_peek fun b => ?_
  split
  · exact forward_fail _
  · split
    · exact forward_bind (forward_raw _ _) fun _ => forward_pure _
    · split
      · exact forward_bind (forward_raw _ _) fun _ => forward_pure _
      · refine forward_bind (forward_number _ _) fun v => ?_
        split
        · exact forward_fail _
        · exact forward_bind (forward_lookUp _ _) fun _ => forward_ofExcept _

theorem forward_label (frames : Nat) : Forward (label frames) := by
  refine forward_bind (forward_word _) fun depth => ?_
  split
  · exact forward_fail _
  · exact forward_pure _

theorem forward_table (frames : Nat) : Forward (table frames) := by
  refine forward_bind (forward_word _) fun length => forward_bind forward_remaining fun _ => ?_
  split
  · exact forward_fail _
  · exact forward_bind (forward_replicate (fun _ => forward_label frames) _ _) fun _ =>
      forward_bind (forward_label frames) fun _ => forward_pure _

theorem forward_memory (space : IndexSpace) : Forward (memory space) :=
  forward_bind (forward_word _) fun _ => forward_bind (forward_lookUp _ _) fun _ => forward_pure _

theorem forward_readCall (space : IndexSpace) : Forward (readCall space) :=
  forward_bind (forward_word _) fun _ => forward_bind (forward_lookUp _ _) fun _ =>
    forward_bind (forward_ofExcept _) fun _ => forward_pure _

theorem forward_readCallIndirect (space : IndexSpace) : Forward (readCallIndirect space) :=
  forward_bind (forward_word _) fun _ => forward_bind (forward_word _) fun _ =>
    forward_bind (forward_lookUp _ _) fun _ => forward_bind (forward_lookUp _ _) fun _ =>
      forward_bind (forward_ofExcept _) fun _ => forward_pure _

theorem forward_readTypedSelect : Forward readTypedSelect := by
  refine forward_bind (forward_word _) fun count => ?_
  split
  · exact forward_fail _
  · refine forward_bind (forward_raw _ _) fun bytes => ?_
    dsimp only
    split
    · exact forward_pure _
    · exact forward_fail _

theorem forward_readLocal (scope : Scope) (f : UInt32 → ValueType → Instr) :
    Forward (readLocal scope f) := by
  refine forward_bind (forward_word _) fun i => ?_
  split
  · exact forward_pure _
  · exact forward_fail _

theorem forward_readGlobal (space : IndexSpace) (writes : Bool)
    (f : Location → ValueType → UInt32 → Instr) : Forward (readGlobal space writes f) := by
  refine forward_bind (forward_word _) fun i => forward_bind (forward_lookUp _ _) fun found =>
    forward_bind (forward_ofExcept _) fun type => forward_bind (forward_ofExcept _) fun width => ?_
  split
  · exact forward_fail _
  · exact forward_pure _

theorem forward_accessMemory (flags : UInt32) : Forward (accessMemory flags) := by
  rw [accessMemory]
  split
  · exact forward_word _
  · exact forward_pure _

theorem forward_readAccess (space : IndexSpace) (a : Access) : Forward (readAccess space a) := by
  refine forward_bind (forward_word _) fun flags => forward_bind (forward_accessMemory flags)
    fun i => forward_bind (forward_word _) fun offset => ?_
  dsimp only
  split
  · exact forward_bind (forward_lookUp _ _) fun _ => forward_pure _
  · exact forward_fail _

theorem forward_readCopy (space : IndexSpace) : Forward (readCopy space) := by
  refine forward_bind (forward_memory space) fun target =>
    forward_bind (forward_memory space) fun source => ?_
  split
  · exact forward_fail _
  · exact forward_pure _

theorem forward_readMisc (space : IndexSpace) : Forward (readMisc space) := by
  refine forward_bind (forward_word _) fun op => ?_
  repeat' split
  · exact forward_pure _
  · exact forward_readCopy space
  · exact forward_bind (forward_memory space) fun _ => forward_pure _
  · exact forward_fail _

theorem forward_readNumeric (op : UInt8) : Forward (readNumeric op) := by
  rw [readNumeric]
  split
  · exact forward_pure _
  · exact forward_fail _

theorem forward_read (scope : Scope) (frames : Nat) (op : UInt8) :
    Forward (read scope frames op) := by
  rw [read]
  repeat' split
  all_goals first
    | exact forward_pure _
    | exact forward_readAccess _ _
    | exact forward_bind (forward_blockType _) fun _ => forward_pure _
    | exact forward_bind (forward_label _) fun _ => forward_pure _
    | exact forward_table _
    | exact forward_readCall _
    | exact forward_readCallIndirect _
    | exact forward_readTypedSelect
    | exact forward_readLocal _ _
    | exact forward_readGlobal _ _ _
    | exact forward_bind (forward_memory _) fun _ => forward_pure _
    | exact forward_bind (forward_signedWord _ _) fun _ => forward_pure _
    | exact forward_bind (forward_raw _ _) fun _ => forward_pure _
    | exact forward_readMisc _
    | exact forward_readNumeric _

end Instr

end FlatWasm
