import FlatWasm.Binary.Fault
import FlatWasm.Module
import FlatWasm.Opcode
import FlatWasm.Reader

/-!
# Reading a binary module

A binary module is a magic number, a version, and a sequence of sections, each framed by its number and the
length of its contents. Known sections come at most once and in order; custom sections come anywhere and are
skipped, and so is the count of data segments.

## Why sections are read from the whole input

A section is read from everything that follows its frame, and only then is the number of bytes it took compared
with the frame. So a count that promises more than the *input* holds is refused at the count, while a section
that runs past its own end is refused at its end. An accepted section has taken exactly its contents.
-/

namespace FlatWasm

namespace Binary

/-- A reader of a part of the binary format. -/
abbrev Decoder (α : Type) := Reader Fault α

/-- Puts a fault inside a part. -/
def inside {α : Type} (part : Part) (r : Decoder α) : Decoder α :=
  r.mapError (.inside part)

/-! ## Bytes and numbers -/

/-- One byte. -/
def byte : Decoder UInt8
  | [] => .error .endOfInput
  | b :: rest => .ok (b, rest)

/-- Exactly `n` bytes. -/
def take (n : Nat) : Decoder (List UInt8) := fun bytes =>
  if Reader.atLeast n bytes then .ok (bytes.take n, bytes.drop n)
  else if bytes.isEmpty then .error .endOfInput
  else .error .cutShort

/-- Steps over `n` bytes. -/
def skip (n : Nat) : Decoder Unit := fun bytes =>
  if Reader.atLeast n bytes then .ok ((), bytes.drop n) else .error .endOfInput

/-- An unsigned number of 32 bits, with the number of bytes that it takes. -/
def sizedNumber : Decoder (UInt32 × Nat) := fun bytes =>
  match Leb128.decodeUnsigned 32 bytes with
  | (.ok (v, length), rest) => .ok ((UInt32.ofNat v, length), rest)
  | (.error e, _) => .error (.number e)

/-- An unsigned number of 32 bits. -/
def number : Decoder UInt32 := do
  let (v, _) ← sizedNumber
  return v

/-- A signed number of `bits` bits. -/
def signedNumber (bits : Nat) : Decoder Int := fun bytes =>
  match Leb128.decodeSigned bits bytes with
  | (.ok (v, _), rest) => .ok (v, rest)
  | (.error e, _) => .error (.number e)

/-- Refuses a size beyond the bytes that remain. -/
def fits (what : Extent) (size : UInt32) : Decoder Unit := fun bytes =>
  if Reader.atLeast size.toNat bytes then .ok ((), bytes)
  else .error (.exceeds what size.toNat bytes.length)

/-- A vector: a count, then its items. Each item takes at least one byte. -/
def vector {α : Type} (item : Nat → Decoder α) : Decoder (List α) := do
  let count ← inside .vectorSize number
  fits .vector count
  Reader.replicate count.toNat item

/-- A name: its length in bytes, then its UTF-8 encoding. -/
def name (place : NamePlace) : Decoder String := do
  let size ← inside (.name place) number
  fits (.name place) size
  let bytes ← take size.toNat
  match String.fromUTF8? ⟨bytes.toArray⟩ with
  | some s => return s
  | none => Reader.fail (.notUtf8 place)

/-! ## Types -/

/-- `count` numeric value types. -/
def valueTypes (count : UInt32) : Decoder (List ValueType) := do
  fits .valueTypes count
  let types := (← take count.toNat).map ValueType.mk
  match types.find? (!·.isNumeric) with
  | none => return types
  | some t => Reader.fail (.byte t.code .valueType)

def funcType : Decoder FuncType := do
  let form ← inside .typeForm byte
  if form ≠ 0x60 then Reader.fail (.byte form .typeForm)
  let params ← inside .params (valueTypes (← inside .paramCount number))
  let results ← inside .results (valueTypes (← inside .resultCount number))
  return { params, results }

def limits : Decoder Limits := do
  let form ← inside .limitsForm byte
  if form = 0x00 then
    return { min := ← inside .limitsMin number }
  else if form = 0x01 then
    let min ← inside .limitsMin number
    let max ← inside .limitsMax number
    return { min, max := some max }
  else Reader.fail (.limitsForm form)

def tableType : Decoder Limits := do
  let form ← inside .tableForm byte
  if ValueType.mk form ≠ .funcref then Reader.fail (.byte form .tableForm)
  inside .limits limits

def globalType : Decoder GlobalType := do
  let types ← inside .globalValueType (valueTypes 1)
  let mutability ← inside .mutability byte
  if 1 < mutability then Reader.fail (.byte mutability .mutability)
  return { valueType := types.headD default, isMutable := mutability = 1 }

/-! ## Constant expressions -/

/-- Steps over the immediate of a constant expression. -/
def constImmediate (opcode : UInt8) : Decoder Unit :=
  if opcode = Opcode.i32Const then inside .constValue (do let _ ← signedNumber 32)
  else if opcode = Opcode.i64Const then inside .constValue (do let _ ← signedNumber 64)
  else if opcode = Opcode.f32Const then inside .constValue (skip 4)
  else if opcode = Opcode.f64Const then inside .constValue (skip 8)
  else if opcode = Opcode.globalGet then inside .constValue (do let _ ← number)
  else Reader.fail (.constOpcode opcode)

/-- A constant expression, up to and including its end. -/
def constExpr : Decoder ConstExpr := do
  let opcode ← inside .constOpcode byte
  let ((), data) ← (constImmediate opcode).withBytes
  let last ← inside .constEnd byte
  if last ≠ Opcode.end then Reader.fail .constUnterminated
  return { opcode, data }

/-! ## Items of the sections -/

/-- What an import asks for, once its kind is known. -/
def importDesc (kind : ExternKind) : Decoder ImportDesc :=
  if kind = .func then return .func (← number)
  else if kind = .table then return .table (some (← tableType))
  else if kind = .memory then return .memory (some (← limits))
  else if kind = .global then return .global (some (← globalType))
  else Reader.fail (.byte kind.code .importKind)

def importItem (i : Nat) : Decoder Import := do
  let module ← name (.importModule i)
  let item ← name (.importName i)
  let kind := ExternKind.mk (← inside (.importKind i module item) byte)
  let desc ← inside (.importDesc i kind module item) (importDesc kind)
  return { module, name := item, desc }

def globalItem : Decoder Global := do
  let type ← globalType
  let init ← constExpr
  return { type := some type, init := some init }

def exportItem (i : Nat) : Decoder Export := do
  let name ← name (.exportName i)
  let kind ← inside (.exportKind i) byte
  if 3 < kind then Reader.fail (.byte kind .exportKind)
  let index ← inside (.exportIndex i) number
  return { kind := ⟨kind⟩, name, index }

/-- The function indices of an element segment. -/
def functionIndices : Decoder (List UInt32) := do
  let count ← inside .vectorSize number
  fits .functionIndices count
  Reader.replicate count.toNat fun _ => inside .functionIndex number

/-- An active element segment: of table zero (form 0), or of a table that it names (form 2). -/
def elementItem : Decoder ElementSegment := do
  let form ← inside .elementForm number
  if form ≠ 0 ∧ form ≠ 2 then Reader.fail (.elementForm form)
  let table ← if form = 2 then inside .elementTable number else pure 0
  let offset ← inside .elementOffset constExpr
  if form = 2 then
    let kind ← inside .elementKind byte
    if kind ≠ 0 then Reader.fail (.elementKind kind)
  let init ← functionIndices
  return { table, offset := some offset, init }

/-- An active data segment: of memory zero (form 0), or of a memory that it names (form 2). -/
def dataItem : Decoder DataSegment := do
  let form ← inside .dataForm number
  if form ≠ 0 ∧ form ≠ 2 then Reader.fail (.dataForm form)
  let memory ← if form = 2 then inside .dataMemory number else pure 0
  let offset ← inside .dataOffset constExpr
  let size ← inside .dataLength number
  fits .data size
  let init ← take size.toNat
  return { memory, offset := some offset, init }

/-- Groups of locals of one type, and the bytes of the entry that are left after them. `left` are the bytes that
are left before: a count that does not leave room for the type after it ends the entry. -/
def localGroups : (count : Nat) → (left : Int) → Decoder (List (Nat × ValueType) × Int)
  | 0, left => pure ([], left)
  | count + 1, left => do
    let (n, length) ← inside .localCount sizedNumber
    let left := left - (length + 1 : Nat)
    if left < 0 then Reader.fail .endOfInput
    let type := ValueType.mk (← inside .localType byte)
    if !type.isNumeric then Reader.fail (.localType type.code)
    let (groups, left) ← localGroups count left
    return ((n.toNat, type) :: groups, left)

/-- An entry of the code section: its size, the locals in groups of one type, and the body. -/
def codeItem : Decoder Code := do
  let size ← inside .codeSize number
  let (count, length) ← inside .localsCount sizedNumber
  let left : Int := (size.toNat : Int) - length
  if left < 0 then Reader.fail .endOfInput
  let (groups, left) ← localGroups count.toNat left
  let locals := Locals.ofGroups groups
  if UInt32.size ≤ locals.length then Reader.fail (.tooManyLocals locals.length)
  let body ← inside .body (take left.toNat)
  if body.getLast? ≠ some Opcode.end then Reader.fail .bodyUnterminated
  return { locals, body }

/-! ## Sections -/

/-- The place of a known section among the sections. The count of data segments stands between the elements and
the code. -/
def sectionOrder (id : UInt8) : Nat :=
  if id = 12 then 10
  else if id = 10 ∨ id = 11 then id.toNat + 1
  else id.toNat

/-- Reads the contents of the section `id` of `size` bytes into `m`. -/
def contents (id : UInt8) (size : Nat) (m : Module) : Decoder Module :=
  match id.toNat with
  | 0 | 12 => do skip size; return m
  | 1 => return { m with types := (← vector fun i => inside (.type i) funcType).map some }
  | 2 => return { m with imports := ← vector importItem }
  | 3 => return { m with functions := ← vector fun _ => inside .typeIndex number }
  | 4 => return { m with tables := ← vector fun _ => inside .table tableType }
  | 5 => return { m with memories := ← vector fun _ => inside .memory limits }
  | 6 => return { m with globals := ← vector fun i => inside (.global i) globalItem }
  | 7 => return { m with exports := ← vector exportItem }
  | 8 => return { m with start := some (← inside .startIndex number) }
  | 9 => return { m with elements := ← vector fun _ => inside .element elementItem }
  | 10 => return { m with code := ← vector fun i => inside (.code i) codeItem }
  | 11 => return { m with data := ← vector fun _ => inside .dataSegment dataItem }
  | _ => Reader.fail .sectionId

/-- Reads the contents of a section from `bytes`, which go on after it, and holds it to its size. -/
def framed (id : UInt8) (size : Nat) (m : Module) (bytes : List UInt8) : Except Fault Module :=
  match contents id size m bytes with
  | .error e => .error (.inside (.contents id) e)
  | .ok (m, rest) =>
    let taken := bytes.length - rest.length
    if taken = size then .ok m
    else .error (.inside (.contents id) (.sectionLength size taken))

/-- Reads sections into `m` until the bytes end. `last` is the place of the last known section. -/
def sections (m : Module) (last : Nat) (bytes : List UInt8) : Except Fault Module :=
  match bytes with
  | [] => .ok m
  | id :: bytes =>
    match _h : Leb128.decodeUnsigned 32 bytes with
    | (.error e, _) => .error (.inside (.sectionSize id) (.number e))
    | (.ok (size, _), rest) =>
      if !Reader.atLeast size rest then .error (.exceeds (.contents id) size rest.length)
      else if id ≠ 0 ∧ sectionOrder id ≤ last then .error (.sectionOrder id)
      else
        match framed id size m rest with
        | .error e => .error e
        | .ok m => sections m (if id = 0 then last else sectionOrder id) (rest.drop size)
termination_by bytes.length
decreasing_by
  have hrest := Leb128.length_decodeUnsigned_le 32 bytes .truncated
  rw [_h] at hrest
  simp only [List.length_drop, List.length_cons] at hrest ⊢
  omega

/-- The first four bytes of every module. -/
def magic : List UInt8 := [0x00, 0x61, 0x73, 0x6d]

/-- The version of the format. -/
def version : List UInt8 := [0x01, 0x00, 0x00, 0x00]

end Binary

/-- Reads a binary module. Function bodies are taken as they are. -/
def Module.decode (bytes : List UInt8) : Except Binary.Fault Module := do
  if bytes.take 4 ≠ Binary.magic then throw .magic
  if (bytes.drop 4).take 4 ≠ Binary.version then throw .version
  let m ← Binary.sections {} 0 (bytes.drop 8)
  if m.functions.length ≠ m.code.length then
    throw (.unpairedCode m.functions.length m.code.length)
  return m

end FlatWasm
