import FlatWasm.Binary.Decode

/-!
# Writing a binary module

The normal form of a module in the binary format: sections in order and only where they hold something, numbers
in their shortest form, adjacent locals of one type in one group, no custom sections.

A description that lacks a part cannot be written, and neither can an import of a kind that the format does not
have: both are defects of the description.
-/

namespace FlatWasm

namespace Binary

/-- What is written of a description, unless it has a defect. -/
abbrev Encoded := Except Defect (List UInt8)

/-- A part that has to be there. -/
def needed {α : Type} (x : Option α) : Except Defect α :=
  match x with
  | some a => .ok a
  | none => .error .absentPart

/-- A length in 32 bits. -/
def encodeLength (n : Nat) : List UInt8 :=
  Leb128.encodeWord (UInt32.ofNat n)

/-- Bytes after their length. -/
def encodeSized (bytes : List UInt8) : List UInt8 :=
  encodeLength bytes.length ++ bytes

/-- Items after their count. -/
def encodeVector {α : Type} (item : α → Encoded) (items : List α) : Encoded := do
  return encodeLength items.length ++ (← items.mapM item).flatten

def encodeName (s : String) : List UInt8 :=
  encodeSized s.toUTF8.data.toList

def encodeValueTypes (types : List ValueType) : List UInt8 :=
  encodeSized (types.map ValueType.code)

def encodeFuncType (t : Option FuncType) : Encoded := do
  let t ← needed t
  return 0x60 :: encodeValueTypes t.params ++ encodeValueTypes t.results

def encodeLimits (l : Limits) : List UInt8 :=
  match l.max with
  | none => 0x00 :: Leb128.encodeWord l.min
  | some max => 0x01 :: Leb128.encodeWord l.min ++ Leb128.encodeWord max

def encodeTableType (l : Limits) : List UInt8 :=
  ValueType.funcref.code :: encodeLimits l

def encodeGlobalType (t : GlobalType) : List UInt8 :=
  [t.valueType.code, if t.isMutable then 1 else 0]

def encodeConstExpr (e : Option ConstExpr) : Encoded := do
  let e ← needed e
  return e.opcode :: e.data ++ [Opcode.end]

def encodeImportDesc : ImportDesc → Encoded
  | .func typeIndex => .ok (Leb128.encodeWord typeIndex)
  | .table l => return encodeTableType (← needed l)
  | .memory l => return encodeLimits (← needed l)
  | .global t => return encodeGlobalType (← needed t)
  | .other kind => .error (.unknownExternKind kind.code)

def encodeImport (im : Import) : Encoded := do
  let desc ← encodeImportDesc im.desc
  return encodeName im.module ++ encodeName im.name ++ im.desc.kind.code :: desc

def encodeGlobal (g : Global) : Encoded := do
  let type ← needed g.type
  return encodeGlobalType type ++ (← encodeConstExpr g.init)

def encodeExport (e : Export) : List UInt8 :=
  encodeName e.name ++ e.kind.code :: Leb128.encodeWord e.index

def encodeElement (e : ElementSegment) : Encoded := do
  let offset ← encodeConstExpr e.offset
  let init ← encodeVector (fun i => .ok (Leb128.encodeWord i)) e.init
  if e.table = 0 then return Leb128.encodeWord 0 ++ offset ++ init
  else return Leb128.encodeWord 2 ++ Leb128.encodeWord e.table ++ offset ++ 0x00 :: init

def encodeData (d : DataSegment) : Encoded := do
  let offset ← encodeConstExpr d.offset
  let init := encodeSized d.init
  if d.memory = 0 then return Leb128.encodeWord 0 ++ offset ++ init
  else return Leb128.encodeWord 2 ++ Leb128.encodeWord d.memory ++ offset ++ init

def encodeCode (c : Code) : List UInt8 :=
  encodeSized (encodeLength c.locals.groups.length
    ++ c.locals.groups.flatMap (fun g => encodeLength g.count ++ [g.type.code]) ++ c.body)

/-- A section: its number, then the length of its contents, then the contents. -/
def encodeSection (id : UInt8) (contents : List UInt8) : List UInt8 :=
  id :: encodeSized contents

/-- A section of items, written only if there is one. -/
def encodeItems {α : Type} (id : UInt8) (item : α → Encoded) (items : List α) : Encoded :=
  if items.isEmpty then .ok [] else return encodeSection id (← encodeVector item items)

end Binary

open Binary in
/-- Writes a binary module. -/
def Module.encode (m : Module) : Except Defect (List UInt8) := do
  let types ← encodeItems 1 encodeFuncType m.types
  let imports ← encodeItems 2 encodeImport m.imports
  let functions ← encodeItems 3 (fun i => .ok (Leb128.encodeWord i)) m.functions
  let tables ← encodeItems 4 (fun l => .ok (encodeTableType l)) m.tables
  let memories ← encodeItems 5 (fun l => .ok (encodeLimits l)) m.memories
  let globals ← encodeItems 6 encodeGlobal m.globals
  let exports ← encodeItems 7 (fun e => .ok (encodeExport e)) m.exports
  let start := m.start.elim [] fun i => encodeSection 8 (Leb128.encodeWord i)
  let elements ← encodeItems 9 encodeElement m.elements
  let code ← encodeItems 10 (fun c => .ok (encodeCode c)) m.code
  let data ← encodeItems 11 encodeData m.data
  return magic ++ version ++ types ++ imports ++ functions ++ tables ++ memories ++ globals
    ++ exports ++ start ++ elements ++ code ++ data

end FlatWasm
