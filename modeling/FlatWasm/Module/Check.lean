import FlatWasm.ConstExpr
import FlatWasm.Text.Quoted

/-!
# Checking a module

Everything about a module that can be said without reading function bodies. `Module.checkShape` looks at each
section by itself: value types, limits, the correlation of functions and code. `Module.checkReferences` follows
what one section says of another through the index spaces: initializers, elements, exports, the start function.

The first fault in section order is the one reported, so both are chains of checks over the sections.
-/

namespace FlatWasm

/-- What is wrong with an import by itself. -/
inductive ImportError where
  | missing (what : String)
  | limits (what : String) (cause : Limits.Error)
  | valueType (type : ValueType)
deriving DecidableEq, Repr

def ImportError.message : ImportError → String
  | .missing what => s!"missing {what} type"
  | .limits what cause => cause.message what
  | .valueType type => s!"invalid value type {type.hex}"

/-- What is wrong with a section by itself. -/
inductive ShapeError where
  | missingType (position : Nat)
  | typeValue (position : Nat) (type : ValueType)
  /-- There are not as many functions as there is code for. -/
  | unpairedCode (functions code : Nat)
  | localValue (position : Nat) (type : ValueType)
  | inImport (position : Nat) (module name : String) (cause : ImportError)
  | inMemory (position : Nat) (cause : Limits.Error)
  | inTable (position : Nat) (cause : Limits.Error)
  | missingGlobalType (position : Nat)
  | globalValue (position : Nat) (type : ValueType)
deriving DecidableEq, Repr

def ShapeError.message : ShapeError → String
  | .missingType i => s!"type[{i}] is missing"
  | .typeValue i t => s!"type[{i}] has invalid value type {t.hex}"
  | .unpairedCode functions code =>
    s!"function and code section have inconsistent lengths: {functions} != {code}"
  | .localValue i t => s!"code[{i}] has local of invalid value type {t.hex}"
  | .inImport i module name cause => s!"import[{i}] {module}.{name}: {cause.message}"
  | .inMemory i cause => s!"memory[{i}]: " ++ cause.message "memory"
  | .inTable i cause => s!"table[{i}]: " ++ cause.message "table"
  | .missingGlobalType i => s!"global[{i}] is missing its type"
  | .globalValue i t => s!"global[{i}] has invalid value type {t.hex}"

/-- Every type of the list is numeric; otherwise the first that is not. -/
def checkNumeric {ε : Type} (error : ValueType → ε) (types : List ValueType) : Except ε Unit :=
  match types.find? (!·.isNumeric) with
  | none => .ok ()
  | some t => .error (error t)

/-- A description that is there and whose limits are within `ceiling`. -/
def checkImportLimits (what : String) (ceiling : UInt32) :
    Option Limits → Except ImportError Unit
  | none => .error (.missing what)
  | some l => (l.check ceiling).mapError (.limits what)

/-- What an import describes is there and within bounds. -/
def ImportDesc.check (memoryCeiling : UInt32) : ImportDesc → Except ImportError Unit
  | .memory limits => checkImportLimits "memory" memoryCeiling limits
  | .table limits => checkImportLimits "table" Limits.maxEntries limits
  | .global none => .error (.missing "global")
  | .global (some type) => checkNumeric .valueType [type.valueType]
  | .func _ | .other _ => .ok ()

namespace Module

/-- Runs a check on every item of a section, with its position. -/
def checkEach {ε α : Type} (section_ : List α) (check : Nat → α → Except ε Unit) : Except ε Unit :=
  section_.zipIdx.forM fun (a, i) => check i a

/-- Each section is sound by itself. No memory is declared beyond `memoryCeiling` pages. -/
def checkShape (m : Module) (memoryCeiling : UInt32) : Except ShapeError Unit := do
  checkEach m.types fun i t =>
    match t with
    | none => .error (.missingType i)
    | some t => checkNumeric (.typeValue i) (t.params ++ t.results)
  if m.functions.length ≠ m.code.length then
    throw (.unpairedCode m.functions.length m.code.length)
  checkEach m.code fun i c => checkNumeric (.localValue i) c.locals.types
  checkEach m.imports fun i im =>
    (im.desc.check memoryCeiling).mapError (.inImport i im.module im.name)
  checkEach m.memories fun i l => (l.check memoryCeiling).mapError (.inMemory i)
  checkEach m.tables fun i l => (l.check Limits.maxEntries).mapError (.inTable i)
  checkEach m.globals fun i g =>
    match g.type with
    | none => .error (.missingGlobalType i)
    | some t => checkNumeric (.globalValue i) [t.valueType]

end Module

/-- What is wrong with a reference from one section to another. -/
inductive ReferenceError where
  | inGlobal (position : Nat) (cause : ConstExpr.Error)
  | elementTable (position : Nat) (cause : IndexSpace.Error)
  | elementOffset (position : Nat) (cause : ConstExpr.Error)
  | elementInit (position entry : Nat) (cause : IndexSpace.Error)
  | dataMemory (position : Nat) (cause : IndexSpace.Error)
  | dataOffset (position : Nat) (cause : ConstExpr.Error)
  | exportTwice (name : String)
  | exportIndex (name : String) (cause : IndexSpace.Error)
  | exportKind (name : String) (kind : ExternKind)
  | start (cause : IndexSpace.Error)
  /-- The start function takes or returns something. -/
  | startType (type : FuncType)
deriving DecidableEq, Repr

namespace ReferenceError

def message : ReferenceError → String
  | .inGlobal i cause => s!"global[{i}]: {cause.message}"
  | .elementTable i cause => s!"element[{i}]: {cause.message}"
  | .elementOffset i cause => s!"element[{i}]: {cause.message}"
  | .elementInit i j cause => s!"element[{i}].init[{j}]: {cause.message}"
  | .dataMemory i cause => s!"data[{i}]: {cause.message}"
  | .dataOffset i cause => s!"data[{i}]: {cause.message}"
  | .exportTwice name => s!"export {Text.quote name} declared twice"
  | .exportIndex name cause => s!"export {Text.quote name}: {cause.message}"
  | .exportKind name kind => s!"export {Text.quote name}: invalid type {kind.hex}"
  | .start cause => s!"start function: {cause.message}"
  | .startType type => s!"start function must have an empty signature, but was {type.text}"

def classes : ReferenceError → List ErrorClass
  | .inGlobal _ cause | .elementOffset _ cause | .dataOffset _ cause => cause.classes
  | .elementTable _ cause | .elementInit _ _ cause | .dataMemory _ cause | .exportIndex _ cause
  | .start cause => cause.classes
  | .exportTwice _ | .exportKind .. | .startType _ => []

end ReferenceError

namespace IndexSpace

/-- Where the entity of a kind at an index lives; `none` for a kind that has no namespace. -/
def locate? (space : IndexSpace) (kind : ExternKind) (i : UInt32) :
    Option (Except Error Location) :=
  if kind = .func then some ((space.function i).map Prod.fst)
  else if kind = .table then some ((space.table i).map Prod.fst)
  else if kind = .memory then some ((space.memory i).map Prod.fst)
  else if kind = .global then some ((space.global i).map Prod.fst)
  else none

end IndexSpace

namespace Module

/-- The index that an export names exists. -/
def checkExport (space : IndexSpace) (e : Export) : Except ReferenceError Unit :=
  match space.locate? e.kind e.index with
  | none => .error (.exportKind e.name e.kind)
  | some (.ok _) => .ok ()
  | some (.error cause) => .error (.exportIndex e.name cause)

/-- No two exports have one name, and each names something. `seen` are the names of those before. -/
def checkExports (space : IndexSpace) (seen : List String) :
    List Export → Except ReferenceError Unit
  | [] => .ok ()
  | e :: exports => do
    if e.name ∈ seen then throw (.exportTwice e.name)
    checkExport space e
    checkExports space (e.name :: seen) exports

/-- The start function exists, takes nothing and returns nothing. -/
def checkStart (space : IndexSpace) (start : UInt32) : Except (Failure ReferenceError) Unit := do
  let (_, type) ← orRefuse .start (space.function start)
  let type ← present type
  if type ≠ {} then refuse (.startType type)

/-- What the sections refer to exists and has the right type. -/
def checkReferences (m : Module) (space : IndexSpace) : Except (Failure ReferenceError) Unit := do
  checkEach m.globals fun i g => do
    let type ← present g.type
    (ConstExpr.check g.init type.valueType space).mapError (·.map (.inGlobal i))
  checkEach m.elements fun i e => do
    let _ ← orRefuse (.elementTable i) (space.table e.table)
    (ConstExpr.check e.offset .i32 space).mapError (·.map (.elementOffset i))
    checkEach e.init fun j f =>
      orRefuse (.elementInit i j) ((space.function f).map fun _ => ())
  checkEach m.data fun i d => do
    let _ ← orRefuse (.dataMemory i) (space.memory d.memory)
    (ConstExpr.check d.offset .i32 space).mapError (·.map (.dataOffset i))
  orRefuse id (checkExports space [] m.exports)
  match m.start with
  | none => return ()
  | some start => checkStart space start

end Module

end FlatWasm
