import FlatWasm.Binary.Decode
import FlatWasm.Config
import FlatWasm.Event
import FlatWasm.Module.Check

/-!
# Compilation

A module is compiled in stages: its sections are checked one by one, its index spaces are built, what its sections
say of each other is checked, and then its functions are lowered in order. The first fault ends the work.

`compile` is the result and `compilationEvents` is what a log shows on the way. They go through the same stages,
and neither depends on the other.
-/

namespace FlatWasm

/-- Why a module is not compiled. -/
inductive CompileError where
  /-- There is nothing to compile. -/
  | noSource
  | binary (cause : Binary.Fault)
  | shape (cause : ShapeError)
  | indexSpace (cause : IndexSpace.BuildError)
  | reference (cause : ReferenceError)
  | functionType (position : Nat) (cause : IndexSpace.Error)
  | canceled
  | function (cause : Function.Error)
deriving DecidableEq, Repr

namespace CompileError

def message : CompileError → String
  | .noSource => "source == nil"
  | .binary cause => cause.message
  | .shape cause => cause.message
  | .indexSpace cause => cause.message
  | .reference cause => cause.message
  | .functionType position cause => s!"function[{position}]: {cause.message}"
  | .canceled => "context canceled"
  | .function cause => cause.message

def classes : CompileError → List ErrorClass
  | .noSource | .shape _ => []
  | .binary cause => cause.classes
  | .indexSpace cause => cause.classes
  | .reference cause => cause.classes
  | .functionType _ cause => cause.classes
  | .canceled => [.canceled]
  | .function cause => cause.classes

end CompileError

/-- A module all of whose functions are lowered. -/
structure Compiled where
  module : Module
  space : IndexSpace
  functions : List Function
deriving DecidableEq, Repr

namespace Module

/-- The functions that a module defines, still raw. The code of each stands at its position in another section. -/
def rawFunctions (m : Module) (space : IndexSpace) :
    Except (Failure CompileError) (List Function) :=
  let codes := m.code.toArray
  m.functions.zipIdx.mapM fun (typeIndex, i) => do
    let type ← orRefuse (.functionType i) (space.type typeIndex)
    let type ← present type
    let code ← inBounds codes[i]?
    return {
      index := UInt32.ofNat space.functions.imported.length + UInt32.ofNat i
      type
      locals := code.locals
      body := .raw code.body }

/-- The stages before any function is lowered. -/
def prepare (m : Module) (config : Config) :
    Except (Failure CompileError) (IndexSpace × List Function) := do
  orRefuse .shape (m.checkShape config.maxPages)
  let space ← orRefuse .indexSpace m.indexSpace
  (m.checkReferences space).mapError (Failure.map .reference)
  let functions ← m.rawFunctions space
  return (space, functions)

/-- Lowers functions in order, as long as the work is not called off. -/
def lowerAll (space : IndexSpace) (canceled : Bool) (functions : List Function) :
    Except (Failure CompileError) (List Function) :=
  functions.mapM fun f => do
    if canceled then refuse .canceled
    (f.lower space).mapError (Failure.map .function)

/-- Compiles a module. -/
def compile (m : Module) (config : Config) (canceled : Bool := false) :
    Except (Failure CompileError) Compiled := do
  let (space, functions) ← m.prepare config
  let functions ← lowerAll space canceled functions
  return { module := m, space, functions }

/-- What a log shows while functions are lowered. Where `traced`, it shows every instruction and the code. -/
def loweringEvents (space : IndexSpace) (traced : Bool) : List Function → List Event
  | [] => []
  | f :: fs =>
    let before := if traced then (f.trace space).map .instruction else []
    match f.lower space with
    | .error _ => before
    | .ok g =>
      let size := f.body.bytes.length
      let code := g.body.bytes
      before ++ (if traced then [.code f.index size code] else []) ++
        .lowered f.index size code.length :: loweringEvents space traced fs

/-- What a log shows while a module is compiled. -/
def compilationEvents (m : Module) (config : Config) (canceled : Bool := false)
    (traced : Bool := false) : List Event :=
  match m.prepare config with
  | .ok (space, functions) => if canceled then [] else loweringEvents space traced functions
  | .error _ => []

end Module

/-- The module that bytes hold. -/
def decodeSource (source : Option (List UInt8)) : Except CompileError Module :=
  match source with
  | none => .error .noSource
  | some bytes => (Module.decode bytes).mapError .binary

/-- Compiles the module that bytes hold. -/
def load (source : Option (List UInt8)) (config : Config) (canceled : Bool := false) :
    Except (Failure CompileError) Compiled := do
  let m ← orRefuse id (decodeSource source)
  m.compile config canceled

end FlatWasm
