/-!
# Locations

Where the entity behind an index lives: among the imports of its kind or among the definitions of the module,
and at which position of that list. In flat code a location is a kind byte and a position.
-/

namespace FlatWasm

/-- Supplied by an import, or defined by the module itself. -/
inductive Origin where
  | imported
  | defined
deriving DecidableEq, Repr

namespace Origin

/-- The kind byte. Zero is the kind of no location. -/
def code : Origin → UInt8
  | .imported => 1
  | .defined => 2

def ofCode? (code : UInt8) : Option Origin :=
  if code = 1 then some .imported else if code = 2 then some .defined else none

@[simp] theorem ofCode?_code (o : Origin) : ofCode? o.code = some o := by
  cases o <;> rfl

/-- The name of a kind byte, also of one that names no origin. -/
def nameOfCode (code : UInt8) : String :=
  match ofCode? code with
  | some .imported => "imported"
  | some .defined => "local"
  | none => "unknown"

end Origin

/-- A position among the imported or among the defined entities of a kind. -/
structure Location where
  origin : Origin
  position : UInt32
deriving DecidableEq, Repr

/-- A kind byte and a position as text, such as `local[3]`. -/
def Location.textOf (code : UInt8) (position : UInt32) : String :=
  s!"{Origin.nameOfCode code}[{position}]"

end FlatWasm
