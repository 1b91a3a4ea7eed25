import FlatWasm.Flat.Code
import FlatWasm.Lowering.Selection

/-!
# Code and its open labels

While a body is lowered, code grows at its end, and jumps to the end of a block wait for the block to close. A
`Label` is a place that branches can go to: the start of a loop, which is known, or the end of a block, which is
not.

Only code that can run is lowered, so only frames that are opened where code can run have a label. The function
has none: to branch to it is to return.
-/

namespace FlatWasm.Lowering

open Flat (Slot StoreKind)

/-- Where a branch to a label goes, and what has to be done when its frame closes. -/
inductive LabelKind where
  | block
  /-- The offset of the first instruction of the loop. -/
  | loop (entry : UInt32)
  /-- The first branch of an `if`: the jump over it, and the stores that are selected where the condition is
  false. -/
  | ifThen (skip : Slot) (onEntry : Selection)
deriving DecidableEq, Repr

/-- A place that branches can go to. -/
structure Label where
  kind : LabelKind
  /-- The jumps to the end of the frame. -/
  exits : List Slot := []
  /-- What the branches to the end of the frame agree on, if there are any. -/
  branches : Option Selection := none
deriving DecidableEq, Repr

namespace Label

/-- One more jump to the end, from a point where `selected` is selected. -/
def addExit (l : Label) (slot : Slot) (selected : Selection) : Label :=
  { l with
    exits := l.exits ++ [slot]
    branches := some (l.branches.elim selected (·.meet selected)) }

/-- The target that a branch to the label is emitted with. The end of a block is filled in later. -/
def target (l : Label) : UInt32 :=
  match l.kind with
  | .loop entry => entry
  | _ => 0

/-- A branch at `slot` goes to the label. -/
def branchFrom (l : Label) (slot : Slot) (selected : Selection) : Label :=
  match l.kind with
  | .loop _ => l
  | _ => l.addExit slot selected

/-- The jumps to resolve when the frame closes. -/
def slots (l : Label) : List Slot :=
  match l.kind with
  | .ifThen skip _ => l.exits ++ [skip]
  | _ => l.exits

/-- What every way to the end of the frame agrees on; `falls` is what is selected where the code of the frame
runs through to its end. -/
def selectionAfter (l : Label) (falls : Option Selection) : Selection :=
  let skipped :=
    match l.kind with
    | .ifThen _ onEntry => [onEntry]
    | _ => []
  Selection.meetAll (falls.toList ++ l.branches.toList ++ skipped)

end Label

/-- The code that has been emitted, the stores that are selected at its end, and the open labels from the inside
out. -/
structure State where
  code : Flat.Code := {}
  selected : Selection := {}
  labels : List Label := []
deriving DecidableEq, Repr

namespace State

def emit (s : State) (i : Flat.Instr) : State :=
  { s with code := s.code.emit i }

/-- Selects a store, unless it is selected. -/
def use (s : State) (kind : StoreKind) (store : Location) : State :=
  if s.selected.get kind = some store then s
  else
    { s.emit (.use kind store.origin.code store.position) with
      selected := s.selected.set kind (some store) }

/-- Emits an instruction that works on a store. -/
def emitOn (s : State) (kind : StoreKind) (store : Location) (i : Flat.Instr) : State :=
  (s.use kind store).emit i

/-- From here on it is not known which stores are selected. -/
def forget (s : State) : State :=
  { s with selected := .unknown }

def pushLabel (s : State) (kind : LabelKind) : State :=
  { s with labels := { kind } :: s.labels }

/-- A branch at `slot` goes to the label at a depth. -/
def branchFrom (s : State) (depth : Nat) (slot : Slot) : State :=
  { s with labels := s.labels.modify depth (·.branchFrom slot s.selected) }

end State

end FlatWasm.Lowering
