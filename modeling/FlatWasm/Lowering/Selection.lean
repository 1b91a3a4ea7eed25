import FlatWasm.Flat.Instr

/-!
# Selected stores

Flat code works on one selected memory, table and global. While code is emitted, a `Selection` says which stores
are certainly selected at the point that has been reached; where it says nothing, a store has to be selected
before it is used.

Where paths meet, what is certain is what all of them agree on.
-/

namespace FlatWasm.Lowering

open Flat (StoreKind)

/-- The stores that are certainly selected. -/
structure Selection where
  memory : Option Location := none
  table : Option Location := none
  global : Option Location := none
deriving DecidableEq, Repr

namespace Selection

/-- Nothing is certain. -/
def unknown : Selection := {}

def get (s : Selection) : StoreKind → Option Location
  | .memory => s.memory
  | .table => s.table
  | .global => s.global

def set (s : Selection) (kind : StoreKind) (store : Option Location) : Selection :=
  match kind with
  | .memory => { s with memory := store }
  | .table => { s with table := store }
  | .global => { s with global := store }

/-- What two paths agree on. -/
def meet (a b : Selection) : Selection :=
  { memory := if a.memory = b.memory then a.memory else none
    table := if a.table = b.table then a.table else none
    global := if a.global = b.global then a.global else none }

/-- What all of some paths agree on. Nothing is certain at a point that no path reaches. -/
def meetAll : List Selection → Selection
  | [] => unknown
  | s :: ss => ss.foldl meet s

theorem get_set_self (s : Selection) (kind : StoreKind) (store : Option Location) :
    (s.set kind store).get kind = store := by
  cases kind <;> rfl

theorem get_set_of_ne (s : Selection) {kind kind' : StoreKind} (h : kind' ≠ kind)
    (store : Option Location) : (s.set kind store).get kind' = s.get kind' := by
  cases kind <;> cases kind' <;> simp_all [get, set]

theorem get_meet_eq_some {a b : Selection} {kind : StoreKind} {l : Location} :
    (a.meet b).get kind = some l ↔ a.get kind = some l ∧ b.get kind = some l := by
  cases kind <;> simp only [meet, get] <;> split <;> grind

end Selection

end FlatWasm.Lowering
