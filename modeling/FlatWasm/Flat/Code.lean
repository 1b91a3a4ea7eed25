import FlatWasm.Defect
import FlatWasm.Flat.Instr

/-!
# Flat code in the making

Code is put together from front to back. A jump forward is emitted before its target is known; it leaves a
`Slot`, and the slot is resolved when the code has reached the target. A slot names an instruction by its
position among the instructions, not a byte, so resolving it changes one target and nothing else.
-/

namespace FlatWasm.Flat

/-- The target of an instruction: of which instruction, and for a branch table of which entry. -/
structure Slot where
  position : Nat
  entry : Nat := 0
deriving DecidableEq, Repr

namespace Instr

/-- Changes the target in a list of table entries, of which `fallback` is the last. -/
def setEntryTarget (keep : UInt32) (entries : List Entry) (fallback : Entry) (entry : Nat)
    (target : UInt32) : Option Instr :=
  if entry < entries.length then
    some (.brTable keep (entries.modify entry fun e => { e with target }) fallback)
  else if entry = entries.length then some (.brTable keep entries { fallback with target })
  else none

/-- The instruction with another target; `none` if it has no such target. -/
def setTarget (i : Instr) (entry : Nat) (target : UInt32) : Option Instr :=
  match i, entry with
  | .jump _, 0 => some (.jump target)
  | .jumpIf _, 0 => some (.jumpIf target)
  | .jumpUnless _, 0 => some (.jumpUnless target)
  | .br keep dropped _, 0 => some (.br keep dropped target)
  | .brIf keep dropped _, 0 => some (.brIf keep dropped target)
  | .brTable keep entries fallback, entry => setEntryTarget keep entries fallback entry target
  | _, _ => none

end Instr

/-- Instructions, and the number of bytes that they take. -/
structure Code where
  instrs : Array Instr := #[]
  size : Nat := 0
deriving DecidableEq, Repr, Inhabited

namespace Code

/-- The offset of the next instruction. -/
def offset (c : Code) : UInt32 :=
  UInt32.ofNat c.size

/-- The slot of the next instruction. -/
def nextSlot (c : Code) (entry : Nat := 0) : Slot :=
  ⟨c.instrs.size, entry⟩

/-- One more instruction. -/
def emit (c : Code) (i : Instr) : Code :=
  match c with
  | ⟨instrs, size⟩ => ⟨instrs.push i, size + i.size⟩

/-- Gives a slot its target. -/
def resolve (c : Code) (slot : Slot) (target : UInt32) : Except Defect Code :=
  if h : slot.position < c.instrs.size then
    match c.instrs[slot.position].setTarget slot.entry target with
    | some i => .ok { c with instrs := c.instrs.set slot.position i }
    | none => .error .outOfBounds
  else .error .outOfBounds

/-- Gives slots the offset of the next instruction as their target. -/
def resolveHere (c : Code) (slots : List Slot) : Except Defect Code :=
  slots.foldlM (fun c slot => c.resolve slot c.offset) c

/-- The bytes. -/
def bytes (c : Code) : List UInt8 :=
  encode c.instrs.toList

end Code

end FlatWasm.Flat
