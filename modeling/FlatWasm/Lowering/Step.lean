import FlatWasm.Instr.Read
import FlatWasm.Lowering.State
import FlatWasm.Typing.Step

/-!
# Lowering of instructions

Structured control becomes jumps. A block emits nothing; a loop notes where it starts; an `if` jumps over its
first branch when the condition is false. A branch keeps the values that its label carries and drops the operands
between them and the start of the frame; the shortest instruction that does so is taken.

## What is read off the frames

How many operands a branch drops is known from the frames before it: they hold the operands above the start of the
target, the values that the branch keeps and, if there is one, the condition. All other instructions are lowered
without looking at the frames, except that nothing is emitted where code cannot run.

Where a frame was opened in code that cannot run, nothing happens until it closes. In the rest of a frame after a
jump nothing happens until its `else` or `end`.
-/

namespace FlatWasm.Lowering

open Flat (Width)

/-- How a branch is taken. -/
inductive BranchKind where
  | always
  | ifNonzero
deriving DecidableEq, Repr

/-- A branch that drops operands, or has none to drop. -/
def BranchKind.instr (kind : BranchKind) (keep drop target : UInt32) : Flat.Instr :=
  match kind with
  | .always => if drop = 0 then .jump target else .br keep drop target
  | .ifNonzero => if drop = 0 then .jumpIf target else .brIf keep drop target

/-- Whether a global of a width in bytes takes eight. -/
def widthOf (bytes : UInt32) : Width :=
  if bytes = 8 then .eight else .four

/-- An offset that is written only if there is something to add. -/
def offsetOf (offset : UInt32) : Option UInt32 :=
  if offset = 0 then none else some offset

/-- The load or store that does an access. -/
def accessInstr (a : Access) (offset : UInt32) : Flat.Instr :=
  match a with
  | .load _ kind => .load kind (offsetOf offset)
  | .store _ width => .store width (offsetOf offset)

namespace State

/-- A return that keeps `keep` values and drops `drop` operands, and the locals below them. If it depends on a
condition, a jump leads over it. -/
def emitReturn (s : State) (scope : Scope) (kind : BranchKind) (keep drop : UInt32) : State :=
  let ret := Flat.Instr.ret keep (drop + scope.localCount)
  match kind with
  | .always => s.emit ret
  | .ifNonzero =>
    let after := s.code.size + (Flat.Instr.jumpUnless 0).size + ret.size
    (s.emit (.jumpUnless (UInt32.ofNat after))).emit ret

/-- A branch to the label at a depth, or out of the function. -/
def emitBranch (s : State) (scope : Scope) (kind : BranchKind) (depth : Nat)
    (keep drop : UInt32) : State :=
  match s.labels[depth]? with
  | none => s.emitReturn scope kind keep drop
  | some label =>
    (s.branchFrom depth s.code.nextSlot).emit (kind.instr keep drop label.target)

/-- The entry of a branch table for a depth, of which the branch drops `drop` operands. -/
def tableEntry (s : State) (scope : Scope) (depth : Nat) (drop : UInt32) : Flat.Entry :=
  match s.labels[depth]? with
  | none => { drop := drop + scope.localCount, target := Flat.returnTarget }
  | some label => { drop, target := label.target }

/-- A branch table; `dropTo` says how many operands a branch to a depth drops. -/
def emitTable (s : State) (scope : Scope) (keep : UInt32) (dropTo : Nat → UInt32)
    (depths : List Nat) (fallback : Nat) : State :=
  let entry depth := s.tableEntry scope depth (dropTo depth)
  let instr := Flat.Instr.brTable keep (depths.map entry) (entry fallback)
  let marked :=
    (depths ++ [fallback]).zipIdx.foldl
      (fun s (depth, i) => s.branchFrom depth (s.code.nextSlot i)) s
  marked.emit instr

/-- The start of an `if`. -/
def enterIf (s : State) : State :=
  (s.emit (.jumpUnless 0)).pushLabel (.ifThen s.code.nextSlot s.selected)

/-- From the first branch of an `if` to the second. Where the first can run to its end, a jump leads over the
second. -/
def switch (s : State) (live : Bool) : Except Defect State :=
  match s.labels with
  | { kind := .ifThen skip onEntry, exits, branches } :: labels => do
    let label : Label := { kind := .block, exits, branches }
    let s := { s with labels := label :: labels }
    let s := if live then (s.branchFrom 0 s.code.nextSlot).emit (.jump 0) else s
    let code ← s.code.resolveHere [skip]
    return { s with code, selected := onEntry }
  | _ => return s

/-- The end of a frame, of which `results` is the number of values that the function returns. -/
def leave (s : State) (scope : Scope) (live : Bool) (results : Nat) : Except Defect State :=
  match s.labels with
  | [] => return if live then s.emitReturn scope .always (UInt32.ofNat results) 0 else s
  | label :: labels => do
    let code ← s.code.resolveHere label.slots
    let falls := if live then some s.selected else none
    return { code, selected := label.selectionAfter falls, labels }

/-- Lowers an instruction that can run, where `frames` are open before it. -/
def emitInstr (s : State) (scope : Scope) (frames : Typing.State) (i : Instr) :
    Except Defect State :=
  -- what a branch drops once it has popped `popped` values
  let dropTo popped depth := UInt32.ofNat (frames.operandsAbove depth - popped)
  let count (ts : List ValueType) := UInt32.ofNat ts.length
  match i with
  | .nop => return s
  | .unreachable => return s.emit .unreachable
  | .block _ => return s.pushLabel .block
  -- a branch back to the loop can come with any stores selected
  | .loop _ => return s.forget.pushLabel (.loop s.code.offset)
  | .ifThen _ => return s.enterIf
  | .elseMark => s.switch true
  | .endMark => s.leave scope true scope.results.length
  | .br depth =>
    let carried := frames.labelTypes depth
    return s.emitBranch scope .always depth (count carried) (dropTo carried.length depth)
  | .brIf depth =>
    let carried := frames.labelTypes depth
    return s.emitBranch scope .ifNonzero depth (count carried) (dropTo (carried.length + 1) depth)
  | .brTable depths fallback =>
    let carried := frames.labelTypes fallback
    return s.emitTable scope (count carried) (dropTo (carried.length + 1)) depths fallback
  | .ret =>
    return s.emitReturn scope .always (count scope.results)
      (dropTo scope.results.length frames.below.length)
  -- a call can select any stores
  | .call callee _ =>
    return (s.emit (match callee.origin with
      | .imported => .callImport callee.position
      | .defined => .callLocal callee.position)).forget
  | .callIndirect typeIndex _ table =>
    return (s.emitOn .table table (.callIndirect typeIndex)).forget
  | .drop => return s.emit .drop
  | .select | .typedSelect _ => return s.emit .select
  | .localGet i _ => return s.emit (.localGet i)
  | .localSet i _ => return s.emit (.localSet i)
  | .localTee i _ => return s.emit (.localTee i)
  | .globalGet global _ width => return s.emitOn .global global (.globalGet (widthOf width))
  | .globalSet global _ width => return s.emitOn .global global (.globalSet (widthOf width))
  | .access a offset memory => return s.emitOn .memory memory (accessInstr a offset)
  | .memorySize memory => return s.emitOn .memory memory .memorySize
  -- a memory that has grown has to be selected anew
  | .memoryGrow memory =>
    let s := s.emitOn .memory memory .memoryGrow
    return { s with selected := s.selected.set .memory none }
  | .memoryCopy memory => return s.emitOn .memory memory .memoryCopy
  | .memoryFill memory => return s.emitOn .memory memory .memoryFill
  | .const32 _ bits => return s.emit (.const32 bits)
  | .const64 _ bits => return s.emit (.const64 bits)
  | .numeric op => return s.emit (.numeric op)
  | .truncate op => return s.emit (.truncate op)

/-- Lowers an instruction, where `frames` are open before it. -/
def step (s : State) (scope : Scope) (frames : Typing.State) (i : Instr) : Except Defect State :=
  if frames.top.dead then return s
  else if frames.top.unreachable then
    match i with
    | .elseMark => s.switch false
    | .endMark => s.leave scope false scope.results.length
    | _ => return s
  else s.emitInstr scope frames i

end State

end FlatWasm.Lowering
