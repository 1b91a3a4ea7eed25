import FlatWasm.Instr
import FlatWasm.Typing.Frame

/-!
# Typing of instructions

The typing of a function body is a walk over its instructions with the frames that are open. Each instruction
either has a type, so that it takes and leaves operands of the innermost frame, or it opens, closes or leaves
frames.

Nothing here is about the code that a body is lowered to: whether a body is accepted depends on its types alone.
-/

namespace FlatWasm

/-- What an instruction takes and leaves, for those that only touch operands of fixed types. -/
def Instr.type? : Instr → Option FuncType
  | .nop => some {}
  | .call _ type => some type
  | .callIndirect _ type _ => some { type with params := type.params ++ [.i32] }
  | .typedSelect t => some { params := [t, t, .i32], results := [t] }
  | .localGet _ t | .globalGet _ t _ | .const32 t _ | .const64 t _ => some { results := [t] }
  | .localSet _ t | .globalSet _ t _ => some { params := [t] }
  | .localTee _ t => some (.unary t t)
  | .access a _ _ => some a.type
  | .memorySize _ => some { results := [.i32] }
  | .memoryGrow _ => some (.unary .i32 .i32)
  | .memoryCopy _ | .memoryFill _ => some { params := [.i32, .i32, .i32] }
  | .numeric op => some op.type
  | .truncate op => some op.type
  | .unreachable | .block _ | .loop _ | .ifThen _ | .elseMark | .endMark | .br _ | .brIf _
  | .brTable .. | .ret | .drop | .select => none

namespace Typing

/-- The open frames, of which there is at least one. -/
structure State where
  /-- The innermost frame. -/
  top : Frame
  /-- The frames around it, from the inside out. -/
  below : List Frame := []
deriving DecidableEq, Repr

namespace State

/-- At the start of a function. Parameters are locals, not operands. -/
def initial (results : List ValueType) : State :=
  { top := { kind := .function, inputs := [], outputs := results } }

/-- The open frames, from the inside out. -/
def frames (s : State) : List Frame :=
  s.top :: s.below

/-- How many frames are open. -/
def depth (s : State) : Nat :=
  s.below.length + 1

/-- Code at this point can run. -/
def live (s : State) : Bool :=
  s.top.live

/-- What a branch to a label carries. -/
def labelTypes (s : State) (label : Nat) : List ValueType :=
  (s.frames[label]?.map Frame.labelTypes).getD []

/-- How many operands there are above the start of the frame with a label. -/
def operandsAbove (s : State) (label : Nat) : Nat :=
  ((s.frames.take (label + 1)).flatMap Frame.operands).length

/-- All operands, the top one first. -/
def operands (s : State) : List ValueType :=
  s.frames.flatMap Frame.operands

/-- The operands as text from the bottom up, such as `[i32, f64]`. -/
def text (s : State) : String :=
  "[" ++ ", ".intercalate (s.operands.reverse.map ValueType.name) ++ "]"

/-- Changes the innermost frame. -/
def onTop (s : State) (f : Frame → Except Cause Frame) : Except Cause State := do
  return { s with top := ← f s.top }

/-- Opens a frame. What it takes moves into it. -/
def enter (s : State) (kind : FrameKind) (type : FuncType) : Except Cause State := do
  let parent ← s.top.popAll type.params
  let frame : Frame :=
    { kind
      inputs := type.params
      outputs := type.results
      operands := type.params.reverse
      dead := parent.unreachable || parent.dead }
  return { top := frame, below := parent :: s.below }

/-- Goes from the first branch of an `if` to the second. -/
def switch (s : State) : Except Cause State := do
  if s.top.kind ≠ .ifThen then throw .elseWithoutIf
  s.top.close
  return { s with
    top := { s.top with kind := .ifElse, unreachable := false, operands := s.top.inputs.reverse } }

/-- Closes the innermost frame; `none` if it was the function. An `if` that has no second branch leaves what it
takes. -/
def leave (s : State) : Except Cause (Option State) := do
  if s.top.kind = .ifThen ∧ s.top.inputs ≠ s.top.outputs then throw .ifWithoutElse
  s.top.close
  match s.below with
  | [] => return none
  | parent :: below => return some { top := parent.pushAll s.top.outputs, below }

/-- An unconditional branch that carries values of types `ts`. -/
def jump (s : State) (ts : List ValueType) : Except Cause State :=
  s.onTop fun f => do
    let f ← f.popAll ts
    return f.markUnreachable

/-- A conditional branch that carries values of types `ts`, and leaves them if it is not taken. -/
def jumpIf (s : State) (ts : List ValueType) : Except Cause State :=
  s.onTop fun f => do
    let (_, f) ← f.popExpect .i32
    f.apply ⟨ts, ts⟩

/-- Each target of a branch table takes as many values as the last one, and what is on the stack matches it. -/
def checkTargets (arity : Nat) (targets : List (List ValueType)) (f : Frame) :
    Except Cause Frame :=
  targets.foldlM (fun f ts => do
    if ts.length ≠ arity then throw (.tableArity ts.length arity)
    let (popped, f) ← f.popDown ts.reverse
    return f.pushAll popped.reverse) f

/-- A branch through a table. -/
def jumpTable (s : State) (labels : List Nat) (fallback : Nat) : Except Cause State :=
  let last := s.labelTypes fallback
  s.onTop fun f => do
    let (_, f) ← f.popExpect .i32
    let f ← checkTargets last.length (labels.map s.labelTypes ++ [last]) f
    let f ← f.popAll last
    return f.markUnreachable

/-- Two operands of one type and a condition. -/
def select (s : State) : Except Cause State :=
  s.onTop fun f => do
    let (_, f) ← f.popExpect .i32
    let (second, f) ← f.pop
    let (first, f) ← f.popExpect second
    return f.push (if second = .bottom then first else second)

def drop (s : State) : Except Cause State :=
  s.onTop fun f => do
    let (_, f) ← f.pop
    return f

/-- The frames after an instruction, in a function with these results; `none` after the end of the function. -/
def step (results : List ValueType) (i : Instr) (s : State) : Except Cause (Option State) :=
  match i with
  | .unreachable => return some { s with top := s.top.markUnreachable }
  | .block type => some <$> s.enter .block type
  | .loop type => some <$> s.enter .loop type
  | .ifThen type => do
    let s ← s.onTop fun f => Prod.snd <$> f.popExpect .i32
    some <$> s.enter .ifThen type
  | .elseMark => some <$> s.switch
  | .endMark => s.leave
  | .br label => some <$> s.jump (s.labelTypes label)
  | .brIf label => some <$> s.jumpIf (s.labelTypes label)
  | .brTable labels fallback => some <$> s.jumpTable labels fallback
  | .ret => some <$> s.jump results
  | .drop => some <$> s.drop
  | .select => some <$> s.select
  | i =>
    match i.type? with
    | some type => some <$> s.onTop fun f => f.apply type
    | none => return some s

end State

end Typing

end FlatWasm
