import FlatWasm.Validation

/-!
# Frames

A frame is an open block, loop or branch of an `if`, or the function itself. It knows what types it takes and
leaves, and which operands the code inside it has pushed and not yet popped.

## Why every frame has its own operands

Code inside a frame never reaches the operands below it. With one operand stack for the whole function that is a
comparison of heights in front of every pop. With a stack per frame it is the shape of the data: a frame with no
operands has nothing to pop, whatever the frames around it hold.

After an unconditional jump the rest of a frame cannot run. Its operands are forgotten, and from then on it yields
an operand of type `bottom` whenever it has none left: code that cannot run may assume what it likes about what
the code before it would have pushed.
-/

namespace FlatWasm.Typing

/-- What a frame is. An `if` has two of them, one for each branch. -/
inductive FrameKind where
  | function | block | loop | ifThen | ifElse
deriving DecidableEq, Repr

def FrameKind.name : FrameKind → String
  | .function => "function"
  | .block => "block"
  | .loop => "loop"
  | .ifThen => "if"
  | .ifElse => "else"

/-- An open frame. -/
structure Frame where
  kind : FrameKind
  inputs : List ValueType
  outputs : List ValueType
  /-- The operands of this frame alone, the top one first. -/
  operands : List ValueType := []
  /-- The rest of the frame comes after an unconditional jump. -/
  unreachable : Bool := false
  /-- The frame was opened where code cannot run. -/
  dead : Bool := false
deriving DecidableEq, Repr

/-- Whether an operand of type `actual` can stand where `expected` is asked for. -/
def matchesType (expected actual : ValueType) : Bool :=
  actual == expected || actual == .bottom || expected == .bottom

namespace Frame

/-- Code at this point of the frame can run. -/
def live (f : Frame) : Bool :=
  !f.unreachable && !f.dead

/-- What a branch to the frame carries: a branch to a loop goes to its start. -/
def labelTypes (f : Frame) : List ValueType :=
  match f.kind with
  | .loop => f.inputs
  | _ => f.outputs

def push (f : Frame) (t : ValueType) : Frame :=
  { f with operands := t :: f.operands }

/-- Pushes `ts` in order, so that the last is on top. -/
def pushAll (f : Frame) (ts : List ValueType) : Frame :=
  { f with operands := ts.reverse ++ f.operands }

/-- Takes the top operand. -/
def pop (f : Frame) : Except Cause (ValueType × Frame) :=
  match f.operands with
  | t :: ts => .ok (t, { f with operands := ts })
  | [] => if f.unreachable then .ok (.bottom, f) else .error .underflow

/-- Takes the top operand, which must match a type. -/
def popExpect (f : Frame) (expected : ValueType) : Except Cause (ValueType × Frame) := do
  let (actual, f) ← f.pop
  if matchesType expected actual then return (actual, f)
  else throw (.operandType expected actual)

/-- Takes operands that match types, which are listed from the top down, as is the answer. -/
def popDown (f : Frame) : List ValueType → Except Cause (List ValueType × Frame)
  | [] => .ok ([], f)
  | t :: ts => do
    let (actual, f) ← f.popExpect t
    let (actuals, f) ← f.popDown ts
    return (actual :: actuals, f)

/-- Takes operands that match `ts`, of which the last is on top. -/
def popAll (f : Frame) (ts : List ValueType) : Except Cause Frame := do
  let (_, f) ← f.popDown ts.reverse
  return f

/-- Takes what an operator takes and pushes what it leaves. -/
def apply (f : Frame) (type : FuncType) : Except Cause Frame := do
  let f ← f.popAll type.params
  return f.pushAll type.results

/-- The rest of the frame cannot run. -/
def markUnreachable (f : Frame) : Frame :=
  { f with operands := [], unreachable := true }

/-- The frame leaves its outputs and nothing else. -/
def close (f : Frame) : Except Cause Unit := do
  let rest ← f.popAll f.outputs
  if rest.operands.isEmpty then return ()
  else
    throw (.frameHeight f.kind.name f.outputs.length (rest.operands.length + f.outputs.length))

end Frame

end FlatWasm.Typing
