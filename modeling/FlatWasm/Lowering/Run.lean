import FlatWasm.Lowering.Step

/-!
# Lowering of bodies

A body is read instruction by instruction. Each instruction is first typed and then lowered, so a body that is
refused is refused at the first instruction that is wrong, and nothing of the code that was emitted before it is
kept.
-/

namespace FlatWasm

/-- An instruction that has been read and typed. -/
structure Accepted where
  instr : Instr
  /-- The frames after it; none after the end of the function. -/
  next : Option Typing.State
  /-- What comes after it. -/
  rest : List UInt8

/-- What is reported where the instruction `op` cannot be read. The only part of it that a module may lack is its
type, and an `if` takes its condition and an indirect call its table index before the type matters, so a wrong
operand comes first. -/
def Typing.State.unread (s : Typing.State) (op : UInt8) : Failure Cause → Failure Cause
  | .error cause => .error cause
  | .defect d =>
    if op = Opcode.ifThen ∨ op = Opcode.callIndirect then
      match s.top.popExpect .i32 with
      | .error cause => .error cause
      | .ok _ => .defect d
    else .defect d

/-- Reads and types the instruction that starts with the byte `op` and goes on with `bytes`. -/
def Typing.State.accept (s : Typing.State) (scope : Scope) (op : UInt8) (bytes : List UInt8) :
    Checked Accepted :=
  match Instr.read scope s.depth op bytes with
  | .error e => .error (s.unread op e)
  | .ok (instr, rest) =>
    match s.step scope.results instr with
    | .error cause => refuse cause
    | .ok next => .ok { instr, next, rest }

theorem Typing.State.suffix_of_accept {s : Typing.State} {scope : Scope} {op : UInt8}
    {bytes : List UInt8} {a : Accepted} (h : s.accept scope op bytes = .ok a) :
    a.rest <:+ bytes := by
  unfold Typing.State.accept at h
  split at h
  · cases h
  · next instr rest hr =>
    split at h
    · cases h
    · cases h
      exact Instr.forward_read scope s.depth op hr

/-- A function whose body is worked on: its index, what its instructions can refer to, and the length of its
body. -/
structure Subject where
  index : UInt32
  scope : Scope
  size : Nat

namespace Subject

/-- The failure of the instruction `op`, with which the last `left` bytes of the body start. -/
def failure (subject : Subject) (op : UInt8) (left : Nat) : Failure Cause → Failure ValidationError :=
  Failure.map fun cause => ⟨subject.index, subject.size - left, op, cause⟩

/-- Types and lowers what is left of a body. -/
def lower (subject : Subject) (frames : Typing.State) (s : Lowering.State) (bytes : List UInt8) :
    Except (Failure ValidationError) Flat.Code :=
  match bytes with
  | [] => .error (subject.failure Opcode.end 0 (.error (.openFrames frames.depth)))
  | op :: bytes =>
    match _h : frames.accept subject.scope op bytes with
    | .error e => .error (subject.failure op (bytes.length + 1) e)
    | .ok { instr, next, rest } =>
      match s.step subject.scope frames instr with
      | .error d => .error (.defect d)
      | .ok s =>
        match next with
        | some frames => subject.lower frames s rest
        | none =>
          match rest with
          | [] => .ok s.code
          | op :: rest =>
            .error (subject.failure op (rest.length + 1)
              (.error (.trailingBytes (rest.length + 1))))
termination_by bytes.length
decreasing_by
  have : rest.length ≤ bytes.length := (Typing.State.suffix_of_accept _h).length_le
  simp only [List.length_cons]
  omega

/-- What is known before an instruction is typed. -/
structure TraceEntry where
  opcode : UInt8
  live : Bool
  operands : String

/-- The instructions of what is left of a body, up to the first that is refused. -/
def trace (subject : Subject) (frames : Typing.State) (bytes : List UInt8) : List TraceEntry :=
  match bytes with
  | [] => []
  | op :: bytes =>
    ⟨op, frames.live, frames.text⟩ ::
      match _h : frames.accept subject.scope op bytes with
      | .ok { next := some frames, rest, .. } => subject.trace frames rest
      | _ => []
termination_by bytes.length
decreasing_by
  have : rest.length ≤ bytes.length := (Typing.State.suffix_of_accept _h).length_le
  simp only [List.length_cons]
  omega

end Subject

end FlatWasm
