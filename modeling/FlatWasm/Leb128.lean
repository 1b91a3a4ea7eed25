/-!
# LEB128 numbers

A number in groups of seven bits, the lowest first; every byte but the last has its high bit set. A number of
`bits` bits takes at most `maxLength bits` bytes, and what it denotes has to lie in the range of that width: a
longer form with redundant groups is accepted up to that length, and refused beyond it.

## Why there are two readers

Immediates of instructions are read from the bytes that follow an opcode, and the reader answers with the
number of bytes it took (`load`). Section framing is read from a source of bytes that is consumed as it goes,
and that may end in its own way (`decode`): the bytes of one number are first fetched from the source, then
loaded. What has been consumed shows also when the number is refused, so `decode` returns the rest in every case.

* `loadUnsigned`, `loadSigned`: the number at the start of a byte string, and its length.
* `decodeUnsigned`, `decodeSigned`: the same from a source, with what is left of it.
* `encodeUnsigned`, `encodeSigned`: the shortest form.
-/

namespace FlatWasm.Leb128

/-- Why a number cannot be read. -/
inductive Error where
  /-- The bytes end inside the number. -/
  | truncated
  /-- The number does not fit the width. -/
  | overflow (bits : Nat)
  /-- The source of the bytes failed. -/
  | source (reason : String)
deriving DecidableEq, Repr

def Error.message : Error → String
  | .truncated => "unexpected end of immediate"
  | .overflow bits => s!"overflows a {bits}-bit integer"
  | .source reason => reason

/-- The bytes of the longest number of a width. -/
def maxLength (bits : Nat) : Nat :=
  (bits + 6) / 7

/-- The high bit of a byte says that another one follows. -/
def continues (b : UInt8) : Bool :=
  128 ≤ b.toNat

/-- The groups of the number at the start of a byte string, taken together without regard to sign, and how many
bytes they take, of which there are at most `limit`. -/
def groups (bits : Nat) : (limit : Nat) → List UInt8 → Except Error (Nat × Nat)
  | 0, _ => .error (.overflow bits)
  | _ + 1, [] => .error .truncated
  | limit + 1, b :: bytes =>
    if continues b then
      match groups bits limit bytes with
      | .ok (value, length) => .ok (b.toNat - 128 + 128 * value, length + 1)
      | .error e => .error e
    else .ok (b.toNat, 1)

/-- The number that `length` groups denote when the top bit of the last one is a sign. -/
def signExtend (value length : Nat) : Int :=
  if 2 * value < Nat.pow 128 length then value else value - Nat.pow 128 length

/-- The unsigned number of `bits` bits at the start of `bytes`, and its length. -/
def loadUnsigned (bits : Nat) (bytes : List UInt8) : Except Error (Nat × Nat) :=
  match groups bits (maxLength bits) bytes with
  | .error e => .error e
  | .ok (value, length) =>
    if value < Nat.pow 2 bits then .ok (value, length) else .error (.overflow bits)

/-- The signed number of `bits` bits at the start of `bytes`, and its length. -/
def loadSigned (bits : Nat) (bytes : List UInt8) : Except Error (Int × Nat) :=
  match groups bits (maxLength bits) bytes with
  | .error e => .error e
  | .ok (value, length) =>
    let v := signExtend value length
    let bound : Int := Nat.pow 2 (bits - 1)
    if -bound ≤ v ∧ v < bound then .ok (v, length) else .error (.overflow bits)

/-- The bytes of one number from a source, and what is left of it: up to the first byte that does not continue,
and no more than `limit`. A source that ends before that answers `ending`. -/
def fetch (ending : Error) : (limit : Nat) → List UInt8 → Except Error (List UInt8) × List UInt8
  | 0, source => (.ok [], source)
  | _ + 1, [] => (.error ending, [])
  | limit + 1, b :: source =>
    if continues b then
      match fetch ending limit source with
      | (.ok taken, rest) => (.ok (b :: taken), rest)
      | (.error e, rest) => (.error e, rest)
    else (.ok [b], source)

/-- Loads what was fetched. -/
def fromSource {α : Type} (load : List UInt8 → Except Error α) (bits : Nat) (source : List UInt8)
    (ending : Error := .truncated) : Except Error α × List UInt8 :=
  match fetch ending (maxLength bits) source with
  | (.ok taken, rest) => (load taken, rest)
  | (.error e, rest) => (.error e, rest)

/-- The unsigned number next in a source, its length, and what is left of the source. -/
def decodeUnsigned (bits : Nat) (source : List UInt8) (ending : Error := .truncated) :
    Except Error (Nat × Nat) × List UInt8 :=
  fromSource (loadUnsigned bits) bits source ending

/-- The signed number next in a source, its length, and what is left of the source. -/
def decodeSigned (bits : Nat) (source : List UInt8) (ending : Error := .truncated) :
    Except Error (Int × Nat) × List UInt8 :=
  fromSource (loadSigned bits) bits source ending

/-- The shortest form of an unsigned number. -/
def encodeUnsigned (n : Nat) : List UInt8 :=
  if n < 128 then [UInt8.ofNat n]
  else UInt8.ofNat (n % 128 + 128) :: encodeUnsigned (n / 128)

/-- The shortest form of a signed number: it ends with the first group after which only copies of the sign, its
top bit, would follow. -/
def encodeSigned (v : Int) : List UInt8 :=
  if -64 ≤ v ∧ v < 64 then [UInt8.ofNat (v % 128).toNat]
  else UInt8.ofNat ((v % 128).toNat + 128) :: encodeSigned (v / 128)
termination_by v.natAbs
decreasing_by omega

/-- The shortest form of a 32-bit word. -/
def encodeWord (v : UInt32) : List UInt8 :=
  encodeUnsigned v.toNat

theorem length_fetch_le (ending : Error) (limit : Nat) (source : List UInt8) :
    (fetch ending limit source).2.length ≤ source.length := by
  induction limit generalizing source with
  | zero => simp [fetch]
  | succ limit ih =>
    cases source with
    | nil => simp [fetch]
    | cons b source =>
      have h := ih source
      rw [fetch]
      split
      · split
        · rename_i heq
          simp only [heq, List.length_cons] at h ⊢
          omega
        · rename_i heq
          simp only [heq, List.length_cons] at h ⊢
          omega
      · simp

theorem length_fromSource_le {α : Type} (load : List UInt8 → Except Error α) (bits : Nat)
    (source : List UInt8) (ending : Error) :
    (fromSource load bits source ending).2.length ≤ source.length := by
  have h := length_fetch_le ending (maxLength bits) source
  rw [fromSource]
  split
  · rename_i heq
    rwa [heq] at h
  · rename_i heq
    rwa [heq] at h

/-- What a decoder leaves is no longer than what it was given. -/
theorem length_decodeUnsigned_le (bits : Nat) (source : List UInt8) (ending : Error) :
    (decodeUnsigned bits source ending).2.length ≤ source.length :=
  length_fromSource_le _ bits source ending

end FlatWasm.Leb128
