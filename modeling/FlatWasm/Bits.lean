/-!
# Values as words

A value of any numeric type is handled as a word of 64 bits: an integer by its two's complement, a floating-point
number by its representation. Values of 32 bits have zeros above.
-/

namespace FlatWasm.Bits

/-- The two's complement of an integer in `width` bits. -/
def ofInt (width : Nat) (v : Int) : UInt64 :=
  UInt64.ofNat (BitVec.ofInt width v).toNat

/-- The low 32 bits. -/
def low32 (v : UInt64) : UInt64 :=
  v.toUInt32.toUInt64

end FlatWasm.Bits
