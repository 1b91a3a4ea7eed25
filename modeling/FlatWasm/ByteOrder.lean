/-!
# Little-endian words

A word of `n` bytes is a list of `n` bytes, the lowest first. Both directions go through `Nat`, so that one
pair of laws serves every width: four and eight bytes in the stores, in the immediates of flat code and in the
floating-point immediates of the binary format.

The main statement here is `littleEndian_ofLittleEndian`: writing what was read gives the bytes back.
-/

namespace FlatWasm

/-- The lowest `n` bytes of `v`, the lowest first. -/
def littleEndian : (n v : Nat) → List UInt8
  | 0, _ => []
  | n + 1, v => UInt8.ofNat v :: littleEndian n (v / 256)

/-- The number that `bytes` stand for, the lowest byte first. -/
def ofLittleEndian : List UInt8 → Nat
  | [] => 0
  | b :: bytes => b.toNat + 256 * ofLittleEndian bytes

@[simp] theorem length_littleEndian (n v : Nat) : (littleEndian n v).length = n := by
  induction n generalizing v with
  | zero => rfl
  | succ n ih => simp [littleEndian, ih]

theorem littleEndian_ofLittleEndian (bytes : List UInt8) :
    littleEndian bytes.length (ofLittleEndian bytes) = bytes := by
  induction bytes with
  | nil => rfl
  | cons b bytes ih =>
    have hb : b.toNat < 256 := b.toNat_lt
    have hdiv : (b.toNat + 256 * ofLittleEndian bytes) / 256 = ofLittleEndian bytes := by omega
    have hlow : UInt8.ofNat (b.toNat + 256 * ofLittleEndian bytes) = b := by
      apply UInt8.toNat_inj.mp
      rw [UInt8.toNat_ofNat']
      omega
    rw [List.length_cons, ofLittleEndian, littleEndian, hdiv, ih, hlow]

/-- A 32-bit word as four bytes. -/
def word32 (v : UInt32) : List UInt8 :=
  littleEndian 4 v.toNat

/-- A 64-bit word as eight bytes. -/
def word64 (v : UInt64) : List UInt8 :=
  littleEndian 8 v.toNat

@[simp] theorem length_word32 (v : UInt32) : (word32 v).length = 4 :=
  length_littleEndian 4 _

@[simp] theorem length_word64 (v : UInt64) : (word64 v).length = 8 :=
  length_littleEndian 8 _

end FlatWasm
