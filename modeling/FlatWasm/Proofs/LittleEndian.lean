import Mathlib
import FlatWasm.ByteOrder

/-!
# What a word of bytes holds

A word of `n` bytes holds exactly the numbers below `256 ^ n`: bytes never stand for a greater one, and a number
that is written and read back comes back modulo `256 ^ n`.
-/

namespace FlatWasm

theorem ofLittleEndian_lt (bytes : List UInt8) : ofLittleEndian bytes < 256 ^ bytes.length := by
  induction bytes with
  | nil => simp [ofLittleEndian]
  | cons b bytes ih =>
    have hb : b.toNat < 256 := b.toNat_lt
    simp only [ofLittleEndian, List.length_cons, Nat.pow_succ]
    omega

theorem ofLittleEndian_littleEndian (n v : Nat) :
    ofLittleEndian (littleEndian n v) = v % 256 ^ n := by
  induction n generalizing v with
  | zero => simp [littleEndian, ofLittleEndian, Nat.mod_one]
  | succ n ih =>
    have hb : (UInt8.ofNat v).toNat = v % 256 := UInt8.toNat_ofNat'
    rw [littleEndian, ofLittleEndian, ih, hb, Nat.pow_succ, Nat.mul_comm (256 ^ n) 256,
      Nat.mod_mul]

/-- Four bytes are a word of 32 bits. -/
theorem word32_ofLittleEndian {bytes : List UInt8} (h : bytes.length = 4) :
    word32 (UInt32.ofNat (ofLittleEndian bytes)) = bytes := by
  have hlt : ofLittleEndian bytes < 2 ^ 32 := by simpa [h] using ofLittleEndian_lt bytes
  rw [word32, UInt32.toNat_ofNat_of_lt' hlt, ← h, littleEndian_ofLittleEndian]

/-- Eight bytes are a word of 64 bits. -/
theorem word64_ofLittleEndian {bytes : List UInt8} (h : bytes.length = 8) :
    word64 (UInt64.ofNat (ofLittleEndian bytes)) = bytes := by
  have hlt : ofLittleEndian bytes < 2 ^ 64 := by simpa [h] using ofLittleEndian_lt bytes
  rw [word64, UInt64.toNat_ofNat_of_lt' hlt, ← h, littleEndian_ofLittleEndian]

end FlatWasm
