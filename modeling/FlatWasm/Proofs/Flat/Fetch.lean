import Mathlib
import FlatWasm.Proofs.Flow.Layout
import FlatWasm.Proofs.LittleEndian
import FlatWasm.Proofs.Readers

/-!
# Fetching an instruction

A machine that runs flat code has bytes and an offset.  `fetch` reads the instruction that starts there.  Reading gives
back what was written, `Instr.reads_encode`, so at every offset where `Spells` puts an instruction, this instruction is
fetched.

The one thing that does not fit into its immediates is the number of entries of a table with 2 ^ 32 of them.  Such a
table takes more bytes than an offset can count, and so code of fewer bytes has none.
-/

namespace FlatWasm

namespace Flat

open Reader

theorem reads_readWord (bytes : List UInt8) :
    Reads (readWord bytes.length) bytes (ofLittleEndian bytes) := by
  intro rest
  have hle : Reader.atLeast bytes.length (bytes ++ rest) = true := by
    rw [Reader.atLeast_iff, List.length_append]
    exact Nat.le_add_right _ _
  rw [readWord, if_pos hle, List.take_left, List.drop_left]

theorem reads_read32 (v : UInt32) : Reads read32 (word32 v) v := by
  have h : Reads (readWord 4) (word32 v) (ofLittleEndian (word32 v)) := by
    have hread := reads_readWord (word32 v)
    rwa [length_word32] at hread
  have hmod : v.toNat % 256 ^ 4 = v.toNat := Nat.mod_eq_of_lt v.toNat_lt
  have hmap : Reads read32 (word32 v) (UInt32.ofNat (ofLittleEndian (word32 v))) :=
    Reads.map (f := UInt32.ofNat) h
  rwa [word32, ofLittleEndian_littleEndian, hmod, UInt32.ofNat_toNat] at hmap

namespace Instr

theorem reads_readEntry (e : Entry) : Reads readEntry (encodeEntry e) e :=
  (reads_read32 e.drop).bind (reads_read32 e.target).map

theorem reads_read1 (f : UInt32 → Instr) (v : UInt32) : Reads (read1 f) (word32 v) (f v) :=
  (reads_read32 v).map

theorem reads_read3 (f : UInt32 → UInt32 → UInt32 → Instr) (a b c : UInt32) :
    Reads (read3 f) (word32 a ++ word32 b ++ word32 c) (f a b c) := by
  rw [List.append_assoc]
  exact (reads_read32 a).bind ((reads_read32 b).bind (reads_read32 c).map)

theorem reads_readReturn (keep dropped : UInt32) :
    Reads readReturn (word32 keep ++ word32 dropped) (.ret keep dropped) :=
  (reads_read32 keep).bind (reads_read32 dropped).map

theorem reads_readUse (kind : StoreKind) (origin : UInt8) (position : UInt32) :
    Reads (readUse kind) (origin :: word32 position) (.use kind origin position) := by
  have horigin : UInt8.ofNat (ofLittleEndian [origin]) = origin := by
    rw [ofLittleEndian, ofLittleEndian, Nat.mul_zero, Nat.add_zero, UInt8.ofNat_toNat]
  have h : Reads (readUse kind) ([origin] ++ word32 position)
      (.use kind (UInt8.ofNat (ofLittleEndian [origin])) position) :=
    (reads_readWord [origin]).bind (reads_read32 position).map
  rwa [horigin] at h

theorem reads_readTable (keep : UInt32) {entries : List Entry} (fallback : Entry)
    (h : entries.length < 2 ^ 32) :
    Reads readTable (word32 keep ++ word32 (UInt32.ofNat entries.length) ++
      entries.flatMap encodeEntry ++ encodeEntry fallback) (.brTable keep entries fallback) := by
  have hcount : (UInt32.ofNat entries.length).toNat = entries.length :=
    UInt32.toNat_ofNat_of_lt' h
  have hentries : Reads (Reader.replicate (UInt32.ofNat entries.length).toNat fun _ => readEntry)
      (entries.flatMap encodeEntry) entries := by
    rw [hcount]
    exact Reads.replicate reads_readEntry entries 0
  rw [List.append_assoc, List.append_assoc]
  refine (reads_read32 keep).bind ((reads_read32 _).bind (Reads.remaining ?_ ?_))
  · rw [hcount, List.length_append, length_flatMap_encodeEntry, encodeEntry, List.length_append,
      length_word32, length_word32]
    omega
  · exact hentries.bind (reads_readEntry fallback).map

theorem read_load_offset (kind : LoadKind) :
    read (0x18 + 2 * kind.index + 1) = read1 fun v => .load kind (some v) := by
  cases kind <;> rfl

theorem read_store_offset (width : StoreWidth) :
    read (0x2a + 2 * width.index + 1) = read1 fun v => .store width (some v) := by
  cases width <;> rfl

/-- The number of entries of a table fits into its immediate. -/
def Fits : Instr → Prop
  | .brTable _ entries _ => entries.length < 2 ^ 32
  | _ => True

/-- **Reading gives back what was written.** -/
theorem reads_encode (i : Instr) (h : i.Fits) : Reads (read i.opcode) i.encodeImmediates i := by
  cases i with
  | brTable keep entries fallback => exact reads_readTable keep fallback h
  | br keep dropped target => exact reads_read3 .br keep dropped target
  | brIf keep dropped target => exact reads_read3 .brIf keep dropped target
  | ret keep dropped => exact reads_readReturn keep dropped
  | use kind origin position => cases kind <;> exact reads_readUse _ origin position
  | globalGet width => cases width <;> exact reads_pure _
  | globalSet width => cases width <;> exact reads_pure _
  | load kind offset =>
    cases offset with
    | none => cases kind <;> exact reads_pure _
    | some v =>
      show Reads (read (0x18 + 2 * kind.index + 1)) (word32 v) _
      rw [read_load_offset]
      exact reads_read1 (fun v => .load kind (some v)) v
  | store width offset =>
    cases offset with
    | none => cases width <;> exact reads_pure _
    | some v =>
      show Reads (read (0x2a + 2 * width.index + 1)) (word32 v) _
      rw [read_store_offset]
      exact reads_read1 (fun v => .store width (some v)) v
  | const64 bits =>
    have h : Reads (readWord 8) (word64 bits) (ofLittleEndian (word64 bits)) := by
      have hread := reads_readWord (word64 bits)
      rwa [length_word64] at hread
    have hmod : bits.toNat % 256 ^ 8 = bits.toNat := Nat.mod_eq_of_lt bits.toNat_lt
    have hv : UInt64.ofNat (ofLittleEndian (word64 bits)) = bits := by
      rw [word64, ofLittleEndian_littleEndian, hmod, UInt64.ofNat_toNat]
    have hmap : Reads (read 0x37) (word64 bits)
        (.const64 (UInt64.ofNat (ofLittleEndian (word64 bits)))) :=
      Reads.map (f := fun n => Instr.const64 (UInt64.ofNat n)) h
    rwa [hv] at hmap
  | numeric op =>
    have hread : read op.code = pure (.numeric op) := by
      rw [read, dif_pos op.inRange]
    show Reads (read op.code) [] _
    rw [hread]
    exact reads_pure _
  | truncate op => fin_cases op <;> exact reads_pure _
  | unreachable => exact reads_pure _
  | drop => exact reads_pure _
  | select => exact reads_pure _
  | memorySize => exact reads_pure _
  | memoryGrow => exact reads_pure _
  | memoryCopy => exact reads_pure _
  | memoryFill => exact reads_pure _
  | locals v => exact reads_read1 .locals v
  | jump v => exact reads_read1 .jump v
  | jumpIf v => exact reads_read1 .jumpIf v
  | jumpUnless v => exact reads_read1 .jumpUnless v
  | callLocal v => exact reads_read1 .callLocal v
  | callImport v => exact reads_read1 .callImport v
  | callIndirect v => exact reads_read1 .callIndirect v
  | localGet v => exact reads_read1 .localGet v
  | localSet v => exact reads_read1 .localSet v
  | localTee v => exact reads_read1 .localTee v
  | const32 v => exact reads_read1 .const32 v

theorem fits_of_size {i : Instr} (h : i.size < 2 ^ 32) : i.Fits := by
  cases i with
  | brTable keep entries fallback =>
    show entries.length < 2 ^ 32
    rw [size, encode, encodeImmediates, List.length_cons, List.length_append, List.length_append,
      length_flatMap_encodeEntry] at h
    omega
  | _ => trivial

end Instr

/-- The instruction that starts at an offset. -/
def fetch (bytes : List UInt8) (pc : ℕ) : Option Instr :=
  match bytes.drop pc with
  | [] => none
  | op :: rest =>
    match Instr.read op rest with
    | .ok (i, _) => some i
    | .error _ => none

/-- **Where an instruction stands, it is fetched.** -/
theorem Spells.fetch {code is : List Instr} {pc : ℕ} {i : Instr} (h : Spells code pc (i :: is))
    (hsize : (encode code).length < 2 ^ 32) : fetch (encode code) pc = some i := by
  have hle := h.end_le
  rw [length_encode_cons] at hle
  have hfits : i.Fits := Instr.fits_of_size (by omega)
  obtain ⟨pre, post, rfl, rfl⟩ := h
  have hdrop : (encode (pre ++ (i :: is ++ post))).drop (encode pre).length =
      i.opcode :: (i.encodeImmediates ++ encode (is ++ post)) := by
    rw [Code.encode_append, List.drop_left, List.cons_append, encode, List.flatMap_cons]
    rfl
  rw [Flat.fetch, hdrop]
  show (match Instr.read i.opcode (i.encodeImmediates ++ encode (is ++ post)) with
    | .ok (i, _) => some i
    | .error _ => none) = some i
  rw [Instr.reads_encode i hfits]

end Flat

end FlatWasm
