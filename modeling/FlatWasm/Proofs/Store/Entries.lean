import Mathlib
import FlatWasm.Proofs.LittleEndian
import FlatWasm.Proofs.Store.Writing
import FlatWasm.Store.Table

/-!
# Entries of a table

A table is bytes, and an entry is four of them.  There are two ways to let entries refer to functions: one entry at a time,
and all the entries of an element segment at once, as bytes that are written where the offset of the segment says.  Both come
down to writing the word of each function at the position of its entry.

* `Table.get?_of_setSlot?`: a word that is written is what its entry holds, and no other entry changes.
* `Table.setAll?_eq`: entries that are set one after the other are the bytes of a segment, written at once.
* `Table.get?_of_setAll?`: what each entry refers to afterwards.

The word of a function is its index plus one, so the greatest index has the word of an entry that refers to none
(`Table.referent_slotOf`).  No function has that index: of fewer than `2 ^ 32` functions, none does.
-/

namespace FlatWasm

/-! ## Bytes -/

namespace Sparse

variable {s t : Sparse} {position count : ℕ}

/-- What is written in two parts is written at once. -/
theorem overwrite_append (s : Sparse) (position : ℕ) (front back : List UInt8) :
    s.overwrite position (front ++ back) =
      (s.overwrite position front).overwrite (position + front.length) back := by
  induction front generalizing s position with
  | nil => rfl
  | cons b front ih =>
    rw [List.cons_append, overwrite, overwrite, ih, List.length_cons, Nat.add_assoc,
      Nat.add_comm 1 front.length]

theorem slice_congr (h : ∀ i, position ≤ i → i < position + count → t.byte i = s.byte i) :
    t.slice position count = s.slice position count := by
  refine List.map_congr_left fun i hi => ?_
  obtain ⟨hle, hlt⟩ := List.mem_range'_1.mp hi
  exact h i hle hlt

/-- What is written is found where it was written. -/
theorem slice_overwrite {payload : List UInt8} (h : position + payload.length ≤ s.length) :
    (s.overwrite position payload).slice position payload.length = payload := by
  refine List.ext_getElem (length_slice _ _ _) fun k hk hk' => ?_
  have hbyte : (s.overwrite position payload).byte (position + k) = payload[k] := by
    have hoverwrite := byte_overwrite (w := ⟨position, payload⟩) h (position + k)
    rw [Placed.byte?, if_pos (Nat.le_add_right position k), Nat.add_sub_cancel_left,
      List.getElem?_eq_getElem hk'] at hoverwrite
    exact hoverwrite
  simp only [slice, List.getElem_map, List.getElem_range', Nat.one_mul, hbyte]

/-- Bytes beside what is written are as before. -/
theorem slice_overwrite_of_disjoint {payload : List UInt8} {position' : ℕ}
    (h : position + payload.length ≤ s.length)
    (hapart : position' + count ≤ position ∨ position + payload.length ≤ position') :
    (s.overwrite position payload).slice position' count = s.slice position' count := by
  refine slice_congr fun i hle hlt => ?_
  have hnone : Placed.byte? ⟨position, payload⟩ i = none := by
    rw [Placed.byte?_eq_none_iff]
    rintro ⟨hle', hlt'⟩
    simp only [Placed.stop] at hle' hlt'
    omega
  have hoverwrite := byte_overwrite (w := ⟨position, payload⟩) h i
  rwa [hnone] at hoverwrite

end Sparse

theorem ofLittleEndian_word32 (v : UInt32) : UInt32.ofNat (ofLittleEndian (word32 v)) = v := by
  have hmod : v.toNat % 256 ^ 4 = v.toNat := Nat.mod_eq_of_lt v.toNat_lt
  rw [word32, ofLittleEndian_littleEndian, hmod, UInt32.ofNat_toNat]

/-! ## Entries and their words -/

namespace Table

variable {t t' : Table} {i j k slot function : UInt32}

/-- The table has an entry. -/
def Has (t : Table) (i : UInt32) : Prop :=
  positionOf i + 4 ≤ t.store.length

instance (t : Table) (i : UInt32) : Decidable (t.Has i) :=
  inferInstanceAs (Decidable (_ ≤ _))

/-- The function that a word stands for. -/
def referent (slot : UInt32) : Option UInt32 :=
  if slot = 0 then none else some (slot - 1)

/-- **The word of a function stands for it**, unless it is the greatest index. -/
theorem referent_slotOf (function : UInt32) :
    referent (slotOf function) = if function = 0xFFFFFFFF then none else some function := by
  rw [referent, slotOf]
  by_cases h : function = 0xFFFFFFFF
  · rw [if_pos h, h]
    rfl
  · have hne : function + 1 ≠ 0 := fun hzero => h (eq_neg_of_add_eq_zero_left hzero)
    rw [if_neg hne, if_neg h, UInt32.add_sub_cancel]

theorem length_mul_le (t : Table) : t.length.toNat * 4 ≤ t.store.length := by
  have hmod : t.length.toNat = t.store.length / 4 % 2 ^ 32 := UInt32.toNat_ofNat'
  have hle := Nat.mod_le (t.store.length / 4) (2 ^ 32)
  omega

theorem has_of_lt_length (h : i < t.length) : t.Has i := by
  have hlt := UInt32.lt_iff_toNat_lt.mp h
  have hle := t.length_mul_le
  show i.toNat * 4 + 4 ≤ t.store.length
  omega

theorem get?_of_has (h : t.Has i) : t.get? i =
    referent (UInt32.ofNat (ofLittleEndian (t.store.bytes.slice (positionOf i) 4))) := by
  have hbytes : t.store.bytesAt? (positionOf i) 4 =
      some (t.store.bytes.slice (positionOf i) 4) := if_pos h
  rw [get?, slot?, hbytes]
  rfl

theorem get?_of_not_has (h : ¬t.Has i) : t.get? i = none := by
  have hbytes : t.store.bytesAt? (positionOf i) 4 = none := if_neg h
  rw [get?, slot?, hbytes]
  rfl

/-- An entry is its four bytes. -/
theorem get?_congr (hhas : t'.Has i ↔ t.Has i)
    (hslice : t'.store.bytes.slice (positionOf i) 4 = t.store.bytes.slice (positionOf i) 4) :
    t'.get? i = t.get? i := by
  by_cases h : t.Has i
  · rw [get?_of_has h, get?_of_has (hhas.mpr h), hslice]
  · rw [get?_of_not_has h, get?_of_not_has fun h' => h (hhas.mp h')]

/-- A word is written where there is an entry. -/
theorem setSlot?_eq_some_iff : t.setSlot? i slot = some t' ↔
    t.Has i ∧ t' = ⟨t.store.put (positionOf i) (word32 slot)⟩ := by
  have hput? : t.store.put? (positionOf i) (word32 slot) = if t.Has i then
      some (t.store.put (positionOf i) (word32 slot)) else none := by
    rw [Linear.put?, length_word32]
    rfl
  rw [setSlot?, hput?]
  by_cases h : t.Has i
  · rw [if_pos h]
    exact ⟨fun h' => ⟨h, (Option.some.inj h').symm⟩, fun h' => congrArg some h'.2.symm⟩
  · rw [if_neg h]
    exact ⟨fun h' => (Option.some_ne_none t' h'.symm).elim, fun h' => absurd h'.1 h⟩

theorem has_of_setSlot? (h : t.setSlot? i slot = some t') : t'.Has j ↔ t.Has j := by
  obtain ⟨-, rfl⟩ := setSlot?_eq_some_iff.mp h
  rw [Has, Has, Linear.length_put]

theorem length_of_setSlot? (h : t.setSlot? i slot = some t') : t'.length = t.length := by
  obtain ⟨-, rfl⟩ := setSlot?_eq_some_iff.mp h
  rw [length, length, Linear.length_put]

/-- **What is written into an entry is found there**, and no other entry changes. -/
theorem get?_of_setSlot? (h : t.setSlot? i slot = some t') (j : UInt32) :
    t'.get? j = if i = j then referent slot else t.get? j := by
  have hhas := has_of_setSlot? h (j := j)
  obtain ⟨hi, rfl⟩ := setSlot?_eq_some_iff.mp h
  have hfits : positionOf i + (word32 slot).length ≤ t.store.bytes.length := by
    rw [length_word32]
    exact hi
  by_cases hij : i = j
  · subst hij
    have hslice := Sparse.slice_overwrite hfits
    rw [length_word32] at hslice
    rw [if_pos rfl, get?_of_has (hhas.mpr hi), Linear.put, hslice, ofLittleEndian_word32]
  · have hne : i.toNat ≠ j.toNat := fun heq => hij (UInt32.toNat_inj.mp heq)
    rw [if_neg hij]
    refine get?_congr hhas (Sparse.slice_overwrite_of_disjoint hfits ?_)
    rw [length_word32]
    show j.toNat * 4 + 4 ≤ i.toNat * 4 ∨ i.toNat * 4 + 4 ≤ j.toNat * 4
    omega

/-! ## Entries one after the other -/

/-- Lets entries refer to functions, one after the other from an entry on; none if there is no such entry for one of them. -/
def setAll? (t : Table) (k : UInt32) : List UInt32 → Option Table
  | [] => some t
  | function :: functions => (t.set? k function).bind (·.setAll? (k + 1) functions)

/-- The words of functions, one after the other. -/
def slots (functions : List UInt32) : List UInt8 :=
  functions.flatMap fun function => word32 (slotOf function)

theorem length_slots (functions : List UInt32) : (slots functions).length = functions.length * 4 := by
  induction functions with
  | nil => rfl
  | cons function functions ih =>
    rw [slots] at ih
    rw [slots, List.flatMap_cons, List.length_append, ih, length_word32, List.length_cons]
    omega

section SetAll

variable {functions : List UInt32}

/-- The first entry, and the room that is left for the others. -/
theorem room_of_cons (h : k.toNat + (function :: functions).length ≤ t.length.toNat) :
    k < t.length ∧ (k + 1).toNat = k.toNat + 1 ∧ (k + 1).toNat + functions.length ≤ t.length.toNat := by
  have hlt := t.length.toNat_lt
  rw [List.length_cons] at h
  have hsucc : (k + 1).toNat = k.toNat + 1 := by
    rw [UInt32.toNat_add, UInt32.toNat_one]
    exact Nat.mod_eq_of_lt (by omega)
  refine ⟨UInt32.lt_iff_toNat_lt.mpr (by omega), hsucc, by omega⟩

/-- **Entries that are set one after the other are bytes that are written at once.** -/
theorem setAll?_eq (h : k.toNat + functions.length ≤ t.length.toNat) :
    t.setAll? k functions = some ⟨t.store.put (positionOf k) (slots functions)⟩ := by
  induction functions generalizing t k with
  | nil => rfl
  | cons function functions ih =>
    obtain ⟨hlt, hsucc, hrest⟩ := room_of_cons h
    have hset : t.setSlot? k (slotOf function) =
        some ⟨t.store.put (positionOf k) (word32 (slotOf function))⟩ :=
      setSlot?_eq_some_iff.mpr ⟨has_of_lt_length hlt, rfl⟩
    rw [← length_of_setSlot? hset] at hrest
    have hposition : positionOf (k + 1) = positionOf k + (word32 (slotOf function)).length := by
      rw [length_word32]
      show (k + 1).toNat * 4 = k.toNat * 4 + 4
      omega
    rw [setAll?, set?, hset, Option.bind_some, ih hrest, hposition]
    simp only [Linear.put, slots, List.flatMap_cons, Sparse.overwrite_append]

theorem exists_of_setAll?_cons (h : t.setAll? k (function :: functions) = some t') :
    ∃ t₁, t.setSlot? k (slotOf function) = some t₁ ∧ t₁.setAll? (k + 1) functions = some t' :=
  Option.bind_eq_some_iff.mp h

/-- No other entries change. -/
theorem get?_of_setAll?_of_outside (ht : t.setAll? k functions = some t')
    (h : k.toNat + functions.length ≤ t.length.toNat)
    (hi : i.toNat < k.toNat ∨ k.toNat + functions.length ≤ i.toNat) : t'.get? i = t.get? i := by
  induction functions generalizing t k with
  | nil =>
    cases ht
    rfl
  | cons function functions ih =>
    obtain ⟨-, hsucc, hrest⟩ := room_of_cons h
    obtain ⟨t₁, hset, ht₁⟩ := exists_of_setAll?_cons ht
    rw [← length_of_setSlot? hset] at hrest
    rw [List.length_cons] at hi
    have hne : k ≠ i := by
      rintro rfl
      omega
    rw [ih ht₁ hrest (by omega), get?_of_setSlot? hset, if_neg hne]

/-- Each entry refers to its function. -/
theorem get?_of_setAll? (ht : t.setAll? k functions = some t')
    (h : k.toNat + functions.length ≤ t.length.toNat) {j : ℕ} (hj : functions[j]? = some function) :
    t'.get? (k + UInt32.ofNat j) = referent (slotOf function) := by
  induction functions generalizing t k j with
  | nil => cases hj
  | cons first functions ih =>
    obtain ⟨-, hsucc, hrest⟩ := room_of_cons h
    obtain ⟨t₁, hset, ht₁⟩ := exists_of_setAll?_cons ht
    rw [← length_of_setSlot? hset] at hrest
    cases j with
    | zero =>
      cases hj
      have hzero : k + UInt32.ofNat 0 = k := UInt32.add_zero k
      rw [hzero, get?_of_setAll?_of_outside ht₁ hrest (by omega), get?_of_setSlot? hset, if_pos rfl]
    | succ j =>
      have hnext : k + UInt32.ofNat (j + 1) = k + 1 + UInt32.ofNat j := by
        rw [UInt32.ofNat_add, UInt32.add_comm (UInt32.ofNat j), ← UInt32.add_assoc]
        rfl
      rw [hnext]
      exact ih ht₁ hrest hj

end SetAll

end Table

/-! ## Element segments -/

/-- The number that an offset expression denotes: a constant modulo `2 ^ 32`, or the value of a global. -/
inductive ConstExpr.Denotes (globals : GlobalReader) : ConstExpr → UInt32 → Prop
  | constant {data : List UInt8} {v : ℤ} {n : ℕ} {k : UInt32}
      (hdata : Leb128.loadSigned 32 data = .ok (v, n)) (hk : (k.toNat : ℤ) = v % 2 ^ 32) :
      Denotes globals ⟨Opcode.i32Const, data⟩ k
  | global {data : List UInt8} {i n : ℕ} {k : UInt32}
      (hdata : Leb128.loadUnsigned 32 data = .ok (i, n)) (hk : globals (UInt32.ofNat i) = .ok k) :
      Denotes globals ⟨Opcode.globalGet, data⟩ k

/-- The first entry of an element segment. -/
def ElementSegment.StartsAt (e : ElementSegment) (globals : GlobalReader) (k : UInt32) : Prop :=
  ∃ expr, e.offset = some expr ∧ expr.Denotes globals k

/-- A 32-bit constant is its two's complement. -/
theorem Bits.toUInt32_ofInt {v : ℤ} {k : UInt32} (h : (k.toNat : ℤ) = v % 2 ^ 32) :
    (Bits.ofInt 32 v).toUInt32 = k := by
  have hnat : (BitVec.ofInt 32 v).toNat = k.toNat := by
    rw [BitVec.toNat_ofInt]
    exact (congrArg Int.toNat h).symm
  have hlt : k.toNat < 2 ^ 64 := Nat.lt_trans k.toNat_lt (by decide)
  apply UInt32.toNat_inj.mp
  rw [Bits.ofInt, hnat, UInt64.toNat_toUInt32, UInt64.toNat_ofNat_of_lt' hlt,
    Nat.mod_eq_of_lt k.toNat_lt]

theorem ConstExpr.Denotes.exists_ofExpr {globals : GlobalReader} {expr : ConstExpr} {k : UInt32}
    (h : expr.Denotes globals k) (scale : UInt32) :
    ∃ base, Offset.ofExpr (some expr) scale = .ok ⟨base, scale⟩ ∧
      Offset.units ⟨base, scale⟩ globals = .ok k := by
  cases h with
  | @constant data v n k hdata hk =>
    have himmediate : immediate ⟨Opcode.i32Const, data⟩ = .ok (Bits.ofInt 32 v) := by
      rw [immediate, if_pos rfl, hdata]
    refine ⟨.const k, ?_, rfl⟩
    rw [Offset.ofExpr, himmediate, ← Bits.toUInt32_ofInt hk]
    rfl
  | @global data i n k hdata hk =>
    have himmediate : immediate ⟨Opcode.globalGet, data⟩ = .ok (UInt64.ofNat i) := by
      rw [immediate]
      dsimp only
      rw [if_neg (by decide), if_neg (by decide), if_neg (by decide), if_neg (by decide), if_pos rfl,
        hdata]
    refine ⟨.global (UInt64.ofNat i).toUInt32, ?_, ?_⟩
    · rw [Offset.ofExpr, himmediate]
      rfl
    · have hindex : (UInt64.ofNat i).toUInt32 = UInt32.ofNat i := UInt64.toUInt32_ofNat' i
      rw [Offset.units, hindex]
      dsimp only
      rw [hk]
      rfl

/-- What an element segment writes, and where. -/
theorem Segment.exists_ofElements {e : ElementSegment} {globals : GlobalReader} {k : UInt32}
    (h : e.StartsAt globals k) : ∃ segment, ofElements e = .ok segment ∧
      segment.place globals = .ok ⟨Table.positionOf k, Table.slots e.init⟩ := by
  obtain ⟨expr, hexpr, hdenotes⟩ := h
  obtain ⟨base, hofExpr, hunits⟩ := hdenotes.exists_ofExpr entrySize
  refine ⟨⟨Table.slots e.init, base, entrySize⟩, ?_, ?_⟩
  · rw [ofElements, hexpr, hofExpr]
    rfl
  · rw [place, Offset.resolve, hunits]
    rfl

/-- One segment that fits is written. -/
theorem Linear.apply_singleton {s : Linear} {segment : Segment} {globals : GlobalReader} {w : Placed}
    (h : segment.place globals = .ok w) (hfits : w.stop ≤ s.length) :
    s.apply [segment] globals = .ok (.written (s.put w.position w.payload)) := by
  have hplaced : ArePlaced globals [segment] [w] := .cons h .nil
  have hstop : lastStop [w] ≤ s.length := lastStop_le_iff.mpr (List.forall_mem_singleton.mpr hfits)
  rw [apply_of_place (arePlaced_iff.mp hplaced), if_neg (Nat.not_lt.mpr hstop)]
  rfl

/-- Of fewer than `2 ^ 32` functions none has the greatest index. -/
theorem IndexSpace.ne_of_function {space : IndexSpace} {f : UInt32} {entry : Location × Option FuncType}
    (hsize : space.functions.size < 2 ^ 32) (h : space.function f = .ok entry) : f ≠ 0xFFFFFFFF := by
  rintro rfl
  have hnone : space.functions.get? 0xFFFFFFFF = none := by
    rw [Namespace.get?, List.getElem?_eq_none]
    · rfl
    · rw [List.length_append]
      exact Nat.le_of_lt_succ hsize
  rw [function, hnone] at h
  cases h

/-- **An element segment does what setting its entries does.**  Let the functions of a segment be functions of the module, of
which there are fewer than `2 ^ 32`, and let there be an entry for each of them from the first entry on.  Then the segment is
written, and the table is the same as after the entries were set one after the other.  Each of these entries refers to its
function, and every other entry is as before. -/
theorem Table.segment_agrees_with_set {t : Table} {k : UInt32} {e : ElementSegment}
    {globals : GlobalReader} {space : IndexSpace} (hsize : space.functions.size < 2 ^ 32)
    (hfunctions : ∀ f ∈ e.init, ∃ entry, space.function f = .ok entry)
    (hstart : e.StartsAt globals k) (hroom : k.toNat + e.init.length ≤ t.length.toNat) :
    ∃ segment t', Segment.ofElements e = .ok segment ∧
      t.store.apply [segment] globals = .ok (.written t'.store) ∧
      t.setAll? k e.init = some t' ∧
      (∀ j f, e.init[j]? = some f → t'.get? (k + UInt32.ofNat j) = some f) ∧
      ∀ i : UInt32, i.toNat < k.toNat ∨ k.toNat + e.init.length ≤ i.toNat → t'.get? i = t.get? i := by
  obtain ⟨segment, hsegment, hplace⟩ := Segment.exists_ofElements hstart
  have hset := setAll?_eq hroom
  have hfits : Placed.stop ⟨positionOf k, slots e.init⟩ ≤ t.store.length := by
    have hle := t.length_mul_le
    rw [Placed.stop, length_slots]
    show k.toNat * 4 + e.init.length * 4 ≤ t.store.length
    omega
  refine ⟨segment, ⟨t.store.put (positionOf k) (slots e.init)⟩, hsegment,
    Linear.apply_singleton hplace hfits, hset, fun j f hj => ?_,
    fun i hi => get?_of_setAll?_of_outside hset hroom hi⟩
  obtain ⟨entry, hentry⟩ := hfunctions f (List.mem_of_getElem? hj)
  rw [get?_of_setAll? hset hroom hj, referent_slotOf, if_neg (IndexSpace.ne_of_function hsize hentry)]

/-- A table of four entries, of which the last refers to a function. -/
def Table.fourEntries : Table :=
  ⟨Linear.put ⟨.zeros 16, entrySize, 0, 8⟩ 12 (word32 (slotOf 5))⟩

/-- Two functions, from the entry on that a global names. -/
def ElementSegment.atGlobal : ElementSegment :=
  { offset := some ⟨Opcode.globalGet, [3]⟩, init := [2, 0] }

/-- An imported function and two that are defined. -/
def IndexSpace.threeFunctions : IndexSpace :=
  { functions := { imported := [0], defined := [0, 0] } }

/-- Where the global is one, the two functions come before the last entry. -/
theorem Table.fourEntries_agrees_with_set : ∃ (segment : Segment) (t' : Table),
    Segment.ofElements .atGlobal = .ok segment ∧
      fourEntries.store.apply [segment] Linear.readsOne = .ok (.written t'.store) ∧
      t'.get? 1 = some 2 ∧ t'.get? 2 = some 0 ∧ t'.get? 3 = some 5 := by
  have hfunctions : ∀ f ∈ ElementSegment.atGlobal.init,
      ∃ entry, IndexSpace.threeFunctions.function f = .ok entry :=
    List.forall_mem_cons.mpr ⟨⟨_, rfl⟩, List.forall_mem_singleton.mpr ⟨_, rfl⟩⟩
  have hstart : ElementSegment.atGlobal.StartsAt Linear.readsOne 1 :=
    ⟨_, rfl, .global (i := 3) (n := 1) (by decide) rfl⟩
  obtain ⟨segment, t', hsegment, happly, -, hget, hother⟩ :=
    segment_agrees_with_set (t := fourEntries) (by decide) hfunctions hstart (by decide)
  refine ⟨segment, t', hsegment, happly, hget 0 2 rfl, hget 1 0 rfl, ?_⟩
  rw [hother 3 (by decide)]
  decide

end FlatWasm
