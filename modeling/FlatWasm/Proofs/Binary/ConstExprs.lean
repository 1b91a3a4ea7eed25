import Mathlib
import FlatWasm.ConstExpr
import FlatWasm.Proofs.Binary.Items
import FlatWasm.Proofs.Leb128Values

/-!
# Initializers are read twice

When a module is decoded, the immediate of an initializer is stepped over, and its bytes are kept as they are.  What they say
is read from them later, once when the module is checked and once when its globals are made.  The two readings share no code:
the first finds out where the immediate ends, and the second is told, and would not notice bytes that are left over.

This file shows that they agree (`constExpr_agrees_with_immediate`).  An initializer that has been decoded has a value, which
is read from all of the bytes that were kept and could not be read from fewer; and every initializer that has a value read from
all of its bytes is decoded from them, and from nothing else.

## What it is to be read from all bytes

A number takes as many bytes as its loader counts, and a floating-point constant as many as its width (`usedLength?`).  With
that, both readings come down to the grammar of immediates (`readsWhole_iff`).  That fewer bytes do not do is a property of the
numbers: a proper part of a form has no byte to stop at (`LoadsExactly.truncated_of_take`).
-/

namespace FlatWasm

/-! ## Proper parts of a number -/

namespace Leb128

variable {α : Type} {bits k n : ℕ} {value : List UInt8 → α} {InRange : α → Prop}
  {load : List UInt8 → Except Error (α × ℕ)} {data : List UInt8} {v : α}

/-- A part of the bytes in front that is as long as all of them is all of them. -/
theorem exists_whole_iff {P : List UInt8 → Prop} :
    (∃ taken rest, data = taken ++ rest ∧ taken.length = data.length ∧ P taken) ↔ P data := by
  constructor
  · rintro ⟨taken, rest, rfl, hlength, h⟩
    have hrest : rest = [] := by
      rw [List.length_append] at hlength
      exact List.length_eq_zero_iff.mp (by omega)
    rwa [hrest, List.append_nil]
  · exact fun h => ⟨data, [], (List.append_nil data).symm, rfl, h⟩

/-- Of the bytes of a form only the last does not continue. -/
theorem IsForm.continues_of_mem_take {form : List UInt8} (h : IsForm form) (hk : k < form.length) :
    ∀ b ∈ form.take k, continues b = true := by
  obtain ⟨init, last, rfl, hinit, -⟩ := h
  rw [List.length_append, List.length_singleton] at hk
  rw [List.take_append_of_le_length (Nat.le_of_lt_succ hk)]
  exact fun b hb => hinit b (List.mem_of_mem_take hb)

/-- A number that takes all bytes cannot be read from fewer of them. -/
theorem LoadsExactly.truncated_of_take (h : LoadsExactly bits value InRange load)
    (hload : load data = .ok (v, data.length)) (hk : k < data.length) :
    load (data.take k) = .error .truncated := by
  have hform : IsForm data ∧ data.length ≤ bits ⌈/⌉ 7 := by
    obtain ⟨form, rest, hsplit, hlength, hform, hle, -⟩ := (h.ok_iff _ _ _).mp hload
    refine exists_whole_iff (P := fun form => IsForm form ∧ form.length ≤ bits ⌈/⌉ 7) |>.mp ?_
    exact ⟨form, rest, hsplit, hlength, hform, hlength ▸ hle⟩
  refine (h.truncated_iff _).mpr ⟨?_, hform.1.continues_of_mem_take hk⟩
  exact (List.length_take_le k data).trans_lt (hk.trans_le hform.2)

theorem loadSigned_whole_iff {v : ℤ} (h0 : 0 < bits) :
    loadSigned bits data = .ok (v, data.length) ↔ Signed bits data v := by
  rw [loadSigned_eq_ok_iff h0, exists_whole_iff]

theorem loadUnsigned_whole_iff {v : ℕ} (h0 : 0 < bits) :
    loadUnsigned bits data = .ok (v, data.length) ↔ Unsigned bits data v := by
  rw [loadUnsigned_eq_ok_iff h0, exists_whole_iff]

end Leb128

/-! ## The bytes that a value is read from -/

namespace ConstExpr

variable {e : ConstExpr}

/-- How many bytes of its data an initializer is read from: as many as the loader of a number counts, or the width of a
floating-point number. -/
def usedLength? (e : ConstExpr) : Option ℕ :=
  if e.opcode = Opcode.i32Const then (Leb128.loadSigned 32 e.data).toOption.map (·.2)
  else if e.opcode = Opcode.i64Const then (Leb128.loadSigned 64 e.data).toOption.map (·.2)
  else if e.opcode = Opcode.f32Const then some 4
  else if e.opcode = Opcode.f64Const then some 8
  else if e.opcode = Opcode.globalGet then (Leb128.loadUnsigned 32 e.data).toOption.map (·.2)
  else none

/-- An initializer has a value, and this is read from all of its data. -/
structure ReadsWhole (e : ConstExpr) : Prop where
  value : ∃ v, e.immediate = .ok v
  whole : e.usedLength? = some e.data.length

/-- With any byte less there would be no value. -/
def NeedsWhole (e : ConstExpr) : Prop :=
  ∀ k < e.data.length, ∃ error, immediate ⟨e.opcode, e.data.take k⟩ = .error error

theorem exists_of_map_toOption {ε α : Type} {x : Except ε (α × ℕ)} {n : ℕ}
    (h : x.toOption.map (·.2) = some n) : ∃ v, x = .ok (v, n) := by
  cases x with
  | error e => cases h
  | ok p =>
    cases h
    exact ⟨p.1, rfl⟩

/-- The data is an immediate of the format, if its loader counts all of it. -/
theorem immediate_of_usedLength? (h : e.usedLength? = some e.data.length) :
    Immediate e.opcode e.data := by
  obtain ⟨opcode, data⟩ := e
  rw [usedLength?] at h
  dsimp only at h ⊢
  split at h
  · next hop =>
    obtain ⟨v, hload⟩ := exists_of_map_toOption h
    exact hop ▸ .i32Const ((Leb128.loadSigned_whole_iff (by decide)).mp hload)
  split at h
  · next hop =>
    obtain ⟨v, hload⟩ := exists_of_map_toOption h
    exact hop ▸ .i64Const ((Leb128.loadSigned_whole_iff (by decide)).mp hload)
  split at h
  · next hop => exact hop ▸ .f32Const (Option.some.inj h).symm
  split at h
  · next hop => exact hop ▸ .f64Const (Option.some.inj h).symm
  split at h
  · next hop =>
    obtain ⟨v, hload⟩ := exists_of_map_toOption h
    exact hop ▸ .globalGet (Binary.Length.word ((Leb128.loadUnsigned_whole_iff (by decide)).mp hload))
  · cases h

/-- **Immediates of the format are what is read whole.** -/
theorem readsWhole_iff : e.ReadsWhole ↔ Immediate e.opcode e.data := by
  refine ⟨fun h => immediate_of_usedLength? h.whole, fun h => ?_⟩
  obtain ⟨opcode, data⟩ := e
  cases h with
  | i32Const h =>
    have hload := (Leb128.loadSigned_whole_iff (by decide)).mpr h
    constructor
    · rw [immediate, hload]
      exact ⟨_, rfl⟩
    · rw [usedLength?, hload]
      rfl
  | i64Const h =>
    have hload := (Leb128.loadSigned_whole_iff (by decide)).mpr h
    constructor
    · rw [immediate, hload]
      exact ⟨_, rfl⟩
    · rw [usedLength?, hload]
      rfl
  | f32Const h => exact ⟨⟨_, if_neg h.ge.not_gt⟩, congrArg some h.symm⟩
  | f64Const h => exact ⟨⟨_, if_neg h.ge.not_gt⟩, congrArg some h.symm⟩
  | globalGet h =>
    have hload := (Leb128.loadUnsigned_whole_iff (by decide)).mpr h
    constructor
    · rw [immediate, hload]
      exact ⟨_, rfl⟩
    · rw [usedLength?, hload]
      rfl

/-- What is read whole could not be read from less. -/
theorem ReadsWhole.needsWhole (h : e.ReadsWhole) : e.NeedsWhole := by
  obtain ⟨opcode, data⟩ := e
  have hsigned := Leb128.loadsExactly_loadSigned
  have hunsigned := Leb128.loadsExactly_loadUnsigned
  intro k hk
  cases readsWhole_iff.mp h with
  | i32Const h =>
    have hload := (Leb128.loadSigned_whole_iff (by decide)).mpr h
    rw [immediate, (hsigned 32).truncated_of_take hload hk]
    exact ⟨_, rfl⟩
  | i64Const h =>
    have hload := (Leb128.loadSigned_whole_iff (by decide)).mpr h
    rw [immediate, (hsigned 64).truncated_of_take hload hk]
    exact ⟨_, rfl⟩
  | f32Const h =>
    exact ⟨_, if_pos ((List.length_take_le k data).trans_lt (hk.trans_eq h))⟩
  | f64Const h =>
    exact ⟨_, if_pos ((List.length_take_le k data).trans_lt (hk.trans_eq h))⟩
  | globalGet h =>
    have hload := (Leb128.loadUnsigned_whole_iff (by decide)).mpr h
    rw [immediate, (hunsigned 32).truncated_of_take hload hk]
    exact ⟨_, rfl⟩

end ConstExpr

/-! ## The two readings -/

/-- **The two readings of an initializer agree.**  What is decoded takes the bytes of the opcode, the data and the end, and is
later read from all of the data and not from less; and what is read from all of its data is decoded from these bytes, whatever
follows them. -/
theorem constExpr_agrees_with_immediate (bytes rest : List UInt8) (e : ConstExpr) :
    (Binary.constExpr bytes = .ok (e, rest) →
        bytes = e.opcode :: (e.data ++ Opcode.end :: rest) ∧ e.ReadsWhole ∧ e.NeedsWhole) ∧
      (e.ReadsWhole →
        Binary.constExpr (e.opcode :: (e.data ++ Opcode.end :: rest)) = .ok (e, rest)) := by
  constructor
  · intro h
    obtain ⟨taken, rfl, ⟨hi⟩⟩ := Binary.accepts_constExpr.exists_taken h
    have hwhole := ConstExpr.readsWhole_iff.mpr hi
    exact ⟨by simp, hwhole, hwhole.needsWhole⟩
  · intro h
    have hwritten : e.Written (e.opcode :: (e.data ++ [Opcode.end])) :=
      .mk (ConstExpr.readsWhole_iff.mp h)
    have hreads := Binary.accepts_constExpr.reads hwritten rest
    rwa [List.cons_append, List.append_assoc, List.singleton_append] at hreads

-- the value is the same with a byte too many, but then the reader finds no end where it looks for one
example : ConstExpr.immediate ⟨Opcode.i32Const, [0x2a, 0x00]⟩ = .ok 42 ∧
    ConstExpr.usedLength? ⟨Opcode.i32Const, [0x2a, 0x00]⟩ = some 1 ∧
      Binary.constExpr [Opcode.i32Const, 0x2a, 0x00, Opcode.end] = .error .constUnterminated := by
  decide

end FlatWasm
