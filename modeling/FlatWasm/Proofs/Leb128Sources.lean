import Mathlib
import FlatWasm.Proofs.Leb128Forms
import FlatWasm.Proofs.Leb128Values

/-!
# Numbers from a source, and how much of it they take

Section framing is read from a source that is consumed as it goes, and what comes next starts where the number before it
ended.  So of a number from a source it has to be known what it is and also how far the source has moved, and this not only
when there is a number.  This file says both for every source (`decoders_follow_loaders`): the answer is that of the loader on
the whole source, and what is left is

* what comes after the number, if there is one;
* nothing, if the source ends inside the number;
* what comes after the last byte of the form, if the number is out of range, or after the longest form there can be, if the
  bytes go on for longer than that.

## Why the last two need no case of their own

Bytes are fetched up to the first one that does not continue, and at most `maxLength bits` of them.  This is a length that can
be told from the source alone (`fetchedLength`), whatever is made of the bytes, and `fetch` leaves what comes after it
(`snd_fetch`).  A source that ends too early is shorter than that, and then nothing is left.
-/

namespace FlatWasm.Leb128

/-- The bytes that are fetched for one number: up to the first that does not continue, but no more than `limit`. -/
def fetchedLength (limit : ℕ) (source : List UInt8) : ℕ :=
  if source.findIdx (fun b => !continues b) < limit then source.findIdx (fun b => !continues b) + 1
  else limit

theorem fetchedLength_of_continues {b : UInt8} (hb : continues b = true) (limit : ℕ)
    (source : List UInt8) :
    fetchedLength (limit + 1) (b :: source) = fetchedLength limit source + 1 := by
  have hidx : (b :: source).findIdx (fun b => !continues b) =
      source.findIdx (fun b => !continues b) + 1 := by
    rw [List.findIdx_cons, hb]
    rfl
  rw [fetchedLength, fetchedLength, hidx]
  split <;> split <;> omega

theorem fetchedLength_of_last {b : UInt8} (hb : continues b = false) (limit : ℕ)
    (source : List UInt8) : fetchedLength (limit + 1) (b :: source) = 1 := by
  have hidx : (b :: source).findIdx (fun b => !continues b) = 0 := by
    rw [List.findIdx_cons, hb]
    rfl
  rw [fetchedLength, hidx, if_pos (Nat.succ_pos _)]

/-- **What is left of a source does not depend on how it ends.** -/
theorem snd_fetch (ending : Error) (limit : ℕ) (source : List UInt8) :
    (fetch ending limit source).2 = source.drop (fetchedLength limit source) := by
  induction limit generalizing source with
  | zero => rfl
  | succ limit ih =>
    cases source with
    | nil => exact List.drop_nil.symm
    | cons b source =>
      rw [fetch]
      cases hb : continues b with
      | false =>
        rw [fetchedLength_of_last hb]
        rfl
      | true =>
        rw [fetchedLength_of_continues hb, List.drop_succ_cons, ← ih, if_pos rfl]
        cases fetch ending limit source with
        | mk taken rest => cases taken <;> rfl

/-- There is no byte to stop at if all of them continue. -/
theorem findIdx_continues {source : List UInt8} (h : ∀ b ∈ source, continues b = true) :
    source.findIdx (fun b => !continues b) = source.length :=
  List.findIdx_eq_length.mpr fun b hb => by rw [h b hb]; rfl

/-- A source that ends inside a number is shorter than what is fetched from it, and no other is. -/
theorem fetchedLength_le_iff {bits : ℕ} {source : List UInt8} :
    fetchedLength (maxLength bits) source ≤ source.length ↔ ¬EndsInside bits source := by
  rw [fetchedLength, EndsInside, ← maxLength_eq_ceilDiv]
  constructor
  · rintro hle ⟨hlt, hall⟩
    rw [findIdx_continues hall, if_pos hlt] at hle
    exact Nat.not_succ_le_self _ hle
  · intro hinside
    have hidx : source.findIdx (fun b => !continues b) ≤ source.length := List.findIdx_le_length
    split
    · next hlt =>
      refine Nat.succ_le_of_lt (lt_of_le_of_ne hidx fun heq => hinside ⟨heq ▸ hlt, fun b hb => ?_⟩)
      simpa using List.findIdx_eq_length.mp heq b hb
    · next hlt => exact (Nat.le_of_not_lt hlt).trans hidx

/-! ## Decoders -/

section Decoders

variable {α : Type} {bits : ℕ}

/-- Exactly the first `n` bytes of a source have been consumed when `rest` is left of it. -/
def Consumed (source rest : List UInt8) (n : ℕ) : Prop :=
  ∃ taken, source = taken ++ rest ∧ taken.length = n

theorem consumed_drop {source : List UInt8} {n : ℕ} (h : n ≤ source.length) :
    Consumed source (source.drop n) n :=
  ⟨source.take n, (List.take_append_drop n source).symm, List.length_take_of_le h⟩

/-- What a decoder of numbers of `bits` bits has to do on every source, given a loader: its answer is that of the loader, and
in each of the three cases that there are, what it has consumed is known. -/
structure DecodesAs (bits : ℕ) (load : List UInt8 → Except Error (α × ℕ))
    (decode : List UInt8 → Except Error (α × ℕ) × List UInt8) : Prop where
  answer : ∀ source, (decode source).1 = load source
  ok : ∀ source v n, load source = .ok (v, n) → Consumed source (decode source).2 n
  failure : ∀ source e, load source = .error e → e = .truncated ∨ e = .overflow bits
  truncated : ∀ source, load source = .error .truncated →
    Consumed source (decode source).2 source.length
  overflow : ∀ source, load source = .error (.overflow bits) →
    Consumed source (decode source).2 (fetchedLength (maxLength bits) source)

/-- A loader that depends on the groups and looks at a range has a decoder that does what it has to. -/
theorem OfGroups.decodesAs {value : List UInt8 → α} {InRange : α → Prop}
    {load : List UInt8 → Except Error (α × ℕ)} (hgroups : OfGroups bits load)
    (hexact : LoadsExactly bits value InRange load) :
    DecodesAs bits load fun source => fromSource load bits source where
  answer := hgroups.fromSource_fst
  ok source v n h := by
    obtain ⟨form, rest, hsource, hlength, -⟩ := (hexact.ok_iff source v n).mp h
    refine ⟨form, ?_, hlength⟩
    rw [hgroups.fromSource_snd h, hsource, ← hlength, List.drop_left]
  failure source e h := by
    have hor : load source = .error .truncated ∨ load source = .error (.overflow bits) := by
      by_cases hinside : EndsInside bits source
      · exact .inl ((hexact.truncated_iff source).mpr hinside)
      · refine .inr ((hexact.overflow_iff source).mpr ⟨fun v n hv => ?_, hinside⟩)
        cases h.symm.trans ((hexact.ok_iff source v n).mpr hv)
    rw [h] at hor
    exact hor.imp Except.error.inj Except.error.inj
  truncated source h := by
    have hinside := (hexact.truncated_iff source).mp h
    have hlt := Nat.lt_of_not_le fun hle => fetchedLength_le_iff.mp hle hinside
    refine ⟨source, ?_, rfl⟩
    rw [snd_fromSource, snd_fetch, List.drop_eq_nil_of_le hlt.le, List.append_nil]
  overflow source h := by
    have hinside := ((hexact.overflow_iff source).mp h).2
    rw [snd_fromSource, snd_fetch]
    exact consumed_drop (fetchedLength_le_iff.mpr hinside)

/-- **A decoder answers as the loader does on the whole source, and has consumed just the bytes that it had to see for that.**
Decoders are in use for the widths 32 without a sign, and 32 and 64 with one. -/
theorem decoders_follow_loaders (bits : ℕ) :
    DecodesAs bits (loadUnsigned bits) (fun source => decodeUnsigned bits source) ∧
      DecodesAs bits (loadSigned bits) (fun source => decodeSigned bits source) :=
  ⟨(ofGroups_loadUnsigned bits).decodesAs (loadsExactly_loadUnsigned bits),
    (ofGroups_loadSigned bits).decodesAs (loadsExactly_loadSigned bits)⟩

-- a number out of range is consumed whole, and of a form that does not end no more than its longest possible part
example : decodeUnsigned 32 [0xff, 0xff, 0xff, 0xff, 0x1f, 0x0b] = (.error (.overflow 32), [0x0b]) ∧
    decodeSigned 32 [0x80, 0x80, 0x80, 0x80, 0x80, 0x00] = (.error (.overflow 32), [0x00]) := by
  decide

end Decoders

end FlatWasm.Leb128
