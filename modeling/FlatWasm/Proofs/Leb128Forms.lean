import Mathlib
import FlatWasm.Proofs.Leb128Grammar

/-!
# Forms of a number: the one in a source, and the shortest

A number is read from a source in two steps: its bytes are fetched, and then they are loaded.  Loading looks at nothing
behind the last byte of the number, so this is the same as to load from the source (`OfGroups.fromSource_fst`), and what is
left is what comes after the number (`OfGroups.fromSource_snd`).

The form that is written has the fewest bytes of all forms of a number, and no more bytes than a form of any greater
number (`Unsigned.length_encode_le`).  The second half is what is needed where the number is a length: what is written in
normal form may be shorter than what was read, and then so is the number that says how long it is.
-/

namespace FlatWasm.Leb128

/-! ## Numbers from a source -/

/-- The bytes that are fetched have the groups of the source. -/
theorem groups_fetch (width limit : ℕ) (source : List UInt8) :
    (fetch .truncated limit source).1.bind (groups width limit) = groups width limit source := by
  induction limit generalizing source with
  | zero => rfl
  | succ limit ih =>
    cases source with
    | nil => rfl
    | cons b source =>
      have hrest := ih source
      rw [fetch, groups]
      by_cases hb : continues b = true
      · rw [if_pos hb, if_pos hb, ← hrest]
        cases hf : fetch .truncated limit source with
        | mk taken rest =>
          cases taken with
          | error e => rfl
          | ok taken =>
            show groups width (limit + 1) (b :: taken) = _
            rw [groups, if_pos hb]
            rfl
      · rw [if_neg hb, if_neg hb]
        show groups width (limit + 1) [b] = _
        rw [groups, if_neg hb]

/-- What is left of the source comes after the groups. -/
theorem drop_of_groups {width limit v n : ℕ} {source : List UInt8} (ending : Error)
    (h : groups width limit source = .ok (v, n)) :
    (fetch ending limit source).2 = source.drop n := by
  induction limit generalizing source v n with
  | zero => cases h
  | succ limit ih =>
    cases source with
    | nil => cases h
    | cons b source =>
      rw [groups] at h
      rw [fetch]
      by_cases hb : continues b = true
      · rw [if_pos hb] at h ⊢
        cases hg : groups width limit source with
        | error e =>
          rw [hg] at h
          cases h
        | ok p =>
          obtain ⟨v', n'⟩ := p
          rw [hg] at h
          cases h
          rw [List.drop_succ_cons, ← ih hg]
          cases fetch ending limit source with
          | mk taken rest => cases taken <;> rfl
      · rw [if_neg hb] at h ⊢
        cases h
        rfl

/-- A loader that depends on the groups only, and answers with how many bytes they take. -/
def OfGroups {α : Type} (bits : ℕ) (load : List UInt8 → Except Error (α × ℕ)) : Prop :=
  ∃ value : ℕ × ℕ → Except Error α, ∀ bytes,
    load bytes = (groups bits (maxLength bits) bytes).bind fun p => (value p).map (·, p.2)

theorem ofGroups_loadUnsigned (bits : ℕ) : OfGroups bits (loadUnsigned bits) := by
  refine ⟨fun p => if p.1 < Nat.pow 2 bits then .ok p.1 else .error (.overflow bits), ?_⟩
  intro bytes
  rw [loadUnsigned]
  cases groups bits (maxLength bits) bytes with
  | error e => rfl
  | ok p =>
    dsimp only [Except.bind]
    split <;> rfl

theorem ofGroups_loadSigned (bits : ℕ) : OfGroups bits (loadSigned bits) := by
  refine ⟨fun p => if -((Nat.pow 2 (bits - 1) : ℕ) : ℤ) ≤ signExtend p.1 p.2 ∧
      signExtend p.1 p.2 < ((Nat.pow 2 (bits - 1) : ℕ) : ℤ) then .ok (signExtend p.1 p.2)
    else .error (.overflow bits), ?_⟩
  intro bytes
  rw [loadSigned]
  cases groups bits (maxLength bits) bytes with
  | error e => rfl
  | ok p =>
    dsimp only [Except.bind]
    split <;> rfl

section

variable {α : Type} {bits : ℕ} {load : List UInt8 → Except Error (α × ℕ)}

/-- To load what is fetched is to load from the source. -/
theorem OfGroups.fromSource_fst (h : OfGroups bits load) (source : List UInt8) :
    (fromSource load bits source).1 = load source := by
  obtain ⟨value, hload⟩ := h
  rw [hload, ← groups_fetch, fromSource]
  cases fetch .truncated (maxLength bits) source with
  | mk taken rest =>
    cases taken with
    | error e => rfl
    | ok taken => exact hload taken

/-- What is left of the source does not depend on what is loaded from the fetched bytes. -/
theorem snd_fromSource (load : List UInt8 → Except Error (α × ℕ)) (bits : ℕ)
    (source : List UInt8) :
    (fromSource load bits source).2 = (fetch .truncated (maxLength bits) source).2 := by
  rw [fromSource]
  cases fetch .truncated (maxLength bits) source with
  | mk taken rest => cases taken <;> rfl

/-- What is left comes after the number. -/
theorem OfGroups.fromSource_snd (h : OfGroups bits load) {source : List UInt8} {v : α} {n : ℕ}
    (hv : load source = .ok (v, n)) : (fromSource load bits source).2 = source.drop n := by
  obtain ⟨value, hload⟩ := h
  rw [hload] at hv
  cases hg : groups bits (maxLength bits) source with
  | error e =>
    rw [hg] at hv
    cases hv
  | ok p =>
    rw [hg, Except.bind] at hv
    cases hvalue : value p with
    | error e =>
      rw [hvalue] at hv
      cases hv
    | ok a =>
      rw [hvalue] at hv
      cases hv
      rw [snd_fromSource]
      exact drop_of_groups .truncated hg

/-- **A number is decoded as its grammar says**, if it is loaded so. -/
theorem OfGroups.fromSource_eq_ok_iff (h : OfGroups bits load) {Form : List UInt8 → α → Prop}
    (hform : ∀ {bytes v n}, load bytes = .ok (v, n) ↔
      ∃ taken rest, bytes = taken ++ rest ∧ taken.length = n ∧ Form taken v)
    {source rest : List UInt8} {v : α} {n : ℕ} :
    fromSource load bits source = (.ok (v, n), rest) ↔
      ∃ taken, source = taken ++ rest ∧ taken.length = n ∧ Form taken v := by
  constructor
  · intro heq
    have hload : load source = .ok (v, n) := by
      rw [← h.fromSource_fst, heq]
    have hrest := h.fromSource_snd hload
    obtain ⟨taken, rest', rfl, rfl, htaken⟩ := hform.mp hload
    rw [heq, List.drop_left] at hrest
    exact ⟨taken, by rw [← hrest], rfl, htaken⟩
  · rintro ⟨taken, rfl, rfl, htaken⟩
    have hload := hform.mpr ⟨taken, rest, rfl, rfl, htaken⟩
    refine Prod.ext ?_ ?_
    · rw [h.fromSource_fst, hload]
    · rw [h.fromSource_snd hload, List.drop_left]

end

theorem decodeUnsigned_eq_ok_iff {bits : ℕ} (h0 : 0 < bits) {source rest : List UInt8} {v n : ℕ} :
    decodeUnsigned bits source = (.ok (v, n), rest) ↔
      ∃ taken, source = taken ++ rest ∧ taken.length = n ∧ Unsigned bits taken v :=
  (ofGroups_loadUnsigned bits).fromSource_eq_ok_iff (loadUnsigned_eq_ok_iff h0)

theorem decodeSigned_eq_ok_iff {bits : ℕ} (h0 : 0 < bits) {source rest : List UInt8} {v : ℤ}
    {n : ℕ} : decodeSigned bits source = (.ok (v, n), rest) ↔
      ∃ taken, source = taken ++ rest ∧ taken.length = n ∧ Signed bits taken v :=
  (ofGroups_loadSigned bits).fromSource_eq_ok_iff (loadSigned_eq_ok_iff h0)

/-! ## The shortest form -/

/-- What is written is a form of the number. -/
theorem unsigned_encodeUnsigned {bits n : ℕ} (h : n < 2 ^ bits) :
    Unsigned bits (encodeUnsigned n) n := by
  induction n using Nat.strong_induction_on generalizing bits with
  | _ n ih =>
    rw [encodeUnsigned]
    by_cases hn : n < 128
    · rw [if_pos hn]
      have hb : (UInt8.ofNat n).toNat = n := UInt8.toNat_ofNat_of_lt' (show n < 256 by omega)
      have hform : Unsigned bits [UInt8.ofNat n] (UInt8.ofNat n).toNat :=
        .last (by rw [hb]; exact hn) (by rw [hb]; exact h)
      rwa [hb] at hform
    · rw [if_neg hn]
      have hw : 7 < bits := by
        by_contra hle
        have hpow : 2 ^ bits ≤ 2 ^ 7 := Nat.pow_le_pow_right (by decide) (by omega)
        omega
      have hb : (UInt8.ofNat (n % 128 + 128)).toNat = n % 128 + 128 :=
        UInt8.toNat_ofNat_of_lt' (show n % 128 + 128 < 256 by omega)
      have hrest : n / 128 < 2 ^ (bits - 7) := by
        refine (shift_lt_two_pow_iff hw (Nat.mod_lt n (by decide))).mp ?_
        rwa [Nat.div_add_mod]
      have hform : Unsigned bits (UInt8.ofNat (n % 128 + 128) :: encodeUnsigned (n / 128))
          (128 * (n / 128) + ((UInt8.ofNat (n % 128 + 128)).toNat - 128)) :=
        .more (by rw [hb]; omega) hw (ih (n / 128) (by omega) hrest)
      rwa [hb, Nat.add_sub_cancel, Nat.div_add_mod] at hform

theorem length_encodeUnsigned_pos (n : ℕ) : 0 < (encodeUnsigned n).length := by
  rw [encodeUnsigned]
  split <;> exact Nat.succ_pos _

/-- Each byte of the shortest form holds seven bits. -/
theorem length_encodeUnsigned_le_iff {n k : ℕ} (hk : 0 < k) :
    (encodeUnsigned n).length ≤ k ↔ n < 128 ^ k := by
  induction k, hk using Nat.le_induction generalizing n with
  | base =>
    rw [encodeUnsigned]
    split
    · next hn => simpa using hn
    · next hn =>
      have hpos := length_encodeUnsigned_pos (n / 128)
      rw [List.length_cons]
      omega
  | succ k hk ih =>
    rw [encodeUnsigned, pow_succ]
    split
    · next hn =>
      have hone : 0 < 128 ^ k := Nat.pow_pos (by decide)
      simp only [List.length_singleton]
      omega
    · rw [List.length_cons, Nat.add_le_add_iff_right, ih]
      omega

theorem Unsigned.lt_pow {bits v : ℕ} {bytes : List UInt8} (h : Unsigned bits bytes v) :
    v < 128 ^ bytes.length := by
  induction h with
  | last hb _ => simpa using hb
  | @more bits b bytes v hb hw rest ih =>
    have hlt := b.toNat_lt
    rw [List.length_cons, pow_succ]
    omega

/-- **No form is shorter**, not even one of a greater number. -/
theorem Unsigned.length_encode_le {bits v n : ℕ} {bytes : List UInt8} (h : Unsigned bits bytes v)
    (hn : n ≤ v) : (encodeUnsigned n).length ≤ bytes.length :=
  (length_encodeUnsigned_le_iff h.length_pos).mpr (Nat.lt_of_le_of_lt hn h.lt_pow)

theorem length_encodeUnsigned_mono {m n : ℕ} (h : m ≤ n) :
    (encodeUnsigned m).length ≤ (encodeUnsigned n).length := by
  have hpos := length_encodeUnsigned_pos n
  rw [length_encodeUnsigned_le_iff hpos]
  exact h.trans_lt ((length_encodeUnsigned_le_iff hpos).mp le_rfl)

/-- A sum is written in no more bytes than its parts. -/
theorem length_encodeUnsigned_add_le (m n : ℕ) :
    (encodeUnsigned (m + n)).length ≤ (encodeUnsigned m).length + (encodeUnsigned n).length := by
  have hm := length_encodeUnsigned_pos m
  have hn := length_encodeUnsigned_pos n
  rw [length_encodeUnsigned_le_iff (by omega), pow_add]
  have hm' := (length_encodeUnsigned_le_iff hm).mp (Nat.le_refl _)
  have hn' := (length_encodeUnsigned_le_iff hn).mp (Nat.le_refl _)
  -- both factors are at least 128, and the sum of two such numbers is at most their product
  have hmpow : 128 ≤ 128 ^ (encodeUnsigned m).length := Nat.le_self_pow (by omega) 128
  have hnpow : 128 ≤ 128 ^ (encodeUnsigned n).length := Nat.le_self_pow (by omega) 128
  nlinarith

end FlatWasm.Leb128
