import Mathlib
import FlatWasm.Leb128

/-!
# The grammar of LEB128 numbers

The loaders of `Leb128` walk over bytes with a count of how many may still come, and check a range at the end.  The
format itself is given by a grammar that never mentions a count: a number of `bits` bits is one byte without a
continuation bit, or a byte with one in front of a number of `bits - 7` bits, and the range is checked on the last
byte only.  This file states the grammar and proves that the loaders accept exactly what it derives.

## Why the range moves to the last byte

`128 * v + c < 2 ^ bits` and `v < 2 ^ (bits - 7)` say the same when `c < 128`, so one bound at the end of the walk and
one bound that shrinks with every byte agree (`shift_lt_two_pow_iff`, `shift_signed_range_iff`).  The number of bytes
needs no bound of its own: after `maxLength bits` bytes the width is used up.

The two main statements are `loadUnsigned_eq_ok_iff` and `loadSigned_eq_ok_iff`.
-/

namespace FlatWasm.Leb128

/-- The byte forms of an unsigned number of `bits` bits. -/
inductive Unsigned : (bits : ℕ) → List UInt8 → ℕ → Prop where
  | last {bits : ℕ} {b : UInt8} (hb : b.toNat < 128) (hr : b.toNat < 2 ^ bits) :
      Unsigned bits [b] b.toNat
  | more {bits : ℕ} {b : UInt8} {bytes : List UInt8} {v : ℕ} (hb : 128 ≤ b.toNat) (hw : 7 < bits)
      (rest : Unsigned (bits - 7) bytes v) :
      Unsigned bits (b :: bytes) (128 * v + (b.toNat - 128))

/-- The byte forms of a signed number of `bits` bits: the top bit of the last group is its sign. -/
inductive Signed : (bits : ℕ) → List UInt8 → ℤ → Prop where
  | nonneg {bits : ℕ} {b : UInt8} (hb : b.toNat < 64) (hr : (b.toNat : ℤ) < 2 ^ (bits - 1)) :
      Signed bits [b] b.toNat
  | neg {bits : ℕ} {b : UInt8} (hb : 64 ≤ b.toNat) (hb' : b.toNat < 128)
      (hr : -2 ^ (bits - 1) ≤ (b.toNat : ℤ) - 128) :
      Signed bits [b] (b.toNat - 128)
  | more {bits : ℕ} {b : UInt8} {bytes : List UInt8} {v : ℤ} (hb : 128 ≤ b.toNat) (hw : 7 < bits)
      (rest : Signed (bits - 7) bytes v) :
      Signed bits (b :: bytes) (128 * v + (b.toNat - 128))

/-! ## Arithmetic of one group -/

theorem two_pow_eq_shift {bits : ℕ} (hw : 7 < bits) : 2 ^ bits = 128 * 2 ^ (bits - 7) := by
  obtain ⟨k, rfl⟩ : ∃ k, bits = k + 7 := ⟨bits - 7, by omega⟩
  rw [Nat.add_sub_cancel, pow_add]
  ring

theorem shift_lt_two_pow_iff {bits v c : ℕ} (hw : 7 < bits) (hc : c < 128) :
    128 * v + c < 2 ^ bits ↔ v < 2 ^ (bits - 7) := by
  rw [two_pow_eq_shift hw]
  omega

theorem shift_signed_range_iff {bits : ℕ} {v c : ℤ} (hw : 7 < bits) (h0 : 0 ≤ c) (hc : c < 128) :
    (-2 ^ (bits - 1) ≤ 128 * v + c ∧ 128 * v + c < 2 ^ (bits - 1)) ↔
      (-2 ^ (bits - 7 - 1) ≤ v ∧ v < 2 ^ (bits - 7 - 1)) := by
  obtain ⟨k, rfl⟩ : ∃ k, bits = k + 8 := ⟨bits - 8, by omega⟩
  have h1 : (2 : ℤ) ^ (k + 8 - 1) = 128 * 2 ^ k := by
    rw [show k + 8 - 1 = k + 7 by omega, pow_add]
    ring
  have h2 : k + 8 - 7 - 1 = k := by omega
  rw [h1, h2]
  generalize (2 : ℤ) ^ k = n
  omega

theorem maxLength_succ {bits : ℕ} (hw : 7 < bits) : maxLength bits = maxLength (bits - 7) + 1 := by
  simp only [maxLength]
  omega

theorem maxLength_eq_one {bits : ℕ} (h0 : 0 < bits) (hw : ¬7 < bits) : maxLength bits = 1 := by
  simp only [maxLength]
  omega

theorem exists_maxLength_eq_succ {bits : ℕ} (h0 : 0 < bits) : ∃ n, maxLength bits = n + 1 :=
  ⟨(bits + 6) / 7 - 1, by simp only [maxLength]; omega⟩

/-- The sign of a number is the sign of its higher groups. -/
theorem signExtend_succ {c v n : ℕ} (hn : 0 < n) (hc : c < 128) :
    signExtend (c + 128 * v) (n + 1) = 128 * signExtend v n + c := by
  have hpow : Nat.pow 128 (n + 1) = 128 * Nat.pow 128 n := Nat.pow_succ'
  have heven : 2 ∣ Nat.pow 128 n := dvd_pow (by decide) (by omega)
  obtain ⟨k, hk⟩ := heven
  simp only [signExtend, hpow, hk]
  by_cases h : 2 * v < 2 * k
  · rw [if_pos h, if_pos (by omega)]
    push_cast
    ring
  · rw [if_neg h, if_neg (by omega)]
    push_cast
    ring

/-! ## One byte of a walk -/

theorem groups_of_last {width limit : ℕ} {b : UInt8} {bytes : List UInt8} (hb : b.toNat < 128) :
    groups width (limit + 1) (b :: bytes) = .ok (b.toNat, 1) := by
  rw [groups, if_neg (by simpa [continues] using hb)]

theorem groups_of_more {width limit : ℕ} {b : UInt8} {bytes : List UInt8} {v n : ℕ}
    (hb : 128 ≤ b.toNat) (h : groups width limit bytes = .ok (v, n)) :
    groups width (limit + 1) (b :: bytes) = .ok (b.toNat - 128 + 128 * v, n + 1) := by
  rw [groups, if_pos (by simpa [continues] using hb), h]

/-! ## Unsigned numbers -/

/-- A form of the grammar is read in full, whatever follows it. -/
theorem Unsigned.groups_append {bits : ℕ} {bytes : List UInt8} {v : ℕ} (h : Unsigned bits bytes v)
    (h0 : 0 < bits) (width : ℕ) (rest : List UInt8) :
    groups width (maxLength bits) (bytes ++ rest) = .ok (v, bytes.length) ∧ v < 2 ^ bits := by
  induction h with
  | @last bits b hb hr =>
    obtain ⟨n, hn⟩ := exists_maxLength_eq_succ h0
    rw [hn]
    exact ⟨groups_of_last hb, hr⟩
  | @more bits b bytes v hb hw rest' ih =>
    obtain ⟨hg, hv⟩ := ih (by omega)
    have hlt : b.toNat < 256 := b.toNat_lt
    refine ⟨?_, (shift_lt_two_pow_iff hw (by omega)).mpr hv⟩
    rw [maxLength_succ hw, List.cons_append, groups_of_more hb hg, Nat.add_comm, List.length_cons]

/-- What is read within the range is a form of the grammar. -/
theorem exists_unsigned_of_groups {width limit : ℕ} :
    ∀ {bits : ℕ} {bytes : List UInt8} {v n : ℕ}, limit = maxLength bits → 0 < bits →
      groups width limit bytes = .ok (v, n) → v < 2 ^ bits →
      ∃ taken rest, bytes = taken ++ rest ∧ taken.length = n ∧ Unsigned bits taken v := by
  induction limit with
  | zero =>
    intro bits bytes v n hl h0 h hv
    obtain ⟨m, hm⟩ := exists_maxLength_eq_succ h0
    omega
  | succ limit ih =>
    intro bits bytes v n hl h0 h hv
    cases bytes with
    | nil => cases h
    | cons b bytes =>
      rw [groups] at h
      split at h
      · next hb =>
        have hb' : 128 ≤ b.toNat := by simpa [continues] using hb
        have hlt : b.toNat < 256 := b.toNat_lt
        split at h
        · next v' n' hg =>
          cases h
          by_cases hw : 7 < bits
          · have hrange : v' < 2 ^ (bits - 7) :=
              (shift_lt_two_pow_iff (c := b.toNat - 128) hw (by omega)).mp (by omega)
            obtain ⟨taken, rest, hsplit, hlen, hu⟩ :=
              ih (by rw [maxLength_succ hw] at hl; omega) (by omega) hg hrange
            refine ⟨b :: taken, rest, by rw [hsplit, List.cons_append], by simp [hlen], ?_⟩
            rw [Nat.add_comm]
            exact .more hb' hw hu
          · -- the width is used up, so no byte may follow
            rw [maxLength_eq_one h0 hw] at hl
            obtain rfl : limit = 0 := by omega
            cases hg
        · cases h
      · next hb =>
        cases h
        exact ⟨[b], bytes, rfl, rfl, .last (by simpa [continues] using hb) hv⟩

/-- **The loader of unsigned numbers accepts exactly the grammar.** -/
theorem loadUnsigned_eq_ok_iff {bits : ℕ} (h0 : 0 < bits) {bytes : List UInt8} {v n : ℕ} :
    loadUnsigned bits bytes = .ok (v, n) ↔
      ∃ taken rest, bytes = taken ++ rest ∧ taken.length = n ∧ Unsigned bits taken v := by
  constructor
  · intro h
    rw [loadUnsigned] at h
    split at h
    · cases h
    · next hg =>
      split at h
      · next hv =>
        cases h
        exact exists_unsigned_of_groups rfl h0 hg hv
      · cases h
  · rintro ⟨taken, rest, rfl, rfl, hu⟩
    obtain ⟨hg, hv⟩ := hu.groups_append h0 bits rest
    rw [loadUnsigned, hg]
    exact if_pos hv

/-! ## Signed numbers -/

/-- A form of the grammar takes at least one byte. -/
theorem Signed.length_pos {bits : ℕ} {bytes : List UInt8} {v : ℤ} (h : Signed bits bytes v) :
    0 < bytes.length := by
  cases h <;> simp

theorem Unsigned.length_pos {bits : ℕ} {bytes : List UInt8} {v : ℕ} (h : Unsigned bits bytes v) :
    0 < bytes.length := by
  cases h <;> simp

/-- A form of the grammar is read in full, whatever follows it; its groups hold the number up to its sign. -/
theorem Signed.groups_append {bits : ℕ} {bytes : List UInt8} {v : ℤ} (h : Signed bits bytes v)
    (h0 : 0 < bits) (width : ℕ) (rest : List UInt8) :
    ∃ value, groups width (maxLength bits) (bytes ++ rest) = .ok (value, bytes.length) ∧
      signExtend value bytes.length = v ∧ -2 ^ (bits - 1) ≤ v ∧ v < 2 ^ (bits - 1) := by
  induction h with
  | @nonneg bits b hb hr =>
    obtain ⟨n, hn⟩ := exists_maxLength_eq_succ h0
    refine ⟨b.toNat, ?_, ?_, ?_, hr⟩
    · rw [hn]
      exact groups_of_last (by omega)
    · rw [signExtend, if_pos (by show 2 * b.toNat < 128 ^ 1; omega)]
    · have : (0 : ℤ) < 2 ^ (bits - 1) := by positivity
      omega
  | @neg bits b hb hb' hr =>
    obtain ⟨n, hn⟩ := exists_maxLength_eq_succ h0
    refine ⟨b.toNat, ?_, ?_, hr, ?_⟩
    · rw [hn]
      exact groups_of_last hb'
    · rw [signExtend, if_neg (by show ¬2 * b.toNat < 128 ^ 1; omega)]
      rfl
    · have : (0 : ℤ) < 2 ^ (bits - 1) := by positivity
      omega
  | @more bits b bytes v hb hw rest' ih =>
    obtain ⟨value, hg, hs, hlo, hhi⟩ := ih (by omega)
    have hlt : b.toNat < 256 := b.toNat_lt
    have hrange := (shift_signed_range_iff (v := v) (c := (b.toNat : ℤ) - 128) hw (by omega)
      (by omega)).mpr ⟨hlo, hhi⟩
    refine ⟨b.toNat - 128 + 128 * value, ?_, ?_, hrange.1, hrange.2⟩
    · rw [maxLength_succ hw, List.cons_append, groups_of_more hb hg, List.length_cons]
    · rw [List.length_cons, signExtend_succ rest'.length_pos (by omega), hs]
      omega

/-- What is read within the range is a form of the grammar. -/
theorem exists_signed_of_groups {width limit : ℕ} :
    ∀ {bits : ℕ} {bytes : List UInt8} {value n : ℕ}, limit = maxLength bits → 0 < bits →
      groups width limit bytes = .ok (value, n) →
      -2 ^ (bits - 1) ≤ signExtend value n → signExtend value n < 2 ^ (bits - 1) →
      ∃ taken rest, bytes = taken ++ rest ∧ taken.length = n ∧
        Signed bits taken (signExtend value n) := by
  induction limit with
  | zero =>
    intro bits bytes value n hl h0 h hlo hhi
    obtain ⟨m, hm⟩ := exists_maxLength_eq_succ h0
    omega
  | succ limit ih =>
    intro bits bytes value n hl h0 h hlo hhi
    cases bytes with
    | nil => cases h
    | cons b bytes =>
      rw [groups] at h
      split at h
      · next hb =>
        have hb' : 128 ≤ b.toNat := by simpa [continues] using hb
        have hlt : b.toNat < 256 := b.toNat_lt
        split at h
        · next v' n' hg =>
          cases h
          have hn' : 0 < n' := by
            cases limit with
            | zero => cases hg
            | succ limit =>
              cases bytes with
              | nil => cases hg
              | cons b' bytes =>
                rw [groups] at hg
                split at hg
                · split at hg <;> cases hg
                  omega
                · cases hg
                  omega
          rw [signExtend_succ hn' (by omega)] at hlo hhi ⊢
          by_cases hw : 7 < bits
          · obtain ⟨hlo', hhi'⟩ :=
              (shift_signed_range_iff (v := signExtend v' n') (c := ((b.toNat - 128 : ℕ) : ℤ)) hw
                (by omega) (by omega)).mp ⟨hlo, hhi⟩
            obtain ⟨taken, rest, hsplit, hlen, hs⟩ :=
              ih (by rw [maxLength_succ hw] at hl; omega) (by omega) hg hlo' hhi'
            refine ⟨b :: taken, rest, by rw [hsplit, List.cons_append], by simp [hlen], ?_⟩
            rw [Nat.cast_sub hb']
            exact .more hb' hw hs
          · -- the width is used up, so no byte may follow
            rw [maxLength_eq_one h0 hw] at hl
            obtain rfl : limit = 0 := by omega
            cases hg
        · cases h
      · next hb =>
        cases h
        have hb' : b.toNat < 128 := by simpa [continues] using hb
        refine ⟨[b], bytes, rfl, rfl, ?_⟩
        by_cases hsign : b.toNat < 64
        · have he : signExtend b.toNat 1 = b.toNat := by
            rw [signExtend, if_pos (by show 2 * b.toNat < 128 ^ 1; omega)]
          rw [he] at hhi ⊢
          exact .nonneg hsign hhi
        · have he : signExtend b.toNat 1 = b.toNat - 128 := by
            rw [signExtend, if_neg (by show ¬2 * b.toNat < 128 ^ 1; omega)]
            rfl
          rw [he] at hlo ⊢
          exact .neg (by omega) hb' hlo

/-- **The loader of signed numbers accepts exactly the grammar.** -/
theorem loadSigned_eq_ok_iff {bits : ℕ} (h0 : 0 < bits) {bytes : List UInt8} {v : ℤ} {n : ℕ} :
    loadSigned bits bytes = .ok (v, n) ↔
      ∃ taken rest, bytes = taken ++ rest ∧ taken.length = n ∧ Signed bits taken v := by
  have hpow : ((Nat.pow 2 (bits - 1) : ℕ) : ℤ) = 2 ^ (bits - 1) := by
    exact_mod_cast rfl
  constructor
  · intro h
    rw [loadSigned] at h
    split at h
    · cases h
    · next hg =>
      simp only [hpow] at h
      split at h
      · next hv =>
        cases h
        exact exists_signed_of_groups rfl h0 hg hv.1 hv.2
      · cases h
  · rintro ⟨taken, rest, rfl, rfl, hs⟩
    obtain ⟨value, hg, rfl, hlo, hhi⟩ := hs.groups_append h0 bits rest
    rw [loadSigned, hg]
    simp only [hpow]
    exact if_pos ⟨hlo, hhi⟩

end FlatWasm.Leb128
