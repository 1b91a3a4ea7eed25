import Mathlib
import FlatWasm.Proofs.Leb128Forms
import FlatWasm.Proofs.Leb128Values

/-!
# The written form is the shortest one

A number has as many forms as its width leaves room for redundant groups, and the encoders write the shortest.  Three facts
about forms are enough for that, and none of them mentions a width:

* what is written is a form of the number (`unsignedValue_encodeUnsigned`, `signedValue_encodeSigned`);
* `n` groups hold exactly the numbers below `128 ^ n`, or, with a sign, those whose double is between `-128 ^ n` and
  `128 ^ n`, and the encoder writes no more groups than the number asks for (`length_encodeUnsigned_le_iff`,
  `length_encodeSigned_le_iff`);
* forms of one length with one value are the same bytes (`IsForm.eq_of_unsignedValue`, `IsForm.eq_of_signedValue`), so that
  there is no second one of the least length.

A number in the range of a width has a form within the length of that width, so the loader of that width reads it back
(`isShortest_encodeUnsigned`, `isShortest_encodeSigned`).
-/

namespace FlatWasm.Leb128

/-! ## Forms of one length -/

/-- **The groups of a form are its bytes.**  Where a form ends is seen from its length. -/
theorem IsForm.eq_of_unsignedValue {s t : List UInt8} (hs : IsForm s) (ht : IsForm t)
    (hlength : s.length = t.length) (hvalue : unsignedValue s = unsignedValue t) : s = t := by
  induction s generalizing t with
  | nil => exact absurd hs not_isForm_nil
  | cons b s ih =>
    obtain ⟨c, t, rfl⟩ := List.exists_cons_of_length_pos ht.length_pos
    rw [unsignedValue_cons, unsignedValue_cons] at hvalue
    replace hlength : s.length = t.length := Nat.succ.inj hlength
    have hlow : b.toNat % 128 = c.toNat % 128 := by omega
    have htail : unsignedValue s = unsignedValue t := by omega
    rw [isForm_cons] at hs ht
    by_cases hb : continues b = true
    · rw [if_pos hb] at hs
      have hc : continues c = true := by
        by_contra hc
        rw [if_neg hc] at ht
        have hpos := hs.length_pos
        rw [hlength, ht] at hpos
        exact Nat.lt_irrefl 0 hpos
      rw [if_pos hc] at ht
      rw [toNat_mod_of_continues hb, toNat_mod_of_continues hc] at hlow
      have hble : 128 ≤ b.toNat := of_decide_eq_true hb
      have hcle : 128 ≤ c.toNat := of_decide_eq_true hc
      rw [UInt8.toNat_inj.mp (show b.toNat = c.toNat by omega), ih hs ht hlength htail]
    · rw [if_neg hb] at hs
      subst hs
      obtain rfl : t = [] := List.length_eq_zero_iff.mp hlength.symm
      have hc : ¬continues c = true := by
        intro hc
        rw [if_pos hc] at ht
        exact not_isForm_nil ht
      have hblt := toNat_lt_of_last (Bool.eq_false_iff.mpr hb)
      have hclt := toNat_lt_of_last (Bool.eq_false_iff.mpr hc)
      rw [Nat.mod_eq_of_lt hblt, Nat.mod_eq_of_lt hclt] at hlow
      rw [UInt8.toNat_inj.mp hlow]

/-- The value with a sign is the value without one, up to a multiple of what the groups can hold. -/
theorem signedValue_emod (form : List UInt8) :
    signedValue form % 128 ^ form.length = unsignedValue form := by
  have hlt : (unsignedValue form : ℤ) < 128 ^ form.length := by exact_mod_cast unsignedValue_lt form
  have hself : (unsignedValue form : ℤ) % 128 ^ form.length = unsignedValue form :=
    Int.emod_eq_of_lt (Int.natCast_nonneg _) hlt
  rw [signedValue]
  split
  · rw [Int.sub_emod_right, hself]
  · exact hself

theorem IsForm.eq_of_signedValue {s t : List UInt8} (hs : IsForm s) (ht : IsForm t)
    (hlength : s.length = t.length) (hvalue : signedValue s = signedValue t) : s = t := by
  refine hs.eq_of_unsignedValue ht hlength (Int.natCast_inj.mp ?_)
  rw [← signedValue_emod, ← signedValue_emod, hvalue, hlength]

/-- With a sign, half of what the groups can hold is below zero. -/
theorem IsForm.signedValue_bounds {form : List UInt8} (h : IsForm form) :
    -128 ^ form.length ≤ 2 * signedValue form ∧ 2 * signedValue form < 128 ^ form.length := by
  have hlt := unsignedValue_lt form
  have hpow : Nat.pow 128 form.length = 128 ^ form.length := rfl
  rw [← signExtend_unsignedValue h, signExtend, hpow]
  have hcast : ((128 ^ form.length : ℕ) : ℤ) = 128 ^ form.length := by push_cast; rfl
  rw [← hcast]
  generalize 128 ^ form.length = p at hlt ⊢
  split <;> omega

/-! ## What is written -/

theorem continues_ofNat_add {n : ℕ} (h : n < 128) :
    continues (UInt8.ofNat (n + 128)) = true ∧ (UInt8.ofNat (n + 128)).toNat % 128 = n := by
  have hb : (UInt8.ofNat (n + 128)).toNat = n + 128 :=
    UInt8.toNat_ofNat_of_lt' (show n + 128 < 256 by omega)
  exact ⟨decide_eq_true (by omega), by omega⟩

theorem continues_ofNat {n : ℕ} (h : n < 128) :
    continues (UInt8.ofNat n) = false ∧ (UInt8.ofNat n).toNat = n := by
  have hb : (UInt8.ofNat n).toNat = n := UInt8.toNat_ofNat_of_lt' (show n < 256 by omega)
  exact ⟨decide_eq_false (by omega), hb⟩

theorem isForm_singleton {b : UInt8} (h : continues b = false) : IsForm [b] :=
  ⟨[], b, rfl, List.forall_mem_nil _, h⟩

theorem IsForm.cons {b : UInt8} {form : List UInt8} (hb : continues b = true) (h : IsForm form) :
    IsForm (b :: form) := by
  rw [isForm_cons, if_pos hb]
  exact h

theorem isForm_encodeUnsigned (n : ℕ) : IsForm (encodeUnsigned n) := by
  fun_induction encodeUnsigned n with
  | case1 n hn => exact isForm_singleton (continues_ofNat hn).1
  | case2 n hn ih => exact ih.cons (continues_ofNat_add (Nat.mod_lt n (by decide))).1

theorem unsignedValue_encodeUnsigned (n : ℕ) : unsignedValue (encodeUnsigned n) = n := by
  fun_induction encodeUnsigned n with
  | case1 n hn =>
    rw [unsignedValue_cons, (continues_ofNat hn).2, Nat.mod_eq_of_lt hn]
    rfl
  | case2 n hn ih =>
    rw [unsignedValue_cons, (continues_ofNat_add (Nat.mod_lt n (by decide))).2, ih]
    exact Nat.mod_add_div n 128

theorem signedValue_singleton {b : UInt8} (h : b.toNat < 128) :
    signedValue [b] = if 64 ≤ b.toNat then (b.toNat : ℤ) - 128 else b.toNat := by
  have hvalue : unsignedValue [b] = b.toNat := Nat.ofDigits_singleton.trans (Nat.mod_eq_of_lt h)
  rw [signedValue, hvalue]
  show (if b.toNat.testBit 6 = true then (b.toNat : ℤ) - 128 ^ 1 else (b.toNat : ℤ)) = _
  simp only [testBit_six h, decide_eq_true_eq, pow_one]

/-- The sign of a form is the sign of what follows its first byte. -/
theorem signedValue_cons {b : UInt8} {form : List UInt8} (h : IsForm form) :
    signedValue (b :: form) = 128 * signedValue form + (b.toNat % 128 : ℕ) := by
  obtain ⟨init, last, rfl, -⟩ := h
  have hlast : ((b :: (init ++ [last])).getLastD 0) = last := by
    rw [← List.cons_append, List.getLastD_concat]
  rw [signedValue, signedValue, hlast, List.getLastD_concat, unsignedValue_cons, List.length_cons,
    pow_succ']
  split
  · push_cast
    ring
  · push_cast
    ring

theorem isForm_encodeSigned (v : ℤ) : IsForm (encodeSigned v) := by
  fun_induction encodeSigned v with
  | case1 v hv => exact isForm_singleton (continues_ofNat (by omega)).1
  | case2 v hv ih => exact ih.cons (continues_ofNat_add (by omega)).1

theorem signedValue_encodeSigned (v : ℤ) : signedValue (encodeSigned v) = v := by
  fun_induction encodeSigned v with
  | case1 v hv =>
    have hbyte := (continues_ofNat (n := (v % 128).toNat) (by omega)).2
    rw [signedValue_singleton (by omega), hbyte]
    -- the low group of a number below zero is the number plus 128
    split <;> omega
  | case2 v hv ih =>
    rw [signedValue_cons (isForm_encodeSigned _), ih,
      (continues_ofNat_add (n := (v % 128).toNat) (by omega)).2]
    omega

theorem length_encodeSigned_pos (v : ℤ) : 0 < (encodeSigned v).length :=
  (isForm_encodeSigned v).length_pos

/-- Each byte of the shortest form holds seven bits, of which one is the sign. -/
theorem length_encodeSigned_le_iff {v : ℤ} {k : ℕ} (hk : 0 < k) :
    (encodeSigned v).length ≤ k ↔ -128 ^ k ≤ 2 * v ∧ 2 * v < 128 ^ k := by
  induction k, hk using Nat.le_induction generalizing v with
  | base =>
    rw [encodeSigned]
    split
    · next hv =>
      rw [List.length_singleton]
      omega
    · next hv =>
      have hpos := length_encodeSigned_pos (v / 128)
      rw [List.length_cons]
      omega
  | succ k hk ih =>
    -- the bound is even, so it can be compared with the number itself
    obtain ⟨j, rfl⟩ : ∃ j, k = j + 1 := ⟨k - 1, by omega⟩
    have hone : (0 : ℤ) < 128 ^ j := by positivity
    have hsucc : (128 : ℤ) ^ (j + 1) = 128 * 128 ^ j := pow_succ' 128 j
    rw [encodeSigned, pow_succ', hsucc]
    split
    · next hv =>
      rw [List.length_singleton]
      omega
    · rw [List.length_cons, Nat.add_le_add_iff_right, ih, hsucc]
      omega

/-! ## The shortest form -/

section Shortest

variable {α : Type} {bits : ℕ}

/-- A form that is read back in full, whatever follows it, and that is shorter than any other byte string that is read as the
same number in full. -/
structure IsShortest (load : List UInt8 → Except Error (α × ℕ)) (v : α) (form : List UInt8) :
    Prop where
  loads : ∀ rest, load (form ++ rest) = .ok (v, form.length)
  shortest : ∀ other, load other = .ok (v, other.length) → other ≠ form →
    form.length < other.length

/-- A form of a number in range is the shortest one if its length is the least, and is within the bound. -/
theorem LoadsExactly.isShortest {value : List UInt8 → α} {InRange : α → Prop}
    {load : List UInt8 → Except Error (α × ℕ)} (h : LoadsExactly bits value InRange load) {v : α}
    {form : List UInt8} (hform : IsForm form) (hvalue : value form = v) (hrange : InRange v)
    (hbound : form.length ≤ bits ⌈/⌉ 7)
    (hleast : ∀ other, IsForm other → value other = v → form.length ≤ other.length)
    (heq : ∀ other, IsForm other → value other = v → other.length = form.length → other = form) :
    IsShortest load v form where
  loads rest := (h.ok_iff _ v _).mpr ⟨form, rest, rfl, rfl, hform, hbound, hvalue, hrange⟩
  shortest other hother hne := by
    obtain ⟨taken, rest, hsplit, hlength, htaken, -, hv, -⟩ := (h.ok_iff other v _).mp hother
    -- in full: nothing is left
    obtain rfl : rest = [] := by
      rw [hsplit, List.length_append] at hlength
      exact List.length_eq_zero_iff.mp (by omega)
    rw [List.append_nil] at hsplit
    subst hsplit
    exact lt_of_le_of_ne (hleast other htaken hv) fun hlen => hne (heq other htaken hv hlen.symm)

theorem two_pow_le_pow_ceilDiv (bits : ℕ) : 2 ^ bits ≤ 128 ^ (bits ⌈/⌉ 7) := by
  have hle : bits ≤ 7 * (bits ⌈/⌉ 7) := by
    rw [Nat.ceilDiv_eq_add_pred_div]
    omega
  calc 2 ^ bits ≤ 2 ^ (7 * (bits ⌈/⌉ 7)) := Nat.pow_le_pow_right (by decide) hle
    _ = 128 ^ (bits ⌈/⌉ 7) := by rw [pow_mul]; norm_num

theorem ceilDiv_pos (hbits : 0 < bits) : 0 < bits ⌈/⌉ 7 := by
  rw [Nat.ceilDiv_eq_add_pred_div]
  omega

/-- **An unsigned number of a width is written in the shortest form that the loader of that width accepts.** -/
theorem isShortest_encodeUnsigned {n : ℕ} (hbits : 0 < bits) (hn : n < 2 ^ bits) :
    IsShortest (loadUnsigned bits) n (encodeUnsigned n) := by
  have hform := isForm_encodeUnsigned n
  have hvalue := unsignedValue_encodeUnsigned n
  refine (loadsExactly_loadUnsigned bits).isShortest hform hvalue hn ?_ (fun other hother hv => ?_)
    fun other hother hv hlength => hother.eq_of_unsignedValue hform hlength (hv.trans hvalue.symm)
  · exact (length_encodeUnsigned_le_iff (ceilDiv_pos hbits)).mpr
      (hn.trans_le (two_pow_le_pow_ceilDiv bits))
  · exact (length_encodeUnsigned_le_iff hother.length_pos).mpr (hv ▸ unsignedValue_lt other)

/-- **The same for signed numbers.** -/
theorem isShortest_encodeSigned {v : ℤ} (hbits : 0 < bits) (hlow : -2 ^ (bits - 1) ≤ v)
    (hhigh : v < 2 ^ (bits - 1)) : IsShortest (loadSigned bits) v (encodeSigned v) := by
  have hform := isForm_encodeSigned v
  have hvalue := signedValue_encodeSigned v
  refine (loadsExactly_loadSigned bits).isShortest hform hvalue ⟨hlow, hhigh⟩ ?_
    (fun other hother hv => ?_)
    fun other hother hv hlength => hother.eq_of_signedValue hform hlength (hv.trans hvalue.symm)
  · have hpow : (2 : ℤ) ^ bits ≤ 128 ^ (bits ⌈/⌉ 7) := by exact_mod_cast two_pow_le_pow_ceilDiv bits
    have hhalf : (2 : ℤ) ^ bits = 2 * 2 ^ (bits - 1) := by
      rw [← pow_succ', Nat.sub_add_cancel hbits]
    refine (length_encodeSigned_le_iff (ceilDiv_pos hbits)).mpr ⟨?_, ?_⟩
    · linarith
    · linarith
  · exact (length_encodeSigned_le_iff hother.length_pos).mpr (hv ▸ hother.signedValue_bounds)

/-- **Every word is written in its shortest form and read back**: words of 32 and 64 bits without and with a sign, and numbers
of 33 bits with one. -/
theorem words_written_shortest :
    (∀ v : UInt32, IsShortest (loadUnsigned 32) v.toNat (encodeUnsigned v.toNat)) ∧
      (∀ v : UInt64, IsShortest (loadUnsigned 64) v.toNat (encodeUnsigned v.toNat)) ∧
      (∀ v : Int32, IsShortest (loadSigned 32) v.toInt (encodeSigned v.toInt)) ∧
      (∀ v : Int64, IsShortest (loadSigned 64) v.toInt (encodeSigned v.toInt)) ∧
      ∀ v : ℤ, -2 ^ 32 ≤ v → v < 2 ^ 32 → IsShortest (loadSigned 33) v (encodeSigned v) :=
  ⟨fun v => isShortest_encodeUnsigned (by decide) v.toNat_lt,
    fun v => isShortest_encodeUnsigned (by decide) v.toNat_lt,
    fun v => isShortest_encodeSigned (by decide) v.le_toInt v.toInt_lt,
    fun v => isShortest_encodeSigned (by decide) v.le_toInt v.toInt_lt,
    fun _ hlow hhigh => isShortest_encodeSigned (by decide) hlow hhigh⟩

/-- The least number of 33 bits fills the five bytes that a number of this width may have. -/
theorem leastOf33_written_shortest :
    IsShortest (loadSigned 33) (-2 ^ 32) [0x80, 0x80, 0x80, 0x80, 0x70] := by
  have hbytes : encodeSigned (-2 ^ 32) = [0x80, 0x80, 0x80, 0x80, 0x70] := by
    simp [encodeSigned]
  rw [← hbytes]
  exact words_written_shortest.2.2.2.2 (-2 ^ 32) le_rfl (by decide)

end Shortest

end FlatWasm.Leb128
