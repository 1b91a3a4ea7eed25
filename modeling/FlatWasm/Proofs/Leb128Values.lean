import Mathlib
import FlatWasm.Proofs.Failures
import FlatWasm.Proofs.Leb128Grammar

/-!
# What the bytes of a number denote

The format says of a number what it is in exact arithmetic: the digits to base 128 that its bytes hold, the lowest first, and
for a signed number less `128 ^ n` if the top bit of the last digit is set.  Width comes in only at the end, as a bound on the
length and as a range.  This file states that definition, with the digits of a number as the library has them, and proves that
the loaders agree with it on every byte string, whether they answer or fail (`loads_exactly_bounded_forms`).

## How the loaders are treated as one

Both loaders walk over the bytes with `groups` and look at a range afterwards.  What `groups` answers and how it fails is told
by three lemmas, each by induction on the number of bytes that may still come.  `loadsExactly_of_groups` makes of them the
statement about any loader that is built this way, so that only the sign is left: `signExtend` looks at the size of the sum and
`signedValue` at one bit of the last byte (`signExtend_unsignedValue`).
-/

namespace FlatWasm

theorem Except.map_eq_error_iff {ε α β : Type} {x : Except ε α} {f : α → β} {e : ε} :
    f <$> x = .error e ↔ x = .error e := by
  cases x with
  | error e' =>
    constructor
    · intro h
      cases h
      rfl
    · intro h
      cases h
      rfl
  | ok a =>
    constructor
    · intro h
      cases h
    · intro h
      cases h

namespace Leb128

/-! ## Forms and their values -/

/-- The bytes of one number: all but the last have the continuation bit. -/
def IsForm (bytes : List UInt8) : Prop :=
  ∃ init last, bytes = init ++ [last] ∧ (∀ b ∈ init, continues b = true) ∧ continues last = false

/-- The sum of the groups of seven bits, the lowest first. -/
def unsignedValue (form : List UInt8) : ℕ :=
  Nat.ofDigits 128 (form.map fun b => b.toNat % 128)

/-- The same, with the top bit of the last group as a sign. -/
def signedValue (form : List UInt8) : ℤ :=
  if (form.getLastD 0).toNat.testBit 6 then (unsignedValue form : ℤ) - 128 ^ form.length
  else unsignedValue form

theorem not_isForm_nil : ¬IsForm [] := by
  rintro ⟨init, last, h, -⟩
  exact List.cons_ne_nil _ _ (List.append_eq_nil_iff.mp h.symm).2

theorem IsForm.length_pos {form : List UInt8} (h : IsForm form) : 0 < form.length :=
  List.length_pos_iff.mpr fun hnil => not_isForm_nil (hnil ▸ h)

/-- A byte with the continuation bit stands in front of a form, any other byte is one. -/
theorem isForm_cons {b : UInt8} {bytes : List UInt8} :
    IsForm (b :: bytes) ↔ if continues b then IsForm bytes else bytes = [] := by
  constructor
  · rintro ⟨init, last, hsplit, hinit, hlast⟩
    cases init with
    | nil =>
      obtain ⟨rfl, rfl⟩ := List.cons_eq_cons.mp hsplit
      rw [if_neg (Bool.eq_false_iff.mp hlast)]
    | cons c init =>
      obtain ⟨rfl, rfl⟩ := List.cons_eq_cons.mp hsplit
      obtain ⟨hb, hinit⟩ := List.forall_mem_cons.mp hinit
      rw [if_pos hb]
      exact ⟨init, last, rfl, hinit, hlast⟩
  · intro h
    split at h
    · next hb =>
      obtain ⟨init, last, rfl, hinit, hlast⟩ := h
      exact ⟨b :: init, last, rfl, List.forall_mem_cons.mpr ⟨hb, hinit⟩, hlast⟩
    · next hb =>
      subst h
      exact ⟨[], b, rfl, List.forall_mem_nil _, Bool.eq_false_iff.mpr hb⟩

theorem unsignedValue_cons (b : UInt8) (form : List UInt8) :
    unsignedValue (b :: form) = b.toNat % 128 + 128 * unsignedValue form :=
  Nat.ofDigits_cons

theorem unsignedValue_concat (form : List UInt8) (b : UInt8) :
    unsignedValue (form ++ [b]) = unsignedValue form + 128 ^ form.length * (b.toNat % 128) := by
  rw [unsignedValue, List.map_append, Nat.ofDigits_append, List.length_map, List.map_singleton,
    Nat.ofDigits_singleton]
  rfl

theorem unsignedValue_lt (form : List UInt8) : unsignedValue form < 128 ^ form.length := by
  rw [← List.length_map (fun b : UInt8 => b.toNat % 128)]
  refine Nat.ofDigits_lt_base_pow_length (by decide) fun digit hdigit => ?_
  obtain ⟨b, -, rfl⟩ := List.mem_map.mp hdigit
  exact Nat.mod_lt _ (by decide)

/-- The low seven bits of a byte, by its continuation bit. -/
theorem toNat_mod_of_continues {b : UInt8} (hb : continues b = true) :
    b.toNat % 128 = b.toNat - 128 := by
  have hle : 128 ≤ b.toNat := of_decide_eq_true hb
  have hlt : b.toNat < 256 := b.toNat_lt
  omega

theorem toNat_lt_of_last {b : UInt8} (hb : continues b = false) : b.toNat < 128 :=
  Nat.lt_of_not_le (of_decide_eq_false hb)

/-- The top bit of a group of seven bits. -/
theorem testBit_six {n : ℕ} (h : n < 128) : n.testBit 6 = decide (64 ≤ n) := by
  rw [Nat.testBit_eq_decide_div_mod_eq]
  exact decide_eq_decide.mpr (by omega)

/-- **The sum is at least half of what its groups can hold if and only if the top bit of the last group is set.** -/
theorem signExtend_unsignedValue {form : List UInt8} (h : IsForm form) :
    signExtend (unsignedValue form) form.length = signedValue form := by
  obtain ⟨init, last, rfl, -, hlast⟩ := h
  have hlt := toNat_lt_of_last hlast
  have hinit := unsignedValue_lt init
  have hvalue := unsignedValue_concat init last
  rw [Nat.mod_eq_of_lt hlt] at hvalue
  have hlength : (init ++ [last]).length = init.length + 1 := List.length_append
  have hpow : Nat.pow 128 (init.length + 1) = 128 * 128 ^ init.length := Nat.pow_succ'
  have hsign : 2 * unsignedValue (init ++ [last]) < 128 * 128 ^ init.length ↔ ¬64 ≤ last.toNat := by
    rw [hvalue]
    generalize 128 ^ init.length = p at hinit ⊢
    constructor
    · intro hlow hle
      nlinarith
    · intro hle
      have : p * last.toNat ≤ p * 63 := Nat.mul_le_mul_left p (by omega)
      omega
  rw [signExtend, signedValue, List.getLastD_concat, testBit_six hlt, hlength, hpow]
  by_cases hle : 64 ≤ last.toNat
  · rw [if_neg (fun hlow => hsign.mp hlow hle), if_pos (decide_eq_true hle), pow_succ']
    push_cast
    rfl
  · rw [if_pos (hsign.mpr hle), if_neg (by simpa using hle)]

/-! ## The walk over the groups -/

section Walk

variable {width limit : ℕ} {bytes : List UInt8} {b : UInt8}

/-- A byte that continues adds its group to what the rest of the walk comes to, and fails as the rest does. -/
theorem groups_of_continues (hb : continues b = true) :
    groups width (limit + 1) (b :: bytes) =
      (fun p => (b.toNat - 128 + 128 * p.1, p.2 + 1)) <$> groups width limit bytes := by
  rw [groups, if_pos hb]
  cases groups width limit bytes <;> rfl

/-- The walk answers with the form at the start of the bytes, if there is one that is not too long. -/
theorem groups_eq_ok_iff {v n : ℕ} :
    groups width limit bytes = .ok (v, n) ↔ ∃ form rest, bytes = form ++ rest ∧ form.length = n ∧
      IsForm form ∧ n ≤ limit ∧ unsignedValue form = v := by
  induction limit generalizing bytes v n with
  | zero =>
    constructor
    · intro h
      cases h
    · rintro ⟨form, rest, -, rfl, hform, hle, -⟩
      exact absurd hle (Nat.not_le.mpr hform.length_pos)
  | succ limit ih =>
    cases bytes with
    | nil =>
      constructor
      · intro h
        cases h
      · rintro ⟨form, rest, hsplit, -, hform, -⟩
        obtain ⟨rfl, -⟩ := List.append_eq_nil_iff.mp hsplit.symm
        exact absurd hform not_isForm_nil
    | cons b bytes =>
      by_cases hb : continues b = true
      · rw [groups_of_continues hb, Except.map_eq_ok_iff]
        constructor
        · rintro ⟨⟨v', n'⟩, hg, heq⟩
          cases heq
          obtain ⟨form, rest, rfl, rfl, hform, hle, rfl⟩ := ih.mp hg
          refine ⟨b :: form, rest, rfl, rfl, isForm_cons.mpr ?_, Nat.succ_le_succ hle, ?_⟩
          · rwa [if_pos hb]
          · rw [unsignedValue_cons, toNat_mod_of_continues hb]
        · rintro ⟨form, rest, hsplit, rfl, hform, hle, rfl⟩
          obtain ⟨c, form, rfl⟩ := List.exists_cons_of_length_pos hform.length_pos
          obtain ⟨rfl, hrest⟩ := List.cons_eq_cons.mp hsplit
          have htail := isForm_cons.mp hform
          rw [if_pos hb] at htail
          refine ⟨(unsignedValue form, form.length), ?_, ?_⟩
          · exact ih.mpr ⟨form, rest, hrest, rfl, htail, Nat.le_of_succ_le_succ hle, rfl⟩
          · rw [unsignedValue_cons, toNat_mod_of_continues hb, List.length_cons]
      · have hlt := toNat_lt_of_last (Bool.eq_false_iff.mpr hb)
        have hsingle : unsignedValue [b] = b.toNat :=
          Nat.ofDigits_singleton.trans (Nat.mod_eq_of_lt hlt)
        rw [groups_of_last hlt]
        constructor
        · intro h
          cases h
          refine ⟨[b], bytes, rfl, rfl, isForm_cons.mpr ?_, Nat.succ_le_succ (Nat.zero_le _), hsingle⟩
          rw [if_neg hb]
        · rintro ⟨form, rest, hsplit, rfl, hform, -, rfl⟩
          obtain ⟨c, form, rfl⟩ := List.exists_cons_of_length_pos hform.length_pos
          obtain ⟨rfl, -⟩ := List.cons_eq_cons.mp hsplit
          have htail := isForm_cons.mp hform
          rw [if_neg hb] at htail
          rw [htail, hsingle]
          rfl

/-- The walk meets the end of the bytes if all of them continue and there could be one more. -/
theorem groups_eq_truncated_iff :
    groups width limit bytes = .error .truncated ↔
      bytes.length < limit ∧ ∀ b ∈ bytes, continues b = true := by
  induction limit generalizing bytes with
  | zero =>
    constructor
    · intro h
      cases h
    · exact fun h => absurd h.1 (Nat.not_lt_zero _)
  | succ limit ih =>
    cases bytes with
    | nil => exact ⟨fun _ => ⟨Nat.succ_pos _, List.forall_mem_nil _⟩, fun _ => rfl⟩
    | cons b bytes =>
      rw [List.length_cons, Nat.add_lt_add_iff_right, List.forall_mem_cons]
      by_cases hb : continues b = true
      · rw [groups_of_continues hb, Except.map_eq_error_iff, ih]
        exact ⟨fun h => ⟨h.1, hb, h.2⟩, fun h => ⟨h.1, h.2.2⟩⟩
      · rw [groups_of_last (toNat_lt_of_last (Bool.eq_false_iff.mpr hb))]
        constructor
        · intro h
          cases h
        · exact fun h => absurd h.2.1 hb

/-- There is no third way to fail. -/
theorem eq_of_groups_eq_error {e : Error} (h : groups width limit bytes = .error e) :
    e = .truncated ∨ e = .overflow width := by
  induction limit generalizing bytes with
  | zero =>
    cases h
    exact .inr rfl
  | succ limit ih =>
    cases bytes with
    | nil =>
      cases h
      exact .inl rfl
    | cons b bytes =>
      by_cases hb : continues b = true
      · rw [groups_of_continues hb, Except.map_eq_error_iff] at h
        exact ih h
      · rw [groups_of_last (toNat_lt_of_last (Bool.eq_false_iff.mpr hb))] at h
        cases h

end Walk

/-! ## Loaders -/

section Loaders

variable {α : Type} {bits : ℕ}

/-- The first `n` bytes are a form of `v`: they are no longer than a number of `bits` bits can be, and `v` is in range. -/
def HoldsNumber (bits : ℕ) (value : List UInt8 → α) (InRange : α → Prop) (bytes : List UInt8) (v : α)
    (n : ℕ) : Prop :=
  ∃ form rest, bytes = form ++ rest ∧ form.length = n ∧ IsForm form ∧ n ≤ bits ⌈/⌉ 7 ∧
    value form = v ∧ InRange v

/-- The bytes end inside a number: all of them continue, and a number could be longer. -/
def EndsInside (bits : ℕ) (bytes : List UInt8) : Prop :=
  bytes.length < bits ⌈/⌉ 7 ∧ ∀ b ∈ bytes, continues b = true

/-- What a loader of numbers of `bits` bits has to do, on every byte string. -/
structure LoadsExactly (bits : ℕ) (value : List UInt8 → α) (InRange : α → Prop)
    (load : List UInt8 → Except Error (α × ℕ)) : Prop where
  ok_iff : ∀ bytes v n, load bytes = .ok (v, n) ↔ HoldsNumber bits value InRange bytes v n
  truncated_iff : ∀ bytes, load bytes = .error .truncated ↔ EndsInside bits bytes
  overflow_iff : ∀ bytes, load bytes = .error (.overflow bits) ↔
    (∀ v n, ¬HoldsNumber bits value InRange bytes v n) ∧ ¬EndsInside bits bytes

theorem maxLength_eq_ceilDiv (bits : ℕ) : maxLength bits = bits ⌈/⌉ 7 := by
  rw [Nat.ceilDiv_eq_add_pred_div]
  rfl

/-- A loader that walks over the groups and then looks at a range loads what it has to, if it makes of a sum and its length
what the form denotes. -/
theorem loadsExactly_of_groups {value : List UInt8 → α} {InRange : α → Prop} [DecidablePred InRange]
    {load : List UInt8 → Except Error (α × ℕ)} (make : ℕ → ℕ → α)
    (hload : ∀ bytes, load bytes = (groups bits (maxLength bits) bytes).bind fun p =>
      if InRange (make p.1 p.2) then .ok (make p.1 p.2, p.2) else .error (.overflow bits))
    (hmake : ∀ form, IsForm form → make (unsignedValue form) form.length = value form) :
    LoadsExactly bits value InRange load := by
  have hok : ∀ bytes v n, load bytes = .ok (v, n) ↔ HoldsNumber bits value InRange bytes v n := by
    intro bytes v n
    rw [hload, HoldsNumber, ← maxLength_eq_ceilDiv]
    constructor
    · intro h
      cases hg : groups bits (maxLength bits) bytes with
      | error e =>
        rw [hg] at h
        cases h
      | ok p =>
        rw [hg, Except.bind] at h
        split at h
        · next hrange =>
          cases h
          obtain ⟨form, rest, hsplit, hlength, hform, hle, hvalue⟩ := groups_eq_ok_iff.mp hg
          have hv := hmake form hform
          rw [hvalue, hlength] at hv
          exact ⟨form, rest, hsplit, hlength, hform, hle, hv.symm, hrange⟩
        · cases h
    · rintro ⟨form, rest, hsplit, rfl, hform, hle, rfl, hrange⟩
      rw [groups_eq_ok_iff.mpr ⟨form, rest, hsplit, rfl, hform, hle, rfl⟩, Except.bind, hmake form hform,
        if_pos hrange]
  have htruncated : ∀ bytes, load bytes = .error .truncated ↔ EndsInside bits bytes := by
    intro bytes
    rw [hload, EndsInside, ← maxLength_eq_ceilDiv, ← @groups_eq_truncated_iff bits]
    cases groups bits (maxLength bits) bytes with
    | error e =>
      exact ⟨fun h => congrArg _ (Except.error.inj h), fun h => congrArg _ (Except.error.inj h)⟩
    | ok p =>
      rw [Except.bind]
      split <;> exact iff_of_false (by rintro ⟨⟩) (by rintro ⟨⟩)
  refine ⟨hok, htruncated, fun bytes => ⟨fun h => ⟨fun v n hv => ?_, fun hend => ?_⟩, ?_⟩⟩
  · cases h.symm.trans ((hok bytes v n).mpr hv)
  · cases h.symm.trans ((htruncated bytes).mpr hend)
  · rintro ⟨hnone, hinside⟩
    rw [hload]
    cases hg : groups bits (maxLength bits) bytes with
    | error e =>
      rcases eq_of_groups_eq_error hg with rfl | rfl
      · exact absurd ((htruncated bytes).mp (by rw [hload, hg]; rfl)) hinside
      · rfl
    | ok p =>
      rw [Except.bind]
      refine if_neg fun hrange => hnone _ _ ((hok bytes (make p.1 p.2) p.2).mp ?_)
      rw [hload, hg, Except.bind, if_pos hrange]

theorem loadsExactly_loadUnsigned (bits : ℕ) :
    LoadsExactly bits unsignedValue (· < 2 ^ bits) (loadUnsigned bits) := by
  refine loadsExactly_of_groups (fun v _ => v) (fun bytes => ?_) fun _ _ => rfl
  rw [loadUnsigned]
  cases groups bits (maxLength bits) bytes <;> rfl

theorem loadsExactly_loadSigned (bits : ℕ) :
    LoadsExactly bits signedValue (fun v => -2 ^ (bits - 1) ≤ v ∧ v < 2 ^ (bits - 1))
      (loadSigned bits) := by
  have hpow : ((Nat.pow 2 (bits - 1) : ℕ) : ℤ) = 2 ^ (bits - 1) := by exact_mod_cast rfl
  refine loadsExactly_of_groups signExtend (fun bytes => ?_) fun _ => signExtend_unsignedValue
  rw [loadSigned]
  simp only [hpow]
  cases groups bits (maxLength bits) bytes <;> rfl

-- the groups that pad a number repeat its sign, also in the bits of the last one that the width does not reach
example : loadSigned 33 [0xff, 0xff, 0xff, 0xff, 0x7f] = .ok (-1, 5) ∧
    loadSigned 33 [0xff, 0xff, 0xff, 0xff, 0x5f] = .error (.overflow 33) := by decide +kernel

end Loaders

end Leb128

end FlatWasm
