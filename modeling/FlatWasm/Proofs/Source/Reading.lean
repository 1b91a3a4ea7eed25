import Mathlib
import FlatWasm.Proofs.Readers
import FlatWasm.Proofs.Source.Syntax

/-!
# Instructions are read as the grammar says

`Instr.read` takes the bytes of one instruction and resolves what they refer to on the way.  The grammar of
`Source.Syntax` keeps the two apart: `Token.Encoded` is about bytes, `Token.resolve` about the module.  This file joins
them, in two halves of different strength.

* `answer_read` runs the reader on the bytes of a token, whatever comes after them: it answers exactly if the token
  resolves, and it leaves exactly what comes after.
* `exists_token_of_read` goes back: where the reader answers, the bytes it took are those of some token.

Together they say that reading succeeds on the tokens that resolve, and only there.

A refused instruction is refused with one of many causes, and which one is not a matter of the grammar.  `Reader.answer`
forgets it: with it a reader becomes a computation in `Option`, step by step the same as `Token.resolve`, and the
comparison is a matter of rewriting.
-/

namespace FlatWasm

namespace Instr

open Reader Source

/-! ## Immediates -/

/-- A number is read as its grammar says. -/
theorem word_eq_ok_iff {what : String} {bytes rest : List UInt8} {v : UInt32} :
    word what bytes = .ok (v, rest) ↔ ∃ taken, bytes = taken ++ rest ∧ Word taken v := by
  rw [word, bind_eq_ok_iff]
  constructor
  · rintro ⟨a, mid, hn, hp⟩
    obtain ⟨rfl, rfl⟩ := pure_eq_ok_iff.mp hp
    rw [number] at hn
    split at hn
    · next hl =>
      cases hn
      obtain ⟨taken, rest, rfl, rfl, hu⟩ := (Leb128.loadUnsigned_eq_ok_iff (by decide)).mp hl
      have hlt : a < 2 ^ 32 := (hu.groups_append (by decide) 32 []).2
      refine ⟨taken, by simp, ?_⟩
      rwa [Word, UInt32.toNat_ofNat_of_lt' hlt]
    · cases hn
  · rintro ⟨taken, rfl, hw⟩
    have hl := (Leb128.loadUnsigned_eq_ok_iff (by decide)).mpr ⟨taken, rest, rfl, rfl, hw⟩
    refine ⟨v.toNat, rest, ?_, ?_⟩
    · rw [number, hl]
      simp
    · rw [UInt32.ofNat_toNat]
      rfl

@[simp] theorem answer_word {what : String} {taken : List UInt8} {v : UInt32} (h : Word taken v)
    (rest : List UInt8) : answer (word what) (taken ++ rest) = some (v, rest) :=
  answer_eq_some_iff.mpr (word_eq_ok_iff.mpr ⟨taken, rfl, h⟩)

theorem signedWord_eq_ok_iff {bits : ℕ} (h0 : 0 < bits) {what : String} {bytes rest : List UInt8}
    {n : ℕ} : signedWord bits what bytes = .ok (n, rest) ↔
      ∃ taken v, bytes = taken ++ rest ∧ Leb128.Signed bits taken v ∧
        n = (BitVec.ofInt bits v).toNat := by
  rw [signedWord, bind_eq_ok_iff]
  constructor
  · rintro ⟨v, mid, hn, hp⟩
    obtain ⟨rfl, rfl⟩ := pure_eq_ok_iff.mp hp
    rw [number] at hn
    split at hn
    · next hl =>
      cases hn
      obtain ⟨taken, rest, rfl, rfl, hs⟩ := (Leb128.loadSigned_eq_ok_iff h0).mp hl
      exact ⟨taken, v, by simp, hs, rfl⟩
    · cases hn
  · rintro ⟨taken, v, rfl, hs, rfl⟩
    have hl := (Leb128.loadSigned_eq_ok_iff h0).mpr ⟨taken, rest, rfl, rfl, hs⟩
    refine ⟨v, rest, ?_, rfl⟩
    rw [number, hl]
    simp

theorem raw_eq_ok_iff {n : ℕ} {what : String} {bytes rest taken : List UInt8} :
    raw n what bytes = .ok (taken, rest) ↔ bytes = taken ++ rest ∧ taken.length = n := by
  rw [raw]
  split
  · next h =>
    rw [atLeast_iff] at h
    constructor
    · intro he
      cases he
      exact ⟨(List.take_append_drop n bytes).symm, by rw [List.length_take]; omega⟩
    · rintro ⟨rfl, rfl⟩
      simp
  · next h =>
    rw [atLeast_iff] at h
    constructor
    · intro he
      cases he
    · rintro ⟨rfl, rfl⟩
      simp at h

/-! ## Looking things up -/

@[simp] theorem answer_lookUp {α : Type} (f : IndexSpace.Error → Cause)
    (x : Except IndexSpace.Error α) (bytes : List UInt8) :
    answer (lookUp f x) bytes = x.toOption.map fun a => (a, bytes) := by
  cases x <;> rfl

@[simp] theorem answer_available {α : Type} (x : Option α) (bytes : List UInt8) :
    answer (available x) bytes = x.map fun a => (a, bytes) := by
  cases x <;> rfl

@[simp] theorem answer_invalid {α : Type} (c : Cause) (bytes : List UInt8) :
    answer (invalid c : Part α) bytes = none :=
  rfl

theorem answer_width (t : ValueType) (bytes : List UInt8) :
    answer (Reader.ofExcept (orDefect t.width : Except (Failure Cause) UInt32)) bytes =
      t.width.toOption.map fun w => (w, bytes) := by
  rw [answer_ofExcept]
  cases t.width <;> rfl

/-! ## Block types -/

theorem answer_peek (b : UInt8) (bytes : List UInt8) :
    answer peek (b :: bytes) = some (some b, b :: bytes) :=
  rfl

theorem answer_raw {n : ℕ} (what : String) {taken : List UInt8} (h : taken.length = n)
    (rest : List UInt8) : answer (raw n what) (taken ++ rest) = some (taken, rest) :=
  answer_eq_some_iff.mpr (raw_eq_ok_iff.mpr ⟨rfl, h⟩)

theorem answer_number_signed {bits : ℕ} (h0 : 0 < bits) (what : String) {taken : List UInt8} {v : ℤ}
    (h : Leb128.Signed bits taken v) (rest : List UInt8) :
    answer (number (Leb128.loadSigned bits) what) (taken ++ rest) = some (v, rest) := by
  have hl := (Leb128.loadSigned_eq_ok_iff h0).mpr ⟨taken, rest, rfl, rfl, h⟩
  rw [answer, number, hl]
  simp [Except.toOption]

/-- The numeric types are the bytes from `0x7c` to `0x7f`. -/
theorem isNumeric_iff {t : ValueType} : t.isNumeric = true ↔ 0x7c ≤ t.code.toNat ∧ t.code.toNat ≤ 0x7f := by
  obtain ⟨b⟩ := t
  have h : ∀ n < 256, (ValueType.mk (UInt8.ofNat n)).isNumeric = true ↔ 0x7c ≤ n ∧ n ≤ 0x7f := by
    decide +kernel
  have hb := h b.toNat b.toNat_lt
  rwa [UInt8.ofNat_toNat] at hb

/-- The first byte of a type index is none of the bytes that stand for themselves. -/
theorem head_of_signed_nonneg {bits : ℕ} {b : UInt8} {bytes : List UInt8} {v : ℤ}
    (h : Leb128.Signed bits (b :: bytes) v) (h0 : 0 ≤ v) : b.toNat < 64 ∨ 128 ≤ b.toNat := by
  cases h with
  | nonneg hb _ => exact .inl hb
  | neg hb hb' _ => omega
  | more hb _ _ => exact .inr hb

theorem answer_blockType {space : IndexSpace} {t : BlockType} {bs : List UInt8} (h : t.Encoded bs)
    (rest : List UInt8) :
    answer (blockType space) (bs ++ rest) = (t.resolve space).map fun ft => (ft, rest) := by
  cases h with
  | empty => rfl
  | @value t ht =>
    have hne : t.code ≠ 0x40 := by
      intro he
      have := (isNumeric_iff.mp ht).1
      rw [he] at this
      exact absurd this (by decide)
    simp only [blockType, List.cons_append, List.nil_append, answer_bind, answer_peek,
      Option.bind_some]
    rw [if_neg hne, if_pos ht]
    rfl
  | @index i bs h =>
    obtain ⟨b, bytes, rfl⟩ := List.exists_cons_of_length_pos h.length_pos
    have hb := head_of_signed_nonneg h (by omega)
    have hne : b ≠ 0x40 := by
      rintro rfl
      simp at hb
    have hnum : ¬(ValueType.mk b).isNumeric = true := by
      rw [isNumeric_iff]
      show ¬(0x7c ≤ b.toNat ∧ b.toNat ≤ 0x7f)
      omega
    have hnumber := answer_number_signed (by decide) "block type" h rest
    have hcast : UInt32.ofNat (i.toNat : ℤ).toNat = i := by
      rw [Int.toNat_natCast, UInt32.ofNat_toNat]
    rw [List.cons_append] at hnumber ⊢
    simp only [blockType, answer_bind, answer_peek, Option.bind_some]
    rw [if_neg hne, if_neg hnum]
    simp only [answer_bind, hnumber, Option.bind_some]
    rw [if_neg (by omega), answer_bind, answer_lookUp, hcast, BlockType.resolve]
    cases (space.type i).toOption with
    | none => rfl
    | some ft => cases ft <;> rfl

theorem exists_encoded_of_blockType {space : IndexSpace} {bytes rest : List UInt8} {ft : FuncType}
    (h : blockType space bytes = .ok (ft, rest)) :
    ∃ (t : BlockType) (bs : List UInt8), t.Encoded bs ∧ bytes = bs ++ rest := by
  obtain ⟨first, mid, hp, h⟩ := bind_eq_ok_iff.mp h
  cases hp
  cases bytes with
  | nil => cases h
  | cons b bytes =>
    dsimp only [List.head?_cons] at h
    split at h
    · next hb =>
      obtain ⟨taken, mid, hr, hp⟩ := bind_eq_ok_iff.mp h
      obtain ⟨-, rfl⟩ := pure_eq_ok_iff.mp hp
      obtain ⟨hs, hlen⟩ := raw_eq_ok_iff.mp hr
      obtain ⟨c, rfl⟩ := List.length_eq_one_iff.mp hlen
      cases hs
      exact ⟨.empty, [0x40], .empty, by rw [hb]; rfl⟩
    · split at h
      · next hb =>
        obtain ⟨taken, mid, hr, hp⟩ := bind_eq_ok_iff.mp h
        obtain ⟨-, rfl⟩ := pure_eq_ok_iff.mp hp
        obtain ⟨hs, hlen⟩ := raw_eq_ok_iff.mp hr
        obtain ⟨c, rfl⟩ := List.length_eq_one_iff.mp hlen
        cases hs
        exact ⟨.value ⟨b⟩, [b], .value hb, rfl⟩
      · obtain ⟨v, mid, hn, h⟩ := bind_eq_ok_iff.mp h
        rw [number] at hn
        split at hn
        · next hl =>
          cases hn
          split at h
          · cases h
          · next hv =>
            obtain ⟨x, mid, hx, ha⟩ := bind_eq_ok_iff.mp h
            obtain ⟨taken, rest', hs, rfl, hsigned⟩ :=
              (Leb128.loadSigned_eq_ok_iff (by decide)).mp hl
            have hrest : rest = rest' := by
              have h1 := (ofExcept_eq_ok_iff.mp hx).2
              have h2 := (ofExcept_eq_ok_iff.mp ha).2
              rw [← h2, ← h1, hs, List.drop_left]
            obtain ⟨value, -, -, -, hhi⟩ := hsigned.groups_append (by decide) 33 []
            have hrange : v < 2 ^ 32 := hhi
            refine ⟨.index (UInt32.ofNat v.toNat), taken, .index ?_, by rw [hs, hrest]⟩
            rw [UInt32.toNat_ofNat_of_lt' (by show v.toNat < 2 ^ 32; omega), Int.toNat_of_nonneg (by omega)]
            exact hsigned
        · cases hn

/-! ## Labels and other parts -/

theorem answer_label {depth : ℕ} {l : UInt32} {bs : List UInt8} (h : Word bs l) (rest : List UInt8) :
    answer (label depth) (bs ++ rest) = (label? depth l).map fun n => (n, rest) := by
  simp only [label, answer_bind, answer_word h, Option.bind_some, answer_ite, answer_invalid,
    answer_pure, label?]
  by_cases hl : l.toNat < depth
  · rw [if_neg (by omega), if_pos hl, Option.map_some]
  · rw [if_pos (by omega), if_neg hl, Option.map_none]

theorem exists_encoded_of_label {depth n : ℕ} {bytes rest : List UInt8}
    (h : label depth bytes = .ok (n, rest)) :
    ∃ (l : UInt32) (bs : List UInt8), Word bs l ∧ bytes = bs ++ rest := by
  obtain ⟨l, mid, hw, hl⟩ := bind_eq_ok_iff.mp h
  obtain ⟨bs, rfl, hbs⟩ := word_eq_ok_iff.mp hw
  split at hl
  · cases hl
  · obtain ⟨-, rfl⟩ := pure_eq_ok_iff.mp hl
    exact ⟨l, bs, hbs, rfl⟩

/-- Each number takes at least one byte. -/
theorem length_le_of_words {bs : List UInt8} {ls : List UInt32} (h : Words bs ls) :
    ls.length ≤ bs.length := by
  induction h with
  | nil => rfl
  | cons hw _ ih =>
    have := hw.length_pos
    simp only [List.length_cons, List.length_append]
    omega

theorem answer_labels {depth : ℕ} {ls : List UInt32} {bs : List UInt8} (h : Words bs ls)
    (first : ℕ) (rest : List UInt8) :
    answer (Reader.replicate ls.length (fun _ => label depth) first) (bs ++ rest) =
      (ls.mapM (label? depth)).map fun ns => (ns, rest) := by
  induction h generalizing first with
  | nil => rfl
  | @cons bs bs' l ls hw hs ih =>
    simp only [List.length_cons, Reader.replicate, List.append_assoc, answer_bind, answer_label hw,
      List.mapM_cons]
    cases label? depth l with
    | none => rfl
    | some n =>
      simp only [Option.map_some, Option.bind_some, ih]
      cases ls.mapM (label? depth) <;> rfl

theorem exists_encoded_of_labels {depth : ℕ} :
    ∀ {n first : ℕ} {bytes rest : List UInt8} {ns : List ℕ},
      Reader.replicate n (fun _ => label depth) first bytes = .ok (ns, rest) →
      ∃ (ls : List UInt32) (bs : List UInt8), Words bs ls ∧ ls.length = n ∧ bytes = bs ++ rest := by
  intro n
  induction n with
  | zero =>
    intro first bytes rest ns h
    obtain ⟨-, rfl⟩ := pure_eq_ok_iff.mp h
    exact ⟨[], [], .nil, rfl, rfl⟩
  | succ n ih =>
    intro first bytes rest ns h
    obtain ⟨l, mid, hl, hr⟩ := bind_eq_ok_iff.mp h
    obtain ⟨ls, mid', hls, hp⟩ := bind_eq_ok_iff.mp hr
    obtain ⟨-, rfl⟩ := pure_eq_ok_iff.mp hp
    obtain ⟨v, bs, hv, rfl⟩ := exists_encoded_of_label hl
    obtain ⟨vs, bs', hvs, rfl, rfl⟩ := ih hls
    exact ⟨v :: vs, bs ++ bs', .cons hv hvs, rfl, by rw [List.append_assoc]⟩

theorem answer_memory {space : IndexSpace} {x : UInt32} {bs : List UInt8} (h : Word bs x)
    (rest : List UInt8) :
    answer (memory space) (bs ++ rest) = (memory? space x).map fun loc => (loc, rest) := by
  simp only [memory, answer_bind, answer_word h, Option.bind_some, answer_lookUp, memory?]
  cases (space.memory x).toOption <;> rfl

theorem exists_encoded_of_memory {space : IndexSpace} {bytes rest : List UInt8} {loc : Location}
    (h : memory space bytes = .ok (loc, rest)) :
    ∃ (x : UInt32) (bs : List UInt8), Word bs x ∧ bytes = bs ++ rest := by
  obtain ⟨x, mid, hw, hr⟩ := bind_eq_ok_iff.mp h
  obtain ⟨bs, rfl, hbs⟩ := word_eq_ok_iff.mp hw
  obtain ⟨e, mid', he, hp⟩ := bind_eq_ok_iff.mp hr
  obtain ⟨-, rfl⟩ := ofExcept_eq_ok_iff.mp he
  obtain ⟨-, rfl⟩ := pure_eq_ok_iff.mp hp
  exact ⟨x, bs, hbs, rfl⟩

end Instr

end FlatWasm
