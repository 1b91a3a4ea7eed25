import Mathlib
import FlatWasm.Proofs.Source.Reading

/-!
# Tokens

The two directions between `Instr.read` and the grammar of tokens, `answer_read` and `exists_token_of_read`, are put
together here from the lemmas about parts.  Both go through the opcodes one by one.
-/

namespace FlatWasm.Instr

open Reader Source

/-! ## Alignments

The flags of an access hold an alignment and, in one bit, whether a memory index follows.  Alignments that are allowed
are small, so the bit can be taken off and put back. -/

theorem flags_first : ∀ n < 64, (UInt32.ofNat n &&& memoryIndexBit) = 0 ∧
    (UInt32.ofNat n &&& ~~~memoryIndexBit) = UInt32.ofNat n := by
  decide +kernel

theorem flags_named : ∀ n < 64, (UInt32.ofNat n + 64 &&& memoryIndexBit) ≠ 0 ∧
    (UInt32.ofNat n + 64 &&& ~~~memoryIndexBit) = UInt32.ofNat n := by
  decide +kernel

/-- Flags are their alignment and the bit. -/
theorem flags_split (flags : UInt32) :
    flags = (flags &&& ~~~memoryIndexBit) ||| (flags &&& memoryIndexBit) := by
  apply UInt32.toBitVec_inj.mp
  simp only [UInt32.toBitVec_or, UInt32.toBitVec_and, UInt32.toBitVec_not]
  ext i hi
  simp only [BitVec.getElem_or, BitVec.getElem_and, BitVec.getElem_not]
  cases flags.toBitVec[i] <;> cases memoryIndexBit.toBitVec[i] <;> rfl

theorem flags_bit (flags : UInt32) :
    (flags &&& memoryIndexBit) = 0 ∨ (flags &&& memoryIndexBit) = 64 := by
  have h : (flags &&& memoryIndexBit).toNat = flags.toNat &&& 2 ^ 6 := rfl
  rw [Nat.and_two_pow] at h
  cases hbit : flags.toNat.testBit 6 with
  | false => exact .inl (UInt32.toNat_inj.mp (by rw [h, hbit]; rfl))
  | true => exact .inr (UInt32.toNat_inj.mp (by rw [h, hbit]; rfl))

/-- An alignment that an access allows is below `4`. -/
theorem lt_of_allowsAlignment {a : Access} {align : UInt32} (h : a.allowsAlignment align = true) :
    align.toNat < 4 := by
  rw [Access.allowsAlignment, Bool.and_eq_true, decide_eq_true_eq, UInt32.le_iff_toNat_le] at h
  have h3 : align.toNat ≤ 3 := h.1
  omega

theorem or_bit : ∀ n < 4, (UInt32.ofNat n ||| 0) = UInt32.ofNat n ∧
    (UInt32.ofNat n ||| 64) = UInt32.ofNat n + 64 ∧ UInt32.ofNat n < 64 := by
  decide +kernel

theorem answer_readAccess {space : IndexSpace} {a : Access} {align offset x : UInt32}
    {bs : List UInt8} (h : Source.Placed align offset x bs) (rest : List UInt8) :
    answer (readAccess space a) (bs ++ rest) =
      (if a.allowsAlignment align then (memory? space x).map (Instr.access a offset) else none).map
        fun i => (i, rest) := by
  have hend : ∀ {os : List UInt8}, Word os offset →
      answer (do
        let offset ← word "offset"
        if a.allowsAlignment align = true then do
          let p ← lookUp .index (space.memory x)
          return Instr.access a offset p.1
        else invalid (.alignment align a.bytes)) (os ++ rest) =
      (if a.allowsAlignment align then (memory? space x).map (Instr.access a offset) else none).map
        fun i => (i, rest) := by
    intro os ho
    simp only [answer_bind, answer_word ho, Option.bind_some, answer_ite, answer_invalid,
      answer_lookUp, memory?]
    split
    · cases (space.memory x).toOption <;> rfl
    · rfl
  cases h with
  | @first as os hlt ha ho =>
    have hnat : align.toNat < 64 := UInt32.lt_iff_toNat_lt.mp hlt
    obtain ⟨h1, h2⟩ := flags_first align.toNat hnat
    rw [UInt32.ofNat_toNat] at h1 h2
    have hmem : accessMemory align = pure 0 := if_neg (by rw [h1]; decide)
    rw [readAccess, answer_bind, List.append_assoc, answer_word ha, Option.bind_some, hmem,
      answer_bind, answer_pure, Option.bind_some, h2]
    exact hend ho
  | @named _ as ms os hlt ha hm ho =>
    have hnat : align.toNat < 64 := UInt32.lt_iff_toNat_lt.mp hlt
    obtain ⟨h1, h2⟩ := flags_named align.toNat hnat
    rw [UInt32.ofNat_toNat] at h1 h2
    have hmem : accessMemory (align + 64) = word "memory index" := if_pos h1
    rw [readAccess, answer_bind, List.append_assoc, answer_word ha, Option.bind_some, hmem,
      List.append_assoc, answer_bind, answer_word hm, Option.bind_some, h2]
    exact hend ho

theorem exists_encoded_of_readAccess {space : IndexSpace} {a : Access} {bytes rest : List UInt8}
    {i : Instr} (h : readAccess space a bytes = .ok (i, rest)) :
    ∃ (align offset x : UInt32) (bs : List UInt8), Source.Placed align offset x bs ∧ bytes = bs ++ rest := by
  obtain ⟨flags, mid, hf, h₁⟩ := bind_eq_ok_iff.mp h
  obtain ⟨x, mid₁, hx, h₂⟩ := bind_eq_ok_iff.mp h₁
  obtain ⟨offset, mid₂, ho, h₃⟩ := bind_eq_ok_iff.mp h₂
  dsimp only at h₃
  split at h₃
  · next hal =>
    obtain ⟨e, mid₃, he, hp⟩ := bind_eq_ok_iff.mp h₃
    obtain ⟨-, rfl⟩ := ofExcept_eq_ok_iff.mp he
    obtain ⟨-, rfl⟩ := pure_eq_ok_iff.mp hp
    obtain ⟨as, rfl, has⟩ := word_eq_ok_iff.mp hf
    obtain ⟨os, rfl, hos⟩ := word_eq_ok_iff.mp ho
    -- the alignment is small, so the flags are the alignment with or without the bit
    have hsmall := lt_of_allowsAlignment hal
    obtain ⟨h0, h64, hlt⟩ := or_bit _ hsmall
    have hsplit := flags_split flags
    rw [UInt32.ofNat_toNat] at h0 h64 hlt
    rw [accessMemory] at hx
    rcases flags_bit flags with hbit | hbit
    · rw [if_neg (by simp [hbit])] at hx
      obtain ⟨-, rfl⟩ := pure_eq_ok_iff.mp hx
      rw [hbit, h0] at hsplit
      rw [hsplit] at has
      exact ⟨_, offset, 0, as ++ os, .first hlt has hos, by rw [List.append_assoc]⟩
    · rw [if_pos (by rw [hbit]; decide)] at hx
      obtain ⟨ms, rfl, hms⟩ := word_eq_ok_iff.mp hx
      rw [hbit, h64] at hsplit
      rw [hsplit] at has
      exact ⟨_, offset, x, as ++ (ms ++ os), .named hlt has hms hos, by simp⟩
  · cases h₃

/-! ## The other instructions with immediates -/

theorem answer_table (scope : Scope) {depth : ℕ} {n l : UInt32} {ls : List UInt32} {ns bs cs : List UInt8}
    (hn : Word ns n) (hlen : ls.length = n.toNat) (hls : Words bs ls) (hl : Word cs l)
    (rest : List UInt8) :
    answer (table depth) (ns ++ (bs ++ (cs ++ rest))) =
      ((Op.brTable ls l).resolve scope depth).map fun i => (i, rest) := by
  have hroom : ¬(bs ++ (cs ++ rest)).length ≤ ls.length := by
    have h1 := length_le_of_words hls
    have h2 := hl.length_pos
    simp only [List.length_append]
    omega
  simp only [table, answer_bind, answer_word hn, Option.bind_some, answer_remaining, answer_ite,
    ← hlen, if_neg hroom, answer_labels hls, Op.resolve]
  cases ls.mapM (label? depth) with
  | none => rfl
  | some labels =>
    simp only [Option.map_some, Option.bind_some, answer_label hl]
    cases label? depth l <;> rfl

theorem exists_encoded_of_table {depth : ℕ} {bytes rest : List UInt8} {i : Instr}
    (h : table depth bytes = .ok (i, rest)) :
    ∃ (ls : List UInt32) (l : UInt32) (bs : List UInt8),
      (Op.brTable ls l).Encoded (0x0e :: bs) ∧ bytes = bs ++ rest := by
  obtain ⟨n, mid, hn, h₁⟩ := bind_eq_ok_iff.mp h
  obtain ⟨left, mid₁, hr, h₂⟩ := bind_eq_ok_iff.mp h₁
  cases hr
  split at h₂
  · cases h₂
  · obtain ⟨ls, mid₂, hls, h₃⟩ := bind_eq_ok_iff.mp h₂
    obtain ⟨l, mid₃, hl, hp⟩ := bind_eq_ok_iff.mp h₃
    obtain ⟨-, rfl⟩ := pure_eq_ok_iff.mp hp
    obtain ⟨ns, rfl, hns⟩ := word_eq_ok_iff.mp hn
    obtain ⟨vs, bs, hvs, hlen, rfl⟩ := exists_encoded_of_labels hls
    obtain ⟨v, cs, hv, rfl⟩ := exists_encoded_of_label hl
    exact ⟨vs, v, _, .brTable hns hlen hvs hv, by simp⟩

theorem answer_readLocal {scope : Scope} {f : UInt32 → ValueType → Instr} {x : UInt32}
    {bs : List UInt8} (h : Word bs x) (rest : List UInt8) :
    answer (readLocal scope f) (bs ++ rest) =
      ((scope.locals.get? x.toNat).map (f x)).map fun i => (i, rest) := by
  simp only [readLocal, answer_bind, answer_word h, Option.bind_some]
  cases scope.locals.get? x.toNat <;> rfl

theorem answer_readGlobal {space : IndexSpace} {writes : Bool}
    {f : Location → ValueType → UInt32 → Instr} {x : UInt32} {bs : List UInt8} (h : Word bs x)
    (rest : List UInt8) :
    answer (readGlobal space writes f) (bs ++ rest) =
      ((global? space x).bind fun (loc, type, width) =>
        if (writes && !type.isMutable) = true then none
        else some (f loc type.valueType width)).map fun i => (i, rest) := by
  simp only [readGlobal, answer_bind, answer_word h, Option.bind_some, answer_lookUp, global?]
  cases (space.global x).toOption with
  | none => rfl
  | some entry =>
    obtain ⟨loc, type⟩ := entry
    cases type with
    | none => rfl
    | some type =>
      simp only [Option.map_some, Option.bind_some, answer_available, answer_width]
      cases hw : type.valueType.width.toOption with
      | none => simp [hw]
      | some width =>
        simp only [Option.map_some, Option.bind_some, answer_ite, answer_invalid, answer_pure]
        cases writes <;> cases hm : type.isMutable <;> simp [hw, hm]

theorem exists_encoded_of_readGlobal {space : IndexSpace} {writes : Bool}
    {f : Location → ValueType → UInt32 → Instr} {bytes rest : List UInt8} {i : Instr}
    (h : readGlobal space writes f bytes = .ok (i, rest)) :
    ∃ (x : UInt32) (bs : List UInt8), Word bs x ∧ bytes = bs ++ rest := by
  obtain ⟨x, mid, hw, h₁⟩ := bind_eq_ok_iff.mp h
  obtain ⟨bs, rfl, hbs⟩ := word_eq_ok_iff.mp hw
  obtain ⟨entry, mid₁, he, h₂⟩ := bind_eq_ok_iff.mp h₁
  obtain ⟨-, rfl⟩ := ofExcept_eq_ok_iff.mp he
  obtain ⟨type, mid₂, ht, h₃⟩ := bind_eq_ok_iff.mp h₂
  obtain ⟨-, rfl⟩ := ofExcept_eq_ok_iff.mp ht
  obtain ⟨width, mid₃, hwidth, h₄⟩ := bind_eq_ok_iff.mp h₃
  obtain ⟨-, rfl⟩ := ofExcept_eq_ok_iff.mp hwidth
  split at h₄
  · cases h₄
  · obtain ⟨-, rfl⟩ := pure_eq_ok_iff.mp h₄
    exact ⟨x, bs, hbs, rfl⟩

/-! ## All tokens -/

/-- No numeric operator is an access. -/
theorem ofOpcode?_eq_none_of_numeric {op : UInt8} (h : Opcode.firstNumeric ≤ op) :
    Access.ofOpcode? op = none := by
  have h' : 0x45 ≤ op.toNat := UInt8.le_iff_toNat_le.mp h
  have hlen : Access.all.length = 23 := rfl
  rw [Access.ofOpcode?, if_pos (by rw [Access.firstOpcode]; omega)]
  exact List.getElem?_eq_none (by rw [hlen, Access.firstOpcode]; omega)

theorem read_numeric {scope : Scope} {depth : ℕ} (op : NumericOp) :
    read scope depth op.code = pure (.numeric op) := by
  have h1 : 0x45 ≤ op.code.toNat := UInt8.le_iff_toNat_le.mp op.inRange.1
  have h2 : op.code.toNat ≤ 0xc4 := UInt8.le_iff_toNat_le.mp op.inRange.2
  rw [read, ofOpcode?_eq_none_of_numeric op.inRange.1]
  dsimp only
  split
  all_goals first
    | omega
    | exact dif_pos op.inRange

theorem answer_readMisc_truncate {space : IndexSpace} {op : Truncation} {bs : List UInt8}
    (h : Word bs (UInt32.ofNat op.val)) (rest : List UInt8) :
    answer (readMisc space) (bs ++ rest) = some (.truncate op, rest) := by
  have hop : op.val < 8 := op.isLt
  have hval : (UInt32.ofNat op.val).toNat = op.val :=
    UInt32.toNat_ofNat_of_lt' (by show op.val < 2 ^ 32; omega)
  simp only [readMisc, answer_bind, answer_word h, Option.bind_some]
  rw [dif_pos (by omega)]
  simp only [hval]
  rfl

theorem answer_readMisc_copy {scope : Scope} {depth : ℕ} {x y : UInt32} {ns bs cs : List UInt8}
    (hn : Word ns 10) (hx : Word bs x) (hy : Word cs y) (rest : List UInt8) :
    answer (readMisc scope.space) (ns ++ (bs ++ cs) ++ rest) =
      ((Op.memoryCopy x y).resolve scope depth).map fun i => (i, rest) := by
  have h8 : ¬(10 : UInt32).toNat < 8 := by decide
  simp only [readMisc, List.append_assoc, answer_bind, answer_word hn, Option.bind_some,
    dif_neg h8, if_true, readCopy, answer_memory hx, Op.resolve]
  cases memory? scope.space x with
  | none => rfl
  | some target =>
    simp only [Option.map_some, Option.bind_some, answer_memory hy]
    cases memory? scope.space y with
    | none => rfl
    | some source =>
      simp only [Option.map_some, Option.bind_some, answer_ite, answer_invalid, answer_pure]
      by_cases heq : target = source <;> simp [heq]

theorem answer_readMisc_fill {space : IndexSpace} {x : UInt32} {ns bs : List UInt8}
    (hn : Word ns 11) (hx : Word bs x) (rest : List UInt8) :
    answer (readMisc space) (ns ++ bs ++ rest) =
      ((memory? space x).map .memoryFill).map fun i => (i, rest) := by
  have h8 : ¬(11 : UInt32).toNat < 8 := by decide
  have h10 : ¬(11 : UInt32) = 0x0a := by decide
  simp only [readMisc, List.append_assoc, answer_bind, answer_word hn, Option.bind_some,
    dif_neg h8, if_neg h10, if_true, answer_memory hx]
  cases memory? space x <;> rfl

/-- **A token is read exactly if it resolves.**  What comes after its bytes is left. -/
theorem answer_read {scope : Scope} {depth : ℕ} {t : Token} {op : UInt8} {bs : List UInt8}
    (h : t.Encoded (op :: bs)) (rest : List UInt8) :
    answer (read scope depth op) (bs ++ rest) = (t.resolve scope depth).map fun i => (i, rest) := by
  cases h with
  | elseMark => rfl
  | endMark => rfl
  | @block t _ h =>
    show answer (do return Instr.block (← blockType scope.space)) _ = _
    rw [answer_bind, answer_blockType h, Token.resolve]
    cases t.resolve scope.space <;> rfl
  | @loop t _ h =>
    show answer (do return Instr.loop (← blockType scope.space)) _ = _
    rw [answer_bind, answer_blockType h, Token.resolve]
    cases t.resolve scope.space <;> rfl
  | @ifThen t _ h =>
    show answer (do return Instr.ifThen (← blockType scope.space)) _ = _
    rw [answer_bind, answer_blockType h, Token.resolve]
    cases t.resolve scope.space <;> rfl
  | @op o _ h =>
    rw [Token.resolve]
    cases h with
    | unreachable => rfl
    | nop => rfl
    | ret => rfl
    | drop => rfl
    | select => rfl
    | @br l _ h =>
      show answer (do return Instr.br (← label depth)) _ = _
      rw [answer_bind, answer_label h, Op.resolve]
      cases label? depth l <;> rfl
    | @brIf l _ h =>
      show answer (do return Instr.brIf (← label depth)) _ = _
      rw [answer_bind, answer_label h, Op.resolve]
      cases label? depth l <;> rfl
    | brTable hn hlen hls hl =>
      rw [List.append_assoc, List.append_assoc]
      exact answer_table scope hn hlen hls hl rest
    | @call i _ h =>
      show answer (readCall scope.space) _ = _
      simp only [readCall, answer_bind, answer_word h, Option.bind_some, answer_lookUp, Op.resolve]
      cases (scope.space.function i).toOption with
      | none => rfl
      | some entry =>
        obtain ⟨loc, type⟩ := entry
        cases type <;> rfl
    | @callIndirect y x _ _ hy hx =>
      show answer (readCallIndirect scope.space) _ = _
      simp only [readCallIndirect, List.append_assoc, answer_bind, answer_word hy, answer_word hx,
        Option.bind_some, answer_lookUp, Op.resolve]
      cases (scope.space.type y).toOption with
      | none => rfl
      | some type =>
        simp only [Option.map_some, Option.bind_some]
        cases (scope.space.table x).toOption with
        | none => rfl
        | some entry =>
          obtain ⟨loc, limits⟩ := entry
          cases type <;> rfl
    | @typedSelect t ns hn ht =>
      show answer readTypedSelect _ = _
      have hraw : answer (raw 1 "select type") ([t.code] ++ rest) = some ([t.code], rest) :=
        answer_raw "select type" (List.length_singleton : [t.code].length = 1) rest
      have h1 : ¬(1 : UInt32) ≠ 1 := by decide
      simp only [readTypedSelect, List.append_assoc, answer_bind, answer_word hn, Option.bind_some,
        if_neg h1, hraw]
      show answer (if t.isNumeric = true then _ else _) rest = _
      rw [if_pos ht]
      rfl
    | localGet h => exact answer_readLocal h rest
    | localSet h => exact answer_readLocal h rest
    | localTee h => exact answer_readLocal h rest
    | @globalGet x _ h =>
      show answer (readGlobal scope.space false .globalGet) _ = _
      rw [answer_readGlobal h, Op.resolve]
      cases global? scope.space x <;> rfl
    | @globalSet x _ h =>
      show answer (readGlobal scope.space true .globalSet) _ = _
      rw [answer_readGlobal h, Op.resolve]
      cases global? scope.space x with
      | none => rfl
      | some entry =>
        obtain ⟨loc, type, width⟩ := entry
        simp only [Option.bind_some, Bool.true_and]
        cases hm : type.isMutable <;> simp [hm]
    | @access a op align offset memory _ ha h =>
      rw [read, ha]
      exact answer_readAccess h rest
    | @memorySize x _ h =>
      show answer (do return Instr.memorySize (← memory scope.space)) _ = _
      rw [answer_bind, answer_memory h, Op.resolve]
      cases memory? scope.space x <;> rfl
    | @memoryGrow x _ h =>
      show answer (do return Instr.memoryGrow (← memory scope.space)) _ = _
      rw [answer_bind, answer_memory h, Op.resolve]
      cases memory? scope.space x <;> rfl
    | @i32Const v _ h =>
      show answer (do return Instr.const32 .i32 (UInt32.ofNat (← signedWord 32 "i32.const"))) _ = _
      have hw : answer (signedWord 32 "i32.const") (bs ++ rest) = _ :=
        answer_eq_some_iff.mpr ((signedWord_eq_ok_iff (by decide)).mpr ⟨bs, v, rfl, h, rfl⟩)
      rw [answer_bind, hw]
      rfl
    | @i64Const v _ h =>
      show answer (do return Instr.const64 .i64 (UInt64.ofNat (← signedWord 64 "i64.const"))) _ = _
      have hw : answer (signedWord 64 "i64.const") (bs ++ rest) = _ :=
        answer_eq_some_iff.mpr ((signedWord_eq_ok_iff (by decide)).mpr ⟨bs, v, rfl, h, rfl⟩)
      rw [answer_bind, hw]
      rfl
    | f32Const h =>
      show answer (do
        return Instr.const32 .f32 (UInt32.ofNat (ofLittleEndian (← raw 4 "f32.const")))) _ = _
      rw [answer_bind, answer_raw _ h]
      rfl
    | f64Const h =>
      show answer (do
        return Instr.const64 .f64 (UInt64.ofNat (ofLittleEndian (← raw 8 "f64.const")))) _ = _
      rw [answer_bind, answer_raw _ h]
      rfl
    | numeric op =>
      rw [read_numeric]
      rfl
    | truncate h => exact answer_readMisc_truncate h rest
    | memoryCopy hn hx hy => exact answer_readMisc_copy hn hx hy rest
    | memoryFill hn hx => exact answer_readMisc_fill hn hx rest

/-! ## Back to tokens -/

theorem exists_encoded_of_readMisc {space : IndexSpace} {bytes rest : List UInt8} {i : Instr}
    (h : readMisc space bytes = .ok (i, rest)) :
    ∃ (o : Op) (bs : List UInt8), o.Encoded (0xfc :: bs) ∧ bytes = bs ++ rest := by
  obtain ⟨op, mid, hw, h₁⟩ := bind_eq_ok_iff.mp h
  obtain ⟨ns, rfl, hns⟩ := word_eq_ok_iff.mp hw
  split at h₁
  · next hop =>
    obtain ⟨-, rfl⟩ := pure_eq_ok_iff.mp h₁
    refine ⟨.truncate ⟨op.toNat, hop⟩, ns, .truncate ?_, rfl⟩
    rwa [UInt32.ofNat_toNat]
  · split at h₁
    · next hop =>
      obtain ⟨target, mid₁, ht, h₂⟩ := bind_eq_ok_iff.mp h₁
      obtain ⟨source, mid₂, hs, h₃⟩ := bind_eq_ok_iff.mp h₂
      obtain ⟨x, bs, hx, rfl⟩ := exists_encoded_of_memory ht
      obtain ⟨y, cs, hy, rfl⟩ := exists_encoded_of_memory hs
      split at h₃
      · cases h₃
      · obtain ⟨-, rfl⟩ := pure_eq_ok_iff.mp h₃
        rw [hop] at hns
        exact ⟨.memoryCopy x y, _, .memoryCopy hns hx hy, by simp⟩
    · split at h₁
      · next hop =>
        obtain ⟨loc, mid₁, hl, h₂⟩ := bind_eq_ok_iff.mp h₁
        obtain ⟨x, bs, hx, rfl⟩ := exists_encoded_of_memory hl
        obtain ⟨-, rfl⟩ := pure_eq_ok_iff.mp h₂
        rw [hop] at hns
        exact ⟨.memoryFill x, _, .memoryFill hns hx, by simp⟩
      · cases h₁

theorem exists_encoded_of_readCall {space : IndexSpace} {bytes rest : List UInt8} {i : Instr}
    (h : readCall space bytes = .ok (i, rest)) :
    ∃ (x : UInt32) (bs : List UInt8), Word bs x ∧ bytes = bs ++ rest := by
  obtain ⟨x, mid, hw, h₁⟩ := bind_eq_ok_iff.mp h
  obtain ⟨bs, rfl, hbs⟩ := word_eq_ok_iff.mp hw
  obtain ⟨entry, mid₁, he, h₂⟩ := bind_eq_ok_iff.mp h₁
  obtain ⟨-, rfl⟩ := ofExcept_eq_ok_iff.mp he
  obtain ⟨type, mid₂, ht, h₃⟩ := bind_eq_ok_iff.mp h₂
  obtain ⟨-, rfl⟩ := ofExcept_eq_ok_iff.mp ht
  obtain ⟨-, rfl⟩ := pure_eq_ok_iff.mp h₃
  exact ⟨x, bs, hbs, rfl⟩

theorem exists_encoded_of_readCallIndirect {space : IndexSpace} {bytes rest : List UInt8}
    {i : Instr} (h : readCallIndirect space bytes = .ok (i, rest)) :
    ∃ (y x : UInt32) (bs : List UInt8),
      (Op.callIndirect y x).Encoded (0x11 :: bs) ∧ bytes = bs ++ rest := by
  obtain ⟨y, mid, hy, h₁⟩ := bind_eq_ok_iff.mp h
  obtain ⟨x, mid₁, hx, h₂⟩ := bind_eq_ok_iff.mp h₁
  obtain ⟨bs, rfl, hbs⟩ := word_eq_ok_iff.mp hy
  obtain ⟨cs, rfl, hcs⟩ := word_eq_ok_iff.mp hx
  obtain ⟨type, mid₂, ht, h₃⟩ := bind_eq_ok_iff.mp h₂
  obtain ⟨-, rfl⟩ := ofExcept_eq_ok_iff.mp ht
  obtain ⟨entry, mid₃, he, h₄⟩ := bind_eq_ok_iff.mp h₃
  obtain ⟨-, rfl⟩ := ofExcept_eq_ok_iff.mp he
  obtain ⟨type', mid₄, ht', h₅⟩ := bind_eq_ok_iff.mp h₄
  obtain ⟨-, rfl⟩ := ofExcept_eq_ok_iff.mp ht'
  obtain ⟨-, rfl⟩ := pure_eq_ok_iff.mp h₅
  exact ⟨y, x, _, .callIndirect hbs hcs, by simp⟩

theorem exists_encoded_of_readTypedSelect {bytes rest : List UInt8} {i : Instr}
    (h : readTypedSelect bytes = .ok (i, rest)) :
    ∃ (t : ValueType) (bs : List UInt8),
      (Op.typedSelect t).Encoded (0x1c :: bs) ∧ bytes = bs ++ rest := by
  obtain ⟨n, mid, hn, h₁⟩ := bind_eq_ok_iff.mp h
  obtain ⟨ns, rfl, hns⟩ := word_eq_ok_iff.mp hn
  split at h₁
  · cases h₁
  · next hone =>
    obtain ⟨taken, mid₁, hr, h₂⟩ := bind_eq_ok_iff.mp h₁
    obtain ⟨rfl, hlen⟩ := raw_eq_ok_iff.mp hr
    obtain ⟨b, rfl⟩ := List.length_eq_one_iff.mp hlen
    split at h₂
    · next hnum =>
      obtain ⟨-, rfl⟩ := pure_eq_ok_iff.mp h₂
      rw [not_not.mp hone] at hns
      exact ⟨⟨b⟩, ns ++ [b], .typedSelect hns hnum, by simp⟩
    · cases h₂

theorem exists_encoded_of_readLocal {scope : Scope} {f : UInt32 → ValueType → Instr}
    {bytes rest : List UInt8} {i : Instr} (h : readLocal scope f bytes = .ok (i, rest)) :
    ∃ (x : UInt32) (bs : List UInt8), Word bs x ∧ bytes = bs ++ rest := by
  obtain ⟨x, mid, hw, h₁⟩ := bind_eq_ok_iff.mp h
  obtain ⟨bs, rfl, hbs⟩ := word_eq_ok_iff.mp hw
  cases hx : scope.locals.get? x.toNat with
  | none =>
    rw [hx] at h₁
    cases h₁
  | some type =>
    rw [hx] at h₁
    obtain ⟨-, rfl⟩ := pure_eq_ok_iff.mp h₁
    exact ⟨x, bs, hbs, rfl⟩

theorem eq_ofNat_of_toNat_eq {op : UInt8} {n : ℕ} (h : op.toNat = n) : op = UInt8.ofNat n := by
  rw [← h, UInt8.ofNat_toNat]

/-- **What is read is the bytes of a token.** -/
theorem exists_token_of_read {scope : Scope} {depth : ℕ} {op : UInt8} {bytes rest : List UInt8}
    {i : Instr} (h : read scope depth op bytes = .ok (i, rest)) :
    ∃ (t : Token) (bs : List UInt8), t.Encoded (op :: bs) ∧ bytes = bs ++ rest := by
  -- an instruction without immediates is its opcode
  have plain : ∀ {t : Token} {i' : Instr}, t.Encoded [op] →
      (pure i' : Part Instr) bytes = .ok (i, rest) →
      ∃ (t : Token) (bs : List UInt8), t.Encoded (op :: bs) ∧ bytes = bs ++ rest := by
    intro t i' ht hp
    obtain ⟨-, rfl⟩ := pure_eq_ok_iff.mp hp
    exact ⟨t, [], ht, rfl⟩
  generalize hr : read scope depth op = r at h
  rw [read] at hr
  split at hr
  · next a ha =>
    subst hr
    obtain ⟨align, offset, x, bs, hp, rfl⟩ := exists_encoded_of_readAccess h
    exact ⟨.op (.access a align offset x), bs, .op (.access ha hp), rfl⟩
  · split at hr
    all_goals subst hr
    all_goals try (rename_i hop; obtain rfl := eq_ofNat_of_toNat_eq hop)
    · exact plain (.op .unreachable) h
    · exact plain (.op .nop) h
    · obtain ⟨type, mid, ht, hp⟩ := bind_eq_ok_iff.mp h
      obtain ⟨-, rfl⟩ := pure_eq_ok_iff.mp hp
      obtain ⟨t, bs, hbs, rfl⟩ := exists_encoded_of_blockType ht
      exact ⟨.block t, bs, .block hbs, rfl⟩
    · obtain ⟨type, mid, ht, hp⟩ := bind_eq_ok_iff.mp h
      obtain ⟨-, rfl⟩ := pure_eq_ok_iff.mp hp
      obtain ⟨t, bs, hbs, rfl⟩ := exists_encoded_of_blockType ht
      exact ⟨.loop t, bs, .loop hbs, rfl⟩
    · obtain ⟨type, mid, ht, hp⟩ := bind_eq_ok_iff.mp h
      obtain ⟨-, rfl⟩ := pure_eq_ok_iff.mp hp
      obtain ⟨t, bs, hbs, rfl⟩ := exists_encoded_of_blockType ht
      exact ⟨.ifThen t, bs, .ifThen hbs, rfl⟩
    · exact plain .elseMark h
    · exact plain .endMark h
    · obtain ⟨l, mid, hl, hp⟩ := bind_eq_ok_iff.mp h
      obtain ⟨-, rfl⟩ := pure_eq_ok_iff.mp hp
      obtain ⟨v, bs, hbs, rfl⟩ := exists_encoded_of_label hl
      exact ⟨.op (.br v), bs, .op (.br hbs), rfl⟩
    · obtain ⟨l, mid, hl, hp⟩ := bind_eq_ok_iff.mp h
      obtain ⟨-, rfl⟩ := pure_eq_ok_iff.mp hp
      obtain ⟨v, bs, hbs, rfl⟩ := exists_encoded_of_label hl
      exact ⟨.op (.brIf v), bs, .op (.brIf hbs), rfl⟩
    · obtain ⟨ls, l, bs, hbs, rfl⟩ := exists_encoded_of_table h
      exact ⟨.op (.brTable ls l), bs, .op hbs, rfl⟩
    · exact plain (.op .ret) h
    · obtain ⟨x, bs, hbs, rfl⟩ := exists_encoded_of_readCall h
      exact ⟨.op (.call x), bs, .op (.call hbs), rfl⟩
    · obtain ⟨y, x, bs, hbs, rfl⟩ := exists_encoded_of_readCallIndirect h
      exact ⟨.op (.callIndirect y x), bs, .op hbs, rfl⟩
    · exact plain (.op .drop) h
    · exact plain (.op .select) h
    · obtain ⟨t, bs, hbs, rfl⟩ := exists_encoded_of_readTypedSelect h
      exact ⟨.op (.typedSelect t), bs, .op hbs, rfl⟩
    · obtain ⟨x, bs, hbs, rfl⟩ := exists_encoded_of_readLocal h
      exact ⟨.op (.localGet x), bs, .op (.localGet hbs), rfl⟩
    · obtain ⟨x, bs, hbs, rfl⟩ := exists_encoded_of_readLocal h
      exact ⟨.op (.localSet x), bs, .op (.localSet hbs), rfl⟩
    · obtain ⟨x, bs, hbs, rfl⟩ := exists_encoded_of_readLocal h
      exact ⟨.op (.localTee x), bs, .op (.localTee hbs), rfl⟩
    · obtain ⟨x, bs, hbs, rfl⟩ := exists_encoded_of_readGlobal h
      exact ⟨.op (.globalGet x), bs, .op (.globalGet hbs), rfl⟩
    · obtain ⟨x, bs, hbs, rfl⟩ := exists_encoded_of_readGlobal h
      exact ⟨.op (.globalSet x), bs, .op (.globalSet hbs), rfl⟩
    · obtain ⟨loc, mid, hl, hp⟩ := bind_eq_ok_iff.mp h
      obtain ⟨-, rfl⟩ := pure_eq_ok_iff.mp hp
      obtain ⟨x, bs, hbs, rfl⟩ := exists_encoded_of_memory hl
      exact ⟨.op (.memorySize x), bs, .op (.memorySize hbs), rfl⟩
    · obtain ⟨loc, mid, hl, hp⟩ := bind_eq_ok_iff.mp h
      obtain ⟨-, rfl⟩ := pure_eq_ok_iff.mp hp
      obtain ⟨x, bs, hbs, rfl⟩ := exists_encoded_of_memory hl
      exact ⟨.op (.memoryGrow x), bs, .op (.memoryGrow hbs), rfl⟩
    · obtain ⟨n, mid, hn, hp⟩ := bind_eq_ok_iff.mp h
      obtain ⟨-, rfl⟩ := pure_eq_ok_iff.mp hp
      obtain ⟨bs, v, rfl, hbs, -⟩ := (signedWord_eq_ok_iff (by decide)).mp hn
      exact ⟨_, bs, .op (.i32Const hbs), rfl⟩
    · obtain ⟨n, mid, hn, hp⟩ := bind_eq_ok_iff.mp h
      obtain ⟨-, rfl⟩ := pure_eq_ok_iff.mp hp
      obtain ⟨bs, v, rfl, hbs, -⟩ := (signedWord_eq_ok_iff (by decide)).mp hn
      exact ⟨_, bs, .op (.i64Const hbs), rfl⟩
    · obtain ⟨bs, mid, hr, hp⟩ := bind_eq_ok_iff.mp h
      obtain ⟨-, rfl⟩ := pure_eq_ok_iff.mp hp
      obtain ⟨rfl, hlen⟩ := raw_eq_ok_iff.mp hr
      exact ⟨_, bs, .op (.f32Const hlen), rfl⟩
    · obtain ⟨bs, mid, hr, hp⟩ := bind_eq_ok_iff.mp h
      obtain ⟨-, rfl⟩ := pure_eq_ok_iff.mp hp
      obtain ⟨rfl, hlen⟩ := raw_eq_ok_iff.mp hr
      exact ⟨_, bs, .op (.f64Const hlen), rfl⟩
    · obtain ⟨o, bs, hbs, rfl⟩ := exists_encoded_of_readMisc h
      exact ⟨.op o, bs, .op hbs, rfl⟩
    · rw [readNumeric] at h
      split at h
      · next hop =>
        exact plain (.op (.numeric ⟨op, hop⟩)) h
      · cases h

end FlatWasm.Instr
