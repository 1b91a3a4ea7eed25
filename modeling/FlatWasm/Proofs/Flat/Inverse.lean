import Mathlib
import FlatWasm.Proofs.Flat.Lines

/-!
# Listings and bytes are inverse to each other

A listing shows an instruction as an opcode and some numbers.  `Plain` is an instruction in that form, and its bytes are
said without the typed instructions: an opcode has a `Layout`, the layout gives each number its width, and the numbers follow
the opcode, each in so many bytes, the lowest first.

* What `disassemble` answers spells the bytes that it was given (`Shape.spelled`, `disassembleFrom_eq_ok`).
* Plain instructions with an opcode and with numbers of the right count and width are listed as they are
  (`Plain.WellFormed.exists_instr`).

## Why the reader is classified by opcode

The reader of instructions and the table of layouts are two case distinctions on one byte, written down apart from each other.
`Shape` brings them together: for every opcode it names the reader and the layout, and `shape_read` is the only place where
all opcodes are gone through.  That a reader takes what the layout says, and that there is an instruction for all numbers of
the layout, is then shown once for each of the eight shapes.
-/

namespace FlatWasm.Flat

open Reader

/-! ## Plain instructions -/

/-- How the immediates of an instruction are laid out. -/
inductive Layout where
  /-- Words of four bytes. -/
  | words (count : ℕ)
  /-- A word of eight bytes. -/
  | wide
  /-- A byte, then a word of four bytes. -/
  | location
  /-- What is kept and a count, then two words for each of so many entries and for one more. -/
  | table
deriving DecidableEq, Repr

namespace Layout

/-- The layout that goes with an opcode; none for a byte that is no opcode. -/
def ofOpcode? (op : UInt8) : Option Layout :=
  if 0x45 ≤ op ∧ op ≤ 0xcc then some (.words 0)
  else if 0x18 ≤ op ∧ op ≤ 0x31 then some (.words ((op.toNat - 0x18) % 2))
  else
    match op.toNat with
    | 0x00 | 0x0c | 0x0d | 0x14 | 0x15 | 0x16 | 0x17 | 0x32 | 0x33 | 0x34 | 0x35 => some (.words 0)
    | 0x01 | 0x02 | 0x03 | 0x04 | 0x09 | 0x0a | 0x0b | 0x0e | 0x0f | 0x10 | 0x36 => some (.words 1)
    | 0x08 => some (.words 2)
    | 0x05 | 0x06 => some (.words 3)
    | 0x37 => some .wide
    | 0x11 | 0x12 | 0x13 => some .location
    | 0x07 => some .table
    | _ => none

/-- The widths of immediates in bytes.  How many a table has is said by the second of them. -/
def widths (l : Layout) (immediates : List ℕ) : List ℕ :=
  match l with
  | .words count => List.replicate count 4
  | .wide => [8]
  | .location => [1, 4]
  | .table => List.replicate (2 + 2 * (immediates.getD 1 0 + 1)) 4

end Layout

/-- An instruction as an opcode and numbers. -/
structure Plain where
  opcode : UInt8
  immediates : List ℕ
deriving DecidableEq, Repr

namespace Plain

/-- The widths that the immediates should have. -/
def widths (p : Plain) : List ℕ :=
  (Layout.ofOpcode? p.opcode).elim [] (·.widths p.immediates)

/-- The opcode is one, and there are as many immediates as it asks for, each within its width. -/
structure WellFormed (p : Plain) : Prop where
  opcode : (Layout.ofOpcode? p.opcode).isSome
  immediates : List.Forall₂ (fun v width => v < 256 ^ width) p.immediates p.widths

/-- The opcode and then the immediates, the lowest byte of each first. -/
def bytes (p : Plain) : List UInt8 :=
  p.opcode :: (List.zipWith littleEndian p.widths p.immediates).flatten

end Plain

/-- An instruction as it is listed. -/
def Instr.plain (i : Instr) : Plain :=
  ⟨i.opcode, i.immediates⟩

/-- The instruction of a line as it is listed. -/
def Line.plain (l : Line) : Plain :=
  l.instr.plain

section Words

variable {p : Plain} {ws : List UInt32}

/-- Immediates that are words of four bytes. -/
theorem Plain.wellFormed_of_words (hop : (Layout.ofOpcode? p.opcode).isSome)
    (hi : p.immediates = ws.map UInt32.toNat) (hw : p.widths = List.replicate ws.length 4) :
    p.WellFormed := by
  refine ⟨hop, ?_⟩
  rw [hw, hi]
  clear hi hw
  induction ws with
  | nil => exact .nil
  | cons w ws ih => exact .cons w.toNat_lt ih

theorem Plain.bytes_of_words (hi : p.immediates = ws.map UInt32.toNat)
    (hw : p.widths = List.replicate ws.length 4) : p.bytes = p.opcode :: ws.flatMap word32 := by
  rw [bytes, hw, hi]
  clear hi hw
  congr 1
  induction ws with
  | nil => rfl
  | cons w ws ih =>
    rw [List.length_cons, List.replicate_succ, List.map_cons, List.zipWith_cons_cons,
      List.flatten_cons, ih, List.flatMap_cons, word32]

/-- Words of four bytes are all there can be where each has the width of four. -/
theorem exists_words {vs : List ℕ} {n : ℕ}
    (h : List.Forall₂ (fun v width => v < 256 ^ width) vs (List.replicate n 4)) :
    ∃ ws : List UInt32, ws.length = n ∧ vs = ws.map UInt32.toNat := by
  induction n generalizing vs with
  | zero =>
    cases h
    exact ⟨[], rfl, rfl⟩
  | succ n ih =>
    rw [List.replicate_succ] at h
    obtain ⟨v, vs, hv, hvs, rfl⟩ := List.forall₂_cons_right_iff.mp h
    obtain ⟨ws, hlen, rfl⟩ := ih hvs
    refine ⟨UInt32.ofNat v :: ws, congrArg Nat.succ hlen, ?_⟩
    rw [List.map_cons, UInt32.toNat_ofNat_of_lt' hv]

end Words

/-! ## Words -/

theorem readWord_eq_ok_iff {n v : ℕ} {bytes rest : List UInt8} :
    readWord n bytes = .ok (v, rest) ↔
      ∃ taken, bytes = taken ++ rest ∧ taken.length = n ∧ v = ofLittleEndian taken := by
  constructor
  · intro h
    rw [readWord] at h
    split at h
    · next hn =>
      cases h
      refine ⟨bytes.take n, (List.take_append_drop n bytes).symm, ?_, rfl⟩
      rw [List.length_take, min_eq_left (Reader.atLeast_iff.mp hn)]
    · cases h
  · rintro ⟨taken, rfl, rfl, rfl⟩
    exact reads_readWord taken rest

/-- A word is read from the four bytes that it is written in. -/
theorem accepts_read32 : read32.Accepts fun v taken => taken = word32 v := by
  refine ⟨fun h => h ▸ reads_read32 _, fun {bytes rest v} h => ?_⟩
  obtain ⟨n, mid, hn, hp⟩ := bind_eq_ok_iff.mp h
  obtain ⟨rfl, rfl⟩ := pure_eq_ok_iff.mp hp
  obtain ⟨taken, rfl, hlen, rfl⟩ := readWord_eq_ok_iff.mp hn
  exact ⟨taken, rfl, (word32_ofLittleEndian hlen).symm⟩

theorem accepts_readEntry : readEntry.Accepts fun e taken => taken = Instr.encodeEntry e := by
  refine ⟨fun h => h ▸ Instr.reads_readEntry _, fun h => ?_⟩
  obtain ⟨drop, _, mid, rfl, rfl, h'⟩ := accepts_read32.of_bind h
  obtain ⟨target, _, mid, rfl, rfl, hp⟩ := accepts_read32.of_bind h'
  obtain ⟨rfl, rfl⟩ := pure_eq_ok_iff.mp hp
  exact ⟨_, (List.append_assoc _ _ _).symm, rfl⟩

theorem flatMap_of_items {es : List Entry} {taken : List UInt8}
    (h : Items (fun e taken => taken = Instr.encodeEntry e) es taken) :
    taken = es.flatMap Instr.encodeEntry := by
  induction h with
  | nil => rfl
  | cons h _ ih => rw [List.flatMap_cons, h, ih]

/-! ## Shapes of readers -/

/-- What the reader for an opcode is, with the layout that goes with it. -/
inductive Shape : UInt8 → Reader Fault Instr → Prop where
  | invalid {op : UInt8} (hl : Layout.ofOpcode? op = none) : Shape op (Reader.fail .opcode)
  | bare {op : UInt8} {i : Instr} (hl : Layout.ofOpcode? op = some (.words 0))
      (hi : i.plain = ⟨op, []⟩) : Shape op (pure i)
  | one {op : UInt8} {f : UInt32 → Instr} (hl : Layout.ofOpcode? op = some (.words 1))
      (hi : ∀ v, (f v).plain = ⟨op, [v.toNat]⟩) : Shape op (Instr.read1 f)
  | two : Shape 0x08 Instr.readReturn
  | three {op : UInt8} {f : UInt32 → UInt32 → UInt32 → Instr}
      (hl : Layout.ofOpcode? op = some (.words 3))
      (hi : ∀ a b c, (f a b c).plain = ⟨op, [a.toNat, b.toNat, c.toNat]⟩) :
      Shape op (Instr.read3 f)
  | wide : Shape 0x37 (do return .const64 (UInt64.ofNat (← readWord 8)))
  | location {op : UInt8} {kind : StoreKind} (hl : Layout.ofOpcode? op = some .location)
      (hi : ∀ origin position, (Instr.use kind origin position).plain =
        ⟨op, [origin.toNat, position.toNat]⟩) : Shape op (Instr.readUse kind)
  | table : Shape 0x07 Instr.readTable

/-- An opcode in a run of opcodes is given by its place there. -/
theorem exists_place {op : UInt8} {first count : ℕ} (hle : first ≤ op.toNat)
    (hlt : op.toNat < first + count) : ∃ k < count, op = UInt8.ofNat (first + k) := by
  refine ⟨op.toNat - first, by omega, ?_⟩
  rw [Nat.add_sub_cancel' hle, UInt8.ofNat_toNat]

/-- **The reader of every opcode has the shape of its layout.** -/
theorem shape_read (op : UInt8) : Shape op (Instr.read op) := by
  rw [Instr.read]
  split
  · next h =>
    have hop : 0x45 ≤ op ∧ op ≤ 0xcc := ⟨h.1, UInt8.le_trans h.2 (by decide)⟩
    exact .bare (by rw [Layout.ofOpcode?, if_pos hop]) rfl
  split
  · -- the loads, in pairs without and with an offset
    next h =>
    obtain ⟨k, hk, rfl⟩ : ∃ k < 18, op = UInt8.ofNat (0x18 + k) := exists_place h.1 h.2
    interval_cases k
    all_goals first
      | exact .bare rfl rfl
      | exact .one rfl fun _ => rfl
  split
  · -- the stores, likewise
    next h =>
    obtain ⟨k, hk, rfl⟩ : ∃ k < 8, op = UInt8.ofNat (0x2a + k) := exists_place h.1 h.2
    interval_cases k
    all_goals first
      | exact .bare rfl rfl
      | exact .one rfl fun _ => rfl
  split
  · next h =>
    obtain ⟨k, hk, rfl⟩ : ∃ k < 8, op = UInt8.ofNat (0xc5 + k) := exists_place h.1 h.2
    interval_cases k <;> exact .bare rfl rfl
  -- what is left are single opcodes
  next hnumeric hload hstore htruncate =>
  have hrun : ¬(0x45 ≤ op ∧ op ≤ 0xcc) ∧ ¬(0x18 ≤ op ∧ op ≤ 0x31) := by
    change ¬(0x45 ≤ op.toNat ∧ op.toNat ≤ 0xc4) at hnumeric
    change ¬(0x18 ≤ op.toNat ∧ op.toNat < 0x2a) at hload
    change ¬(0x2a ≤ op.toNat ∧ op.toNat < 0x32) at hstore
    change ¬(0xc5 ≤ op.toNat ∧ op.toNat < 0xcd) at htruncate
    change ¬(0x45 ≤ op.toNat ∧ op.toNat ≤ 0xcc) ∧ ¬(0x18 ≤ op.toNat ∧ op.toNat ≤ 0x31)
    omega
  split
  case h_31 =>
    refine .invalid ?_
    rw [Layout.ofOpcode?, if_neg hrun.1, if_neg hrun.2]
    split
    all_goals first
      | rfl
      | contradiction
  all_goals
    next h =>
    obtain rfl : op = UInt8.ofNat _ := UInt8.ofNat_toNat.symm.trans (congrArg UInt8.ofNat h)
    first
      | exact .bare rfl rfl
      | exact .one rfl fun _ => rfl
      | exact .two
      | exact .three rfl fun _ _ _ => rfl
      | exact .wide
      | exact .location rfl fun _ _ => rfl
      | exact .table

/-! ## What readers take, and what there is to read -/

theorem Instr.fits_of_layout {i : Instr} (h : Layout.ofOpcode? i.opcode ≠ some .table) :
    i.Fits := by
  cases i with
  | brTable keep entries fallback => exact absurd rfl h
  | _ => trivial

/-- An instruction can be written, and its listed form spells these bytes. -/
structure Instr.Spelled (i : Instr) (bytes : List UInt8) : Prop where
  fits : i.Fits
  wellFormed : i.plain.WellFormed
  bytes : i.plain.bytes = bytes

theorem Instr.spelled_of_words {i : Instr} {op : UInt8} (ws : List UInt32)
    (hl : Layout.ofOpcode? op = some (.words ws.length))
    (hi : i.plain = ⟨op, ws.map UInt32.toNat⟩) : i.Spelled (op :: ws.flatMap word32) := by
  have hw : (⟨op, ws.map UInt32.toNat⟩ : Plain).widths = List.replicate ws.length 4 := by
    rw [Plain.widths, hl]
    rfl
  have hop : i.opcode = op := congrArg Plain.opcode hi
  refine ⟨fits_of_layout ?_, ?_, ?_⟩
  · rw [hop, hl]
    intro h
    cases h
  · rw [hi]
    exact Plain.wellFormed_of_words (by rw [hl]; rfl) rfl hw
  · rw [hi]
    exact Plain.bytes_of_words rfl hw

/-- A marker has a byte before its word. -/
theorem Instr.spelled_use {kind : StoreKind} {op origin : UInt8} {position : UInt32}
    (hl : Layout.ofOpcode? op = some .location)
    (hi : (Instr.use kind origin position).plain = ⟨op, [origin.toNat, position.toNat]⟩) :
    (Instr.use kind origin position).Spelled (op :: origin :: word32 position) := by
  have hw : (⟨op, [origin.toNat, position.toNat]⟩ : Plain).widths = [1, 4] := by
    rw [Plain.widths, hl]
    rfl
  refine ⟨trivial, ?_, ?_⟩
  · rw [hi]
    refine ⟨by rw [hl]; rfl, ?_⟩
    rw [hw]
    exact .cons origin.toNat_lt (.cons position.toNat_lt .nil)
  · rw [hi, Plain.bytes, hw]
    show op :: UInt8.ofNat origin.toNat :: (word32 position ++ []) = _
    rw [UInt8.ofNat_toNat, List.append_nil]

/-- The words of a table. -/
def tableWords (keep count : UInt32) (entries : List Entry) : List UInt32 :=
  keep :: count :: entries.flatMap fun e => [e.drop, e.target]

theorem length_tableWords (keep count : UInt32) (entries : List Entry) :
    (tableWords keep count entries).length = 2 + 2 * entries.length := by
  rw [tableWords, List.length_cons, List.length_cons, List.length_flatMap]
  simp only [List.length_cons, List.length_nil, List.map_const', List.sum_replicate, smul_eq_mul]
  omega

theorem flatMap_tableWords (keep count : UInt32) (entries : List Entry) :
    (tableWords keep count entries).flatMap word32 =
      word32 keep ++ (word32 count ++ entries.flatMap Instr.encodeEntry) := by
  rw [tableWords, List.flatMap_cons, List.flatMap_cons, List.flatMap_assoc]
  simp only [List.flatMap_cons, List.flatMap_nil, List.append_nil]
  rfl

/-- Words in even number are the words of entries. -/
theorem exists_entries {ws : List UInt32} {n : ℕ} (h : ws.length = 2 * n) :
    ∃ entries : List Entry, entries.length = n ∧
      ws = entries.flatMap fun e => [e.drop, e.target] := by
  induction n generalizing ws with
  | zero => exact ⟨[], rfl, List.length_eq_zero_iff.mp h⟩
  | succ n ih =>
    obtain ⟨drop, ws, rfl⟩ := List.exists_cons_of_length_pos (show 0 < ws.length by omega)
    rw [List.length_cons] at h
    obtain ⟨target, ws, rfl⟩ := List.exists_cons_of_length_pos (show 0 < ws.length by omega)
    rw [List.length_cons] at h
    obtain ⟨entries, hlen, rfl⟩ := ih (show ws.length = 2 * n by omega)
    exact ⟨⟨drop, target⟩ :: entries, congrArg Nat.succ hlen, rfl⟩

section Table

variable {keep count : UInt32} {entries : List Entry} {fallback : Entry}

theorem plain_brTable (h : count.toNat = entries.length) :
    (Instr.brTable keep entries fallback).plain =
      ⟨0x07, (tableWords keep count (entries ++ [fallback])).map UInt32.toNat⟩ := by
  rw [Instr.plain, Instr.immediates, tableWords, List.map_cons, List.map_cons, h, List.map_flatMap]
  rfl

theorem spelled_brTable (h : count.toNat = entries.length) :
    (Instr.brTable keep entries fallback).Spelled (0x07 :: (word32 keep ++
      (word32 count ++ (entries ++ [fallback]).flatMap Instr.encodeEntry))) := by
  have hw : (Instr.brTable keep entries fallback).plain.widths =
      List.replicate (tableWords keep count (entries ++ [fallback])).length 4 := by
    rw [length_tableWords, List.length_append]
    rfl
  have hi : (Instr.brTable keep entries fallback).plain.immediates = _ :=
    congrArg Plain.immediates (plain_brTable h)
  have hfits : entries.length < 2 ^ 32 := h ▸ count.toNat_lt
  refine ⟨hfits, Plain.wellFormed_of_words rfl hi hw, ?_⟩
  rw [Plain.bytes_of_words hi hw, flatMap_tableWords]
  rfl

end Table

/-- **A reader takes the bytes that the listed form of its answer spells.** -/
theorem Shape.spelled {op : UInt8} {r : Reader Fault Instr} {i : Instr} {bytes rest : List UInt8}
    (h : Shape op r) (hr : r bytes = .ok (i, rest)) :
    ∃ taken, bytes = taken ++ rest ∧ i.Spelled (op :: taken) := by
  cases h with
  | invalid hl => cases hr
  | bare hl hi =>
    obtain ⟨rfl, rfl⟩ := pure_eq_ok_iff.mp hr
    exact ⟨[], rfl, Instr.spelled_of_words [] hl hi⟩
  | one hl hi =>
    obtain ⟨v, _, mid, rfl, rfl, hp⟩ := accepts_read32.of_bind hr
    obtain ⟨rfl, rfl⟩ := pure_eq_ok_iff.mp hp
    exact ⟨[v].flatMap word32, by simp, Instr.spelled_of_words [v] hl (hi v)⟩
  | two =>
    obtain ⟨keep, _, _, rfl, rfl, hr₁⟩ := accepts_read32.of_bind hr
    obtain ⟨dropped, _, _, rfl, rfl, hp⟩ := accepts_read32.of_bind hr₁
    obtain ⟨rfl, rfl⟩ := pure_eq_ok_iff.mp hp
    exact ⟨[keep, dropped].flatMap word32, by simp, Instr.spelled_of_words [keep, dropped] rfl rfl⟩
  | three hl hi =>
    obtain ⟨a, _, _, rfl, rfl, hr₁⟩ := accepts_read32.of_bind hr
    obtain ⟨b, _, _, rfl, rfl, hr₂⟩ := accepts_read32.of_bind hr₁
    obtain ⟨c, _, _, rfl, rfl, hp⟩ := accepts_read32.of_bind hr₂
    obtain ⟨rfl, rfl⟩ := pure_eq_ok_iff.mp hp
    exact ⟨[a, b, c].flatMap word32, by simp, Instr.spelled_of_words [a, b, c] hl (hi a b c)⟩
  | wide =>
    obtain ⟨v, _, hv, hp⟩ := bind_eq_ok_iff.mp hr
    obtain ⟨rfl, rfl⟩ := pure_eq_ok_iff.mp hp
    obtain ⟨taken, rfl, hlen, rfl⟩ := readWord_eq_ok_iff.mp hv
    refine ⟨taken, rfl, trivial, ⟨rfl, .cons (UInt64.toNat_lt _) .nil⟩, ?_⟩
    show 0x37 :: (word64 (UInt64.ofNat (ofLittleEndian taken)) ++ []) = _
    rw [word64_ofLittleEndian hlen, List.append_nil]
  | @location _ kind hl hi =>
    obtain ⟨origin, _, ho, hr₁⟩ := bind_eq_ok_iff.mp hr
    obtain ⟨position, _, _, rfl, rfl, hp⟩ := accepts_read32.of_bind hr₁
    obtain ⟨rfl, rfl⟩ := pure_eq_ok_iff.mp hp
    obtain ⟨taken, rfl, hlen, rfl⟩ := readWord_eq_ok_iff.mp ho
    obtain ⟨b, rfl⟩ := List.length_eq_one_iff.mp hlen
    have hb : UInt8.ofNat (ofLittleEndian [b]) = b := by
      rw [ofLittleEndian, ofLittleEndian, Nat.mul_zero, Nat.add_zero, UInt8.ofNat_toNat]
    rw [hb]
    refine ⟨b :: word32 position, rfl, ?_⟩
    exact Instr.spelled_use hl (hi b position)
  | table =>
    obtain ⟨keep, _, _, rfl, rfl, hr₁⟩ := accepts_read32.of_bind hr
    obtain ⟨count, _, _, rfl, rfl, hr₂⟩ := accepts_read32.of_bind hr₁
    obtain ⟨remaining, _, hremaining, hr₃⟩ := bind_eq_ok_iff.mp hr₂
    cases hremaining
    split at hr₃
    · cases hr₃
    obtain ⟨entries, _, _, rfl, ⟨hlen, hitems⟩, hr₄⟩ :=
      (Accepts.replicate (fun _ => accepts_readEntry) _ _).of_bind hr₃
    obtain ⟨fallback, _, _, rfl, rfl, hp⟩ := accepts_readEntry.of_bind hr₄
    obtain ⟨rfl, rfl⟩ := pure_eq_ok_iff.mp hp
    rw [flatMap_of_items hitems]
    exact ⟨_, by simp, spelled_brTable hlen.symm⟩

/-- **There is an instruction for every plain one that is well-formed.** -/
theorem Shape.exists_instr {op : UInt8} {r : Reader Fault Instr} {vs : List ℕ} (h : Shape op r)
    (hp : (⟨op, vs⟩ : Plain).WellFormed) : ∃ i : Instr, i.Fits ∧ i.plain = ⟨op, vs⟩ := by
  obtain ⟨hop, hvs⟩ := hp
  rw [Plain.widths] at hvs
  dsimp only at hop hvs
  cases h with
  | invalid hl =>
    rw [hl] at hop
    cases hop
  | @bare _ i hl hi =>
    rw [hl] at hvs
    cases hvs
    exact ⟨i, (Instr.spelled_of_words [] hl hi).fits, hi⟩
  | @one _ f hl hi =>
    rw [hl] at hvs
    obtain ⟨ws, hlen, rfl⟩ := exists_words hvs
    obtain ⟨v, rfl⟩ := List.length_eq_one_iff.mp hlen
    exact ⟨f v, (Instr.spelled_of_words [v] hl (hi v)).fits, hi v⟩
  | two =>
    obtain ⟨ws, hlen, rfl⟩ := exists_words (n := 2) hvs
    obtain ⟨keep, dropped, rfl⟩ := List.length_eq_two.mp hlen
    exact ⟨.ret keep dropped, trivial, rfl⟩
  | @three _ f hl hi =>
    rw [hl] at hvs
    obtain ⟨ws, hlen, rfl⟩ := exists_words hvs
    obtain ⟨a, b, c, rfl⟩ := List.length_eq_three.mp hlen
    exact ⟨f a b c, (Instr.spelled_of_words [a, b, c] hl (hi a b c)).fits, hi a b c⟩
  | wide =>
    obtain ⟨v, vs, hv, hnil, rfl⟩ := List.forall₂_cons_right_iff.mp hvs
    cases hnil
    refine ⟨.const64 (UInt64.ofNat v), trivial, ?_⟩
    rw [Instr.plain, Instr.immediates, UInt64.toNat_ofNat_of_lt' hv]
    rfl
  | @location _ kind hl hi =>
    rw [hl] at hvs
    obtain ⟨origin, vs, ho, hvs', rfl⟩ := List.forall₂_cons_right_iff.mp hvs
    obtain ⟨ws, hlen, rfl⟩ := exists_words (n := 1) hvs'
    obtain ⟨position, rfl⟩ := List.length_eq_one_iff.mp hlen
    refine ⟨.use kind (UInt8.ofNat origin) position, trivial, ?_⟩
    rw [hi, UInt8.toNat_ofNat_of_lt' ho]
    rfl
  | table =>
    obtain ⟨ws, hlen, rfl⟩ := exists_words hvs
    obtain ⟨keep, ws, rfl⟩ := List.exists_cons_of_length_pos (show 0 < ws.length by omega)
    rw [List.length_cons] at hlen
    obtain ⟨count, ws, rfl⟩ := List.exists_cons_of_length_pos (show 0 < ws.length by omega)
    rw [List.length_cons] at hlen
    have hcount : (((keep :: count :: ws).map UInt32.toNat).getD 1 0) = count.toNat := rfl
    rw [hcount] at hlen
    obtain ⟨all, hall, rfl⟩ := exists_entries (show ws.length = 2 * (count.toNat + 1) by omega)
    obtain ⟨entries, fallback, rfl⟩ :=
      (List.eq_nil_or_concat' all).resolve_left (List.ne_nil_of_length_eq_add_one hall)
    rw [List.length_append, List.length_singleton] at hall
    have hlen' : count.toNat = entries.length := by omega
    exact ⟨.brTable keep entries fallback, (spelled_brTable hlen').fits, plain_brTable hlen'⟩

theorem Plain.WellFormed.exists_instr {p : Plain} (h : p.WellFormed) :
    ∃ i : Instr, i.Fits ∧ i.plain = p :=
  (shape_read p.opcode).exists_instr h

/-- The listed form of an instruction spells its bytes. -/
theorem Instr.spelled_encode {i : Instr} (h : i.Fits) : i.Spelled i.encode := by
  obtain ⟨taken, htaken, hi⟩ := (shape_read i.opcode).spelled (reads_encode i h [])
  rw [List.append_nil, List.append_nil] at htaken
  rw [encode, htaken]
  exact hi

/-! ## Listings -/

/-- **What is listed are instructions, and their bytes are the code.** -/
theorem disassembleFrom_eq_ok {offset : ℕ} {code : List UInt8} {listing : List Line}
    (h : disassembleFrom offset code = .ok listing) :
    ∃ is : List Instr, (∀ i ∈ is, i.Fits) ∧ code = encode is ∧ listing = lines offset is := by
  induction hn : code.length using Nat.strong_induction_on generalizing offset code listing with
  | _ n ih =>
    subst hn
    cases code with
    | nil =>
      rw [disassembleFrom] at h
      cases h
      exact ⟨[], List.forall_mem_nil _, rfl, rfl⟩
    | cons op bytes =>
      rw [disassembleFrom] at h
      split at h
      · cases h
      next i rest hread =>
      split at h
      · cases h
      next later hlater =>
      cases h
      obtain ⟨taken, rfl, hi⟩ := (shape_read op).spelled hread
      have hshort : rest.length < (op :: (taken ++ rest)).length := by
        rw [List.length_cons, List.length_append]
        omega
      obtain ⟨is, hfits, rfl, rfl⟩ := ih _ hshort hlater rfl
      refine ⟨i :: is, List.forall_mem_cons.mpr ⟨hi.fits, hfits⟩, ?_, rfl⟩
      have hencode : i.encode = op :: taken := by
        rw [← (Instr.spelled_encode hi.fits).bytes, hi.bytes]
      show _ = i.encode ++ encode is
      rw [hencode]
      rfl

/-- A line stands behind the lines before it. -/
theorem offset_of_getElem?_lines {offset k : ℕ} {is : List Instr} {line : Line}
    (h : (lines offset is)[k]? = some line) :
    line.offset = offset + (((lines offset is).take k).map fun l => l.instr.size).sum := by
  induction is generalizing offset k with
  | nil => cases h
  | cons i is ih =>
    cases k with
    | zero =>
      cases h
      rfl
    | succ k =>
      rw [lines, List.take_succ_cons, List.map_cons, List.sum_cons, ← Nat.add_assoc]
      exact ih h

theorem map_plain_lines (offset : ℕ) (is : List Instr) :
    (lines offset is).map Line.plain = is.map Instr.plain := by
  show (lines offset is).map (Instr.plain ∘ Line.instr) = _
  rw [← List.map_map, map_instr_lines]

theorem flatMap_bytes_plain {is : List Instr} (h : ∀ i ∈ is, i.Fits) :
    (is.map Instr.plain).flatMap Plain.bytes = encode is := by
  rw [List.flatMap_map]
  exact List.flatMap_congr fun i hi => (Instr.spelled_encode (h i hi)).bytes

theorem exists_instrs {plains : List Plain} (h : ∀ p ∈ plains, p.WellFormed) :
    ∃ is : List Instr, (∀ i ∈ is, i.Fits) ∧ is.map Instr.plain = plains := by
  induction plains with
  | nil => exact ⟨[], List.forall_mem_nil _, rfl⟩
  | cons p plains ih =>
    obtain ⟨hp, hplains⟩ := List.forall_mem_cons.mp h
    obtain ⟨i, hi, rfl⟩ := hp.exists_instr
    obtain ⟨is, his, rfl⟩ := ih hplains
    exact ⟨i :: is, List.forall_mem_cons.mpr ⟨hi, his⟩, rfl⟩

/-- **A listing and its bytes determine each other.**  Code that is listed is the bytes of the listed instructions, which are
well-formed, and each line has the number of bytes before it as its offset.  The bytes of any well-formed instructions are
listed as these instructions. -/
theorem disassemble_inverts_bytes :
    (∀ code listing, disassemble code = .ok listing →
      (listing.map Line.plain).flatMap Plain.bytes = code ∧
      (∀ line ∈ listing, line.plain.WellFormed) ∧
      ∀ k line, listing[k]? = some line →
        line.offset = ((listing.take k).map fun l => l.plain.bytes.length).sum) ∧
    ∀ plains : List Plain, (∀ p ∈ plains, p.WellFormed) →
      ∃ listing, disassemble (plains.flatMap Plain.bytes) = .ok listing ∧
        listing.map Line.plain = plains := by
  refine ⟨fun code listing h => ?_, fun plains h => ?_⟩
  · obtain ⟨is, hfits, rfl, rfl⟩ := disassembleFrom_eq_ok h
    have hspelled : ∀ line ∈ lines 0 is, line.instr.Spelled line.instr.encode := by
      intro line hline
      have hmem := List.mem_map_of_mem (f := Line.instr) hline
      rw [map_instr_lines] at hmem
      exact Instr.spelled_encode (hfits _ hmem)
    refine ⟨?_, fun line hline => (hspelled line hline).wellFormed, fun k line hline => ?_⟩
    · rw [map_plain_lines, flatMap_bytes_plain hfits]
    · rw [offset_of_getElem?_lines hline, Nat.zero_add]
      congr 1
      refine List.map_congr_left fun l hl => ?_
      rw [Line.plain, (hspelled l (List.mem_of_mem_take hl)).bytes]
      rfl
  · obtain ⟨is, hfits, rfl⟩ := exists_instrs h
    refine ⟨lines 0 is, ?_, map_plain_lines 0 is⟩
    rw [flatMap_bytes_plain hfits]
    exact disassembleFrom_encode 0 hfits

/-- An instruction of each layout. -/
def everyLayout : List Plain :=
  [⟨0x01, [2]⟩, ⟨0x37, [2 ^ 40]⟩, ⟨0x11, [1, 0]⟩, ⟨0x6a, []⟩,
    ⟨0x07, [1, 1, 0, 9, 3, 0xffffffff]⟩, ⟨0x08, [1, 2]⟩]

/-- The return is listed behind a table with one entry besides the last. -/
theorem everyLayout_inverts_bytes : (∀ p ∈ everyLayout, p.WellFormed) ∧
    ∃ listing, disassemble (everyLayout.flatMap Plain.bytes) = .ok listing ∧
      listing.map Line.plain = everyLayout ∧
      ∀ line, listing[5]? = some line → line.offset = 46 := by
  have hwell : ∀ p ∈ everyLayout, p.WellFormed := by
    intro p hp
    have hdec : (Layout.ofOpcode? p.opcode).isSome = true ∧
        List.Forall₂ (fun v width => v < 256 ^ width) p.immediates p.widths := by
      revert p
      decide
    exact ⟨hdec.1, hdec.2⟩
  obtain ⟨listing, hlisting, hplain⟩ := disassemble_inverts_bytes.2 everyLayout hwell
  refine ⟨hwell, listing, hlisting, hplain, fun line hline => ?_⟩
  rw [(disassemble_inverts_bytes.1 _ _ hlisting).2.2 5 line hline]
  show ((listing.take 5).map ((fun p => p.bytes.length) ∘ Line.plain)).sum = 46
  rw [← List.map_map, List.map_take, hplain]
  decide

end FlatWasm.Flat
