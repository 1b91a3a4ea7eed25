import Mathlib
import FlatWasm.Binary.Decode
import FlatWasm.Proofs.Leb128Forms
import FlatWasm.Proofs.Readers

/-!
# The grammar of the binary format

What the parts that all sections share are written as: numbers, lengths, names, vectors, types and limits.  A grammar relates
a value to bytes, and `accepts_funcType` and its like say that the reader of such a value accepts exactly its grammar.

## Why a relation

A number can be padded with groups of zeros as far as its width allows, so the same value has several forms, and what is
written of it is only one of them.  Reading and writing therefore do not meet in each other but in the grammar: the reader
takes every form, and the writer chooses one.

The readers look at more than the grammar says: they compare counts and lengths with the bytes that are left before they
go on.  `accepts_fits` and `accepts_counted` say why this changes nothing but the reason of a refusal.
-/

namespace FlatWasm

open Reader

namespace Binary

/-! ## Bytes and numbers -/

/-- An unsigned number of 32 bits. -/
def Word (v : UInt32) (taken : List UInt8) : Prop :=
  Leb128.Unsigned 32 taken v.toNat

/-- A length or a count in 32 bits. -/
def Length (n : ℕ) (taken : List UInt8) : Prop :=
  Leb128.Unsigned 32 taken n

theorem Length.lt {n : ℕ} {taken : List UInt8} (h : Length n taken) : n < 2 ^ 32 :=
  (h.groups_append (by decide) 32 []).2

theorem Length.word {n : ℕ} {taken : List UInt8} (h : Length n taken) :
    Word (UInt32.ofNat n) taken := by
  rw [Word, UInt32.toNat_ofNat_of_lt' h.lt]
  exact h

/-- Bytes after their length. -/
inductive Sized (bytes : List UInt8) : List UInt8 → Prop where
  | mk {ns : List UInt8} (hn : Length bytes.length ns) : Sized bytes (ns ++ bytes)

/-- A name in UTF-8. -/
def Name (s : String) (taken : List UInt8) : Prop :=
  Sized s.toUTF8.data.toList taken

/-- Items after their count. -/
inductive Vector {α : Type} (G : α → List UInt8 → Prop) (as : List α) : List UInt8 → Prop where
  | mk {ns bs : List UInt8} (hn : Length as.length ns) (h : Items G as bs) : Vector G as (ns ++ bs)

theorem vector_map_iff {α β : Type} {G : α → List UInt8 → Prop} {f : α → β} {bs : List β}
    {taken : List UInt8} :
    Vector (fun b taken => ∃ a, b = f a ∧ G a taken) bs taken ↔
      ∃ as, bs = as.map f ∧ Vector G as taken := by
  constructor
  · rintro ⟨hn, h⟩
    obtain ⟨as, rfl, has⟩ := items_map_iff.mp h
    rw [List.length_map] at hn
    exact ⟨as, rfl, .mk hn has⟩
  · rintro ⟨as, rfl, hn, has⟩
    rw [← as.length_map] at hn
    exact .mk hn (items_map_iff.mpr ⟨as, rfl, has⟩)

section

variable {α : Type} {r : Decoder α} {G : α → List UInt8 → Prop}

theorem accepts_byte : byte.Accepts fun b taken => taken = [b] := by
  refine ⟨?_, fun {bytes} rest b h => ?_⟩
  · rintro b taken rfl rest
    rfl
  · cases bytes with
    | nil => cases h
    | cons c bytes =>
      cases h
      exact ⟨[b], rfl, rfl⟩

theorem accepts_take (n : ℕ) : (take n).Accepts fun bs taken => taken = bs ∧ bs.length = n := by
  refine ⟨?_, fun {bytes} rest bs h => ?_⟩
  · rintro bs taken ⟨rfl, rfl⟩ rest
    rw [take, if_pos (by rw [atLeast_iff]; simp), List.take_left, List.drop_left]
  · rw [take] at h
    split at h
    · next hle =>
      rw [atLeast_iff] at hle
      cases h
      exact ⟨_, (List.take_append_drop n bytes).symm, rfl, by rw [List.length_take]; omega⟩
    · split at h <;> cases h

theorem accepts_skip (n : ℕ) : (skip n).Accepts fun _ taken => taken.length = n := by
  refine ⟨?_, fun {bytes} rest bs h => ?_⟩
  · rintro bs taken rfl rest
    rw [skip, if_pos (by rw [atLeast_iff]; simp), List.drop_left]
  · rw [skip] at h
    split at h
    · next hle =>
      rw [atLeast_iff] at hle
      cases h
      exact ⟨bytes.take n, (List.take_append_drop n bytes).symm, by rw [List.length_take]; omega⟩
    · cases h

theorem accepts_sizedNumber :
    sizedNumber.Accepts fun p taken => p.2 = taken.length ∧ Word p.1 taken := by
  refine ⟨?_, fun {bytes} rest p h => ?_⟩
  · rintro ⟨v, n⟩ taken ⟨rfl, hv⟩ rest
    have hd : Leb128.decodeUnsigned 32 (taken ++ rest) = (.ok (v.toNat, taken.length), rest) :=
      (Leb128.decodeUnsigned_eq_ok_iff (by decide)).mpr ⟨taken, rfl, rfl, hv⟩
    rw [sizedNumber, hd]
    simp
  · rw [sizedNumber] at h
    split at h
    · next v n rest' hd =>
      cases h
      obtain ⟨taken, rfl, rfl, hv⟩ := (Leb128.decodeUnsigned_eq_ok_iff (by decide)).mp hd
      exact ⟨taken, rfl, rfl, Length.word hv⟩
    · cases h

theorem accepts_number : number.Accepts Word := by
  refine ⟨fun {v taken} hv => ?_, fun {bytes} rest v h => ?_⟩
  · exact (accepts_sizedNumber.reads (a := (v, taken.length)) ⟨rfl, hv⟩).map
  · obtain ⟨⟨v', n⟩, mid, hn, hp⟩ := bind_eq_ok_iff.mp h
    obtain ⟨rfl, rfl⟩ := pure_eq_ok_iff.mp hp
    obtain ⟨taken, rfl, -, hv⟩ := accepts_sizedNumber.exists_taken hn
    exact ⟨taken, rfl, hv⟩

theorem accepts_signedNumber {bits : ℕ} (h0 : 0 < bits) :
    (signedNumber bits).Accepts fun v taken => Leb128.Signed bits taken v := by
  refine ⟨fun {v taken} hv rest => ?_, fun {bytes} rest v h => ?_⟩
  · have hd : Leb128.decodeSigned bits (taken ++ rest) = (.ok (v, taken.length), rest) :=
      (Leb128.decodeSigned_eq_ok_iff h0).mpr ⟨taken, rfl, rfl, hv⟩
    rw [signedNumber, hd]
  · rw [signedNumber] at h
    split at h
    · next v n rest' hd =>
      cases h
      obtain ⟨taken, rfl, rfl, hv⟩ := (Leb128.decodeSigned_eq_ok_iff h0).mp hd
      exact ⟨taken, rfl, hv⟩
    · cases h

theorem accepts_inside (h : r.Accepts G) (part : Part) : (inside part r).Accepts G :=
  h.mapError _

/-- A bound on what is left is no restriction before a reader that takes as much. -/
theorem accepts_fits (h : r.Accepts G) (what : Extent) {size : UInt32}
    (hle : ∀ a taken, G a taken → size.toNat ≤ taken.length) :
    Accepts (do fits what size; r) G := by
  refine ⟨fun {a taken} hG => ?_, fun {bytes} rest a hr => ?_⟩
  · intro rest
    have hfits : fits what size (taken ++ rest) = .ok ((), taken ++ rest) := by
      have hlen := hle a taken hG
      rw [fits, if_pos (by rw [atLeast_iff, List.length_append]; omega)]
    exact bind_eq_ok_iff.mpr ⟨(), _, hfits, h.reads hG rest⟩
  · obtain ⟨⟨⟩, mid, hfits, hr⟩ := bind_eq_ok_iff.mp hr
    rw [fits] at hfits
    split at hfits
    · cases hfits
      exact h.exists_taken hr
    · cases hfits

/-- A count, a bound on it, and as many items, none of which is empty. -/
theorem accepts_counted {item : ℕ → Decoder α} (h : ∀ i, (item i).Accepts G)
    (hnil : ∀ p, item 0 [] ≠ .ok p) (what : Extent) :
    Accepts (do
      let count ← inside .vectorSize number
      fits what count
      Reader.replicate count.toNat item) (Vector G) := by
  have hitems : ∀ count : UInt32, Accepts (do fits what count; Reader.replicate count.toNat item)
      fun as taken => as.length = count.toNat ∧ Items G as taken := by
    intro count
    refine accepts_fits (Accepts.replicate h _ 0) what fun as taken hG => ?_
    rw [← hG.1]
    exact hG.2.length_le fun a taken hG => (h 0).length_pos hnil hG
  refine ⟨?_, fun {bytes} rest as hr => ?_⟩
  · rintro as taken ⟨hn, hs⟩
    have hlen : as.length = (UInt32.ofNat as.length).toNat := (UInt32.toNat_ofNat_of_lt' hn.lt).symm
    exact ((accepts_inside accepts_number _).reads hn.word).bind ((hitems _).reads ⟨hlen, hs⟩)
  · obtain ⟨count, ns, mid, rfl, hn, hmid⟩ := (accepts_inside accepts_number _).of_bind hr
    obtain ⟨bs, rfl, hlen, hs⟩ := (hitems count).exists_taken hmid
    refine ⟨ns ++ bs, by rw [List.append_assoc], .mk ?_ hs⟩
    rw [hlen]
    exact hn

theorem accepts_vector {item : ℕ → Decoder α} (h : ∀ i, (item i).Accepts G)
    (hnil : ∀ p, item 0 [] ≠ .ok p) : (vector item).Accepts (Vector G) :=
  accepts_counted h hnil .vector

/-- Some bytes, and a reader that looks at them only. -/
theorem accepts_taken {f : List UInt8 → Decoder α} (n : ℕ)
    (h : ∀ bytes, (f bytes).Accepts fun a taken => taken = [] ∧ G a bytes) :
    (take n >>= f).Accepts fun a taken => taken.length = n ∧ G a taken := by
  refine ⟨?_, fun {bytes} rest a hr => ?_⟩
  · rintro a taken ⟨hlen, hG⟩
    have hread := ((accepts_take n).reads ⟨rfl, hlen⟩).bind ((h taken).reads ⟨rfl, hG⟩)
    rwa [List.append_nil] at hread
  · obtain ⟨bs, taken, mid, rfl, ⟨rfl, hlen⟩, hmid⟩ := (accepts_take n).of_bind hr
    obtain ⟨taken', rfl, rfl, hG⟩ := (h taken).exists_taken hmid
    exact ⟨taken, rfl, hlen, hG⟩

/-- A length, a bound on it, and as many bytes. -/
theorem accepts_sized {f : List UInt8 → Decoder α} (part : Part) (what : Extent)
    (h : ∀ bytes, (f bytes).Accepts fun a taken => taken = [] ∧ G a bytes) :
    Accepts (do
      let size ← inside part number
      fits what size
      let bytes ← take size.toNat
      f bytes) fun a taken => ∃ bytes, Sized bytes taken ∧ G a bytes := by
  have htake : ∀ size : UInt32, Accepts (do
      fits what size
      let bytes ← take size.toNat
      f bytes) fun a taken => taken.length = size.toNat ∧ G a taken := by
    intro size
    exact accepts_fits (accepts_taken size.toNat h) what fun a taken hG => hG.1.ge
  refine ⟨?_, fun {bytes} rest a hr => ?_⟩
  · rintro a taken ⟨bytes, ⟨hn⟩, hG⟩
    have hlen : bytes.length = (UInt32.ofNat bytes.length).toNat :=
      (UInt32.toNat_ofNat_of_lt' hn.lt).symm
    exact ((accepts_inside accepts_number _).reads hn.word).bind ((htake _).reads ⟨hlen, hG⟩)
  · obtain ⟨size, ns, mid, rfl, hn, hmid⟩ := (accepts_inside accepts_number _).of_bind hr
    obtain ⟨bs, rfl, hlen, hG⟩ := (htake size).exists_taken hmid
    refine ⟨ns ++ bs, by rw [List.append_assoc], bs, .mk ?_, hG⟩
    rw [hlen]
    exact hn

end

/-- Valid UTF-8 is that of a string, and of one only. -/
theorem fromUTF8?_eq_some_iff {bytes : List UInt8} {s : String} :
    String.fromUTF8? ⟨bytes.toArray⟩ = some s ↔ s.toUTF8.data.toList = bytes := by
  rw [String.fromUTF8?]
  constructor
  · intro h
    split at h
    · cases h
      rfl
    · cases h
  · rintro rfl
    have hbytes : (⟨s.toUTF8.data.toList.toArray⟩ : ByteArray) = s.toByteArray := rfl
    rw [hbytes, dif_pos s.isValidUTF8]
    rfl

/-- The text that bytes spell. -/
def text (place : NamePlace) (bytes : List UInt8) : Decoder String :=
  match String.fromUTF8? ⟨bytes.toArray⟩ with
  | some s => return s
  | none => Reader.fail (.notUtf8 place)

theorem text_eq_ok_iff {place : NamePlace} {bytes bytes' rest : List UInt8} {s : String} :
    text place bytes bytes' = .ok (s, rest) ↔ s.toUTF8.data.toList = bytes ∧ bytes' = rest := by
  rw [← fromUTF8?_eq_some_iff, text]
  cases String.fromUTF8? ⟨bytes.toArray⟩ with
  | none =>
    constructor
    · intro h
      cases h
    · rintro ⟨h, -⟩
      cases h
  | some s' => exact pure_eq_ok_iff.trans (and_congr_left' Option.some_inj.symm)

theorem accepts_name (place : NamePlace) : (name place).Accepts Name := by
  have hname := accepts_sized (G := fun (s : String) bytes => s.toUTF8.data.toList = bytes)
    (f := text place) (.name place) (.name place) ?_
  · refine ⟨fun {s taken} hs => hname.reads ⟨_, hs, rfl⟩, fun {bytes} rest s h => ?_⟩
    obtain ⟨taken, rfl, bytes, hs, rfl⟩ := hname.exists_taken h
    exact ⟨taken, rfl, hs⟩
  · intro bytes
    refine ⟨?_, fun {bytes'} rest s h => ?_⟩
    · rintro s taken ⟨rfl, hs⟩ rest
      exact text_eq_ok_iff.mpr ⟨hs, rfl⟩
    · obtain ⟨hs, rfl⟩ := text_eq_ok_iff.mp h
      exact ⟨[], rfl, rfl, hs⟩

end Binary

/-! ## Types -/

/-- The types of values, a byte for each. -/
inductive Binary.ValueTypes (types : List ValueType) : List UInt8 → Prop where
  | mk {bs : List UInt8} (hn : ∀ t ∈ types, t.isNumeric = true)
      (h : Binary.Sized (types.map ValueType.code) bs) : ValueTypes types bs

inductive FuncType.Written (t : FuncType) : List UInt8 → Prop where
  | mk {ps rs : List UInt8} (hp : Binary.ValueTypes t.params ps)
      (hr : Binary.ValueTypes t.results rs) : Written t (0x60 :: (ps ++ rs))

inductive Limits.Written : Limits → List UInt8 → Prop where
  | min {min : UInt32} {ms : List UInt8} (hm : Binary.Word min ms) : Written ⟨min, none⟩ (0 :: ms)
  | minMax {min max : UInt32} {ms xs : List UInt8} (hm : Binary.Word min ms)
      (hx : Binary.Word max xs) : Written ⟨min, some max⟩ (1 :: (ms ++ xs))

/-- The type of a table: all of its entries are functions. -/
inductive Limits.WrittenTable (l : Limits) : List UInt8 → Prop where
  | mk {bs : List UInt8} (h : l.Written bs) : WrittenTable l (ValueType.funcref.code :: bs)

inductive GlobalType.Written (t : GlobalType) : List UInt8 → Prop where
  | mk (h : t.valueType.isNumeric = true) :
      Written t [t.valueType.code, if t.isMutable then 1 else 0]

/-- The immediate of an instruction that makes a constant. -/
inductive ConstExpr.Immediate : (opcode : UInt8) → List UInt8 → Prop where
  | i32Const {v : ℤ} {bs : List UInt8} (h : Leb128.Signed 32 bs v) : Immediate Opcode.i32Const bs
  | i64Const {v : ℤ} {bs : List UInt8} (h : Leb128.Signed 64 bs v) : Immediate Opcode.i64Const bs
  | f32Const {bs : List UInt8} (h : bs.length = 4) : Immediate Opcode.f32Const bs
  | f64Const {bs : List UInt8} (h : bs.length = 8) : Immediate Opcode.f64Const bs
  | globalGet {x : UInt32} {bs : List UInt8} (h : Binary.Word x bs) : Immediate Opcode.globalGet bs

inductive ConstExpr.Written (e : ConstExpr) : List UInt8 → Prop where
  | mk (h : ConstExpr.Immediate e.opcode e.data) : Written e (e.opcode :: (e.data ++ [Opcode.end]))

namespace Binary

/-- Some numeric types, a byte for each. -/
theorem accepts_valueTypes (count : UInt32) : (valueTypes count).Accepts fun types taken =>
    taken.length = count.toNat ∧ types.map ValueType.code = taken ∧
      ∀ t ∈ types, t.isNumeric = true := by
  refine accepts_fits (accepts_taken count.toNat fun bytes => ⟨?_, fun {mid} rest types h => ?_⟩)
    _ fun types taken hG => hG.1.ge
  · rintro types taken ⟨rfl, rfl, hn⟩
    have hmap : (types.map ValueType.code).map ValueType.mk = types := by
      rw [List.map_map]
      exact List.map_id types
    have hfind : types.find? (!·.isNumeric) = none := by
      rw [List.find?_eq_none]
      intro t ht
      simp [hn t ht]
    rw [hmap]
    dsimp only
    rw [hfind]
    exact reads_pure types
  · cases hfind : (bytes.map ValueType.mk).find? (!·.isNumeric) with
    | some t =>
      rw [hfind] at h
      cases h
    | none =>
      rw [hfind] at h
      obtain ⟨rfl, rfl⟩ := pure_eq_ok_iff.mp h
      refine ⟨[], rfl, rfl, ?_, fun t ht => ?_⟩
      · rw [List.map_map]
        exact List.map_id bytes
      · simpa using List.find?_eq_none.mp hfind t ht

/-- Their count, and then the types. -/
theorem accepts_typeList (part part' : Part) :
    (inside part' number >>= fun count => inside part (valueTypes count)).Accepts ValueTypes := by
  refine ⟨?_, fun {bytes} rest types h => ?_⟩
  · rintro types taken ⟨hnum, ⟨hn⟩⟩
    refine ((accepts_inside accepts_number _).reads hn.word).bind
      ((accepts_inside (accepts_valueTypes _) part).reads ⟨?_, rfl, hnum⟩)
    exact (UInt32.toNat_ofNat_of_lt' hn.lt).symm
  · obtain ⟨count, ns, mid, rfl, hn, hmid⟩ := (accepts_inside accepts_number _).of_bind h
    obtain ⟨bs, rfl, hlen, rfl, hnum⟩ :=
      (accepts_inside (accepts_valueTypes _) part).exists_taken hmid
    refine ⟨ns ++ types.map ValueType.code, by rw [List.append_assoc], hnum, .mk ?_⟩
    rw [hlen]
    exact hn

theorem accepts_funcType : funcType.Accepts FuncType.Written := by
  refine ⟨?_, fun {bytes} rest t h => ?_⟩
  · rintro t taken ⟨hp, hr⟩
    exact ((accepts_inside accepts_byte _).reads rfl).bind
      (((accepts_typeList _ _).reads hp).bind_bind ((accepts_typeList _ _).reads hr).bind_map)
  · obtain ⟨form, fs, mid, rfl, rfl, h₁⟩ := (accepts_inside accepts_byte _).of_bind h
    split at h₁
    · cases h₁
    · next hform =>
      obtain ⟨params, ps, mid₁, rfl, hp, h₂⟩ := (accepts_typeList _ _).of_bind_bind h₁
      obtain ⟨results, rs, mid₂, rfl, hr, h₃⟩ := (accepts_typeList _ _).of_bind_bind h₂
      obtain ⟨rfl, rfl⟩ := pure_eq_ok_iff.mp h₃
      obtain rfl : form = 0x60 := not_not.mp hform
      exact ⟨0x60 :: (ps ++ rs), by simp, hp, hr⟩

theorem accepts_limits : limits.Accepts Limits.Written := by
  refine ⟨?_, fun {bytes} rest l h => ?_⟩
  · rintro l taken hl
    cases hl with
    | min hm =>
      exact ((accepts_inside accepts_byte _).reads rfl).bind
        ((accepts_inside accepts_number _).reads hm).map
    | minMax hm hx =>
      exact ((accepts_inside accepts_byte _).reads rfl).bind
        (((accepts_inside accepts_number _).reads hm).bind
          ((accepts_inside accepts_number _).reads hx).map)
  · obtain ⟨form, fs, mid, rfl, rfl, h₁⟩ := (accepts_inside accepts_byte _).of_bind h
    split at h₁
    · next hform =>
      obtain ⟨min, ms, mid₁, rfl, hm, h₂⟩ := (accepts_inside accepts_number _).of_bind h₁
      obtain ⟨rfl, rfl⟩ := pure_eq_ok_iff.mp h₂
      subst hform
      exact ⟨0 :: ms, rfl, .min hm⟩
    · split at h₁
      · next hform =>
        obtain ⟨min, ms, mid₁, rfl, hm, h₂⟩ := (accepts_inside accepts_number _).of_bind h₁
        obtain ⟨max, xs, mid₂, rfl, hx, h₃⟩ := (accepts_inside accepts_number _).of_bind h₂
        obtain ⟨rfl, rfl⟩ := pure_eq_ok_iff.mp h₃
        subst hform
        exact ⟨1 :: (ms ++ xs), by simp, .minMax hm hx⟩
      · cases h₁

theorem accepts_tableType : tableType.Accepts Limits.WrittenTable := by
  refine ⟨?_, fun {bytes} rest l h => ?_⟩
  · rintro l taken ⟨hl⟩
    exact ((accepts_inside accepts_byte _).reads rfl).bind
      ((accepts_inside accepts_limits _).reads hl)
  · obtain ⟨form, fs, mid, rfl, rfl, h₁⟩ := (accepts_inside accepts_byte _).of_bind h
    split at h₁
    · cases h₁
    · next hform =>
      obtain ⟨bs, rfl, hl⟩ := (accepts_inside accepts_limits _).exists_taken h₁
      obtain rfl : form = ValueType.funcref.code := congrArg ValueType.code (not_not.mp hform)
      exact ⟨ValueType.funcref.code :: bs, rfl, ⟨hl⟩⟩

theorem accepts_globalType : globalType.Accepts GlobalType.Written := by
  refine ⟨?_, fun {bytes} rest t h => ?_⟩
  · rintro ⟨type, isMutable⟩ taken ⟨ht⟩
    have htype : Reads (inside .globalValueType (valueTypes 1)) [type.code] [type] :=
      (accepts_inside (accepts_valueTypes 1) _).reads ⟨rfl, rfl, List.forall_mem_singleton.mpr ht⟩
    cases isMutable <;>
      exact htype.bind (((accepts_inside accepts_byte _).reads rfl).bind (reads_pure _))
  · obtain ⟨types, ts, mid, rfl, ⟨hlen, rfl, hn⟩, h₁⟩ :=
      (accepts_inside (accepts_valueTypes 1) _).of_bind h
    obtain ⟨mutability, ms, mid₁, rfl, rfl, h₂⟩ := (accepts_inside accepts_byte _).of_bind h₁
    split at h₂
    · cases h₂
    · next hle =>
      obtain ⟨rfl, rfl⟩ := pure_eq_ok_iff.mp h₂
      rw [List.length_map] at hlen
      obtain ⟨type, rfl⟩ := List.length_eq_one_iff.mp hlen
      have ht : type.isNumeric = true := hn type List.mem_cons_self
      have hle' : mutability.toNat ≤ 1 := UInt8.le_iff_toNat_le.mp (UInt8.not_lt.mp hle)
      refine ⟨[type.code, mutability], rfl, ?_⟩
      rcases Nat.le_one_iff_eq_zero_or_eq_one.mp hle' with h0 | h1
      · obtain rfl : mutability = 0 := UInt8.toNat_inj.mp h0
        exact .mk ht
      · obtain rfl : mutability = 1 := UInt8.toNat_inj.mp h1
        exact .mk ht

end Binary

end FlatWasm
