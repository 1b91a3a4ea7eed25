import Mathlib
import FlatWasm.Proofs.Binary.NormalForm
import FlatWasm.Proofs.Binary.Sections

/-!
# Writing and reading modules

* `Module.decode_encode`: a module that the format can hold is read back from what is written of it.
* `Module.encode_of_decode`: a module that has been read can be written, is read back from that, and has not become longer.

Both follow from what `Known.encodes` says of each section.  `Known.exists_frames` makes frames of what is written, and
`Known.Given.length_encode_le` compares it with the frame that a part was read from.

A section that holds nothing is not written.  This is where reading and writing differ most: it is read as a vector of no
items, or it is not there, and both are the empty list.
-/

namespace FlatWasm

open Reader

namespace Binary

namespace Known

/-- The sections, in the order in which they are written. -/
def all : List Known :=
  [types, imports, functions, tables, memories, globals, exports, start, elements, code, data]

theorem mem_all (k : Known) : k ∈ all := by
  cases k <;> decide

def isEmpty : (k : Known) → k.Contents → Bool
  | types | imports | functions | tables | memories | globals | exports | elements | code | data =>
    List.isEmpty
  | start => Option.isNone

/-- The contents of the section, as they are written. -/
def contents : (k : Known) → k.Contents → Encoded
  | types => encodeVector encodeFuncType
  | imports => encodeVector encodeImport
  | functions => encodeVector fun i => .ok (Leb128.encodeWord i)
  | tables => encodeVector fun l => .ok (encodeTableType l)
  | memories => encodeVector fun l => .ok (encodeLimits l)
  | globals => encodeVector encodeGlobal
  | exports => encodeVector fun e => .ok (encodeExport e)
  | start => fun x => .ok (x.elim [] Leb128.encodeWord)
  | elements => encodeVector encodeElement
  | code => encodeVector fun c => .ok (encodeCode c)
  | data => encodeVector encodeData

/-- The section as it is written: not at all if it holds nothing. -/
def encode (k : Known) (x : k.Contents) : Encoded :=
  if k.isEmpty x then .ok [] else return encodeSection k.id (← k.contents x)

/-- What the format can hold in the section. -/
def Encodable : (k : Known) → k.Contents → Prop
  | types => fun (ts : List (Option FuncType)) => ∀ t ∈ ts, ∃ type, t = some type ∧ type.Numeric
  | imports => fun (ims : List Import) => ∀ im ∈ ims, im.desc.Encodable
  | functions => fun (is : List UInt32) => ∀ i ∈ is, True
  | tables | memories => fun (ls : List Limits) => ∀ l ∈ ls, True
  | globals => fun (gs : List Global) => ∀ g ∈ gs, g.Encodable
  | exports => fun (es : List Export) => ∀ e ∈ es, e.kind.code ≤ 3
  | start => fun (x : Option UInt32) => ∃ i, x = some i
  | elements => fun (es : List ElementSegment) => ∀ e ∈ es, e.Encodable
  | code => fun (cs : List Code) => ∀ c ∈ cs, c.Encodable
  | data => fun (ds : List DataSegment) => ∀ d ∈ ds, d.Encodable

theorem encodes_start : Encodes start.Encodable start.Written start.contents where
  valid := by
    rintro x taken ⟨i, rfl, -⟩
    exact ⟨i, rfl⟩
  written := by
    rintro x ⟨i, rfl⟩
    exact ⟨_, rfl, fun _ => ⟨i, rfl, word_encodeWord i⟩⟩
  shortest := by
    rintro x taken bytes ⟨i, rfl, hi⟩ h
    cases h
    exact hi.length_le

theorem encodes (k : Known) : Encodes k.Encodable k.Written k.contents := by
  cases k with
  | types =>
    refine encodes_funcType.vector ?_
    rintro _ taken ⟨type, -, h⟩
    exact accepts_funcType.length_pos nofun h
  | imports => exact encodes_import.vector fun _ _ => (accepts_importItem 0).length_pos nofun
  | functions => exact encodes_functionIndices
  | tables => exact encodes_tableType.vector fun _ _ => accepts_tableType.length_pos nofun
  | memories => exact encodes_limits.vector fun _ _ => accepts_limits.length_pos nofun
  | globals => exact encodes_global.vector fun _ _ => accepts_globalItem.length_pos nofun
  | exports => exact encodes_export.vector fun _ _ => (accepts_exportItem 0).length_pos nofun
  | start => exact encodes_start
  | elements => exact encodes_element.vector fun _ _ => accepts_elementItem.length_pos nofun
  | code => exact encodes_code.vector fun _ _ => accepts_codeItem.length_pos nofun
  | data => exact encodes_data.vector fun _ _ => accepts_dataItem.length_pos nofun

theorem isEmpty_iff {k : Known} {x : k.Contents} : k.isEmpty x = true ↔ x = k.empty := by
  cases k with
  | start => exact Option.isNone_iff_eq_none
  | _ => exact List.isEmpty_iff

/-- What is written of a section is a frame that gives its part back, or nothing. -/
theorem exists_frames {k : Known} {x : k.Contents} (hv : k.isEmpty x = false → k.Encodable x)
    (hs : ∀ bytes, k.contents x = .ok bytes → bytes.length < 2 ^ 32) :
    ∃ frames : List Frame, k.encode x = .ok (frames.flatMap Frame.bytes) ∧
      (frames.map Frame.id).Sublist [k.id] ∧ k.Given frames k.empty x := by
  cases hempty : k.isEmpty x with
  | true =>
    refine ⟨[], ?_, List.nil_sublist _, ?_⟩
    · rw [encode, if_pos hempty]
      rfl
    · rw [given_iff_eq (List.forall_mem_nil _)]
      exact isEmpty_iff.mp hempty
  | false =>
    obtain ⟨bytes, hbytes, hG⟩ := k.encodes.written (hv hempty)
    have hlt := hs bytes hbytes
    refine ⟨[⟨k.id, encodeLength bytes.length, bytes, length_encodeLength hlt⟩], ?_,
      List.Sublist.refl _, ?_⟩
    · rw [encode, hempty, hbytes, List.flatMap_singleton]
      rfl
    · rw [given_cons_iff rfl (List.forall_mem_nil _)]
      exact k.accepts_decoder.eq_ok_nil_iff.mpr (hG hlt)

theorem ids_flatMap_sublist {frames : Known → List Frame}
    (h : ∀ k, ((frames k).map Frame.id).Sublist [k.id]) (ks : List Known) :
    ((ks.flatMap frames).map Frame.id).Sublist (ks.map id) := by
  rw [List.map_flatMap, List.map_eq_flatMap]
  exact List.Sublist.flatMap_right ks fun k _ => h k

theorem given_flatMap {frames : Known → List Frame}
    (hids : ∀ k, ((frames k).map Frame.id).Sublist [k.id]) {k : Known} {before x : k.Contents}
    (h : k.Given (frames k) before x) : k.Given (all.flatMap frames) before x where
  decoded f hf hid := by
    obtain ⟨k', -, hf⟩ := List.mem_flatMap.mp hf
    have hid' : f.id = k'.id := List.mem_singleton.mp ((hids k').subset (List.mem_map_of_mem hf))
    obtain rfl := id_injective (hid.symm.trans hid')
    exact h.decoded f hf hid
  absent hne := h.absent fun f hf => hne f (List.mem_flatMap.mpr ⟨k, k.mem_all, hf⟩)

section

variable {k : Known} {frames : List Frame} {x : k.Contents}

/-- A part that comes from somewhere has a section. -/
theorem Given.exists_written (h : k.Given frames k.empty x) (hx : k.isEmpty x = false) :
    ∃ f ∈ frames, f.id = k.id ∧ k.Written x f.content := by
  by_cases hne : ∀ f ∈ frames, f.id ≠ k.id
  · rw [isEmpty_iff.mpr (h.absent hne)] at hx
    cases hx
  · push Not at hne
    obtain ⟨f, hf, hid⟩ := hne
    exact ⟨f, hf, hid, k.accepts_decoder.eq_ok_nil_iff.mp (h.decoded f hf hid)⟩

theorem encodable_empty (hk : k ≠ start) : k.Encodable k.empty := by
  cases k with
  | start => exact absurd rfl hk
  | _ => exact List.forall_mem_nil _

/-- What comes from the contents of sections, the format can hold. -/
theorem Given.encodable (h : k.Given frames k.empty x) (hk : k ≠ start) : k.Encodable x := by
  cases hempty : k.isEmpty x with
  | true =>
    rw [isEmpty_iff.mp hempty]
    exact encodable_empty hk
  | false =>
    obtain ⟨f, -, -, hG⟩ := h.exists_written hempty
    exact k.encodes.valid hG

theorem length_contents_empty_lt {bytes : List UInt8} (h : k.contents k.empty = .ok bytes) :
    bytes.length < 2 ^ 32 := by
  have hzero : (encodeLength 0).length ≤ 1 :=
    (Leb128.length_encodeUnsigned_le_iff Nat.one_pos).mpr (by decide)
  cases k with
  | start =>
    cases h
    decide
  | _ =>
    cases h
    show (encodeLength 0 ++ []).length < 2 ^ 32
    rw [List.append_nil]
    omega

theorem Given.length_contents_lt (h : k.Given frames k.empty x) {bytes : List UInt8}
    (hbytes : k.contents x = .ok bytes) : bytes.length < 2 ^ 32 := by
  cases hempty : k.isEmpty x with
  | true =>
    rw [isEmpty_iff.mp hempty] at hbytes
    exact length_contents_empty_lt hbytes
  | false =>
    obtain ⟨f, -, -, hG⟩ := h.exists_written hempty
    exact (k.encodes.shortest hG hbytes).trans_lt f.sized.lt

/-- A section is written in no more bytes than it was read from. -/
theorem Given.length_encode_le (h : k.Given frames k.empty x) {bytes : List UInt8}
    (hbytes : k.encode x = .ok bytes) :
    bytes = [] ∨ ∃ f ∈ frames, f.id = k.id ∧ bytes.length ≤ f.bytes.length := by
  rw [encode] at hbytes
  cases hempty : k.isEmpty x with
  | true =>
    rw [hempty] at hbytes
    cases hbytes
    exact .inl rfl
  | false =>
    rw [hempty] at hbytes
    obtain ⟨content, hcontent, hbytes⟩ := Except.bind_eq_ok_iff.mp hbytes
    cases hbytes
    obtain ⟨f, hf, hid, hG⟩ := h.exists_written hempty
    have hsized : Sized f.content (f.size ++ f.content) := .mk f.sized
    exact .inr ⟨f, hf, hid,
      Nat.succ_le_succ (hsized.length_le (k.encodes.shortest hG hcontent))⟩

end

/-- Sections that are each no longer than a section of the same number are together no longer. -/
theorem length_flatMap_le {ks : List Known} (hks : ks.Nodup) {part : Known → List UInt8}
    {frames : List Frame}
    (h : ∀ k ∈ ks, part k = [] ∨ ∃ f ∈ frames, f.id = k.id ∧ (part k).length ≤ f.bytes.length) :
    (ks.flatMap part).length ≤ (frames.flatMap Frame.bytes).length := by
  induction ks generalizing frames with
  | nil => exact Nat.zero_le _
  | cons k ks ih =>
    obtain ⟨hk, hks⟩ := List.nodup_cons.mp hks
    obtain ⟨hpart, hrest⟩ := List.forall_mem_cons.mp h
    rw [List.flatMap_cons, List.length_append]
    obtain hnil | ⟨f, hf, hid, hle⟩ := hpart
    · rw [hnil, List.length_nil, Nat.zero_add]
      exact ih hks hrest
    · -- the section is used up: no other part has its number
      obtain ⟨before, after, rfl⟩ := List.append_of_mem hf
      have hothers : ∀ k' ∈ ks, part k' = [] ∨
          ∃ f' ∈ before ++ after, f'.id = k'.id ∧ (part k').length ≤ f'.bytes.length := by
        intro k' hk'
        refine (hrest k' hk').imp_right ?_
        rintro ⟨f', hf', hid', hle'⟩
        refine ⟨f', ?_, hid', hle'⟩
        obtain hf' | hf' := List.mem_append.mp hf'
        · exact List.mem_append_left _ hf'
        obtain rfl | hf' := List.mem_cons.mp hf'
        · obtain rfl := id_injective (hid.symm.trans hid')
          exact absurd hk' hk
        · exact List.mem_append_right _ hf'
      have hlen := ih hks hothers
      simp only [List.flatMap_append, List.flatMap_cons, List.length_append] at hlen ⊢
      omega

end Known

end Binary

namespace Module

open Binary

/-- A module is written section by section. -/
theorem encode_eq_ok {m : Module} {part : Known → List UInt8}
    (h : ∀ k : Known, k.encode (m.get k) = .ok (part k)) :
    m.encode = .ok (magic ++ version ++ Known.all.flatMap part) := by
  have hstart : m.start.elim [] (fun i => encodeSection 8 (Leb128.encodeWord i)) = part .start := by
    refine Except.ok.inj ((?_ : _ = Known.start.encode m.start).trans (h .start))
    cases m.start <;> rfl
  have htypes : encodeItems 1 encodeFuncType m.types = _ := h .types
  have himports : encodeItems 2 encodeImport m.imports = _ := h .imports
  have hfunctions : encodeItems 3 (fun i => .ok (Leb128.encodeWord i)) m.functions = _ := h .functions
  have htables : encodeItems 4 (fun l => .ok (encodeTableType l)) m.tables = _ := h .tables
  have hmemories : encodeItems 5 (fun l => .ok (encodeLimits l)) m.memories = _ := h .memories
  have hglobals : encodeItems 6 encodeGlobal m.globals = _ := h .globals
  have hexports : encodeItems 7 (fun e => .ok (encodeExport e)) m.exports = _ := h .exports
  have helements : encodeItems 9 encodeElement m.elements = _ := h .elements
  have hcode : encodeItems 10 (fun c => .ok (encodeCode c)) m.code = _ := h .code
  have hdata : encodeItems 11 encodeData m.data = _ := h .data
  rw [encode, htypes, himports, hfunctions, htables, hmemories, hglobals, hexports, hstart, helements,
    hcode, hdata]
  simp only [Known.all, List.flatMap_cons, List.flatMap_nil, List.append_nil, List.append_assoc]
  rfl

/-- A module that the format can hold. -/
structure Encodable (m : Module) : Prop where
  types : ∀ t ∈ m.types, ∃ type, t = some type ∧ type.Numeric
  imports : ∀ im ∈ m.imports, im.desc.Encodable
  globals : ∀ g ∈ m.globals, g.Encodable
  exports : ∀ e ∈ m.exports, e.kind.code ≤ 3
  elements : ∀ e ∈ m.elements, e.Encodable
  code : ∀ c ∈ m.code, c.Encodable
  data : ∀ d ∈ m.data, d.Encodable
  paired : m.functions.length = m.code.length
  small : ∀ (k : Known) (bytes : List UInt8), k.contents (m.get k) = .ok bytes →
    bytes.length < 2 ^ 32

theorem Encodable.known {m : Module} (h : m.Encodable) {k : Known}
    (hk : k.isEmpty (m.get k) = false) : k.Encodable (m.get k) := by
  cases k with
  | types => exact h.types
  | imports => exact h.imports
  | functions | tables | memories => exact fun _ _ => trivial
  | globals => exact h.globals
  | exports => exact h.exports
  | start => exact Option.isSome_iff_exists.mp (Option.isNone_eq_false_iff.mp hk)
  | elements => exact h.elements
  | code => exact h.code
  | data => exact h.data

/-- What is written of a module is read back. -/
theorem Encodable.exists_parts {m : Module} (h : m.Encodable) :
    ∃ part : Known → List UInt8, (∀ k : Known, k.encode (m.get k) = .ok (part k)) ∧
      decode (magic ++ version ++ Known.all.flatMap part) = .ok m := by
  choose frames hframes hids hgiven using
    fun k => Known.exists_frames (k := k) (x := m.get k) h.known (h.small k)
  have hsub := Known.ids_flatMap_sublist hids Known.all
  have hle : ∀ f ∈ Known.all.flatMap frames, f.id ≤ 12 := by
    intro f hf
    obtain ⟨k, -, hk⟩ := List.mem_map.mp (hsub.subset (List.mem_map_of_mem hf))
    exact hk ▸ k.id_le
  have hr : Rises 0 (Known.all.flatMap frames) :=
    (rises_zero_iff hle).mpr (List.filter_sublist.trans (hsub.trans (by decide)))
  refine ⟨fun k => (frames k).flatMap Frame.bytes, hframes,
    decode_eq_ok_iff_loads.mpr ⟨Known.all.flatMap frames, ?_, hr, ?_, h.paired⟩⟩
  · rw [List.flatMap_assoc]
  · refine (Frame.loads_iff hr).mpr ⟨hle, fun k => ?_⟩
    rw [get_default]
    exact Known.given_flatMap hids (hgiven k)

/-- **Reading undoes writing**, over the whole format. -/
theorem decode_encode {m : Module} (h : m.Encodable) :
    ∃ bytes, m.encode = .ok bytes ∧ decode bytes = .ok m := by
  obtain ⟨part, hpart, hdecode⟩ := h.exists_parts
  exact ⟨_, encode_eq_ok hpart, hdecode⟩

/-- A module with something in every section. -/
def everySection : Module where
  types := [some ⟨[.i32, .f64], [.i64]⟩]
  imports := [⟨"env", "f", .func 0⟩, ⟨"env", "", .table (some ⟨0, none⟩)⟩,
    ⟨"env", "é", .memory (some ⟨1, some 2⟩)⟩, ⟨"env", "g", .global (some ⟨.f32, true⟩)⟩]
  functions := [0]
  tables := [⟨300, none⟩]
  memories := [⟨0, some 65536⟩]
  globals := [⟨some ⟨.f64, false⟩, some ⟨Opcode.f64Const, [0, 0, 0, 0, 0, 0, 0xf0, 0x3f]⟩⟩]
  exports := [⟨.func, "run", 1⟩]
  start := some 1
  elements := [⟨1, some ⟨Opcode.i32Const, [0x7f]⟩, [0, 1]⟩]
  code := [⟨.ofGroups [(2, .i32), (1, .f64)], [Opcode.end]⟩]
  data := [⟨0, some ⟨Opcode.i32Const, [0x80, 0x00]⟩, [1, 2, 3]⟩]

theorem everySection_encodable : everySection.Encodable where
  types := List.forall_mem_singleton.mpr ⟨_, rfl, by decide, by decide⟩
  imports := by
    simp only [everySection, List.forall_mem_cons, ImportDesc.Encodable]
    exact ⟨trivial, ⟨_, rfl⟩, ⟨_, rfl⟩, ⟨_, rfl, by decide⟩, List.forall_mem_nil _⟩
  globals := List.forall_mem_singleton.mpr ⟨⟨_, rfl, by decide⟩, _, rfl, .f64Const rfl⟩
  exports := by decide
  elements := List.forall_mem_singleton.mpr
    ⟨_, rfl, .i32Const (.neg (by decide) (by decide) (by decide))⟩
  code := List.forall_mem_singleton.mpr ⟨by decide, by decide, rfl⟩
  data := List.forall_mem_singleton.mpr
    ⟨_, rfl, .i32Const (.more (by decide) (by decide) (.nonneg (by decide) (by decide)))⟩
  paired := rfl
  small k bytes h := by
    have hsmall : ∀ k ∈ Known.all, (k.contents (everySection.get k)).toOption.all
      (fun bytes => decide (bytes.length < 2 ^ 32)) = true := by decide +kernel
    have hk := hsmall k k.mem_all
    rw [h] at hk
    exact of_decide_eq_true hk

theorem everySection_decode_encode :
    everySection.Encodable ∧ ∃ bytes, everySection.encode = .ok bytes ∧ decode bytes = .ok everySection :=
  ⟨everySection_encodable, decode_encode everySection_encodable⟩

theorem encodable_of_given {m : Module} {frames : List Frame}
    (h : ∀ k : Known, k.Given frames k.empty (m.get k))
    (hpaired : m.functions.length = m.code.length) : m.Encodable where
  types := (h .types).encodable (by decide)
  imports := (h .imports).encodable (by decide)
  globals := (h .globals).encodable (by decide)
  exports := (h .exports).encodable (by decide)
  elements := (h .elements).encodable (by decide)
  code := (h .code).encodable (by decide)
  data := (h .data).encodable (by decide)
  paired := hpaired
  small k _ := (h k).length_contents_lt

/-- **Writing again is a stable normal form.** -/
theorem encode_of_decode {bytes : List UInt8} {m : Module} (h : decode bytes = .ok m) :
    ∃ bytes', m.encode = .ok bytes' ∧ decode bytes' = .ok m ∧ bytes'.length ≤ bytes.length := by
  obtain ⟨frames, rfl, hr, hl, hpaired⟩ := decode_eq_ok_iff_loads.mp h
  have hgiven := ((Frame.loads_iff hr).mp hl).2
  simp only [get_default] at hgiven
  obtain ⟨part, hpart, hdecode⟩ := (encodable_of_given hgiven hpaired).exists_parts
  refine ⟨_, encode_eq_ok hpart, hdecode, ?_⟩
  have hle : (Known.all.flatMap part).length ≤ (frames.flatMap Frame.bytes).length :=
    Known.length_flatMap_le (by decide) fun k _ => (hgiven k).length_encode_le (hpart k)
  simp only [List.length_append]
  omega

/-- A module written with all that the normal form leaves out: a custom section, padded numbers, a section of no imports,
table and memory zero by name, the count of data segments, an empty group of locals and a group in two parts. -/
def loose : List UInt8 :=
  magic ++ version
    ++ [0x00, 0x02, 0x01, 0x78]
    ++ [0x01, 0x85, 0x00, 0x01, 0x60, 0x80, 0x00, 0x00]
    ++ [0x02, 0x01, 0x00]
    ++ [0x03, 0x02, 0x01, 0x00]
    ++ [0x04, 0x04, 0x01, 0x70, 0x00, 0x01]
    ++ [0x05, 0x03, 0x01, 0x00, 0x01]
    ++ [0x09, 0x09, 0x01, 0x02, 0x00, 0x41, 0x00, 0x0b, 0x00, 0x01, 0x00]
    ++ [0x0c, 0x01, 0x01]
    ++ [0x0a, 0x0a, 0x01, 0x08, 0x03, 0x01, 0x7f, 0x00, 0x7e, 0x02, 0x7f, 0x0b]
    ++ [0x0b, 0x08, 0x01, 0x02, 0x00, 0x41, 0x00, 0x0b, 0x01, 0xaa]

/-- What `loose` says. -/
def looseModule : Module where
  types := [some ⟨[], []⟩]
  functions := [0]
  tables := [⟨1, none⟩]
  memories := [⟨1, none⟩]
  elements := [⟨0, some ⟨Opcode.i32Const, [0x00]⟩, [0]⟩]
  code := [⟨.ofGroups [(3, .i32)], [Opcode.end]⟩]
  data := [⟨0, some ⟨Opcode.i32Const, [0x00]⟩, [0xaa]⟩]

theorem loose_encode_of_decode : decode loose = .ok looseModule ∧
    ∃ bytes, looseModule.encode = .ok bytes ∧ decode bytes = .ok looseModule ∧
      bytes.length ≤ loose.length :=
  have h : decode loose = .ok looseModule := by decide +kernel
  ⟨h, encode_of_decode h⟩

end Module

end FlatWasm
