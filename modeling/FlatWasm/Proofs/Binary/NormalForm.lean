import Mathlib
import FlatWasm.Binary.Encode
import FlatWasm.Proofs.Binary.Items

/-!
# The normal form of items

Of the forms that a value has, the one that is written is among the shortest.  `Encodes` says this of an encoder and a
grammar: the values that have a form at all are written, in a form of their own unless it is too long for a length of 32
bits, and in no more bytes than any other form takes.

* `Encodes.vector`: the items of a vector can be treated one by one.
* `encodes_funcType`, `encodes_import`, `encodes_global`, … : the items of all sections.
* `Locals.cost_ofGroups_le`: merging groups of locals never makes their declaration longer.

## Why too long is said of the result

A length is written modulo `2 ^ 32`, and a value with a list of more items than that is written without complaint but not
read back.  Where such a list is deep inside a value, its encoding is as long, since no item is empty.  So it is enough to
ask that the whole is short, and nothing has to be said about the lists inside.
-/

namespace FlatWasm

open Reader

namespace Binary

/-- What is written of a valid value is, unless it is too long, one of its forms, and no longer than any other. -/
structure Encodes {α : Type} (Valid : α → Prop) (G : α → List UInt8 → Prop) (encode : α → Encoded) :
    Prop where
  valid : ∀ {a : α} {taken : List UInt8}, G a taken → Valid a
  written : ∀ {a : α}, Valid a → ∃ bytes, encode a = .ok bytes ∧ (bytes.length < 2 ^ 32 → G a bytes)
  shortest : ∀ {a : α} {taken bytes : List UInt8}, G a taken → encode a = .ok bytes →
    bytes.length ≤ taken.length

/-! ## Numbers and lengths -/

theorem word_encodeWord (v : UInt32) : Word v (Leb128.encodeWord v) :=
  Leb128.unsigned_encodeUnsigned v.toNat_lt

theorem Word.length_le {v : UInt32} {taken : List UInt8} (h : Word v taken) :
    (Leb128.encodeWord v).length ≤ taken.length :=
  Leb128.Unsigned.length_encode_le h le_rfl

theorem length_encodeLength {n : ℕ} (h : n < 2 ^ 32) : Length n (encodeLength n) := by
  rw [encodeLength, Leb128.encodeWord, UInt32.toNat_ofNat_of_lt' h]
  exact Leb128.unsigned_encodeUnsigned h

theorem Length.length_le {n n' : ℕ} {taken : List UInt8} (h : Length n taken) (hle : n' ≤ n) :
    (encodeLength n').length ≤ taken.length := by
  rw [encodeLength, Leb128.encodeWord, UInt32.toNat_ofNat_of_lt' (hle.trans_lt h.lt)]
  exact Leb128.Unsigned.length_encode_le h hle

theorem sized_encodeSized {bytes : List UInt8} (h : (encodeSized bytes).length < 2 ^ 32) :
    Sized bytes (encodeSized bytes) := by
  rw [encodeSized, List.length_append] at h
  exact .mk (length_encodeLength (by omega))

/-- Fewer bytes have a length that is no longer. -/
theorem Sized.length_le {bytes bytes' taken : List UInt8} (h : Sized bytes taken)
    (hle : bytes'.length ≤ bytes.length) : (encodeSized bytes').length ≤ taken.length := by
  obtain ⟨hn⟩ := h
  have := hn.length_le hle
  rw [encodeSized, List.length_append, List.length_append]
  omega

theorem encodes_word : Encodes (fun _ => True) Word fun v => .ok (Leb128.encodeWord v) where
  valid _ := trivial
  written {v} _ := ⟨_, rfl, fun _ => word_encodeWord v⟩
  shortest hG h := by
    cases h
    exact hG.length_le

/-! ## Vectors -/

section

variable {α : Type} {Valid : α → Prop} {G : α → List UInt8 → Prop} {item : α → Encoded}

theorem Encodes.exists_mapM (h : Encodes Valid G item) {as : List α} (hv : ∀ a ∈ as, Valid a) :
    ∃ parts, as.mapM item = .ok parts ∧
      (parts.flatten.length < 2 ^ 32 → Items G as parts.flatten) := by
  induction as with
  | nil => exact ⟨[], rfl, fun _ => .nil⟩
  | cons a as ih =>
    obtain ⟨ha, has⟩ := List.forall_mem_cons.mp hv
    obtain ⟨bytes, hbytes, hG⟩ := h.written ha
    obtain ⟨parts, hparts, hitems⟩ := ih has
    refine ⟨bytes :: parts, ?_, fun hlt => ?_⟩
    · rw [List.mapM_cons, hbytes, hparts]
      rfl
    · rw [List.flatten_cons, List.length_append] at hlt
      exact .cons (hG (by omega)) (hitems (by omega))

theorem Encodes.length_mapM_le (h : Encodes Valid G item) {as : List α} {taken : List UInt8}
    {parts : List (List UInt8)} (hs : Items G as taken) (hm : as.mapM item = .ok parts) :
    parts.flatten.length ≤ taken.length := by
  induction hs generalizing parts with
  | nil =>
    cases hm
    exact le_rfl
  | cons hG _ ih =>
    rw [List.mapM_cons] at hm
    obtain ⟨bytes, hbytes, hm⟩ := Except.bind_eq_ok_iff.mp hm
    obtain ⟨parts', hparts, hm⟩ := Except.bind_eq_ok_iff.mp hm
    cases hm
    rw [List.flatten_cons, List.length_append, List.length_append]
    exact Nat.add_le_add (h.shortest hG hbytes) (ih hparts)

/-- A vector is written in its normal form if its items are.  No item is empty, so there are not too many of them. -/
theorem Encodes.vector (h : Encodes Valid G item) (hpos : ∀ a taken, G a taken → 0 < taken.length) :
    Encodes (fun as => ∀ a ∈ as, Valid a) (Vector G) (encodeVector item) where
  valid := by
    rintro as taken ⟨-, hs⟩
    exact hs.forall_mem fun _ _ hG => h.valid hG
  written {as} hv := by
    obtain ⟨parts, hparts, hitems⟩ := h.exists_mapM hv
    refine ⟨encodeLength as.length ++ parts.flatten, ?_, fun hlt => ?_⟩
    · rw [encodeVector, hparts]
      rfl
    · rw [List.length_append] at hlt
      have hs := hitems (by omega)
      have hle := hs.length_le hpos
      exact .mk (length_encodeLength (by omega)) hs
  shortest := by
    rintro as taken bytes ⟨hn, hs⟩ hm
    obtain ⟨parts, hparts, hm⟩ := Except.bind_eq_ok_iff.mp hm
    cases hm
    rw [List.length_append, List.length_append]
    exact Nat.add_le_add (hn.length_le le_rfl) (h.length_mapM_le hs hparts)

end

end Binary

/-! ## Types -/

/-- Values of a type that the format has. -/
def FuncType.Numeric (t : FuncType) : Prop :=
  (∀ p ∈ t.params, p.isNumeric = true) ∧ ∀ r ∈ t.results, r.isNumeric = true

namespace Binary

theorem ValueTypes.length_le {types : List ValueType} {taken : List UInt8}
    (h : ValueTypes types taken) : (encodeValueTypes types).length ≤ taken.length := by
  obtain ⟨-, hs⟩ := h
  exact hs.length_le le_rfl

theorem encodes_funcType : Encodes (fun t => ∃ type : FuncType, t = some type ∧ type.Numeric)
    (fun t taken => ∃ type : FuncType, t = some type ∧ type.Written taken) encodeFuncType where
  valid := by
    rintro t taken ⟨type, rfl, hp, hr⟩
    obtain ⟨hp, -⟩ := hp
    obtain ⟨hr, -⟩ := hr
    exact ⟨type, rfl, hp, hr⟩
  written := by
    rintro t ⟨type, rfl, hp, hr⟩
    refine ⟨_, rfl, fun hlt => ⟨type, rfl, ?_⟩⟩
    rw [List.cons_append, List.length_cons, List.length_append] at hlt
    exact .mk (.mk hp (sized_encodeSized (by rw [encodeValueTypes] at hlt; omega)))
      (.mk hr (sized_encodeSized (by rw [← encodeValueTypes]; omega)))
  shortest := by
    rintro t taken bytes ⟨type, rfl, hp, hr⟩ h
    cases h
    have := hp.length_le
    have := hr.length_le
    simp only [List.length_append, List.length_cons]
    omega

theorem written_encodeLimits (l : Limits) : l.Written (encodeLimits l) := by
  obtain ⟨min, _ | max⟩ := l
  · exact .min (word_encodeWord min)
  · exact .minMax (word_encodeWord min) (word_encodeWord max)

theorem length_encodeLimits_le {l : Limits} {taken : List UInt8} (h : l.Written taken) :
    (encodeLimits l).length ≤ taken.length := by
  cases h with
  | min hm => exact Nat.succ_le_succ hm.length_le
  | minMax hm hx =>
    have := hm.length_le
    have := hx.length_le
    simp only [encodeLimits, List.length_cons, List.length_append]
    omega

theorem encodes_limits : Encodes (fun _ => True) Limits.Written fun l => .ok (encodeLimits l) where
  valid _ := trivial
  written {l} _ := ⟨_, rfl, fun _ => written_encodeLimits l⟩
  shortest hG h := by
    cases h
    exact length_encodeLimits_le hG

theorem encodes_tableType :
    Encodes (fun _ => True) Limits.WrittenTable fun l => .ok (encodeTableType l) where
  valid _ := trivial
  written {l} _ := ⟨_, rfl, fun _ => .mk (written_encodeLimits l)⟩
  shortest := by
    rintro l taken bytes ⟨hG⟩ h
    cases h
    exact Nat.succ_le_succ (length_encodeLimits_le hG)

end Binary

/-! ## Constant expressions, imports, globals and exports -/

/-- The initializer is a constant or `global.get`, and has exactly one immediate of it. -/
def ConstExpr.Complete (e : ConstExpr) : Prop :=
  ConstExpr.Immediate e.opcode e.data

/-- An import of a kind that the format has, with what belongs to this kind. -/
def ImportDesc.Encodable : ImportDesc → Prop
  | .func _ => True
  | .table l => ∃ limits, l = some limits
  | .memory l => ∃ limits, l = some limits
  | .global t => ∃ type, t = some type ∧ type.valueType.isNumeric = true
  | .other _ => False

def Global.Encodable (g : Global) : Prop :=
  (∃ type, g.type = some type ∧ type.valueType.isNumeric = true) ∧
    ∃ init, g.init = some init ∧ init.Complete

namespace Binary

theorem encodeConstExpr_some (e : ConstExpr) :
    encodeConstExpr (some e) = .ok (e.opcode :: (e.data ++ [Opcode.end])) :=
  rfl

theorem encodes_importDesc :
    Encodes ImportDesc.Encodable ImportDesc.Written encodeImportDesc where
  valid := by
    rintro desc taken (_ | _ | _ | ⟨⟨ht⟩⟩)
    · trivial
    · exact ⟨_, rfl⟩
    · exact ⟨_, rfl⟩
    · exact ⟨_, rfl, ht⟩
  written := by
    intro desc hv
    match desc, hv with
    | .func x, _ => exact ⟨_, rfl, fun _ => .func (word_encodeWord x)⟩
    | .table _, ⟨l, rfl⟩ => exact ⟨_, rfl, fun _ => .table (.mk (written_encodeLimits l))⟩
    | .memory _, ⟨l, rfl⟩ => exact ⟨_, rfl, fun _ => .memory (written_encodeLimits l)⟩
    | .global _, ⟨t, rfl, ht⟩ => exact ⟨_, rfl, fun _ => .global (.mk ht)⟩
  shortest := by
    intro desc taken bytes hG h
    cases hG with
    | func hx =>
      cases h
      exact hx.length_le
    | table hl => exact encodes_tableType.shortest hl h
    | memory hl => exact encodes_limits.shortest hl h
    | global ht =>
      cases h
      obtain ⟨-⟩ := ht
      exact le_rfl

theorem Name.length_le {s : String} {taken : List UInt8} (h : Name s taken) :
    (encodeName s).length ≤ taken.length :=
  Sized.length_le h le_rfl

theorem name_encodeName {s : String} (h : (encodeName s).length < 2 ^ 32) : Name s (encodeName s) :=
  sized_encodeSized h

theorem encodes_import :
    Encodes (fun im => im.desc.Encodable) Import.Written encodeImport where
  valid := by
    rintro im taken ⟨-, -, hd⟩
    exact encodes_importDesc.valid hd
  written {im} hv := by
    obtain ⟨ds, hds, hd⟩ := encodes_importDesc.written hv
    refine ⟨encodeName im.module ++ (encodeName im.name ++ (im.desc.kind.code :: ds)), ?_,
      fun hlt => ?_⟩
    · rw [encodeImport, hds, ← List.append_assoc]
      rfl
    · rw [List.length_append, List.length_append, List.length_cons] at hlt
      exact .mk (name_encodeName (by omega)) (name_encodeName (by omega)) (hd (by omega))
  shortest := by
    rintro im taken bytes ⟨hm, hn, hd⟩ h
    obtain ⟨ds, hds, h⟩ := Except.bind_eq_ok_iff.mp h
    cases h
    have := hm.length_le
    have := hn.length_le
    have := encodes_importDesc.shortest hd hds
    simp only [List.length_append, List.length_cons]
    omega

theorem encodes_global : Encodes Global.Encodable Global.Written encodeGlobal where
  valid := by
    rintro g taken ⟨⟨ht⟩, ⟨hi⟩⟩
    exact ⟨⟨_, rfl, ht⟩, _, rfl, hi⟩
  written := by
    rintro ⟨_, _⟩ ⟨⟨type, rfl, ht⟩, init, rfl, hi⟩
    exact ⟨_, rfl, fun _ => .mk (.mk ht) (.mk hi)⟩
  shortest := by
    rintro g taken bytes ⟨⟨-⟩, ⟨-⟩⟩ h
    cases h
    exact le_rfl

theorem encodes_export :
    Encodes (fun e => e.kind.code ≤ 3) Export.Written fun e => .ok (encodeExport e) where
  valid := by
    rintro e taken ⟨hk, -, -⟩
    exact hk
  written {e} hk := by
    refine ⟨_, rfl, fun hlt => ?_⟩
    rw [encodeExport, List.length_append] at hlt
    exact .mk hk (name_encodeName (by omega)) (word_encodeWord e.index)
  shortest := by
    rintro e taken bytes ⟨-, hn, hx⟩ h
    cases h
    have := hn.length_le
    have := hx.length_le
    simp only [encodeExport, List.length_append, List.length_cons]
    omega

end Binary

/-! ## Segments -/

def ElementSegment.Encodable (e : ElementSegment) : Prop :=
  ∃ offset, e.offset = some offset ∧ offset.Complete

def DataSegment.Encodable (d : DataSegment) : Prop :=
  ∃ offset, d.offset = some offset ∧ offset.Complete

namespace Binary

/-- The functions of an element segment. -/
theorem encodes_functionIndices : Encodes (fun indices => ∀ i ∈ indices, True) (Vector Word)
    (encodeVector fun i => .ok (Leb128.encodeWord i)) :=
  encodes_word.vector fun _ _ => accepts_number.length_pos nofun

/-- A segment in normal form: only what is not zero is named. -/
def segment (mark : List UInt8) (x : UInt32) (offset : ConstExpr) (init : List UInt8) : List UInt8 :=
  let os := offset.opcode :: (offset.data ++ [Opcode.end])
  if x = 0 then Leb128.encodeWord 0 ++ (os ++ init)
  else Leb128.encodeWord 2 ++ (Leb128.encodeWord x ++ (os ++ (mark ++ init)))

section

variable {mark : List UInt8} {x : UInt32} {offset : ConstExpr} {init : List UInt8}

theorem segment_segment (ho : offset.Complete) :
    Segment mark x offset init (segment mark x offset init) := by
  rw [segment]
  by_cases hx : x = 0
  · subst hx
    exact .first (word_encodeWord 0) (.mk ho)
  · rw [if_neg hx]
    exact .named (word_encodeWord 2) (word_encodeWord x) (.mk ho)

theorem length_le_segment : init.length ≤ (segment mark x offset init).length := by
  rw [segment]
  split
  all_goals
    simp only [List.length_append]
    omega

theorem Segment.complete {taken : List UInt8} (h : Segment mark x offset init taken) :
    offset.Complete := by
  cases h with
  | first _ ho | named _ _ ho =>
    obtain ⟨ho⟩ := ho
    exact ho

/-- Where zero is named, the normal form does without the name, and with a form whose number is no longer. -/
theorem Segment.length_le {init' taken : List UInt8} (h : Segment mark x offset init taken)
    (hle : init'.length ≤ init.length) : (segment mark x offset init').length ≤ taken.length := by
  cases h with
  | first hf ho =>
    obtain ⟨-⟩ := ho
    have := hf.length_le
    simp only [segment, if_true, List.length_append]
    omega
  | @named _ _ fs _ _ _ hf hx ho =>
    obtain ⟨-⟩ := ho
    have := hf.length_le
    have := hx.length_le
    have : (Leb128.encodeWord 0).length ≤ fs.length :=
      Leb128.Unsigned.length_encode_le hf (Nat.zero_le _)
    rw [segment]
    split
    all_goals
      simp only [List.length_append]
      omega

end

theorem encodeElement_eq {table : UInt32} {offset : ConstExpr} {init : List UInt32} {is : List UInt8}
    (h : encodeVector (fun i => .ok (Leb128.encodeWord i)) init = .ok is) :
    encodeElement ⟨table, some offset, init⟩ = .ok (segment [0] table offset is) := by
  rw [encodeElement, encodeConstExpr_some, h]
  by_cases htable : table = 0 <;> simp [segment, htable, bind, Except.bind, pure, Except.pure]

theorem encodes_element :
    Encodes ElementSegment.Encodable ElementSegment.Written encodeElement where
  valid := by
    rintro e taken ⟨-, hs⟩
    exact ⟨_, rfl, hs.complete⟩
  written := by
    rintro ⟨table, _, init⟩ ⟨offset, rfl, ho⟩
    obtain ⟨is, his, hi⟩ := encodes_functionIndices.written (a := init) fun _ _ => trivial
    exact ⟨_, encodeElement_eq his, fun hlt =>
      .mk (hi (length_le_segment.trans_lt hlt)) (segment_segment ho)⟩
  shortest := by
    rintro e taken bytes ⟨hi, hs⟩ h
    obtain ⟨is, his, -⟩ := encodes_functionIndices.written (encodes_functionIndices.valid hi)
    cases (encodeElement_eq his).symm.trans h
    exact hs.length_le (encodes_functionIndices.shortest hi his)

theorem encodeData_eq (memory : UInt32) (offset : ConstExpr) (init : List UInt8) :
    encodeData ⟨memory, some offset, init⟩ = .ok (segment [] memory offset (encodeSized init)) := by
  rw [encodeData, encodeConstExpr_some]
  by_cases hmemory : memory = 0 <;> simp [segment, hmemory, bind, Except.bind, pure, Except.pure]

theorem encodes_data : Encodes DataSegment.Encodable DataSegment.Written encodeData where
  valid := by
    rintro d taken ⟨-, hs⟩
    exact ⟨_, rfl, hs.complete⟩
  written := by
    rintro ⟨memory, _, init⟩ ⟨offset, rfl, ho⟩
    exact ⟨_, encodeData_eq memory offset init, fun hlt =>
      .mk (sized_encodeSized (length_le_segment.trans_lt hlt)) (segment_segment ho)⟩
  shortest := by
    rintro d taken bytes ⟨hi, hs⟩ h
    cases (encodeData_eq _ _ _).symm.trans h
    exact hs.length_le (hi.length_le le_rfl)

end Binary

/-! ## Code -/

namespace LocalGroup

/-- A group as it is written. -/
def encode (g : LocalGroup) : List UInt8 :=
  Binary.encodeLength g.count ++ [g.type.code]

/-- How many bytes groups take at most. -/
def cost (groups : List LocalGroup) : ℕ :=
  (groups.map fun g => (Leb128.encodeUnsigned g.count).length + 1).sum

theorem length_prepend_le (count : ℕ) (type : ValueType) (groups : List LocalGroup) :
    (prepend count type groups).length ≤ groups.length + 1 := by
  unfold prepend
  split
  · exact Nat.le_succ _
  · cases groups with
    | nil => exact le_rfl
    | cons g gs =>
      dsimp only
      split <;> simp

/-- A group that is merged into its neighbour costs no more than it did by itself. -/
theorem cost_prepend_le (count : ℕ) (type : ValueType) (groups : List LocalGroup) :
    cost (prepend count type groups) ≤
      (Leb128.encodeUnsigned count).length + 1 + cost groups := by
  unfold prepend
  split
  · exact Nat.le_add_left _ _
  · cases groups with
    | nil => exact le_rfl
    | cons g gs =>
      dsimp only
      split
      · have := Leb128.length_encodeUnsigned_add_le count g.count
        simp only [cost, List.map_cons, List.sum_cons]
        omega
      · exact le_rfl

theorem length_flatMap_encode_le (groups : List LocalGroup) :
    (groups.flatMap encode).length ≤ cost groups := by
  rw [List.length_flatMap]
  refine List.sum_le_sum fun g _ => ?_
  rw [encode, List.length_append, List.length_singleton, Binary.encodeLength, Leb128.encodeWord]
  exact Nat.add_le_add_right (Leb128.length_encodeUnsigned_mono (by simpa using Nat.mod_le _ _)) 1

theorem count_le_length {groups : List LocalGroup} {g : LocalGroup} (hg : g ∈ groups) :
    g.count ≤ length groups := by
  induction groups with
  | nil => cases hg
  | cons g' gs ih =>
    change g.count ≤ g'.count + length gs
    obtain rfl | hg := List.mem_cons.mp hg
    · exact Nat.le_add_right _ _
    · exact (ih hg).trans (Nat.le_add_left _ _)

theorem count_pos {groups : List LocalGroup} (h : Normal groups) {g : LocalGroup} (hg : g ∈ groups) :
    0 < g.count := by
  induction groups with
  | nil => cases hg
  | cons g' gs ih =>
    obtain ⟨hpos, -, hn⟩ := h
    obtain rfl | hg := List.mem_cons.mp hg
    · exact hpos
    · exact ih hn hg

end LocalGroup

namespace Locals

theorem ofGroups_cons (g : ℕ × ValueType) (groups : List (ℕ × ValueType)) :
    ofGroups (g :: groups) = (ofGroups groups).prepend g.1 g.2 :=
  rfl

theorem toList_ofGroups (groups : List (ℕ × ValueType)) :
    (ofGroups groups).toList = groups.flatMap fun g => List.replicate g.1 g.2 := by
  induction groups with
  | nil => rfl
  | cons g groups ih => rw [ofGroups_cons, toList_prepend, ih, List.flatMap_cons]

/-- The groups of locals, as they are declared. -/
def pairs (ls : Locals) : List (ℕ × ValueType) :=
  ls.groups.map fun g => (g.count, g.type)

theorem length_pairs (ls : Locals) : ls.pairs.length = ls.groups.length :=
  List.length_map _

theorem ofGroups_pairs (ls : Locals) : ofGroups ls.pairs = ls := by
  apply ext_toList
  rw [toList_ofGroups, pairs, List.flatMap_map]
  rfl

theorem type_mem_toList {ls : Locals} {g : LocalGroup} (hg : g ∈ ls.groups) : g.type ∈ ls.toList :=
  List.mem_flatMap.mpr
    ⟨g, hg, List.mem_replicate.mpr ⟨(LocalGroup.count_pos ls.normal hg).ne', rfl⟩⟩

theorem length_groups_ofGroups_le (groups : List (ℕ × ValueType)) :
    (ofGroups groups).groups.length ≤ groups.length := by
  induction groups with
  | nil => exact le_rfl
  | cons g groups ih =>
    rw [ofGroups_cons, List.length_cons]
    exact (LocalGroup.length_prepend_le ..).trans (Nat.succ_le_succ ih)

/-- However locals are declared, their normal form costs no more. -/
theorem cost_ofGroups_le {groups : List (ℕ × ValueType)} {taken : List UInt8}
    (h : Items Binary.Group groups taken) :
    LocalGroup.cost (ofGroups groups).groups ≤ taken.length := by
  induction h with
  | nil => exact le_rfl
  | cons hg _ ih =>
    obtain ⟨hn, -⟩ := hg
    rw [ofGroups_cons, List.length_append, List.length_append, List.length_singleton]
    have hcount := Leb128.Unsigned.length_encode_le hn le_rfl
    exact (LocalGroup.cost_prepend_le ..).trans (Nat.add_le_add (Nat.succ_le_succ hcount) ih)

/-- The normal form of locals is one of their declarations. -/
theorem items_pairs {ls : Locals} (hn : ∀ t ∈ ls.toList, t.isNumeric = true)
    (hlt : ls.length < 2 ^ 32) : Items Binary.Group ls.pairs (ls.groups.flatMap LocalGroup.encode) := by
  have hgroup : ∀ g ∈ ls.groups, Binary.Group (g.count, g.type) g.encode := fun g hg =>
    .mk (Binary.length_encodeLength ((LocalGroup.count_le_length hg).trans_lt hlt))
      (hn _ (type_mem_toList hg))
  rw [pairs]
  generalize ls.groups = groups at hgroup
  induction groups with
  | nil => exact .nil
  | cons g gs ih =>
    obtain ⟨hg, hgs⟩ := List.forall_mem_cons.mp hgroup
    exact .cons hg (ih hgs)

end Locals

theorem Binary.Group.numeric {g : ℕ × ValueType} {taken : List UInt8} (h : Binary.Group g taken) :
    g.2.isNumeric = true := by
  obtain ⟨-, ht⟩ := h
  exact ht

theorem Binary.Group.length_pos {g : ℕ × ValueType} {taken : List UInt8} (h : Binary.Group g taken) :
    0 < taken.length := by
  obtain ⟨-, -⟩ := h
  simp

/-- Code that the format can hold. -/
structure Code.Encodable (c : Code) : Prop where
  numeric : ∀ t ∈ c.locals.toList, t.isNumeric = true
  few : c.locals.length < 2 ^ 32
  ended : c.body.getLast? = some Opcode.end

namespace Binary

theorem encodeCode_eq (c : Code) : encodeCode c = encodeSized (encodeLength c.locals.groups.length ++
    (c.locals.groups.flatMap LocalGroup.encode ++ c.body)) := by
  rw [← List.append_assoc]
  rfl

theorem encodes_code : Encodes Code.Encodable Code.Written fun c => .ok (encodeCode c) where
  valid := by
    rintro c taken ⟨hlocals, hcount, hlast, -, hg, -⟩
    refine ⟨fun t ht => ?_, hcount, hlast⟩
    rw [hlocals, Locals.toList_ofGroups] at ht
    obtain ⟨g, hmem, ht⟩ := List.mem_flatMap.mp ht
    obtain rfl := List.eq_of_mem_replicate ht
    exact hg.forall_mem (fun _ _ h => h.numeric) g hmem
  written {c} hv := by
    refine ⟨_, rfl, fun hlt => ?_⟩
    have hitems := Locals.items_pairs hv.numeric hv.few
    have hle := hitems.length_le fun _ _ h => h.length_pos
    rw [encodeCode_eq] at hlt ⊢
    refine .mk c.locals.ofGroups_pairs.symm hv.few hv.ended ?_ hitems (sized_encodeSized hlt)
    rw [Locals.length_pairs] at hle ⊢
    simp only [encodeSized, List.length_append] at hlt
    exact length_encodeLength (by omega)
  shortest := by
    rintro c taken bytes ⟨hlocals, -, -, hn, hg, hs⟩ h
    cases h
    rw [encodeCode_eq, hlocals]
    refine hs.length_le ?_
    have hcount := hn.length_le (Locals.length_groups_ofGroups_le _)
    have hgroups := (LocalGroup.length_flatMap_encode_le _).trans (Locals.cost_ofGroups_le hg)
    simp only [List.length_append]
    omega

end Binary

end FlatWasm
