import Mathlib
import FlatWasm.Proofs.Binary.Items

/-!
# Sections

A module is a sequence of sections, each a number, the length of its contents, and the contents.  The reader of sections
works on all of the bytes that are left, and compares what it took with the length only afterwards.  Here this is shown to
be the same as cutting the bytes into frames first and reading each frame on its own.

* `Known` names the eleven sections that describe a part of a module, with `Known.decoder`, `Module.get` and `Module.set`
  for the reader and the place of this part; `contents_known` compares this with the reader of contents as it runs.
* `framed_append_eq_ok_iff`: what comes after a section has no effect on it.
* `sections_of_loads`, `exists_loads_of_sections`: the reader of sections goes from frame to frame.
* `Frame.loads_iff`: since the numbers go up, each part is given by at most one frame.
* `Module.decode_eq_ok_iff_frames`: the bytes that are read as a module, and the module.

## Why the order is a sublist

`sectionOrder` places the count of data segments, which was added to the format late and has number 12, before the code.
Its values are of no interest but for their order, which is the list `sectionIds`: that the places of some sections go up is
that their numbers are a sublist of it.
-/

namespace FlatWasm

open Reader

namespace Binary

/-! ## Known sections -/

/-- A section that describes a part of a module. -/
inductive Known where
  | types
  | imports
  | functions
  | tables
  | memories
  | globals
  | exports
  | start
  | elements
  | code
  | data
deriving DecidableEq

namespace Known

/-- The number of the section in the format. -/
def id : Known → UInt8
  | types => 1
  | imports => 2
  | functions => 3
  | tables => 4
  | memories => 5
  | globals => 6
  | exports => 7
  | start => 8
  | elements => 9
  | code => 10
  | data => 11

/-- What the section describes. -/
def Contents : Known → Type
  | types => List (Option FuncType)
  | imports => List Import
  | functions => List UInt32
  | tables => List Limits
  | memories => List Limits
  | globals => List Global
  | exports => List Export
  | start => Option UInt32
  | elements => List ElementSegment
  | code => List Code
  | data => List DataSegment

/-- What a module without the section has. -/
def empty : (k : Known) → k.Contents
  | types | imports | functions | tables | memories | globals | exports | elements | code | data => []
  | start => none

/-- The reader of the section. -/
def decoder : (k : Known) → Decoder k.Contents
  | types => do return (← vector fun i => inside (.type i) funcType).map some
  | imports => vector importItem
  | functions => vector fun _ => inside .typeIndex number
  | tables => vector fun _ => inside .table tableType
  | memories => vector fun _ => inside .memory limits
  | globals => vector fun i => inside (.global i) globalItem
  | exports => vector exportItem
  | start => do return some (← inside .startIndex number)
  | elements => vector fun _ => inside .element elementItem
  | code => vector fun i => inside (.code i) codeItem
  | data => vector fun _ => inside .dataSegment dataItem

/-- The grammar of the section. -/
def Written : (k : Known) → k.Contents → List UInt8 → Prop
  | types => Vector fun t taken => ∃ type, t = some type ∧ type.Written taken
  | imports => Vector Import.Written
  | functions => Vector Word
  | tables => Vector Limits.WrittenTable
  | memories => Vector Limits.Written
  | globals => Vector Global.Written
  | exports => Vector Export.Written
  | start => fun x taken => ∃ index, x = some index ∧ Word index taken
  | elements => Vector ElementSegment.Written
  | code => Vector Code.Written
  | data => Vector DataSegment.Written

theorem accepts_decoder (k : Known) : k.decoder.Accepts k.Written := by
  cases k with
  | types =>
    exact ((accepts_vector (fun _ => accepts_inside accepts_funcType _) nofun).map _).congr
      fun _ _ => vector_map_iff.symm
  | imports => exact accepts_vector accepts_importItem nofun
  | functions => exact accepts_vector (fun _ => accepts_inside accepts_number _) nofun
  | tables => exact accepts_vector (fun _ => accepts_inside accepts_tableType _) nofun
  | memories => exact accepts_vector (fun _ => accepts_inside accepts_limits _) nofun
  | globals => exact accepts_vector (fun _ => accepts_inside accepts_globalItem _) nofun
  | exports => exact accepts_vector accepts_exportItem nofun
  | start => exact (accepts_inside accepts_number _).map _
  | elements => exact accepts_vector (fun _ => accepts_inside accepts_elementItem _) nofun
  | code => exact accepts_vector (fun _ => accepts_inside accepts_codeItem _) nofun
  | data => exact accepts_vector (fun _ => accepts_inside accepts_dataItem _) nofun

theorem id_ne {id : UInt8} (h : id = 0 ∨ id = 12) (k : Known) : id ≠ k.id := by
  obtain rfl | rfl := h <;> cases k <;> decide

theorem id_le (k : Known) : k.id ≤ 12 := by
  cases k <;> decide

theorem id_injective : Function.Injective id := by
  intro k k' h
  cases k <;> cases k' <;> first | rfl | cases h

end Known

end Binary

namespace Module

open Binary

/-- The part of a module that a section describes. -/
def get (m : Module) : (k : Known) → k.Contents
  | .types => m.types
  | .imports => m.imports
  | .functions => m.functions
  | .tables => m.tables
  | .memories => m.memories
  | .globals => m.globals
  | .exports => m.exports
  | .start => m.start
  | .elements => m.elements
  | .code => m.code
  | .data => m.data

/-- The module with another such part. -/
def set (m : Module) : (k : Known) → k.Contents → Module
  | .types, types => { m with types }
  | .imports, imports => { m with imports }
  | .functions, functions => { m with functions }
  | .tables, tables => { m with tables }
  | .memories, memories => { m with memories }
  | .globals, globals => { m with globals }
  | .exports, exports => { m with exports }
  | .start, start => { m with start }
  | .elements, elements => { m with elements }
  | .code, code => { m with code }
  | .data, data => { m with data }

@[simp] theorem get_set_self (m : Module) (k : Known) (x : k.Contents) : (m.set k x).get k = x := by
  cases k <;> rfl

theorem get_set_of_ne (m : Module) {k k' : Known} (x : k.Contents) (h : k' ≠ k) :
    (m.set k x).get k' = m.get k' := by
  cases k <;> cases k' <;> first | rfl | exact absurd rfl h

theorem ext_get {m m' : Module} (h : ∀ k, m.get k = m'.get k) : m = m' := by
  cases m
  cases m'
  rw [Module.mk.injEq]
  exact ⟨h .types, h .imports, h .functions, h .tables, h .memories, h .globals, h .exports,
    h .start, h .elements, h .code, h .data⟩

theorem get_default (k : Known) : ({} : Module).get k = k.empty := by
  cases k <;> rfl

end Module

namespace Binary

/-! ## The contents of one section -/

/-- What the contents of a section make of a module. -/
inductive Fills (id : UInt8) (size : ℕ) (m : Module) : Module → List UInt8 → Prop where
  | skipped {taken : List UInt8} (hid : id = 0 ∨ id = 12) (hlen : taken.length = size) :
      Fills id size m m taken
  | known {taken : List UInt8} (k : Known) (x : k.Contents) (hid : id = k.id)
      (hx : k.Written x taken) : Fills id size m (m.set k x) taken

/-- The number of a section stands for nothing of a module, or for a known part, or is too large. -/
theorem id_cases (id : UInt8) : (id = 0 ∨ id = 12) ∨ (∃ k : Known, id = k.id) ∨ 12 < id.toNat := by
  by_cases hbig : 12 < id.toNat
  · exact .inr (.inr hbig)
  · have hofNat : id = UInt8.ofNat id.toNat := UInt8.ofNat_toNat.symm
    generalize id.toNat = n at hbig hofNat
    subst hofNat
    interval_cases n
    · exact .inl (.inl rfl)
    · exact .inr (.inl ⟨.types, rfl⟩)
    · exact .inr (.inl ⟨.imports, rfl⟩)
    · exact .inr (.inl ⟨.functions, rfl⟩)
    · exact .inr (.inl ⟨.tables, rfl⟩)
    · exact .inr (.inl ⟨.memories, rfl⟩)
    · exact .inr (.inl ⟨.globals, rfl⟩)
    · exact .inr (.inl ⟨.exports, rfl⟩)
    · exact .inr (.inl ⟨.start, rfl⟩)
    · exact .inr (.inl ⟨.elements, rfl⟩)
    · exact .inr (.inl ⟨.code, rfl⟩)
    · exact .inr (.inl ⟨.data, rfl⟩)
    · exact .inl (.inr rfl)

theorem contents_skipped {id : UInt8} (h : id = 0 ∨ id = 12) (size : ℕ) (m : Module) :
    contents id size m = do skip size; return m := by
  obtain rfl | rfl := h <;> rfl

theorem contents_known (k : Known) (size : ℕ) (m : Module) :
    contents k.id size m = do return m.set k (← k.decoder) := by
  cases k with
  | types =>
    exact (bind_assoc (vector fun i => inside (.type i) funcType) (fun ts => pure (ts.map some))
      fun types => pure { m with types }).symm
  | start =>
    exact (bind_assoc (inside .startIndex number) (fun i => pure (some i))
      fun start => pure { m with start }).symm
  | _ => rfl

theorem contents_unknown {id : UInt8} (h : 12 < id.toNat) (size : ℕ) (m : Module) :
    contents id size m = Reader.fail .sectionId := by
  rw [contents]
  split <;> first | omega | rfl

section

variable {id : UInt8} {size : ℕ} {m m' : Module} {taken : List UInt8}

theorem fills_skipped_iff (hid : id = 0 ∨ id = 12) :
    Fills id size m m' taken ↔ m' = m ∧ taken.length = size := by
  constructor
  · rintro (⟨-, hlen⟩ | ⟨k, x, hk, -⟩)
    · exact ⟨rfl, hlen⟩
    · exact absurd hk (k.id_ne hid)
  · rintro ⟨rfl, hlen⟩
    exact .skipped hid hlen

theorem fills_known_iff {k : Known} :
    Fills k.id size m m' taken ↔ ∃ x, m' = m.set k x ∧ k.Written x taken := by
  constructor
  · rintro (⟨hid, -⟩ | ⟨k', x, hk, hx⟩)
    · exact absurd rfl (k.id_ne hid)
    · obtain rfl := Known.id_injective hk
      exact ⟨x, rfl, hx⟩
  · rintro ⟨x, rfl, hx⟩
    exact .known k x rfl hx

theorem Fills.id_le (h : Fills id size m m' taken) : id ≤ 12 := by
  obtain ⟨rfl | rfl, -⟩ | ⟨k, x, rfl, -⟩ := h
  · decide
  · decide
  · exact k.id_le

theorem accepts_contents (id : UInt8) (size : ℕ) (m : Module) :
    (contents id size m).Accepts (Fills id size m) := by
  obtain hid | ⟨k, rfl⟩ | hbig := id_cases id
  · rw [contents_skipped hid]
    refine ((accepts_skip size).map fun _ => m).congr fun m' taken => ?_
    rw [fills_skipped_iff hid]
    simp
  · rw [contents_known]
    exact (k.accepts_decoder.map (m.set k)).congr fun m' taken => fills_known_iff.symm
  · rw [contents_unknown hbig]
    refine ⟨fun hG => absurd hG.id_le ?_, fun hr => nomatch hr⟩
    rwa [UInt8.not_le, UInt8.lt_iff_toNat_lt]

end

theorem framed_eq_ok_iff {id : UInt8} {size : ℕ} {m m' : Module} {bytes : List UInt8} :
    framed id size m bytes = .ok m' ↔
      ∃ rest, contents id size m bytes = .ok (m', rest) ∧ bytes.length - rest.length = size := by
  rw [framed]
  cases contents id size m bytes with
  | error e => simp
  | ok p =>
    obtain ⟨m₁, rest⟩ := p
    by_cases hlen : bytes.length - rest.length = size <;> simp [hlen]

/-- **A section is read in isolation**: the bytes after it do not matter to its contents. -/
theorem framed_append_eq_ok_iff {id : UInt8} {m m' : Module} {content rest : List UInt8} :
    framed id content.length m (content ++ rest) = .ok m' ↔
      Fills id content.length m m' content := by
  have haccepts := accepts_contents id content.length m
  rw [framed_eq_ok_iff]
  constructor
  · rintro ⟨rest', hr, hlen⟩
    obtain ⟨taken, heq, hG⟩ := haccepts.exists_taken hr
    rw [heq, List.length_append, Nat.add_sub_cancel] at hlen
    obtain rfl := (List.append_inj heq hlen.symm).1
    exact hG
  · intro hG
    exact ⟨rest, haccepts.reads hG rest, by rw [List.length_append, Nat.add_sub_cancel]⟩

/-! ## Frames -/

/-- A section among the bytes of a module: a number, the length of the contents, the contents. -/
structure Frame where
  id : UInt8
  size : List UInt8
  content : List UInt8
  sized : Length content.length size

namespace Frame

/-- The bytes of a section. -/
def bytes (f : Frame) : List UInt8 :=
  f.id :: (f.size ++ f.content)

/-- What sections one after the other make of a module. -/
inductive Loads : List Frame → Module → Module → Prop where
  | nil {m : Module} : Loads [] m m
  | cons {f : Frame} {fs : List Frame} {m m₁ m₂ : Module}
      (h : Fills f.id f.content.length m m₁ f.content) (hs : Loads fs m₁ m₂) :
      Loads (f :: fs) m m₂

/-- The numbers of the sections that are not custom ones, which may stand anywhere. -/
def ids (frames : List Frame) : List UInt8 :=
  (frames.map Frame.id).filter (· ≠ 0)

end Frame

theorem sections_bytes_append (f : Frame) (m : Module) (last : ℕ) (rest : List UInt8) :
    sections m last (f.bytes ++ rest) =
      if f.id ≠ 0 ∧ sectionOrder f.id ≤ last then .error (.sectionOrder f.id)
      else framed f.id f.content.length m (f.content ++ rest) >>= fun m =>
        sections m (if f.id = 0 then last else sectionOrder f.id) rest := by
  have hsize : Leb128.decodeUnsigned 32 (f.size ++ (f.content ++ rest)) =
      (.ok (f.content.length, f.size.length), f.content ++ rest) :=
    (Leb128.decodeUnsigned_eq_ok_iff (by decide)).mpr ⟨f.size, rfl, rfl, f.sized⟩
  have hle : atLeast f.content.length (f.content ++ rest) = true := by
    rw [atLeast_iff, List.length_append]
    omega
  rw [Frame.bytes, List.cons_append, List.append_assoc, sections]
  split
  · next heq =>
    rw [hsize] at heq
    cases heq
  · next heq =>
    rw [hsize] at heq
    cases heq
    rw [hle, Bool.not_true, if_neg Bool.false_ne_true, List.drop_left]
    split
    · rfl
    · cases framed f.id f.content.length m (f.content ++ rest) <;> rfl

/-- Where sections are read, the first of them is framed. -/
theorem exists_frame {m m' : Module} {last : ℕ} {id : UInt8} {bytes : List UInt8}
    (h : sections m last (id :: bytes) = .ok m') :
    ∃ (f : Frame) (rest : List UInt8), id :: bytes = f.bytes ++ rest := by
  rw [sections] at h
  split at h
  · cases h
  · next size n rest heq =>
    obtain ⟨ns, rfl, -, hsize⟩ := (Leb128.decodeUnsigned_eq_ok_iff (by decide)).mp heq
    split at h
    · cases h
    · next hle =>
      rw [Bool.not_eq_true', Bool.not_eq_false, atLeast_iff] at hle
      have hlen : (rest.take size).length = size := by
        rw [List.length_take]
        omega
      refine ⟨⟨id, ns, rest.take size, ?_⟩, rest.drop size, ?_⟩
      · rwa [hlen]
      · rw [Frame.bytes, List.cons_append, List.append_assoc, List.take_append_drop]

/-- The places of the sections go up from `last`. -/
def Rises (last : ℕ) (frames : List Frame) : Prop :=
  (last :: (Frame.ids frames).map sectionOrder).IsChain (· < ·)

theorem rises_cons_iff {last : ℕ} {f : Frame} {fs : List Frame} :
    Rises last (f :: fs) ↔ ¬(f.id ≠ 0 ∧ sectionOrder f.id ≤ last) ∧
      Rises (if f.id = 0 then last else sectionOrder f.id) fs := by
  by_cases hid : f.id = 0
  · simp [Rises, Frame.ids, hid]
  · simp [Rises, Frame.ids, hid]

theorem sections_of_loads {frames : List Frame} {m m' : Module} {last : ℕ} (hr : Rises last frames)
    (h : Frame.Loads frames m m') : sections m last (frames.flatMap Frame.bytes) = .ok m' := by
  induction h generalizing last with
  | nil => rw [List.flatMap_nil, sections]
  | cons h _ ih =>
    rw [rises_cons_iff] at hr
    rw [List.flatMap_cons, sections_bytes_append, if_neg hr.1, framed_append_eq_ok_iff.mpr h]
    exact ih hr.2

theorem exists_loads_of_sections {bytes : List UInt8} {m m' : Module} {last : ℕ}
    (h : sections m last bytes = .ok m') :
    ∃ frames : List Frame, bytes = frames.flatMap Frame.bytes ∧ Rises last frames ∧
      Frame.Loads frames m m' := by
  induction hn : bytes.length using Nat.strong_induction_on generalizing bytes m last with
  | _ n ih =>
    subst hn
    cases bytes with
    | nil =>
      rw [sections] at h
      cases h
      exact ⟨[], rfl, List.isChain_singleton _, .nil⟩
    | cons id bytes =>
      obtain ⟨f, rest, heq⟩ := exists_frame h
      have hlt : rest.length < (id :: bytes).length := by
        rw [heq, Frame.bytes, List.cons_append, List.length_cons, List.length_append]
        omega
      rw [heq, sections_bytes_append] at h
      split at h
      · cases h
      · next hlast =>
        obtain ⟨m₁, hf, hrest⟩ := Except.bind_eq_ok_iff.mp h
        obtain ⟨frames, rfl, hr, hl⟩ := ih _ hlt hrest rfl
        exact ⟨f :: frames, heq, rises_cons_iff.mpr ⟨hlast, hr⟩,
          .cons (framed_append_eq_ok_iff.mp hf) hl⟩

/-! ## Parts of a module -/

/-- The numbers of sections, in the order in which they may come. -/
def sectionIds : List UInt8 :=
  [1, 2, 3, 4, 5, 6, 7, 8, 9, 12, 10, 11]

theorem mem_sectionIds {id : UInt8} : id ∈ sectionIds ↔ id ≠ 0 ∧ id ≤ 12 := by
  simp only [sectionIds, List.mem_cons, List.not_mem_nil, or_false, ne_eq, ← UInt8.toNat_inj,
    UInt8.le_iff_toNat_le, UInt8.reduceToNat]
  omega

/-- Places go up exactly along the order of the numbers. -/
theorem rises_zero_iff {frames : List Frame} (hle : ∀ f ∈ frames, f.id ≤ 12) :
    Rises 0 frames ↔ (Frame.ids frames).Sublist sectionIds := by
  have hrises : (0 :: sectionIds.map sectionOrder).Pairwise (· < ·) := by decide
  rw [Rises, List.isChain_iff_pairwise]
  constructor
  · intro h
    have hids := List.pairwise_map.mp (List.pairwise_cons.mp h).2
    have hsubset : Frame.ids frames ⊆ sectionIds := by
      intro id hid
      obtain ⟨hid, h0⟩ := List.mem_filter.mp hid
      obtain ⟨f, hf, rfl⟩ := List.mem_map.mp hid
      exact mem_sectionIds.mpr ⟨of_decide_eq_true h0, hle f hf⟩
    have hnodup : (Frame.ids frames).Nodup :=
      hids.imp fun hlt heq => absurd hlt (by rw [heq]; exact lt_irrefl _)
    have : Std.Antisymm fun id id' => sectionOrder id < sectionOrder id' :=
      ⟨fun _ _ hlt hlt' => absurd hlt hlt'.asymm⟩
    exact List.sublist_of_subperm_of_pairwise (hnodup.subperm hsubset) hids
      (List.pairwise_map.mp (List.pairwise_cons.mp hrises).2)
  · intro h
    exact hrises.sublist ((h.map sectionOrder).cons_cons 0)

/-- No two sections other than custom ones have the same number. -/
theorem Rises.ne {last : ℕ} {f g : Frame} {fs : List Frame} (h : Rises last (f :: fs))
    (hid : f.id ≠ 0) (hg : g ∈ fs) : g.id ≠ f.id := by
  intro heq
  have hrest := (rises_cons_iff.mp h).2
  rw [if_neg hid, Rises, List.isChain_iff_pairwise, List.pairwise_cons] at hrest
  have hmem : g.id ∈ Frame.ids fs :=
    List.mem_filter.mpr ⟨List.mem_map_of_mem hg, decide_eq_true (heq ▸ hid)⟩
  exact absurd (hrest.1 _ (List.mem_map_of_mem hmem)) (by rw [heq]; exact lt_irrefl _)

/-- A part of a module is what the contents of its section say, read on their own, or what it was. -/
structure Known.Given (k : Known) (frames : List Frame) (before x : k.Contents) : Prop where
  decoded : ∀ f ∈ frames, f.id = k.id → k.decoder f.content = .ok (x, [])
  absent : (∀ f ∈ frames, f.id ≠ k.id) → x = before

namespace Known

variable {k : Known} {frames : List Frame} {f : Frame} {before x : k.Contents}

theorem given_iff_eq (h : ∀ f ∈ frames, f.id ≠ k.id) : k.Given frames before x ↔ x = before :=
  ⟨fun hx => hx.absent h, fun hx => ⟨fun f hf hid => absurd hid (h f hf), fun _ => hx⟩⟩

theorem given_cons_iff_of_ne (h : f.id ≠ k.id) :
    k.Given (f :: frames) before x ↔ k.Given frames before x := by
  constructor
  · rintro ⟨hdecoded, habsent⟩
    exact ⟨fun g hg => hdecoded g (List.mem_cons_of_mem f hg),
      fun hne => habsent (List.forall_mem_cons.mpr ⟨h, hne⟩)⟩
  · rintro ⟨hdecoded, habsent⟩
    exact ⟨List.forall_mem_cons.mpr ⟨fun hid => absurd hid h, hdecoded⟩,
      fun hne => habsent (List.forall_mem_cons.mp hne).2⟩

theorem given_cons_iff (hid : f.id = k.id) (h : ∀ g ∈ frames, g.id ≠ k.id) :
    k.Given (f :: frames) before x ↔ k.decoder f.content = .ok (x, []) :=
  ⟨fun hx => hx.decoded f List.mem_cons_self hid,
    fun hx => ⟨List.forall_mem_cons.mpr ⟨fun _ => hx, fun g hg hgid => absurd hgid (h g hg)⟩,
      fun hne => absurd hid (hne f List.mem_cons_self)⟩⟩

/-- A section gives its own part and leaves the others to the sections after it. -/
theorem forall_given_cons_iff (hid : f.id = k.id) (h : ∀ g ∈ frames, g.id ≠ k.id) {m m' : Module} :
    (∀ k' : Known, k'.Given (f :: frames) (m.get k') (m'.get k')) ↔
      ∃ x, k.decoder f.content = .ok (x, []) ∧
        ∀ k' : Known, k'.Given frames ((m.set k x).get k') (m'.get k') := by
  have hne {k' : Known} (hk : k' ≠ k) : f.id ≠ k'.id := fun h => hk (id_injective (h.symm.trans hid))
  constructor
  · intro hgiven
    refine ⟨m'.get k, (given_cons_iff hid h).mp (hgiven k), fun k' => ?_⟩
    obtain rfl | hk := eq_or_ne k' k
    · rw [given_iff_eq h, Module.get_set_self]
    · rw [m.get_set_of_ne _ hk]
      exact (given_cons_iff_of_ne (hne hk)).mp (hgiven k')
  · rintro ⟨x, hx, hgiven⟩ k'
    obtain rfl | hk := eq_or_ne k' k
    · have heq := (given_iff_eq h).mp (hgiven k')
      rw [Module.get_set_self] at heq
      rwa [given_cons_iff hid h, heq]
    · have hk' := hgiven k'
      rw [m.get_set_of_ne _ hk] at hk'
      exact (given_cons_iff_of_ne (hne hk)).mpr hk'

end Known

theorem Frame.loads_cons_iff {f : Frame} {fs : List Frame} {m m' : Module} :
    Frame.Loads (f :: fs) m m' ↔
      ∃ m₁, Fills f.id f.content.length m m₁ f.content ∧ Frame.Loads fs m₁ m' :=
  ⟨fun | .cons h hs => ⟨_, h, hs⟩, fun ⟨_, h, hs⟩ => .cons h hs⟩

/-- Sections in order fill each part of a module from its own section. -/
theorem Frame.loads_iff {frames : List Frame} {m m' : Module} {last : ℕ} (hr : Rises last frames) :
    Frame.Loads frames m m' ↔ (∀ f ∈ frames, f.id ≤ 12) ∧
      ∀ k : Known, k.Given frames (m.get k) (m'.get k) := by
  induction frames generalizing m last with
  | nil =>
    constructor
    · rintro ⟨⟩
      exact ⟨List.forall_mem_nil _, fun k => (Known.given_iff_eq (List.forall_mem_nil _)).mpr rfl⟩
    · rintro ⟨-, hgiven⟩
      obtain rfl : m' = m := Module.ext_get fun k => (Known.given_iff_eq (List.forall_mem_nil _)).mp (hgiven k)
      exact .nil
  | cons f fs ih =>
    have hfs := (rises_cons_iff.mp hr).2
    rw [Frame.loads_cons_iff, List.forall_mem_cons]
    obtain hid | ⟨k, hid⟩ | hbig := id_cases f.id
    · -- nothing comes of the section
      have hle : f.id ≤ 12 := by obtain hid | hid := hid <;> rw [hid] <;> decide
      have hne (k : Known) : f.id ≠ k.id := k.id_ne hid
      simp only [fills_skipped_iff hid, and_true, exists_eq_left, ih hfs, hle, true_and,
        Known.given_cons_iff_of_ne (hne _)]
    · -- one part comes of it, and of no later section
      have hid0 : f.id ≠ 0 := fun h0 => k.id_ne (.inl rfl) (h0.symm.trans hid)
      have hne : ∀ g ∈ fs, g.id ≠ k.id := fun g hg => hid ▸ hr.ne hid0 hg
      rw [Known.forall_given_cons_iff hid hne, hid]
      simp only [fills_known_iff, ← k.accepts_decoder.eq_ok_nil_iff]
      constructor
      · rintro ⟨-, ⟨x, rfl, hx⟩, hl⟩
        obtain ⟨hles, hgiven⟩ := (ih hfs).mp hl
        exact ⟨⟨k.id_le, hles⟩, x, hx, hgiven⟩
      · rintro ⟨⟨-, hles⟩, x, hx, hgiven⟩
        exact ⟨_, ⟨x, rfl, hx⟩, (ih hfs).mpr ⟨hles, hgiven⟩⟩
    · -- the number stands for no section
      have hle : ¬f.id ≤ 12 := by rwa [UInt8.not_le, UInt8.lt_iff_toNat_lt]
      constructor
      · rintro ⟨m₁, h, -⟩
        exact absurd h.id_le hle
      · rintro ⟨⟨h, -⟩, -⟩
        exact absurd h hle

end Binary

namespace Module

open Binary

/-- A module is its two first words and sections, with a body for each function. -/
theorem decode_eq_ok_iff {bytes : List UInt8} {m : Module} :
    decode bytes = .ok m ↔ ∃ rest, bytes = magic ++ version ++ rest ∧
      sections {} 0 rest = .ok m ∧ m.functions.length = m.code.length := by
  constructor
  · intro h
    rw [decode] at h
    by_cases hmagic : bytes.take 4 = magic
    · by_cases hversion : (bytes.drop 4).take 4 = version
      · rw [if_neg (not_not.mpr hmagic), if_neg (not_not.mpr hversion)] at h
        obtain ⟨m', hs, h⟩ := Except.bind_eq_ok_iff.mp h
        by_cases hlen : m'.functions.length = m'.code.length
        · rw [if_neg (not_not.mpr hlen)] at h
          cases h
          refine ⟨bytes.drop 8, ?_, hs, hlen⟩
          rw [← hmagic, ← hversion, List.append_assoc, ← List.drop_drop (i := 4) (j := 4),
            List.take_append_drop, List.take_append_drop]
        · rw [if_pos hlen] at h
          cases h
      · rw [if_neg (not_not.mpr hmagic), if_pos hversion] at h
        cases h
    · rw [if_pos hmagic] at h
      cases h
  · rintro ⟨rest, rfl, hs, hlen⟩
    have hmagic : (magic ++ version ++ rest).take 4 = magic := rfl
    have hversion : ((magic ++ version ++ rest).drop 4).take 4 = version := rfl
    have hdrop : (magic ++ version ++ rest).drop 8 = rest := rfl
    rw [decode, if_neg (not_not.mpr hmagic), if_neg (not_not.mpr hversion), hdrop, hs]
    exact if_neg (not_not.mpr hlen)

theorem decode_eq_ok_iff_loads {bytes : List UInt8} {m : Module} :
    decode bytes = .ok m ↔
      ∃ frames : List Frame, bytes = magic ++ version ++ frames.flatMap Frame.bytes ∧
        Rises 0 frames ∧ Frame.Loads frames {} m ∧ m.functions.length = m.code.length := by
  rw [decode_eq_ok_iff]
  constructor
  · rintro ⟨rest, rfl, hs, hlen⟩
    obtain ⟨frames, rfl, hr, hl⟩ := exists_loads_of_sections hs
    exact ⟨frames, rfl, hr, hl, hlen⟩
  · rintro ⟨frames, rfl, hr, hl, hlen⟩
    exact ⟨_, rfl, sections_of_loads hr hl, hlen⟩

/-- **The format is exactly the framed grammar.** A module is read from bytes that are the two first words and then frames,
whose numbers are at most 12 and, custom sections aside, go up in the order of the format.  Each part of the module is what
the contents of its section say, read on their own and to their end, and empty if it has no section. -/
theorem decode_eq_ok_iff_frames {bytes : List UInt8} {m : Module} :
    decode bytes = .ok m ↔
      ∃ frames : List Frame, bytes = magic ++ version ++ frames.flatMap Frame.bytes ∧
        (∀ f ∈ frames, f.id ≤ 12) ∧ (Frame.ids frames).Sublist sectionIds ∧
        (∀ k : Known, k.Given frames k.empty (m.get k)) ∧ m.functions.length = m.code.length := by
  rw [decode_eq_ok_iff_loads]
  constructor
  · rintro ⟨frames, rfl, hr, hl, hlen⟩
    obtain ⟨hle, hgiven⟩ := (Frame.loads_iff hr).mp hl
    simp only [get_default] at hgiven
    exact ⟨frames, rfl, hle, (rises_zero_iff hle).mp hr, hgiven, hlen⟩
  · rintro ⟨frames, rfl, hle, hids, hgiven, hlen⟩
    have hr := (rises_zero_iff hle).mpr hids
    simp only [← get_default] at hgiven
    exact ⟨frames, rfl, hr, (Frame.loads_iff hr).mpr ⟨hle, hgiven⟩, hlen⟩

end Module

end FlatWasm
