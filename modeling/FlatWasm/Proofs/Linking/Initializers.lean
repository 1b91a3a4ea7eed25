import Mathlib
import FlatWasm.Linking.Instantiate
import FlatWasm.Proofs.Failures
import FlatWasm.Proofs.Store.Bounds

/-!
# Initializers that were checked

Constant expressions are read twice: when a module is checked, and when it is instantiated.  What the check has seen of an
expression (`ConstExpr.Checked`) is enough for the second reading to succeed, given that the imported globals have values.  The
initial value of a global can then be computed, and the offset of a segment can be made and read.

With offsets that can be read, segments are refused only for their length (`Linear.failsOnly_load`).
-/

namespace FlatWasm

/-! ## Expressions -/

namespace ConstExpr

variable {space : IndexSpace} {expected : ValueType} {e : ConstExpr}

/-- What the check has seen: a constant of the expected type, or an imported global of that type. -/
inductive Checked (space : IndexSpace) (expected : ValueType) (e : ConstExpr) : Prop where
  | constant {imm : UInt64} (h : e.immediate = .ok imm)
      (ht : constantType? e.opcode = some expected)
  | global {imm : UInt64} {loc : Location} {type : GlobalType} (h : e.immediate = .ok imm)
      (hop : e.opcode = Opcode.globalGet)
      (hg : space.global imm.toUInt32 = .ok (loc, some type)) (horigin : loc.origin = .imported)
      (ht : type.valueType = expected)

/-- What is neither a constant nor `global.get` carries no number. -/
theorem eq_globalGet_of_immediate {imm : UInt64} (h : e.immediate = .ok imm)
    (hnone : constantType? e.opcode = none) : e.opcode = Opcode.globalGet := by
  rw [constantType?] at hnone
  split_ifs at hnone with h₁ h₂ h₃ h₄
  rw [immediate, if_neg h₁, if_neg h₂, if_neg h₃, if_neg h₄] at h
  by_contra hne
  rw [if_neg hne] at h
  cases h

theorem ne_globalGet_of_constantType? {t : ValueType} (h : constantType? e.opcode = some t) :
    e.opcode ≠ Opcode.globalGet := by
  intro heq
  have hnone : constantType? Opcode.globalGet = none := by decide
  rw [heq, hnone] at h
  cases h

theorem eq_i32Const_of_constantType? (h : constantType? e.opcode = some .i32) :
    e.opcode = Opcode.i32Const := by
  rw [constantType?] at h
  split_ifs at h with h₁ h₂ h₃ h₄
  · exact h₁
  · exact absurd h (by decide)
  · exact absurd h (by decide)
  · exact absurd h (by decide)

theorem exists_of_check {o : Option ConstExpr} (h : check o expected space = .ok ()) :
    ∃ e, o = some e ∧ e.Checked space expected := by
  cases o with
  | none => cases h
  | some e =>
    refine ⟨e, rfl, ?_⟩
    obtain ⟨imm, himm, h₁⟩ := Except.bind_eq_ok_iff.mp h
    obtain ⟨actual, htype, h₂⟩ := Except.bind_eq_ok_iff.mp h₁
    replace himm := orRefuse_eq_ok_iff.mp himm
    split at h₂
    · cases h₂
    next heq =>
    obtain rfl := Decidable.of_not_not heq
    rw [typeOf] at htype
    cases hconst : constantType? e.opcode with
    | some t =>
      rw [hconst] at htype
      cases htype
      exact .constant himm hconst
    | none =>
      rw [hconst] at htype
      obtain ⟨⟨loc, o⟩, hg, h₃⟩ := Except.bind_eq_ok_iff.mp htype
      dsimp only at h₃
      split at h₃
      · cases h₃
      next horigin =>
      obtain ⟨type, ho, h₄⟩ := Except.bind_eq_ok_iff.mp h₃
      obtain rfl := present_eq_ok_iff.mp ho
      split at h₄
      · cases h₄
      · exact .global himm (eq_globalGet_of_immediate himm hconst) (orRefuse_eq_ok_iff.mp hg)
          (Decidable.of_not_not horigin) (Except.ok.inj h₄)

/-- **A checked expression has a value**, if the imported globals have. -/
theorem Checked.exists_eval (h : e.Checked space expected)
    {globals : UInt32 → Except GlobalError UInt64}
    (hglobals : ∀ i loc o, space.global i = .ok (loc, o) → loc.origin = .imported →
      ∃ v, globals i = .ok v) : ∃ v, e.eval globals = .ok v := by
  cases h with
  | @constant imm h ht =>
    refine ⟨imm, Except.bind_eq_ok_iff.mpr ⟨imm, h, ?_⟩⟩
    rw [if_neg (ne_globalGet_of_constantType? ht)]
    rfl
  | @global imm loc type h hop hg horigin ht =>
    obtain ⟨v, hv⟩ := hglobals _ loc _ hg horigin
    refine ⟨v, Except.bind_eq_ok_iff.mpr ⟨imm, h, ?_⟩⟩
    rw [if_pos hop, hv]
    rfl

end ConstExpr

/-! ## Offsets -/

/-- An offset that is read from a global is read from an `i32` global. -/
def Offset.IsReadable (space : IndexSpace) (o : Offset) : Prop :=
  ∀ i, o.base = .global i → ∃ loc type, space.global i = .ok (loc, some type) ∧
    type.valueType = .i32

/-- **A checked offset expression denotes an offset.** -/
theorem ConstExpr.Checked.exists_ofExpr {space : IndexSpace} {e : ConstExpr}
    (h : e.Checked space .i32) (scale : UInt32) :
    ∃ o, Offset.ofExpr (some e) scale = .ok o ∧ o.IsReadable space := by
  cases h with
  | @constant imm h ht =>
    refine ⟨⟨.const imm.toUInt32, scale⟩, ?_, ?_⟩
    · rw [Offset.ofExpr, h]
      exact if_pos (eq_i32Const_of_constantType? ht)
    · rintro i ⟨⟩
  | @global imm loc type h hop hg horigin ht =>
    refine ⟨⟨.global imm.toUInt32, scale⟩, ?_, ?_⟩
    · rw [Offset.ofExpr, h]
      dsimp only
      rw [hop]
      rfl
    · rintro i ⟨⟩
      exact ⟨loc, type, hg, ht⟩

namespace Instance

variable {space : IndexSpace}

/-- Elements whose offsets were checked become segments whose offsets can be read. -/
theorem exists_elementSegments {elements : List ElementSegment}
    (h : ∀ e ∈ elements, ConstExpr.check e.offset .i32 space = .ok ()) :
    ∃ segments, elementSegments elements = .ok segments ∧
      ∀ s ∈ segments, s.2.offset.IsReadable space := by
  refine Except.exists_mapM fun p hp => ?_
  obtain ⟨expr, hexpr, hchecked⟩ :=
    ConstExpr.exists_of_check (h p.1 (List.fst_mem_of_mem_zipIdx hp))
  obtain ⟨o, ho, hreadable⟩ := hchecked.exists_ofExpr entrySize
  refine ⟨(p.1.table, ⟨p.1.init.flatMap fun f => word32 (Table.slotOf f), o⟩), ?_, hreadable⟩
  have hsegment : Segment.ofElements p.1 =
      .ok ⟨p.1.init.flatMap fun f => word32 (Table.slotOf f), o⟩ := by
    rw [Segment.ofElements, hexpr, ho]
  exact Except.bind_eq_ok_iff.mpr ⟨_, orRefuse_eq_ok_iff.mpr hsegment, rfl⟩

/-- The same for data. -/
theorem exists_dataSegments {data : List DataSegment}
    (h : ∀ d ∈ data, ConstExpr.check d.offset .i32 space = .ok ()) :
    ∃ segments, dataSegments data = .ok segments ∧
      ∀ s ∈ segments, s.2.offset.IsReadable space := by
  refine Except.exists_mapM fun p hp => ?_
  obtain ⟨expr, hexpr, hchecked⟩ :=
    ConstExpr.exists_of_check (h p.1 (List.fst_mem_of_mem_zipIdx hp))
  obtain ⟨o, ho, hreadable⟩ := hchecked.exists_ofExpr 1
  refine ⟨(p.1.memory, ⟨p.1.init, o⟩), ?_, hreadable⟩
  have hsegment : Segment.ofData p.1 = .ok ⟨p.1.init, o⟩ := by
    rw [Segment.ofData, hexpr, ho]
  exact Except.bind_eq_ok_iff.mpr ⟨_, orRefuse_eq_ok_iff.mpr hsegment, rfl⟩

end Instance

/-! ## Loading -/

/-- Segments that were refused although their offsets can be read do not fit. -/
theorem LoadError.mem_classes {e : LoadError} (h : ∀ cause, e ≠ .offset cause) :
    .segmentOutOfBounds ∈ e.classes := by
  cases e with
  | offset cause => exact absurd rfl (h cause)
  | doesNotFit | tooLong | cannotGrow | stillTooShort => exact List.mem_singleton_self _

namespace Linear

variable {s : Linear} {segments : List Segment} {globals : GlobalReader}

/-- Offsets that can be read give every segment a place. -/
theorem exists_place (h : ∀ segment ∈ segments, ∀ i, segment.offset.base = .global i →
    ∃ v, globals i = .ok v) : ∃ placed, segments.mapM (Segment.place globals) = .ok placed := by
  have hplace : ∀ segment ∈ segments, ∃ p, Segment.place globals segment = .ok p ∧ True := by
    intro segment hsegment
    obtain ⟨units, hunits⟩ : ∃ units, segment.offset.units globals = .ok units := by
      rw [Offset.units]
      cases hbase : segment.offset.base with
      | const value => exact ⟨value, rfl⟩
      | global i =>
        obtain ⟨v, hv⟩ := h segment hsegment i hbase
        exact ⟨v, Except.mapError_eq_ok_iff.mpr hv⟩
    have hresolve : segment.offset.resolve globals = .ok _ :=
      Except.bind_eq_ok_iff.mpr ⟨units, hunits, rfl⟩
    exact ⟨_, Except.bind_eq_ok_iff.mpr ⟨_, hresolve, rfl⟩, trivial⟩
  obtain ⟨placed, hplaced, -⟩ := Except.exists_mapM hplace
  exact ⟨placed, hplaced⟩

theorem failsOnly_growFor (hunit : s.unit ≠ 0) (hle : s.unit.toNat ≤ 65536) (needed : ℕ) :
    FailsOnly (fun e => ∀ cause, e ≠ LoadError.offset cause) (s.growFor needed) := by
  have hsize : s.size = .ok (UInt32.ofNat (s.length / s.unit.toNat)) := if_neg hunit
  refine (failsOnly_orDefect hsize).bind fun before _ => ?_
  dsimp only
  split
  · exact FailsOnly.bind (failsOnly_refuse fun _ h => by cases h) fun _ h => by cases h
  · obtain ⟨grown, hgrown⟩ := s.exists_grow_eq_ok (UInt32.ofNat (s.unitsFor needed)) hle
    refine FailsOnly.bind (failsOnly_orDefect hgrown) fun p _ => ?_
    split
    · exact failsOnly_ok _
    · exact failsOnly_refuse fun _ h => by cases h

/-- **Segments with offsets that can be read are refused only for their length.** -/
theorem failsOnly_load (hunit : s.unit ≠ 0) (hle : s.unit.toNat ≤ 65536) {placed : List Placed}
    (hplace : segments.mapM (Segment.place globals) = .ok placed) (mayGrow : Bool) :
    FailsOnly (fun e => ∀ cause, e ≠ LoadError.offset cause) (s.load segments globals mayGrow) := by
  have happly : ∀ t : Linear, FailsOnly (fun e => ∀ cause, e ≠ LoadError.offset cause)
      (orRefuse LoadError.offset (t.apply segments globals)) := by
    intro t
    rw [Linear.apply_of_place hplace]
    exact failsOnly_ok _
  rw [load]
  split
  · exact failsOnly_ok _
  refine (happly s).bind fun applied _ => ?_
  cases applied with
  | written t => exact failsOnly_ok _
  | needs needed =>
    dsimp only
    split
    · exact FailsOnly.bind (failsOnly_refuse fun _ h => by cases h) fun _ h => by cases h
    refine (failsOnly_growFor hunit hle needed).bind fun p _ => ?_
    refine (happly p.2).bind fun applied _ => ?_
    cases applied with
    | written t => exact failsOnly_ok _
    | needs needed => exact failsOnly_refuse fun _ h => by cases h

end Linear

end FlatWasm
