import Mathlib
import FlatWasm.Linking.Load
import FlatWasm.Linking.Pool
import FlatWasm.Proofs.Compilation.Defects

/-!
# Stores stay within their bounds

A store is allocated at its least size and then changed by requests to grow, by writes and by segments.  What all of these
have in common is `Linear.Evolves`: the unit and the bounds stay as they are, the length does not go down, and a store within
its bounds stays within them.  This is a preorder, so it holds of any sequence of changes.

* `Linear.grow_cases`: growth changes nothing or brings the store to a size within its bounds.
* `Linear.evolves_of_load`: segments change nothing but bytes, after growth at most.
* `Memory.allocate_eq_ok_iff`, `Table.allocate_eq_ok_iff`, `GlobalCell.allocate_eq`: what an allocation gives, and when.
-/

namespace FlatWasm

theorem toNat_pos {n : UInt32} (h : n ≠ 0) : 0 < n.toNat :=
  Nat.pos_of_ne_zero fun h0 => h (UInt32.toNat_inj.mp h0)

namespace Linear

variable {s t u : Linear}

/-- The length is a number of units within the bounds. -/
def InBounds (s : Linear) : Prop :=
  ∃ n : ℕ, s.length = n * s.unit.toNat ∧ s.min.toNat ≤ n ∧ n ≤ s.max.toNat

/-- What a store can become. -/
structure Evolves (s t : Linear) : Prop where
  unit : t.unit = s.unit
  min : t.min = s.min
  max : t.max = s.max
  length : s.length ≤ t.length
  inBounds : s.InBounds → t.InBounds

theorem Evolves.refl (s : Linear) : s.Evolves s :=
  ⟨rfl, rfl, rfl, Nat.le_refl _, id⟩

theorem Evolves.trans (h : s.Evolves t) (h' : t.Evolves u) : s.Evolves u where
  unit := h'.unit.trans h.unit
  min := h'.min.trans h.min
  max := h'.max.trans h.max
  length := Nat.le_trans h.length h'.length
  inBounds := h'.inBounds ∘ h.inBounds

/-! ## Growth -/

theorem length_extend {n : ℕ} (h : s.length ≤ n) : (s.extend n).length = n :=
  Nat.max_eq_right h

/-- **Growth changes nothing, or brings the store to the size that was asked for.** -/
theorem grow_cases {units : UInt32} {r : GrowResult} (h : s.grow units = .ok (r, t)) :
    (r ≠ .grown ∧ t = s) ∨ (r = .grown ∧ t = s.extend (units.toNat * s.unit.toNat) ∧
      s.min ≤ units ∧ units ≤ s.max ∧ s.length ≤ units.toNat * s.unit.toNat) := by
  rw [grow] at h
  split at h
  · cases h
    exact .inl ⟨by decide, rfl⟩
  split at h
  · cases h
    exact .inl ⟨by decide, rfl⟩
  split at h
  · cases h
    exact .inl ⟨by decide, rfl⟩
  split at h
  · cases h
    exact .inl ⟨by decide, rfl⟩
  split at h
  · cases h
  · next hmax hlen _ hmin _ =>
    cases h
    exact .inr ⟨rfl, rfl, UInt32.not_lt.mp hmin, UInt32.not_lt.mp hmax, Nat.not_lt.mp hlen⟩

theorem evolves_of_grow {units : UInt32} {r : GrowResult} (h : s.grow units = .ok (r, t)) :
    s.Evolves t := by
  rcases grow_cases h with ⟨-, rfl⟩ | ⟨-, rfl, hmin, hmax, hlen⟩
  · exact .refl t
  · have hlength := length_extend hlen
    refine ⟨rfl, rfl, rfl, hlen.trans hlength.ge, fun _ => ⟨units.toNat, hlength, ?_, ?_⟩⟩
    · exact UInt32.le_iff_toNat_le.mp hmin
    · exact UInt32.le_iff_toNat_le.mp hmax

theorem evolves_of_growStrict {units : UInt32} {allowNoChange : Bool}
    (h : s.growStrict units allowNoChange = .ok t) : s.Evolves t := by
  obtain ⟨⟨r, s'⟩, hgrow, h⟩ := Except.bind_eq_ok_iff.mp h
  have hs := evolves_of_grow (Except.mapError_eq_ok_iff.mp hgrow)
  cases r with
  | grown =>
    cases h
    exact hs
  | noChange | tooLarge | tooSmall =>
    dsimp only at h
    split at h
    · cases h
      exact hs
    · cases h

/-- A store without bytes is brought to its least size, if that is not beyond its bounds. -/
theorem growStrict_zeros_eq_ok_iff {unit min max : UInt32} {allowNoChange : Bool}
    (hunit : unit.toNat ≤ 65536) (hallow : min = 0 → allowNoChange = true) :
    growStrict ⟨.zeros 0, unit, min, max⟩ min allowNoChange = .ok t ↔
      min ≤ max ∧ t = ⟨.zeros (min.toNat * unit.toNat), unit, min, max⟩ := by
  have hzeros : ∀ n, (Sparse.zeros 0).extend n = .zeros n := fun n =>
    Sparse.ext_byte (Nat.max_eq_right (Nat.zero_le n)) fun _ => rfl
  have hlength : min.toNat * unit.toNat ≤ maxLength :=
    Nat.le_trans (Nat.mul_le_mul (Nat.le_of_lt min.toNat_lt) hunit) (by decide)
  have hshort : ¬min.toNat * unit.toNat < length ⟨.zeros 0, unit, min, max⟩ := Nat.not_lt_zero _
  rw [growStrict, grow]
  dsimp only
  rw [if_neg hshort, if_neg (UInt32.lt_irrefl min), if_neg (Nat.not_lt.mpr hlength)]
  by_cases hle : min ≤ max
  · rw [if_neg (UInt32.not_lt.mpr hle)]
    by_cases hmin : min = 0
    · obtain rfl := hallow hmin
      subst hmin
      rw [if_pos ⟨rfl, rfl⟩, UInt32.toNat_zero, Nat.zero_mul]
      exact ⟨fun h => ⟨hle, (Except.ok.inj h).symm⟩, fun h => congrArg _ h.2.symm⟩
    · rw [if_neg (fun h => hmin h.1), extend, hzeros]
      exact ⟨fun h => ⟨hle, (Except.ok.inj h).symm⟩, fun h => congrArg _ h.2.symm⟩
  · rw [if_pos (UInt32.not_le.mp hle)]
    constructor
    · intro h
      cases h
    · exact fun h => absurd h.1 hle

/-! ## Bytes -/

@[simp] theorem length_put (s : Linear) (position : ℕ) (payload : List UInt8) :
    (s.put position payload).length = s.length :=
  Sparse.length_overwrite _ _ _

theorem evolves_put (s : Linear) (position : ℕ) (payload : List UInt8) :
    s.Evolves (s.put position payload) := by
  refine ⟨rfl, rfl, rfl, (s.length_put position payload).ge, fun ⟨n, hn, hmin, hmax⟩ => ?_⟩
  exact ⟨n, (s.length_put position payload).trans hn, hmin, hmax⟩

theorem evolves_of_put? {position : ℕ} {payload : List UInt8}
    (h : s.put? position payload = some t) : s.Evolves t := by
  rw [put?] at h
  split at h
  · cases h
    exact s.evolves_put position payload
  · cases h

theorem evolves_of_write {offset : UInt64} {payload : List UInt8}
    (h : s.write offset payload = .ok (some t)) : s.Evolves t := by
  obtain ⟨o, -, h⟩ := Except.bind_eq_ok_iff.mp h
  obtain ⟨position, -, hput⟩ := Option.bind_eq_some_iff.mp (Except.ok.inj h)
  exact evolves_of_put? hput

theorem evolves_putAll (s : Linear) (placed : List Placed) : s.Evolves (s.putAll placed) := by
  induction placed generalizing s with
  | nil => exact .refl s
  | cons p placed ih => exact (s.evolves_put p.position p.payload).trans (ih _)

theorem evolves_of_apply {segments : List Segment} {globals : GlobalReader}
    (h : s.apply segments globals = .ok (.written t)) : s.Evolves t := by
  obtain ⟨placed, -, h⟩ := Except.bind_eq_ok_iff.mp h
  dsimp only at h
  split at h
  · cases h
  · cases h
    exact s.evolves_putAll placed

theorem evolves_of_growFor {needed : ℕ} {growth : Growth}
    (h : s.growFor needed = .ok (growth, t)) : s.Evolves t := by
  obtain ⟨before, -, h⟩ := Except.bind_eq_ok_iff.mp h
  dsimp only at h
  split at h
  · cases h
  obtain ⟨⟨r, s'⟩, hgrow, h⟩ := Except.bind_eq_ok_iff.mp h
  cases r with
  | grown =>
    cases h
    exact evolves_of_grow (Except.mapError_eq_ok_iff.mp hgrow)
  | noChange | tooLarge | tooSmall => cases h

/-- **Segments change nothing but bytes**, after growth at most. -/
theorem evolves_of_load {segments : List Segment} {globals : GlobalReader} {mayGrow : Bool}
    {growth : Option Growth} (h : s.load segments globals mayGrow = .ok (growth, t)) :
    s.Evolves t := by
  rw [load] at h
  split at h
  · cases h
    exact .refl _
  obtain ⟨applied, happly, h⟩ := Except.bind_eq_ok_iff.mp h
  cases applied with
  | written s' =>
    cases h
    exact evolves_of_apply (orRefuse_eq_ok_iff.mp happly)
  | needs needed =>
    dsimp only at h
    split at h
    · cases h
    obtain ⟨⟨growth', s'⟩, hgrow, h⟩ := Except.bind_eq_ok_iff.mp h
    obtain ⟨applied', happly', h⟩ := Except.bind_eq_ok_iff.mp h
    cases applied' with
    | written s'' =>
      cases h
      exact (evolves_of_growFor hgrow).trans (evolves_of_apply (orRefuse_eq_ok_iff.mp happly'))
    | needs needed' => cases h

end Linear

/-- What a segment writes, and where. -/
def Segment.place (globals : GlobalReader) (segment : Segment) : Except OffsetError Placed := do
  return { position := ← segment.offset.resolve globals, payload := segment.payload }

theorem Linear.apply_of_place {s : Linear} {segments : List Segment} {globals : GlobalReader}
    {placed : List Placed} (h : segments.mapM (Segment.place globals) = .ok placed) :
    s.apply segments globals =
      .ok (if s.length < lastStop placed then .needs (lastStop placed)
        else .written (s.putAll placed)) := by
  show (segments.mapM (Segment.place globals) >>= _) = _
  rw [h]
  show (if s.length < lastStop placed then _ else _) = _
  split <;> rfl

/-! ## Allocation -/

section Allocation

variable {ε α : Type}

/-- A store of its least size as a memory or a table. -/
theorem Linear.allocate_eq_ok_iff {unit min max : UInt32} (hunit : unit.toNat ≤ 65536)
    {make : Linear → α} {f : BoundsError → ε} {a : α} :
    (make <$> growStrict ⟨.zeros 0, unit, min, max⟩ min true).mapError (Failure.map f) = .ok a ↔
      min ≤ max ∧ a = make ⟨.zeros (min.toNat * unit.toNat), unit, min, max⟩ := by
  rw [Except.mapError_eq_ok_iff, Except.map_eq_ok_iff]
  simp only [growStrict_zeros_eq_ok_iff hunit fun _ => rfl]
  constructor
  · rintro ⟨store, ⟨hle, rfl⟩, rfl⟩
    exact ⟨hle, rfl⟩
  · rintro ⟨hle, rfl⟩
    exact ⟨_, ⟨hle, rfl⟩, rfl⟩

theorem Memory.allocate_eq (limits : Limits) (ceiling : UInt32) :
    allocate limits ceiling = (Memory.mk <$> Linear.growStrict
      ⟨.zeros 0, pageSize, limits.min, limits.maxOr ceiling⟩ limits.min true).mapError
        (Failure.map Error.mk) := by
  rw [allocate]
  cases Linear.growStrict ⟨.zeros 0, pageSize, limits.min, limits.maxOr ceiling⟩ limits.min true <;>
    rfl

theorem Table.allocate_eq (limits : Limits) :
    allocate limits = (Table.mk <$> Linear.growStrict
      ⟨.zeros 0, entrySize, limits.min, limits.maxOr Limits.maxEntries⟩ limits.min true).mapError
        (Failure.map Error.mk) := by
  rw [allocate]
  cases Linear.growStrict ⟨.zeros 0, entrySize, limits.min, limits.maxOr Limits.maxEntries⟩ limits.min
    true <;> rfl

/-- **A memory is allocated at its least size**, if that is not beyond its greatest. -/
theorem Memory.allocate_eq_ok_iff {limits : Limits} {ceiling : UInt32} {m : Memory} :
    allocate limits ceiling = .ok m ↔ limits.min ≤ limits.maxOr ceiling ∧
      m = ⟨⟨.zeros (limits.min.toNat * pageSize.toNat), pageSize, limits.min,
        limits.maxOr ceiling⟩⟩ := by
  rw [allocate_eq]
  exact Linear.allocate_eq_ok_iff (by decide)

/-- The same for a table. -/
theorem Table.allocate_eq_ok_iff {limits : Limits} {t : Table} :
    allocate limits = .ok t ↔ limits.min ≤ limits.maxOr Limits.maxEntries ∧
      t = ⟨⟨.zeros (limits.min.toNat * entrySize.toNat), entrySize, limits.min,
        limits.maxOr Limits.maxEntries⟩⟩ := by
  rw [allocate_eq]
  exact Linear.allocate_eq_ok_iff (by decide)

end Allocation

theorem Linear.inBounds_zeros {unit min max : UInt32} (h : min ≤ max) :
    Linear.InBounds ⟨.zeros (min.toNat * unit.toNat), unit, min, max⟩ :=
  ⟨min.toNat, rfl, Nat.le_refl _, UInt32.le_iff_toNat_le.mp h⟩

/-- A global with a value. -/
def GlobalCell.ofValue (type : GlobalType) (width : UInt32) (value : UInt64) : GlobalCell where
  store := Linear.put ⟨.zeros width.toNat, width, 1, 1⟩ 0 (littleEndian width.toNat value.toNat)
  type := type

/-- No value is wider than eight bytes. -/
theorem width_le {t : ValueType} {width : UInt32} (h : t.width = .ok width) : width.toNat ≤ 8 := by
  rw [ValueType.width] at h
  split at h
  · cases h
    decide
  split at h
  · cases h
    decide
  · cases h

/-- **The allocation of a global does not fail**, and gives it the value. -/
theorem GlobalCell.allocate_eq {type : GlobalType} {width : UInt32}
    (hw : type.valueType.width = .ok width) (value : UInt64) (globals : GlobalReader) :
    ∃ cell init, GlobalCell.empty type = .ok cell ∧ Segment.ofGlobal type value = .ok init ∧
      cell.allocate init globals = (ofValue type width value, .ok ()) := by
  have hcell : GlobalCell.empty type = .ok ⟨⟨.zeros 0, width, 1, 1⟩, type⟩ := by
    rw [empty, hw]
    rfl
  have hinit : Segment.ofGlobal type value =
      .ok ⟨littleEndian width.toNat value.toNat, ⟨.const 0, 1⟩⟩ := by
    rw [Segment.ofGlobal, hw]
    rfl
  refine ⟨_, _, hcell, hinit, ?_⟩
  have hgrow : Linear.growStrict ⟨.zeros 0, width, 1, 1⟩ 1 false =
      .ok ⟨.zeros width.toNat, width, 1, 1⟩ := by
    refine (Linear.growStrict_zeros_eq_ok_iff ?_ ?_).mpr ⟨UInt32.le_refl 1, ?_⟩
    · exact Nat.le_trans (width_le hw) (by decide)
    · intro h
      cases h
    · rw [UInt32.toNat_one, Nat.one_mul]
  have hlen : (littleEndian width.toNat value.toNat).length = width.toNat := length_littleEndian _ _
  have happly : Linear.apply ⟨.zeros width.toNat, width, 1, 1⟩
      [⟨littleEndian width.toNat value.toNat, ⟨.const 0, 1⟩⟩] globals =
        .ok (.written (ofValue type width value).store) := by
    have hplace : [(⟨littleEndian width.toNat value.toNat, ⟨.const 0, 1⟩⟩ : Segment)].mapM
        (Segment.place globals) = .ok [⟨0, littleEndian width.toNat value.toNat⟩] := rfl
    have hstop : lastStop [⟨0, littleEndian width.toNat value.toNat⟩] = width.toNat := by
      simp [lastStop, Placed.stop, hlen]
    rw [Linear.apply_of_place hplace, hstop]
    exact congrArg _ (if_neg (Nat.lt_irrefl width.toNat))
  rw [allocate, hgrow]
  dsimp only
  rw [happly]
  rfl

end FlatWasm
