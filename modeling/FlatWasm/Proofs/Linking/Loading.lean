import Mathlib
import FlatWasm.Proofs.Store.Writing

/-!
# Growth for segments is exact

Segments that do not fit are an occasion for a store to grow, and it grows to the least number of whole units that holds them
all.  `Linear.load_of_arePlaced` has the whole of it in one equation: within the store the segments are written, beyond it the
store grows first, and what comes after growth always succeeds.

## Why a failure leaves the store as it was

A store is one and the same object for all who share it, so it matters when it changes.  `Linear.loadInPlace` keeps track of it
step by step: a store that has grown stays so, whatever the second attempt to write gives.  There are outcomes in it that
would leave a store grown and not written.  None of them comes about (`Linear.loadInPlace_eq`), because offsets are read from
globals, which growth does not touch, and because as many units as `Linear.unitsFor` says are enough.
-/

namespace FlatWasm

namespace Linear

variable {s t : Linear} {segments : List Segment} {globals : GlobalReader} {mayGrow : Bool}
  {placed : List Placed} {needed : ℕ} {size : UInt32} {growth : Growth}

/-! ## Units -/

theorem unit_ne_zero_of_size (h : s.size = .ok size) : s.unit ≠ 0 := by
  intro h0
  rw [Linear.size, if_pos h0] at h
  cases h

theorem unit_pos_of_size (h : s.size = .ok size) : 0 < s.unit.toNat :=
  Nat.pos_of_ne_zero fun h0 => unit_ne_zero_of_size h (UInt32.toNat_inj.mp h0)

theorem unitsFor_eq (s : Linear) (needed : ℕ) : s.unitsFor needed = needed ⌈/⌉ s.unit.toNat :=
  (Nat.ceilDiv_eq_add_pred_div _ _).symm

/-- As many units as are said to be needed hold what they are needed for, with less than a unit to spare. -/
theorem le_ceilDiv_mul {unit : ℕ} (h : 0 < unit) (needed : ℕ) :
    needed ≤ needed ⌈/⌉ unit * unit ∧ needed ⌈/⌉ unit * unit < needed + unit := by
  rw [Nat.ceilDiv_eq_add_pred_div]
  have hdiv := Nat.div_add_mod' (needed + unit - 1) unit
  have hmod := Nat.mod_lt (needed + unit - 1) h
  omega

/-! ## Growth -/

/-- A store that has grown for a length has the least number of units that holds it. -/
theorem of_growFor (h : s.growFor needed = .ok (growth, t)) :
    s.size = .ok growth.before ∧ growth.after = needed ⌈/⌉ s.unit.toNat ∧
      growth.after ≤ s.max.toNat ∧ t = s.extend (growth.after * s.unit.toNat) ∧
      t.length = growth.after * s.unit.toNat := by
  obtain ⟨before, hbefore, h⟩ := Except.bind_eq_ok_iff.mp h
  dsimp only at h
  split at h
  · cases h
  next hword =>
  obtain ⟨⟨r, s'⟩, hgrow, h⟩ := Except.bind_eq_ok_iff.mp h
  have hunits : (UInt32.ofNat (s.unitsFor needed)).toNat = s.unitsFor needed :=
    UInt32.toNat_ofNat_of_lt' (Nat.lt_succ_of_le (Nat.not_lt.mp hword))
  cases r with
  | grown =>
    cases h
    rcases grow_cases (Except.mapError_eq_ok_iff.mp hgrow) with ⟨hne, -⟩ | ⟨-, rfl, -, hmax, hlen⟩
    · exact absurd rfl hne
    rw [hunits] at hlen ⊢
    rw [UInt32.le_iff_toNat_le, hunits] at hmax
    exact ⟨Except.mapError_eq_ok_iff.mp hbefore, s.unitsFor_eq needed, hmax, rfl,
      length_extend hlen⟩
  | noChange | tooLarge | tooSmall => cases h

/-- A request for more than there is succeeds up to the maximum. -/
theorem grow_of_lt {units : UInt32} (hsize : s.size = .ok size) (hmin : s.min ≤ size)
    (hlong : s.length < units.toNat * s.unit.toNat)
    (hshort : units.toNat * s.unit.toNat ≤ maxLength) :
    s.grow units = .ok (if units ≤ s.max then (.grown, s.extend (units.toNat * s.unit.toNat))
      else (.tooLarge, s)) := by
  have hsize' : UInt32.ofNat (s.length / s.unit.toNat) = size := by
    rw [Linear.size, if_neg (unit_ne_zero_of_size hsize)] at hsize
    exact Except.ok.inj hsize
  have hmore : s.length / s.unit.toNat < units.toNat :=
    (Nat.div_lt_iff_lt_mul (unit_pos_of_size hsize)).mpr hlong
  have hsmall : s.min ≤ units := by
    rw [UInt32.le_iff_toNat_le] at hmin ⊢
    rw [← hsize', UInt32.toNat_ofNat'] at hmin
    exact (hmin.trans (Nat.mod_le _ _)).trans hmore.le
  have hzero : ¬(units = 0 ∧ s.length = 0) := by
    rintro ⟨rfl, -⟩
    exact absurd hmore (Nat.not_lt_zero _)
  rw [grow]
  by_cases hmax : units ≤ s.max
  · rw [if_neg (UInt32.not_lt.mpr hmax), if_neg hlong.not_gt, if_neg hzero,
      if_neg (UInt32.not_lt.mpr hsmall), if_neg (Nat.not_lt.mpr hshort), if_pos hmax]
  · rw [if_pos (UInt32.not_le.mp hmax), if_neg hmax]

/-- Why a store does not grow to a number of units beyond its maximum. -/
def tooManyUnits (needed : ℕ) (size : UInt32) (units : ℕ) : LoadError :=
  if 0xffffffff < units then .tooLong needed else .cannotGrow size units .tooLarge

theorem classes_tooManyUnits (needed : ℕ) (size : UInt32) (units : ℕ) :
    (tooManyUnits needed size units).classes = [.segmentOutOfBounds] := by
  rw [tooManyUnits]
  split <;> rfl

/-- **Growth for a length beyond the store succeeds exactly up to the maximum.** -/
theorem growFor_eq (hsize : s.size = .ok size) (hmin : s.min ≤ size) (hlong : s.length < needed)
    (hshort : needed + s.unit.toNat ≤ maxLength) :
    s.growFor needed =
      if needed ⌈/⌉ s.unit.toNat ≤ s.max.toNat then
        .ok (⟨size, needed ⌈/⌉ s.unit.toNat⟩, s.extend (needed ⌈/⌉ s.unit.toNat * s.unit.toNat))
      else refuse (tooManyUnits needed size (needed ⌈/⌉ s.unit.toNat)) := by
  obtain ⟨hholds, hspare⟩ := le_ceilDiv_mul (unit_pos_of_size hsize) needed
  rw [growFor, hsize, unitsFor_eq]
  generalize needed ⌈/⌉ s.unit.toNat = units at hholds hspare ⊢
  show (if 0xffffffff < units then _ else _) = _
  by_cases hword : 0xffffffff < units
  · have hmax : ¬units ≤ s.max.toNat := by
      have hlt := s.max.toNat_lt
      omega
    rw [if_pos hword, if_neg hmax, tooManyUnits, if_pos hword]
    rfl
  rw [if_neg hword, tooManyUnits, if_neg hword]
  have hword' : (UInt32.ofNat units).toNat = units :=
    UInt32.toNat_ofNat_of_lt' (Nat.lt_succ_of_le (Nat.not_lt.mp hword))
  have hgrow := grow_of_lt hsize hmin (show _ < (UInt32.ofNat units).toNat * _ by rw [hword']; omega)
    (by rw [hword']; omega)
  rw [hword'] at hgrow
  have hle : UInt32.ofNat units ≤ s.max ↔ units ≤ s.max.toNat := by
    rw [UInt32.le_iff_toNat_le, hword']
  rw [hgrow]
  by_cases hmax : units ≤ s.max.toNat
  · rw [if_pos (hle.mpr hmax), if_pos hmax]
    rfl
  · rw [if_neg (mt hle.mp hmax), if_neg hmax]
    rfl

/-! ## Loading -/

theorem load_of_unread {e : OffsetError} (h : IsFirstUnread globals segments e)
    (he : segments.mapM (Segment.place globals) = .error e) :
    s.load segments globals mayGrow = refuse (.offset e) := by
  have hne : ¬segments.isEmpty = true := by
    obtain ⟨before, segment, after, rfl, -⟩ := h
    simp
  rw [load, if_neg hne, apply_of_unread he]
  rfl

/-- **Segments that have their places are written at once, or after growth, and growth alone can fail.** -/
theorem load_of_arePlaced (h : ArePlaced globals segments placed) :
    s.load segments globals mayGrow =
      if lastStop placed ≤ s.length then .ok (none, s.putAll placed)
      else if mayGrow then
        (s.growFor (lastStop placed)).map fun grown => (some grown.1, grown.2.putAll placed)
      else refuse (.doesNotFit (lastStop placed) s.length) := by
  have hplace := arePlaced_iff.mp h
  rw [load]
  by_cases hempty : segments.isEmpty = true
  · obtain rfl := List.isEmpty_iff.mp hempty
    obtain rfl := List.forall₂_nil_left_iff.mp h
    rw [if_pos hempty, if_pos (show lastStop [] ≤ s.length from Nat.zero_le _)]
    rfl
  rw [if_neg hempty, apply_of_place hplace]
  by_cases hfits : lastStop placed ≤ s.length
  · rw [if_pos hfits, if_neg (Nat.not_lt.mpr hfits)]
    rfl
  rw [if_neg hfits, if_pos (Nat.not_le.mp hfits)]
  cases mayGrow with
  | false => rfl
  | true =>
    show (s.growFor (lastStop placed) >>= _) = Except.map _ (s.growFor (lastStop placed))
    cases hgrow : s.growFor (lastStop placed) with
    | error e => rfl
    | ok grown =>
      -- the second attempt finds the same places, and now they are within the store
      obtain ⟨hsize, hafter, -, -, hlength⟩ := of_growFor hgrow
      have hholds := (le_ceilDiv_mul (unit_pos_of_size hsize) (lastStop placed)).1
      rw [← hafter, ← hlength] at hholds
      show (orRefuse LoadError.offset (grown.2.apply segments globals) >>= _) = _
      rw [apply_of_place hplace, if_neg (Nat.not_lt.mpr hholds)]
      rfl

/-! ## Loading in place -/

/-- An outcome, and the store that it leaves where a failure changes nothing. -/
def keeping {ε α : Type} (s : Linear) : Except ε (α × Linear) → Except ε α × Linear
  | .ok (a, t) => (.ok a, t)
  | .error e => (.error e, s)

/-- Growth for a length, and the store after each of its steps. -/
def growForInPlace (s : Linear) (needed : ℕ) : Except (Failure LoadError) Growth × Linear :=
  match s.size with
  | .error d => (.error (.defect d), s)
  | .ok before =>
    if 0xffffffff < s.unitsFor needed then (refuse (.tooLong needed), s)
    else
      match s.grow (UInt32.ofNat (s.unitsFor needed)) with
      | .error d => (.error (.defect d), s)
      | .ok (.grown, t) => (.ok ⟨before, s.unitsFor needed⟩, t)
      | .ok (result, t) => (refuse (.cannotGrow before (s.unitsFor needed) result), t)

/-- Loading, and the store after each of its steps. -/
def loadInPlace (s : Linear) (segments : List Segment) (globals : GlobalReader) (mayGrow : Bool) :
    Except (Failure LoadError) (Option Growth) × Linear :=
  if segments.isEmpty then (.ok none, s)
  else
    match s.apply segments globals with
    | .error e => (refuse (.offset e), s)
    | .ok (.written t) => (.ok none, t)
    | .ok (.needs needed) =>
      if mayGrow then
        match s.growForInPlace needed with
        | (.error e, t) => (.error e, t)
        | (.ok growth, t) =>
          match t.apply segments globals with
          | .error e => (refuse (.offset e), t)
          | .ok (.written u) => (.ok (some growth), u)
          | .ok (.needs still) => (refuse (.stillTooShort still), t)
      else (refuse (.doesNotFit needed s.length), s)

theorem growForInPlace_eq (s : Linear) (needed : ℕ) :
    s.growForInPlace needed = s.keeping (s.growFor needed) := by
  rw [growForInPlace, growFor]
  cases s.size with
  | error d => rfl
  | ok before =>
    show (if 0xffffffff < s.unitsFor needed then _ else _) =
      s.keeping (if 0xffffffff < s.unitsFor needed then _ else _)
    split
    · rfl
    cases hgrow : s.grow (UInt32.ofNat (s.unitsFor needed)) with
    | error d => rfl
    | ok grown =>
      obtain ⟨r, t⟩ := grown
      rcases grow_cases hgrow with ⟨hne, rfl⟩ | ⟨rfl, -⟩
      · cases r with
        | grown => exact absurd rfl hne
        | noChange | tooLarge | tooSmall => rfl
      · rfl

/-- **Every failure leaves the store as it was.** -/
theorem loadInPlace_eq (s : Linear) (segments : List Segment) (globals : GlobalReader)
    (mayGrow : Bool) :
    s.loadInPlace segments globals mayGrow = s.keeping (s.load segments globals mayGrow) := by
  rw [loadInPlace]
  rcases unread_or_arePlaced globals segments with ⟨e, hfirst, he⟩ | ⟨placed, hplaced⟩
  · rw [load_of_unread hfirst he, apply_of_unread he]
    obtain ⟨before, segment, after, rfl, -⟩ := hfirst
    rw [if_neg (by simp)]
    rfl
  have hplace := arePlaced_iff.mp hplaced
  rw [load_of_arePlaced hplaced]
  by_cases hempty : segments.isEmpty = true
  · obtain rfl := List.isEmpty_iff.mp hempty
    obtain rfl := List.forall₂_nil_left_iff.mp hplaced
    rw [if_pos hempty, if_pos (show lastStop [] ≤ s.length from Nat.zero_le _)]
    rfl
  rw [if_neg hempty, apply_of_place hplace]
  by_cases hfits : lastStop placed ≤ s.length
  · rw [if_neg (Nat.not_lt.mpr hfits), if_pos hfits]
    rfl
  rw [if_pos (Nat.not_le.mp hfits), if_neg hfits]
  cases mayGrow with
  | false => rfl
  | true =>
    dsimp only
    rw [if_pos rfl, if_pos rfl, growForInPlace_eq]
    cases hgrow : s.growFor (lastStop placed) with
    | error e => rfl
    | ok grown =>
      obtain ⟨hsize, hafter, -, -, hlength⟩ := of_growFor hgrow
      have hholds := (le_ceilDiv_mul (unit_pos_of_size hsize) (lastStop placed)).1
      rw [← hafter, ← hlength] at hholds
      dsimp only [keeping]
      rw [apply_of_place hplace, if_neg (Nat.not_lt.mpr hholds)]
      rfl

end Linear

/-! ## Segments of a module -/

/-- A segment of fewer than `2 ^ 32` bytes, placed in bytes or in words. -/
structure Segment.IsShort (segment : Segment) : Prop where
  payload : segment.payload.length < 2 ^ 32
  scale : segment.offset.scale = 1 ∨ segment.offset.scale = 4

theorem Segment.IsShort.stop_lt {segment : Segment} {globals : GlobalReader} {w : Placed}
    (h : segment.IsShort) (hw : segment.place globals = .ok w) : w.stop < 2 ^ 35 := by
  obtain ⟨position, hposition, hw⟩ := Except.bind_eq_ok_iff.mp hw
  obtain ⟨units, -, hunits⟩ := Except.bind_eq_ok_iff.mp hposition
  cases hw
  have hlt := units.toNat_lt
  have hpayload := h.payload
  rcases h.scale with hscale | hscale <;> rw [hscale] at hunits <;> cases hunits
  · show units.toNat * 1 + segment.payload.length < 2 ^ 35
    omega
  · show units.toNat * 4 + segment.payload.length < 2 ^ 35
    omega

theorem ArePlaced.lastStop_le {globals : GlobalReader} {segments : List Segment}
    {placed : List Placed} (h : ArePlaced globals segments placed)
    (hshort : ∀ g ∈ segments, g.IsShort) : lastStop placed ≤ 2 ^ 35 := by
  refine lastStop_le_iff.mpr fun w hw => ?_
  obtain ⟨k, hk⟩ := List.mem_iff_getElem?.mp hw
  obtain ⟨g, hg, hplace⟩ := exists_getElem?_of_forall₂ h hk
  exact ((hshort g (List.mem_of_getElem? hg)).stop_lt hplace).le

namespace Linear

variable {s t : Linear} {segments : List Segment} {globals : GlobalReader} {placed : List Placed}
  {size : UInt32}

/-- The size of a store that was extended to whole units and written over. -/
theorem Overlaid.size_extend {units : ℕ} (h : (s.extend (units * s.unit.toNat)).Overlaid placed t)
    (hsize : s.size = .ok size) (hlong : s.length ≤ units * s.unit.toNat)
    (hmax : units ≤ s.max.toNat) : ∃ size', t.size = .ok size' ∧ size'.toNat = units := by
  have hlength : t.length = units * s.unit.toNat := h.length.trans (length_extend hlong)
  have hunit : t.unit = s.unit := h.unit
  refine ⟨UInt32.ofNat units, ?_, UInt32.toNat_ofNat_of_lt' (hmax.trans_lt s.max.toNat_lt)⟩
  rw [Linear.size, hunit, if_neg (unit_ne_zero_of_size hsize), hlength,
    Nat.mul_div_cancel _ (unit_pos_of_size hsize)]

/-- **Loading, in one equation**, for a store that has a size, not below its minimum. -/
theorem load_eq (mayGrow : Bool) (hsize : s.size = .ok size) (hmin : s.min ≤ size)
    (hshort : ∀ g ∈ segments, g.IsShort) (hplaced : ArePlaced globals segments placed) :
    s.load segments globals mayGrow =
      if lastStop placed ≤ s.length then .ok (none, s.putAll placed)
      else if mayGrow then
        if lastStop placed ⌈/⌉ s.unit.toNat ≤ s.max.toNat then
          .ok (some ⟨size, lastStop placed ⌈/⌉ s.unit.toNat⟩,
            (s.extend (lastStop placed ⌈/⌉ s.unit.toNat * s.unit.toNat)).putAll placed)
        else refuse (tooManyUnits (lastStop placed) size (lastStop placed ⌈/⌉ s.unit.toNat))
      else refuse (.doesNotFit (lastStop placed) s.length) := by
  rw [load_of_arePlaced hplaced]
  by_cases hfits : lastStop placed ≤ s.length
  · rw [if_pos hfits, if_pos hfits]
  rw [if_neg hfits, if_neg hfits]
  cases mayGrow with
  | false => rfl
  | true =>
    have haddressable : lastStop placed + s.unit.toNat ≤ maxLength := by
      have hstop := hplaced.lastStop_le hshort
      have hunit := s.unit.toNat_lt
      have hmax : maxLength = 2 ^ 48 := rfl
      omega
    rw [if_pos rfl, if_pos rfl, growFor_eq hsize hmin (Nat.not_le.mp hfits) haddressable]
    split <;> rfl

/-- **Growth for segments is exact, least, and all or nothing.**  A store that has a size, not below its minimum, is given
segments.  If an offset cannot be read, that is the error.  If the segments fit, they are written and the size stays.  If they
do not, the store is refused them unless it may grow, and then it grows to the least number of units that holds them, with
zeros for what is new, if that is within its maximum.  Done in place, every failure leaves the store as it was, and it never
comes to a store that has grown and still is too short. -/
theorem load_grows_exactly (globals : GlobalReader) (mayGrow : Bool) (hsize : s.size = .ok size)
    (hmin : s.min ≤ size) (hshort : ∀ g ∈ segments, g.IsShort) :
    s.loadInPlace segments globals mayGrow = s.keeping (s.load segments globals mayGrow) ∧
      (∀ still, s.load segments globals mayGrow ≠ refuse (.stillTooShort still)) ∧
      ((∃ e, IsFirstUnread globals segments e ∧
          s.load segments globals mayGrow = refuse (.offset e)) ∨
        ∃ placed stop, ArePlaced globals segments placed ∧ IsLUB (stops placed) stop ∧
          (stop ≤ s.length → ∃ t, s.load segments globals mayGrow = .ok (none, t) ∧
            s.Overlaid placed t) ∧
          (s.length < stop → mayGrow = false →
            ∃ e, s.load segments globals mayGrow = refuse e ∧ e.classes = [.segmentOutOfBounds]) ∧
          (s.length < stop → mayGrow = true → stop ⌈/⌉ s.unit.toNat ≤ s.max.toNat →
            ∃ t size', s.load segments globals mayGrow =
                .ok (some ⟨size, stop ⌈/⌉ s.unit.toNat⟩, t) ∧
              (s.extend (stop ⌈/⌉ s.unit.toNat * s.unit.toNat)).Overlaid placed t ∧
              t.size = .ok size' ∧ size'.toNat = stop ⌈/⌉ s.unit.toNat) ∧
          (s.length < stop → mayGrow = true → s.max.toNat < stop ⌈/⌉ s.unit.toNat →
            ∃ e, s.load segments globals mayGrow = refuse e ∧
              e.classes = [.segmentOutOfBounds])) := by
  refine ⟨s.loadInPlace_eq segments globals mayGrow, ?_⟩
  rcases unread_or_arePlaced globals segments with ⟨e, hfirst, he⟩ | ⟨placed, hplaced⟩
  · rw [load_of_unread hfirst he]
    refine ⟨fun still h => ?_, .inl ⟨e, hfirst, rfl⟩⟩
    cases h
  rw [load_eq mayGrow hsize hmin hshort hplaced]
  refine ⟨fun still h => ?_, .inr ⟨placed, lastStop placed, hplaced, isLUB_lastStop placed,
    fun hfits => ?_, fun hlong hgrow => ?_, fun hlong hgrow hmax => ?_,
    fun hlong hgrow hmax => ?_⟩⟩
  · rw [tooManyUnits] at h
    split_ifs at h <;> cases h
  · rw [if_pos hfits]
    exact ⟨_, rfl, overlaid_putAll (lastStop_le_iff.mp hfits)⟩
  · rw [if_neg (Nat.not_le.mpr hlong), if_neg (by rw [hgrow]; decide)]
    exact ⟨_, rfl, rfl⟩
  · rw [if_neg (Nat.not_le.mpr hlong), if_pos hgrow, if_pos hmax]
    have hholds := (le_ceilDiv_mul (unit_pos_of_size hsize) (lastStop placed)).1
    have hlonger := hlong.le.trans hholds
    have hput := overlaid_putAll (lastStop_le_iff.mp (hholds.trans (length_extend hlonger).ge))
    obtain ⟨size', hsize', hunits⟩ := hput.size_extend hsize hlonger hmax
    exact ⟨_, size', rfl, hput, hsize', hunits⟩
  · rw [if_neg (Nat.not_le.mpr hlong), if_pos hgrow, if_neg (Nat.not_le.mpr hmax)]
    exact ⟨_, rfl, classes_tooManyUnits _ _ _⟩

/-- One word that may become three. -/
def oneWord : Linear :=
  ⟨.zeros 4, 4, 1, 3⟩

/-- A segment in the second word, and one that ends with the first byte of the third. -/
def acrossWords : List Segment :=
  [⟨[1, 2, 3], ⟨.global 0, 4⟩⟩, ⟨[4, 5], ⟨.const 7, 1⟩⟩]

/-- For one byte of the third word there are three. -/
theorem oneWord_grows_exactly : oneWord.size = .ok 1 ∧ oneWord.min ≤ 1 ∧
    (∀ g ∈ acrossWords, g.IsShort) ∧
      ∃ t, oneWord.load acrossWords readsOne true = .ok (some ⟨1, 3⟩, t) ∧
        (oneWord.extend 12).Overlaid [⟨4, [1, 2, 3]⟩, ⟨7, [4, 5]⟩] t := by
  have hshort : ∀ g ∈ acrossWords, g.IsShort :=
    List.forall_mem_cons.mpr ⟨⟨by decide, .inr rfl⟩,
      List.forall_mem_singleton.mpr ⟨by decide, .inl rfl⟩⟩
  have hsize : oneWord.size = .ok 1 := rfl
  refine ⟨hsize, by decide, hshort, ?_⟩
  have hplaces : ArePlaced readsOne acrossWords [⟨4, [1, 2, 3]⟩, ⟨7, [4, 5]⟩] :=
    .cons rfl (.cons rfl .nil)
  obtain ⟨-, -, h⟩ := load_grows_exactly readsOne true hsize (by decide) hshort
  rcases h with ⟨e, -, h⟩ | ⟨placed, stop, hplaced, hstop, -, -, hgrow, -⟩
  · rw [load_of_arePlaced hplaces] at h
    cases h
  · cases (arePlaced_iff.mp hplaces).symm.trans (arePlaced_iff.mp hplaced)
    cases hstop.unique (isLUB_lastStop _)
    obtain ⟨t, -, hload, hput, -⟩ := hgrow (by decide) rfl (by decide)
    exact ⟨t, hload, hput⟩

end Linear

end FlatWasm
