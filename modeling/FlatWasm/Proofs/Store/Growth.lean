import Mathlib
import FlatWasm.Proofs.Linking.Evolution
import FlatWasm.Proofs.Store.Entries
import FlatWasm.Proofs.Store.History

/-!
# Growth by some units

A guest does not say how large a memory or a table is to become, but by how much it is to grow.  The sum is taken without
bound and compared with the maximum; only then is the store asked to grow, and it has tests of its own: the minimum, the
current size, and that anything is asked for at all.

None of these refuses what the maximum allows.  A memory or a table is within its bounds from its allocation on, and whatever
happens to it keeps it there (`Memory.Run.evolves`, `Table.Run.evolves`), so the sum is at least the minimum and the current
size, and is not zero unless nothing is added.  What is left is that growth succeeds exactly where there is room
(`Linear.Counts.growBy?_eq`), and to add nothing is the case where there always is.
-/

namespace FlatWasm

/-! ## Stores -/

/-- What is answered to a request to grow, and what is there afterwards. -/
def afterGrowth {α : Type} (a : α) :
    Except Defect (Option (UInt32 × α)) → Except Defect (Option UInt32) × α
  | .ok (some (previous, a')) => (.ok (some previous), a')
  | .ok none => (.ok none, a)
  | .error d => (.error d, a)

namespace Linear

variable {s : Linear} {n delta : UInt32}

/-- Adds units to a store of `n` units, and answers with `n`. -/
def growBy? (s : Linear) (n delta : UInt32) : Except Defect (Option (UInt32 × Linear)) :=
  if delta = 0 then .ok (some (n, s))
  else if s.max.toNat < n.toNat + delta.toNat then .ok none
  else
    match s.grow (UInt32.ofNat (n.toNat + delta.toNat)) with
    | .ok (.grown, t) => .ok (some (n, t))
    | .ok _ => .ok none
    | .error d => .error d

/-- A number of units, from the length in bytes. -/
theorem toNat_units {unit k : ℕ} (h : s.length = k * unit) (hunit : 0 < unit) (hk : k < 2 ^ 32) :
    (UInt32.ofNat (s.length / unit)).toNat = k := by
  rw [h, Nat.mul_div_cancel k hunit]
  exact UInt32.toNat_ofNat_of_lt' hk

/-- A store of some units within its bounds, none of which is longer than a page. -/
structure Counts (s : Linear) (n : UInt32) : Prop where
  length : s.length = n.toNat * s.unit.toNat
  min : s.min ≤ n
  max : n ≤ s.max
  unit : s.unit.toNat ≤ 65536

theorem InBounds.exists_counts (h : s.InBounds) (hunit : s.unit.toNat ≤ 65536) :
    ∃ n, s.Counts n := by
  obtain ⟨n, hn, hmin, hmax⟩ := h
  have hword : (UInt32.ofNat n).toNat = n :=
    UInt32.toNat_ofNat_of_lt' (Nat.lt_of_le_of_lt hmax s.max.toNat_lt)
  refine ⟨UInt32.ofNat n, hn.trans (by rw [hword]), ?_, ?_, hunit⟩
  · rwa [UInt32.le_iff_toNat_le, hword]
  · rwa [UInt32.le_iff_toNat_le, hword]

/-- Where there is room, the sum can be counted in words. -/
theorem add_lt_of_room (hroom : n.toNat + delta.toNat ≤ s.max.toNat ∨ delta = 0) :
    n.toNat + delta.toNat < 2 ^ 32 := by
  rcases hroom with hroom | rfl
  · exact Nat.lt_of_le_of_lt hroom s.max.toNat_lt
  · exact n.toNat_lt

/-- A store that has a length is not changed by extending it to that length. -/
theorem extend_length (s : Linear) : s.extend s.length = s := by
  have hbytes : s.bytes.extend s.length = s.bytes :=
    Sparse.ext_byte (Nat.max_self _) fun _ => rfl
  rw [extend, hbytes]

/-- Where there is room, none of the tests of a store refuses growth. -/
theorem Counts.grow_eq (h : s.Counts n) (hdelta : delta ≠ 0)
    (hroom : n.toNat + delta.toNat ≤ s.max.toNat) :
    s.grow (UInt32.ofNat (n.toNat + delta.toNat)) =
      .ok (.grown, s.extend ((n.toNat + delta.toNat) * s.unit.toNat)) := by
  have hpos : 0 < delta.toNat := toNat_pos hdelta
  have hword : (UInt32.ofNat (n.toNat + delta.toNat)).toNat = n.toNat + delta.toNat :=
    UInt32.toNat_ofNat_of_lt' (Nat.lt_of_le_of_lt hroom s.max.toNat_lt)
  have hmin := UInt32.le_iff_toNat_le.mp h.min
  have hallows : s.Allows n (UInt32.ofNat (n.toNat + delta.toNat)) := by
    refine ⟨?_, ?_, ?_, fun hzero => ?_⟩
    · rw [UInt32.le_iff_toNat_le, hword]
      omega
    · rw [UInt32.le_iff_toNat_le, hword]
      exact hroom
    · rw [UInt32.le_iff_toNat_le, hword]
      omega
    · rw [hzero, UInt32.toNat_zero] at hword
      omega
  have haddress : (n.toNat + delta.toNat) * s.unit.toNat ≤ maxLength :=
    Nat.le_trans (Nat.mul_le_mul (hroom.trans (Nat.le_of_lt s.max.toNat_lt)) h.unit) (by decide)
  rw [grow_of_allows h.length hallows, hword, if_neg (Nat.not_lt.mpr haddress)]

/-- **Growth by some units succeeds exactly where there is room.** -/
theorem Counts.growBy?_eq (h : s.Counts n) (delta : UInt32) :
    s.growBy? n delta = .ok (if n.toNat + delta.toNat ≤ s.max.toNat then
      some (n, s.extend ((n.toNat + delta.toNat) * s.unit.toNat)) else none) := by
  rw [growBy?]
  by_cases hdelta : delta = 0
  · subst hdelta
    have hroom : n.toNat + (0 : UInt32).toNat ≤ s.max.toNat := UInt32.le_iff_toNat_le.mp h.max
    rw [if_pos rfl, if_pos hroom, UInt32.toNat_zero, Nat.add_zero, ← h.length, extend_length]
  rw [if_neg hdelta]
  by_cases hroom : n.toNat + delta.toNat ≤ s.max.toNat
  · rw [if_neg (Nat.not_lt.mpr hroom), if_pos hroom, h.grow_eq hdelta hroom]
  · rw [if_pos (Nat.not_le.mp hroom), if_neg hroom]

/-- Growth by `delta` of a store of `n` units: what is answered, and the store afterwards. -/
structure GrowsExactly (s : Linear) (n delta : UInt32) (outcome : Except Defect (Option UInt32))
    (t : Linear) : Prop where
  /-- The answer is the number of units before. -/
  succeeds_iff : outcome = .ok (some n) ↔ n.toNat + delta.toNat ≤ s.max.toNat ∨ delta = 0
  fails_iff : outcome = .ok none ↔ ¬(n.toNat + delta.toNat ≤ s.max.toNat ∨ delta = 0)
  unchanged : outcome = .ok none → t = s
  length : outcome = .ok (some n) → t.length = (n.toNat + delta.toNat) * s.unit.toNat
  mono : s.length ≤ t.length
  shape : t.unit = s.unit ∧ t.min = s.min ∧ t.max = s.max
  kept : ∀ i < s.length, t.bytes.byte i = s.bytes.byte i
  zero : ∀ i, s.length ≤ i → t.bytes.byte i = 0

theorem Counts.growsExactly (h : s.Counts n) (delta : UInt32) :
    s.GrowsExactly n delta (afterGrowth s (s.growBy? n delta)).1
      (afterGrowth s (s.growBy? n delta)).2 := by
  have hzero : ∀ i, s.length ≤ i → s.bytes.byte i = 0 := fun i => s.bytes.byte_of_length_le
  -- to add nothing is to have room for it
  have hiff : n.toNat + delta.toNat ≤ s.max.toNat ∨ delta = 0 ↔
      n.toNat + delta.toNat ≤ s.max.toNat := by
    refine or_iff_left_of_imp fun hdelta => ?_
    subst hdelta
    exact UInt32.le_iff_toNat_le.mp h.max
  rw [h.growBy?_eq]
  by_cases hroom : n.toNat + delta.toNat ≤ s.max.toNat
  · have hlength : s.length ≤ (n.toNat + delta.toNat) * s.unit.toNat := by
      rw [h.length]
      exact Nat.mul_le_mul_right _ (Nat.le_add_right _ _)
    rw [if_pos hroom]
    exact {
      succeeds_iff := iff_of_true rfl (hiff.mpr hroom)
      fails_iff := iff_of_false (fun h => by cases h) (not_not_intro (hiff.mpr hroom))
      unchanged := fun h => by cases h
      length := fun _ => length_extend hlength
      mono := hlength.trans (length_extend hlength).ge
      shape := ⟨rfl, rfl, rfl⟩
      kept := fun _ _ => rfl
      zero := hzero }
  · rw [if_neg hroom]
    exact {
      succeeds_iff := iff_of_false (fun h => by cases h) (mt hiff.mp hroom)
      fails_iff := iff_of_true rfl (mt hiff.mp hroom)
      unchanged := fun _ => rfl
      length := fun h => by cases h
      mono := Nat.le_refl _
      shape := ⟨rfl, rfl, rfl⟩
      kept := fun _ _ => rfl
      zero := hzero }

end Linear

/-! ## What happens to memories and tables -/

/-- One thing that can happen to a memory: one of its methods is called, or segments are loaded into it. -/
inductive Memory.Step (m : Memory) : Memory → Prop where
  | call {m' : Memory} (h : m.Changes m') : Step m m'
  | load {segments : List Segment} {globals : GlobalReader} {mayGrow : Bool} {growth : Option Growth}
      {s : Linear} (h : m.store.load segments globals mayGrow = .ok (growth, s)) : Step m ⟨s⟩

/-- The same for a table. -/
inductive Table.Step (t : Table) : Table → Prop where
  | call {t' : Table} (h : t.Changes t') : Step t t'
  | load {segments : List Segment} {globals : GlobalReader} {mayGrow : Bool} {growth : Option Growth}
      {s : Linear} (h : t.store.load segments globals mayGrow = .ok (growth, s)) : Step t ⟨s⟩

/-- Any sequence of such things. -/
abbrev Memory.Run : Memory → Memory → Prop :=
  Relation.ReflTransGen Memory.Step

abbrev Table.Run : Table → Table → Prop :=
  Relation.ReflTransGen Table.Step

theorem Memory.Step.evolves {m m' : Memory} (h : m.Step m') : m.Evolves m' := by
  cases h with
  | call h => exact h.evolves
  | load h => exact Linear.evolves_of_load h

theorem Table.Step.evolves {t t' : Table} (h : t.Step t') : t.Evolves t' := by
  cases h with
  | call h => exact h.evolves
  | load h => exact Linear.evolves_of_load h

/-- What every step does to a store, any number of them do. -/
theorem Linear.evolves_of_steps {α : Type} (store : α → Linear) {R : α → α → Prop}
    (hR : ∀ a b, R a b → (store a).Evolves (store b)) {a b : α} (h : Relation.ReflTransGen R a b) :
    (store a).Evolves (store b) := by
  induction h with
  | refl => exact .refl _
  | tail _ hstep ih => exact ih.trans (hR _ _ hstep)

theorem Memory.Run.evolves {m m' : Memory} (h : m.Run m') : m.Evolves m' :=
  Linear.evolves_of_steps Memory.store (fun _ _ => Memory.Step.evolves) h

theorem Table.Run.evolves {t t' : Table} (h : t.Run t') : t.Evolves t' :=
  Linear.evolves_of_steps Table.store (fun _ _ => Table.Step.evolves) h

/-! ## Memories -/

namespace Memory

variable {m : Memory}

/-- Adds pages: what is answered, and the memory afterwards. -/
def growBy (m : Memory) (delta : UInt32) : Except Defect (Option UInt32) × Memory :=
  afterGrowth m (m.grow? delta)

theorem toNat_pages {n : ℕ} (h : m.store.length = n * pageSize.toNat) (hn : n < 2 ^ 32) :
    m.pages.toNat = n :=
  Linear.toNat_units h (by decide) hn

theorem InBounds.counts (h : m.InBounds) : m.store.Counts m.pages := by
  obtain ⟨n, hn⟩ := h.2.exists_counts (by rw [h.1]; decide)
  have hpages : m.pages = n := UInt32.toNat_inj.mp (toNat_pages (h.1 ▸ hn.length) n.toNat_lt)
  rwa [hpages]

/-- A memory grows as its store does. -/
theorem growBy_eq (m : Memory) (delta : UInt32) : m.growBy delta =
    ((afterGrowth m.store (m.store.growBy? m.pages delta)).1,
      ⟨(afterGrowth m.store (m.store.growBy? m.pages delta)).2⟩) := by
  rw [growBy, grow?, Linear.growBy?]
  split_ifs
  · rfl
  · rfl
  · rcases m.store.grow (UInt32.ofNat (m.pages.toNat + delta.toNat)) with d | ⟨result, s⟩
    · rfl
    · cases result <;> rfl

/-- Growth by `delta` pages is exact. -/
structure GrowsExactly (m : Memory) (delta : UInt32) : Prop where
  store : m.store.GrowsExactly m.pages delta (m.growBy delta).1 (m.growBy delta).2.store
  pages : (m.growBy delta).1 = .ok (some m.pages) →
    (m.growBy delta).2.pages.toNat = m.pages.toNat + delta.toNat

theorem InBounds.growsExactly (h : m.InBounds) (delta : UInt32) : m.GrowsExactly delta := by
  have hstore : m.store.GrowsExactly m.pages delta (m.growBy delta).1 (m.growBy delta).2.store := by
    rw [growBy_eq]
    exact h.counts.growsExactly delta
  refine ⟨hstore, fun hsuccess => toNat_pages ?_ ?_⟩
  · rw [hstore.length hsuccess, h.1]
  · exact Linear.add_lt_of_room (hstore.succeeds_iff.mp hsuccess)

end Memory

/-! ## Tables -/

namespace Table

variable {t : Table} {i : UInt32}

/-- Adds entries: what is answered, and the table afterwards. -/
def growBy (t : Table) (delta : UInt32) : Except Defect (Option UInt32) × Table :=
  afterGrowth t (t.grow? delta)

theorem toNat_length {n : ℕ} (h : t.store.length = n * entrySize.toNat) (hn : n < 2 ^ 32) :
    t.length.toNat = n :=
  Linear.toNat_units h (by decide) hn

theorem InBounds.counts (h : t.InBounds) : t.store.Counts t.length := by
  obtain ⟨n, hn⟩ := h.2.exists_counts (by rw [h.1]; decide)
  have hlength : t.length = n := UInt32.toNat_inj.mp (toNat_length (h.1 ▸ hn.length) n.toNat_lt)
  rwa [hlength]

theorem InBounds.length_eq (h : t.InBounds) : t.store.length = t.length.toNat * 4 := by
  rw [h.counts.length, h.1]
  rfl

/-- The entries of a table are those below its length. -/
theorem InBounds.has_iff (h : t.InBounds) : t.Has i ↔ i < t.length := by
  refine ⟨fun hi => ?_, has_of_lt_length⟩
  have hle : i.toNat * 4 + 4 ≤ t.store.length := hi
  rw [h.length_eq] at hle
  rw [UInt32.lt_iff_toNat_lt]
  omega

/-- A table grows as its store does. -/
theorem growBy_eq (t : Table) (delta : UInt32) : t.growBy delta =
    ((afterGrowth t.store (t.store.growBy? t.length delta)).1,
      ⟨(afterGrowth t.store (t.store.growBy? t.length delta)).2⟩) := by
  rw [growBy, grow?, Linear.growBy?]
  split_ifs
  · rfl
  · rfl
  · rcases t.store.grow (UInt32.ofNat (t.length.toNat + delta.toNat)) with d | ⟨result, s⟩
    · rfl
    · cases result <;> rfl

/-- Growth by `delta` entries is exact. -/
structure GrowsExactly (t : Table) (delta : UInt32) : Prop where
  store : t.store.GrowsExactly t.length delta (t.growBy delta).1 (t.growBy delta).2.store
  length : (t.growBy delta).1 = .ok (some t.length) →
    (t.growBy delta).2.length.toNat = t.length.toNat + delta.toNat
  kept : ∀ i < t.length, (t.growBy delta).2.get? i = t.get? i
  null : ∀ i, t.length ≤ i → (t.growBy delta).2.get? i = none

/-- Four zeros are an entry that refers to no function. -/
theorem get?_of_zeros (h : ∀ k, positionOf i ≤ k → k < positionOf i + 4 → t.store.bytes.byte k = 0) :
    t.get? i = none := by
  by_cases hi : t.Has i
  · have hslice : t.store.bytes.slice (positionOf i) 4 = (Sparse.zeros 0).slice (positionOf i) 4 :=
      Sparse.slice_congr fun k hle hlt => (h k hle hlt).trans (Sparse.byte_zeros 0 k).symm
    have hzeros : (Sparse.zeros 0).slice (positionOf i) 4 = [0, 0, 0, 0] := by
      simp [Sparse.slice, List.range'_succ]
    rw [get?_of_has hi, hslice, hzeros]
    rfl
  · exact get?_of_not_has hi

theorem InBounds.growsExactly (h : t.InBounds) (delta : UInt32) : t.GrowsExactly delta := by
  have hstore : t.store.GrowsExactly t.length delta (t.growBy delta).1 (t.growBy delta).2.store := by
    rw [growBy_eq]
    exact h.counts.growsExactly delta
  refine ⟨hstore, fun hsuccess => toNat_length ?_ ?_, fun i hi => ?_, fun i hi => ?_⟩
  · rw [hstore.length hsuccess, h.1]
  · exact Linear.add_lt_of_room (hstore.succeeds_iff.mp hsuccess)
  · have hhas : positionOf i + 4 ≤ t.store.length := has_of_lt_length hi
    refine get?_congr (iff_of_true (hhas.trans hstore.mono) hhas) (Sparse.slice_congr fun k _ hlt => ?_)
    exact hstore.kept k (hlt.trans_le hhas)
  · refine get?_of_zeros fun k hle _ => hstore.zero k (Nat.le_trans ?_ hle)
    rw [h.length_eq]
    exact Nat.mul_le_mul_right 4 (UInt32.le_iff_toNat_le.mp hi)

end Table

/-- **Guests grow memories and tables exactly.**  Whatever has happened to a memory or a table since it was allocated, growth by
some pages or entries succeeds if the sum with the current size, which can be any number, is not above the maximum, or if
nothing is added.  Then the answer is the size before, the size afterwards is the sum, what was there is kept, and what is
added is zero, so that the new entries of a table refer to no function.  Otherwise growth is refused and nothing changes. -/
theorem guests_grow_exactly (limits : Limits) (ceiling delta : UInt32) :
    (∀ m₀ m, Memory.allocate limits ceiling = .ok m₀ → m₀.Run m → m.GrowsExactly delta) ∧
      ∀ t₀ t, Table.allocate limits = .ok t₀ → t₀.Run t → t.GrowsExactly delta := by
  refine ⟨fun m₀ m h₀ hm => ?_, fun t₀ t h₀ ht => ?_⟩
  · exact (hm.evolves.inBounds (Memory.inBounds_of_allocate h₀)).growsExactly delta
  · exact (ht.evolves.inBounds (Table.inBounds_of_allocate h₀)).growsExactly delta

/-- A memory without pages that can have as many as can be counted. -/
def Memory.withoutPages : Memory :=
  ⟨⟨.zeros 0, pageSize, 0, 0xFFFFFFFF⟩⟩

/-- A table of one entry that can have three. -/
def Table.oneEntry : Table :=
  ⟨⟨.zeros 4, entrySize, 1, 3⟩⟩

/-- The same after one entry was added and set. -/
def Table.secondSet : Table :=
  ⟨Linear.put ⟨.zeros 8, entrySize, 1, 3⟩ 4 (word32 (slotOf 7))⟩

theorem Table.run_secondSet : oneEntry.Run secondSet := by
  have hgrow : oneEntry.grow? 1 = .ok (some (1, ⟨⟨.zeros 8, entrySize, 1, 3⟩⟩)) := by decide
  have hset : set? ⟨⟨.zeros 8, entrySize, 1, 3⟩⟩ 1 7 = some secondSet := by decide
  exact .tail (.single (.call (.grow hgrow))) (.call (.set hset))

/-- The memory grows by as many pages as can be asked for at once.  The table does not, but it grows by its last entry. -/
theorem withoutPages_and_secondSet_grow_exactly :
    (Memory.withoutPages.growBy 0xFFFFFFFF).1 = .ok (some 0) ∧
      (Memory.withoutPages.growBy 0xFFFFFFFF).2.pages.toNat = 0xFFFFFFFF ∧
      (Table.secondSet.growBy 0xFFFFFFFF).1 = .ok none ∧
      (Table.secondSet.growBy 1).1 = .ok (some 2) ∧
      (Table.secondSet.growBy 1).2.get? 1 = some 7 ∧
      (Table.secondSet.growBy 1).2.get? 2 = none := by
  have hm₀ : Memory.allocate ⟨0, none⟩ 0xFFFFFFFF = .ok Memory.withoutPages :=
    Memory.allocate_eq_ok_iff.mpr ⟨by decide, rfl⟩
  have ht₀ : Table.allocate ⟨1, some 3⟩ = .ok Table.oneEntry :=
    Table.allocate_eq_ok_iff.mpr ⟨by decide, rfl⟩
  have hm := (guests_grow_exactly ⟨0, none⟩ 0xFFFFFFFF 0xFFFFFFFF).1 _ _ hm₀ .refl
  have ht := fun delta => (guests_grow_exactly ⟨1, some 3⟩ 0 delta).2 _ _ ht₀ Table.run_secondSet
  have hpages := hm.store.succeeds_iff.mpr (.inl (by decide))
  refine ⟨hpages, hm.pages hpages, (ht _).store.fails_iff.mpr (by decide),
    (ht 1).store.succeeds_iff.mpr (.inl (by decide)), ?_, (ht 1).null 2 (by decide)⟩
  rw [(ht 1).kept 1 (by decide)]
  decide

end FlatWasm
