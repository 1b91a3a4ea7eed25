import Mathlib
import FlatWasm.Proofs.Store.Bounds

/-!
# What segments leave in a store

Segments are placed first, all of them, and written after that, one over the other.  So there are three questions, and they
are answered one by one.

* Can all of them be placed?  If not, the first whose offset cannot be read says why (`IsFirstUnread`).
* Where does the last byte go?  That is a least upper bound (`isLUB_lastStop`), and nothing else about the positions decides
  whether the segments fit.
* What is at a position afterwards?  The byte of the last segment that covers it, or what was there before
  (`Linear.overlaid_putAll`).

Where no two segments cover the same position there is no last one to speak of, and their order is of no account
(`lastWritten?_perm`).
-/

namespace FlatWasm

/-! ## Bytes in place -/

namespace Placed

variable {w : Placed} {i : ℕ}

/-- The positions that are written. -/
def range (w : Placed) : Set ℕ :=
  Set.Ico w.position w.stop

/-- The byte that is written at a position, if one is. -/
def byte? (w : Placed) (i : ℕ) : Option UInt8 :=
  if w.position ≤ i then w.payload[i - w.position]? else none

theorem byte?_eq_none_iff : w.byte? i = none ↔ i ∉ w.range := by
  rw [byte?, range, Set.mem_Ico, stop]
  split
  · rw [List.getElem?_eq_none_iff]
    omega
  · simp only [true_iff]
    omega

theorem mem_range_of_byte? {b : UInt8} (h : w.byte? i = some b) : i ∈ w.range := by
  by_contra hi
  rw [byte?_eq_none_iff.mpr hi] at h
  cases h

/-- Nothing is written twice. -/
def Apart (w w' : Placed) : Prop :=
  Disjoint w.range w'.range

instance : Std.Symm Apart :=
  ⟨fun _ _ h => Disjoint.symm h⟩

end Placed

/-- The byte that writes in order leave at a position: that of the last one that covers it. -/
def lastWritten? (placed : List Placed) (i : ℕ) : Option UInt8 :=
  placed.reverse.findSome? (Placed.byte? · i)

section LastWritten

variable {placed placed' : List Placed} {w : Placed} {i : ℕ} {b : UInt8}

theorem lastWritten?_cons :
    lastWritten? (w :: placed) i = (lastWritten? placed i).or (w.byte? i) := by
  simp only [lastWritten?, List.reverse_cons, List.findSome?_append, List.findSome?_singleton]

theorem lastWritten?_concat :
    lastWritten? (placed ++ [w]) i = (w.byte? i).or (lastWritten? placed i) := by
  simp only [lastWritten?, List.reverse_append, List.reverse_singleton, List.singleton_append,
    List.findSome?_cons]
  cases w.byte? i <;> rfl

theorem exists_of_lastWritten? (h : lastWritten? placed i = some b) :
    ∃ w ∈ placed, w.byte? i = some b := by
  obtain ⟨w, hw, hb⟩ := List.exists_of_findSome?_eq_some h
  exact ⟨w, List.mem_reverse.mp hw, hb⟩

theorem lastWritten?_eq_none_iff : lastWritten? placed i = none ↔ ∀ w ∈ placed, i ∉ w.range := by
  simp only [lastWritten?, List.findSome?_eq_none_iff, List.mem_reverse, Placed.byte?_eq_none_iff]

/-- Where nothing is written twice, what covers a position is what is left there. -/
theorem lastWritten?_eq_some_iff (h : placed.Pairwise Placed.Apart) :
    lastWritten? placed i = some b ↔ ∃ w ∈ placed, w.byte? i = some b := by
  refine ⟨exists_of_lastWritten?, fun ⟨w, hw, hb⟩ => ?_⟩
  have hi := Placed.mem_range_of_byte? hb
  obtain ⟨b', hb'⟩ : ∃ b', lastWritten? placed i = some b' :=
    Option.ne_none_iff_exists'.mp fun hnone => lastWritten?_eq_none_iff.mp hnone w hw hi
  obtain ⟨w', hw', hw'b⟩ := exists_of_lastWritten? hb'
  by_cases heq : w = w'
  · subst heq
    rw [hb', ← hw'b, hb]
  · have hapart : w.Apart w' := h.forall hw hw' heq
    exact absurd (Placed.mem_range_of_byte? hw'b) (Set.disjoint_left.mp hapart hi)

/-- **Where nothing is written twice, the order of writes is of no account.** -/
theorem lastWritten?_perm (hp : placed.Perm placed') (h : placed.Pairwise Placed.Apart) (i : ℕ) :
    lastWritten? placed' i = lastWritten? placed i := by
  have h' := h.perm hp fun h => symm h
  ext b
  rw [lastWritten?_eq_some_iff h, lastWritten?_eq_some_iff h']
  simp only [hp.mem_iff]

end LastWritten

theorem Sparse.byte_overwrite {s : Sparse} {w : Placed} (h : w.stop ≤ s.length) (i : ℕ) :
    (s.overwrite w.position w.payload).byte i = (w.byte? i).getD (s.byte i) := by
  obtain ⟨position, payload⟩ := w
  dsimp only
  induction payload generalizing s position with
  | nil =>
    rw [overwrite, Placed.byte?]
    split <;> rfl
  | cons b rest ih =>
    have hlt : position < s.length := by
      simp only [Placed.stop, List.length_cons] at h
      omega
    have hrest : (⟨position + 1, rest⟩ : Placed).stop ≤ (s.set position b).length := by
      simp only [Placed.stop, List.length_cons, length_set] at h ⊢
      omega
    rw [overwrite, ih _ hrest, byte_set s hlt]
    simp only [Placed.byte?]
    -- below the position nothing is written, at it the first byte, and above it the rest
    rcases Nat.lt_trichotomy i position with hlow | rfl | hhigh
    · rw [if_neg (by omega), if_neg (by omega), if_neg (by omega)]
    · rw [if_neg (by omega), if_pos rfl, if_pos (Nat.le_refl i), Nat.sub_self]
      rfl
    · obtain ⟨k, rfl⟩ := Nat.exists_eq_add_of_lt hhigh
      rw [if_pos (by omega), if_neg (by omega), if_pos (by omega),
        show position + k + 1 - (position + 1) = k by omega,
        show position + k + 1 - position = k + 1 by omega, List.getElem?_cons_succ]

/-! ## Stores with bytes written over them -/

/-- A store of the same shape, with writes in order laid over its bytes. -/
structure Linear.Overlaid (s : Linear) (placed : List Placed) (t : Linear) : Prop where
  unit : t.unit = s.unit
  min : t.min = s.min
  max : t.max = s.max
  length : t.length = s.length
  byte : ∀ i, t.bytes.byte i = (lastWritten? placed i).getD (s.bytes.byte i)

namespace Linear

variable {s t u : Linear} {placed placed' : List Placed}

/-- Nothing else is to be known of a store that was written over. -/
theorem Overlaid.eq (ht : s.Overlaid placed t) (hu : s.Overlaid placed u) : t = u := by
  have hbytes : t.bytes = u.bytes :=
    Sparse.ext_byte (ht.length.trans hu.length.symm) fun i => (ht.byte i).trans (hu.byte i).symm
  have hunit := ht.unit.trans hu.unit.symm
  have hmin := ht.min.trans hu.min.symm
  have hmax := ht.max.trans hu.max.symm
  cases t
  cases u
  simp_all

theorem Overlaid.congr (h : s.Overlaid placed t)
    (hi : ∀ i, lastWritten? placed' i = lastWritten? placed i) : s.Overlaid placed' t :=
  { h with byte := fun i => by rw [hi, h.byte] }

/-- **Writing in order leaves the byte of the last write at every position.** -/
theorem overlaid_putAll (h : ∀ w ∈ placed, w.stop ≤ s.length) :
    s.Overlaid placed (s.putAll placed) := by
  induction placed generalizing s with
  | nil => exact ⟨rfl, rfl, rfl, rfl, fun i => rfl⟩
  | cons w placed ih =>
    obtain ⟨hw, hrest⟩ := List.forall_mem_cons.mp h
    have hlength := s.length_put w.position w.payload
    have hput := ih (s := s.put w.position w.payload) fun w' hw' => hlength.ge.trans' (hrest w' hw')
    refine ⟨hput.unit, hput.min, hput.max, hput.length.trans hlength, fun i => ?_⟩
    have hbyte : (s.put w.position w.payload).bytes.byte i = (w.byte? i).getD (s.bytes.byte i) :=
      Sparse.byte_overwrite hw i
    rw [lastWritten?_cons, Option.getD_or, ← hbyte]
    exact hput.byte i

end Linear

/-! ## The end of the last segment -/

/-- Where writes end. -/
def stops (placed : List Placed) : Set ℕ :=
  {n | ∃ w ∈ placed, w.stop = n}

section LastStop

variable {placed placed' : List Placed} {n : ℕ}

theorem lastStop_le_iff : lastStop placed ≤ n ↔ ∀ w ∈ placed, w.stop ≤ n := by
  have hfold : ∀ (stops : List ℕ) (start : ℕ),
      stops.foldl max start ≤ n ↔ start ≤ n ∧ ∀ stop ∈ stops, stop ≤ n := by
    intro stops
    induction stops with
    | nil => simp
    | cons stop stops ih =>
      intro start
      rw [List.foldl_cons, ih, max_le_iff, and_assoc, List.forall_mem_cons]
  rw [lastStop, hfold, List.forall_mem_map]
  exact and_iff_right (Nat.zero_le n)

theorem isLUB_lastStop (placed : List Placed) : IsLUB (stops placed) (lastStop placed) := by
  refine isLUB_iff_le_iff.mpr fun n => lastStop_le_iff.trans ⟨fun h => ?_, fun h w hw => ?_⟩
  · rintro _ ⟨w, hw, rfl⟩
    exact h w hw
  · exact h ⟨w, hw, rfl⟩

theorem lastStop_perm (h : placed.Perm placed') : lastStop placed' = lastStop placed := by
  refine le_antisymm (lastStop_le_iff.mpr fun w hw => ?_) (lastStop_le_iff.mpr fun w hw => ?_)
  · exact lastStop_le_iff.mp (Nat.le_refl (lastStop placed)) w (h.mem_iff.mpr hw)
  · exact lastStop_le_iff.mp (Nat.le_refl (lastStop placed')) w (h.mem_iff.mp hw)

end LastStop

/-! ## Offsets that cannot be read -/

/-- The first segment whose offset cannot be read has this error. -/
def IsFirstUnread (globals : GlobalReader) (segments : List Segment) (e : OffsetError) : Prop :=
  ∃ before segment after, segments = before ++ segment :: after ∧
    (∀ g ∈ before, ∃ w, g.place globals = .ok w) ∧
    segment.offset.base = .global e.global ∧ globals e.global = .error e.cause

/-- Each segment has its place. -/
def ArePlaced (globals : GlobalReader) : List Segment → List Placed → Prop :=
  List.Forall₂ fun segment w => segment.place globals = .ok w

section Places

variable {globals : GlobalReader} {segment : Segment} {segments segments' : List Segment}
  {placed : List Placed} {e : OffsetError}

theorem arePlaced_iff : ArePlaced globals segments placed ↔
    segments.mapM (Segment.place globals) = .ok placed :=
  Except.mapM_eq_ok_iff.symm

/-- A segment has no place only if its offset is in a global that cannot be read. -/
theorem Segment.place_eq_error (h : segment.place globals = .error e) :
    segment.offset.base = .global e.global ∧ globals e.global = .error e.cause := by
  rw [place, Offset.resolve, Offset.units] at h
  cases hbase : segment.offset.base with
  | const value =>
    rw [hbase] at h
    cases h
  | global i =>
    rw [hbase] at h
    dsimp only at h
    cases hi : globals i with
    | ok v =>
      rw [hi] at h
      cases h
    | error cause =>
      rw [hi] at h
      cases h
      exact ⟨rfl, hi⟩

/-- **All segments have their places, or there is a first that has none.** -/
theorem unread_or_arePlaced (globals : GlobalReader) (segments : List Segment) :
    (∃ e, IsFirstUnread globals segments e ∧
      segments.mapM (Segment.place globals) = .error e) ∨
      ∃ placed, ArePlaced globals segments placed := by
  induction segments with
  | nil => exact .inr ⟨[], .nil⟩
  | cons segment segments ih =>
    cases hplace : segment.place globals with
    | error e =>
      refine .inl ⟨e, ⟨[], segment, segments, rfl, List.forall_mem_nil _,
        Segment.place_eq_error hplace⟩, ?_⟩
      rw [List.mapM_cons, hplace]
      rfl
    | ok w =>
      rcases ih with ⟨e, ⟨before, g, after, rfl, hbefore, hg⟩, herror⟩ | ⟨placed, hplaced⟩
      · refine .inl ⟨e, ⟨segment :: before, g, after, rfl,
          List.forall_mem_cons.mpr ⟨⟨w, hplace⟩, hbefore⟩, hg⟩, ?_⟩
        rw [List.mapM_cons, hplace, herror]
        rfl
      · exact .inr ⟨w :: placed, .cons hplace hplaced⟩

theorem ArePlaced.exists_perm (h : ArePlaced globals segments placed)
    (hp : segments.Perm segments') :
    ∃ placed', ArePlaced globals segments' placed' ∧ placed.Perm placed' := by
  obtain ⟨placed', hplaced', hperm⟩ := List.perm_comp_forall₂ hp.symm h
  exact ⟨placed', hplaced', hperm.symm⟩

/-- Two segments do not write at the same position. -/
def Segment.Apart (globals : GlobalReader) (g g' : Segment) : Prop :=
  ∀ w w', g.place globals = .ok w → g'.place globals = .ok w' → w.Apart w'

theorem ArePlaced.pairwise (h : ArePlaced globals segments placed)
    (hs : segments.Pairwise (Segment.Apart globals)) : placed.Pairwise Placed.Apart := by
  induction h with
  | nil => exact .nil
  | @cons g w segments placed hw hplaced ih =>
    obtain ⟨hg, hrest⟩ := List.pairwise_cons.mp hs
    refine List.pairwise_cons.mpr ⟨fun w' hw' => ?_, ih hrest⟩
    obtain ⟨k, hk⟩ := List.mem_iff_getElem?.mp hw'
    obtain ⟨g', hg', hplace⟩ := exists_getElem?_of_forall₂ hplaced hk
    exact hg g' (List.mem_of_getElem? hg') w w' hw hplace

end Places

/-! ## Segments applied to a store -/

namespace Linear

variable {s : Linear} {segments segments' : List Segment} {globals : GlobalReader}

/-- The store after segments were applied to it, with whatever outcome. -/
def after (s : Linear) : Except OffsetError Applied → Linear
  | .ok (.written t) => t
  | .ok (.needs _) => s
  | .error _ => s

theorem apply_of_unread {e : OffsetError}
    (h : segments.mapM (Segment.place globals) = .error e) : s.apply segments globals = .error e := by
  show (segments.mapM (Segment.place globals) >>= _) = _
  rw [h]
  rfl

/-- The order of segments that are apart is of no account. -/
theorem after_apply_perm (hp : segments.Perm segments')
    (hapart : segments.Pairwise (Segment.Apart globals)) :
    s.after (s.apply segments' globals) = s.after (s.apply segments globals) := by
  rcases unread_or_arePlaced globals segments with ⟨e, -, he⟩ | ⟨placed, hplaced⟩
  · -- what has no place in one order has none in the other
    rcases unread_or_arePlaced globals segments' with ⟨e', -, he'⟩ | ⟨placed', hplaced'⟩
    · rw [apply_of_unread he, apply_of_unread he']
      rfl
    · obtain ⟨placed, hplaced, -⟩ := hplaced'.exists_perm hp.symm
      cases he.symm.trans (arePlaced_iff.mp hplaced)
  · obtain ⟨placed', hplaced', hperm⟩ := hplaced.exists_perm hp
    rw [apply_of_place (arePlaced_iff.mp hplaced), apply_of_place (arePlaced_iff.mp hplaced'),
      lastStop_perm hperm]
    split
    · rfl
    next hfits =>
    have hstops := lastStop_le_iff.mp (Nat.not_lt.mp hfits)
    have hput := overlaid_putAll hstops
    have hput' := overlaid_putAll (s := s) fun w hw => hstops w (hperm.mem_iff.mpr hw)
    exact hput'.eq (hput.congr (lastWritten?_perm hperm (hplaced.pairwise hapart)))

/-- **Segments are written all together or not at all, and at each position the last one counts.**  If an offset cannot be
read, the first such offset is the error.  Otherwise the end of the last segment decides: beyond the store, nothing is
written and that end is the answer; within it, every byte is that of the last segment that covers it, or as before.
Segments that are apart can be written in any order. -/
theorem apply_all_or_nothing (s : Linear) (segments : List Segment) (globals : GlobalReader) :
    ((∃ e, IsFirstUnread globals segments e ∧ s.apply segments globals = .error e ∧
        s.after (s.apply segments globals) = s) ∨
      ∃ placed stop, ArePlaced globals segments placed ∧ IsLUB (stops placed) stop ∧
        (s.length < stop → s.apply segments globals = .ok (.needs stop) ∧
          s.after (s.apply segments globals) = s) ∧
        (stop ≤ s.length → ∃ t, s.apply segments globals = .ok (.written t) ∧
          s.after (s.apply segments globals) = t ∧ s.Overlaid placed t)) ∧
      ∀ segments', segments.Perm segments' → segments.Pairwise (Segment.Apart globals) →
        s.after (s.apply segments' globals) = s.after (s.apply segments globals) := by
  refine ⟨?_, fun segments' => after_apply_perm⟩
  rcases unread_or_arePlaced globals segments with ⟨e, hfirst, he⟩ | ⟨placed, hplaced⟩
  · rw [apply_of_unread he]
    exact .inl ⟨e, hfirst, rfl, rfl⟩
  · rw [apply_of_place (arePlaced_iff.mp hplaced)]
    refine .inr ⟨placed, lastStop placed, hplaced, isLUB_lastStop placed, fun hlong => ?_,
      fun hfits => ?_⟩
    · rw [if_pos hlong]
      exact ⟨rfl, rfl⟩
    · rw [if_neg (Nat.not_lt.mpr hfits)]
      exact ⟨_, rfl, rfl, overlaid_putAll (lastStop_le_iff.mp hfits)⟩

/-- A store of eight bytes. -/
def eightBytes : Linear :=
  ⟨.zeros 8, 1, 0, 16⟩

/-- The value of every global is one. -/
def readsOne : GlobalReader :=
  fun _ => .ok 1

/-- Two segments with a byte between them, the second at the word that a global names. -/
def twoApart : List Segment :=
  [⟨[1, 2, 3], ⟨.const 0, 0⟩⟩, ⟨[4, 5], ⟨.global 7, 4⟩⟩]

theorem pairwise_twoApart : twoApart.Pairwise (Segment.Apart readsOne) := by
  refine List.pairwise_pair.mpr fun w w' hw hw' => Set.disjoint_left.mpr fun i hi hi' => ?_
  cases hw
  cases hw'
  have hlow : i < 3 := hi.2
  have hhigh : 4 ≤ i := hi'.1
  omega

/-- Both orders write the same five bytes. -/
theorem twoApart_all_or_nothing : twoApart.Perm twoApart.reverse ∧
    twoApart.Pairwise (Segment.Apart readsOne) ∧
      (eightBytes.after (eightBytes.apply twoApart.reverse readsOne)).bytes.slice 0 8 =
        [1, 2, 3, 0, 4, 5, 0, 0] := by
  refine ⟨twoApart.reverse_perm.symm, pairwise_twoApart, ?_⟩
  rw [(apply_all_or_nothing eightBytes twoApart readsOne).2 _ twoApart.reverse_perm.symm
    pairwise_twoApart]
  decide +kernel

end Linear

end FlatWasm
