import Mathlib
import FlatWasm.Proofs.LittleEndian
import FlatWasm.Proofs.Store.Writing

/-!
# What a store remembers

A store is asked to grow, to write and to read, in any order.  Of all that it has to remember two things: how many units it
has come to, and what was written where.

* `Linear.served`: a request leaves the store alone, brings it to a size within its bounds, or lays bytes over it; the last two
  are reported as success.
* `Linear.Remembers`: the store is a number of units within its bounds, or none, and every byte is the last that was written
  there, or zero.  A store without bytes is like that, every request keeps it so (`Remembers.serve`), and so do any number of
  them (`Remembers.run`).
* `Linear.Holds`: what the next request meets, in terms of the number of units and of what was written, without a word about
  how bytes are kept.

## What cannot be promised

The bounds are numbers of units, and units can be so long that no machine addresses as many bytes.  To ask for them is a defect
and not an answer, and the store is left as it was (`serve_grow_eq_error_iff`).  So growth within the bounds is promised up to
`Linear.maxLength` (`serve_grow_eq_grown_iff`).
-/

namespace FlatWasm

/-! ## Requests -/

/-- What can be asked of a store. -/
inductive Request where
  | grow (units : UInt32)
  | growStrict (units : UInt32) (allowNoChange : Bool)
  | write (offset : UInt64) (payload : List UInt8)
  | write32 (offset : UInt64) (v : UInt32)
  | write64 (offset : UInt64) (v : UInt64)
  | read (offset : UInt64) (count : UInt32)
  | read32 (offset : UInt64)
  | read64 (offset : UInt64)
deriving DecidableEq, Repr

/-- What a store answers. -/
inductive Answer where
  | growth (result : GrowResult)
  | grownStrictly
  | refused (cause : BoundsError)
  | written (fits : Bool)
  | bytes (found : Option (List UInt8))
  | word32 (found : Option UInt32)
  | word64 (found : Option UInt64)
deriving DecidableEq, Repr

namespace Answer

/-- Whether an answer reports success. -/
def isSuccess : Answer → Bool
  | .growth result => result = .grown
  | .grownStrictly => true
  | .refused _ => false
  | .written fits => fits
  | .bytes found => found.isSome
  | .word32 found => found.isSome
  | .word64 found => found.isSome

/-- Whether an outcome reports success; a defect does not. -/
def succeeded : Except Defect Answer → Bool
  | .ok answer => answer.isSuccess
  | .error _ => false

end Answer

namespace Request

/-- What a request writes if it succeeds. -/
def placed? : Request → Option Placed
  | .write offset payload => some ⟨offset.toNat, payload⟩
  | .write32 offset v => some ⟨offset.toNat, word32 v⟩
  | .write64 offset v => some ⟨offset.toNat, word64 v⟩
  | .grow _ | .growStrict .. | .read .. | .read32 _ | .read64 _ => none

/-- What a request has written, by its outcome. -/
def written (r : Request) (outcome : Except Defect Answer) : List Placed :=
  if Answer.succeeded outcome then r.placed?.toList else []

theorem written_of_placed?_eq_none {r : Request} (h : r.placed? = none)
    (outcome : Except Defect Answer) : r.written outcome = [] := by
  rw [written, h]
  exact ite_self _

end Request

namespace Linear

/-- The outcome of growth, and the store after it. -/
def afterGrow (s : Linear) : Except Defect (GrowResult × Linear) → Except Defect Answer × Linear
  | .ok (result, t) => (.ok (.growth result), t)
  | .error d => (.error d, s)

/-- The same for growth that has to succeed. -/
def afterGrowStrict (s : Linear) :
    Except (Failure BoundsError) Linear → Except Defect Answer × Linear
  | .ok t => (.ok .grownStrictly, t)
  | .error (.error cause) => (.ok (.refused cause), s)
  | .error (.defect d) => (.error d, s)

/-- The same for a write. -/
def afterWrite (s : Linear) : Except Defect (Option Linear) → Except Defect Answer × Linear
  | .ok (some t) => (.ok (.written true), t)
  | .ok none => (.ok (.written false), s)
  | .error d => (.error d, s)

/-- Serves a request: the outcome, and the store after it.  A defect ends the request and nothing else. -/
def serve (s : Linear) : Request → Except Defect Answer × Linear
  | .grow units => s.afterGrow (s.grow units)
  | .growStrict units allowNoChange => s.afterGrowStrict (s.growStrict units allowNoChange)
  | .write offset payload => s.afterWrite (s.write offset payload)
  | .write32 offset v => s.afterWrite (s.write32 offset v)
  | .write64 offset v => s.afterWrite (s.write64 offset v)
  | .read offset count => ((s.read offset count.toNat).map .bytes, s)
  | .read32 offset => ((s.read32 offset).map .word32, s)
  | .read64 offset => ((s.read64 offset).map .word64, s)

/-- The store after some requests, and what they have written, in order. -/
def run (s : Linear) : List Request → Linear × List Placed
  | [] => (s, [])
  | r :: rs =>
    let rest := (s.serve r).2.run rs
    (rest.1, r.written (s.serve r).1 ++ rest.2)

variable {s t : Linear} {placed : List Placed} {offset : UInt64}

/-! ## Offsets -/

/-- Where the end can be counted in words, there is no defect. -/
theorem position?_of_lt {count : ℕ} (h : offset.toNat + count < 2 ^ 64) :
    s.position? offset count =
      .ok (if offset.toNat + count ≤ s.length then some offset.toNat else none) := by
  have hcount : (UInt64.ofNat count).toNat = count :=
    UInt64.toNat_ofNat_of_lt' (Nat.lt_of_le_of_lt (Nat.le_add_left _ _) h)
  have hsum : (offset + UInt64.ofNat count).toNat = offset.toNat + count := by
    rw [UInt64.toNat_add, hcount, Nat.mod_eq_of_lt h]
  rw [position?, hsum]
  by_cases hle : offset.toNat + count ≤ s.length
  · rw [if_neg (Nat.not_lt.mpr hle), if_neg (Nat.not_lt.mpr hle), if_pos hle]
  · rw [if_pos (Nat.not_le.mp hle), if_neg hle]

theorem read_of_lt {count : ℕ} (h : offset.toNat + count < 2 ^ 64) :
    s.read offset count = .ok (if offset.toNat + count ≤ s.length then
      some (s.bytes.slice offset.toNat count) else none) := by
  rw [read, position?_of_lt h]
  split
  next hle => exact congrArg Except.ok (if_pos hle)
  next => rfl

theorem write_of_lt {payload : List UInt8} (h : offset.toNat + payload.length < 2 ^ 64) :
    s.write offset payload = .ok (if offset.toNat + payload.length ≤ s.length then
      some (s.put offset.toNat payload) else none) := by
  rw [write, position?_of_lt h]
  split
  next hle => exact congrArg Except.ok (if_pos hle)
  next => rfl

/-- What is written fits, also where the end cannot be counted in words. -/
theorem write_cases {payload : List UInt8} (h : s.write offset payload = .ok (some t)) :
    offset.toNat + payload.length ≤ s.length ∧ t = s.put offset.toNat payload := by
  obtain ⟨o, hposition, h⟩ := Except.bind_eq_ok_iff.mp h
  obtain ⟨position, rfl, hput⟩ := Option.bind_eq_some_iff.mp (Except.ok.inj h)
  obtain rfl : offset.toNat = position := by
    rw [position?] at hposition
    split at hposition
    · cases hposition
    split at hposition
    · cases hposition
    · cases hposition
      rfl
  rw [put?] at hput
  split at hput
  next hle =>
    cases hput
    exact ⟨hle, rfl⟩
  next => cases hput

/-! ## One request -/

/-- What becomes of a store that serves a request. -/
inductive Served (s : Linear) (r : Request) : Except Defect Answer → Linear → Prop
  | unchanged {outcome : Except Defect Answer} (hwritten : r.written outcome = []) :
      Served s r outcome s
  | grown {outcome : Except Defect Answer} {units : UInt32} (hsuccess : Answer.succeeded outcome)
      (hplaced : r.placed? = none) (hmin : s.min ≤ units) (hmax : units ≤ s.max)
      (hlength : s.length ≤ units.toNat * s.unit.toNat) :
      Served s r outcome (s.extend (units.toNat * s.unit.toNat))
  | overlaid {outcome : Except Defect Answer} {w : Placed} (hsuccess : Answer.succeeded outcome)
      (hplaced : r.placed? = some w) (hfits : w.stop ≤ s.length) :
      Served s r outcome (s.put w.position w.payload)

/-- Growth that has to succeed does so by growing, or without a change where that is allowed. -/
theorem growStrict_cases {units : UInt32} {allowNoChange : Bool}
    (h : s.growStrict units allowNoChange = .ok t) :
    s.grow units = .ok (.grown, t) ∨ s.grow units = .ok (.noChange, t) := by
  obtain ⟨⟨result, s'⟩, hgrow, h⟩ := Except.bind_eq_ok_iff.mp h
  have hgrow' := Except.mapError_eq_ok_iff.mp hgrow
  cases result with
  | grown =>
    cases h
    exact .inl hgrow'
  | noChange | tooLarge | tooSmall =>
    dsimp only at h
    split at h
    next hnone =>
      cases h
      exact .inr (hnone.1 ▸ hgrow')
    next => cases h

theorem served_write {r : Request} {payload : List UInt8}
    (hr : r.placed? = some ⟨offset.toNat, payload⟩) :
    s.Served r (s.afterWrite (s.write offset payload)).1 (s.afterWrite (s.write offset payload)).2 := by
  rcases hwrite : s.write offset payload with d | _ | t
  · exact .unchanged rfl
  · exact .unchanged rfl
  · obtain ⟨hfits, rfl⟩ := write_cases hwrite
    exact .overlaid rfl hr hfits

/-- **What a request does to a store**: nothing, or what it reports as success. -/
theorem served (s : Linear) (r : Request) : s.Served r (s.serve r).1 (s.serve r).2 := by
  cases r with
  | grow units =>
    rw [serve]
    rcases hgrow : s.grow units with d | ⟨result, t⟩
    · exact .unchanged rfl
    · rcases grow_cases hgrow with ⟨-, rfl⟩ | ⟨rfl, rfl, hmin, hmax, hlength⟩
      · exact .unchanged (Request.written_of_placed?_eq_none rfl _)
      · exact .grown rfl rfl hmin hmax hlength
  | growStrict units allowNoChange =>
    rw [serve]
    rcases hgrow : s.growStrict units allowNoChange with (cause | d) | t
    · exact .unchanged rfl
    · exact .unchanged rfl
    · rcases growStrict_cases hgrow with h | h
      · rcases grow_cases h with ⟨hne, -⟩ | ⟨-, rfl, hmin, hmax, hlength⟩
        · exact absurd rfl hne
        · exact .grown rfl rfl hmin hmax hlength
      · rcases grow_cases h with ⟨-, rfl⟩ | ⟨hgrown, -⟩
        · exact .unchanged (Request.written_of_placed?_eq_none rfl _)
        · cases hgrown
  | write offset payload => exact served_write rfl
  | write32 offset v => exact served_write rfl
  | write64 offset v => exact served_write rfl
  | read | read32 | read64 => exact .unchanged (Request.written_of_placed?_eq_none rfl _)

variable {r : Request} {outcome : Except Defect Answer}

theorem Served.evolves (h : s.Served r outcome t) : s.Evolves t := by
  cases h with
  | unchanged => exact .refl _
  | grown hsuccess hplaced hmin hmax hlength =>
    have hextend := length_extend hlength
    exact ⟨rfl, rfl, rfl, hlength.trans hextend.ge, fun _ => ⟨_, hextend,
      UInt32.le_iff_toNat_le.mp hmin, UInt32.le_iff_toNat_le.mp hmax⟩⟩
  | overlaid => exact s.evolves_put _ _

/-- Only success changes a store. -/
theorem Served.eq_of_not_succeeded (h : s.Served r outcome t)
    (hfail : Answer.succeeded outcome = false) : t = s := by
  cases h with
  | unchanged => rfl
  | grown hsuccess => exact absurd (hsuccess.symm.trans hfail) (by decide)
  | overlaid hsuccess => exact absurd (hsuccess.symm.trans hfail) (by decide)

/-! ## What is remembered -/

/-- A number of units within the bounds, or none, of the last bytes that were written, and zeros. -/
structure Remembers (s : Linear) (placed : List Placed) : Prop where
  size : ∃ n : UInt32, s.length = n.toNat * s.unit.toNat ∧ (n = 0 ∨ s.min ≤ n ∧ n ≤ s.max)
  byte : ∀ i, s.bytes.byte i = (lastWritten? placed i).getD 0

theorem remembers_zeros (unit min max : UInt32) : Remembers ⟨.zeros 0, unit, min, max⟩ [] :=
  ⟨⟨0, (Nat.zero_mul _).symm, .inl rfl⟩, fun i => Sparse.byte_zeros 0 i⟩

/-- **A request keeps what is remembered**, with what it has written. -/
theorem Remembers.serve (h : s.Remembers placed) (hserved : s.Served r outcome t) :
    t.Remembers (placed ++ r.written outcome) := by
  cases hserved with
  | unchanged hwritten => rwa [hwritten, List.append_nil]
  | @grown units hsuccess hplaced hmin hmax hlength =>
    rw [Request.written_of_placed?_eq_none hplaced, List.append_nil]
    exact ⟨⟨units, length_extend hlength, .inr ⟨hmin, hmax⟩⟩, h.byte⟩
  | @overlaid w hsuccess hplaced hfits =>
    have hwritten : r.written outcome = [w] := by
      rw [Request.written, hsuccess, hplaced]
      rfl
    obtain ⟨n, hn, hbounds⟩ := h.size
    refine ⟨⟨n, (s.length_put _ _).trans hn, hbounds⟩, fun i => ?_⟩
    have hbyte : (s.put w.position w.payload).bytes.byte i = (w.byte? i).getD (s.bytes.byte i) :=
      Sparse.byte_overwrite hfits i
    rw [hbyte, h.byte, hwritten, lastWritten?_concat, Option.getD_or]

theorem Remembers.run (h : s.Remembers placed) (requests : List Request) :
    (s.run requests).1.Remembers (placed ++ (s.run requests).2) := by
  induction requests generalizing s placed with
  | nil => rwa [Linear.run, List.append_nil]
  | cons r requests ih =>
    rw [Linear.run, ← List.append_assoc]
    exact ih (h.serve (s.served r))

theorem evolves_run (s : Linear) (requests : List Request) : s.Evolves (s.run requests).1 := by
  induction requests generalizing s with
  | nil => exact .refl s
  | cons r requests ih => exact (s.served r).evolves.trans (ih _)

/-! ## What the next request meets -/

theorem size_of_length {n : UInt32} (hunit : s.unit ≠ 0) (h : s.length = n.toNat * s.unit.toNat) :
    s.size = .ok n := by
  have hpos : 0 < s.unit.toNat := toNat_pos hunit
  rw [size, if_neg hunit, h, Nat.mul_div_cancel _ hpos, UInt32.ofNat_toNat]

/-- The bounds of a store allow it to come from a number of units to another. -/
def Allows (s : Linear) (n units : UInt32) : Prop :=
  s.min ≤ units ∧ units ≤ s.max ∧ n ≤ units ∧ units ≠ 0

section Growth

variable {n units : UInt32}

theorem grow_of_allows (hn : s.length = n.toNat * s.unit.toNat) (h : s.Allows n units) :
    s.grow units = if maxLength < units.toNat * s.unit.toNat then .error .unaddressable
      else .ok (.grown, s.extend (units.toNat * s.unit.toNat)) := by
  obtain ⟨hmin, hmax, hle, hne⟩ := h
  have hlength : ¬units.toNat * s.unit.toNat < s.length := by
    rw [hn]
    exact Nat.not_lt.mpr (Nat.mul_le_mul_right _ (UInt32.le_iff_toNat_le.mp hle))
  rw [grow, if_neg (UInt32.not_lt.mpr hmax), if_neg hlength, if_neg (fun h => hne h.1),
    if_neg (UInt32.not_lt.mpr hmin)]

/-- What the bounds do not allow is answered without a change. -/
theorem grow_of_not_allows (hunit : s.unit ≠ 0) (hn : s.length = n.toNat * s.unit.toNat)
    (h : ¬s.Allows n units) : ∃ result, result ≠ .grown ∧ s.grow units = .ok (result, s) := by
  have hpos : 0 < s.unit.toNat := toNat_pos hunit
  rw [grow]
  by_cases hmax : s.max < units
  · exact ⟨.tooLarge, by decide, if_pos hmax⟩
  by_cases hlength : units.toNat * s.unit.toNat < s.length
  · exact ⟨.tooSmall, by decide, by rw [if_neg hmax, if_pos hlength]⟩
  by_cases hnone : units = 0 ∧ s.length = 0
  · exact ⟨.noChange, by decide, by rw [if_neg hmax, if_neg hlength, if_pos hnone]⟩
  by_cases hmin : units < s.min
  · exact ⟨.tooSmall, by decide, by rw [if_neg hmax, if_neg hlength, if_neg hnone, if_pos hmin]⟩
  -- what is left would be allowed: no units at all are fewer than there are, unless there are none
  have hle : n ≤ units := by
    rw [UInt32.le_iff_toNat_le]
    exact Nat.le_of_mul_le_mul_right (hn ▸ Nat.not_lt.mp hlength) hpos
  refine absurd ⟨UInt32.not_lt.mp hmin, UInt32.not_lt.mp hmax, hle, fun hzero => ?_⟩ h
  subst hzero
  refine hnone ⟨rfl, ?_⟩
  rw [UInt32.toNat_zero, Nat.zero_mul] at hlength
  omega

/-- **When a store grows.** -/
theorem serve_grow_eq_grown_iff (hunit : s.unit ≠ 0) (hn : s.length = n.toNat * s.unit.toNat) :
    (s.serve (.grow units)).1 = .ok (.growth .grown) ↔
      s.Allows n units ∧ units.toNat * s.unit.toNat ≤ maxLength := by
  rw [serve]
  by_cases hallows : s.Allows n units
  · rw [grow_of_allows hn hallows]
    by_cases hmax : maxLength < units.toNat * s.unit.toNat
    · simp [afterGrow, hmax]
    · simp [afterGrow, hmax, hallows, Nat.not_lt.mp hmax]
  · obtain ⟨result, hne, hgrow⟩ := grow_of_not_allows hunit hn hallows
    simp [afterGrow, hgrow, hne, hallows]

/-- **When growth is a defect.** -/
theorem serve_grow_eq_error_iff (hunit : s.unit ≠ 0) (hn : s.length = n.toNat * s.unit.toNat)
    {d : Defect} : (s.serve (.grow units)).1 = .error d ↔
      (s.Allows n units ∧ maxLength < units.toNat * s.unit.toNat) ∧ d = .unaddressable := by
  rw [serve]
  by_cases hallows : s.Allows n units
  · rw [grow_of_allows hn hallows]
    by_cases hmax : maxLength < units.toNat * s.unit.toNat
    · simp [afterGrow, hmax, hallows, eq_comm]
    · simp [afterGrow, hmax]
  · obtain ⟨result, -, hgrow⟩ := grow_of_not_allows hunit hn hallows
    simp [afterGrow, hgrow, hallows]

/-- Growth brings a store to the size that was asked for. -/
theorem size_serve_grow (hunit : s.unit ≠ 0)
    (h : (s.serve (.grow units)).1 = .ok (.growth .grown)) :
    (s.serve (.grow units)).2.size = .ok units := by
  rw [serve] at h ⊢
  rcases hgrow : s.grow units with d | ⟨result, t⟩
  · rw [hgrow] at h
    cases h
  · rw [hgrow] at h
    cases h
    rcases grow_cases hgrow with ⟨hne, -⟩ | ⟨-, rfl, -, -, hlength⟩
    · exact absurd rfl hne
    · exact size_of_length hunit (length_extend hlength)

end Growth

end Linear

/-- Some bytes of zeros that were written over. -/
def remembered (placed : List Placed) (position count : ℕ) : List UInt8 :=
  (List.range' position count).map fun i => (lastWritten? placed i).getD 0

@[simp] theorem length_remembered (placed : List Placed) (position count : ℕ) :
    (remembered placed position count).length = count := by
  simp [remembered]

namespace Linear

variable {s t : Linear} {placed : List Placed} {offset : UInt64}

/-- **Reading finds what was written last.** -/
theorem Remembers.read_eq (h : s.Remembers placed) {count : ℕ}
    (hlt : offset.toNat + count < 2 ^ 64) :
    s.read offset count = .ok (if offset.toNat + count ≤ s.length then
      some (remembered placed offset.toNat count) else none) := by
  have hslice : s.bytes.slice offset.toNat count = remembered placed offset.toNat count :=
    List.map_congr_left fun i _ => h.byte i
  rw [read_of_lt hlt, hslice]

/-- A store of some units, over which some bytes were written, as the next request meets it. -/
structure Holds (s : Linear) (n : UInt32) (placed : List Placed) : Prop where
  size : s.size = .ok n
  length : s.length = n.toNat * s.unit.toNat
  inBounds : n = 0 ∨ s.min ≤ n ∧ n ≤ s.max
  /-- Only success changes a store. -/
  unchanged : ∀ r, Answer.succeeded (s.serve r).1 = false → (s.serve r).2 = s
  /-- It never gets smaller. -/
  mono : ∀ r, ∃ n', (s.serve r).2.size = .ok n' ∧ n ≤ n'
  /-- It grows as its bounds allow. -/
  grown : ∀ units, (s.serve (.grow units)).1 = .ok (.growth .grown) ↔
    s.Allows n units ∧ units.toNat * s.unit.toNat ≤ maxLength
  size_of_grown : ∀ units, (s.serve (.grow units)).1 = .ok (.growth .grown) →
    (s.serve (.grow units)).2.size = .ok units
  /-- Not what cannot be addressed, though. -/
  unaddressable : ∀ units d, (s.serve (.grow units)).1 = .error d ↔
    (s.Allows n units ∧ maxLength < units.toNat * s.unit.toNat) ∧ d = .unaddressable
  /-- It takes what fits. -/
  write : ∀ r w, r.placed? = some w → w.stop < 2 ^ 64 →
    (s.serve r).1 = .ok (.written (w.stop ≤ s.length))
  /-- Every byte is the last that was written there, or zero. -/
  read : ∀ (offset : UInt64) (count : UInt32), offset.toNat + count.toNat < 2 ^ 64 →
    (s.serve (.read offset count)).1 = .ok (.bytes (if offset.toNat + count.toNat ≤ s.length then
      some (remembered placed offset.toNat count.toNat) else none))
  /-- Words are these bytes, the lowest first. -/
  read32 : ∀ offset : UInt64, offset.toNat + 4 < 2 ^ 64 →
    ∃ v, word32 v = remembered placed offset.toNat 4 ∧
      (s.serve (.read32 offset)).1 = .ok (.word32 (if offset.toNat + 4 ≤ s.length then some v else none))
  read64 : ∀ offset : UInt64, offset.toNat + 8 < 2 ^ 64 →
    ∃ v, word64 v = remembered placed offset.toNat 8 ∧
      (s.serve (.read64 offset)).1 = .ok (.word64 (if offset.toNat + 8 ≤ s.length then some v else none))

/-- A write is taken if it fits. -/
theorem serve_of_placed? {r : Request} {w : Placed} (hr : r.placed? = some w)
    (hlt : w.stop < 2 ^ 64) : (s.serve r).1 = .ok (.written (w.stop ≤ s.length)) := by
  have hwrite : ∀ (offset : UInt64) (payload : List UInt8),
      offset.toNat + payload.length < 2 ^ 64 →
        (s.afterWrite (s.write offset payload)).1 =
          .ok (.written (offset.toNat + payload.length ≤ s.length)) := by
    intro offset payload hlt
    rw [write_of_lt hlt]
    by_cases hle : offset.toNat + payload.length ≤ s.length <;> simp [afterWrite, hle]
  cases r with
  | write offset payload | write32 offset v | write64 offset v =>
    cases hr
    exact hwrite offset _ hlt
  | grow | growStrict | read | read32 | read64 => cases hr

theorem Remembers.mono (h : s.Remembers placed) (hunit : s.unit ≠ 0) {n : UInt32}
    (hn : s.length = n.toNat * s.unit.toNat) (r : Request) :
    ∃ n', (s.serve r).2.size = .ok n' ∧ n ≤ n' := by
  have hevolves := (s.served r).evolves
  obtain ⟨n', hn', -⟩ := (h.serve (s.served r)).size
  refine ⟨n', size_of_length (hevolves.unit ▸ hunit) hn', ?_⟩
  have hpos : 0 < s.unit.toNat := toNat_pos hunit
  have hlength := hevolves.length
  rw [hn, hn', hevolves.unit] at hlength
  exact UInt32.le_iff_toNat_le.mpr (Nat.le_of_mul_le_mul_right hlength hpos)

theorem Remembers.exists_holds (h : s.Remembers placed) (hunit : s.unit ≠ 0) :
    ∃ n, s.Holds n placed := by
  obtain ⟨n, hn, hbounds⟩ := h.size
  refine ⟨n, ?_⟩
  exact {
    size := size_of_length hunit hn
    length := hn
    inBounds := hbounds
    unchanged := fun r => (s.served r).eq_of_not_succeeded
    mono := h.mono hunit hn
    grown := fun _ => serve_grow_eq_grown_iff hunit hn
    size_of_grown := fun _ => size_serve_grow hunit
    unaddressable := fun _ _ => serve_grow_eq_error_iff hunit hn
    write := fun _ _ => serve_of_placed?
    read := by
      intro offset count hlt
      rw [Linear.serve, h.read_eq hlt]
      rfl
    read32 := by
      intro offset hlt
      refine ⟨_, word32_ofLittleEndian (length_remembered placed offset.toNat 4), ?_⟩
      rw [Linear.serve, Linear.read32, h.read_eq hlt]
      split <;> rfl
    read64 := by
      intro offset hlt
      refine ⟨_, word64_ofLittleEndian (length_remembered placed offset.toNat 8), ?_⟩
      rw [Linear.serve, Linear.read64, h.read_eq hlt]
      split <;> rfl }

/-- **A store is bytes that grow, and remembers what was written.**  Whatever was asked of a store that began without bytes, it
is a number of units within its bounds, or none.  It never gets smaller and is changed by success only.  It grows exactly to
what its bounds allow and can be addressed.  Every byte is the last that was written there, or zero, however often the store
has grown since, and words are these bytes, the lowest first. -/
theorem holds_what_was_written {unit min max : UInt32} (hunit : unit ≠ 0) {requests : List Request}
    (hrun : run ⟨.zeros 0, unit, min, max⟩ requests = (s, placed)) :
    (s.unit = unit ∧ s.min = min ∧ s.max = max) ∧ ∃ n, s.Holds n placed := by
  have hevolves := evolves_run ⟨.zeros 0, unit, min, max⟩ requests
  have hremembers := (remembers_zeros unit min max).run requests
  rw [hrun] at hevolves hremembers
  exact ⟨⟨hevolves.unit, hevolves.min, hevolves.max⟩,
    hremembers.exists_holds (hevolves.unit.trans_ne hunit)⟩

/-- A word before there is room for it, the word again, more room, and bytes across its end. -/
def grownBetween : Linear × List Placed :=
  run ⟨.zeros 0, 4, 1, 3⟩
    [.write32 0 1, .grow 1, .write32 0 0x04030201, .grow 5, .grow 3, .write 2 [8, 9, 10], .grow 2]

/-- The word that fitted is found, as far as it was not written over. -/
theorem grownBetween_holds : (4 : UInt32) ≠ 0 ∧ (grownBetween.1.serve (.read 0 7)).1 =
    .ok (.bytes (some [1, 2, 8, 9, 10, 0, 0])) := by
  have hunit : (4 : UInt32) ≠ 0 := by decide
  have hrun : grownBetween = (grownBetween.1, grownBetween.2) := rfl
  obtain ⟨-, n, hn⟩ := holds_what_was_written hunit hrun
  refine ⟨hunit, (hn.read 0 7 (by decide)).trans ?_⟩
  decide +kernel

/-- Units of almost four gigabytes, and as many of them as can be counted. -/
def vast : Linear :=
  ⟨.zeros 0, 0xFFFFFFFF, 0, 0xFFFFFFFF⟩

/-- **Not all that the bounds allow can be reached.** -/
theorem vast_not_grown : vast.size = .ok 0 ∧ vast.Allows 0 0xFFFFFFFF ∧
    (vast.serve (.grow 0xFFFFFFFF)).1 = .error .unaddressable := by
  refine ⟨by decide, ?_, by decide +kernel⟩
  exact ⟨by decide, by decide, by decide, by decide⟩

end Linear

end FlatWasm
