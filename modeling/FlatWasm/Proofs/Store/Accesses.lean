import Mathlib
import FlatWasm.Proofs.Store.History

/-!
# Accesses at every offset

An access is within a store if its last byte is.  The end of an access is the sum of two numbers, and the store counts it in
words of 64 bits, so for the last few offsets the sum wraps around to a position at the front of the store.

* Where the sum is beyond the store, wrapped or not, the access is refused and the store is as before.
* Where the sum has wrapped around to a position that the store has, the access is let through to an offset that the store
  does not have.  That is a defect, and neither success nor a refusal.

There is no third way to go wrong: an access that succeeds is always within the store (`Linear.judged`).
-/

namespace FlatWasm

/-- Where a read or a write ends, as a number without bound. -/
def Request.reach? : Request → Option ℕ
  | .read offset count => some (offset.toNat + count.toNat)
  | .read32 offset => some (offset.toNat + 4)
  | .read64 offset => some (offset.toNat + 8)
  | .write offset payload => some (offset.toNat + payload.length)
  | .write32 offset _ => some (offset.toNat + 4)
  | .write64 offset _ => some (offset.toNat + 8)
  | .grow _ | .growStrict .. => none

namespace Linear

variable {s : Linear} {offset : UInt64} {count stop : ℕ} {r : Request}

/-- An end beyond the store that wraps around to a position within it. -/
def WrapsInto (s : Linear) (stop : ℕ) : Prop :=
  s.length < stop ∧ stop % 2 ^ 64 ≤ s.length

instance (s : Linear) (stop : ℕ) : Decidable (s.WrapsInto stop) :=
  inferInstanceAs (Decidable (_ ∧ _))

/-- What can be counted in words does not wrap around. -/
theorem WrapsInto.le (h : s.WrapsInto stop) : 2 ^ 64 ≤ stop := by
  by_contra hlt
  have hmod := h.2
  rw [Nat.mod_eq_of_lt (Nat.not_le.mp hlt)] at hmod
  exact Nat.not_le.mpr h.1 hmod

/-! ## Where an access is let through -/

theorem toNat_add_ofNat (offset : UInt64) (count : ℕ) :
    (offset + UInt64.ofNat count).toNat = (offset.toNat + count) % 2 ^ 64 := by
  rw [UInt64.toNat_add, UInt64.toNat_ofNat', Nat.add_mod_mod]

theorem position?_of_le (h : offset.toNat + count ≤ s.length) :
    s.position? offset count = .ok (some offset.toNat) := by
  have hword : ¬s.length < (offset + UInt64.ofNat count).toNat := by
    rw [toNat_add_ofNat]
    exact Nat.not_lt.mpr ((Nat.mod_le _ _).trans h)
  rw [position?, if_neg hword, if_neg (Nat.not_lt.mpr h)]

theorem position?_of_lt_mod (h : s.length < (offset.toNat + count) % 2 ^ 64) :
    s.position? offset count = .ok none := by
  rw [position?, toNat_add_ofNat, if_pos h]

theorem position?_of_wrapsInto (h : s.WrapsInto (offset.toNat + count)) :
    s.position? offset count = .error .outOfBounds := by
  rw [position?, toNat_add_ofNat, if_neg (Nat.not_lt.mpr h.2), if_pos h.1]

/-- What becomes of an access, by where it ends. -/
inductive Judged (s : Linear) (stop : ℕ) : Except Defect Answer → Linear → Prop
  | within {answer : Answer} {t : Linear} (hstop : stop ≤ s.length)
      (hsuccess : answer.isSuccess = true) : Judged s stop (.ok answer) t
  | beyond {answer : Answer} (hstop : s.length < stop % 2 ^ 64)
      (hfailure : answer.isSuccess = false) : Judged s stop (.ok answer) s
  | wrapped (hstop : s.WrapsInto stop) : Judged s stop (.error .outOfBounds) s

/-- An end is within the store, beyond it also as a word, or wraps around into it. -/
theorem le_or_lt_mod_or_wrapsInto (s : Linear) (stop : ℕ) :
    stop ≤ s.length ∨ s.length < stop % 2 ^ 64 ∨ s.WrapsInto stop := by
  rw [WrapsInto]
  omega

theorem judged_read {answer : Option (List UInt8) → Answer}
    (hsome : ∀ bytes, (answer (some bytes)).isSuccess = true)
    (hnone : (answer none).isSuccess = false) :
    s.Judged (offset.toNat + count) ((s.read offset count).map answer) s := by
  rw [read]
  rcases s.le_or_lt_mod_or_wrapsInto (offset.toNat + count) with hle | hlt | hwraps
  · have hbytes : s.bytesAt? offset.toNat count = some (s.bytes.slice offset.toNat count) :=
      if_pos hle
    rw [position?_of_le hle]
    refine .within hle ?_
    rw [Option.bind_some, hbytes]
    exact hsome _
  · rw [position?_of_lt_mod hlt]
    exact .beyond hlt hnone
  · rw [position?_of_wrapsInto hwraps]
    exact .wrapped hwraps

theorem judged_write (s : Linear) (offset : UInt64) (payload : List UInt8) :
    s.Judged (offset.toNat + payload.length) (s.afterWrite (s.write offset payload)).1
      (s.afterWrite (s.write offset payload)).2 := by
  rcases s.le_or_lt_mod_or_wrapsInto (offset.toNat + payload.length) with hle | hlt | hwraps
  · have hwrite : s.write offset payload = .ok (some (s.put offset.toNat payload)) := by
      rw [write, position?_of_le hle]
      exact congrArg Except.ok (if_pos hle)
    rw [hwrite]
    exact .within hle rfl
  · rw [write, position?_of_lt_mod hlt]
    exact .beyond hlt rfl
  · rw [write, position?_of_wrapsInto hwraps]
    exact .wrapped hwraps

/-- **What becomes of every access**: it is within the store and succeeds, or it is refused, or its end wraps around. -/
theorem judged (s : Linear) (h : r.reach? = some stop) :
    s.Judged stop (s.serve r).1 (s.serve r).2 := by
  cases r with
  | grow | growStrict => cases h
  | read offset count =>
    cases h
    exact judged_read (fun _ => rfl) rfl
  | read32 offset =>
    cases h
    have hread : (s.read32 offset).map Answer.word32 = (s.read offset 4).map fun found =>
        .word32 (found.map fun bytes => UInt32.ofNat (ofLittleEndian bytes)) := by
      rw [read32]
      cases s.read offset 4 <;> rfl
    rw [serve, hread]
    exact judged_read (fun _ => rfl) rfl
  | read64 offset =>
    cases h
    have hread : (s.read64 offset).map Answer.word64 = (s.read offset 8).map fun found =>
        .word64 (found.map fun bytes => UInt64.ofNat (ofLittleEndian bytes)) := by
      rw [read64]
      cases s.read offset 8 <;> rfl
    rw [serve, hread]
    exact judged_read (fun _ => rfl) rfl
  | write offset payload =>
    cases h
    exact s.judged_write offset payload
  | write32 offset v =>
    cases h
    exact s.judged_write offset (word32 v)
  | write64 offset v =>
    cases h
    exact s.judged_write offset (word64 v)

/-! ## The bounds check -/

/-- **When an access is judged rightly.**  Success means that the access is within the store, and an access that is not
leaves the store as it was.  It is refused as it should be, unless its end wraps around into the store.  Then, and only then,
it is a defect, and it takes an end that is too great for a word. -/
theorem access_right_unless_wraps (s : Linear) (h : r.reach? = some stop) :
    (Answer.succeeded (s.serve r).1 = true ↔ stop ≤ s.length) ∧
      (s.length < stop → (s.serve r).2 = s) ∧
      ((∃ answer, (s.serve r).1 = .ok answer) ↔ ¬s.WrapsInto stop) ∧
      (s.WrapsInto stop → 2 ^ 64 ≤ stop ∧ (s.serve r).1 = .error .outOfBounds) := by
  have hjudged := s.judged h
  generalize (s.serve r).1 = outcome at hjudged ⊢
  generalize (s.serve r).2 = t at hjudged ⊢
  cases hjudged with
  | @within answer t hstop hsuccess =>
    have hno : ¬s.WrapsInto stop := fun hwraps => Nat.not_le.mpr hwraps.1 hstop
    refine ⟨iff_of_true hsuccess hstop, fun hlt => absurd hstop (Nat.not_le.mpr hlt), ?_, ?_⟩
    · exact iff_of_true ⟨answer, rfl⟩ hno
    · exact fun hwraps => absurd hwraps hno
  | @beyond answer hstop hfailure =>
    have hlt : s.length < stop := hstop.trans_le (Nat.mod_le _ _)
    have hno : ¬s.WrapsInto stop := fun hwraps => Nat.not_le.mpr hstop hwraps.2
    refine ⟨iff_of_false (fun h => ?_) (Nat.not_le.mpr hlt), fun _ => rfl, ?_, ?_⟩
    · cases h.symm.trans hfailure
    · exact iff_of_true ⟨answer, rfl⟩ hno
    · exact fun hwraps => absurd hwraps hno
  | wrapped hwraps =>
    refine ⟨iff_of_false (fun h => ?_) (Nat.not_le.mpr hwraps.1), fun _ => rfl, ?_, ?_⟩
    · cases h
    · refine iff_of_false ?_ (not_not_intro hwraps)
      rintro ⟨answer, h⟩
      cases h
    · exact fun _ => ⟨hwraps.le, rfl⟩

/-- An end that wraps around to a position which is itself beyond the store is refused. -/
theorem eightBytes_refuses : Request.reach? (.read 0xFFFFFFFFFFFFFFFF 10) = some (2 ^ 64 + 9) ∧
    ∃ answer, (eightBytes.serve (.read 0xFFFFFFFFFFFFFFFF 10)).1 = .ok answer :=
  ⟨rfl, (eightBytes.access_right_unless_wraps rfl).2.2.1.mpr (by decide)⟩

/-- Each kind of access, at the last offset that there is. -/
def atLastOffset : List Request :=
  [.read32 0xFFFFFFFFFFFFFFFF, .read64 0xFFFFFFFFFFFFFFFF, .read 0xFFFFFFFFFFFFFFFF 1,
    .write32 0xFFFFFFFFFFFFFFFF 1, .write64 0xFFFFFFFFFFFFFFFF 1, .write 0xFFFFFFFFFFFFFFFF [1]]

/-- **No kind of access is refused at the last offset.** -/
theorem eightBytes_does_not_refuse : eightBytes.length = 8 ∧
    atLastOffset.map Request.reach? = [some (2 ^ 64 + 3), some (2 ^ 64 + 7), some (2 ^ 64),
      some (2 ^ 64 + 3), some (2 ^ 64 + 7), some (2 ^ 64)] ∧
    atLastOffset.map eightBytes.serve = List.replicate 6 (.error .outOfBounds, eightBytes) := by
  refine ⟨rfl, by decide, by decide⟩

end Linear

end FlatWasm
