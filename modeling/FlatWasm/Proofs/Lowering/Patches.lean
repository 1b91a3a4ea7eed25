import Mathlib
import FlatWasm.Proofs.Lowering.Pending

/-!
# Where the targets stand in the bytes

A slot names a target by its instruction and its entry.  In the bytes of the code a target takes four bytes, and where they
start is told by the instructions in front of it and by the shape of its own instruction: `Code.patchOffset`.  These bytes are
inside of the code, and they are those of the target (`HasSlot.isWritten`).
-/

namespace FlatWasm.Flat

theorem flatMap_split {α β : Type} {as : List α} {k : ℕ} {a : α} (h : as[k]? = some a)
    (f : α → List β) :
    as.flatMap f = (as.take k).flatMap f ++ f a ++ (as.drop (k + 1)).flatMap f := by
  obtain ⟨hk, rfl⟩ := List.getElem?_eq_some_iff.mp h
  conv => lhs; rw [← List.take_append_drop k as, List.drop_eq_getElem_cons hk]
  rw [List.flatMap_append, List.flatMap_cons, List.append_assoc]

namespace Instr

/-- Where a target starts among the bytes of its instruction. -/
def targetOffset : Instr → (entry : ℕ) → ℕ
  | .br .., _ | .brIf .., _ => 9
  | .brTable .., entry => 13 + 8 * entry
  | _, _ => 1

/-- The entries of a table take eight bytes each, and end with the target. -/
theorem exists_split_flatMap_encodeEntry {es : List Entry} {k : ℕ} {e : Entry}
    (h : es[k]? = some e) : ∃ init tail, es.flatMap encodeEntry = init ++ word32 e.target ++ tail ∧
      init.length = 8 * k + 4 := by
  have hk := (List.getElem?_eq_some_iff.mp h).1
  refine ⟨(es.take k).flatMap encodeEntry ++ word32 e.drop,
    (es.drop (k + 1)).flatMap encodeEntry, ?_, ?_⟩
  · rw [flatMap_split h]
    simp only [encodeEntry, List.append_assoc]
  · rw [List.length_append, length_flatMap_encodeEntry, List.length_take_of_le hk.le, length_word32]

theorem exists_split_encode {i : Instr} {entry : ℕ} {t : UInt32} (h : i.targets[entry]? = some t) :
    ∃ init tail, i.encode = init ++ word32 t ++ tail ∧ init.length = i.targetOffset entry := by
  cases i with
  | jump v | jumpIf v | jumpUnless v =>
    obtain rfl := List.mem_singleton.mp (List.mem_of_getElem? h)
    exact ⟨[_], [], (List.append_nil _).symm, rfl⟩
  | br keep dropped v | brIf keep dropped v =>
    obtain rfl := List.mem_singleton.mp (List.mem_of_getElem? h)
    exact ⟨_ :: (word32 keep ++ word32 dropped), [], (List.append_nil _).symm, rfl⟩
  | brTable keep entries fallback =>
    rw [targets, List.getElem?_map] at h
    obtain ⟨e, he, rfl⟩ := Option.map_eq_some_iff.mp h
    obtain ⟨init, tail, hsplit, hlength⟩ := exists_split_flatMap_encodeEntry he
    rw [List.flatMap_append, List.flatMap_singleton] at hsplit
    refine ⟨opcode (.brTable keep entries fallback) :: (word32 keep ++
      word32 (UInt32.ofNat entries.length) ++ init), tail, ?_, ?_⟩
    · rw [encode, encodeImmediates, List.append_assoc (word32 keep ++ _), hsplit]
      simp only [List.cons_append, List.append_assoc]
    · simp only [List.length_cons, List.length_append, length_word32, hlength, targetOffset]
      omega
  | _ => cases h

end Instr

namespace Code

variable {c : Code} {σ : Slot}

/-- Where the target of a slot starts among the bytes of the code. -/
def patchOffset (c : Code) (σ : Slot) : ℕ :=
  (Flat.encode (c.list.take σ.position)).length +
    c.list[σ.position]?.elim 0 fun i => i.targetOffset σ.entry

/-- The four bytes of a slot are inside of the code, and hold its target. -/
structure IsWritten (c : Code) (σ : Slot) : Prop where
  inside : c.patchOffset σ + 4 ≤ c.size
  target : ∃ t, c.target? σ = some t ∧ (c.bytes.drop (c.patchOffset σ)).take 4 = word32 t

theorem exists_split_bytes {t : UInt32} (h : c.target? σ = some t) :
    ∃ init tail, c.bytes = init ++ word32 t ++ tail ∧ init.length = c.patchOffset σ := by
  rw [target?] at h
  obtain ⟨i, hi, ht⟩ := Option.bind_eq_some_iff.mp h
  obtain ⟨init, tail, hsplit, hlength⟩ := Instr.exists_split_encode ht
  refine ⟨Flat.encode (c.list.take σ.position) ++ init,
    tail ++ Flat.encode (c.list.drop (σ.position + 1)), ?_, ?_⟩
  · have hbytes : c.bytes = c.list.flatMap Instr.encode := rfl
    rw [hbytes, flatMap_split hi, hsplit]
    simp only [Flat.encode, List.append_assoc]
  · rw [List.length_append, hlength, patchOffset, hi]
    rfl

/-- **A slot that is there has its four bytes in the code.** -/
theorem HasSlot.isWritten (h : c.HasSlot σ) (hs : c.Sized) : c.IsWritten σ := by
  obtain ⟨t, ht⟩ := h.exists_target
  obtain ⟨init, tail, hsplit, hlength⟩ := exists_split_bytes ht
  have hbytes : c.size = c.bytes.length := hs
  refine ⟨?_, t, ht, ?_⟩
  · rw [hbytes, hsplit, List.length_append, List.length_append, length_word32, hlength]
    exact Nat.le_add_right _ _
  · rw [hsplit, ← hlength, List.append_assoc, List.drop_left]
    exact List.take_left' (length_word32 t)

end Code

end FlatWasm.Flat
