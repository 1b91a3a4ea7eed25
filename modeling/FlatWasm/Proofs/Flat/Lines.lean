import Mathlib
import FlatWasm.Flat.Listing
import FlatWasm.Proofs.Flat.Fetch

/-!
# The lines of code

`disassemble` works on bytes.  For bytes that instructions were written to, `lines` says what it gives: each of the
instructions, in order, with its offset.  A line of code is then the same as an instruction that stands at an offset
(`mem_lines_iff`).
-/

namespace FlatWasm.Flat

/-- Instructions with their offsets, the first of which is given. -/
def lines (offset : ℕ) : List Instr → List Line
  | [] => []
  | i :: is => ⟨offset, i⟩ :: lines (offset + i.size) is

theorem lines_append (offset : ℕ) (is js : List Instr) :
    lines offset (is ++ js) = lines offset is ++ lines (offset + (encode is).length) js := by
  induction is generalizing offset with
  | nil => rfl
  | cons i is ih =>
    rw [List.cons_append, lines, lines, ih, List.cons_append, length_encode_cons, Nat.add_assoc]

/-- The lines are the instructions, in order. -/
theorem map_instr_lines (offset : ℕ) (code : List Instr) :
    (lines offset code).map Line.instr = code := by
  induction code generalizing offset with
  | nil => rfl
  | cons i is ih => rw [lines, List.map_cons, ih]

theorem disassembleFrom_encode (offset : ℕ) {code : List Instr} (h : ∀ i ∈ code, i.Fits) :
    disassembleFrom offset (encode code) = .ok (lines offset code) := by
  induction code generalizing offset with
  | nil => rw [encode, List.flatMap_nil, disassembleFrom, lines]
  | cons i is ih =>
    obtain ⟨hi, his⟩ := List.forall_mem_cons.mp h
    have hread : Instr.read i.opcode (i.encodeImmediates ++ encode is) = .ok (i, encode is) :=
      Instr.reads_encode i hi (encode is)
    show disassembleFrom offset (i.opcode :: (i.encodeImmediates ++ encode is)) = _
    rw [disassembleFrom]
    split
    · next fault herror => cases hread.symm.trans herror
    · next instr rest hok =>
      cases hread.symm.trans hok
      rw [ih _ his]
      rfl

theorem fits_of_length_encode {code : List Instr} (h : (encode code).length < 2 ^ 32) :
    ∀ i ∈ code, i.Fits := by
  intro i hi
  obtain ⟨pre, post, rfl⟩ := List.append_of_mem hi
  rw [length_encode_append, length_encode_cons] at h
  exact Instr.fits_of_size (by omega)

/-- **What instructions were written to is read back as these instructions.** -/
theorem disassemble_encode {code : List Instr} (h : (encode code).length < 2 ^ 32) :
    disassemble (encode code) = .ok (lines 0 code) :=
  disassembleFrom_encode 0 (fits_of_length_encode h)

/-- **A line is an instruction that stands at an offset.** -/
theorem mem_lines_iff {code : List Instr} {line : Line} :
    line ∈ lines 0 code ↔ Spells code line.offset [line.instr] := by
  constructor
  · -- an instruction stands behind the code before it, so the offset is what that code takes
    have hmem : ∀ (pre is : List Instr), line ∈ lines (encode pre).length is →
        Spells (pre ++ is) line.offset [line.instr] := by
      intro pre is
      induction is generalizing pre with
      | nil => exact nofun
      | cons i is ih =>
        intro h
        rcases List.mem_cons.mp h with rfl | h
        · exact ⟨pre, is, rfl, rfl⟩
        · have hspells := ih (pre ++ [i])
          rw [length_encode_append, length_encode_singleton, List.append_assoc] at hspells
          exact hspells h
    exact hmem [] code
  · rintro ⟨pre, post, rfl, hoffset⟩
    rw [lines_append, Nat.zero_add, hoffset]
    exact List.mem_append_right _ List.mem_cons_self

/-- The first line is the only one at its offset. -/
theorem lt_of_mem_tail_lines {code : List Instr} {line : Line} (h : line ∈ (lines 0 code).tail) :
    0 < line.offset := by
  cases code with
  | nil => cases h
  | cons i is =>
    -- the first instruction takes some bytes, and the others stand behind it
    have hle : ∀ (offset : ℕ) (is : List Instr), ∀ l ∈ lines offset is, offset ≤ l.offset := by
      intro offset is
      induction is generalizing offset with
      | nil => exact nofun
      | cons i is ih =>
        refine List.forall_mem_cons.mpr ⟨Nat.le_refl _, fun l hl => ?_⟩
        exact Nat.le_trans (Nat.le_add_right _ _) (ih _ l hl)
    have hpos := i.size_pos
    have hline := hle _ is line h
    omega

/-- The last line ends where the code does. -/
theorem exists_getLast?_lines {code : List Instr} (h : code ≠ []) :
    ∃ last, (lines 0 code).getLast? = some last ∧ last ∈ lines 0 code ∧
      last.offset + last.instr.size = (encode code).length := by
  obtain ⟨pre, i, rfl⟩ := (List.eq_nil_or_concat' code).resolve_left h
  have hlines : lines 0 (pre ++ [i]) = lines 0 pre ++ [⟨(encode pre).length, i⟩] := by
    rw [lines_append, Nat.zero_add]
    rfl
  refine ⟨⟨(encode pre).length, i⟩, ?_, ?_, ?_⟩
  · rw [hlines, List.getLast?_concat]
  · rw [hlines]
    exact List.mem_append_right _ List.mem_cons_self
  · rw [length_encode_append, length_encode_singleton]

end FlatWasm.Flat
