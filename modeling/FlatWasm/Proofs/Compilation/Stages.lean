import Mathlib
import FlatWasm.Compilation
import FlatWasm.Proofs.Failures

/-!
# The stages of compilation

What a module has gone through when it is compiled, stage by stage: `Module.prepare_eq_ok_iff` and `Module.compile_eq_ok_iff`.
The functions of the result correspond one by one to the function section, each with the code at its position
(`Module.exists_of_rawFunctions`).
-/

namespace FlatWasm

namespace Module

variable {m : Module} {space : IndexSpace}

/-- There is code for every function. -/
theorem length_code_of_checkShape {ceiling : UInt32} (h : m.checkShape ceiling = .ok ()) :
    m.functions.length = m.code.length := by
  rw [checkShape] at h
  obtain ⟨-, -, h⟩ := Except.bind_eq_ok_iff.mp h
  by_contra hne
  rw [if_pos hne] at h
  cases h

/-- What is imported has been looked at, and so have all limits. -/
theorem limits_of_checkShape {ceiling : UInt32} (h : m.checkShape ceiling = .ok ()) :
    (∀ im ∈ m.imports, im.desc.check ceiling = .ok ()) ∧
      (∀ limits ∈ m.memories, limits.check ceiling = .ok ()) ∧
        ∀ limits ∈ m.tables, limits.check Limits.maxEntries = .ok () := by
  have hlength := length_code_of_checkShape h
  rw [checkShape] at h
  obtain ⟨-, -, h⟩ := Except.bind_eq_ok_iff.mp h
  rw [if_neg (not_not.mpr hlength)] at h
  obtain ⟨-, -, h⟩ := Except.bind_eq_ok_iff.mp h
  obtain ⟨⟨⟩, himports, h⟩ := Except.bind_eq_ok_iff.mp h
  obtain ⟨⟨⟩, hmemories, h⟩ := Except.bind_eq_ok_iff.mp h
  obtain ⟨⟨⟩, htables, -⟩ := Except.bind_eq_ok_iff.mp h
  refine ⟨fun im him => ?_, fun limits hl => ?_, fun limits hl => ?_⟩
  · obtain ⟨i, hi⟩ := exists_of_checkEach himports him
    exact Except.mapError_eq_ok_iff.mp hi
  · obtain ⟨i, hi⟩ := exists_of_checkEach hmemories hl
    exact Except.mapError_eq_ok_iff.mp hi
  · obtain ⟨i, hi⟩ := exists_of_checkEach htables hl
    exact Except.mapError_eq_ok_iff.mp hi

/-- The stages before any function is lowered, one by one. -/
theorem prepare_eq_ok_iff {config : Config} {functions : List Function} :
    m.prepare config = .ok (space, functions) ↔ m.checkShape config.maxPages = .ok () ∧
      m.indexSpace = .ok space ∧ m.checkReferences space = .ok () ∧
        m.rawFunctions space = .ok functions := by
  rw [prepare]
  constructor
  · intro h
    obtain ⟨⟨⟩, hshape, h⟩ := Except.bind_eq_ok_iff.mp h
    obtain ⟨space', hspace, h⟩ := Except.bind_eq_ok_iff.mp h
    obtain ⟨⟨⟩, hrefs, h⟩ := Except.bind_eq_ok_iff.mp h
    obtain ⟨functions', hraw, h⟩ := Except.bind_eq_ok_iff.mp h
    cases h
    exact ⟨orRefuse_eq_ok_iff.mp hshape, orRefuse_eq_ok_iff.mp hspace,
      Except.mapError_eq_ok_iff.mp hrefs, hraw⟩
  · rintro ⟨hshape, hspace, hrefs, hraw⟩
    rw [orRefuse_eq_ok_iff.mpr hshape]
    show orRefuse _ m.indexSpace >>= _ = _
    rw [orRefuse_eq_ok_iff.mpr hspace]
    show (m.checkReferences space).mapError _ >>= _ = _
    rw [Except.mapError_eq_ok_iff.mpr hrefs]
    show m.rawFunctions space >>= _ = _
    rw [hraw]
    rfl

theorem complete_of_prepare {config : Config} {functions : List Function}
    (h : m.prepare config = .ok (space, functions)) : space.Complete := by
  obtain ⟨hshape, hspace, -⟩ := prepare_eq_ok_iff.mp h
  exact IndexSpace.complete_of_checkShape hshape hspace

/-- A raw function has the type that its index names, and the code at its position. -/
theorem exists_of_rawFunctions {functions : List Function}
    (h : m.rawFunctions space = .ok functions) {i : ℕ} {f : Function}
    (hf : functions[i]? = some f) :
    ∃ typeIndex type code, m.functions[i]? = some typeIndex ∧
      space.type typeIndex = .ok (some type) ∧ m.code[i]? = some code ∧
      f = { index := UInt32.ofNat space.functions.imported.length + UInt32.ofNat i, type,
            locals := code.locals, body := .raw code.body } := by
  obtain ⟨⟨typeIndex, j⟩, hj, h⟩ := exists_getElem?_of_forall₂ (Except.mapM_eq_ok_iff.mp h) hf
  obtain ⟨hi, hget⟩ : m.functions[i]? = some typeIndex ∧ j = i := by
    rw [List.getElem?_zipIdx] at hj
    obtain ⟨t, ht, heq⟩ := Option.map_eq_some_iff.mp hj
    cases heq
    exact ⟨ht, Nat.zero_add i⟩
  subst hget
  obtain ⟨o, ho, h₁⟩ := Except.bind_eq_ok_iff.mp h
  obtain ⟨type, ht, h₂⟩ := Except.bind_eq_ok_iff.mp h₁
  obtain ⟨code, hcode, h₃⟩ := Except.bind_eq_ok_iff.mp h₂
  obtain rfl := present_eq_ok_iff.mp ht
  rw [inBounds_eq_ok_iff, List.getElem?_toArray] at hcode
  cases h₃
  exact ⟨typeIndex, type, code, hi, orRefuse_eq_ok_iff.mp ho, hcode, rfl⟩

theorem length_rawFunctions {functions : List Function}
    (h : m.rawFunctions space = .ok functions) : functions.length = m.functions.length := by
  rw [← (Except.mapM_eq_ok_iff.mp h).length_eq, List.length_zipIdx]

/-- Functions are lowered if each of them is, and the work is not called off before the first. -/
theorem lowerAll_eq_ok_iff {canceled : Bool} {functions lowered : List Function} :
    lowerAll space canceled functions = .ok lowered ↔ (canceled = true → functions = []) ∧
      List.Forall₂ (fun f g => f.lower space = .ok g) functions lowered := by
  have hstep : ∀ f g : Function,
      (f.lower space).mapError (Failure.map .function) = (.ok g : Except (Failure CompileError) _) ↔
        f.lower space = .ok g :=
    fun _ _ => Except.mapError_eq_ok_iff
  cases canceled with
  | false =>
    simp only [← hstep, Bool.false_eq_true, false_imp_iff, true_and]
    exact Except.mapM_eq_ok_iff
  | true =>
    rw [lowerAll, Except.mapM_eq_ok_iff]
    cases functions with
    | nil => simp only [List.forall₂_nil_left_iff, implies_true, true_and]
    | cons f functions =>
      constructor
      · rintro (_ | ⟨h, -⟩)
        cases h
      · rintro ⟨h, -⟩
        cases h rfl

/-- **A module is compiled if it is prepared and each of its functions is lowered.** -/
theorem compile_eq_ok_iff {config : Config} {canceled : Bool} {c : Compiled} :
    m.compile config canceled = .ok c ↔ c.module = m ∧ ∃ functions,
      m.prepare config = .ok (c.space, functions) ∧ (canceled = true → functions = []) ∧
        List.Forall₂ (fun f g => f.lower c.space = .ok g) functions c.functions := by
  rw [compile]
  constructor
  · intro h
    obtain ⟨⟨space, functions⟩, hprepare, h⟩ := Except.bind_eq_ok_iff.mp h
    obtain ⟨lowered, hlowered, h⟩ := Except.bind_eq_ok_iff.mp h
    cases h
    exact ⟨rfl, functions, hprepare, lowerAll_eq_ok_iff.mp hlowered⟩
  · rintro ⟨rfl, functions, hprepare, hlowered⟩
    exact Except.bind_eq_ok_iff.mpr ⟨_, hprepare,
      Except.bind_eq_ok_iff.mpr ⟨_, lowerAll_eq_ok_iff.mpr hlowered, rfl⟩⟩

end Module

end FlatWasm
