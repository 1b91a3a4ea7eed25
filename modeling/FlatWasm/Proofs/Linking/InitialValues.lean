import Mathlib
import FlatWasm.Proofs.Leb128Forms
import FlatWasm.Proofs.Linking.Interruption
import FlatWasm.Proofs.LittleEndian
import FlatWasm.Proofs.Store.Entries

/-!
# What globals start with

The initial value of a global is written down in a module, read as a number, cut to the width of the type, put into a store
as bytes and read from there.  Each of these steps has a width of its own.  This file says what an initializer stands for without
any of them (`ConstExpr.HasValue`), and that the globals of an instance start with just that
(`Compiled.globals_start_as_initialized`).

## Where a width could be lost

Nothing is cut off if the number is below `2 ^ (8 * width)` for the width of the type.  Of a constant this is so because the
check of the module has compared its type (`ConstExpr.HasValue.lt`).  Of an imported global it is so because the embedder has
made it: its store is as long as a value of its type, and stays so whatever the embedder does with it
(`GlobalCell.IsHostMade.isSized`).
-/

namespace FlatWasm

/-! ## Values in a store -/

theorem width_eq_four_or_eight {t : ValueType} {width : UInt32} (h : t.width = .ok width) :
    width = 4 ∨ width = 8 := by
  rw [ValueType.width] at h
  split at h
  · exact .inl (Except.ok.inj h).symm
  split at h
  · exact .inr (Except.ok.inj h).symm
  · cases h

theorem pow_width (width : UInt32) : 256 ^ width.toNat = 2 ^ (8 * width.toNat) := by
  rw [pow_mul]
  rfl

namespace GlobalCell

variable {g : GlobalCell}

/-- The unit of the store is as long as a value of the type. -/
def IsSized (g : GlobalCell) : Prop :=
  g.type.valueType.width = .ok g.store.unit

theorem IsSized.width_eq (h : g.IsSized) : g.width = g.store.unit.toNat := by
  rw [width]
  rcases width_eq_four_or_eight h with hunit | hunit <;> rw [hunit] <;> decide

/-- **A value is never wider than its type.** -/
theorem IsSized.value_lt (h : g.IsSized) : g.value.toNat < 2 ^ (8 * g.store.unit.toNat) := by
  rw [value, h.width_eq, ← pow_width]
  cases hbytes : g.store.bytesAt? 0 g.store.unit.toNat with
  | none => exact Nat.pow_pos (by decide)
  | some bytes =>
    have hlength : bytes.length = g.store.unit.toNat := by
      rw [Linear.bytesAt?] at hbytes
      split at hbytes
      · rw [← Option.some.inj hbytes, Sparse.length_slice]
      · cases hbytes
    rw [← hlength]
    show (UInt64.ofNat (ofLittleEndian bytes)).toNat < _
    rw [UInt64.toNat_ofNat']
    exact Nat.lt_of_le_of_lt (Nat.mod_le _ _) (ofLittleEndian_lt bytes)

section OfValue

variable {type : GlobalType} {width : UInt32}

theorem isSized_ofValue (h : type.valueType.width = .ok width) (v : UInt64) :
    (ofValue type width v).IsSized :=
  h

/-- What a global is given is found in it, as far as its width goes. -/
theorem value_ofValue (h : type.valueType.width = .ok width) (v : UInt64) :
    (ofValue type width v).value.toNat = v.toNat % 2 ^ (8 * width.toNat) := by
  have hwidth : (ofValue type width v).width = width.toNat := (isSized_ofValue h v).width_eq
  have hbytes : (ofValue type width v).store.bytesAt? 0 width.toNat =
      some (littleEndian width.toNat v.toNat) := by
    have hlength : (littleEndian width.toNat v.toNat).length = width.toNat := length_littleEndian _ _
    have hroom : 0 + (littleEndian width.toNat v.toNat).length ≤ (Sparse.zeros width.toNat).length :=
      (Nat.zero_add _).trans_le hlength.le
    have hslice := Sparse.slice_overwrite hroom
    rw [hlength] at hslice
    rw [Linear.bytesAt?, if_pos (by rw [ofValue, Linear.length_put, Nat.zero_add]; rfl)]
    exact congrArg some hslice
  rw [value, hwidth, hbytes]
  show (UInt64.ofNat (ofLittleEndian (littleEndian width.toNat v.toNat))).toNat = _
  rw [ofLittleEndian_littleEndian, pow_width]
  exact UInt64.toNat_ofNat_of_lt' (Nat.lt_of_le_of_lt (Nat.mod_le _ _) v.toNat_lt)

end OfValue

/-- A global that an embedder has made, and changed since in any way that it can. -/
inductive IsHostMade : GlobalCell → Prop where
  | new {type : GlobalType} {value : UInt64} {g : GlobalCell} (h : hostGlobal type value = .ok g) :
      IsHostMade g
  | change {g g' : GlobalCell} (hg : IsHostMade g) (h : g.Changes g') : IsHostMade g'

theorem isSized_of_hostGlobal {type : GlobalType} {value : UInt64}
    (h : hostGlobal type value = .ok g) : g.IsSized := by
  rw [hostGlobal] at h
  split at h
  · cases h
  obtain ⟨empty, hempty, h⟩ := Except.bind_eq_ok_iff.mp h
  obtain ⟨width, hwidth, -⟩ := Except.bind_eq_ok_iff.mp (Except.mapError_eq_ok_iff.mp hempty)
  obtain ⟨init, hinit, h⟩ := Except.bind_eq_ok_iff.mp h
  obtain ⟨empty', init', he, hi, hallocate⟩ :=
    GlobalCell.allocate_eq hwidth value fun _ => .error .unknown
  cases he.symm.trans (Except.mapError_eq_ok_iff.mp hempty)
  cases hi.symm.trans (Except.mapError_eq_ok_iff.mp hinit)
  rw [hallocate] at h
  rw [← Except.ok.inj h]
  exact isSized_ofValue hwidth value

theorem IsHostMade.isSized (h : g.IsHostMade) : g.IsSized := by
  induction h with
  | new h => exact isSized_of_hostGlobal h
  | change _ h ih =>
    have hevolves := h.evolves
    rw [IsSized, hevolves.type, hevolves.store.unit]
    exact ih

end GlobalCell

/-! ## What an initializer stands for -/

namespace ConstExpr

variable {global : ℕ → ℕ → Prop} {e : ConstExpr} {v : ℕ}

/-- The number that an initializer stands for, where `global i v` says that the value of the imported global `i` is `v`.  An
integer is taken modulo its width, and a floating-point number is the word of its bytes.  What follows the immediate does not
count. -/
inductive HasValue (global : ℕ → ℕ → Prop) : ConstExpr → ℕ → Prop where
  | i32 {form rest : List UInt8} {n : ℤ} (h : Leb128.Signed 32 form n) :
      HasValue global ⟨Opcode.i32Const, form ++ rest⟩ (n % 2 ^ 32).toNat
  | i64 {form rest : List UInt8} {n : ℤ} (h : Leb128.Signed 64 form n) :
      HasValue global ⟨Opcode.i64Const, form ++ rest⟩ (n % 2 ^ 64).toNat
  | f32 {bytes rest : List UInt8} (h : bytes.length = 4) :
      HasValue global ⟨Opcode.f32Const, bytes ++ rest⟩ (ofLittleEndian bytes)
  | f64 {bytes rest : List UInt8} (h : bytes.length = 8) :
      HasValue global ⟨Opcode.f64Const, bytes ++ rest⟩ (ofLittleEndian bytes)
  | global {form rest : List UInt8} {i v : ℕ} (h : Leb128.Unsigned 32 form i) (hv : global i v) :
      HasValue global ⟨Opcode.globalGet, form ++ rest⟩ v

theorem toNat_ofInt {bits : ℕ} (h : bits ≤ 64) (n : ℤ) :
    (Bits.ofInt bits n).toNat = (n % 2 ^ bits).toNat := by
  have hlt : (BitVec.ofInt bits n).toNat < 2 ^ 64 :=
    Nat.lt_of_lt_of_le (BitVec.isLt _) (Nat.pow_le_pow_right (by decide) h)
  rw [Bits.ofInt, UInt64.toNat_ofNat_of_lt' hlt, BitVec.toNat_ofInt]
  push_cast
  rfl

theorem toNat_ofLittleEndian {bytes : List UInt8} (h : bytes.length ≤ 8) :
    (UInt64.ofNat (ofLittleEndian bytes)).toNat = ofLittleEndian bytes := by
  refine UInt64.toNat_ofNat_of_lt' (Nat.lt_of_lt_of_le (ofLittleEndian_lt bytes) ?_)
  exact Nat.pow_le_pow_right (by decide) h

/-- A floating-point immediate is read from bytes in front, whatever follows them. -/
theorem exists_floatBits (what : String) {bytes : List UInt8} (h : bytes.length ≤ 8)
    (rest : List UInt8) : ∃ imm, floatBits what bytes.length (bytes ++ rest) = .ok imm ∧
      imm.toNat = ofLittleEndian bytes := by
  refine ⟨_, ?_, toNat_ofLittleEndian h⟩
  rw [floatBits, if_neg (by rw [List.length_append]; omega), List.take_left]

theorem exists_of_floatBits {what : String} {n : ℕ} (hn : n ≤ 8) {data : List UInt8} {imm : UInt64}
    (h : floatBits what n data = .ok imm) : ∃ bytes rest, data = bytes ++ rest ∧ bytes.length = n ∧
      imm.toNat = ofLittleEndian bytes := by
  rw [floatBits] at h
  split at h
  · cases h
  · next hlt =>
    have hlength : (data.take n).length = n := List.length_take_of_le (Nat.le_of_not_lt hlt)
    rw [← Except.ok.inj h]
    exact ⟨data.take n, data.drop n, (List.take_append_drop n data).symm, hlength,
      toNat_ofLittleEndian (hlength.trans_le hn)⟩

theorem toNat_toUInt32_ofNat {i : ℕ} (h : i < 2 ^ 32) : (UInt64.ofNat i).toUInt32.toNat = i := by
  rw [UInt64.toNat_toUInt32, UInt64.toNat_ofNat_of_lt' (Nat.lt_trans h (by decide)), Nat.mod_eq_of_lt h]

theorem index_lt {form : List UInt8} {i : ℕ} (h : Leb128.Unsigned 32 form i) : i < 2 ^ 32 :=
  (h.groups_append (by decide) 32 []).2

theorem opcodes_ne_globalGet : Opcode.globalGet ≠ Opcode.i32Const ∧ Opcode.globalGet ≠ Opcode.i64Const ∧
    Opcode.globalGet ≠ Opcode.f32Const ∧ Opcode.globalGet ≠ Opcode.f64Const := by
  decide

/-- An initializer with a value can be read, and its immediate is that value or the index of the global that has it. -/
theorem HasValue.exists_immediate (h : e.HasValue global v) :
    ∃ imm, e.immediate = .ok imm ∧ (e.opcode ≠ Opcode.globalGet → v = imm.toNat) ∧
      (e.opcode = Opcode.globalGet → global imm.toUInt32.toNat v) := by
  obtain ⟨hne₁, hne₂, hne₃, hne₄⟩ := opcodes_ne_globalGet
  cases h with
  | @i32 form rest n h =>
    have hload := (Leb128.loadSigned_eq_ok_iff (by decide)).mpr ⟨form, rest, rfl, rfl, h⟩
    refine ⟨Bits.ofInt 32 n, ?_, fun _ => (toNat_ofInt (by decide) n).symm,
      fun hop => absurd hop.symm hne₁⟩
    rw [immediate, if_pos rfl, hload]
  | @i64 form rest n h =>
    have hload := (Leb128.loadSigned_eq_ok_iff (by decide)).mpr ⟨form, rest, rfl, rfl, h⟩
    refine ⟨Bits.ofInt 64 n, ?_, fun _ => (toNat_ofInt (by decide) n).symm,
      fun hop => absurd hop.symm hne₂⟩
    rw [immediate, if_neg (show Opcode.i64Const ≠ Opcode.i32Const by decide), if_pos rfl, hload]
  | @f32 bytes rest h =>
    obtain ⟨imm, himm, hbytes⟩ := exists_floatBits "f32.const" (show bytes.length ≤ 8 by omega) rest
    refine ⟨imm, ?_, fun _ => hbytes.symm, fun hop => absurd hop.symm hne₃⟩
    rw [h] at himm
    exact himm
  | @f64 bytes rest h =>
    obtain ⟨imm, himm, hbytes⟩ := exists_floatBits "f64.const" (show bytes.length ≤ 8 by omega) rest
    refine ⟨imm, ?_, fun _ => hbytes.symm, fun hop => absurd hop.symm hne₄⟩
    rw [h] at himm
    exact himm
  | @global form rest i _ h hv =>
    have hload := (Leb128.loadUnsigned_eq_ok_iff (by decide)).mpr ⟨form, rest, rfl, rfl, h⟩
    refine ⟨UInt64.ofNat i, ?_, fun hop => absurd rfl hop, fun _ => ?_⟩
    · rw [immediate, if_neg hne₁, if_neg hne₂, if_neg hne₃, if_neg hne₄, if_pos rfl, hload]
    · rwa [toNat_toUInt32_ofNat (index_lt h)]

/-- The immediate of a constant is its value. -/
theorem hasValue_of_immediate {imm : UInt64} (h : e.immediate = .ok imm)
    (hop : e.opcode ≠ Opcode.globalGet) : e.HasValue global imm.toNat := by
  obtain ⟨opcode, data⟩ := e
  rw [immediate] at h
  dsimp only at h hop
  rw [if_neg hop] at h
  split at h
  · next heq =>
    subst heq
    split at h
    · next n k hload =>
      obtain ⟨form, rest, rfl, -, hform⟩ := (Leb128.loadSigned_eq_ok_iff (by decide)).mp hload
      rw [← Except.ok.inj h, toNat_ofInt (by decide)]
      exact .i32 hform
    · cases h
  split at h
  · next heq =>
    subst heq
    split at h
    · next n k hload =>
      obtain ⟨form, rest, rfl, -, hform⟩ := (Leb128.loadSigned_eq_ok_iff (by decide)).mp hload
      rw [← Except.ok.inj h, toNat_ofInt (by decide)]
      exact .i64 hform
    · cases h
  split at h
  · next heq =>
    subst heq
    obtain ⟨bytes, rest, rfl, hlength, himm⟩ := exists_of_floatBits (by decide) h
    rw [himm]
    exact .f32 hlength
  split at h
  · next heq =>
    subst heq
    obtain ⟨bytes, rest, rfl, hlength, himm⟩ := exists_of_floatBits (by decide) h
    rw [himm]
    exact .f64 hlength
  · cases h

/-- The immediate of a `global.get` is the index of the global. -/
theorem hasValue_of_globalGet {imm : UInt64} (h : e.immediate = .ok imm)
    (hop : e.opcode = Opcode.globalGet) (hv : global imm.toUInt32.toNat v) : e.HasValue global v := by
  obtain ⟨opcode, data⟩ := e
  dsimp only at hop
  subst hop
  obtain ⟨hne₁, hne₂, hne₃, hne₄⟩ := opcodes_ne_globalGet
  rw [immediate, if_neg hne₁, if_neg hne₂, if_neg hne₃, if_neg hne₄, if_pos rfl] at h
  split at h
  · next i k hload =>
    obtain ⟨form, rest, rfl, -, hform⟩ := (Leb128.loadUnsigned_eq_ok_iff (by decide)).mp hload
    rw [← Except.ok.inj h, toNat_toUInt32_ofNat (index_lt hform)] at hv
    exact .global hform hv
  · cases h

theorem hasValue_constant_iff {imm : UInt64} (h : e.immediate = .ok imm)
    (hop : e.opcode ≠ Opcode.globalGet) : e.HasValue global v ↔ v = imm.toNat := by
  constructor
  · intro hv
    obtain ⟨imm', himm', hconstant, -⟩ := hv.exists_immediate
    cases h.symm.trans himm'
    exact hconstant hop
  · rintro rfl
    exact hasValue_of_immediate h hop

theorem hasValue_globalGet_iff {imm : UInt64} (h : e.immediate = .ok imm)
    (hop : e.opcode = Opcode.globalGet) : e.HasValue global v ↔ global imm.toUInt32.toNat v := by
  constructor
  · intro hv
    obtain ⟨imm', himm', -, hglobal⟩ := hv.exists_immediate
    cases h.symm.trans himm'
    exact hglobal hop
  · exact hasValue_of_globalGet h hop

/-- A constant has room in its type. -/
theorem HasValue.lt (h : e.HasValue global v) {t : ValueType} {width : UInt32}
    (ht : constantType? e.opcode = some t) (hw : t.width = .ok width) : v < 2 ^ (8 * width.toNat) := by
  cases h with
  | @i32 form rest n h =>
    cases ht
    cases hw
    show (n % 2 ^ 32).toNat < 2 ^ 32
    omega
  | @i64 form rest n h =>
    cases ht
    cases hw
    show (n % 2 ^ 64).toNat < 2 ^ 64
    omega
  | @f32 bytes rest h =>
    cases ht
    cases hw
    have hlt := ofLittleEndian_lt bytes
    rwa [h] at hlt
  | @f64 bytes rest h =>
    cases ht
    cases hw
    have hlt := ofLittleEndian_lt bytes
    rwa [h] at hlt
  | global h hv => cases ht

end ConstExpr

/-! ## Imported globals -/

/-- The value of a global import, by its position among the imports of this kind. -/
def Imports.GlobalValue (imports : Imports) (pool : Pool) (declared : List Import) (i v : ℕ) : Prop :=
  ∃ im a cell, (importsOf .global declared)[i]? = some im ∧
    imports.globals.find? im.fullName = some a ∧ pool.globals[a]? = some cell ∧ cell.value.toNat = v

theorem Imports.GlobalValue.unique {imports : Imports} {pool : Pool} {declared : List Import}
    {i v v' : ℕ} (h : imports.GlobalValue pool declared i v)
    (h' : imports.GlobalValue pool declared i v') : v = v' := by
  obtain ⟨im, a, cell, him, ha, hcell, rfl⟩ := h
  obtain ⟨im', a', cell', him', ha', hcell', rfl⟩ := h'
  cases him.symm.trans him'
  cases ha.symm.trans ha'
  cases hcell.symm.trans hcell'
  rfl

/-- **What a global starts as**: a cell of the declared type, with the one value that the initializer has, which is not wider
than the type. -/
structure GlobalCell.StartsAs (global : ℕ → ℕ → Prop) (g : Global) (cell : GlobalCell) : Prop where
  type : g.type = some cell.type
  value : ∃ expr, g.init = some expr ∧ ∀ v, expr.HasValue global v ↔ v = cell.value.toNat
  lt : ∃ width, cell.type.valueType.width = .ok width ∧ cell.value.toNat < 2 ^ (8 * width.toNat)

theorem GlobalCell.StartsAs.value_eq {global : ℕ → ℕ → Prop} {g : Global} {cell : GlobalCell}
    (h : cell.StartsAs global g) {expr : ConstExpr} (hinit : g.init = some expr) {v : ℕ}
    (hv : expr.HasValue global v) : cell.value.toNat = v := by
  obtain ⟨expr', hinit', hvalue⟩ := h.value
  cases hinit.symm.trans hinit'
  exact ((hvalue v).mp hv).symm

/-- A value that is not wider than its type is what the initializer stands for. -/
theorem GlobalCell.startsAs_ofValue {global : ℕ → ℕ → Prop} {g : Global} {expr : ConstExpr}
    {value : UInt64} {type : GlobalType} {width : UInt32} (hinit : g.init = some expr)
    (htype : g.type = some type) (hw : type.valueType.width = .ok width)
    (hvalue : ∀ v, expr.HasValue global v ↔ v = value.toNat)
    (hlt : value.toNat < 2 ^ (8 * width.toNat)) : StartsAs global g (ofValue type width value) := by
  have hsame : (ofValue type width value).value.toNat = value.toNat :=
    (value_ofValue hw value).trans (Nat.mod_eq_of_lt hlt)
  refine ⟨htype, ⟨expr, hinit, ?_⟩, ⟨width, hw, hsame ▸ hlt⟩⟩
  rw [hsame]
  exact hvalue

namespace Compiled

variable {m : Module} {config config' : Config} {stopped canceled : Bool} {c : Compiled}
  {imports : Imports} {p q : Pool} {r : Bound}

/-- **A global that an instantiation makes starts as its initializer says.** -/
theorem startsAs_of_makeGlobal (hc : m.compile config stopped = .ok c)
    (hr : imports.Resolves c.space p c.module.imports r)
    (hsized : ∀ a ∈ r.globals, ∀ cell, p.globals[a]? = some cell → cell.IsSized)
    {g : Global} (hg : g ∈ c.module.globals) {s : Allotment} {i : ℕ} {cell : GlobalCell}
    (h : (c.instanceOf r p s).makeGlobal g i (p.allot s) = .ok cell) :
    cell.StartsAs (imports.GlobalValue p c.module.imports) g := by
  obtain ⟨rfl, functions, hprepare, -, -⟩ := Module.compile_eq_ok_iff.mp hc
  obtain ⟨-, -, hrefs, -⟩ := Module.prepare_eq_ok_iff.mp hprepare
  obtain ⟨expr, value, type, width, hinit, heval, htype, hw, rfl⟩ :=
    Instance.makeGlobal_eq_ok_iff.mp h
  obtain ⟨type', htype', hcheck⟩ := (Module.initializers_of_checkReferences hrefs).1 g hg
  cases htype.symm.trans htype'
  obtain ⟨expr', hinit', hchecked⟩ := ConstExpr.exists_of_check hcheck
  cases hinit.symm.trans hinit'
  obtain ⟨imm, himm, heval⟩ := Except.bind_eq_ok_iff.mp heval
  cases hchecked with
  | constant himm' ht =>
    have hop := ConstExpr.ne_globalGet_of_constantType? ht
    rw [if_neg hop] at heval
    cases heval
    have hvalue : ∀ v, expr.HasValue (imports.GlobalValue p c.module.imports) v ↔ v = value.toNat :=
      fun _ => ConstExpr.hasValue_constant_iff himm hop
    exact GlobalCell.startsAs_ofValue hinit htype hw hvalue (((hvalue _).mpr rfl).lt ht hw)
  | @global imm' loc type₀ himm' hop hi horigin ht =>
    cases himm.symm.trans himm'
    obtain ⟨im, a, ha, source, him, hname, hsource, ⟨⟩, hread⟩ :=
      exists_importedGlobal hc hr s hi horigin
    have hvalue : imports.GlobalValue p c.module.imports imm.toUInt32.toNat source.value.toNat :=
      ⟨im, a, source, him, hname, hsource, rfl⟩
    rw [if_pos hop, hread] at heval
    cases heval
    have hunit : source.type.valueType.width = .ok source.store.unit := hsized a ha source hsource
    have hlt := (hsized a ha source hsource).value_lt
    rw [ht, hw] at hunit
    rw [← Except.ok.inj hunit] at hlt
    refine GlobalCell.startsAs_ofValue hinit htype hw (fun v => ?_) hlt
    rw [ConstExpr.hasValue_globalGet_iff himm hop]
    constructor
    · intro hv
      exact hv.unique hvalue
    · rintro rfl
      exact hvalue

/-- **Defined globals start with the value of their initializer.**  An instantiation changes no global that was there before.
Each global that it makes has the declared type and the value that the initializer stands for, where a `global.get` reads an
imported global, and this value is not wider than the type. -/
theorem globals_start_as_initialized {inst : Instance} {log : List Event}
    (hc : m.compile config stopped = .ok c)
    (hlink : c.link config' imports p canceled = (.ok inst, q, log))
    (hhost : ∀ a ∈ inst.globals.imported, ∀ cell, p.globals[a]? = some cell → cell.IsHostMade) :
    (∀ (a : Address) cell, p.globals[a]? = some cell → q.globals[a]? = some cell) ∧
      List.Forall₂ (fun g a => ∃ cell, q.globals[a]? = some cell ∧
        cell.StartsAs (imports.GlobalValue p m.imports) g) m.globals inst.globals.defined := by
  obtain ⟨r, s, elements, data, hs, rfl, hloads⟩ := loads_of_link hc hlink
  refine ⟨globals_of_loadsTo hloads, ?_⟩
  have hr := Imports.resolves_of_resolve hs.allots.bound
  have hmade : List.Forall₂ (fun g cell => cell.StartsAs (imports.GlobalValue p c.module.imports) g)
      c.module.globals s.globals :=
    hs.allots.globals.forall₂_of_mem fun g hg _ _ cell hcell => startsAs_of_makeGlobal hc hr
      (fun a ha source hsource => (hhost a ha source hsource).isSized) hg hcell
  obtain ⟨rfl, -⟩ := Module.compile_eq_ok_iff.mp hc
  rw [hloads.globals]
  exact forall₂_addresses hmade p.globals

end Compiled

/-- A module whose globals start with `-1`, with the representation of `1.0` and with what it imports. -/
def seeded : Module where
  imports := [⟨"env", "seed", .global (some ⟨.i64, false⟩)⟩]
  globals := [⟨some ⟨.i32, true⟩, some ⟨Opcode.i32Const, [0x7f]⟩⟩,
    ⟨some ⟨.f32, false⟩, some ⟨Opcode.f32Const, [0, 0, 0x80, 0x3f]⟩⟩,
    ⟨some ⟨.i64, true⟩, some ⟨Opcode.globalGet, [0]⟩⟩]

/-- A pool with one global of all eight bytes. -/
def seed : Pool :=
  { globals := #[.ofValue ⟨.i64, false⟩ 8 0xfedcba9876543210] }

def lendsSeed : Imports :=
  { globals := [(⟨"env", "seed"⟩, some 0)] }

theorem isHostMade_seed (a : Address) (cell : GlobalCell) (h : seed.globals[a]? = some cell) :
    cell.IsHostMade := by
  have hnew : hostGlobal ⟨.i64, false⟩ 0xfedcba9876543210 =
      .ok (.ofValue ⟨.i64, false⟩ 8 0xfedcba9876543210) := by decide +kernel
  rw [List.mem_singleton.mp (Array.mem_def.mp (Array.mem_of_getElem? h))]
  exact .new hnew

theorem seeded_starts_as_initialized : ∃ c inst q log, seeded.compile {} = .ok c ∧
    c.link {} lendsSeed seed = (.ok inst, q, log) ∧
      (∀ a ∈ inst.globals.imported, ∀ cell, seed.globals[a]? = some cell → cell.IsHostMade) ∧
      List.Forall₂ (fun a v => ∃ cell, q.globals[a]? = some cell ∧ cell.value.toNat = v)
        inst.globals.defined [4294967295, 1065353216, 0xfedcba9876543210] := by
  have hok : ((seeded.compile {}).toOption.bind fun c =>
      (c.link {} lendsSeed seed).1.toOption).isSome = true := by decide +kernel
  obtain ⟨c, inst, q, log, hc, hlink⟩ := Module.exists_link_of_isSome hok
  have hhost : ∀ a ∈ inst.globals.imported, ∀ cell, seed.globals[a]? = some cell → cell.IsHostMade :=
    fun a _ cell h => isHostMade_seed a cell h
  obtain ⟨-, hstarts⟩ := Compiled.globals_start_as_initialized hc hlink hhost
  refine ⟨c, inst, q, log, hc, hlink, hhost, ?_⟩
  have hminus : ConstExpr.immediate ⟨Opcode.i32Const, [0x7f]⟩ = .ok 4294967295 := rfl
  have hone : ConstExpr.immediate ⟨Opcode.f32Const, [0, 0, 0x80, 0x3f]⟩ = .ok 1065353216 := rfl
  have hindex : ConstExpr.immediate ⟨Opcode.globalGet, [0]⟩ = .ok 0 := rfl
  have hseed : lendsSeed.GlobalValue seed seeded.imports 0 0xfedcba9876543210 :=
    ⟨_, 0, _, rfl, rfl, rfl, by decide +kernel⟩
  obtain ⟨a₁, _, ⟨cell₁, hcell₁, h₁⟩, hstarts, hdefined⟩ := List.forall₂_cons_left_iff.mp hstarts
  obtain ⟨a₂, _, ⟨cell₂, hcell₂, h₂⟩, hstarts, hrest⟩ := List.forall₂_cons_left_iff.mp hstarts
  obtain ⟨a₃, _, ⟨cell₃, hcell₃, h₃⟩, hstarts, hrest'⟩ := List.forall₂_cons_left_iff.mp hstarts
  rw [hdefined, hrest, hrest', List.forall₂_nil_left_iff.mp hstarts]
  refine .cons ⟨cell₁, hcell₁, ?_⟩ (.cons ⟨cell₂, hcell₂, ?_⟩ (.cons ⟨cell₃, hcell₃, ?_⟩ .nil))
  · exact h₁.value_eq rfl (ConstExpr.hasValue_of_immediate hminus (by decide))
  · exact h₂.value_eq rfl (ConstExpr.hasValue_of_immediate hone (by decide))
  · exact h₃.value_eq rfl (ConstExpr.hasValue_of_globalGet hindex rfl hseed)

end FlatWasm
