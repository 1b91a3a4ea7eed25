import Mathlib
import FlatWasm.Proofs.Source.Pass
import FlatWasm.Proofs.TypeSystem.Rules
import FlatWasm.Proofs.TypeSystem.Validated

/-!
# Instructions that touch operands of fixed types

The rules of the type system speak of indices and of lists, and the walk over a body of what indices resolve to.  Here both
are compared for single instructions.  Most of them take and leave operands of fixed types, and for these one statement is
enough: `hasType_iff` says that the rule for such an instruction gives the type of what it resolves to.

An index may resolve to something that is missing in the description of a module.  In complete index spaces nothing is
missing, so the lists of a context have an entry for every index.
-/

namespace FlatWasm

open Source

/-! ## Lists without gaps -/

theorem getElem?_filterMap_of_forall {α β : Type} {f : α → Option β} {l : List α}
    (h : ∀ a ∈ l, ∃ b, f a = some b) (i : ℕ) : (l.filterMap f)[i]? = l[i]?.bind f := by
  induction l generalizing i with
  | nil => rfl
  | cons a l ih =>
    obtain ⟨⟨b, hb⟩, hl⟩ := List.forall_mem_cons.mp h
    rw [List.filterMap_cons_some hb]
    cases i with
    | zero => simp [hb]
    | succ i => simpa using ih hl i

namespace IndexSpace.Complete

variable {space : IndexSpace} {locals results : List ValueType} {labels : List (List ValueType)}

theorem type_iff (hc : space.Complete) {i : UInt32} {type : FuncType} :
    space.type i = .ok (some type) ↔
      (space.context locals results labels).types[i.toNat]? = some type := by
  have hsome : ∀ o ∈ space.types, ∃ type, id o = some type :=
    fun o ho => (hc.types o ho).imp fun _ h => h.1
  show _ ↔ (space.types.filterMap id)[i.toNat]? = _
  rw [getElem?_filterMap_of_forall hsome, IndexSpace.type]
  cases space.types[i.toNat]? <;> simp

/-- Every function has a type. -/
theorem exists_type (hc : space.Complete) {i : UInt32} (hi : i ∈ space.functions.entries) :
    ∃ type, space.types[i.toNat]?.join = some type := by
  have hlt : i.toNat < space.types.length := by
    rcases List.mem_append.mp hi with hi | hi
    · exact hc.importedFunctions i hi
    · exact hc.definedFunctions i hi
  obtain ⟨type, ht, -⟩ := hc.types _ (List.getElem_mem hlt)
  exact ⟨type, by rw [List.getElem?_eq_getElem hlt, ht]; rfl⟩

theorem function_iff (hc : space.Complete) {i : UInt32} {type : FuncType} :
    (∃ loc, space.function i = .ok (loc, some type)) ↔
      (space.context locals results labels).functions[i.toNat]? = some type := by
  show _ ↔ (space.functions.entries.filterMap _)[i.toNat]? = _
  rw [getElem?_filterMap_of_forall fun j hj => hc.exists_type hj, IndexSpace.function,
    Namespace.get?, Namespace.entries]
  cases (space.functions.imported ++ space.functions.defined)[i.toNat]? <;> simp

theorem global_iff (hc : space.Complete) {i : UInt32} {g : GlobalType} :
    (∃ loc, space.global i = .ok (loc, some g)) ↔
      (space.context locals results labels).globals[i.toNat]? = some g := by
  have hsome : ∀ o ∈ space.globals.entries, ∃ g, id o = some g := by
    intro o ho
    rcases List.mem_append.mp ho with ho | ho
    · exact (hc.importedGlobals o ho).imp fun _ h => h.1
    · exact (hc.definedGlobals o ho).imp fun _ h => h.1
  show _ ↔ (space.globals.entries.filterMap id)[i.toNat]? = _
  rw [getElem?_filterMap_of_forall hsome, IndexSpace.global, Namespace.get?, Namespace.entries]
  cases (space.globals.imported ++ space.globals.defined)[i.toNat]? <;> simp

theorem isNumeric_global (hc : space.Complete) {i : UInt32} {loc : Location} {g : GlobalType}
    (h : space.global i = .ok (loc, some g)) : g.valueType.isNumeric = true := by
  rw [IndexSpace.global, Namespace.get?] at h
  cases he : (space.globals.imported ++ space.globals.defined)[i.toNat]? with
  | none =>
    rw [he] at h
    cases h
  | some o =>
    rw [he] at h
    cases h
    have hmem := List.mem_of_getElem? he
    rcases List.mem_append.mp hmem with hmem | hmem
    · obtain ⟨g', hg, hn⟩ := hc.importedGlobals _ hmem
      cases hg
      exact hn
    · obtain ⟨g', hg, hn⟩ := hc.definedGlobals _ hmem
      cases hg
      exact hn

theorem isNumeric_type (hc : space.Complete) {i : ℕ} {type : FuncType}
    (h : space.types[i]? = some (some type)) : type.IsNumeric := by
  obtain ⟨type', ht, hn⟩ := hc.types _ (List.mem_of_getElem? h)
  cases ht
  exact hn

end IndexSpace.Complete

theorem Namespace.exists_get?_iff {α : Type} {n : Namespace α} {i : UInt32} :
    (∃ p, n.get? i = some p) ↔ i.toNat < n.entries.length := by
  rw [get?, entries]
  by_cases h : i.toNat < (n.imported ++ n.defined).length
  · rw [List.getElem?_eq_getElem h]
    simpa using h
  · rw [List.getElem?_eq_none (Nat.le_of_not_lt h)]
    simpa using h

/-- Different indices are in different places. -/
theorem Namespace.locate_injective {α : Type} (n : Namespace α) : Function.Injective n.locate := by
  intro i j h
  rw [locate, locate] at h
  split at h <;> split at h
  · injection h
  · cases h
  · cases h
  · injection h with _ h
    simpa using congrArg (· + UInt32.ofNat n.imported.length) h

/-! ## Tables of types -/

/-- The type of a numeric operator, by its opcode. -/
theorem NumericOp.exists_type_eq (op : NumericOp) : ∃ first last,
    (op.type, first, last) ∈ operatorTypes ∧ first ≤ op.code.toNat ∧ op.code.toNat ≤ last := by
  have hall : ∀ n < 256, 0x45 ≤ n → n ≤ 0xc4 → ∃ row ∈ operatorTypes,
      row.1 = ((numericTypes.find? fun p => n ≤ p.1).map Prod.snd).getD {} ∧
        row.2.1 ≤ n ∧ n ≤ row.2.2 := by
    decide +kernel
  obtain ⟨row, hrow, ht, hn⟩ := hall op.code.toNat op.code.toNat_lt
    (UInt8.le_iff_toNat_le.mp op.inRange.1) (UInt8.le_iff_toNat_le.mp op.inRange.2)
  have htype : op.type = row.1 := ht.symm
  exact ⟨row.2.1, row.2.2, by rw [htype]; exact hrow, hn⟩

/-- No two rows of the table are about one opcode. -/
theorem NumericOp.type_eq {op : NumericOp} {type : FuncType} {first last : ℕ}
    (h : (type, first, last) ∈ operatorTypes) (hf : first ≤ op.code.toNat)
    (hl : op.code.toNat ≤ last) : op.type = type := by
  have hall : ∀ row ∈ operatorTypes, ∀ row' ∈ operatorTypes,
      row.2.1 ≤ row'.2.2 → row'.2.1 ≤ row.2.2 → row.1 = row'.1 := by
    decide +kernel
  obtain ⟨first', last', h', hf', hl'⟩ := op.exists_type_eq
  exact hall _ h' _ h (Nat.le_trans hf' hl) (Nat.le_trans hf hl')

theorem NumericOp.isNumeric_type (op : NumericOp) : op.type.IsNumeric := by
  have hall : ∀ row ∈ operatorTypes, ∀ t ∈ row.1.params ++ row.1.results, t.isNumeric = true := by
    decide +kernel
  obtain ⟨first, last, h, -⟩ := op.exists_type_eq
  obtain ⟨hp, hr⟩ := List.forall_mem_append.mp (hall _ h)
  exact ⟨hp, hr⟩

theorem Truncation.getElem?_truncationTypes (op : Truncation) :
    truncationTypes[op.val]? = some op.type := by
  revert op
  decide

theorem Truncation.isNumeric_type (op : Truncation) : op.type.IsNumeric := by
  have hall : ∀ op : Truncation, ∀ t ∈ op.type.params ++ op.type.results, t.isNumeric = true := by
    decide
  obtain ⟨hp, hr⟩ := List.forall_mem_append.mp (hall op)
  exact ⟨hp, hr⟩

theorem Access.isNumeric_type {op : UInt8} {a : Access} (h : Access.ofOpcode? op = some a) :
    a.type.IsNumeric := by
  have hall : ∀ a ∈ Access.all, ∀ t ∈ a.type.params ++ a.type.results, t.isNumeric = true := by
    decide
  rw [ofOpcode?] at h
  split at h
  · obtain ⟨hp, hr⟩ := List.forall_mem_append.mp (hall a (List.mem_of_getElem? h))
    exact ⟨hp, hr⟩
  · cases h

/-- The alignment of an access is at most its size. -/
theorem Access.allowsAlignment_iff {a : Access} {align : UInt32} :
    a.allowsAlignment align = true ↔ 2 ^ align.toNat ≤ a.bytes := by
  have hbytes : a.bytes ≤ 2 ^ 3 := by
    cases a with
    | load _ kind => cases kind <;> simp [bytes, LoadKind.bytes]
    | store _ width => cases width <;> simp [bytes, StoreWidth.bytes]
  rw [allowsAlignment, Bool.and_eq_true, decide_eq_true_iff, decide_eq_true_iff, Nat.one_shiftLeft]
  constructor
  · exact fun h => h.2
  · intro h
    refine ⟨?_, h⟩
    rw [UInt32.le_iff_toNat_le]
    exact (Nat.pow_le_pow_iff_right Nat.one_lt_two).mp (Nat.le_trans h hbytes)

/-! ## Instructions -/

/-- The context of code of a function, inside of frames with these labels. -/
def Scope.context (scope : Scope) (labels : List (List ValueType)) : Context :=
  scope.space.context scope.locals.toList scope.results labels

namespace Source

/-- Whether an instruction takes and leaves operands of fixed types. -/
def Op.isFixed : Op → Bool
  | .unreachable | .br _ | .brIf _ | .brTable .. | .ret | .drop | .select => false
  | _ => true

variable {scope : Scope} {labels : List (List ValueType)} {depth : ℕ}

theorem exists_memory?_iff {x : UInt32} :
    (∃ loc, memory? scope.space x = some loc) ↔ x.toNat < (scope.context labels).memories := by
  show _ ↔ x.toNat < scope.space.memories.entries.length
  rw [← Namespace.exists_get?_iff, memory?, IndexSpace.memory]
  cases scope.space.memories.get? x <;> simp [Except.toOption]

theorem locate_of_memory? {x : UInt32} {loc : Location} (h : memory? scope.space x = some loc) :
    scope.space.memories.locate x = loc := by
  rw [memory?, IndexSpace.memory, Namespace.get?] at h
  cases he : (scope.space.memories.imported ++ scope.space.memories.defined)[x.toNat]? with
  | none =>
    rw [he] at h
    cases h
  | some limits =>
    rw [he] at h
    exact Option.some.inj h

theorem exists_table_iff {x : UInt32} :
    (∃ p, scope.space.table x = .ok p) ↔ x.toNat < (scope.context labels).tables := by
  show _ ↔ x.toNat < scope.space.tables.entries.length
  rw [← Namespace.exists_get?_iff, IndexSpace.table]
  cases scope.space.tables.get? x <;> simp

theorem toOption_eq_some_iff {ε α : Type} {x : Except ε α} {a : α} :
    x.toOption = some a ↔ x = .ok a := by
  cases x <;> simp [Except.toOption]

theorem exists_width {t : ValueType} (h : t.isNumeric = true) : ∃ width, t.width = .ok width := by
  simp only [ValueType.isNumeric, Bool.or_eq_true, beq_iff_eq, or_assoc] at h
  rcases h with rfl | rfl | rfl | rfl <;> exact ⟨_, rfl⟩

theorem global?_eq_some_iff {x : UInt32} {loc : Location} {g : GlobalType} {width : UInt32} :
    global? scope.space x = some (loc, g, width) ↔
      scope.space.global x = .ok (loc, some g) ∧ g.valueType.width = .ok width := by
  rw [global?]
  cases scope.space.global x with
  | error e => simp [Except.toOption]
  | ok p =>
    obtain ⟨loc', o⟩ := p
    cases o with
    | none => simp [Except.toOption]
    | some g' =>
      cases hw : g'.valueType.width with
      | error e =>
        simp only [Except.toOption, Option.bind_eq_bind, Option.bind_some, hw, Option.bind_none]
        grind
      | ok w =>
        simp only [Except.toOption, Option.bind_eq_bind, Option.bind_some, hw]
        grind

/-- The rule for an instruction of fixed types gives the type of what it resolves to. -/
theorem exists_resolve_of_hasType (hc : scope.space.Complete) {o : Op} {ps rs : List ValueType}
    (h : o.HasType (scope.context labels) ps rs) (ho : o.isFixed = true) :
    ∃ i, o.resolve scope depth = some i ∧ i.type? = some ⟨ps, rs⟩ := by
  cases h with
  | unreachable | br | brIf | brTable | ret | drop | select => cases ho
  | nop => exact ⟨_, rfl, rfl⟩
  | call h =>
    obtain ⟨loc, hf⟩ := hc.function_iff.mpr h
    exact ⟨_, by rw [Op.resolve, hf]; rfl, rfl⟩
  | callIndirect hy hx =>
    obtain ⟨⟨loc, limits⟩, hx⟩ := exists_table_iff.mpr hx
    exact ⟨_, by rw [Op.resolve, hc.type_iff.mpr hy, hx]; rfl, rfl⟩
  | typedSelect h => exact ⟨_, rfl, rfl⟩
  | @localGet x t h =>
    refine ⟨.localGet x t, ?_, rfl⟩
    rw [Op.resolve, Locals.get?_eq_getElem?]
    exact congrArg _ h
  | @localSet x t h =>
    refine ⟨.localSet x t, ?_, rfl⟩
    rw [Op.resolve, Locals.get?_eq_getElem?]
    exact congrArg _ h
  | @localTee x t h =>
    refine ⟨.localTee x t, ?_, rfl⟩
    rw [Op.resolve, Locals.get?_eq_getElem?]
    exact congrArg _ h
  | globalGet h =>
    obtain ⟨loc, hg⟩ := hc.global_iff.mpr h
    obtain ⟨width, hw⟩ := exists_width (hc.isNumeric_global hg)
    exact ⟨_, by rw [Op.resolve, global?_eq_some_iff.mpr ⟨hg, hw⟩]; rfl, rfl⟩
  | globalSet h hm =>
    obtain ⟨loc, hg⟩ := hc.global_iff.mpr h
    obtain ⟨width, hw⟩ := exists_width (hc.isNumeric_global hg)
    refine ⟨.globalSet loc _ width, ?_, rfl⟩
    rw [Op.resolve, global?_eq_some_iff.mpr ⟨hg, hw⟩]
    exact if_pos hm
  | @load t kind _ offset _ hx ha =>
    obtain ⟨loc, hx⟩ := exists_memory?_iff.mpr hx
    refine ⟨.access (.load t kind) offset loc, ?_, rfl⟩
    rw [Op.resolve, if_pos (Access.allowsAlignment_iff.mpr ha), hx]
    rfl
  | @store t width _ offset _ hx ha =>
    obtain ⟨loc, hx⟩ := exists_memory?_iff.mpr hx
    refine ⟨.access (.store t width) offset loc, ?_, rfl⟩
    rw [Op.resolve, if_pos (Access.allowsAlignment_iff.mpr ha), hx]
    rfl
  | memorySize hx =>
    obtain ⟨loc, hx⟩ := exists_memory?_iff.mpr hx
    exact ⟨_, by rw [Op.resolve, hx]; rfl, rfl⟩
  | memoryGrow hx =>
    obtain ⟨loc, hx⟩ := exists_memory?_iff.mpr hx
    exact ⟨_, by rw [Op.resolve, hx]; rfl, rfl⟩
  | memoryCopy hx =>
    obtain ⟨loc, hx⟩ := exists_memory?_iff.mpr hx
    refine ⟨.memoryCopy loc, ?_, rfl⟩
    rw [Op.resolve, hx]
    exact if_pos rfl
  | memoryFill hx =>
    obtain ⟨loc, hx⟩ := exists_memory?_iff.mpr hx
    exact ⟨_, by rw [Op.resolve, hx]; rfl, rfl⟩
  | i32Const | i64Const | f32Const | f64Const => exact ⟨_, rfl, rfl⟩
  | numeric h hf hl => exact ⟨_, rfl, congrArg some (NumericOp.type_eq h hf hl)⟩
  | @truncate op type h =>
    rw [op.getElem?_truncationTypes] at h
    exact ⟨_, rfl, h⟩

/-- What an instruction resolves to has a type that a rule gives. -/
theorem hasType_of_resolve (hc : scope.space.Complete) {o : Op} {bs : List UInt8}
    (he : o.Encoded bs) {i : Instr} {type : FuncType} (hi : o.resolve scope depth = some i)
    (ht : i.type? = some type) : o.HasType (scope.context labels) type.params type.results := by
  have hlocal : ∀ {x : UInt32} {mk : ValueType → Instr},
      (scope.locals.get? x.toNat).map mk = some i →
        ∃ t, (scope.context labels).locals[x.toNat]? = some t ∧ mk t = i := by
    intro x mk h
    obtain ⟨t, ht, hm⟩ := Option.map_eq_some_iff.mp h
    rw [Locals.get?_eq_getElem?] at ht
    exact ⟨t, ht, hm⟩
  have hmemory : ∀ {x : UInt32} {mk : Location → Instr},
      (memory? scope.space x).map mk = some i →
        x.toNat < (scope.context labels).memories ∧ ∃ loc, mk loc = i := by
    intro x mk h
    obtain ⟨loc, hl, hm⟩ := Option.map_eq_some_iff.mp h
    exact ⟨exists_memory?_iff.mp ⟨loc, hl⟩, loc, hm⟩
  cases he with
  | unreachable | ret | drop | select =>
    cases hi
    cases ht
  | br _ | brIf _ =>
    obtain ⟨d, -, rfl⟩ := Option.map_eq_some_iff.mp hi
    cases ht
  | brTable _ _ _ _ =>
    obtain ⟨ds, -, h'⟩ := Option.bind_eq_some_iff.mp hi
    obtain ⟨d, -, h''⟩ := Option.bind_eq_some_iff.mp h'
    cases h''
    cases ht
  | nop =>
    cases hi
    cases ht
    exact .nop
  | call _ =>
    obtain ⟨⟨loc, o⟩, hf, h'⟩ := Option.bind_eq_some_iff.mp hi
    obtain ⟨type', rfl, h''⟩ := Option.bind_eq_some_iff.mp h'
    cases h''
    cases ht
    exact .call (hc.function_iff.mp ⟨loc, toOption_eq_some_iff.mp hf⟩)
  | callIndirect _ _ =>
    obtain ⟨o, hy, h'⟩ := Option.bind_eq_some_iff.mp hi
    obtain ⟨p, hx, h''⟩ := Option.bind_eq_some_iff.mp h'
    obtain ⟨type', rfl, h₃⟩ := Option.bind_eq_some_iff.mp h''
    cases h₃
    cases ht
    exact .callIndirect (hc.type_iff.mp (toOption_eq_some_iff.mp hy))
      (exists_table_iff.mp ⟨p, toOption_eq_some_iff.mp hx⟩)
  | typedSelect _ hn =>
    cases hi
    cases ht
    exact .typedSelect hn
  | localGet _ =>
    obtain ⟨t, h, rfl⟩ := hlocal hi
    cases ht
    exact .localGet h
  | localSet _ =>
    obtain ⟨t, h, rfl⟩ := hlocal hi
    cases ht
    exact .localSet h
  | localTee _ =>
    obtain ⟨t, h, rfl⟩ := hlocal hi
    cases ht
    exact .localTee h
  | globalGet _ =>
    obtain ⟨⟨loc, g, width⟩, hg, rfl⟩ := Option.map_eq_some_iff.mp hi
    cases ht
    exact .globalGet (hc.global_iff.mp ⟨loc, (global?_eq_some_iff.mp hg).1⟩)
  | globalSet _ =>
    obtain ⟨⟨loc, g, width⟩, hg, h'⟩ := Option.bind_eq_some_iff.mp hi
    dsimp only at h'
    split at h'
    · next hm =>
      cases h'
      cases ht
      exact .globalSet (hc.global_iff.mp ⟨loc, (global?_eq_some_iff.mp hg).1⟩) hm
    · cases h'
  | @access a _ _ _ _ _ _ _ =>
    rw [Op.resolve] at hi
    split at hi
    · next ha =>
      obtain ⟨hx, loc, rfl⟩ := hmemory hi
      cases ht
      cases a with
      | load t kind => exact .load hx (Access.allowsAlignment_iff.mp ha)
      | store t width => exact .store hx (Access.allowsAlignment_iff.mp ha)
    · cases hi
  | memorySize _ =>
    obtain ⟨hx, loc, rfl⟩ := hmemory hi
    cases ht
    exact .memorySize hx
  | memoryGrow _ =>
    obtain ⟨hx, loc, rfl⟩ := hmemory hi
    cases ht
    exact .memoryGrow hx
  | @memoryCopy x y _ _ _ _ _ _ =>
    obtain ⟨loc, hx, h'⟩ := Option.bind_eq_some_iff.mp hi
    obtain ⟨loc', hy, h''⟩ := Option.bind_eq_some_iff.mp h'
    split at h''
    · next heq =>
      cases h''
      cases ht
      -- one place is one index
      rw [scope.space.memories.locate_injective
        ((locate_of_memory? hx).trans (heq.trans (locate_of_memory? hy).symm))]
      exact .memoryCopy (exists_memory?_iff.mp ⟨loc', hy⟩)
    · cases h''
  | memoryFill _ _ =>
    obtain ⟨hx, loc, rfl⟩ := hmemory hi
    cases ht
    exact .memoryFill hx
  | i32Const _ =>
    cases hi
    cases ht
    exact .i32Const _
  | i64Const _ =>
    cases hi
    cases ht
    exact .i64Const _
  | f32Const _ =>
    cases hi
    cases ht
    exact .f32Const _
  | f64Const _ =>
    cases hi
    cases ht
    exact .f64Const _
  | numeric op =>
    cases hi
    cases ht
    obtain ⟨first, last, h, hf, hl⟩ := op.exists_type_eq
    exact .numeric h hf hl
  | @truncate op _ _ =>
    cases hi
    cases ht
    exact .truncate op.getElem?_truncationTypes

/-- Block types stand for the same function types. -/
theorem blockType?_eq (hc : scope.space.Complete) (t : BlockType) :
    (scope.context labels).blockType? t = t.resolve scope.space := by
  cases t with
  | empty => rfl
  | value t => rfl
  | index i =>
    rw [Context.blockType?, BlockType.resolve]
    ext type
    rw [Option.join_eq_some_iff, toOption_eq_some_iff]
    exact hc.type_iff.symm

/-! ## Numeric types only -/

/-- All types of a context are numeric. -/
structure Context.IsNumeric (C : Context) : Prop where
  types : ∀ type ∈ C.types, type.IsNumeric
  functions : ∀ type ∈ C.functions, type.IsNumeric
  globals : ∀ g ∈ C.globals, g.valueType.isNumeric = true
  locals : AllNumeric C.locals
  labels : ∀ ts ∈ C.labels, AllNumeric ts
  results : AllNumeric C.results

theorem Context.IsNumeric.inside {C : Context} (h : C.IsNumeric) {label : List ValueType}
    (hl : AllNumeric label) : (C.inside label).IsNumeric :=
  ⟨h.types, h.functions, h.globals, h.locals, List.forall_mem_cons.mpr ⟨hl, h.labels⟩, h.results⟩

theorem isNumeric_context (hc : scope.space.Complete) (hl : AllNumeric scope.locals.toList)
    (hr : AllNumeric scope.results) (hls : ∀ ts ∈ labels, AllNumeric ts) :
    (scope.context labels).IsNumeric := by
  refine ⟨fun type ht => ?_, fun type ht => ?_, fun g hg => ?_, hl, hls, hr⟩
  · obtain ⟨o, ho, h⟩ := List.mem_filterMap.mp ht
    obtain ⟨type', rfl, hn⟩ := hc.types o ho
    cases h
    exact hn
  · obtain ⟨i, -, h⟩ := List.mem_filterMap.mp ht
    exact hc.isNumeric_type (Option.join_eq_some_iff.mp h)
  · obtain ⟨o, ho, h⟩ := List.mem_filterMap.mp hg
    have hn : ∃ g, o = some g ∧ g.valueType.isNumeric = true := by
      rcases List.mem_append.mp ho with ho | ho
      · exact hc.importedGlobals o ho
      · exact hc.definedGlobals o ho
    obtain ⟨g', rfl, hn⟩ := hn
    cases h
    exact hn

theorem isNumeric_blockType {C : Context} (hC : C.IsNumeric) {t : BlockType} {bs : List UInt8}
    (he : t.Encoded bs) {type : FuncType} (h : C.blockType? t = some type) : type.IsNumeric := by
  cases he with
  | empty =>
    cases h
    exact ⟨nofun, nofun⟩
  | value hn =>
    cases h
    exact ⟨nofun, allNumeric_singleton.mpr hn⟩
  | index _ => exact hC.types type (List.mem_of_getElem? h)

theorem isNumeric_of_hasType {C : Context} (hC : C.IsNumeric) {o : Op} {bs : List UInt8}
    (he : o.Encoded bs) (ho : o.isFixed = true) {ps rs : List ValueType} (h : o.HasType C ps rs) :
    AllNumeric ps ∧ AllNumeric rs := by
  have hnil : AllNumeric [] := nofun
  have hi32 : AllNumeric [.i32] := allNumeric_singleton.mpr rfl
  have hthree : AllNumeric [.i32, .i32, .i32] := hi32.append (hi32.append hi32)
  cases h with
  | unreachable | br | brIf | brTable | ret | drop | select => cases ho
  | nop => exact ⟨hnil, hnil⟩
  | call h =>
    have hn := hC.functions _ (List.mem_of_getElem? h)
    exact ⟨hn.params, hn.results⟩
  | callIndirect hy _ =>
    have hn := hC.types _ (List.mem_of_getElem? hy)
    exact ⟨hn.params.append hi32, hn.results⟩
  | typedSelect hn =>
    have ht := allNumeric_singleton.mpr hn
    exact ⟨ht.append (ht.append hi32), ht⟩
  | localGet h =>
    exact ⟨hnil, allNumeric_singleton.mpr (hC.locals _ (List.mem_of_getElem? h))⟩
  | localSet h =>
    exact ⟨allNumeric_singleton.mpr (hC.locals _ (List.mem_of_getElem? h)), hnil⟩
  | localTee h =>
    have ht := allNumeric_singleton.mpr (hC.locals _ (List.mem_of_getElem? h))
    exact ⟨ht, ht⟩
  | globalGet h =>
    exact ⟨hnil, allNumeric_singleton.mpr (hC.globals _ (List.mem_of_getElem? h))⟩
  | globalSet h _ =>
    exact ⟨allNumeric_singleton.mpr (hC.globals _ (List.mem_of_getElem? h)), hnil⟩
  | load _ _ =>
    cases he with
    | access ha _ => exact ⟨hi32, (Access.isNumeric_type ha).results⟩
  | store _ _ =>
    cases he with
    | access ha _ => exact ⟨(Access.isNumeric_type ha).params, hnil⟩
  | memorySize _ => exact ⟨hnil, hi32⟩
  | memoryGrow _ => exact ⟨hi32, hi32⟩
  | memoryCopy _ | memoryFill _ => exact ⟨hthree, hnil⟩
  | i32Const | i64Const | f32Const | f64Const => exact ⟨hnil, allNumeric_singleton.mpr rfl⟩
  | @numeric op _ _ _ h hf hl =>
    have hn := op.isNumeric_type
    rw [NumericOp.type_eq h hf hl] at hn
    exact ⟨hn.params, hn.results⟩
  | @truncate op _ h =>
    have hn := op.isNumeric_type
    rw [Option.some.inj (op.getElem?_truncationTypes.symm.trans h)] at hn
    exact ⟨hn.params, hn.results⟩

end Source

end FlatWasm
