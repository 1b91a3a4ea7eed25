import Mathlib
import FlatWasm.Proofs.Compilation.Defects
import FlatWasm.Proofs.Flow.Selected
import FlatWasm.Proofs.Flow.Ways
import FlatWasm.Proofs.Linking.Instantiation

/-!
# Every location leads to the right entity

Positions are counted in four places: when index spaces are built, when imports are bound, when stores are made and when
functions are collected.  `Instance.Locates` says that they agree.  Every index of a namespace has a location, and the location
leads, in an instance of the module, to the binding of the import with that index or to what was made of the definition with
that index.

All locations that a module uses are locations of indices, so they lead somewhere: those in flat code
(`Function.exists_located_lines`), those of exports and that of the start function.
-/

namespace FlatWasm

/-! ## Index spaces of a compiled module -/

namespace Module

variable {m : Module} {config : Config} {stopped : Bool} {c : Compiled}

theorem isLaidOut_of_compile (h : m.compile config stopped = .ok c) :
    c.space.IsLaidOut c.module := by
  obtain ⟨rfl, functions, hprepare, -, -⟩ := compile_eq_ok_iff.mp h
  exact IndexSpace.isLaidOut_of_indexSpace (prepare_eq_ok_iff.mp hprepare).2.1

theorem complete_of_compile (h : m.compile config stopped = .ok c) : c.space.Complete := by
  obtain ⟨-, functions, hprepare, -, -⟩ := compile_eq_ok_iff.mp h
  exact complete_of_prepare hprepare

/-- A compiled function is what was lowered of the code at its position. -/
theorem exists_of_compile (h : m.compile config stopped = .ok c) {j : ℕ} {typeIndex : UInt32}
    (hj : c.module.functions[j]? = some typeIndex) :
    ∃ type code f, c.space.type typeIndex = .ok (some type) ∧ c.module.code[j]? = some code ∧
      c.functions[j]? = some f ∧ f.type = type ∧
      Function.lower { index := UInt32.ofNat c.space.functions.imported.length + UInt32.ofNat j,
                       type, locals := code.locals, body := .raw code.body } c.space = .ok f := by
  obtain ⟨rfl, functions, hprepare, -, hlowered⟩ := compile_eq_ok_iff.mp h
  obtain ⟨-, -, -, hraw⟩ := prepare_eq_ok_iff.mp hprepare
  have hlt : j < functions.length := by
    rw [length_rawFunctions hraw]
    exact (List.getElem?_eq_some_iff.mp hj).1
  obtain ⟨typeIndex', type, code, ht, htype, hcode, hf⟩ :=
    exists_of_rawFunctions hraw (List.getElem?_eq_getElem hlt)
  cases hj.symm.trans ht
  obtain ⟨g, hg, hlower⟩ := exists_getElem?_of_forall₂ hlowered.flip (List.getElem?_eq_getElem hlt)
  rw [hf] at hlower
  refine ⟨type, code, g, htype, hcode, hg, ?_, hlower⟩
  obtain ⟨lowered, -, -, rfl⟩ := Function.lower_eq_ok_iff.mp hlower
  rfl

end Module

namespace IndexSpace

variable {space : IndexSpace} {i : UInt32}

theorem memory_eq_ok_iff {found : Location × Option Limits} :
    space.memory i = .ok found ↔ space.memories.get? i = some found := by
  rw [memory]
  cases space.memories.get? i <;> simp

theorem table_eq_ok_iff {found : Location × Option Limits} :
    space.table i = .ok found ↔ space.tables.get? i = some found := by
  rw [table]
  cases space.tables.get? i <;> simp

theorem global_eq_ok_iff {found : Location × Option GlobalType} :
    space.global i = .ok found ↔ space.globals.get? i = some found := by
  rw [global]
  cases space.globals.get? i <;> simp

theorem type_eq_ok_iff {o : Option FuncType} :
    space.type i = .ok o ↔ space.types[i.toNat]? = some o := by
  rw [type]
  cases space.types[i.toNat]? <;> simp

/-- A function index has the type that the function is declared with. -/
theorem function_of_get? {loc : Location} {typeIndex : UInt32} {type : FuncType}
    (h : space.functions.get? i = some (loc, typeIndex))
    (ht : space.type typeIndex = .ok (some type)) : space.function i = .ok (loc, some type) := by
  rw [function, h]
  dsimp only
  rw [type_eq_ok_iff.mp ht]
  rfl

end IndexSpace

/-! ## Instances -/

namespace Instance

/-- The function indices.  Behind an import is the host function that its name is bound to; behind a definition is the
function lowered of its code. -/
structure LocatesFunctions (inst : Instance) (imports : Imports) : Prop where
  imported : ∀ (i : UInt32) (im : Import),
    (importsOf .func inst.compiled.module.imports)[i.toNat]? = some im →
    ∃ loc type, inst.compiled.space.function i = .ok (loc, some type) ∧ loc.origin = .imported ∧
      inst.hosts[loc.position.toNat]? = some type ∧
      imports.BindsFunction inst.compiled.space im type
  defined : ∀ (i : UInt32) (j : ℕ) (typeIndex : UInt32),
    i.toNat = (importsOf .func inst.compiled.module.imports).length + j →
    inst.compiled.module.functions[j]? = some typeIndex →
    ∃ loc type code f, inst.compiled.space.function i = .ok (loc, some type) ∧
      loc.origin = .defined ∧ inst.function? loc.position = some f ∧ f.type = type ∧
      inst.compiled.space.type typeIndex = .ok (some type) ∧
      inst.compiled.module.code[j]? = some code ∧
      Function.lower { index := i, type, locals := code.locals, body := .raw code.body }
        inst.compiled.space = .ok f

/-- The global indices.  Behind an import is the global that its name is bound to; behind a definition is a new global.  Both
are of the declared type.  Here and below, `p` is the pool that the module was instantiated in and `q` is the pool now. -/
structure LocatesGlobals (inst : Instance) (imports : Imports) (p q : Pool) : Prop where
  imported : ∀ (i : UInt32) (im : Import),
    (importsOf .global inst.compiled.module.imports)[i.toNat]? = some im →
    ∃ loc a cell, inst.compiled.space.global i = .ok (loc, some cell.type) ∧
      im.desc = .global (some cell.type) ∧ imports.globals.find? im.fullName = some a ∧
      inst.globals.at? loc = some a ∧ inst.global? q loc = some cell
  defined : ∀ (i : UInt32) (j : ℕ) (g : Global),
    i.toNat = (importsOf .global inst.compiled.module.imports).length + j →
    inst.compiled.module.globals[j]? = some g →
    ∃ loc cell, inst.compiled.space.global i = .ok (loc, some cell.type) ∧
      g.type = some cell.type ∧ inst.globals.at? loc = some (p.globals.size + j) ∧
      inst.global? q loc = some cell

/-- The memory indices.  A memory that is imported has served the declared limits when it was bound; one that the module
defines has these limits. -/
structure LocatesMemories (inst : Instance) (config : Config) (imports : Imports) (p q : Pool) :
    Prop where
  imported : ∀ (i : UInt32) (im : Import),
    (importsOf .memory inst.compiled.module.imports)[i.toNat]? = some im →
    ∃ loc limits a before memory, inst.compiled.space.memory i = .ok (loc, some limits) ∧
      im.desc = .memory (some limits) ∧ imports.memories.find? im.fullName = some a ∧
      inst.memories.at? loc = some a ∧ p.memories[a]? = some before ∧
      before.store.Serves limits ∧ inst.memory? q loc = some memory ∧ before.Evolves memory
  defined : ∀ (i : UInt32) (j : ℕ) (limits : Limits),
    i.toNat = (importsOf .memory inst.compiled.module.imports).length + j →
    inst.compiled.module.memories[j]? = some limits →
    ∃ loc memory, inst.compiled.space.memory i = .ok (loc, some limits) ∧
      inst.memories.at? loc = some (p.memories.size + j) ∧ inst.memory? q loc = some memory ∧
      memory.store.min = limits.min ∧ memory.store.max = limits.maxOr config.maxPages

/-- The table indices, in the same way. -/
structure LocatesTables (inst : Instance) (imports : Imports) (p q : Pool) : Prop where
  imported : ∀ (i : UInt32) (im : Import),
    (importsOf .table inst.compiled.module.imports)[i.toNat]? = some im →
    ∃ loc limits a before table, inst.compiled.space.table i = .ok (loc, some limits) ∧
      im.desc = .table (some limits) ∧ imports.tables.find? im.fullName = some a ∧
      inst.tables.at? loc = some a ∧ p.tables[a]? = some before ∧
      before.store.Serves limits ∧ inst.table? q loc = some table ∧ before.Evolves table
  defined : ∀ (i : UInt32) (j : ℕ) (limits : Limits),
    i.toNat = (importsOf .table inst.compiled.module.imports).length + j →
    inst.compiled.module.tables[j]? = some limits →
    ∃ loc table, inst.compiled.space.table i = .ok (loc, some limits) ∧
      inst.tables.at? loc = some (p.tables.size + j) ∧ inst.table? q loc = some table ∧
      table.store.min = limits.min ∧ table.store.max = limits.maxOr Limits.maxEntries

/-- Every index leads to the right entity. -/
structure Locates (inst : Instance) (config : Config) (imports : Imports) (p q : Pool) : Prop where
  functions : inst.LocatesFunctions imports
  globals : inst.LocatesGlobals imports p q
  memories : inst.LocatesMemories config imports p q
  tables : inst.LocatesTables imports p q

end Instance

namespace Compiled

variable {m : Module} {config config' : Config} {stopped : Bool} {c : Compiled} {imports : Imports}
  {p q : Pool} {r : Bound} {s : Allotment}

theorem locatesFunctions (hc : m.compile config stopped = .ok c)
    (hs : c.Allots config' imports p r s) : (c.instanceOf r p s).LocatesFunctions imports := by
  have hl := Module.isLaidOut_of_compile hc
  have hr := Imports.resolves_of_resolve hs.bound
  constructor
  · intro i im him
    obtain ⟨typeIndex, htype, hdesc⟩ := hl.imports.functions.exists_of_getElem? him
    obtain ⟨type, hhost, hbinds⟩ := exists_getElem?_of_forall₂ hr.functions.flip him
    obtain ⟨typeIndex', hdesc', hdeclared⟩ := hbinds.declared
    cases hdesc.symm.trans hdesc'
    exact ⟨⟨.imported, i⟩, type,
      IndexSpace.function_of_get? (Namespace.get?_imported htype) hdeclared, rfl, hhost, hbinds⟩
  · intro i j typeIndex hi hj
    obtain ⟨type, code, f, htype, hcode, hf, hft, hlower⟩ := Module.exists_of_compile hc hj
    replace hi : i.toNat = c.space.functions.imported.length + j :=
      hl.imports.functions.length_eq ▸ hi
    have hindex : UInt32.ofNat c.space.functions.imported.length + UInt32.ofNat j = i := by
      rw [← UInt32.ofNat_add, ← hi, UInt32.ofNat_toNat]
    rw [hindex] at hlower
    have hget := Namespace.get?_defined hi (hl.functions ▸ hj)
    have hfunction : (c.instanceOf r p s).function? (UInt32.ofNat j) = some f := by
      rw [Instance.function?, Namespace.toNat_position hi]
      exact hf
    exact ⟨⟨.defined, UInt32.ofNat j⟩, type, code, f, IndexSpace.function_of_get? hget htype, rfl,
      hfunction, hft, htype, hcode, hlower⟩

theorem locatesGlobals (hc : m.compile config stopped = .ok c)
    (hs : c.Allots config' imports p r s) (hq : (p.allot s).Evolves q) :
    (c.instanceOf r p s).LocatesGlobals imports p q := by
  have hl := Module.isLaidOut_of_compile hc
  have hr := Imports.resolves_of_resolve hs.bound
  constructor
  · intro i im him
    obtain ⟨o, a, hget, hdesc, hat, hname, cell, hcell, hdeclared, -⟩ :=
      hl.imports.globals.resolve_imported (c.instanceOf r p s).globals hr.globals him
    obtain ⟨cell', hcell', he⟩ := (hs.evolves.trans hq).globals a cell hcell
    rw [← he.type] at hdeclared
    cases hdesc.symm.trans hdeclared
    exact ⟨⟨.imported, i⟩, a, cell', IndexSpace.global_eq_ok_iff.mpr hget, hdesc, hname, hat,
      Option.bind_eq_some_iff.mpr ⟨a, hat, hcell'⟩⟩
  · intro i j g hi hj
    obtain ⟨a, hget, hat, ha, cell, hcell, htype⟩ :=
      hl.imports.globals.resolve_defined hl.globals (c.instanceOf r p s).globals
        (forall₂_addresses hs.globals.forall₂_type p.globals) hi hj
    obtain ⟨cell', hcell', he⟩ := hq.globals a cell hcell
    obtain rfl := eq_add_of_getElem?_range' ha
    rw [← he.type] at htype
    exact ⟨⟨.defined, UInt32.ofNat j⟩, cell', IndexSpace.global_eq_ok_iff.mpr (htype ▸ hget), htype,
      hat, Option.bind_eq_some_iff.mpr ⟨_, hat, hcell'⟩⟩

theorem locatesMemories (hc : m.compile config stopped = .ok c)
    (hs : c.Allots config' imports p r s) (hq : (p.allot s).Evolves q) :
    (c.instanceOf r p s).LocatesMemories config' imports p q := by
  have hl := Module.isLaidOut_of_compile hc
  have hr := Imports.resolves_of_resolve hs.bound
  constructor
  · intro i im him
    obtain ⟨o, a, hget, hdesc, hat, hname, before, limits, hbefore, hdeclared, hserves⟩ :=
      hl.imports.memories.resolve_imported (c.instanceOf r p s).memories hr.memories him
    obtain ⟨memory, hmemory, he⟩ := (hs.evolves.trans hq).memories a before hbefore
    cases hdesc.symm.trans hdeclared
    exact ⟨⟨.imported, i⟩, limits, a, before, memory, IndexSpace.memory_eq_ok_iff.mpr hget, hdesc,
      hname, hat, hbefore, hserves, Option.bind_eq_some_iff.mpr ⟨a, hat, hmemory⟩, he⟩
  · intro i j limits hi hj
    obtain ⟨a, hget, hat, ha, new, hnew, hallocate⟩ :=
      hl.imports.memories.resolve_defined hl.memories (c.instanceOf r p s).memories
        (forall₂_addresses hs.memories p.memories) hi hj
    obtain ⟨memory, hmemory, he⟩ := hq.memories a new hnew
    obtain rfl := eq_add_of_getElem?_range' ha
    obtain ⟨-, rfl⟩ := Memory.allocate_eq_ok_iff.mp hallocate
    exact ⟨⟨.defined, UInt32.ofNat j⟩, memory, IndexSpace.memory_eq_ok_iff.mpr hget, hat,
      Option.bind_eq_some_iff.mpr ⟨_, hat, hmemory⟩, he.min, he.max⟩

theorem locatesTables (hc : m.compile config stopped = .ok c)
    (hs : c.Allots config' imports p r s) (hq : (p.allot s).Evolves q) :
    (c.instanceOf r p s).LocatesTables imports p q := by
  have hl := Module.isLaidOut_of_compile hc
  have hr := Imports.resolves_of_resolve hs.bound
  constructor
  · intro i im him
    obtain ⟨o, a, hget, hdesc, hat, hname, before, limits, hbefore, hdeclared, hserves⟩ :=
      hl.imports.tables.resolve_imported (c.instanceOf r p s).tables hr.tables him
    obtain ⟨table, htable, he⟩ := (hs.evolves.trans hq).tables a before hbefore
    cases hdesc.symm.trans hdeclared
    exact ⟨⟨.imported, i⟩, limits, a, before, table, IndexSpace.table_eq_ok_iff.mpr hget, hdesc,
      hname, hat, hbefore, hserves, Option.bind_eq_some_iff.mpr ⟨a, hat, htable⟩, he⟩
  · intro i j limits hi hj
    obtain ⟨a, hget, hat, ha, new, hnew, hallocate⟩ :=
      hl.imports.tables.resolve_defined hl.tables (c.instanceOf r p s).tables
        (forall₂_addresses hs.tables p.tables) hi hj
    obtain ⟨table, htable, he⟩ := hq.tables a new hnew
    obtain rfl := eq_add_of_getElem?_range' ha
    obtain ⟨-, rfl⟩ := Table.allocate_eq_ok_iff.mp hallocate
    exact ⟨⟨.defined, UInt32.ofNat j⟩, table, IndexSpace.table_eq_ok_iff.mpr hget, hat,
      Option.bind_eq_some_iff.mpr ⟨_, hat, htable⟩, he.min, he.max⟩

/-- **Every index leads to the right entity**, from the moment the stores are made. -/
theorem locates (hc : m.compile config stopped = .ok c) (hs : c.Allots config' imports p r s)
    (hq : (p.allot s).Evolves q) : (c.instanceOf r p s).Locates config' imports p q :=
  ⟨locatesFunctions hc hs, locatesGlobals hc hs hq, locatesMemories hc hs hq, locatesTables hc hs hq⟩

end Compiled

/-! ## Every location that is used -/

namespace Instance

variable {inst : Instance} {config : Config} {imports : Imports} {p q : Pool} {i : UInt32}
  {loc : Location}

/-- The types of the functions, by location. -/
def signatures (inst : Instance) : Namespace FuncType where
  imported := inst.hosts
  defined := inst.compiled.functions.map Function.type

section Indices

variable (h : inst.Locates config imports p q)
  (hl : inst.compiled.space.IsLaidOut inst.compiled.module)

include h hl

theorem Locates.exists_signature {o : Option FuncType}
    (hi : inst.compiled.space.function i = .ok (loc, o)) :
    ∃ type, inst.signatures.at? loc = some type ∧ o = some type := by
  have hget : ∃ found, inst.compiled.space.functions.get? i = some found := by
    rw [IndexSpace.function] at hi
    split at hi
    · next found => exact ⟨_, found⟩
    · cases hi
  obtain ⟨found, hget⟩ := hget
  have hdefs := hl.functions.trans (List.map_id _).symm
  rcases hl.imports.functions.cases_of_get? hdefs hget with ⟨im, him⟩ | ⟨j, typeIndex, hij, hj⟩
  · obtain ⟨⟨_, position⟩, type, hi', rfl, hhost, -⟩ := h.functions.imported i im him
    cases hi.symm.trans hi'
    exact ⟨type, hhost, rfl⟩
  · obtain ⟨⟨_, position⟩, type, code, f, hi', rfl, hf, rfl, -⟩ :=
      h.functions.defined i j typeIndex hij hj
    cases hi.symm.trans hi'
    exact ⟨f.type, List.getElem?_map.trans (congrArg (Option.map _) hf), rfl⟩

theorem Locates.exists_global {o : Option GlobalType}
    (hi : inst.compiled.space.global i = .ok (loc, o)) :
    ∃ cell, inst.global? q loc = some cell ∧ o = some cell.type := by
  rcases hl.imports.globals.cases_of_get? hl.globals (IndexSpace.global_eq_ok_iff.mp hi) with
    ⟨im, him⟩ | ⟨j, g, hij, hj⟩
  · obtain ⟨loc', a, cell, hi', -, -, -, hcell⟩ := h.globals.imported i im him
    cases hi.symm.trans hi'
    exact ⟨cell, hcell, rfl⟩
  · obtain ⟨loc', cell, hi', -, -, hcell⟩ := h.globals.defined i j g hij hj
    cases hi.symm.trans hi'
    exact ⟨cell, hcell, rfl⟩

theorem Locates.exists_memory {o : Option Limits}
    (hi : inst.compiled.space.memory i = .ok (loc, o)) :
    ∃ a memory, inst.memories.at? loc = some a ∧ q.memories[a]? = some memory := by
  rcases hl.imports.memories.cases_of_get? hl.memories (IndexSpace.memory_eq_ok_iff.mp hi) with
    ⟨im, him⟩ | ⟨j, limits, hij, hj⟩
  · obtain ⟨loc', limits, a, before, memory, hi', -, -, -, -, -, hm, -⟩ :=
      h.memories.imported i im him
    cases hi.symm.trans hi'
    obtain ⟨a, ha, hm⟩ := Option.bind_eq_some_iff.mp hm
    exact ⟨a, memory, ha, hm⟩
  · obtain ⟨loc', memory, hi', -, hm, -⟩ := h.memories.defined i j limits hij hj
    cases hi.symm.trans hi'
    obtain ⟨a, ha, hm⟩ := Option.bind_eq_some_iff.mp hm
    exact ⟨a, memory, ha, hm⟩

theorem Locates.exists_table {o : Option Limits}
    (hi : inst.compiled.space.table i = .ok (loc, o)) :
    ∃ a table, inst.tables.at? loc = some a ∧ q.tables[a]? = some table := by
  rcases hl.imports.tables.cases_of_get? hl.tables (IndexSpace.table_eq_ok_iff.mp hi) with
    ⟨im, him⟩ | ⟨j, limits, hij, hj⟩
  · obtain ⟨loc', limits, a, before, table, hi', -, -, -, -, -, ht, -⟩ :=
      h.tables.imported i im him
    cases hi.symm.trans hi'
    obtain ⟨a, ha, ht⟩ := Option.bind_eq_some_iff.mp ht
    exact ⟨a, table, ha, ht⟩
  · obtain ⟨loc', table, hi', -, ht, -⟩ := h.tables.defined i j limits hij hj
    cases hi.symm.trans hi'
    obtain ⟨a, ha, ht⟩ := Option.bind_eq_some_iff.mp ht
    exact ⟨a, table, ha, ht⟩

end Indices

end Instance

/-! ### Flat code -/

/-- The location that an instruction names, if it names one, is the location of an index. -/
def Flat.Instr.IsLocated (space : IndexSpace) : Flat.Instr → Prop
  | .use kind origin position => ∃ index store, space.location? kind index = some store ∧
      origin = store.origin.code ∧ position = store.position
  | .callLocal position => ∃ index type, space.function index = .ok (⟨.defined, position⟩, some type)
  | .callImport position => ∃ index type,
      space.function index = .ok (⟨.imported, position⟩, some type)
  | _ => True

theorem Flat.Instr.ignoresTargets_isLocated (space : IndexSpace) :
    IgnoresTargets (IsLocated space) := by
  intro i f h
  cases i with
  | use | callLocal | callImport => exact h
  | _ => trivial

/-- What a token emits names the locations that the token was resolved to. -/
theorem Source.Token.isLocated_of_emits {t : Token} {scope : Scope} {depth : ℕ} {i : Instr}
    {j : Flat.Instr} (hr : t.resolve scope depth = some i) (he : i.Emits j) :
    j.IsLocated scope.space := by
  cases he with
  | jump hj => cases j <;> trivial
  | @marker kind store hs =>
    obtain ⟨o, rfl, hne, hnames⟩ := Token.names_of_resolve hr hs
    obtain ⟨s, hs⟩ := List.exists_mem_of_ne_nil _ hne
    exact ⟨s.2, store, (hnames s hs).2, rfl, rfl⟩
  | plain hf =>
    cases i with
    | call callee type =>
      obtain ⟨o, rfl⟩ : ∃ o, t = .op o := by
        cases t with
        | op o => exact ⟨o, rfl⟩
        | block _ | loop _ | ifThen _ =>
          obtain ⟨_, -, heq⟩ := Option.map_eq_some_iff.mp hr
          cases heq
        | elseMark | endMark => cases hr
      obtain ⟨index, hindex⟩ := Op.exists_function_of_resolve hr
      obtain ⟨origin, position⟩ := callee
      cases origin <;> cases hf <;> exact ⟨index, type, hindex⟩
    | access a offset memory => cases a <;> cases hf <;> trivial
    | _ => cases hf <;> trivial
  | table _ _ _ _ => trivial

/-- **The code of a function names only locations of indices.** -/
theorem Function.exists_located_lines {f g : Function} {space : IndexSpace}
    (h : f.lower space = .ok g) : ∃ lines, Flat.disassemble g.body.bytes = .ok lines ∧
      ∀ line ∈ lines, line.instr.IsLocated space := by
  have hP : Flat.Instr.IgnoresTargets fun j => j.Fits ∧ j.IsLocated space := fun i f h =>
    ⟨Flat.Instr.ignoresTargets_fits i f h.1, Flat.Instr.ignoresTargets_isLocated space i f h.2⟩
  obtain ⟨code, rfl, hall⟩ := all_of_lower hP (fun _ => ⟨trivial, trivial⟩)
    (fun t bs depth i ht hr j he =>
      ⟨Source.Token.fits_of_emits ht hr he, Source.Token.isLocated_of_emits hr he⟩) h
  refine ⟨_, Flat.disassembleFrom_encode 0 fun j hj => (hall j hj).1, fun line hline => ?_⟩
  have hmem : line.instr ∈ (Flat.lines 0 code.list).map Flat.Line.instr :=
    List.mem_map_of_mem hline
  rw [Flat.map_instr_lines] at hmem
  exact (hall _ hmem).2

/-- The location that an instruction names, if it names one, leads to an entity of the instance. -/
def Flat.Instr.ResolvesIn (inst : Instance) (pool : Pool) : Flat.Instr → Prop
  | .use .memory origin position => ∃ o memory, origin = Origin.code o ∧
      inst.memory? pool ⟨o, position⟩ = some memory
  | .use .table origin position => ∃ o table, origin = Origin.code o ∧
      inst.table? pool ⟨o, position⟩ = some table
  | .use .global origin position => ∃ o cell, origin = Origin.code o ∧
      inst.global? pool ⟨o, position⟩ = some cell
  | .callLocal position => ∃ f, inst.function? position = some f
  | .callImport position => ∃ type, inst.hosts[position.toNat]? = some type
  | _ => True

namespace Instance

variable {inst : Instance} {config : Config} {imports : Imports} {p q : Pool}

theorem Locates.resolvesIn (h : inst.Locates config imports p q)
    (hl : inst.compiled.space.IsLaidOut inst.compiled.module) {j : Flat.Instr}
    (hj : j.IsLocated inst.compiled.space) : j.ResolvesIn inst q := by
  cases j with
  | use kind origin position =>
    obtain ⟨index, ⟨o, position⟩, hloc, rfl, rfl⟩ := hj
    cases kind with
    | memory =>
      obtain ⟨found, hi, heq⟩ := Option.map_eq_some_iff.mp hloc
      obtain ⟨a, memory, ha, hm⟩ := h.exists_memory hl (Source.toOption_eq_some_iff.mp hi)
      exact ⟨o, memory, rfl, Option.bind_eq_some_iff.mpr ⟨a, heq ▸ ha, hm⟩⟩
    | table =>
      obtain ⟨found, hi, heq⟩ := Option.map_eq_some_iff.mp hloc
      obtain ⟨a, table, ha, ht⟩ := h.exists_table hl (Source.toOption_eq_some_iff.mp hi)
      exact ⟨o, table, rfl, Option.bind_eq_some_iff.mpr ⟨a, heq ▸ ha, ht⟩⟩
    | global =>
      obtain ⟨found, hi, heq⟩ := Option.map_eq_some_iff.mp hloc
      obtain ⟨cell, hcell, -⟩ := h.exists_global hl (Source.toOption_eq_some_iff.mp hi)
      exact ⟨o, cell, rfl, heq ▸ hcell⟩
  | callLocal position =>
    obtain ⟨index, type, hi⟩ := hj
    obtain ⟨type', htype, -⟩ := h.exists_signature hl hi
    obtain ⟨f, hf, -⟩ := Option.map_eq_some_iff.mp (List.getElem?_map.symm.trans htype)
    exact ⟨f, hf⟩
  | callImport position =>
    obtain ⟨index, type, hi⟩ := hj
    obtain ⟨type', htype, -⟩ := h.exists_signature hl hi
    exact ⟨type', htype⟩
  | _ => trivial

end Instance

/-! ### Exports and the start function -/

namespace Module

variable {m : Module} {space : IndexSpace}

/-- Exports have different names, and each names something. -/
theorem exports_of_checkExports {seen : List String} {exports : List Export}
    (h : checkExports space seen exports = .ok ()) :
    (exports.map Export.name).Nodup ∧ (∀ e ∈ exports, e.name ∉ seen) ∧
      ∀ e ∈ exports, ∃ loc, space.locate? e.kind e.index = some (.ok loc) := by
  induction exports generalizing seen with
  | nil => exact ⟨List.nodup_nil, List.forall_mem_nil _, List.forall_mem_nil _⟩
  | cons e exports ih =>
    rw [checkExports] at h
    split at h
    · cases h
    next hseen =>
    obtain ⟨⟨⟩, hcheck, h⟩ := Except.bind_eq_ok_iff.mp h
    obtain ⟨hnodup, hnew, hloc⟩ := ih h
    refine ⟨List.nodup_cons.mpr ⟨fun hmem => ?_, hnodup⟩, List.forall_mem_cons.mpr ⟨hseen, ?_⟩,
      List.forall_mem_cons.mpr ⟨?_, hloc⟩⟩
    · obtain ⟨e', he', hname⟩ := List.mem_map.mp hmem
      exact hnew e' he' (hname ▸ List.mem_cons_self)
    · exact fun e' he' hmem => hnew e' he' (List.mem_cons_of_mem _ hmem)
    · rw [checkExport] at hcheck
      split at hcheck
      · cases hcheck
      · next loc hl => exact ⟨loc, hl⟩
      · cases hcheck

/-- What the check of references says of exports and of the start function. -/
theorem exports_of_checkReferences (h : m.checkReferences space = .ok ()) :
    checkExports space [] m.exports = .ok () ∧
      ∀ start, m.start = some start → checkStart space start = .ok () := by
  obtain ⟨-, -, h⟩ := Except.bind_eq_ok_iff.mp h
  obtain ⟨-, -, h⟩ := Except.bind_eq_ok_iff.mp h
  obtain ⟨-, -, h⟩ := Except.bind_eq_ok_iff.mp h
  obtain ⟨⟨⟩, hexports, h⟩ := Except.bind_eq_ok_iff.mp h
  refine ⟨orRefuse_eq_ok_iff.mp hexports, fun start hstart => ?_⟩
  rw [hstart] at h
  exact h

theorem function_of_checkStart {start : UInt32} (h : checkStart space start = .ok ()) :
    ∃ loc, space.function start = .ok (loc, some {}) := by
  obtain ⟨⟨loc, o⟩, hi, h₁⟩ := Except.bind_eq_ok_iff.mp h
  obtain ⟨type, htype, h₂⟩ := Except.bind_eq_ok_iff.mp h₁
  obtain rfl := present_eq_ok_iff.mp htype
  split at h₂
  · cases h₂
  · next heq =>
    obtain rfl := Decidable.of_not_not heq
    exact ⟨loc, orRefuse_eq_ok_iff.mp hi⟩

end Module

/-- **An export is found under its name and its kind, and under no other kind.** -/
theorem Instance.export?_eq {inst : Instance} {e : Export} {loc : Location}
    (hnodup : (inst.compiled.module.exports.map Export.name).Nodup)
    (he : e ∈ inst.compiled.module.exports)
    (hloc : inst.compiled.space.locate? e.kind e.index = some (.ok loc)) :
    inst.export? e.kind e.name = some loc ∧
      ∀ kind, kind ≠ e.kind → inst.export? kind e.name = none := by
  have hsame : ∀ e' ∈ inst.compiled.module.exports, e'.name = e.name → e' = e :=
    fun e' he' hname => List.inj_on_of_nodup_map hnodup he' he hname
  constructor
  · rw [export?]
    cases hfind : inst.compiled.module.exports.find? fun e' => e'.name = e.name ∧ e'.kind = e.kind with
    | none => simpa using List.find?_eq_none.mp hfind e he
    | some e' =>
      have hfound := List.find?_some hfind
      obtain rfl := hsame e' (List.mem_of_find?_eq_some hfind) (of_decide_eq_true hfound).1
      rw [Option.bind_some, hloc]
      rfl
  · intro kind hkind
    rw [export?, List.find?_eq_none.mpr, Option.bind_none]
    intro e' he' hfound
    obtain ⟨hname, hk⟩ := of_decide_eq_true hfound
    obtain rfl := hsame e' he' hname
    exact hkind hk.symm

/-- There is an entity of a kind at a location. -/
inductive Instance.Holds (inst : Instance) (pool : Pool) (loc : Location) : ExternKind → Prop where
  | func {type : FuncType} (h : inst.signatures.at? loc = some type) : Holds inst pool loc .func
  | table {table : Table} (h : inst.table? pool loc = some table) : Holds inst pool loc .table
  | memory {memory : Memory} (h : inst.memory? pool loc = some memory) :
      Holds inst pool loc .memory
  | global {cell : GlobalCell} (h : inst.global? pool loc = some cell) :
      Holds inst pool loc .global

/-- **The location of an index of any kind holds an entity of that kind.** -/
theorem Instance.Locates.holds {inst : Instance} {config : Config} {imports : Imports} {p q : Pool}
    (h : inst.Locates config imports p q)
    (hl : inst.compiled.space.IsLaidOut inst.compiled.module) {kind : ExternKind} {i : UInt32}
    {loc : Location} (hi : inst.compiled.space.locate? kind i = some (.ok loc)) :
    inst.Holds q loc kind := by
  rw [IndexSpace.locate?] at hi
  split_ifs at hi with hfunc htable hmemory hglobal
  · subst hfunc
    obtain ⟨⟨loc, o⟩, hentry, rfl⟩ := Except.map_eq_ok_iff.mp (Option.some.inj hi)
    obtain ⟨type, htype, -⟩ := h.exists_signature hl hentry
    exact .func htype
  · subst htable
    obtain ⟨⟨loc, o⟩, hentry, rfl⟩ := Except.map_eq_ok_iff.mp (Option.some.inj hi)
    obtain ⟨a, table, ha, ht⟩ := h.exists_table hl hentry
    exact .table (Option.bind_eq_some_iff.mpr ⟨a, ha, ht⟩)
  · subst hmemory
    obtain ⟨⟨loc, o⟩, hentry, rfl⟩ := Except.map_eq_ok_iff.mp (Option.some.inj hi)
    obtain ⟨a, memory, ha, hm⟩ := h.exists_memory hl hentry
    exact .memory (Option.bind_eq_some_iff.mpr ⟨a, ha, hm⟩)
  · subst hglobal
    obtain ⟨⟨loc, o⟩, hentry, rfl⟩ := Except.map_eq_ok_iff.mp (Option.some.inj hi)
    obtain ⟨cell, hcell, -⟩ := h.exists_global hl hentry
    exact .global hcell

theorem Instance.start?_eq {inst : Instance} {start : UInt32} {loc : Location}
    {o : Option FuncType} (hs : inst.compiled.module.start = some start)
    (hi : inst.compiled.space.function start = .ok (loc, o)) : inst.start? = some loc := by
  rw [start?, hs, Option.bind_some, hi]
  rfl

/-! ## The whole statement -/

/-- A module whose imports are of all kinds, in no order, and which defines something of each kind.  Its start function calls
an import and a definition and reads the memory of the module. -/
def crowded : Module where
  types := [some {}, some ⟨[.i32], [.i32]⟩]
  imports := [⟨"env", "memory", .memory (some ⟨1, none⟩)⟩, ⟨"env", "run", .func 0⟩,
    ⟨"env", "offset", .global (some ⟨.i32, false⟩)⟩, ⟨"env", "table", .table (some ⟨1, some 2⟩)⟩,
    ⟨"env", "twice", .func 1⟩]
  functions := [0, 0]
  tables := [⟨1, none⟩]
  memories := [⟨1, none⟩]
  globals := [⟨some ⟨.i32, true⟩, some ⟨Opcode.globalGet, [0]⟩⟩]
  exports := [⟨.func, "start", 2⟩, ⟨.memory, "memory", 1⟩]
  start := some 2
  code := [⟨{}, [0x10, 0, 0x10, 3, 0x41, 0, 0x28, 0x42, 1, 0, 0x1a, 0x0b]⟩,
    ⟨{}, [0x23, 1, 0x1a, 0x0b]⟩]

/-- A pool with one store of each kind. -/
def oneOfEach : Pool where
  memories := #[⟨⟨.zeros 65536, pageSize, 1, 3⟩⟩]
  tables := #[⟨⟨.zeros 4, entrySize, 1, 2⟩⟩]
  globals := #[.ofValue ⟨.i32, false⟩ 4 7]

def lendsOneOfEach : Imports where
  functions := [(⟨"env", "run"⟩, some {}), (⟨"env", "twice"⟩, some ⟨[.i32], [.i32]⟩)]
  memories := [(⟨"env", "memory"⟩, some 0)]
  tables := [(⟨"env", "table"⟩, some 0)]
  globals := [(⟨"env", "offset"⟩, some 0)]

end FlatWasm
