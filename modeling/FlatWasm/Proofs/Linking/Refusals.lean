import Mathlib
import FlatWasm.Proofs.Linking.Initializers
import FlatWasm.Proofs.Linking.Limits
import FlatWasm.Proofs.Linking.Locations

/-!
# What only an instantiation can find out

Compilation looks at everything that a module says of itself.  What is left to an instantiation are the bindings of imports and
the question whether segments fit their stores.  So a module that was compiled is instantiated, or refused for one of these two
(`LinkError.IsLate`), and nothing else goes wrong.

The argument follows the stages.  Whatever can stop an instantiation before the segments, other than a binding, was excluded by a
check: limits leave room for the least size, initializers have values.  When segments are loaded, every index of a table or a
memory has a store and every offset can be read, by `Instance.Locates`; and this stays so while stores are being written.
-/

namespace FlatWasm

/-- A binding is missing or does not match, or segments do not fit. -/
inductive LinkError.IsLate : LinkError → Prop where
  | binding {cause : Imports.Error} (h : Imports.IsUnbound cause.classes) : IsLate (.binding cause)
  | segments {kind : String} {i : ℕ} {cause : LoadError} (h : ∀ offset, cause ≠ .offset offset) :
      IsLate (.segments kind i cause)

/-! ## What compilation has seen -/

namespace Module

variable {m : Module} {config : Config} {stopped : Bool} {c : Compiled}

/-- What the check of references says of initializers. -/
theorem initializers_of_checkReferences {space : IndexSpace}
    (h : m.checkReferences space = .ok ()) :
    (∀ g ∈ m.globals, ∃ type, g.type = some type ∧
        ConstExpr.check g.init type.valueType space = .ok ()) ∧
      (∀ e ∈ m.elements, ConstExpr.check e.offset .i32 space = .ok ()) ∧
        ∀ d ∈ m.data, ConstExpr.check d.offset .i32 space = .ok () := by
  obtain ⟨⟨⟩, hglobals, h⟩ := Except.bind_eq_ok_iff.mp h
  obtain ⟨⟨⟩, helements, h⟩ := Except.bind_eq_ok_iff.mp h
  obtain ⟨⟨⟩, hdata, -⟩ := Except.bind_eq_ok_iff.mp h
  refine ⟨fun g hg => ?_, fun e he => ?_, fun d hd => ?_⟩
  · obtain ⟨i, hi⟩ := exists_of_checkEach hglobals hg
    obtain ⟨type, htype, hi⟩ := Except.bind_eq_ok_iff.mp hi
    exact ⟨type, present_eq_ok_iff.mp htype, Except.mapError_eq_ok_iff.mp hi⟩
  · obtain ⟨i, hi⟩ := exists_of_checkEach helements he
    obtain ⟨-, -, hi⟩ := Except.bind_eq_ok_iff.mp hi
    obtain ⟨⟨⟩, hoffset, -⟩ := Except.bind_eq_ok_iff.mp hi
    exact Except.mapError_eq_ok_iff.mp hoffset
  · obtain ⟨i, hi⟩ := exists_of_checkEach hdata hd
    obtain ⟨-, -, hi⟩ := Except.bind_eq_ok_iff.mp hi
    exact Except.mapError_eq_ok_iff.mp hi

/-- The offsets of the segments of a compiled module were checked. -/
theorem offsets_of_compile (h : m.compile config stopped = .ok c) :
    (∀ e ∈ c.module.elements, ConstExpr.check e.offset .i32 c.space = .ok ()) ∧
      ∀ d ∈ c.module.data, ConstExpr.check d.offset .i32 c.space = .ok () := by
  obtain ⟨rfl, functions, hprepare, -, -⟩ := compile_eq_ok_iff.mp h
  exact (initializers_of_checkReferences (prepare_eq_ok_iff.mp hprepare).2.2.1).2

/-- The imports of a compiled module are described. -/
theorem describes_of_compile (h : m.compile config stopped = .ok c) :
    ∀ im ∈ c.module.imports, Imports.Describes c.space im := by
  have hl := isLaidOut_of_compile h
  have hcomplete := complete_of_compile h
  obtain ⟨rfl, functions, hprepare, -, -⟩ := compile_eq_ok_iff.mp h
  obtain ⟨himports, -, -⟩ := limits_of_checkShape (prepare_eq_ok_iff.mp hprepare).1
  intro im him
  have hcheck := himports im him
  refine ⟨fun typeIndex hd => ?_, fun o hd => ?_, fun o hd => ?_, fun o hd => ?_,
    hl.imports.kinds im him⟩
  · have hmem : im.desc ∈ (importsOf .func c.module.imports).map Import.desc :=
      List.mem_map_of_mem (List.mem_filter.mpr ⟨him, by rw [hd]; rfl⟩)
    rw [hl.imports.functions, hd] at hmem
    obtain ⟨typeIndex', ht, heq⟩ := List.mem_map.mp hmem
    cases heq
    have hlt := hcomplete.importedFunctions typeIndex ht
    obtain ⟨type, htype, -⟩ := hcomplete.types _ (List.getElem_mem hlt)
    exact ⟨type, IndexSpace.type_eq_ok_iff.mpr (by rw [List.getElem?_eq_getElem hlt, htype])⟩
  · rw [hd] at hcheck
    cases o with
    | none => cases hcheck
    | some limits => exact ⟨limits, rfl⟩
  · rw [hd] at hcheck
    cases o with
    | none => cases hcheck
    | some limits => exact ⟨limits, rfl⟩
  · rw [hd] at hcheck
    cases o with
    | none => cases hcheck
    | some type => exact ⟨type, rfl⟩

end Module

namespace Compiled

variable {m : Module} {config : Config} {stopped : Bool} {c : Compiled} {imports : Imports}
  {p q : Pool} {r : Bound} {s : Allotment}

/-! ## Stages before the segments -/

/-- An index of an imported global leads to what the import is bound to, and to its value, whatever has been made so far. -/
theorem exists_importedGlobal (hc : m.compile config stopped = .ok c)
    (hr : imports.Resolves c.space p c.module.imports r) (s : Allotment) {i : UInt32} {loc : Location}
    {o : Option GlobalType} (hi : c.space.global i = .ok (loc, o)) (horigin : loc.origin = .imported) :
    ∃ im, ∃ a ∈ r.globals, ∃ cell, (importsOf .global c.module.imports)[i.toNat]? = some im ∧
      imports.globals.find? im.fullName = some a ∧ p.globals[a]? = some cell ∧
        o = some cell.type ∧ (c.instanceOf r p s).globalValue (p.allot s) i = .ok cell.value := by
  have hl := Module.isLaidOut_of_compile hc
  have hget := IndexSpace.global_eq_ok_iff.mp hi
  rcases hl.imports.globals.cases_of_get? hl.globals hget with ⟨im, him⟩ | ⟨j, g, hij, hj⟩
  · obtain ⟨o', a, hget', hdesc, hat, hname, cell, hcell, hdesc', -⟩ :=
      hl.imports.globals.resolve_imported (c.instanceOf r p s).globals hr.globals him
    cases hget.symm.trans hget'
    have hkept : (p.allot s).globals[a]? = some cell := by
      rw [← hcell]
      exact Array.getElem?_append_left (Array.getElem?_eq_some_iff.mp hcell).1
    have hglobal : (c.instanceOf r p s).global? (p.allot s) ⟨.imported, i⟩ = some cell :=
      Option.bind_eq_some_iff.mpr ⟨a, hat, hkept⟩
    refine ⟨im, a, List.mem_of_getElem? hat, cell, him, hname, hcell,
      ImportDesc.global.inj (hdesc.symm.trans hdesc'),
      Except.bind_eq_ok_iff.mpr ⟨_, Except.mapError_eq_ok_iff.mpr hi, ?_⟩⟩
    dsimp only
    rw [hglobal]
    rfl
  · have hentry : c.space.globals.defined[j]? = some g.type := by
      rw [hl.globals, List.getElem?_map, hj]
      rfl
    rw [hl.imports.globals.length_eq] at hij
    cases hget.symm.trans (Namespace.get?_defined hij hentry)
    cases horigin

/-- Imported globals have values from the start. -/
theorem exists_globalValue (hc : m.compile config stopped = .ok c)
    (hr : imports.Resolves c.space p c.module.imports r) (s : Allotment) (i : UInt32)
    (loc : Location) (o : Option GlobalType) (hi : c.space.global i = .ok (loc, o))
    (horigin : loc.origin = .imported) :
    ∃ v, (c.instanceOf r p s).globalValue (p.allot s) i = .ok v := by
  obtain ⟨-, -, -, cell, -, -, -, -, hvalue⟩ := exists_importedGlobal hc hr s hi horigin
  exact ⟨cell.value, hvalue⟩

/-- The globals of a compiled module can be made. -/
theorem exists_makeGlobal (hc : m.compile config stopped = .ok c)
    (hr : imports.Resolves c.space p c.module.imports r) {g : Global} (hg : g ∈ c.module.globals)
    (i : ℕ) (s : Allotment) : ∃ cell, (c.instanceOf r p s).makeGlobal g i (p.allot s) = .ok cell := by
  have hglobals := exists_globalValue hc hr s
  obtain ⟨rfl, functions, hprepare, -, -⟩ := Module.compile_eq_ok_iff.mp hc
  obtain ⟨hshape, -, hrefs, -⟩ := Module.prepare_eq_ok_iff.mp hprepare
  obtain ⟨type, htype, hcheck⟩ := (Module.initializers_of_checkReferences hrefs).1 g hg
  obtain ⟨type', htype', hnumeric⟩ := (Module.isChecked_of_checkShape hshape).definedGlobals g hg
  cases htype.symm.trans htype'
  obtain ⟨width, hwidth⟩ := Source.exists_width hnumeric
  obtain ⟨expr, hexpr, hchecked⟩ := ConstExpr.exists_of_check hcheck
  obtain ⟨value, hvalue⟩ := hchecked.exists_eval hglobals
  exact ⟨_, Instance.makeGlobal_eq_ok_iff.mpr
    ⟨expr, value, type, width, hexpr, hvalue, htype, hwidth, rfl⟩⟩

/-- **Before the segments, only a binding stops an instantiation.** -/
theorem Stops.isLate (hc : m.compile config stopped = .ok c) (hp : p.InBounds)
    (hi : imports.Within p) {e : Failure LinkError} (h : c.Stops config imports p false e q) :
    ∃ cause, e = .error cause ∧ cause.IsLate := by
  have hdescribes := Module.describes_of_compile hc
  obtain ⟨rfl, functions, hprepare, -, -⟩ := Module.compile_eq_ok_iff.mp hc
  obtain ⟨-, hmemories, htables⟩ :=
    Module.limits_of_checkShape (Module.prepare_eq_ok_iff.mp hprepare).1
  cases h with
  | binding h =>
    have hresolve := Imports.failsOnly_resolve hi hp hdescribes
    exact FailsOnly.bind (P := LinkError.IsLate)
      (FailsOnly.mapError (hresolve.mono fun _ => .binding)) (fun _ _ => failsOnly_ok _) e h
  | @global r seen rest g globals _ hr hitems hmade h =>
    obtain ⟨cell, hcell⟩ := exists_makeGlobal hc (Imports.resolves_of_resolve hr)
      (hitems ▸ List.mem_append_right _ List.mem_cons_self) seen.length { globals }
    cases h.symm.trans hcell
  | @table globals seen rest limits tables _ hitems hmade h =>
    have hcheck := htables limits (hitems ▸ List.mem_append_right _ List.mem_cons_self)
    rw [Table.allocate_eq_ok_iff.mpr ⟨(Limits.le_of_check hcheck).1, rfl⟩] at h
    cases h
  | @memory globals tables seen rest limits memories _ _ hitems hmade h =>
    have hcheck := hmemories limits (hitems ▸ List.mem_append_right _ List.mem_cons_self)
    rw [Memory.allocate_eq_ok_iff.mpr ⟨(Limits.le_of_check hcheck).1, rfl⟩] at h
    cases h
  | canceled _ hcanceled => cases hcanceled

/-! ## Segments -/

section Segments

variable {inst : Instance} (h : inst.Locates config imports p q)
  (hl : inst.compiled.space.IsLaidOut inst.compiled.module)

include h hl

/-- There is a table for every index that is gone through. -/
theorem exists_tableAt {i : ℕ} (hi : i < inst.compiled.space.tables.size) :
    ∃ a table, inst.tableAt? (UInt32.ofNat i) = some a ∧ q.tables[a]? = some table := by
  obtain ⟨⟨loc, o⟩, hget⟩ := Namespace.exists_get? hi
  have hentry := IndexSpace.table_eq_ok_iff.mpr hget
  obtain ⟨a, table, hat, ht⟩ := h.exists_table hl hentry
  exact ⟨a, table,
    Option.bind_eq_some_iff.mpr ⟨_, Source.toOption_eq_some_iff.mpr hentry, hat⟩, ht⟩

/-- There is a memory for every index that is gone through. -/
theorem exists_memoryAt {i : ℕ} (hi : i < inst.compiled.space.memories.size) :
    ∃ a memory, inst.memoryAt? (UInt32.ofNat i) = some a ∧ q.memories[a]? = some memory := by
  obtain ⟨⟨loc, o⟩, hget⟩ := Namespace.exists_get? hi
  have hentry := IndexSpace.memory_eq_ok_iff.mpr hget
  obtain ⟨a, memory, hat, hm⟩ := h.exists_memory hl hentry
  exact ⟨a, memory,
    Option.bind_eq_some_iff.mpr ⟨_, Source.toOption_eq_some_iff.mpr hentry, hat⟩, hm⟩

/-- Every offset that was checked can be read. -/
theorem exists_offsetValue {o : Offset} (ho : o.IsReadable inst.compiled.space) {i : UInt32}
    (hi : o.base = .global i) : ∃ v, inst.offsetValue q i = .ok v := by
  obtain ⟨loc, type, hg, htype⟩ := ho i hi
  obtain ⟨cell, hcell, -⟩ := h.exists_global hl hg
  refine ⟨cell.value.toUInt32, Except.bind_eq_ok_iff.mpr
    ⟨_, Except.mapError_eq_ok_iff.mpr hg, ?_⟩⟩
  dsimp only
  rw [if_neg (not_not.mpr htype), hcell]
  rfl

/-- The segments of a store are refused only for their length. -/
theorem failsOnly_loadStore {segments : List (UInt32 × Segment)}
    (hs : ∀ s ∈ segments, s.2.offset.IsReadable inst.compiled.space) {store : Linear}
    (hunit : store.unit ≠ 0) (hle : store.unit.toNat ≤ 65536) (kind : String) (i : ℕ) :
    FailsOnly LinkError.IsLate
      (inst.loadStore config kind i q store (Instance.ownSegments segments i)) := by
  obtain ⟨placed, hplaced⟩ : ∃ placed, (Instance.ownSegments segments i).mapM
      (Segment.place (inst.offsetValue q)) = .ok placed := by
    refine Linear.exists_place fun segment hsegment j hj => ?_
    obtain ⟨s, hmem, rfl⟩ := List.mem_map.mp hsegment
    exact exists_offsetValue h hl (hs s (List.mem_of_mem_filter hmem)) hj
  exact FailsOnly.mapError ((Linear.failsOnly_load hunit hle hplaced _).mono fun _ => .segments)

end Segments

section Loading

variable (hc : m.compile config stopped = .ok c) (hp : p.InBounds)
  (hs : c.Allots config imports p r s) {w : World} (hw : (p.allot s).Evolves w.pool)

include hc hp hs hw

/-- **Elements are refused only for their length.** -/
theorem ends_loadTables_isLate :
    ((c.instanceOf r p s).loadTables config).Ends w (fun _ w' => (p.allot s).Evolves w'.pool)
      (fun e _ => ∃ cause, e = .error cause ∧ cause.IsLate) := by
  have hl := Module.isLaidOut_of_compile hc
  obtain ⟨segments, hsegments, hreadable⟩ :=
    Instance.exists_elementSegments (Module.offsets_of_compile hc).1
  refine Instance.ends_loadTables_evolves hw (fun e he => ?_) (fun i w e hi hw he => ?_)
    fun segments' i a w e hsegments' hi hw ha he => ?_
  · cases hsegments.symm.trans he
  · obtain ⟨a, -, ha, -⟩ := exists_tableAt (locates hc hs hw) hl hi
    exact failsOnly_present ha e he
  · cases hsegments.symm.trans hsegments'
    obtain ⟨a', table, ha', ht⟩ := exists_tableAt (locates hc hs hw) hl hi
    cases ha.symm.trans ha'
    have hunit := (((hs.evolves.trans hw).inBounds hp).tables table (Array.mem_of_getElem? ht)).1
    refine FailsOnly.bind (failsOnly_present ht) (fun t hget => ?_) e he
    cases ht.symm.trans (present_eq_ok_iff.mp hget)
    exact failsOnly_loadStore (locates hc hs hw) hl hreadable (hunit ▸ by decide)
      (hunit ▸ by decide) "table" i

/-- **Data are refused only for their length.** -/
theorem ends_loadMemories_isLate :
    ((c.instanceOf r p s).loadMemories config).Ends w (fun _ w' => (p.allot s).Evolves w'.pool)
      (fun e _ => ∃ cause, e = .error cause ∧ cause.IsLate) := by
  have hl := Module.isLaidOut_of_compile hc
  obtain ⟨segments, hsegments, hreadable⟩ :=
    Instance.exists_dataSegments (Module.offsets_of_compile hc).2
  refine Instance.ends_loadMemories_evolves hw (fun e he => ?_) (fun i w e hi hw he => ?_)
    fun segments' i a w e hsegments' hi hw ha he => ?_
  · cases hsegments.symm.trans he
  · obtain ⟨a, -, ha, -⟩ := exists_memoryAt (locates hc hs hw) hl hi
    exact failsOnly_present ha e he
  · cases hsegments.symm.trans hsegments'
    obtain ⟨a', memory, ha', hm⟩ := exists_memoryAt (locates hc hs hw) hl hi
    cases ha.symm.trans ha'
    have hunit := (((hs.evolves.trans hw).inBounds hp).memories memory (Array.mem_of_getElem? hm)).1
    refine FailsOnly.bind (failsOnly_present hm) (fun t hget => ?_) e he
    cases hm.symm.trans (present_eq_ok_iff.mp hget)
    exact failsOnly_loadStore (locates hc hs hw) hl hreadable (hunit ▸ by decide)
      (hunit ▸ by decide) "memory" i

end Loading

/-! ## Instantiations -/

/-- An instantiation that fails fails late. -/
theorem failsOnly_link (hc : m.compile config stopped = .ok c) (hp : p.InBounds)
    (hi : imports.Within p) : FailsOnly LinkError.IsLate (c.link config imports p).1 := by
  have hends : (c.instantiate config imports false).Ends ⟨p, []⟩ _ _ :=
    ends_instantiate (Q := fun _ s w => (p.allot s).Evolves w.pool)
      (R := fun _ s w => (p.allot s).Evolves w.pool) (fun e q hq => hq.isLate hc hp hi)
      (fun r s hs => ends_loadTables_isLate hc hp hs (.refl _))
      fun r s w hs hw => ends_loadMemories_isLate hc hp hs hw
  rcases hrun : (c.instantiate config imports false).run { pool := p } with ⟨result, w⟩
  rw [link_eq hrun]
  rintro e rfl
  exact hends.failure e w hrun

end Compiled

/-- What fails late is one of three kinds of error. -/
theorem LinkError.IsLate.classes {e : LinkError} (h : e.IsLate) :
    .importMissing ∈ e.classes ∨ .importMismatch ∈ e.classes ∨ .segmentOutOfBounds ∈ e.classes := by
  cases h with
  | binding h => exact h.imp_right .inl
  | segments h => exact .inr (.inr (LoadError.mem_classes h))

/-- **Compilation guarantees instantiation, up to imports and the length of segments.**  With stores that were made and changed
in any way there is, a compiled module is instantiated, or an import is missing or does not match, or segments do not fit. -/
theorem Compiled.link_eq_ok_or_isLate {m : Module} {config : Config} {stopped : Bool}
    {c : Compiled} {imports : Imports} {p : Pool} (hc : m.compile config stopped = .ok c)
    (hp : Pool.Run {} p) (hi : imports.Within p) :
    (∃ inst, (c.link config imports p).1 = .ok inst) ∨
      ∃ e, (c.link config imports p).1 = .error (.error e) ∧ e.IsLate ∧
        (.importMissing ∈ e.classes ∨ .importMismatch ∈ e.classes ∨
          .segmentOutOfBounds ∈ e.classes) := by
  rcases (failsOnly_link hc hp.inBounds hi).ok_or_refused with ⟨e, he, hlate⟩ | hok
  · exact .inr ⟨e, he, hlate, hlate.classes⟩
  · exact .inl hok

theorem Bindings.mem_of_find? {α : Type} {b : Bindings α} {name : ImportName} {a : α}
    (h : b.find? name = some a) : (name, some a) ∈ b := by
  obtain ⟨l₁, l₂, hb, -⟩ := List.lookup_eq_some_iff.mp (Option.join_eq_some_iff.mp h)
  rw [hb]
  exact List.mem_append_right _ List.mem_cons_self

/-- A module that puts two bytes where an imported global says, and starts a global of its own with the same number. -/
def floating : Module where
  imports := [⟨"env", "memory", .memory (some ⟨1, some 1⟩)⟩,
    ⟨"env", "base", .global (some ⟨.i32, false⟩)⟩]
  globals := [⟨some ⟨.i32, false⟩, some ⟨Opcode.globalGet, [0]⟩⟩]
  data := [{ offset := some ⟨Opcode.globalGet, [0]⟩, init := [1, 2] }]

/-- A pool with a memory that is one page for ever and the number of its last byte. -/
def lastByte : Pool where
  memories := #[⟨⟨.zeros 65536, pageSize, 1, 1⟩⟩]
  globals := #[.ofValue ⟨.i32, false⟩ 4 65535]

def lendsLastByte : Imports where
  memories := [(⟨"env", "memory"⟩, some 0)]
  globals := [(⟨"env", "base"⟩, some 0)]

theorem run_lastByte : Pool.Run {} lastByte := by
  have hmemory : hostMemory ⟨1, some 1⟩ = .ok ⟨⟨.zeros 65536, pageSize, 1, 1⟩⟩ :=
    Memory.allocate_eq_ok_iff.mpr ⟨by decide, rfl⟩
  have hglobal : hostGlobal ⟨.i32, false⟩ 65535 = .ok (.ofValue ⟨.i32, false⟩ 4 65535) := by
    decide +kernel
  exact .tail (.single (.host (.newMemory hmemory))) (.host (.newGlobal hglobal))

theorem within_lastByte : lendsLastByte.Within lastByte where
  memories := fun name a h => by
    cases List.mem_singleton.mp (Bindings.mem_of_find? h)
    decide
  tables := fun name a h => absurd (Bindings.mem_of_find? h) List.not_mem_nil
  globals := fun name a h => by
    cases List.mem_singleton.mp (Bindings.mem_of_find? h)
    decide

/-- The second byte does not fit, and nothing before has failed. -/
theorem floating_isLate : ∃ c e, floating.compile {} = .ok c ∧
    (c.link {} lendsLastByte lastByte).1 = .error (.error e) ∧ e.IsLate ∧
      (.importMissing ∈ e.classes ∨ .importMismatch ∈ e.classes ∨
        .segmentOutOfBounds ∈ e.classes) := by
  have hrefused : ((floating.compile {}).toOption.map fun c =>
      (c.link {} lendsLastByte lastByte).1.isOk) = some false := by decide +kernel
  obtain ⟨c, hc, hlink⟩ := Option.map_eq_some_iff.mp hrefused
  replace hc := Source.toOption_eq_some_iff.mp hc
  rcases Compiled.link_eq_ok_or_isLate hc run_lastByte within_lastByte with ⟨inst, hinst⟩ | ⟨e, he⟩
  · rw [hinst] at hlink
    cases hlink
  · exact ⟨c, e, hc, he⟩

end FlatWasm
