import Mathlib
import FlatWasm.Proofs.Compilation.Stages
import FlatWasm.Proofs.Linking.Instantiation

/-!
# Declared limits hold for ever

A store outlives the instantiation that looked at its limits.  Embedders grow it, and so do other modules that import it when
they load their segments.  `Pool.Step` is anything that can happen to the pool: a step of an embedder, or an instantiation of
any module, with whatever outcome.  Each of them evolves the pool, so every run does, and what evolves keeps what its size was
declared to be (`Linear.Serves.evolves`).

An imported store has served the declaration when it was bound.  A store that the module makes serves its own limits from the
start, and cannot grow beyond the ceiling that they were checked against.
-/

namespace FlatWasm

/-! ## Runs -/

/-- Anything that can happen to a pool. -/
inductive Pool.Step (p : Pool) : Pool → Prop where
  | host {q : Pool} (h : p.HostStep q) : Step p q
  | link (c : Compiled) (config : Config) (imports : Imports) (canceled : Bool) :
      Step p (c.link config imports p canceled).2.1

/-- Any run of such steps. -/
abbrev Pool.Run : Pool → Pool → Prop :=
  Relation.ReflTransGen Pool.Step

theorem Pool.Step.evolves {p q : Pool} (h : p.Step q) : p.Evolves q := by
  cases h with
  | host h => exact h.evolves
  | link c config imports canceled => exact c.evolves_link config imports p canceled

/-- **Every run evolves the pool.** -/
theorem Pool.Run.evolves {p q : Pool} (h : p.Run q) : p.Evolves q := by
  induction h with
  | refl => exact .refl p
  | tail _ hstep ih => exact ih.trans hstep.evolves

/-- All stores that there can be are within their bounds. -/
theorem Pool.Run.inBounds {p : Pool} (h : Pool.Run {} p) : p.InBounds :=
  h.evolves.inBounds ⟨fun _ hm => absurd hm (Array.not_mem_empty _),
    fun _ ht => absurd ht (Array.not_mem_empty _)⟩

/-! ## Limits of a store -/

namespace Linear

variable {s t : Linear} {limits : Limits}

/-- The number of units of a store within its bounds can be counted in words. -/
theorem InBounds.exists_size (h : s.InBounds) (hunit : s.unit ≠ 0) :
    ∃ n : UInt32, s.size = .ok n ∧ s.length = n.toNat * s.unit.toNat ∧ n ≤ s.max := by
  obtain ⟨n, hn, -, hmax⟩ := h
  have hpos : 0 < s.unit.toNat := toNat_pos hunit
  have hword : (UInt32.ofNat n).toNat = n :=
    UInt32.toNat_ofNat_of_lt' (Nat.lt_of_le_of_lt hmax s.max.toNat_lt)
  refine ⟨UInt32.ofNat n, ?_, by rw [hword, hn], by rwa [UInt32.le_iff_toNat_le, hword]⟩
  rw [Linear.size, if_neg hunit, hn, Nat.mul_div_cancel n hpos]

/-- **A store that serves a declaration serves it for ever.** -/
theorem Serves.evolves (h : s.Serves limits) (hunit : s.unit ≠ 0) (hs : s.InBounds)
    (he : s.Evolves t) : t.Serves limits := by
  obtain ⟨⟨size, hsize, hmin⟩, hmax⟩ := h
  have hunit' : t.unit ≠ 0 := he.unit ▸ hunit
  obtain ⟨n, hn, hlength, -⟩ := hs.exists_size hunit
  obtain ⟨n', hn', hlength', -⟩ := (he.inBounds hs).exists_size hunit'
  obtain rfl := Except.ok.inj (hn.symm.trans hsize)
  have hpos : 0 < s.unit.toNat := toNat_pos hunit
  have hle : n ≤ n' := by
    have hlen := he.length
    rw [hlength, hlength', he.unit] at hlen
    exact UInt32.le_iff_toNat_le.mpr (Nat.le_of_mul_le_mul_right hlen hpos)
  exact ⟨⟨n', hn', UInt32.le_trans hmin hle⟩, fun max hm => he.max ▸ hmax max hm⟩

/-- A store of its least size serves the limits that it was made of. -/
theorem serves_zeros {unit : UInt32} (hunit : unit ≠ 0) (limits : Limits) (ceiling : UInt32) :
    Serves ⟨.zeros (limits.min.toNat * unit.toNat), unit, limits.min, limits.maxOr ceiling⟩
      limits := by
  have hpos : 0 < unit.toNat := toNat_pos hunit
  refine ⟨⟨limits.min, ?_, UInt32.le_refl _⟩, fun max hmax => ?_⟩
  · rw [Linear.size, if_neg hunit]
    show Except.ok (UInt32.ofNat (limits.min.toNat * unit.toNat / unit.toNat)) = _
    rw [Nat.mul_div_cancel _ hpos, UInt32.ofNat_toNat]
  · rw [Limits.maxOr, hmax]
    exact UInt32.le_refl _

end Linear

/-- A number of units is within the limits. -/
structure Limits.Allow (limits : Limits) (size : UInt32) : Prop where
  min : limits.min ≤ size
  max : ∀ max, limits.max = some max → size ≤ max

theorem Linear.Serves.allow {s : Linear} {limits : Limits} (h : s.Serves limits)
    (hunit : s.unit ≠ 0) (hs : s.InBounds) :
    ∃ size, s.size = .ok size ∧ s.length = size.toNat * s.unit.toNat ∧ limits.Allow size ∧
      size ≤ s.max := by
  obtain ⟨⟨size, hsize, hmin⟩, hmax⟩ := h
  obtain ⟨n, hn, hlength, hle⟩ := hs.exists_size hunit
  obtain rfl := Except.ok.inj (hn.symm.trans hsize)
  exact ⟨n, hn, hlength, ⟨hmin, fun max hm => UInt32.le_trans hle (hmax max hm)⟩, hle⟩

/-- Limits that are checked leave room for their minimum, below the ceiling. -/
theorem Limits.le_of_check {limits : Limits} {ceiling : UInt32}
    (h : limits.check ceiling = .ok ()) :
    limits.min ≤ limits.maxOr ceiling ∧ limits.maxOr ceiling ≤ ceiling := by
  rw [check] at h
  split at h
  · cases h
  next hmin =>
  rw [maxOr]
  cases hmax : limits.max with
  | none => exact ⟨UInt32.not_lt.mp hmin, UInt32.le_refl _⟩
  | some max =>
    rw [hmax] at h
    dsimp only at h
    split at h
    · cases h
    next hceiling =>
    split at h
    · cases h
    next hle => exact ⟨UInt32.not_lt.mp hle, UInt32.not_lt.mp hceiling⟩

/-! ## Limits of an instance -/

/-- The size of a memory is within declared limits. -/
structure Memory.Within (m : Memory) (limits : Limits) : Prop where
  length : m.store.length = m.pages.toNat * pageSize.toNat
  pages : limits.Allow m.pages

/-- The size of a table is within declared limits. -/
structure Table.Within (t : Table) (limits : Limits) : Prop where
  length : t.store.length = t.length.toNat * entrySize.toNat
  entries : limits.Allow t.length

theorem Memory.within_of_serves {m : Memory} {limits : Limits} (hm : m.InBounds)
    (h : m.store.Serves limits) : m.Within limits ∧ m.pages ≤ m.store.max := by
  obtain ⟨size, hsize, hlength, hallow, hle⟩ := h.allow (hm.1 ▸ by decide) hm.2
  have hpages : m.store.size = .ok m.pages := by
    rw [Linear.size, hm.1]
    rfl
  obtain rfl := Except.ok.inj (hpages.symm.trans hsize)
  exact ⟨⟨hm.1 ▸ hlength, hallow⟩, hle⟩

theorem Table.within_of_serves {t : Table} {limits : Limits} (ht : t.InBounds)
    (h : t.store.Serves limits) : t.Within limits ∧ t.length ≤ t.store.max := by
  obtain ⟨size, hsize, hlength, hallow, hle⟩ := h.allow (ht.1 ▸ by decide) ht.2
  have hentries : t.store.size = .ok t.length := by
    rw [Linear.size, ht.1]
    rfl
  obtain rfl := Except.ok.inj (hentries.symm.trans hsize)
  exact ⟨⟨ht.1 ▸ hlength, hallow⟩, hle⟩

/-- The memories and tables of an instance are within the limits that its module declares, import by import and definition by
definition; what the module defines is also within the limits of the loader. -/
structure Instance.KeepsLimits (inst : Instance) (config : Config) (pool : Pool) : Prop where
  importedMemories : List.Forall₂ (fun im a => ∃ limits memory, im.desc = .memory (some limits) ∧
      pool.memories[a]? = some memory ∧ memory.Within limits)
    (importsOf .memory inst.compiled.module.imports) inst.memories.imported
  definedMemories : List.Forall₂ (fun limits a => ∃ memory, pool.memories[a]? = some memory ∧
      memory.Within limits ∧ memory.pages ≤ config.maxPages)
    inst.compiled.module.memories inst.memories.defined
  importedTables : List.Forall₂ (fun im a => ∃ limits table, im.desc = .table (some limits) ∧
      pool.tables[a]? = some table ∧ table.Within limits)
    (importsOf .table inst.compiled.module.imports) inst.tables.imported
  definedTables : List.Forall₂ (fun limits a => ∃ table, pool.tables[a]? = some table ∧
      table.Within limits ∧ table.length.toNat ≤ 2 ^ 27)
    inst.compiled.module.tables inst.tables.defined

section Runs

variable {p q : Pool} {imports : Imports} {a : Address} {limits : Limits}

/-- An imported memory keeps the limits that it was imported with. -/
theorem Imports.BindsMemory.within {im : Import} (h : imports.BindsMemory p im a)
    (hp : p.InBounds) (hq : p.Evolves q) :
    ∃ limits memory, im.desc = .memory (some limits) ∧ q.memories[a]? = some memory ∧
      memory.Within limits := by
  obtain ⟨memory, limits, hm, hdesc, hserves⟩ := h.declared
  obtain ⟨memory', hm', he⟩ := hq.memories a memory hm
  have hb := hp.memories memory (Array.mem_of_getElem? hm)
  have hserves' := hserves.evolves (hb.1 ▸ by decide) hb.2 he
  exact ⟨limits, memory', hdesc, hm', (Memory.within_of_serves (he.inBounds hb) hserves').1⟩

/-- An imported table keeps the limits that it was imported with. -/
theorem Imports.BindsTable.within {im : Import} (h : imports.BindsTable p im a)
    (hp : p.InBounds) (hq : p.Evolves q) :
    ∃ limits table, im.desc = .table (some limits) ∧ q.tables[a]? = some table ∧
      table.Within limits := by
  obtain ⟨table, limits, ht, hdesc, hserves⟩ := h.declared
  obtain ⟨table', ht', he⟩ := hq.tables a table ht
  have hb := hp.tables table (Array.mem_of_getElem? ht)
  have hserves' := hserves.evolves (hb.1 ▸ by decide) hb.2 he
  exact ⟨limits, table', hdesc, ht', (Table.within_of_serves (he.inBounds hb) hserves').1⟩

/-- A memory keeps the limits that it was made with. -/
theorem Memory.within_of_allocate {ceiling : UInt32} {memory : Memory}
    (h : allocate limits ceiling = .ok memory) (hm : p.memories[a]? = some memory)
    (hq : p.Evolves q) : ∃ memory', q.memories[a]? = some memory' ∧ memory'.Within limits ∧
      memory'.pages ≤ limits.maxOr ceiling := by
  have hb := inBounds_of_allocate h
  obtain ⟨hle, rfl⟩ := allocate_eq_ok_iff.mp h
  obtain ⟨memory', hm', he⟩ := hq.memories a _ hm
  have hpage : pageSize ≠ 0 := by decide
  have hserves := (Linear.serves_zeros hpage limits ceiling).evolves hpage hb.2 he
  obtain ⟨hwithin, hmax⟩ := within_of_serves (he.inBounds hb) hserves
  have hceiling : memory'.store.max = limits.maxOr ceiling := he.max
  exact ⟨memory', hm', hwithin, hceiling ▸ hmax⟩

/-- A table keeps the limits that it was made with. -/
theorem Table.within_of_allocate {table : Table} (h : allocate limits = .ok table)
    (ht : p.tables[a]? = some table) (hq : p.Evolves q) :
    ∃ table', q.tables[a]? = some table' ∧ table'.Within limits ∧
      table'.length ≤ limits.maxOr Limits.maxEntries := by
  have hb := inBounds_of_allocate h
  obtain ⟨hle, rfl⟩ := allocate_eq_ok_iff.mp h
  obtain ⟨table', ht', he⟩ := hq.tables a _ ht
  have hentry : entrySize ≠ 0 := by decide
  have hserves := (Linear.serves_zeros hentry limits Limits.maxEntries).evolves hentry hb.2 he
  obtain ⟨hwithin, hmax⟩ := within_of_serves (he.inBounds hb) hserves
  have hceiling : table'.store.max = limits.maxOr Limits.maxEntries := he.max
  exact ⟨table', ht', hwithin, hceiling ▸ hmax⟩

end Runs

/-- **Declared limits hold for the life of an instance.**  Whatever happens to the pool after a module was instantiated, every
memory and table of the instance has the size that the module declares for it. -/
theorem Compiled.keepsLimits_for_ever {m : Module} {config : Config} {stopped canceled : Bool}
    {c : Compiled} {imports : Imports} {p q q' : Pool} {inst : Instance} {log : List Event}
    (hc : m.compile config stopped = .ok c) (hp : Pool.Run {} p)
    (hlink : c.link config imports p canceled = (.ok inst, q, log)) (hq : q.Run q') :
    inst.KeepsLimits config q' := by
  obtain ⟨rfl, functions, hprepare, -, -⟩ := Module.compile_eq_ok_iff.mp hc
  obtain ⟨hshape, -, -, -⟩ := Module.prepare_eq_ok_iff.mp hprepare
  obtain ⟨-, hmemories, htables⟩ := Module.limits_of_checkShape hshape
  obtain ⟨r, s, hs, rfl, hallot⟩ := exists_of_link hlink
  have hresolves := Imports.resolves_of_resolve hs.bound
  have hlater : (p.allot s).Evolves q' := hallot.trans hq.evolves
  have hall : p.Evolves q' := hs.evolves.trans hlater
  refine ⟨?_, ?_, ?_, ?_⟩
  · exact hresolves.memories.imp fun im a h => h.within hp.inBounds hall
  · refine ((List.forall₂_and_left _ _).mpr
      ⟨hmemories, forall₂_addresses hs.memories p.memories⟩).imp fun limits a h => ?_
    obtain ⟨hcheck, memory, hm, hallocate⟩ := h
    obtain ⟨memory', hm', hwithin, hle⟩ := Memory.within_of_allocate hallocate hm hlater
    exact ⟨memory', hm', hwithin, UInt32.le_trans hle (Limits.le_of_check hcheck).2⟩
  · exact hresolves.tables.imp fun im a h => h.within hp.inBounds hall
  · refine ((List.forall₂_and_left _ _).mpr
      ⟨htables, forall₂_addresses hs.tables p.tables⟩).imp fun limits a h => ?_
    obtain ⟨hcheck, table, ht, hallocate⟩ := h
    obtain ⟨table', ht', hwithin, hle⟩ := Table.within_of_allocate hallocate ht hlater
    have hceiling := UInt32.le_trans hle (Limits.le_of_check hcheck).2
    exact ⟨table', ht', hwithin, UInt32.le_iff_toNat_le.mp hceiling⟩

/-- A module that imports a memory and writes into its second page, and that has a memory and a table of its own. -/
def borrowing : Module where
  imports := [⟨"env", "memory", .memory (some ⟨1, some 3⟩)⟩]
  memories := [⟨1, none⟩]
  tables := [⟨2, some 4⟩]
  data := [{ offset := some ⟨Opcode.i32Const, [0x80, 0x80, 0x04]⟩, init := [7] }]

/-- A pool with a memory of one page that can have three. -/
def onePage : Pool :=
  { memories := #[⟨⟨.zeros 65536, pageSize, 1, 3⟩⟩] }

theorem run_onePage : Pool.Run {} onePage := by
  have hmemory : hostMemory ⟨1, some 3⟩ = .ok ⟨⟨.zeros 65536, pageSize, 1, 3⟩⟩ :=
    Memory.allocate_eq_ok_iff.mpr ⟨by decide, rfl⟩
  exact .single (.host (.newMemory hmemory))

/-- The memory under the name that `borrowing` imports. -/
def lendsMemory : Imports :=
  { memories := [(⟨"env", "memory"⟩, some 0)] }

/-- The memory of one page grows for the data, and a second instantiation follows. -/
theorem borrowing_keepsLimits : ∃ c inst q log, borrowing.compile {} = .ok c ∧
    c.link {} lendsMemory onePage = (.ok inst, q, log) ∧
      inst.KeepsLimits {} (c.link {} lendsMemory q).2.1 := by
  have hok : ((borrowing.compile {}).toOption.bind fun c =>
      (c.link {} lendsMemory onePage).1.toOption).isSome = true := by decide +kernel
  obtain ⟨c, inst, q, log, hc, hlink⟩ := Module.exists_link_of_isSome hok
  exact ⟨c, inst, q, log, hc, hlink, Compiled.keepsLimits_for_ever hc run_onePage hlink
    (.single (.link c {} lendsMemory false))⟩

end FlatWasm
