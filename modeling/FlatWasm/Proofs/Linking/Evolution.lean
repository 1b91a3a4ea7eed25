import Mathlib
import FlatWasm.Proofs.Store.Bounds

/-!
# What an embedder does to stores

An embedder makes stores, grows them and writes into them, in any order.  `Pool.HostStep` is one such step, and
`Pool.Evolves` says what every step has in common: each store is still at its address, with its bounds and its type, and has
not become smaller; and where all memories and tables are within their bounds, they still are.

A pool holds three arrays, and all of this is said of one array first (`EachBecomes`).
-/

namespace FlatWasm

/-! ## Arrays of stores -/

/-- Every entry is still at its position, changed at most as `R` allows. -/
def EachBecomes {α : Type} (R : α → α → Prop) (xs ys : Array α) : Prop :=
  ∀ (a : ℕ) (x : α), xs[a]? = some x → ∃ y, ys[a]? = some y ∧ R x y

namespace EachBecomes

variable {α : Type} {R : α → α → Prop} {xs ys zs : Array α}

theorem trans (hR : ∀ {x y z}, R x y → R y z → R x z) (h : EachBecomes R xs ys)
    (h' : EachBecomes R ys zs) : EachBecomes R xs zs := by
  intro a x hx
  obtain ⟨y, hy, hxy⟩ := h a x hx
  obtain ⟨z, hz, hyz⟩ := h' a y hy
  exact ⟨z, hz, hR hxy hyz⟩

section Refl

variable (hR : ∀ x, R x x)

include hR

theorem refl (xs : Array α) : EachBecomes R xs xs :=
  fun _ x hx => ⟨x, hx, hR x⟩

theorem append (xs ys : Array α) : EachBecomes R xs (xs ++ ys) := by
  intro a x hx
  have hlt : a < xs.size := (Array.getElem?_eq_some_iff.mp hx).1
  exact ⟨x, by rw [Array.getElem?_append_left hlt, hx], hR x⟩

theorem set {a : ℕ} {x x' : α} (hx : xs[a]? = some x) (h : R x x') :
    EachBecomes R xs (xs.setIfInBounds a x') := by
  intro b y hy
  rw [Array.getElem?_setIfInBounds]
  by_cases hab : a = b
  · subst hab
    cases hx.symm.trans hy
    rw [if_pos rfl, if_pos (Array.getElem?_eq_some_iff.mp hx).1]
    exact ⟨x', rfl, h⟩
  · rw [if_neg hab]
    exact ⟨y, hy, hR y⟩

end Refl

end EachBecomes

/-! ## Pools -/

def Memory.Evolves (m m' : Memory) : Prop :=
  m.store.Evolves m'.store

def Table.Evolves (t t' : Table) : Prop :=
  t.store.Evolves t'.store

/-- A global keeps its type. -/
structure GlobalCell.Evolves (g g' : GlobalCell) : Prop where
  type : g'.type = g.type
  store : g.store.Evolves g'.store

theorem Memory.Evolves.refl (m : Memory) : m.Evolves m :=
  Linear.Evolves.refl m.store

theorem Table.Evolves.refl (t : Table) : t.Evolves t :=
  Linear.Evolves.refl t.store

theorem GlobalCell.Evolves.refl (g : GlobalCell) : g.Evolves g :=
  ⟨rfl, .refl g.store⟩

/-- A memory with whole pages, within its bounds. -/
def Memory.InBounds (m : Memory) : Prop :=
  m.store.unit = pageSize ∧ m.store.InBounds

/-- A table with whole entries, within its bounds. -/
def Table.InBounds (t : Table) : Prop :=
  t.store.unit = entrySize ∧ t.store.InBounds

theorem Memory.Evolves.inBounds {m m' : Memory} (h : m.Evolves m') (hm : m.InBounds) :
    m'.InBounds :=
  ⟨h.unit.trans hm.1, Linear.Evolves.inBounds h hm.2⟩

theorem Table.Evolves.inBounds {t t' : Table} (h : t.Evolves t') (ht : t.InBounds) :
    t'.InBounds :=
  ⟨h.unit.trans ht.1, Linear.Evolves.inBounds h ht.2⟩

theorem Memory.inBounds_of_allocate {limits : Limits} {ceiling : UInt32} {m : Memory}
    (h : allocate limits ceiling = .ok m) : m.InBounds := by
  obtain ⟨hle, rfl⟩ := allocate_eq_ok_iff.mp h
  exact ⟨rfl, Linear.inBounds_zeros hle⟩

theorem Table.inBounds_of_allocate {limits : Limits} {t : Table} (h : allocate limits = .ok t) :
    t.InBounds := by
  obtain ⟨hle, rfl⟩ := allocate_eq_ok_iff.mp h
  exact ⟨rfl, Linear.inBounds_zeros hle⟩

namespace Pool

variable {p q r : Pool}

/-- All memories and tables are within their bounds. -/
structure InBounds (p : Pool) : Prop where
  memories : ∀ m ∈ p.memories, m.InBounds
  tables : ∀ t ∈ p.tables, t.InBounds

/-- What a pool can become. -/
structure Evolves (p q : Pool) : Prop where
  memories : EachBecomes Memory.Evolves p.memories q.memories
  tables : EachBecomes Table.Evolves p.tables q.tables
  globals : EachBecomes GlobalCell.Evolves p.globals q.globals
  inBounds : p.InBounds → q.InBounds

theorem Evolves.refl (p : Pool) : p.Evolves p :=
  ⟨.refl .refl _, .refl .refl _, .refl .refl _, id⟩

theorem Evolves.trans (h : p.Evolves q) (h' : q.Evolves r) : p.Evolves r where
  memories := h.memories.trans Linear.Evolves.trans h'.memories
  tables := h.tables.trans Linear.Evolves.trans h'.tables
  globals := h.globals.trans (fun h h' => ⟨h'.type.trans h.type, h.store.trans h'.store⟩) h'.globals
  inBounds := h'.inBounds ∘ h.inBounds

theorem evolves_addMemories (p : Pool) {ms : List Memory} (h : ∀ m ∈ ms, m.InBounds) :
    p.Evolves { p with memories := p.memories ++ ms.toArray } := by
  refine ⟨.append .refl _ _, .refl .refl _, .refl .refl _, fun hp => ⟨fun m hm => ?_, hp.tables⟩⟩
  rcases Array.mem_append.mp hm with hm | hm
  · exact hp.memories m hm
  · exact h m (List.mem_toArray.mp hm)

theorem evolves_addTables (p : Pool) {ts : List Table} (h : ∀ t ∈ ts, t.InBounds) :
    p.Evolves { p with tables := p.tables ++ ts.toArray } := by
  refine ⟨.refl .refl _, .append .refl _ _, .refl .refl _, fun hp => ⟨hp.memories, fun t ht => ?_⟩⟩
  rcases Array.mem_append.mp ht with ht | ht
  · exact hp.tables t ht
  · exact h t (List.mem_toArray.mp ht)

theorem evolves_addGlobals (p : Pool) (gs : List GlobalCell) :
    p.Evolves { p with globals := p.globals ++ gs.toArray } :=
  ⟨.refl .refl _, .refl .refl _, .append .refl _ _, fun hp => ⟨hp.memories, hp.tables⟩⟩

theorem evolves_setMemory {a : Address} {m m' : Memory} (hm : p.memories[a]? = some m)
    (h : m.Evolves m') : p.Evolves (p.setMemory a m') := by
  refine ⟨.set .refl hm h, .refl .refl _, .refl .refl _, fun hp => ⟨fun m'' hm'' => ?_, hp.tables⟩⟩
  rcases Array.mem_or_eq_of_mem_setIfInBounds hm'' with hmem | rfl
  · exact hp.memories m'' hmem
  · exact h.inBounds (hp.memories m (Array.mem_of_getElem? hm))

theorem evolves_setTable {a : Address} {t t' : Table} (ht : p.tables[a]? = some t)
    (h : t.Evolves t') : p.Evolves (p.setTable a t') := by
  refine ⟨.refl .refl _, .set .refl ht h, .refl .refl _, fun hp => ⟨hp.memories, fun t'' ht'' => ?_⟩⟩
  rcases Array.mem_or_eq_of_mem_setIfInBounds ht'' with hmem | rfl
  · exact hp.tables t'' hmem
  · exact h.inBounds (hp.tables t (Array.mem_of_getElem? ht))

theorem evolves_setGlobal {a : Address} {g g' : GlobalCell} (hg : p.globals[a]? = some g)
    (h : g.Evolves g') : p.Evolves (p.setGlobal a g') :=
  ⟨.refl .refl _, .refl .refl _, .set .refl hg h, fun hp => ⟨hp.memories, hp.tables⟩⟩

end Pool

/-! ## Changes by an embedder -/

/-- What the methods of a store do. -/
inductive Linear.Changes (s : Linear) : Linear → Prop where
  | grow {units : UInt32} {result : GrowResult} {t : Linear} (h : s.grow units = .ok (result, t)) :
      Changes s t
  | growStrict {units : UInt32} {allowNoChange : Bool} {t : Linear}
      (h : s.growStrict units allowNoChange = .ok t) : Changes s t
  | write {offset : UInt64} {payload : List UInt8} {t : Linear}
      (h : s.write offset payload = .ok (some t)) : Changes s t
  | write32 {offset : UInt64} {v : UInt32} {t : Linear} (h : s.write32 offset v = .ok (some t)) :
      Changes s t
  | write64 {offset : UInt64} {v : UInt64} {t : Linear} (h : s.write64 offset v = .ok (some t)) :
      Changes s t

/-- What the methods of a memory do. -/
inductive Memory.Changes (m : Memory) : Memory → Prop where
  | store {s : Linear} (h : m.store.Changes s) : Changes m ⟨s⟩
  | grow {delta previous : UInt32} {m' : Memory} (h : m.grow? delta = .ok (some (previous, m'))) :
      Changes m m'

/-- What the methods of a table do. -/
inductive Table.Changes (t : Table) : Table → Prop where
  | store {s : Linear} (h : t.store.Changes s) : Changes t ⟨s⟩
  | set {i function : UInt32} {t' : Table} (h : t.set? i function = some t') : Changes t t'
  | clear {i : UInt32} {t' : Table} (h : t.clear? i = some t') : Changes t t'
  | grow {delta previous : UInt32} {t' : Table} (h : t.grow? delta = .ok (some (previous, t'))) :
      Changes t t'

/-- What the methods of a global do. -/
inductive GlobalCell.Changes (g : GlobalCell) : GlobalCell → Prop where
  | store {s : Linear} (h : g.store.Changes s) : Changes g { g with store := s }
  | set (v : UInt64) : Changes g (g.set v)

/-- One step of an embedder: it makes a store or calls a method of one. -/
inductive Pool.HostStep (p : Pool) : Pool → Prop where
  | newMemory {limits : Limits} {m : Memory} (h : hostMemory limits = .ok m) :
      HostStep p (p.addMemory m).2
  | newTable {limits : Limits} {t : Table} (h : hostTable limits = .ok t) :
      HostStep p (p.addTable t).2
  | newGlobal {type : GlobalType} {value : UInt64} {g : GlobalCell}
      (h : hostGlobal type value = .ok g) : HostStep p (p.addGlobal g).2
  | memory {a : Address} {m m' : Memory} (hm : p.memories[a]? = some m) (h : m.Changes m') :
      HostStep p (p.setMemory a m')
  | table {a : Address} {t t' : Table} (ht : p.tables[a]? = some t) (h : t.Changes t') :
      HostStep p (p.setTable a t')
  | global {a : Address} {g g' : GlobalCell} (hg : p.globals[a]? = some g) (h : g.Changes g') :
      HostStep p (p.setGlobal a g')

theorem Linear.Changes.evolves {s t : Linear} (h : s.Changes t) : s.Evolves t := by
  cases h with
  | grow h => exact evolves_of_grow h
  | growStrict h => exact evolves_of_growStrict h
  | write h | write32 h | write64 h => exact evolves_of_write h

theorem Memory.evolves_of_grow? {m m' : Memory} {delta previous : UInt32}
    (h : m.grow? delta = .ok (some (previous, m'))) : m.Evolves m' := by
  rw [grow?] at h
  split at h
  · cases h
    exact .refl _
  split at h
  · cases h
  split at h
  · next hgrow =>
    cases h
    exact Linear.evolves_of_grow hgrow
  · cases h
  · cases h

theorem Table.evolves_of_grow? {t t' : Table} {delta previous : UInt32}
    (h : t.grow? delta = .ok (some (previous, t'))) : t.Evolves t' := by
  rw [grow?] at h
  split at h
  · cases h
    exact .refl _
  split at h
  · cases h
  split at h
  · next hgrow =>
    cases h
    exact Linear.evolves_of_grow hgrow
  · cases h
  · cases h

theorem Table.evolves_of_setSlot? {t t' : Table} {i slot : UInt32}
    (h : t.setSlot? i slot = some t') : t.Evolves t' := by
  obtain ⟨s, hs, rfl⟩ := Option.map_eq_some_iff.mp h
  exact Linear.evolves_of_put? hs

theorem Memory.Changes.evolves {m m' : Memory} (h : m.Changes m') : m.Evolves m' := by
  cases h with
  | store h => exact h.evolves
  | grow h => exact evolves_of_grow? h

theorem Table.Changes.evolves {t t' : Table} (h : t.Changes t') : t.Evolves t' := by
  cases h with
  | store h => exact h.evolves
  | set h | clear h => exact evolves_of_setSlot? h
  | grow h => exact evolves_of_grow? h

theorem GlobalCell.Changes.evolves {g g' : GlobalCell} (h : g.Changes g') : g.Evolves g' := by
  cases h with
  | store h => exact ⟨rfl, h.evolves⟩
  | set v =>
    rw [GlobalCell.set]
    split
    · next s hs => exact ⟨rfl, Linear.evolves_of_put? hs⟩
    · exact .refl g

/-- **No step of an embedder breaks the bounds of a store or makes it smaller.** -/
theorem Pool.HostStep.evolves {p q : Pool} (h : p.HostStep q) : p.Evolves q := by
  cases h with
  | @newMemory limits m h =>
    have hm := p.evolves_addMemories (List.forall_mem_singleton.mpr (Memory.inBounds_of_allocate h))
    rwa [← Array.push_eq_append] at hm
  | @newTable limits t h =>
    have ht := p.evolves_addTables (List.forall_mem_singleton.mpr (Table.inBounds_of_allocate h))
    rwa [← Array.push_eq_append] at ht
  | @newGlobal type value g h =>
    have hg := p.evolves_addGlobals [g]
    rwa [← Array.push_eq_append] at hg
  | memory hm h => exact evolves_setMemory hm h.evolves
  | table ht h => exact evolves_setTable ht h.evolves
  | global hg h => exact evolves_setGlobal hg h.evolves

end FlatWasm
