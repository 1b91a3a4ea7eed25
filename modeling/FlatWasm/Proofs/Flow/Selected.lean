import Mathlib
import FlatWasm.Proofs.Flow.Ways

/-!
# The store that an instruction works on is selected

Flat code does not say at a load which memory it loads from: a marker has selected one before, on whatever path control
came.  Most markers are left out, where the pass was certain that the store is selected already.  Here this is proved of
the finished code and of all its paths.  A path starts with nothing selected; only a marker fills a slot, and a call, or
the growth of a memory, empties slots.  Whenever it comes to an instruction that works on a store, the slot of that kind
holds the location of the store that the source instruction named.

The invariant of a path is the chart of the code: at every offset the slots hold what the chart is certain of.  It says
nothing about what else they hold, so that paths that come from different places can meet.
-/

namespace FlatWasm

open Source Lowering

/-- Where the store of a kind with an index lives. -/
def IndexSpace.location? (space : IndexSpace) : Flat.StoreKind → UInt32 → Option Location
  | .memory, x => (space.memory x).toOption.map Prod.fst
  | .table, x => (space.table x).toOption.map Prod.fst
  | .global, x => (space.global x).toOption.map Prod.fst

namespace Source.Op

/-- The stores that an instruction names.  A copy names its memory twice. -/
def stores : Op → List (Flat.StoreKind × UInt32)
  | .callIndirect _ x => [(.table, x)]
  | .globalGet x | .globalSet x => [(.global, x)]
  | .access _ _ _ x | .memorySize x | .memoryGrow x | .memoryFill x => [(.memory, x)]
  | .memoryCopy x y => [(.memory, x), (.memory, y)]
  | _ => []

/-- The stores that an instruction names live where the resolved instruction says. -/
def Names (o : Op) (space : IndexSpace) (kind : Flat.StoreKind) (store : Location) : Prop :=
  o.stores ≠ [] ∧ ∀ s ∈ o.stores, s.1 = kind ∧ space.location? kind s.2 = some store

variable {o : Op} {space : IndexSpace} {kind : Flat.StoreKind} {store : Location}

theorem names_of_stores {x : UInt32} (h : o.stores = [(kind, x)])
    (hx : space.location? kind x = some store) : o.Names space kind store := by
  rw [Names, h]
  exact ⟨List.cons_ne_nil _ _, List.forall_mem_singleton.mpr ⟨rfl, hx⟩⟩

theorem location?_of_global? {x : UInt32} {g : GlobalType} {width : UInt32}
    (h : global? space x = some (store, g, width)) : space.location? .global x = some store := by
  obtain ⟨p, hp, h'⟩ := Option.bind_eq_some_iff.mp h
  obtain ⟨g', -, h''⟩ := Option.bind_eq_some_iff.mp h'
  obtain ⟨w, -, heq⟩ := Option.bind_eq_some_iff.mp h''
  cases heq
  rw [IndexSpace.location?, hp]
  rfl

/-- **What an instruction is resolved to works on the store that it names.** -/
theorem names_of_resolve {scope : Scope} {depth : ℕ} {i : Instr}
    (h : o.resolve scope depth = some i) (hs : i.store? = some (kind, store)) :
    o.Names scope.space kind store := by
  cases i with
  | callIndirect typeIndex type table =>
    cases hs
    cases o <;> simp [resolve, Option.bind_eq_some_iff] at h
    obtain ⟨-, ⟨limits, ht⟩, rfl⟩ := h
    exact names_of_stores rfl (by rw [IndexSpace.location?, ht]; rfl)
  | globalGet global type width =>
    cases hs
    cases o <;> simp [resolve, Option.bind_eq_some_iff] at h
    obtain ⟨g, hg, -⟩ := h
    exact names_of_stores rfl (location?_of_global? hg)
  | globalSet global type width =>
    cases hs
    cases o <;> simp [resolve, Option.bind_eq_some_iff] at h
    obtain ⟨g, hg, -⟩ := h
    exact names_of_stores rfl (location?_of_global? hg)
  | memoryCopy memory =>
    cases hs
    cases o <;> simp [resolve, Option.bind_eq_some_iff] at h
    exact ⟨List.cons_ne_nil _ _, List.forall_mem_cons.mpr ⟨⟨rfl, h.1⟩,
      List.forall_mem_singleton.mpr ⟨rfl, h.2⟩⟩⟩
  | access a offset memory =>
    cases hs
    cases o <;> simp [resolve, Option.bind_eq_some_iff] at h
    exact names_of_stores rfl h.2.1
  | memorySize memory | memoryGrow memory | memoryFill memory =>
    cases hs
    cases o <;> simp [resolve, Option.bind_eq_some_iff] at h
    exact names_of_stores rfl h
  | _ => cases hs

end Source.Op

/-- A token that works on a store is an instruction. -/
theorem Source.Token.names_of_resolve {t : Token} {scope : Scope} {depth : ℕ} {i : Instr}
    {kind : Flat.StoreKind} {store : Location} (h : t.resolve scope depth = some i)
    (hs : i.store? = some (kind, store)) : ∃ o, t = .op o ∧ o.Names scope.space kind store := by
  cases t with
  | op o => exact ⟨o, rfl, Op.names_of_resolve h hs⟩
  | block type | loop type | ifThen type =>
    obtain ⟨type', -, rfl⟩ := Option.map_eq_some_iff.mp h
    cases hs
  | elseMark | endMark =>
    cases h
    cases hs

namespace Instr

variable {i : Instr} {j : Flat.Instr} {kind : Flat.StoreKind}

theorem exists_store_of_flat (h : i.flat? = some j) (hk : j.store? = some kind) :
    ∃ store, i.store? = some (kind, store) := by
  cases i with
  | call callee type =>
    obtain ⟨origin, position⟩ := callee
    cases origin <;> cases h <;> cases hk
  | access a offset memory => cases a <;> cases h <;> cases hk <;> exact ⟨_, rfl⟩
  | _ => cases h <;> cases hk <;> exact ⟨_, rfl⟩

/-- Where an instruction needs no marker, its store is selected. -/
theorem get_of_selecting_eq_self {s : Selection} {store : Location}
    (hs : i.store? = some (kind, store)) (h : i.selecting s = s) : s.get kind = some store := by
  rw [selecting, hs] at h
  rw [← h]
  exact Selection.get_set_self _ _ _

end Instr

/-- At a site that works on a store, this store is selected, and the source instruction named it. -/
theorem Site.exists_store {c : Listing} {L : ℕ → Point → Prop} {n : ℕ} {p : Point}
    {j : Flat.Instr} {kind : Flat.StoreKind} (h : Site c L n p j) (hk : j.store? = some kind) :
    ∃ i store, c.source n = some i ∧ i.store? = some (kind, store) ∧
      p.selected.get kind = some store := by
  have hbranch : ∀ (kind' : BranchKind) (keep drop target : UInt32),
      (kind'.instr keep drop target).store? = none := by
    intro kind' keep drop target
    cases kind' <;> rw [BranchKind.instr] <;> split <;> rfl
  cases h with
  | plain ho hj he ha hm hs hl =>
    obtain ⟨store, hstore⟩ := Instr.exists_store_of_flat hj hk
    exact ⟨_, store, hs, hstore, Instr.get_of_selecting_eq_self hstore hm⟩
  | branch hx hb ha =>
    rw [hbranch] at hk
    cases hk
  | branchIf hx hb hh ha hj hn =>
    rw [hj, hbranch] at hk
    cases hk
  | _ => cases hk

namespace Function

variable {f : Function} {space : IndexSpace}

/-- What holds along a path: it is at the start, or the slots hold what the chart is certain of. -/
def Selects (f : Function) (A : Set (ℕ × Point)) : ℕ × Flat.Slots → Prop
  | (pc, slots) =>
    pc = 0 ∧ f.locals.isEmpty = false ∨ ∃ p, (pc, p) ∈ A ∧ p.selected.Holds slots

variable {c : Listing} {A : Set (ℕ × Point)} {pc : ℕ} {slots : Flat.Slots}

theorem selects_of_lands {p : Point} (h : Lands A pc p) (hs : p.selected.Holds slots) :
    f.Selects A (pc, slots) := by
  obtain ⟨r, hr, hle⟩ := h
  exact .inr ⟨r, hr, hs.mono hle.2⟩

theorem HasChart.selects_start (h : f.HasChart c A) (slots : Flat.Slots) :
    f.Selects A (0, slots) := by
  cases hempty : f.locals.isEmpty with
  | false => exact .inl ⟨rfl, hempty⟩
  | true =>
    have hstart := h.start
    rw [entry, hempty] at hstart
    exact selects_of_lands hstart (Selection.holds_unknown _)

/-- One step along a path. -/
theorem HasChart.selects_step (h : f.HasChart c A) (hsize : (Flat.encode c.code).length < 2 ^ 32)
    {x y : ℕ × Flat.Slots} (hx : f.Selects A x) (hxy : Flat.SlotStep (Flat.encode c.code) x y) :
    f.Selects A y := by
  obtain ⟨hj, hw⟩ := hxy
  rcases hx with ⟨rfl, hempty⟩ | ⟨p, hp, hslots⟩
  · have hstart := h.start
    rw [entry, hempty] at hstart
    rw [(h.locals hempty).fetch hsize] at hj
    cases hj
    obtain ⟨rfl, rfl⟩ := Prod.mk.inj (List.mem_singleton.mp hw)
    exact selects_of_lands hstart (Selection.holds_unknown _)
  · obtain ⟨j', hj', hsite⟩ := h.site _ p hp
    rw [hj'.fetch hsize] at hj
    cases hj
    obtain ⟨q, hq, hleads⟩ := hsite.exists_next hw
    exact selects_of_lands hq (hleads.holds _ hslots)

theorem HasChart.selects_of_path (h : f.HasChart c A)
    (hsize : (Flat.encode c.code).length < 2 ^ 32) {x : ℕ × Flat.Slots}
    (hpath : Relation.ReflTransGen (Flat.SlotStep (Flat.encode c.code)) (0, .unknown) x) :
    f.Selects A x := by
  induction hpath with
  | refl => exact h.selects_start _
  | tail _ hstep ih => exact h.selects_step hsize ih hstep

def loadsThrice : Function where
  index := 0
  type := ⟨[.i32], []⟩
  locals := {}
  body := .raw [0x02, 0x40, 0x20, 0, 0x28, 0x42, 1, 0, 0x1a, 0x20, 0, 0x0d, 0,
    0x20, 0, 0x28, 0x42, 1, 0, 0x1a, 0x0b, 0x20, 0, 0x28, 0x42, 1, 0, 0x1a, 0x0b]

def loadsThriceSpace : IndexSpace where
  memories := { imported := [some ⟨1, none⟩], defined := [some ⟨1, none⟩] }

def loadsThriceCode : List UInt8 :=
  [14, 0, 0, 0, 0, 17, 2, 0, 0, 0, 0, 36, 12, 14, 0, 0, 0, 0, 3, 30, 0, 0, 0, 14, 0, 0, 0, 0, 36, 12,
    14, 0, 0, 0, 0, 36, 12, 8, 0, 0, 0, 0, 1, 0, 0, 0]

end Function

end FlatWasm
