import Mathlib
import FlatWasm.Proofs.Linking.Evolution
import FlatWasm.Proofs.Linking.Programs
import FlatWasm.Proofs.Linking.Resolution

/-!
# The stores that an instantiation makes

Once its imports are bound, a module makes its globals, its tables and its memories, in this order, and each new store is put
at the end of its part of the pool.  So the instance that comes out, and the pool, are known from three lists of stores: an
`Allotment`.  This module says so of the three passes, and what the stores in the lists are.

The passes are alike.  `ends_allocation` treats them as one, with what is made and where it goes as parameters.
-/

namespace FlatWasm

/-- New stores, in the order in which they are made. -/
structure Allotment where
  globals : List GlobalCell := []
  tables : List Table := []
  memories : List Memory := []

/-- The pool with new stores. -/
def Pool.allot (p : Pool) (s : Allotment) : Pool where
  memories := p.memories ++ s.memories.toArray
  tables := p.tables ++ s.tables.toArray
  globals := p.globals ++ s.globals.toArray

@[simp] theorem Pool.allot_empty (p : Pool) : p.allot {} = p := by
  simp [allot]

/-- The instance of a module with these bindings and with new stores in a pool that was `p`. -/
def Compiled.instanceOf (c : Compiled) (r : Bound) (p : Pool) (s : Allotment) : Instance where
  compiled := c
  hosts := r.functions
  memories := ⟨r.memories, List.range' p.memories.size s.memories.length⟩
  tables := ⟨r.tables, List.range' p.tables.size s.tables.length⟩
  globals := ⟨r.globals, List.range' p.globals.size s.globals.length⟩

/-- Stores that are put at the end of an array are found at the addresses that come next. -/
theorem forall₂_addresses {α β : Type} {R : α → β → Prop} {items : List α} {stores : List β}
    (h : List.Forall₂ R items stores) (xs : Array β) :
    List.Forall₂ (fun a address => ∃ s, (xs ++ stores.toArray)[address]? = some s ∧ R a s) items
      (List.range' xs.size stores.length) := by
  obtain ⟨hlength, hget⟩ := List.forall₂_iff_get.mp h
  refine List.forall₂_iff_get.mpr ⟨by rw [hlength, List.length_range'], fun i hi hr => ?_⟩
  have hs : i < stores.length := hlength ▸ hi
  refine ⟨stores.get ⟨i, hs⟩, ?_, hget i hi hs⟩
  rw [List.get_eq_getElem, List.getElem_range', Nat.one_mul,
    Array.getElem?_append_right (Nat.le_add_right _ _), Nat.add_sub_cancel_left,
    List.getElem?_toArray, List.getElem?_eq_getElem hs]
  rfl

/-- The addresses of new stores follow each other. -/
theorem eq_add_of_getElem?_range' {start n j address : ℕ}
    (h : (List.range' start n)[j]? = some address) : address = start + j := by
  obtain ⟨_, rfl⟩ := List.getElem?_eq_some_iff.mp h
  rw [List.getElem_range', Nat.one_mul]

/-- **A global is made if its initializer has a value**, and has that value then. -/
theorem Instance.makeGlobal_eq_ok_iff {inst : Instance} {g : Global} {i : ℕ} {pool : Pool}
    {cell : GlobalCell} :
    inst.makeGlobal g i pool = .ok cell ↔ ∃ expr value type width, g.init = some expr ∧
      expr.eval (inst.globalValue pool) = .ok value ∧ g.type = some type ∧
        type.valueType.width = .ok width ∧ cell = .ofValue type width value := by
  rw [makeGlobal]
  constructor
  · intro h
    obtain ⟨expr, hexpr, h₁⟩ := Except.bind_eq_ok_iff.mp h
    obtain ⟨value, hvalue, h₂⟩ := Except.bind_eq_ok_iff.mp h₁
    obtain ⟨type, htype, h₃⟩ := Except.bind_eq_ok_iff.mp h₂
    obtain ⟨empty, hempty, h₄⟩ := Except.bind_eq_ok_iff.mp h₃
    obtain ⟨width, hwidth, -⟩ := Except.bind_eq_ok_iff.mp (Except.mapError_eq_ok_iff.mp hempty)
    obtain ⟨init, hinit, h₅⟩ := Except.bind_eq_ok_iff.mp h₄
    obtain ⟨empty', init', he, hi, hallocate⟩ :=
      GlobalCell.allocate_eq hwidth value (inst.offsetValue pool)
    cases he.symm.trans (Except.mapError_eq_ok_iff.mp hempty)
    cases hi.symm.trans (Except.mapError_eq_ok_iff.mp hinit)
    rw [hallocate] at h₅
    exact ⟨expr, value, type, width, present_eq_ok_iff.mp hexpr, orRefuse_eq_ok_iff.mp hvalue,
      present_eq_ok_iff.mp htype, hwidth, (Except.ok.inj h₅).symm⟩
  · rintro ⟨expr, value, type, width, hexpr, hvalue, htype, hwidth, rfl⟩
    obtain ⟨empty, init, hempty, hinit, hallocate⟩ :=
      GlobalCell.allocate_eq hwidth value (inst.offsetValue pool)
    refine Except.bind_eq_ok_iff.mpr ⟨expr, present_eq_ok_iff.mpr hexpr, ?_⟩
    refine Except.bind_eq_ok_iff.mpr ⟨value, orRefuse_eq_ok_iff.mpr hvalue, ?_⟩
    refine Except.bind_eq_ok_iff.mpr ⟨type, present_eq_ok_iff.mpr htype, ?_⟩
    refine Except.bind_eq_ok_iff.mpr ⟨empty, Except.mapError_eq_ok_iff.mpr hempty, ?_⟩
    refine Except.bind_eq_ok_iff.mpr ⟨init, Except.mapError_eq_ok_iff.mpr hinit, ?_⟩
    rw [hallocate]
    rfl

/-! ## One pass -/

section Pass

variable {α σ : Type}

/-- The stores that a pass makes of some items, each in the state that the stores before it have led to, which is `S` of them. -/
inductive Made (make : Instance → α → ℕ → Pool → Except (Failure LinkError) σ)
    (S : List σ → Instance × Pool) : List α → List σ → Prop where
  | nil : Made make S [] []
  | snoc {items : List α} {stores : List σ} {a : α} {s : σ} (h : Made make S items stores)
      (hs : make (S stores).1 a items.length (S stores).2 = .ok s) :
      Made make S (items ++ [a]) (stores ++ [s])

/-- Each store is made of its item, in some state of the pass. -/
theorem Made.forall₂_of_mem {make : Instance → α → ℕ → Pool → Except (Failure LinkError) σ}
    {S : List σ → Instance × Pool} {items : List α} {stores : List σ} {R : α → σ → Prop}
    (h : Made make S items stores)
    (hR : ∀ a ∈ items, ∀ i seen s, make (S seen).1 a i (S seen).2 = .ok s → R a s) :
    List.Forall₂ R items stores := by
  induction h with
  | nil => exact .nil
  | @snoc items stores a s _ hs ih =>
    refine List.rel_append (ih fun a' ha' => hR a' (List.mem_append_left _ ha')) (.cons ?_ .nil)
    exact hR a (List.mem_append_right _ (List.mem_singleton_self a)) _ _ _ hs

/-- Where a store is made without looking at the others. -/
theorem Made.forall₂ {make : Instance → α → ℕ → Pool → Except (Failure LinkError) σ}
    {S : List σ → Instance × Pool} {items : List α} {stores : List σ} {R : α → σ → Prop}
    (h : Made make S items stores)
    (hR : ∀ inst a i pool s, make inst a i pool = .ok s → R a s) : List.Forall₂ R items stores :=
  h.forall₂_of_mem fun a _ i _ s hs => hR _ a i _ s hs

/-- **A pass makes the stores one by one and puts each at the end.** -/
theorem ends_allocation {make : Instance → α → ℕ → Pool → Except (Failure LinkError) σ}
    {add : σ → Pool → Address × Pool} {define : Instance → Address → Instance}
    {step : Instance → α × ℕ → Link Instance} {S : List σ → Instance × Pool}
    {items : List α} {log : List Event} {fails : Failure LinkError → World → Prop}
    (hstep : ∀ inst a i, step inst (a, i) = do
      let s ← Link.ofPool (make inst a i)
      let address ← Link.alloc (add s)
      return define inst address)
    (hadd : ∀ stores s, S (stores ++ [s]) =
      (define (S stores).1 (add s (S stores).2).1, (add s (S stores).2).2))
    (hfail : ∀ seen a rest stores e, items = seen ++ a :: rest → Made make S seen stores →
      make (S stores).1 a seen.length (S stores).2 = .error e →
        fails e ⟨(S stores).2, log⟩) :
    Link.Ends (items.zipIdx.foldlM step (S []).1) ⟨(S []).2, log⟩
      (fun inst w => ∃ stores, Made make S items stores ∧ inst = (S stores).1 ∧
        w = ⟨(S stores).2, log⟩) fails := by
  refine Link.ends_foldlM_zipIdx (I := fun seen inst w => ∃ stores, Made make S seen stores ∧
    inst = (S stores).1 ∧ w = ⟨(S stores).2, log⟩) ⟨[], .nil, rfl, rfl⟩ ?_
  rintro seen a rest inst w hitems ⟨stores, hmade, rfl, rfl⟩
  rw [hstep]
  refine (Link.ends_ofPool (Q := fun s w => make (S stores).1 a seen.length
    (S stores).2 = .ok s ∧ w = ⟨(S stores).2, log⟩) (fun s hs => ⟨hs, rfl⟩)
    fun e he => hfail seen a rest stores e hitems hmade he).bind ?_
  rintro s w ⟨hs, rfl⟩
  have hnext := hadd stores s
  refine (Link.ends_alloc (Q := fun address w => address = (add s (S stores).2).1 ∧
    w = ⟨(add s (S stores).2).2, log⟩) ⟨rfl, rfl⟩).bind ?_
  rintro address w ⟨rfl, rfl⟩
  exact Link.ends_pure ⟨stores ++ [s], hmade.snoc hs, by rw [hnext], by rw [hnext]⟩

end Pass

/-! ## The three passes -/

namespace Compiled

variable {c : Compiled} {r : Bound} {p : Pool} {log : List Event}
  {fails : Failure LinkError → World → Prop}

/-- The instance and the pool once some stores are made. -/
def stateOf (c : Compiled) (r : Bound) (p : Pool) (s : Allotment) : Instance × Pool :=
  (c.instanceOf r p s, p.allot s)

/-- The globals that a module makes. -/
def MakesGlobals (c : Compiled) (r : Bound) (p : Pool) : List Global → List GlobalCell → Prop :=
  Made (fun inst g i pool => inst.makeGlobal g i pool) fun globals => c.stateOf r p { globals }

/-- Each global has the type that it is declared with. -/
theorem MakesGlobals.forall₂_type {items : List Global} {globals : List GlobalCell}
    (h : c.MakesGlobals r p items globals) :
    List.Forall₂ (fun g cell => g.type = some cell.type) items globals := by
  refine h.forall₂ fun inst g i pool cell hcell => ?_
  obtain ⟨expr, value, type, width, -, -, htype, -, rfl⟩ := Instance.makeGlobal_eq_ok_iff.mp hcell
  exact htype

theorem ends_allocateGlobals {items : List Global}
    (hfail : ∀ seen g rest globals e, items = seen ++ g :: rest →
      c.MakesGlobals r p seen globals →
      (c.instanceOf r p { globals }).makeGlobal g seen.length (p.allot { globals }) = .error e →
        fails e ⟨p.allot { globals }, log⟩) :
    ((c.instanceOf r p {}).allocateGlobals items).Ends ⟨p.allot {}, log⟩
      (fun inst w => ∃ globals, c.MakesGlobals r p items globals ∧
        inst = c.instanceOf r p { globals } ∧ w = ⟨p.allot { globals }, log⟩) fails := by
  refine ends_allocation (S := fun globals => c.stateOf r p { globals })
    (fun _ _ _ => rfl) (fun globals g => ?_) hfail
  simp [stateOf, instanceOf, Pool.allot, Pool.addGlobal, Namespace.define, List.range'_1_concat]

/-- The tables that a module makes. -/
def MakesTables : List Limits → List Table → Prop :=
  List.Forall₂ fun limits t => Table.allocate limits = .ok t

/-- The memories that a module makes, of `ceiling` pages at most. -/
def MakesMemories (ceiling : UInt32) : List Limits → List Memory → Prop :=
  List.Forall₂ fun limits m => Memory.allocate limits ceiling = .ok m

theorem ends_allocateTables {globals : List GlobalCell} {items : List Limits}
    (hfail : ∀ seen limits rest tables e, items = seen ++ limits :: rest →
      MakesTables seen tables →
      (Table.allocate limits).mapError (Failure.map (LinkError.table seen.length)) = .error e →
        fails e ⟨p.allot { globals, tables }, log⟩) :
    ((c.instanceOf r p { globals }).allocateTables items).Ends ⟨p.allot { globals }, log⟩
      (fun inst w => ∃ tables, MakesTables items tables ∧
        inst = c.instanceOf r p { globals, tables } ∧ w = ⟨p.allot { globals, tables }, log⟩)
      fails := by
  have hmade : ∀ {seen tables}, Made (fun _ limits i _ =>
      (Table.allocate limits).mapError (Failure.map (LinkError.table i)))
      (fun tables => c.stateOf r p { globals, tables }) seen tables → MakesTables seen tables :=
    fun h => h.forall₂ fun _ _ _ _ _ => Except.mapError_eq_ok_iff.mp
  refine (ends_allocation (S := fun tables => c.stateOf r p { globals, tables })
    (fun _ _ _ => rfl) (fun tables t => ?_) fun seen limits rest tables e hitems h =>
      hfail seen limits rest tables e hitems (hmade h)).mono ?_
  · simp [stateOf, instanceOf, Pool.allot, Pool.addTable, Namespace.define, List.range'_1_concat]
  · rintro inst w ⟨tables, h, hinst, hw⟩
    exact ⟨tables, hmade h, hinst, hw⟩

theorem ends_allocateMemories {globals : List GlobalCell} {tables : List Table}
    {items : List Limits} {ceiling : UInt32}
    (hfail : ∀ seen limits rest memories e, items = seen ++ limits :: rest →
      MakesMemories ceiling seen memories →
      (Memory.allocate limits ceiling).mapError (Failure.map (LinkError.memory seen.length)) =
        .error e → fails e ⟨p.allot { globals, tables, memories }, log⟩) :
    ((c.instanceOf r p { globals, tables }).allocateMemories items ceiling).Ends
      ⟨p.allot { globals, tables }, log⟩
      (fun inst w => ∃ memories, MakesMemories ceiling items memories ∧
        inst = c.instanceOf r p { globals, tables, memories } ∧
          w = ⟨p.allot { globals, tables, memories }, log⟩) fails := by
  have hmade : ∀ {seen memories}, Made (fun _ limits i _ =>
      (Memory.allocate limits ceiling).mapError (Failure.map (LinkError.memory i)))
      (fun memories => c.stateOf r p { globals, tables, memories }) seen memories →
        MakesMemories ceiling seen memories :=
    fun h => h.forall₂ fun _ _ _ _ _ => Except.mapError_eq_ok_iff.mp
  refine (ends_allocation (S := fun memories => c.stateOf r p { globals, tables, memories })
    (fun _ _ _ => rfl) (fun memories m => ?_) fun seen limits rest memories e hitems h =>
      hfail seen limits rest memories e hitems (hmade h)).mono ?_
  · simp [stateOf, instanceOf, Pool.allot, Pool.addMemory, Namespace.define, List.range'_1_concat]
  · rintro inst w ⟨memories, h, hinst, hw⟩
    exact ⟨memories, hmade h, hinst, hw⟩

end Compiled

end FlatWasm
