import Mathlib
import FlatWasm.Proofs.Store.Growth

/-!
# What the entries of a table refer to

To whoever calls its methods, a table is an array whose entries refer to a function or to none.  An entry refers to what it was
last set to, however often the table has grown since and whatever became of the other entries.

* `Table.InBounds.get?_serve`: a call changes at most the entry that it is about, and only if it succeeds.
* `Table.Refers`: a table within its bounds, each entry of which is what the last call that succeeded has left there.  A new
  table is like that, every call keeps it so (`Refers.serve`), and so do any number of them (`Refers.run`).

## The greatest index

The word of a function is its index plus one, and zero is the word of an entry that refers to none.  For the greatest index the
sum wraps around to zero.  To set an entry to it is reported as success and does what clearing the entry does.  This is the only
index that is lost (`Table.kept`).
-/

namespace FlatWasm

namespace Table

/-! ## Calls -/

/-- What can be asked of a table. -/
inductive Call where
  | set (i function : UInt32)
  | clear (i : UInt32)
  | get (i : UInt32)
  | grow (delta : UInt32)
deriving DecidableEq, Repr

/-- What a table answers. -/
inductive Reply where
  | done (success : Bool)
  | found (function : Option UInt32)
  | grown (previous : Option UInt32)
deriving DecidableEq, Repr

/-- A call, and what came of it. -/
structure Served where
  call : Call
  outcome : Except Defect Reply
deriving DecidableEq

/-- The outcome of writing an entry, and the table after it. -/
def afterSet (t : Table) : Option Table → Except Defect Reply × Table
  | some t' => (.ok (.done true), t')
  | none => (.ok (.done false), t)

/-- Serves a call: the outcome, and the table after it. -/
def serve (t : Table) : Call → Except Defect Reply × Table
  | .set i function => t.afterSet (t.set? i function)
  | .clear i => t.afterSet (t.clear? i)
  | .get i => (.ok (.found (t.get? i)), t)
  | .grow delta => ((t.growBy delta).1.map .grown, (t.growBy delta).2)

/-- The table after some calls, and what came of each of them, in order. -/
def run (t : Table) : List Call → Table × List Served
  | [] => (t, [])
  | c :: calls =>
    let rest := (t.serve c).2.run calls
    (rest.1, ⟨c, (t.serve c).1⟩ :: rest.2)

/-- What a call has let an entry refer to, if it is about that entry and has succeeded. -/
def Served.assigned? (served : Served) (i : UInt32) : Option (Option UInt32) :=
  match served.call with
  | .set j function => if j = i ∧ served.outcome = .ok (.done true) then some (some function) else none
  | .clear j => if j = i ∧ served.outcome = .ok (.done true) then some none else none
  | .get _ | .grow _ => none

/-- What the last call that succeeded has let an entry refer to, if there was one. -/
def lastAssigned? (history : List Served) (i : UInt32) : Option (Option UInt32) :=
  history.reverse.findSome? (Served.assigned? · i)

/-- What is left of a function that an entry is to refer to. -/
def kept (function : Option UInt32) : Option UInt32 :=
  function.filter (· ≠ 0xFFFFFFFF)

variable {t t' : Table} {i j : UInt32} {history : List Served}

theorem lastAssigned?_concat (served : Served) :
    lastAssigned? (history ++ [served]) i =
      (served.assigned? i).or (lastAssigned? history i) := by
  simp only [lastAssigned?, List.reverse_append, List.reverse_singleton, List.singleton_append,
    List.findSome?_cons]
  cases served.assigned? i <;> rfl

theorem kept_some (function : UInt32) : kept (some function) = referent (slotOf function) := by
  rw [referent_slotOf, kept, Option.filter_some]
  by_cases h : function = 0xFFFFFFFF <;> simp [h]

theorem kept_eq_self_iff (function : Option UInt32) :
    kept function = function ↔ function ≠ some 0xFFFFFFFF := by
  cases function with
  | none => simp [kept]
  | some f =>
    rw [kept, Option.filter_some]
    by_cases h : f = 0xFFFFFFFF <;> simp [h]

/-! ## One call -/

/-- Whether a word is written depends on the length alone. -/
theorem InBounds.fst_afterSet (h : t.InBounds) (i slot : UInt32) :
    (t.afterSet (t.setSlot? i slot)).1 = .ok (.done (i < t.length)) := by
  by_cases hi : i < t.length
  · have hset : t.setSlot? i slot = some _ := setSlot?_eq_some_iff.mpr ⟨h.has_iff.mpr hi, rfl⟩
    simp [hset, afterSet, hi]
  · have hset : t.setSlot? i slot = none := by
      by_contra hne
      obtain ⟨t', ht'⟩ := Option.ne_none_iff_exists'.mp hne
      exact hi (h.has_iff.mp (setSlot?_eq_some_iff.mp ht').1)
    simp [hset, afterSet, hi]

theorem inBounds_afterSet {slot : UInt32} (h : t.InBounds) :
    (t.afterSet (t.setSlot? i slot)).2.InBounds := by
  cases hset : t.setSlot? i slot with
  | none => exact h
  | some t' => exact (evolves_of_setSlot? hset).inBounds h

theorem inBounds_growBy (h : t.InBounds) (delta : UInt32) : (t.growBy delta).2.InBounds := by
  rw [growBy]
  rcases hgrow : t.grow? delta with d | _ | ⟨previous, t'⟩
  · exact h
  · exact h
  · exact (evolves_of_grow? hgrow).inBounds h

theorem InBounds.serve (h : t.InBounds) (c : Call) : (t.serve c).2.InBounds := by
  cases c with
  | set i function => exact inBounds_afterSet h
  | clear i => exact inBounds_afterSet h
  | get i => exact h
  | grow delta => exact inBounds_growBy h delta

/-- Growth changes no entry: there was none where entries are added. -/
theorem InBounds.get?_growBy (h : t.InBounds) (delta i : UInt32) :
    (t.growBy delta).2.get? i = t.get? i := by
  have hgrows := h.growsExactly delta
  by_cases hi : i < t.length
  · exact hgrows.kept i hi
  · rw [hgrows.null i (UInt32.not_lt.mp hi), get?_of_not_has fun hhas => hi (h.has_iff.mp hhas)]

/-- **A call changes at most the entry that it is about**, and only if it succeeds. -/
theorem InBounds.get?_serve (h : t.InBounds) (c : Call) (j : UInt32) :
    (t.serve c).2.get? j =
      ((Served.assigned? ⟨c, (t.serve c).1⟩ j).map kept).getD (t.get? j) := by
  cases c with
  | set i function =>
    rw [Table.serve]
    cases hset : t.set? i function with
    | none => simp [afterSet, Served.assigned?]
    | some t' =>
      have hget := get?_of_setSlot? hset j
      by_cases hij : i = j <;> simp [afterSet, Served.assigned?, hget, hij, kept_some]
  | clear i =>
    rw [Table.serve]
    cases hset : t.clear? i with
    | none => simp [afterSet, Served.assigned?]
    | some t' =>
      have hget := get?_of_setSlot? hset j
      by_cases hij : i = j <;> simp [afterSet, Served.assigned?, hget, hij, referent, kept]
  | get i => rfl
  | grow delta => exact h.get?_growBy delta j

/-! ## Any number of calls -/

/-- A table within its bounds, each entry of which is what the last call that succeeded has left there. -/
structure Refers (t : Table) (history : List Served) : Prop where
  inBounds : t.InBounds
  get : ∀ i, t.get? i = kept (lastAssigned? history i).join

theorem refers_of_allocate {limits : Limits} (h : allocate limits = .ok t) : t.Refers [] := by
  refine ⟨inBounds_of_allocate h, fun i => ?_⟩
  obtain ⟨-, rfl⟩ := allocate_eq_ok_iff.mp h
  exact get?_of_zeros fun k _ _ => Sparse.byte_zeros _ k

/-- **A call keeps what entries refer to**, with what it has assigned. -/
theorem Refers.serve (h : t.Refers history) (c : Call) :
    (t.serve c).2.Refers (history ++ [⟨c, (t.serve c).1⟩]) := by
  refine ⟨h.inBounds.serve c, fun i => ?_⟩
  rw [h.inBounds.get?_serve, lastAssigned?_concat, h.get]
  cases Served.assigned? ⟨c, (t.serve c).1⟩ i <;> rfl

theorem Refers.run (h : t.Refers history) (calls : List Call) :
    (t.run calls).1.Refers (history ++ (t.run calls).2) := by
  induction calls generalizing t history with
  | nil => rwa [Table.run, List.append_nil]
  | cons c calls ih =>
    rw [Table.run, List.append_cons]
    exact ih (h.serve c)

/-- **A table is an array of references, but for the greatest index.**  Whatever was asked of a table since it was allocated, an
entry can be set or cleared exactly if there is one.  It refers to the function that the last of these calls has set it to, and
to none if it was cleared or never set, or if there is no such entry.  The answer is another one exactly if the entry was last
set to the greatest index that there is: then it refers to no function. -/
theorem refers_to_last_assigned {limits : Limits} {t₀ : Table} {calls : List Call}
    (h₀ : allocate limits = .ok t₀) (hrun : t₀.run calls = (t, history)) :
    (∀ i function, (t.serve (.set i function)).1 = .ok (.done (i < t.length))) ∧
      (∀ i, (t.serve (.clear i)).1 = .ok (.done (i < t.length))) ∧
      (∀ i, (t.serve (.get i)).1 = .ok (.found (lastAssigned? history i).join) ↔
        lastAssigned? history i ≠ some (some 0xFFFFFFFF)) ∧
      (∀ i, lastAssigned? history i = some (some 0xFFFFFFFF) →
        (t.serve (.get i)).1 = .ok (.found none)) ∧
      ∀ i, t.length ≤ i → (t.serve (.get i)).1 = .ok (.found none) := by
  have hrefers := (refers_of_allocate h₀).run calls
  rw [hrun, List.nil_append] at hrefers
  have hget : ∀ i, (t.serve (.get i)).1 = .ok (.found (kept (lastAssigned? history i).join)) := by
    intro i
    rw [serve, hrefers.get]
  refine ⟨fun i function => hrefers.inBounds.fst_afterSet i _, fun i => hrefers.inBounds.fst_afterSet i _,
    fun i => ?_, fun i hi => ?_, fun i hi => ?_⟩
  · rw [hget, Except.ok.injEq, Reply.found.injEq, kept_eq_self_iff, Ne, Option.join_eq_some_iff]
  · rw [hget, hi]
    rfl
  · have hnot : ¬t.Has i := fun hhas => UInt32.not_lt.mpr hi (hrefers.inBounds.has_iff.mp hhas)
    rw [serve, get?_of_not_has hnot]

/-- A table of two entries that can have four. -/
def twoEntries : Table :=
  ⟨⟨.zeros 8, entrySize, 2, 4⟩⟩

/-- An entry that is set before it is there and again after, one that is set and cleared, and one that is set once. -/
def mixedCalls : List Call :=
  [.set 0 3, .set 2 5, .grow 1, .set 2 6, .set 1 9, .clear 1]

def setAndGrown : Table × List Served :=
  twoEntries.run mixedCalls

/-- Each entry is as it was left, and there is no fourth. -/
theorem setAndGrown_refers : allocate ⟨2, some 4⟩ = .ok twoEntries ∧
    (setAndGrown.1.serve (.get 0)).1 = .ok (.found (some 3)) ∧
      (setAndGrown.1.serve (.get 1)).1 = .ok (.found none) ∧
      (setAndGrown.1.serve (.get 2)).1 = .ok (.found (some 6)) ∧
      (setAndGrown.1.serve (.set 3 7)).1 = .ok (.done false) := by
  have h₀ : allocate ⟨2, some 4⟩ = .ok twoEntries := allocate_eq_ok_iff.mpr ⟨by decide, rfl⟩
  have hrun : twoEntries.run mixedCalls = (setAndGrown.1, setAndGrown.2) := by
    rw [setAndGrown]
  obtain ⟨hset, -, hget, -, -⟩ := refers_to_last_assigned h₀ hrun
  refine ⟨h₀, ((hget 0).mpr ?_).trans ?_, ((hget 1).mpr ?_).trans ?_, ((hget 2).mpr ?_).trans ?_,
    (hset 3 7).trans ?_⟩
  all_goals decide

/-- **The greatest index is lost**, and the loss is reported as success. -/
theorem twoEntries_loses_greatest : allocate ⟨2, some 4⟩ = .ok twoEntries ∧
    twoEntries.run [.set 0 0xFFFFFFFF, .get 0] = (twoEntries,
      [⟨.set 0 0xFFFFFFFF, .ok (.done true)⟩, ⟨.get 0, .ok (.found none)⟩]) :=
  ⟨allocate_eq_ok_iff.mpr ⟨by decide, rfl⟩, by decide⟩

end Table

end FlatWasm
