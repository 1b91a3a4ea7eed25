import FlatWasm.ValueType

/-!
# Locals

A function can have more than four billion locals, and a module declares them in a few bytes, as groups of one
type. `Locals` keeps the groups, so a list of types costs what its declaration costs.

## Why the groups are in normal form

The same locals can be declared in many ways: a group can be split, and a group of none can stand anywhere. None of
this can be seen once the function is made, so locals that are the same list of types should be equal. `Normal` says
that no group is empty and that neighbours differ. Everything here is built by `prepend`, which keeps to it, and
`toList_injective` says that with it the list of types determines the groups.
-/

namespace FlatWasm

/-- Some locals of one type. -/
structure LocalGroup where
  count : Nat
  type : ValueType
deriving DecidableEq, Repr

namespace LocalGroup

/-- No group is empty, and neighbours have different types. -/
def Normal : List LocalGroup → Prop
  | [] => True
  | g :: gs => 0 < g.count ∧ (gs.head?.map LocalGroup.type ≠ some g.type) ∧ Normal gs

/-- Groups with some more locals of one type before them. -/
def prepend (count : Nat) (type : ValueType) (groups : List LocalGroup) : List LocalGroup :=
  if count = 0 then groups
  else
    match groups with
    | [] => [⟨count, type⟩]
    | g :: gs => if g.type = type then ⟨count + g.count, type⟩ :: gs else ⟨count, type⟩ :: g :: gs

theorem normal_prepend (count : Nat) (type : ValueType) {groups : List LocalGroup}
    (h : Normal groups) : Normal (prepend count type groups) := by
  unfold prepend
  split
  · exact h
  · next hc =>
    match groups, h with
    | [], _ => exact ⟨Nat.pos_of_ne_zero hc, by simp, trivial⟩
    | g :: gs, ⟨hg, hd, hn⟩ =>
      simp only
      split
      · next ht => exact ⟨Nat.add_pos_right _ hg, ht ▸ hd, hn⟩
      · next ht => exact ⟨Nat.pos_of_ne_zero hc, by simpa using ht, hg, hd, hn⟩

/-- The types, one for each local. -/
def toList (groups : List LocalGroup) : List ValueType :=
  groups.flatMap fun g => List.replicate g.count g.type

@[simp] theorem toList_nil : toList [] = [] :=
  rfl

@[simp] theorem toList_cons (g : LocalGroup) (gs : List LocalGroup) :
    toList (g :: gs) = List.replicate g.count g.type ++ toList gs := by
  simp [toList]

theorem toList_prepend (count : Nat) (type : ValueType) (groups : List LocalGroup) :
    toList (prepend count type groups) = List.replicate count type ++ toList groups := by
  unfold prepend
  split
  · next hc => simp [hc]
  · match groups with
    | [] => simp
    | g :: gs =>
      simp only
      split
      · next ht => simp [← ht, ← List.replicate_append_replicate]
      · simp

/-- The type of the local at a position. -/
def get? : List LocalGroup → Nat → Option ValueType
  | [], _ => none
  | g :: gs, i => if i < g.count then some g.type else get? gs (i - g.count)

theorem get?_eq_getElem? (groups : List LocalGroup) (i : Nat) :
    get? groups i = (toList groups)[i]? := by
  induction groups generalizing i with
  | nil => simp [get?]
  | cons g gs ih =>
    rw [get?, toList_cons, List.getElem?_append, List.length_replicate]
    split
    · next h => simp [h]
    · exact ih _

/-- How many locals there are. -/
def length (groups : List LocalGroup) : Nat :=
  groups.foldr (fun g n => g.count + n) 0

theorem length_eq (groups : List LocalGroup) : length groups = (toList groups).length := by
  induction groups with
  | nil => rfl
  | cons g gs ih =>
    rw [toList_cons, List.length_append, List.length_replicate, ← ih]
    rfl

/-- Groups in normal form are determined by the first type and by what is left when its locals are gone. -/
theorem head?_toList {groups : List LocalGroup} (h : Normal groups) :
    (toList groups).head? = groups.head?.map LocalGroup.type := by
  match groups, h with
  | [], _ => rfl
  | g :: gs, ⟨hg, _, _⟩ =>
    rw [toList_cons, List.head?_append]
    cases hc : g.count with
    | zero => omega
    | succ n => simp [List.replicate_succ]

theorem takeWhile_toList {g : LocalGroup} {gs : List LocalGroup} (h : Normal (g :: gs)) :
    (toList (g :: gs)).takeWhile (· == g.type) = List.replicate g.count g.type := by
  obtain ⟨_, hd, hn⟩ := h
  rw [toList_cons, List.takeWhile_append_of_pos (by simp)]
  have : (toList gs).takeWhile (· == g.type) = [] := by
    rw [← head?_toList hn] at hd
    cases hl : toList gs with
    | nil => rfl
    | cons t ts =>
      rw [hl] at hd
      exact List.takeWhile_cons_of_neg (by simpa using hd)
  rw [this, List.append_nil]

theorem toList_injective {a b : List LocalGroup} (ha : Normal a) (hb : Normal b)
    (h : toList a = toList b) : a = b := by
  induction a generalizing b with
  | nil =>
    match b, hb with
    | [], _ => rfl
    | g :: gs, hb =>
      have := head?_toList hb
      rw [← h] at this
      simp at this
  | cons g gs ih =>
    match b, hb with
    | [], _ =>
      have := head?_toList ha
      rw [h] at this
      simp at this
    | g' :: gs', hb =>
      have ht : g.type = g'.type := by
        have hh := head?_toList ha
        rw [h, head?_toList hb] at hh
        simpa using hh.symm
      have hc : g.count = g'.count := by
        have hw := takeWhile_toList ha
        rw [h, ht, takeWhile_toList hb] at hw
        simpa using (congrArg List.length hw).symm
      have hg : g = g' := by
        cases g
        cases g'
        simp_all
      subst hg
      rw [toList_cons, toList_cons] at h
      rw [ih ha.2.2 hb.2.2 (List.append_cancel_left h)]

end LocalGroup

/-- The types of locals, in groups. -/
structure Locals where
  groups : List LocalGroup := []
  normal : LocalGroup.Normal groups := by trivial
deriving DecidableEq, Repr

namespace Locals

/-- Some more locals of one type before the others. -/
def prepend (count : Nat) (type : ValueType) (ls : Locals) : Locals :=
  ⟨LocalGroup.prepend count type ls.groups, LocalGroup.normal_prepend count type ls.normal⟩

/-- Locals of some types before the others. -/
def prependAll (types : List ValueType) (ls : Locals) : Locals :=
  types.foldr (prepend 1) ls

/-- The locals of some groups. -/
def ofGroups (groups : List (Nat × ValueType)) : Locals :=
  groups.foldr (fun (count, type) ls => ls.prepend count type) {}

/-- Locals of some types. -/
def ofList (types : List ValueType) : Locals :=
  prependAll types {}

/-- The types, one for each local. -/
def toList (ls : Locals) : List ValueType :=
  LocalGroup.toList ls.groups

/-- The types that occur, in order. -/
def types (ls : Locals) : List ValueType :=
  ls.groups.map LocalGroup.type

def length (ls : Locals) : Nat :=
  LocalGroup.length ls.groups

def isEmpty (ls : Locals) : Bool :=
  ls.groups.isEmpty

/-- The type of the local with an index. -/
def get? (ls : Locals) (i : Nat) : Option ValueType :=
  LocalGroup.get? ls.groups i

theorem ext_toList {a b : Locals} (h : a.toList = b.toList) : a = b := by
  have hg := LocalGroup.toList_injective a.normal b.normal h
  cases a
  cases b
  simp_all

theorem toList_prepend (count : Nat) (type : ValueType) (ls : Locals) :
    (ls.prepend count type).toList = List.replicate count type ++ ls.toList :=
  LocalGroup.toList_prepend count type ls.groups

@[simp] theorem toList_prependAll (types : List ValueType) (ls : Locals) :
    (ls.prependAll types).toList = types ++ ls.toList := by
  induction types with
  | nil => rfl
  | cons t ts ih =>
    show ((prependAll ts ls).prepend 1 t).toList = _
    rw [toList_prepend, ih]
    rfl

@[simp] theorem toList_ofList (types : List ValueType) : (ofList types).toList = types := by
  rw [ofList, toList_prependAll]
  exact List.append_nil types

@[simp] theorem ofList_toList (ls : Locals) : ofList ls.toList = ls :=
  ext_toList (toList_ofList _)

theorem get?_eq_getElem? (ls : Locals) (i : Nat) : ls.get? i = ls.toList[i]? :=
  LocalGroup.get?_eq_getElem? ls.groups i

theorem length_eq (ls : Locals) : ls.length = ls.toList.length :=
  LocalGroup.length_eq ls.groups

end Locals

end FlatWasm
