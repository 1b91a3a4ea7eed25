/-!
# Readers of byte strings

A reader takes what it needs from the front of a byte string and leaves the rest, or refuses. Readers are a
state monad over the bytes still to be read, so a format is written down in the order of its parts.

## Why readers only go forward

`Reader.Forward` says that what a reader leaves is the end of what it was given. It holds of every reader that is
put together from forward ones, and it is what lets a loop over a byte string end: each round leaves fewer bytes
than the one before.
-/

namespace FlatWasm

/-- Reads an `α` from the front of a byte string. -/
abbrev Reader (ε α : Type) := StateT (List UInt8) (Except ε) α

namespace Reader

variable {ε ε' α β : Type}

/-- Refuses. -/
def fail (e : ε) : Reader ε α :=
  fun _ => .error e

/-- Reads nothing, and answers or refuses as `x` does. -/
def ofExcept (x : Except ε α) : Reader ε α :=
  fun bytes => x.map fun a => (a, bytes)

/-- How many bytes are left. -/
def remaining : Reader ε Nat :=
  fun bytes => .ok (bytes.length, bytes)

/-- Whether there are at least `n` bytes. Only the first `n` are looked at. -/
def atLeast (n : Nat) (bytes : List UInt8) : Bool :=
  (bytes.take n).length == n

theorem atLeast_iff {n : Nat} {bytes : List UInt8} : atLeast n bytes = true ↔ n ≤ bytes.length := by
  rw [atLeast, beq_iff_eq, List.length_take]
  omega

/-- Replaces the error of a reader. -/
def mapError (f : ε → ε') (r : Reader ε α) : Reader ε' α :=
  fun bytes => (r bytes).mapError f

/-- What `r` reads, together with the bytes that it takes. -/
def withBytes (r : Reader ε α) : Reader ε (α × List UInt8) :=
  fun bytes =>
    match r bytes with
    | .ok (a, rest) => .ok ((a, bytes.take (bytes.length - rest.length)), rest)
    | .error e => .error e

/-- Reads `n` times. The item at position `i` is read by `r i`. -/
def replicate (n : Nat) (r : Nat → Reader ε α) (first : Nat := 0) : Reader ε (List α) :=
  match n with
  | 0 => pure []
  | n + 1 => do
    let a ← r first
    let as ← replicate n r (first + 1)
    return a :: as

/-- What `r` leaves is the end of what it is given. -/
def Forward (r : Reader ε α) : Prop :=
  ∀ ⦃bytes : List UInt8⦄ ⦃a : α⦄ ⦃rest : List UInt8⦄, r bytes = .ok (a, rest) → rest <:+ bytes

theorem forward_pure (a : α) : Forward (pure a : Reader ε α) := by
  intro bytes b rest h
  cases h
  exact List.suffix_refl bytes

theorem forward_fail (e : ε) : Forward (fail e : Reader ε α) := by
  intro bytes b rest h
  cases h

theorem forward_ofExcept (x : Except ε α) : Forward (ofExcept x) := by
  intro bytes b rest h
  cases x with
  | error e => cases h
  | ok a =>
    cases h
    exact List.suffix_refl bytes

theorem forward_remaining : Forward (remaining : Reader ε Nat) := by
  intro bytes b rest h
  cases h
  exact List.suffix_refl bytes

theorem forward_bind {r : Reader ε α} {f : α → Reader ε β} (hr : Forward r)
    (hf : ∀ a, Forward (f a)) : Forward (r >>= f) := by
  intro bytes b rest h
  cases hra : r bytes with
  | error e =>
    have : (r >>= f) bytes = .error e := by
      show (r bytes >>= fun p => f p.1 p.2) = .error e
      rw [hra]
      rfl
    rw [this] at h
    cases h
  | ok p =>
    have : (r >>= f) bytes = f p.1 p.2 := by
      show (r bytes >>= fun p => f p.1 p.2) = f p.1 p.2
      rw [hra]
      rfl
    rw [this] at h
    exact (hf p.1 h).trans (hr hra)

theorem forward_replicate {r : Nat → Reader ε α} (hr : ∀ i, Forward (r i)) (n first : Nat) :
    Forward (replicate n r first) := by
  induction n generalizing first with
  | zero => exact forward_pure []
  | succ n ih =>
    exact forward_bind (hr first) fun a => forward_bind (ih (first + 1)) fun as => forward_pure _

end Reader

end FlatWasm
