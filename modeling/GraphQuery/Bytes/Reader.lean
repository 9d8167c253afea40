/-!
# Readers

A reader takes what it needs from the front of a list of bytes and leaves the rest, or fails.

## Main definitions

* `Reader`: readers of a result, with a type of faults.
* `Bytes.split?`: the first bytes of a list and the others.
* `Reader.times`: several results, one after the other.
-/

namespace GraphQuery

/-- A reader of results of type `α` whose faults are of type `ε`. -/
abbrev Reader (ε α : Type) := StateT (List UInt8) (Except ε) α

/-- The first `n` bytes and the others, if there are that many. -/
def Bytes.split? : Nat → List UInt8 → Option (List UInt8 × List UInt8)
  | 0, bytes => some ([], bytes)
  | _ + 1, [] => none
  | n + 1, byte :: rest =>
    match split? n rest with
    | some (first, others) => some (byte :: first, others)
    | none => none

/-- Whether a list has at least `n` bytes. -/
def Bytes.hasAtLeast : Nat → List UInt8 → Bool
  | 0, _ => true
  | _ + 1, [] => false
  | n + 1, _ :: rest => hasAtLeast n rest

namespace Reader

variable {ε α : Type}

/-- Reads `n` bytes; `fault` is the fault when only so many are left. -/
def take (n : Nat) (fault : Nat → ε) : Reader ε (List UInt8) := fun bytes =>
  match Bytes.split? n bytes with
  | some result => .ok result
  | none => .error (fault bytes.length)

/-- Reads `n` results. -/
def times {m : Type → Type} [Monad m] (reader : m α) : Nat → m (List α)
  | 0 => pure []
  | n + 1 => do
    let first ← reader
    let rest ← times reader n
    return first :: rest

end Reader

end GraphQuery
