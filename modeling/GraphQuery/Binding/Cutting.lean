import GraphQuery.Binding
import GraphQuery.Text.Slice

/-!
# Items by their bytes

The inside of a list is read once from left to right, with the number of open brackets, whether a
quote is open, and the byte at which the item begins that is being read. A comma that separates
items cuts out the slice between this byte and its own one.

## Main definitions

* `Binding.Scan`: what is known after a part of the inside has been read.
* `Binding.cutItems`: the items, cut out of the text by their first and last bytes.
-/

namespace GraphQuery

namespace Binding

/-- Why items cannot be cut out: the text is not balanced, or a byte at which it is to be cut is
inside a character or past its end. -/
inductive CutFault where
  | unbalanced (fault : ValueFault)
  | insideCharacter
  deriving DecidableEq, Repr

/-- What is known after a part of the inside has been read: the number of open brackets, whether a
quote is open, the byte at which the current item begins, and the items before it. -/
structure Scan where
  depth : Nat := 0
  quoted : Bool := false
  start : Nat := 0
  parts : List (List Char) := []
  deriving DecidableEq, Repr

/-- The current item, if it ends before the given byte. -/
def Scan.item (items : List Char) (scan : Scan) (last : Nat) : Except CutFault (List Char) :=
  match Text.slice? items scan.start last with
  | some part => .ok part
  | none => .error .insideCharacter

/-- Reads a character that begins at the given byte. A comma takes a single byte, so the item after
it begins one byte later. -/
def Scan.step (items : List Char) (scan : Scan) : Nat × Char → Except CutFault Scan
  | (byte, c) =>
    if c = '"' then .ok { scan with quoted := !scan.quoted }
    else if c = '[' ∧ ¬scan.quoted then .ok { scan with depth := scan.depth + 1 }
    else if c = ']' ∧ ¬scan.quoted then
      if scan.depth = 0 then .error (.unbalanced (.strayBracket items))
      else .ok { scan with depth := scan.depth - 1 }
    else if c = ',' ∧ ¬scan.quoted ∧ scan.depth = 0 then do
      let part ← scan.item items byte
      return { scan with parts := scan.parts ++ [part], start := byte + 1 }
    else .ok scan

/-- All items, after the last character has been read. -/
def Scan.finish (items : List Char) (scan : Scan) : Except CutFault (List (List Char)) :=
  if scan.quoted then .error (.unbalanced (.openQuote items))
  else if scan.depth ≠ 0 then .error (.unbalanced (.openBracket items))
  else do
    let part ← scan.item items (Text.byteLength items)
    return scan.parts ++ [part]

/-- The items between the brackets of a list, cut out of the text at the bytes of its outermost
commas. -/
def cutItems (items : List Char) : Except CutFault (List (List Char)) := do
  let scan ← (Text.indexed 0 items).foldlM (Scan.step items) {}
  scan.finish items

end Binding

end GraphQuery
