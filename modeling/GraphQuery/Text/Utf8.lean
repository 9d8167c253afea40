/-!
# UTF-8 bytes

Texts travel as their UTF-8 bytes. Bytes that are not the UTF-8 form of any text are refused at
the first character that cannot be completed.

## Main definitions

* `Utf8.encode`, `Utf8.decode`: the bytes of a text, and the text of valid bytes.
* `Utf8.Fault`: where the first ill-formed character begins, and how many of its bytes were well
  formed.
-/

namespace GraphQuery

namespace Utf8

/-- The first ill-formed character: where it begins, and after how many bytes it went wrong, or
`none` if the bytes ended within it. -/
structure Fault where
  index : Nat
  length : Option Nat
  deriving DecidableEq, Repr

def Fault.message (fault : Fault) : String :=
  match fault.length with
  | some n => s!"invalid utf-8 sequence of {n} bytes from index {fault.index}"
  | none => s!"incomplete utf-8 byte sequence from index {fault.index}"

/-- A bound on one byte: the least and the greatest that may stand there. -/
abbrev Bounds := UInt8 × UInt8

/-- The bounds of a continuation byte. -/
def tail : Bounds := (0x80, 0xbf)

/-- The bounds of the bytes that have to follow a first byte, if a character may begin with it.
Overlong forms, surrogates and code points past the last one are excluded by the second byte. -/
def owedAfter? (first : UInt8) : Option (List Bounds) :=
  if first < 0x80 then some []
  else if first < 0xc2 then none
  else if first < 0xe0 then some [tail]
  else if first = 0xe0 then some [(0xa0, 0xbf), tail]
  else if first = 0xed then some [(0x80, 0x9f), tail]
  else if first < 0xf0 then some [tail, tail]
  else if first = 0xf0 then some [(0x90, 0xbf), tail, tail]
  else if first < 0xf4 then some [tail, tail, tail]
  else if first = 0xf4 then some [(0x80, 0x8f), tail, tail]
  else none

/-- Looks for a fault, given the beginning of the current character, the number of its bytes that
were read, and the bounds of those that it still owes. -/
def faultFrom? (index done : Nat) (owed : List Bounds) : List UInt8 → Option Fault
  | [] => if owed.isEmpty then none else some ⟨index, none⟩
  | byte :: rest =>
    match owed with
    | (least, greatest) :: owed =>
      if least ≤ byte && byte ≤ greatest then faultFrom? index (done + 1) owed rest
      else some ⟨index, some done⟩
    | [] =>
      match owedAfter? byte with
      | some owed => faultFrom? (index + done) 1 owed rest
      | none => some ⟨index + done, some 1⟩

/-- The first fault of a list of bytes. -/
def fault? (bytes : List UInt8) : Option Fault := faultFrom? 0 0 [] bytes

/-- The bytes of a text. -/
def encode (text : String) : List UInt8 := text.toByteArray.data.toList

/-- The text of a list of bytes, or the first fault. -/
def decode (bytes : List UInt8) : Except Fault String :=
  match String.fromUTF8? ⟨bytes.toArray⟩ with
  | some text => .ok text
  | none => .error ((fault? bytes).getD ⟨0, none⟩)

end Utf8

end GraphQuery
