import GraphQuery.Text.Quoted
import GraphQuery.Text.Utf8

/-!
# Hexadecimal texts

Bytes written as two hexadecimal digits each: lower-case digits are written, and digits of either
case are read.

## Main definitions

* `Hex.encode`: the hexadecimal text of a list of bytes.
* `Hex.decode`: the bytes of a hexadecimal text, or what is wrong with it.
* `Hex.Fault.message`: the wording of a fault.
-/

namespace GraphQuery

namespace Hex

/-- What is wrong with a hexadecimal text. -/
inductive Fault where
  /-- The digits do not pair up. -/
  | oddLength
  /-- The byte at a position of the text is not the code of a digit. -/
  | badDigit (byte : UInt8) (position : Nat)
  deriving DecidableEq, Repr

/-- Whether the character with a byte as its code point is shown as it stands. The soft hyphen and
the no-break space are not. -/
def isShown (byte : UInt8) : Bool :=
  (0x20 ≤ byte && byte ≤ 0x7e) || (0xa1 ≤ byte && byte != 0xad)

/-- The character with a byte as its code point, in the form it has inside single quotes. -/
def shownByte (byte : UInt8) : List Char :=
  let c := Char.ofNat byte.toNat
  if byte = 0 then ['\\', '0']
  else if c = '"' then [c]
  else if isShown byte ∧ c ≠ '\'' ∧ c ≠ '\\' then [c]
  else Text.escape c

def Fault.message : Fault → String
  | .oddLength => "Odd number of digits"
  | .badDigit byte position =>
    "Invalid character '" ++ String.ofList (shownByte byte) ++ "' at position " ++
      toString position

/-- The value of a digit, given by its code. -/
def digit? (byte : UInt8) : Option UInt8 :=
  if 0x30 ≤ byte && byte ≤ 0x39 then some (byte - 0x30)
  else if 0x61 ≤ byte && byte ≤ 0x66 then some (byte - 0x61 + 10)
  else if 0x41 ≤ byte && byte ≤ 0x46 then some (byte - 0x41 + 10)
  else none

/-- Reads pairs of digits; `position` is the position of the first one in the whole text. -/
def decodePairs (position : Nat) : List UInt8 → Except Fault (List UInt8)
  | high :: low :: rest =>
    match digit? high, digit? low with
    | none, _ => .error (.badDigit high position)
    | some _, none => .error (.badDigit low (position + 1))
    | some h, some l => (decodePairs (position + 2) rest).map ((h * 16 + l) :: ·)
  | _ => .ok []

/-- Reads a text given by its UTF-8 bytes. An odd number of bytes is noticed before any digit. -/
def decodeBytes (text : List UInt8) : Except Fault (List UInt8) :=
  if text.length % 2 = 0 then decodePairs 0 text else .error .oddLength

/-- Reads a hexadecimal text. -/
def decode (text : String) : Except Fault (List UInt8) :=
  decodeBytes (Utf8.encode text)

/-- The two digits of a byte. -/
def byteDigits (byte : UInt8) : List Char :=
  [Nat.digitChar (byte.toNat / 16), Nat.digitChar (byte.toNat % 16)]

/-- The hexadecimal text of a list of bytes. -/
def encode (bytes : List UInt8) : String := String.ofList (bytes.flatMap byteDigits)

end Hex

end GraphQuery
