/-!
# Quoted texts

A quoted text stands between double quotes. A tab, a line break, a carriage return, either quote
and the backslash are escaped by a backslash, any other character outside printable ASCII by its
code point.

## Main definitions

* `Text.escape`: the escaped form of one character.
* `Text.quoted`: a text in double quotes.
-/

namespace GraphQuery

namespace Text

/-- Whether a character lies between the blank and the tilde. -/
def isPrintableAscii (c : Char) : Bool := 0x20 ≤ c.toNat && c.toNat ≤ 0x7e

/-- The code point of a character in braces, in hexadecimal digits. -/
def escapeCodePoint (c : Char) : List Char :=
  ['\\', 'u', '{'] ++ Nat.toDigits 16 c.toNat ++ ['}']

/-- The form of a character inside quotes. -/
def escape (c : Char) : List Char :=
  if c = '\t' then ['\\', 't']
  else if c = '\r' then ['\\', 'r']
  else if c = '\n' then ['\\', 'n']
  else if c = '\'' ∨ c = '"' ∨ c = '\\' then ['\\', c]
  else if isPrintableAscii c then [c]
  else escapeCodePoint c

/-- A text in double quotes, every character escaped. -/
def quoted (text : List Char) : List Char := '"' :: text.flatMap escape ++ ['"']

end Text

end GraphQuery
