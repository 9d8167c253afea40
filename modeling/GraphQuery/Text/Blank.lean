/-!
# Blanks

The characters that count as white space around a text: those with the Unicode property
`White_Space`.

## Main definitions

* `Text.isBlank`: whether a character is white space.
* `Text.trim`: a text without the blanks at its ends.
-/

namespace GraphQuery

namespace Text

/-- The code points with the property `White_Space`, as ranges from first to last. -/
def blankRanges : List (Nat × Nat) :=
  [(0x09, 0x0d), (0x20, 0x20), (0x85, 0x85), (0xa0, 0xa0), (0x1680, 0x1680), (0x2000, 0x200a),
    (0x2028, 0x2029), (0x202f, 0x202f), (0x205f, 0x205f), (0x3000, 0x3000)]

def isBlank (c : Char) : Bool :=
  blankRanges.any fun (first, last) => first ≤ c.toNat && c.toNat ≤ last

/-- A text without the blanks at its beginning. -/
def trimStart (text : List Char) : List Char := text.dropWhile isBlank

/-- A text without the blanks at its beginning and at its end. -/
def trim (text : List Char) : List Char := (trimStart (trimStart text).reverse).reverse

end Text

end GraphQuery
