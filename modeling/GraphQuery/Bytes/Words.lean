/-!
# Words as bytes

A number below `256 ^ width` as a list of `width` bytes, least significant first or most
significant first.

## Main definitions

* `Bytes.littleEndian`, `Bytes.bigEndian`: the bytes of a number.
* `Bytes.ofLittleEndian`, `Bytes.ofBigEndian`: the number of a list of bytes.
-/

namespace GraphQuery

namespace Bytes

/-- The `width` low bytes of a number, least significant first. -/
def littleEndian : Nat → Nat → List UInt8
  | 0, _ => []
  | width + 1, n => UInt8.ofNat (n % 256) :: littleEndian width (n / 256)

/-- The number of a list of bytes, least significant first. -/
def ofLittleEndian : List UInt8 → Nat
  | [] => 0
  | byte :: rest => byte.toNat + 256 * ofLittleEndian rest

/-- The `width` low bytes of a number, most significant first. -/
def bigEndian (width n : Nat) : List UInt8 := (littleEndian width n).reverse

/-- The number of a list of bytes, most significant first. -/
def ofBigEndian (bytes : List UInt8) : Nat := ofLittleEndian bytes.reverse

end Bytes

end GraphQuery
