/-!
# Slices of texts

Where a text is cut can be told by a number of bytes of its UTF-8 form. It can be cut between two
characters and at its ends, but not inside a character.

## Main definitions

* `Text.byteLength`: the number of bytes of a text.
* `Text.cut?`: the two pieces of a text that is cut at a byte.
* `Text.slice?`: what stands between two bytes of a text.
* `Text.indexed`: the characters of a text, each with the byte at which it begins.

## Main results

* `Text.slice?_append`: a piece of a text is the slice from its first byte to its end.
-/

namespace GraphQuery

namespace Text

/-- The number of bytes of a text in its UTF-8 form. -/
def byteLength : List Char → Nat
  | [] => 0
  | c :: rest => c.utf8Size + byteLength rest

/-- The pieces of a text before and after so many bytes, unless this is inside a character or past
the end. -/
def cut? : Nat → List Char → Option (List Char × List Char)
  | 0, text => some ([], text)
  | _ + 1, [] => none
  | bytes + 1, c :: rest =>
    if c.utf8Size ≤ bytes + 1 then
      (cut? (bytes + 1 - c.utf8Size) rest).map fun (before, after) => (c :: before, after)
    else none

/-- What stands in a text from one byte up to another one, if the text can be cut at both of them
and the second one does not come before the first one. -/
def slice? (text : List Char) (first last : Nat) : Option (List Char) := do
  let (before, _) ← cut? last text
  let (_, slice) ← cut? first before
  return slice

/-- The characters of a text with the bytes at which they begin, if so many bytes come before it. -/
def indexed (bytes : Nat) : List Char → List (Nat × Char)
  | [] => []
  | c :: rest => (bytes, c) :: indexed (bytes + c.utf8Size) rest

@[simp] theorem byteLength_append (a b : List Char) :
    byteLength (a ++ b) = byteLength a + byteLength b := by
  induction a with
  | nil => simp [byteLength]
  | cons c rest ih => rw [List.cons_append, byteLength, byteLength, ih, Nat.add_assoc]

theorem byteLength_concat (text : List Char) (c : Char) :
    byteLength (text ++ [c]) = byteLength text + c.utf8Size :=
  byteLength_append text [c]

/-- A text can be cut after each of its pieces. -/
theorem cut?_append (before after : List Char) :
    cut? (byteLength before) (before ++ after) = some (before, after) := by
  induction before with
  | nil => rw [byteLength, cut?, List.nil_append]
  | cons c rest ih =>
    have hsize := Char.utf8Size_pos c
    obtain ⟨bytes, hbytes⟩ : ∃ bytes, byteLength (c :: rest) = bytes + 1 :=
      Nat.exists_eq_add_one.2 (Nat.lt_of_lt_of_le hsize (Nat.le_add_right _ _))
    have hrest : bytes + 1 - c.utf8Size = byteLength rest := by
      rw [← hbytes, byteLength, Nat.add_sub_cancel_left]
    have hfits : c.utf8Size ≤ bytes + 1 := by
      rw [← hbytes]
      exact Nat.le_add_right _ _
    rw [hbytes, List.cons_append, cut?, if_pos hfits, hrest, ih]
    rfl

/-- A piece of a text is the slice from its first byte to its end. -/
theorem slice?_append (before piece after : List Char) :
    slice? (before ++ piece ++ after) (byteLength before) (byteLength (before ++ piece)) =
      some piece := by
  simp only [slice?, cut?_append, Option.bind_eq_bind, Option.bind_some, Option.pure_def]

end Text

end GraphQuery
