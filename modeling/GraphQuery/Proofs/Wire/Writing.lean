import GraphQuery.Proofs.Wire.Layout
import GraphQuery.Wire.Encode

/-!
# Writing and layout

What is written onto a buffer are the bytes of the layout, behind the bytes that the buffer holds
already; and where the layout has none, nothing is written and the fault is the same.

## Main definitions

* `Wire.Puts`: a writer appends given bytes to any buffer.

## Main results

* `Wire.encodeOnto_eq`, `Wire.encode_eq`: the wire form is the version and the bytes of the layout.
* `Wire.encode_isOk_iff`: the expressions that have a wire form.
-/

namespace GraphQuery

namespace Wire

/-- A writer appends given bytes to any buffer, or fails as they do. -/
def Puts (writer : Writer) (bytes : Written) : Prop :=
  ∀ buffer : Array UInt8, writer buffer = (fun w : List UInt8 => ((), buffer ++ w)) <$> bytes

theorem puts_put (bytes : List UInt8) : Puts (put bytes) (pure bytes) := fun _ => rfl

theorem puts_throw (e : EncodeError) : Puts (throw e) (.error e) := fun _ => rfl

theorem puts_nothing : Puts (pure ()) (pure []) := fun buffer => by
  rw [map_pure, Array.appendList_nil]
  rfl

theorem appendList_append (buffer : Array UInt8) (w₁ w₂ : List UInt8) :
    buffer ++ w₁ ++ w₂ = buffer ++ (w₁ ++ w₂) := by
  apply Array.ext'
  simp

/-- One writer after another appends one part after another. -/
theorem Puts.seq {writer₁ writer₂ : Writer} {bytes₁ bytes₂ : Written} (h₁ : Puts writer₁ bytes₁)
    (h₂ : Puts writer₂ bytes₂) :
    Puts (do writer₁; writer₂) (do return (← bytes₁) ++ (← bytes₂)) := by
  intro buffer
  have hrun : (do writer₁; writer₂ : Writer) buffer =
      writer₁ buffer >>= fun result => writer₂ result.2 := rfl
  rw [hrun, h₁]
  cases bytes₁ with
  | error e => rfl
  | ok w₁ =>
      have hrest := h₂ (buffer ++ w₁)
      cases bytes₂ with
      | error e => exact hrest
      | ok w₂ =>
          have happend := appendList_append buffer w₁ w₂
          exact hrest.trans (congrArg (fun buffer => Except.ok ((), buffer)) happend)

theorem Puts.of_eq {writer : Writer} {bytes bytes' : Written} (h : Puts writer bytes)
    (heq : bytes = bytes') : Puts writer bytes' :=
  heq ▸ h

theorem puts_length (n : Nat) : Puts (putLength n) (lengthBytes n) := by
  rw [putLength, lengthBytes]
  split
  · exact puts_put _
  · exact puts_throw _

theorem puts_text (s : String) : Puts (putText s) (textBytes s) :=
  ((puts_length _).seq (puts_put _)).of_eq (by simp [textBytes])

theorem puts_origin (origin : Option String) : Puts (putOrigin origin) (originBytes origin) := by
  cases origin with
  | none => exact puts_put _
  | some s => exact ((puts_put _).seq (puts_text s)).of_eq (by simp [originBytes])

mutual

theorem puts_value : ∀ v : Value, Puts (putValue v) (valueBytes v)
  | .null | .bool _ | .int _ | .float _ => puts_put _
  | .string s => ((puts_put _).seq (puts_text s)).of_eq (by simp [valueBytes])
  | .list items =>
    ((puts_put _).seq ((puts_length _).seq (puts_items items))).of_eq (by simp [valueBytes])
  | .map entries =>
    ((puts_put _).seq ((puts_length _).seq (puts_entries entries))).of_eq (by simp [valueBytes])

theorem puts_items : ∀ items : List Value, Puts (putItems items) (itemsBytes items)
  | [] => puts_nothing
  | v :: vs => (puts_value v).seq (puts_items vs)

theorem puts_entries : ∀ entries : List (String × Value),
    Puts (putEntries entries) (entriesBytes entries)
  | [] => puts_nothing
  | (key, v) :: es =>
    ((puts_text key).seq ((puts_value v).seq (puts_entries es))).of_eq (by simp [entriesBytes])

end

mutual

/-- Writing an expression appends its bytes. -/
theorem puts_expr : ∀ e : Expr, Puts (putExpr e) (exprBytes e)
  | .constant value => ((puts_put _).seq (puts_value value)).of_eq (by simp [exprBytes])
  | .label name => ((puts_put _).seq (puts_text name)).of_eq (by simp [exprBytes])
  | .unary _ operand => ((puts_put _).seq (puts_expr operand)).of_eq (by simp [exprBytes])
  | .arithmetic _ left right =>
    ((puts_put _).seq ((puts_expr left).seq (puts_expr right))).of_eq (by simp [exprBytes])
  | .relational _ left right =>
    ((puts_put _).seq ((puts_expr left).seq (puts_expr right))).of_eq (by simp [exprBytes])
  | .logical _ operands =>
    ((puts_put _).seq ((puts_length _).seq (puts_exprs operands))).of_eq (by simp [exprBytes])
  | .list items =>
    ((puts_put _).seq ((puts_length _).seq (puts_exprs items))).of_eq (by simp [exprBytes])
  | .attr object name =>
    ((puts_put _).seq ((puts_expr object).seq (puts_text name))).of_eq (by simp [exprBytes])
  | .placeholder _ _ => puts_throw _
  | .comprehension binder collection filter mapping origin =>
    ((puts_put _).seq ((puts_text binder).seq ((puts_expr collection).seq
      ((puts_part filter).seq ((puts_part mapping).seq (puts_origin origin)))))).of_eq
        (by simp [exprBytes])
  | .quantified _ binder collection filter origin =>
    ((puts_put _).seq ((puts_text binder).seq ((puts_expr collection).seq
      ((puts_part filter).seq (puts_origin origin))))).of_eq (by simp [exprBytes])
  | .reduce accumulator initial binder collection mapping origin =>
    ((puts_put _).seq ((puts_text accumulator).seq ((puts_expr initial).seq
      ((puts_text binder).seq ((puts_expr collection).seq ((puts_expr mapping).seq
        (puts_origin origin))))))).of_eq (by simp [exprBytes])

theorem puts_exprs : ∀ es : List Expr, Puts (putExprs es) (exprsBytes es)
  | [] => puts_nothing
  | e :: es => (puts_expr e).seq (puts_exprs es)

theorem puts_part : ∀ part : Option Expr, Puts (putPart part) (partBytes part)
  | none => puts_put _
  | some e => ((puts_put _).seq (puts_expr e)).of_eq (by simp [partBytes])

end

/-- The wire form on a buffer: behind what is there, the version and the bytes of the layout. -/
theorem encodeOnto_eq (buffer : Array UInt8) (e : Expr) :
    encodeOnto buffer e = (fun w : List UInt8 => buffer ++ version :: w) <$> exprBytes e := by
  have hputs := ((puts_put [version]).seq (puts_expr e)) buffer
  have hrun : encodeOnto buffer e =
      (do put [version]; putExpr e : Writer) buffer >>= fun result => pure result.2 := rfl
  rw [hrun, hputs]
  simp

/-- The wire form: the version and the bytes of the layout. -/
theorem encode_eq (e : Expr) : encode e = (version :: ·) <$> exprBytes e := by
  rw [encode, encodeOnto_eq]
  simp

theorem encode_eq_ok {e : Expr} {b : List UInt8} :
    encode e = .ok b ↔ ∃ w, exprBytes e = .ok w ∧ version :: w = b := by
  rw [encode_eq, map_eq_ok]

theorem encode_isOk_iff {e : Expr} :
    (∃ b, encode e = .ok b) ↔ e.isResolved = true ∧ e.Every LengthsFit := by
  rw [← every_writable_iff, ← exprBytes_isOk_iff]
  simp [encode_eq_ok]

/-- What is written behind other bytes is what is written without them. -/
theorem encodeOnto_of_encode {e : Expr} {b : List UInt8} (h : encode e = .ok b)
    (buffer : Array UInt8) : encodeOnto buffer e = .ok (buffer ++ b) := by
  obtain ⟨w, hw, rfl⟩ := encode_eq_ok.1 h
  rw [encodeOnto_eq, hw]
  rfl

end Wire

end GraphQuery
