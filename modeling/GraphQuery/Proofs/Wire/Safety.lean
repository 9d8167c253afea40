import GraphQuery.Proofs.Expr.Errors
import GraphQuery.Proofs.Wire.RoundTrip

/-!
# Decoding untrusted bytes

Whatever the bytes are, the decoder answers with an expression or with one of three kinds of
faults, and it never takes bytes that are not there. An expression that it answers with satisfies
all that the constructors check, and its extent is bounded by the limit and by the bytes.

## Main results

* `Wire.decode_untrusted`: what is known of the answer to any bytes.
-/

namespace GraphQuery

namespace Wire

/-- There is a byte for the version besides those for the expressions and values. -/
theorem size_lt_of_decode {limit : Nat} {bytes : List UInt8} {e : Expr}
    (h : decode limit bytes = .ok e) : e.size < bytes.length := by
  obtain ⟨b, hb, hle⟩ := reencode_le h
  obtain ⟨content, hcontent, rfl⟩ := encode_eq_ok.1 hb
  have hsize := size_le_length hcontent
  rw [List.length_cons] at hle
  omega

/-- Any bytes are answered by an expression or by a fault of one of three kinds, and nothing is
taken out of range. An expression that is the answer has no placeholder and is legal; it is no
deeper than the limit and has fewer nodes than there are bytes; it has a wire form, and its
evaluation never meets a placeholder. -/
theorem decode_untrusted (limit : Nat) (bytes : List UInt8) :
    decode limit bytes ≠ .error .outOfRange ∧
      ((∃ e, decode limit bytes = .ok e) ∨
        (∃ fault, decode limit bytes = .error (.malformed fault)) ∨
        (∃ fault, decode limit bytes = .error (.construction fault)) ∨
        ∃ formName, decode limit bytes = .error (.unsupported formName)) ∧
      ∀ e, decode limit bytes = .ok e →
        e.isResolved = true ∧ e.Legal ∧ e.depth ≤ limit ∧ e.size < bytes.length ∧
          (∃ b, encode e = .ok b) ∧
          ∀ lookup left right, e.eval lookup ≠ .error (.unresolved left right) := by
  have hrange := decode_ne_outOfRange limit bytes
  refine ⟨hrange, ?_, fun e he => ?_⟩
  · cases hdecode : decode limit bytes with
    | ok e => exact .inl ⟨e, rfl⟩
    | error err =>
        cases err with
        | malformed fault => exact .inr (.inl ⟨fault, rfl⟩)
        | construction fault => exact .inr (.inr (.inl ⟨fault, rfl⟩))
        | unsupported formName => exact .inr (.inr (.inr ⟨formName, rfl⟩))
        | outOfRange => exact absurd hdecode hrange
  · have hportable := portable_of_decode he
    exact ⟨hportable.resolved, hportable.legal, depth_le_of_decode he, size_lt_of_decode he,
      encode_isOk_iff.2 ⟨hportable.resolved, hportable.fits⟩,
      Expr.eval_ne_unresolved hportable.resolved⟩

theorem decode_untrusted_exists :
    decode 2 [1, 11, 4, 0, 0, 0, 0, 2, 0, 0, 0, 1, 99, 0, 0] = .ok (Expr.existsIn (.label "c")) ∧
      (Expr.existsIn (.label "c")).Legal ∧ (Expr.existsIn (.label "c")).size < 15 := by
  have hdecode : decode 2 [1, 11, 4, 0, 0, 0, 0, 2, 0, 0, 0, 1, 99, 0, 0] =
      .ok (Expr.existsIn (.label "c")) := rfl
  obtain ⟨-, -, hok⟩ := decode_untrusted 2 [1, 11, 4, 0, 0, 0, 0, 2, 0, 0, 0, 1, 99, 0, 0]
  obtain ⟨-, hlegal, -, hsize, -⟩ := hok _ hdecode
  exact ⟨hdecode, hlegal, hsize⟩

end Wire

end GraphQuery
