import GraphQuery.Proofs.Expr.Errors
import GraphQuery.Proofs.Expr.Resolving
import GraphQuery.Proofs.Wire.Writing

/-!
# Checking before evaluating or writing

Evaluating an expression and writing it fail for good where they meet a placeholder. Whether they
can is found out beforehand by one search through the nodes: what passes is written, unless a
length does not fit, and evaluation finds no placeholder in it; what does not pass has one that
resolving would replace and on which writing ends.

## Main definitions

* `Wire.Unstoppable`: nothing but a placeholder keeps bytes from being written.

## Main results

* `Wire.unstoppable_expr`: where all lengths fit, only placeholders stop the writing.
* `Wire.checkResolved_preflight`: what the check says of resolving, writing and evaluating.
-/

namespace GraphQuery

namespace Wire

/-- If there are no bytes, then because of a placeholder. -/
def Unstoppable (w : Written) : Prop :=
  ∀ err, w = .error err → ∃ left right, err = .unresolved left right

theorem unstoppable_of_isOk {w : Written} (h : ∃ bytes, w = .ok bytes) : Unstoppable w := by
  rintro err rfl
  obtain ⟨bytes, hbytes⟩ := h
  cases hbytes

theorem Unstoppable.bind {w : Written} {next : List UInt8 → Written} (h : Unstoppable w)
    (hnext : ∀ bytes, Unstoppable (next bytes)) : Unstoppable (w >>= next) := by
  intro err herr
  rcases bind_eq_error.1 herr with hw | ⟨bytes, -, hbytes⟩
  · exact h err hw
  · exact hnext bytes err hbytes

theorem unstoppable_pure (bytes : List UInt8) : Unstoppable (pure bytes) :=
  unstoppable_of_isOk ⟨bytes, rfl⟩

theorem unstoppable_length {n : Nat} (h : n < UInt32.size) : Unstoppable (lengthBytes n) :=
  unstoppable_of_isOk ⟨_, lengthBytes_eq_ok.2 ⟨h, rfl⟩⟩

theorem unstoppable_text {s : String} (h : TextFits s) : Unstoppable (textBytes s) :=
  unstoppable_of_isOk ⟨_, textBytes_eq_ok.2 ⟨h, rfl⟩⟩

theorem unstoppable_origin {origin : Option String} (h : ∀ s ∈ origin, TextFits s) :
    Unstoppable (originBytes origin) :=
  unstoppable_of_isOk (originBytes_isOk_iff.2 h)

theorem unstoppable_exprs {es : List Expr} (h : ∀ e ∈ es, Unstoppable (exprBytes e)) :
    Unstoppable (exprsBytes es) := by
  induction es with
  | nil => exact unstoppable_pure []
  | cons e es ih =>
      obtain ⟨hfirst, hrest⟩ := List.forall_mem_cons.1 h
      exact hfirst.bind fun _ => (ih hrest).bind fun _ => unstoppable_pure _

theorem unstoppable_part {part : Option Expr} (h : ∀ e ∈ part, Unstoppable (exprBytes e)) :
    Unstoppable (partBytes part) := by
  cases part with
  | none => exact unstoppable_pure _
  | some e => exact (h e rfl).bind fun _ => unstoppable_pure _

/-- Where all lengths have four bytes, only a placeholder stops the writing. -/
theorem unstoppable_expr {e : Expr} (h : e.Every LengthsFit) : Unstoppable (exprBytes e) := by
  induction e using Expr.induction_on_children with
  | step e ih =>
    have hparts : ∀ c ∈ e.children, Unstoppable (exprBytes c) := fun c hc =>
      ih c hc (h.of_mem_children hc)
    have hroot := h.root
    cases e with
    | constant value =>
        exact (unstoppable_of_isOk (valueBytes_isOk_iff.2 hroot)).bind fun _ => unstoppable_pure _
    | label name => exact (unstoppable_text hroot).bind fun _ => unstoppable_pure _
    | unary op operand =>
        have hoperand := hparts operand (by simp [Expr.children])
        exact hoperand.bind fun _ => unstoppable_pure _
    | arithmetic op left right | relational op left right =>
        have hleft := hparts left (by simp [Expr.children])
        have hright := hparts right (by simp [Expr.children])
        exact hleft.bind fun _ => hright.bind fun _ => unstoppable_pure _
    | logical op operands | list operands =>
        have hoperands := unstoppable_exprs hparts
        exact (unstoppable_length hroot).bind fun _ => hoperands.bind fun _ => unstoppable_pure _
    | attr object name =>
        have hobject := hparts object (by simp [Expr.children])
        exact hobject.bind fun _ => (unstoppable_text hroot).bind fun _ => unstoppable_pure _
    | placeholder left right =>
        intro err herr
        exact ⟨left, right, (Except.error.inj herr).symm⟩
    | comprehension binder collection filter mapping origin =>
        have hcollection := hparts collection (by simp [Expr.children])
        have hfilter : Unstoppable (partBytes filter) :=
          unstoppable_part fun e he => hparts e (by simp_all [Expr.children])
        have hmapping : Unstoppable (partBytes mapping) :=
          unstoppable_part fun e he => hparts e (by simp_all [Expr.children])
        exact (unstoppable_text hroot.1).bind fun _ => hcollection.bind fun _ =>
          hfilter.bind fun _ => hmapping.bind fun _ =>
            (unstoppable_origin hroot.2).bind fun _ => unstoppable_pure _
    | quantified quantifier binder collection filter origin =>
        have hcollection := hparts collection (by simp [Expr.children])
        have hfilter : Unstoppable (partBytes filter) :=
          unstoppable_part fun e he => hparts e (by simp_all [Expr.children])
        exact (unstoppable_text hroot.1).bind fun _ => hcollection.bind fun _ =>
          hfilter.bind fun _ => (unstoppable_origin hroot.2).bind fun _ => unstoppable_pure _
    | reduce accumulator initial binder collection mapping origin =>
        have hinitial := hparts initial (by simp [Expr.children])
        have hcollection := hparts collection (by simp [Expr.children])
        have hmapping := hparts mapping (by simp [Expr.children])
        exact (unstoppable_text hroot.1).bind fun _ => hinitial.bind fun _ =>
          (unstoppable_text hroot.2.1).bind fun _ => hcollection.bind fun _ =>
            hmapping.bind fun _ => (unstoppable_origin hroot.2.2).bind fun _ => unstoppable_pure _

/-- Where all lengths have four bytes, writing ends on no placeholder exactly if there is none. -/
theorem encode_ne_unresolved_iff {e : Expr} (h : e.Every LengthsFit) :
    (∀ left right, encode e ≠ .error (.unresolved left right)) ↔ e.isResolved = true := by
  constructor
  · intro hne
    cases hbytes : exprBytes e with
    | ok w =>
        have hencode : encode e = .ok (version :: w) := encode_eq_ok.2 ⟨w, hbytes, rfl⟩
        exact (encode_isOk_iff.1 ⟨_, hencode⟩).1
    | error err =>
        obtain ⟨left, right, rfl⟩ := unstoppable_expr h err hbytes
        exact absurd (by rw [encode_eq, hbytes]; rfl) (hne left right)
  · intro hresolved left right herr
    obtain ⟨b, hb⟩ := encode_isOk_iff.2 ⟨hresolved, h⟩
    cases hb.symm.trans herr

/-- The check passes exactly where resolving would replace nothing and, unless a length does not
fit, exactly where writing does not end on a placeholder. Where it passes, no evaluation ends on a
placeholder either; where it does not, it names the form of placeholders. -/
theorem checkResolved_preflight (e : Expr) :
    (e.checkResolved = .ok () ↔ ((e.traverse .resolving).run 0).2 = 0) ∧
      (e.Every LengthsFit → (e.checkResolved = .ok () ↔
        ∀ left right, encode e ≠ .error (.unresolved left right))) ∧
      (e.checkResolved = .ok () → ∀ lookup left right,
        e.eval lookup ≠ .error (.unresolved left right)) ∧
      (e.checkResolved ≠ .ok () → e.checkResolved = .error "LabelAttribute") := by
  have hcount : ((e.traverse .resolving).run 0).2 = e.nodes.countP Expr.isPlaceholder := by
    rw [Expr.run_traverse_resolving, Nat.zero_add]
  refine ⟨?_, fun hfits => ?_, fun hok => ?_, fun hne => ?_⟩
  · rw [Expr.checkResolved_eq_ok_iff, hcount, List.countP_eq_zero, Expr.isResolved_iff]
    simp only [Expr.Every, Bool.not_eq_true]
  · rw [Expr.checkResolved_eq_ok_iff, encode_ne_unresolved_iff hfits]
  · exact Expr.eval_ne_unresolved (Expr.checkResolved_eq_ok_iff.1 hok)
  · have hunresolved := mt Expr.checkResolved_eq_ok_iff.2 hne
    rw [Expr.checkResolved_eq, if_neg hunresolved]

/-- A placeholder in a filter stops the writing, and its attribute does not stop an evaluation. -/
theorem checkResolved_preflight_filter :
    (∃ left right, encode (.comprehension "x" (.label "c") (some (.placeholder "x" "p")) none none) =
        .error (.unresolved left right)) ∧
      ∀ lookup left right,
        (Expr.comprehension "x" (.label "c") (some (.attr (.label "x") "p")) none none).eval lookup ≠
          .error (.unresolved left right) := by
  have hname (s : String) (h : (Utf8.encode s).length = 1) : TextFits s := by
    rw [TextFits, h]
    decide
  have hfits : (Expr.comprehension "x" (.label "c") (some (.placeholder "x" "p")) none none).Every
      LengthsFit := by
    have hfilter : (Expr.placeholder "x" "p").Every LengthsFit := Expr.every_placeholder.2 trivial
    exact Expr.every_comprehension.2 ⟨⟨hname "x" rfl, by simp⟩, Expr.every_label.2 (hname "c" rfl),
      by simpa using hfilter, by simp⟩
  constructor
  · obtain ⟨hcount, hwriting, -, -⟩ := checkResolved_preflight
      (.comprehension "x" (.label "c") (some (.placeholder "x" "p")) none none)
    by_contra hnone
    simp only [not_exists] at hnone
    exact absurd (hcount.1 ((hwriting hfits).2 hnone)) (by decide)
  · obtain ⟨hcount, -, heval, -⟩ := checkResolved_preflight
      (.comprehension "x" (.label "c") (some (.attr (.label "x") "p")) none none)
    exact heval (hcount.2 rfl)

end Wire

end GraphQuery
