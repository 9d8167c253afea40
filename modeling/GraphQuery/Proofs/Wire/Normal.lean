import GraphQuery.Proofs.Expr.Normal
import GraphQuery.Proofs.Wire.Layout

/-!
# The layout of normal forms

The normal form of an expression that can be written can be written as well, and it takes no more
bytes: bindings that a map does not keep and empty origins are left out, and all else stays.

## Main results

* `Wire.exprBytes_normalize`: a normal form takes no more bytes.
-/

namespace GraphQuery

namespace Wire

/-! ### Values -/

/-- The bytes of some entries of a list, in the order of the list, are not more. -/
theorem entriesBytes_of_sublist {fewer entries : List (String × Value)} {w : List UInt8}
    (h : fewer.Sublist entries) (hw : entriesBytes entries = .ok w) :
    ∃ w', entriesBytes fewer = .ok w' ∧ w'.length ≤ w.length := by
  induction h generalizing w with
  | slnil => exact ⟨w, hw, Nat.le_refl _⟩
  | cons entry _ ih =>
      simp only [entriesBytes, bind_pure_comp, bind_eq_ok, map_eq_ok] at hw
      obtain ⟨text, -, first, -, rest, hrest, rfl⟩ := hw
      obtain ⟨w', hw', hle⟩ := ih hrest
      refine ⟨w', hw', ?_⟩
      simp only [List.length_append]
      omega
  | cons_cons entry _ ih =>
      simp only [entriesBytes, bind_pure_comp, bind_eq_ok, map_eq_ok] at hw
      obtain ⟨text, htext, first, hfirst, rest, hrest, rfl⟩ := hw
      obtain ⟨w', hw', hle⟩ := ih hrest
      refine ⟨text ++ first ++ w', by simp [entriesBytes, htext, hfirst, hw'], ?_⟩
      simp only [List.length_append]
      omega

/-- In another order entries have as many bytes. -/
theorem entriesBytes_of_perm {other entries : List (String × Value)} {w : List UInt8}
    (h : entries.Perm other) (hw : entriesBytes entries = .ok w) :
    ∃ w', entriesBytes other = .ok w' ∧ w'.length = w.length := by
  induction h generalizing w with
  | nil => exact ⟨w, hw, rfl⟩
  | cons entry _ ih =>
      simp only [entriesBytes, bind_pure_comp, bind_eq_ok, map_eq_ok] at hw
      obtain ⟨text, htext, first, hfirst, rest, hrest, rfl⟩ := hw
      obtain ⟨w', hw', hlength⟩ := ih hrest
      refine ⟨text ++ first ++ w', by simp [entriesBytes, htext, hfirst, hw'], ?_⟩
      simp only [List.length_append, hlength]
  | swap entry₁ entry₂ rest =>
      simp only [entriesBytes, bind_pure_comp, bind_eq_ok, map_eq_ok] at hw
      obtain ⟨text₂, htext₂, first₂, hfirst₂, _, ⟨text₁, htext₁, first₁, hfirst₁, rest, hrest, rfl⟩,
        rfl⟩ := hw
      refine ⟨text₁ ++ first₁ ++ (text₂ ++ first₂ ++ rest), ?_, ?_⟩
      · simp [entriesBytes, htext₁, hfirst₁, htext₂, hfirst₂, hrest]
      · simp only [List.length_append]
        omega
  | trans _ _ ih₁ ih₂ =>
      obtain ⟨w₁, hw₁, hlength₁⟩ := ih₁ hw
      obtain ⟨w₂, hw₂, hlength₂⟩ := ih₂ hw₁
      exact ⟨w₂, hw₂, hlength₂.trans hlength₁⟩

theorem entriesBytes_of_subperm {fewer entries : List (String × Value)} {w : List UInt8}
    (h : fewer.Subperm entries) (hw : entriesBytes entries = .ok w) :
    ∃ w', entriesBytes fewer = .ok w' ∧ w'.length ≤ w.length := by
  obtain ⟨other, hperm, hsub⟩ := h
  obtain ⟨w₁, hw₁, hle⟩ := entriesBytes_of_sublist hsub hw
  obtain ⟨w₂, hw₂, hlength⟩ := entriesBytes_of_perm hperm hw₁
  exact ⟨w₂, hw₂, hlength ▸ hle⟩

theorem lengthBytes_of_le {m n : Nat} {w : List UInt8} (hle : m ≤ n)
    (h : lengthBytes n = .ok w) : ∃ w', lengthBytes m = .ok w' ∧ w'.length = w.length := by
  have hlt := (lengthBytes_eq_ok.1 h).1
  refine ⟨Bytes.bigEndian 4 m, lengthBytes_eq_ok.2 ⟨by omega, rfl⟩, ?_⟩
  rw [length_of_lengthBytes h, Bytes.length_bigEndian]

mutual

theorem valueBytes_normalize : ∀ {v : Value} {w : List UInt8}, valueBytes v = .ok w →
    ∃ w', valueBytes v.normalize = .ok w' ∧ w'.length ≤ w.length
  | .null, w, h | .bool _, w, h | .int _, w, h | .float _, w, h | .string _, w, h =>
    ⟨w, h, Nat.le_refl _⟩
  | .list items, _, h => by
    simp only [valueBytes, bind_pure_comp, bind_eq_ok, map_eq_ok] at h
    obtain ⟨count, hcount, content, hcontent, rfl⟩ := h
    obtain ⟨w', hw', hle⟩ := itemsBytes_normalizeItems hcontent
    refine ⟨ValueType.list.tag :: count ++ w', ?_, ?_⟩
    · simp [valueBytes, Value.normalize, Value.length_normalizeItems, hcount, hw']
    · simp only [List.length_cons, List.length_append]
      omega
  | .map entries, _, h => by
    simp only [valueBytes, bind_pure_comp, bind_eq_ok, map_eq_ok] at h
    obtain ⟨count, hcount, content, hcontent, rfl⟩ := h
    obtain ⟨w₁, hw₁, hle₁⟩ := entriesBytes_normalizeEntries hcontent
    obtain ⟨w₂, hw₂, hle₂⟩ := entriesBytes_of_subperm (Entries.ofList_subperm _) hw₁
    obtain ⟨count', hcount', hlength⟩ :=
      lengthBytes_of_le (Value.length_ofList_normalizeEntries_le entries) hcount
    refine ⟨ValueType.map.tag :: count' ++ w₂, ?_, ?_⟩
    · simp [valueBytes, Value.normalize, hcount', hw₂]
    · simp only [List.length_cons, List.length_append]
      omega

theorem itemsBytes_normalizeItems : ∀ {items : List Value} {w : List UInt8},
    itemsBytes items = .ok w →
      ∃ w', itemsBytes (Value.normalizeItems items) = .ok w' ∧ w'.length ≤ w.length
  | [], w, h => ⟨w, h, Nat.le_refl _⟩
  | v :: vs, _, h => by
    simp only [itemsBytes, bind_pure_comp, bind_eq_ok, map_eq_ok] at h
    obtain ⟨first, hfirst, rest, hrest, rfl⟩ := h
    obtain ⟨first', hfirst', hle₁⟩ := valueBytes_normalize hfirst
    obtain ⟨rest', hrest', hle₂⟩ := itemsBytes_normalizeItems hrest
    refine ⟨first' ++ rest', by simp [itemsBytes, Value.normalizeItems, hfirst', hrest'], ?_⟩
    simp only [List.length_append]
    omega

theorem entriesBytes_normalizeEntries : ∀ {entries : List (String × Value)} {w : List UInt8},
    entriesBytes entries = .ok w →
      ∃ w', entriesBytes (Value.normalizeEntries entries) = .ok w' ∧ w'.length ≤ w.length
  | [], w, h => ⟨w, h, Nat.le_refl _⟩
  | (key, v) :: es, _, h => by
    simp only [entriesBytes, bind_pure_comp, bind_eq_ok, map_eq_ok] at h
    obtain ⟨text, htext, first, hfirst, rest, hrest, rfl⟩ := h
    obtain ⟨first', hfirst', hle₁⟩ := valueBytes_normalize hfirst
    obtain ⟨rest', hrest', hle₂⟩ := entriesBytes_normalizeEntries hrest
    refine ⟨text ++ first' ++ rest', ?_, ?_⟩
    · simp [entriesBytes, Value.normalizeEntries, htext, hfirst', hrest']
    · simp only [List.length_append]
      omega

end

/-! ### Expressions -/

theorem originBytes_bind_keptOrigin {origin : Option String} {w : List UInt8}
    (h : originBytes origin = .ok w) :
    ∃ w', originBytes (origin.bind Expr.keptOrigin) = .ok w' ∧ w'.length ≤ w.length := by
  by_cases hempty : origin = some ""
  · subst hempty
    simp only [originBytes, bind_pure_comp, map_eq_ok] at h
    obtain ⟨text, -, rfl⟩ := h
    exact ⟨[presence false], rfl, by simp⟩
  · exact ⟨w, (Expr.bind_keptOrigin_eq_self_iff.2 hempty).symm ▸ h, Nat.le_refl _⟩

theorem exprsBytes_normalizeAll {es : List Expr} {w : List UInt8} (hw : exprsBytes es = .ok w)
    (h : ∀ e ∈ es, ∀ w, exprBytes e = .ok w →
      ∃ w', exprBytes e.normalize = .ok w' ∧ w'.length ≤ w.length) :
    ∃ w', exprsBytes (Expr.normalizeAll es) = .ok w' ∧ w'.length ≤ w.length := by
  induction es generalizing w with
  | nil => exact ⟨w, hw, Nat.le_refl _⟩
  | cons e es ih =>
      simp only [exprsBytes, bind_pure_comp, bind_eq_ok, map_eq_ok] at hw
      obtain ⟨first, hfirst, rest, hrest, rfl⟩ := hw
      obtain ⟨first', hfirst', hle₁⟩ := h e List.mem_cons_self first hfirst
      obtain ⟨rest', hrest', hle₂⟩ := ih hrest fun c hc => h c (List.mem_cons_of_mem _ hc)
      refine ⟨first' ++ rest', by simp [exprsBytes, Expr.normalizeAll, hfirst', hrest'], ?_⟩
      simp only [List.length_append]
      omega

theorem partBytes_normalizePart {part : Option Expr} {w : List UInt8}
    (hw : partBytes part = .ok w)
    (h : ∀ e ∈ part, ∀ w, exprBytes e = .ok w →
      ∃ w', exprBytes e.normalize = .ok w' ∧ w'.length ≤ w.length) :
    ∃ w', partBytes (Expr.normalizePart part) = .ok w' ∧ w'.length ≤ w.length := by
  cases part with
  | none => exact ⟨w, hw, Nat.le_refl _⟩
  | some e =>
      simp only [partBytes, bind_pure_comp, map_eq_ok] at hw
      obtain ⟨bytes, hbytes, rfl⟩ := hw
      obtain ⟨bytes', hbytes', hle⟩ := h e rfl bytes hbytes
      refine ⟨presence true :: bytes', by simp [partBytes, Expr.normalizePart, hbytes'], ?_⟩
      exact Nat.succ_le_succ hle

/-- The normal form of what can be written can be written, in no more bytes. -/
theorem exprBytes_normalize {e : Expr} {w : List UInt8} (h : exprBytes e = .ok w) :
    ∃ w', exprBytes e.normalize = .ok w' ∧ w'.length ≤ w.length := by
  induction e using Expr.induction_on_children generalizing w with
  | step e ih =>
    cases e with
    | constant value =>
        simp only [exprBytes, bind_pure_comp, map_eq_ok] at h
        obtain ⟨content, hcontent, rfl⟩ := h
        obtain ⟨w', hw', hle⟩ := valueBytes_normalize hcontent
        exact ⟨Form.constant.tag :: w', by simp [exprBytes, Expr.normalize, hw'],
          Nat.succ_le_succ hle⟩
    | label name => exact ⟨w, h, Nat.le_refl _⟩
    | placeholder left right => cases h
    | unary op operand =>
        simp only [exprBytes, bind_pure_comp, map_eq_ok] at h
        obtain ⟨bytes, hbytes, rfl⟩ := h
        obtain ⟨w', hw', hle⟩ := ih operand (by simp [Expr.children]) hbytes
        refine ⟨Form.unary.tag :: op.tag :: w', by simp [exprBytes, Expr.normalize, hw'], ?_⟩
        simp only [List.length_cons]
        omega
    | arithmetic op left right =>
        simp only [exprBytes, bind_pure_comp, bind_eq_ok, map_eq_ok] at h
        obtain ⟨l, hl, r, hr, rfl⟩ := h
        obtain ⟨l', hl', hle₁⟩ := ih left (by simp [Expr.children]) hl
        obtain ⟨r', hr', hle₂⟩ := ih right (by simp [Expr.children]) hr
        refine ⟨Form.arithmetic.tag :: op.tag :: l' ++ r', by simp [exprBytes, Expr.normalize, hl', hr'], ?_⟩
        simp only [List.length_cons, List.length_append]
        omega
    | relational op left right =>
        simp only [exprBytes, bind_pure_comp, bind_eq_ok, map_eq_ok] at h
        obtain ⟨l, hl, r, hr, rfl⟩ := h
        obtain ⟨l', hl', hle₁⟩ := ih left (by simp [Expr.children]) hl
        obtain ⟨r', hr', hle₂⟩ := ih right (by simp [Expr.children]) hr
        refine ⟨Form.relational.tag :: op.tag :: l' ++ r', by simp [exprBytes, Expr.normalize, hl', hr'], ?_⟩
        simp only [List.length_cons, List.length_append]
        omega
    | logical op es =>
        simp only [exprBytes, bind_pure_comp, bind_eq_ok, map_eq_ok] at h
        obtain ⟨count, hcount, content, hcontent, rfl⟩ := h
        obtain ⟨w', hw', hle⟩ := exprsBytes_normalizeAll hcontent fun e he w => ih e he
        refine ⟨Form.logical.tag :: op.tag :: count ++ w', ?_, ?_⟩
        · simp [exprBytes, Expr.normalize, Expr.length_normalizeAll, hcount, hw']
        · simp only [List.length_cons, List.length_append]
          omega
    | list es =>
        simp only [exprBytes, bind_pure_comp, bind_eq_ok, map_eq_ok] at h
        obtain ⟨count, hcount, content, hcontent, rfl⟩ := h
        obtain ⟨w', hw', hle⟩ := exprsBytes_normalizeAll hcontent fun e he w => ih e he
        refine ⟨Form.list.tag :: count ++ w', ?_, ?_⟩
        · simp [exprBytes, Expr.normalize, Expr.length_normalizeAll, hcount, hw']
        · simp only [List.length_cons, List.length_append]
          omega
    | attr object name =>
        simp only [exprBytes, bind_pure_comp, bind_eq_ok, map_eq_ok] at h
        obtain ⟨bytes, hbytes, text, htext, rfl⟩ := h
        obtain ⟨w', hw', hle⟩ := ih object (by simp [Expr.children]) hbytes
        refine ⟨Form.attr.tag :: w' ++ text, by simp [exprBytes, Expr.normalize, hw', htext], ?_⟩
        simp only [List.length_cons, List.length_append]
        omega
    | comprehension binder collection filter mapping origin =>
        simp only [exprBytes, bind_pure_comp, bind_eq_ok, map_eq_ok] at h
        obtain ⟨text, htext, c, hc, f, hf, m, hm, o, ho, rfl⟩ := h
        obtain ⟨c', hc', hle₁⟩ := ih collection (by simp [Expr.children]) hc
        obtain ⟨f', hf', hle₂⟩ :=
          partBytes_normalizePart hf fun e he w => ih e (by simp_all [Expr.children])
        obtain ⟨m', hm', hle₃⟩ :=
          partBytes_normalizePart hm fun e he w => ih e (by simp_all [Expr.children])
        obtain ⟨o', ho', hle₄⟩ := originBytes_bind_keptOrigin ho
        refine ⟨Form.comprehension.tag :: text ++ c' ++ f' ++ m' ++ o', ?_, ?_⟩
        · simp [exprBytes, Expr.normalize, htext, hc', hf', hm', ho']
        · simp only [List.length_cons, List.length_append]
          omega
    | quantified quantifier binder collection filter origin =>
        simp only [exprBytes, bind_pure_comp, bind_eq_ok, map_eq_ok] at h
        obtain ⟨text, htext, c, hc, f, hf, o, ho, rfl⟩ := h
        obtain ⟨c', hc', hle₁⟩ := ih collection (by simp [Expr.children]) hc
        obtain ⟨f', hf', hle₂⟩ :=
          partBytes_normalizePart hf fun e he w => ih e (by simp_all [Expr.children])
        obtain ⟨o', ho', hle₃⟩ := originBytes_bind_keptOrigin ho
        refine ⟨Form.quantified.tag :: quantifier.tag :: text ++ c' ++ f' ++ o', ?_, ?_⟩
        · simp [exprBytes, Expr.normalize, htext, hc', hf', ho']
        · simp only [List.length_cons, List.length_append]
          omega
    | reduce accumulator initial binder collection mapping origin =>
        simp only [exprBytes, bind_pure_comp, bind_eq_ok, map_eq_ok] at h
        obtain ⟨text, htext, i, hi, text', htext', c, hc, m, hm, o, ho, rfl⟩ := h
        obtain ⟨i', hi', hle₁⟩ := ih initial (by simp [Expr.children]) hi
        obtain ⟨c', hc', hle₂⟩ := ih collection (by simp [Expr.children]) hc
        obtain ⟨m', hm', hle₃⟩ := ih mapping (by simp [Expr.children]) hm
        obtain ⟨o', ho', hle₄⟩ := originBytes_bind_keptOrigin ho
        refine ⟨Form.reduce.tag :: text ++ i' ++ text' ++ c' ++ m' ++ o', ?_, ?_⟩
        · simp [exprBytes, Expr.normalize, htext, hi', htext', hc', hm', ho']
        · simp only [List.length_cons, List.length_append]
          omega

end Wire

end GraphQuery
