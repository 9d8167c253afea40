import Mathlib.Tactic.Tauto
import Mathlib.Tactic.Simproc.ExistsAndEq
import GraphQuery.Proofs.Bytes
import GraphQuery.Proofs.Expr.Nodes
import GraphQuery.Proofs.Fallible
import GraphQuery.Proofs.Utf8
import GraphQuery.Wire.Layout

/-!
# Properties of the layout

An expression has a wire form exactly if no placeholder is left in it and every length in it has
four bytes. The wire form has a byte at least for each expression and each value.

## Main definitions

* `Wire.ValueFits`, `Wire.LengthsFit`: the lengths in a value and at the root of an expression have
  four bytes.

## Main results

* `Wire.exprBytes_isOk_iff`: the expressions that have a wire form.
* `Wire.size_le_length`: a byte at least for each expression and value.
-/

namespace GraphQuery

namespace Wire

/-! ### Lengths -/

/-- The bytes of a text have a length of four bytes. -/
def TextFits (s : String) : Prop := (Utf8.encode s).length < UInt32.size

mutual

/-- The lengths in a value have four bytes. -/
def ValueFits : Value → Prop
  | .null | .bool _ | .int _ | .float _ => True
  | .string s => TextFits s
  | .list items => items.length < UInt32.size ∧ ItemsFit items
  | .map entries => entries.length < UInt32.size ∧ EntriesFit entries

def ItemsFit : List Value → Prop
  | [] => True
  | v :: vs => ValueFits v ∧ ItemsFit vs

def EntriesFit : List (String × Value) → Prop
  | [] => True
  | (key, v) :: es => TextFits key ∧ ValueFits v ∧ EntriesFit es

end

/-- The lengths at the root of an expression have four bytes. -/
def LengthsFit : Expr → Prop
  | .constant value => ValueFits value
  | .label name => TextFits name
  | .logical _ es | .list es => es.length < UInt32.size
  | .attr _ name => TextFits name
  | .comprehension binder _ _ _ origin => TextFits binder ∧ ∀ s ∈ origin, TextFits s
  | .quantified _ binder _ _ origin => TextFits binder ∧ ∀ s ∈ origin, TextFits s
  | .reduce accumulator _ binder _ _ origin =>
    TextFits accumulator ∧ TextFits binder ∧ ∀ s ∈ origin, TextFits s
  | _ => True

theorem lengthBytes_eq_ok {n : Nat} {w : List UInt8} :
    lengthBytes n = .ok w ↔ n < UInt32.size ∧ Bytes.bigEndian 4 n = w := by
  rw [lengthBytes]
  split
  · simp_all
  · rename_i h
    simp [h]

theorem textBytes_eq_ok {s : String} {w : List UInt8} :
    textBytes s = .ok w ↔
      TextFits s ∧ Bytes.bigEndian 4 (Utf8.encode s).length ++ Utf8.encode s = w := by
  simp [textBytes, lengthBytes_eq_ok, TextFits]

theorem originBytes_isOk_iff {origin : Option String} :
    (∃ w, originBytes origin = .ok w) ↔ ∀ s ∈ origin, TextFits s := by
  cases origin <;> simp [originBytes, textBytes_eq_ok]

mutual

/-- The values that can be written are those whose lengths have four bytes. -/
theorem valueBytes_isOk_iff : ∀ {v : Value}, (∃ w, valueBytes v = .ok w) ↔ ValueFits v
  | .null | .bool _ | .int _ | .float _ => by simp [valueBytes, ValueFits]
  | .string s => by simp [valueBytes, ValueFits, textBytes_eq_ok]
  | .list items => by
    rw [ValueFits, ← itemsBytes_isOk_iff]
    simp [valueBytes, lengthBytes_eq_ok]
  | .map entries => by
    rw [ValueFits, ← entriesBytes_isOk_iff]
    simp [valueBytes, lengthBytes_eq_ok]

theorem itemsBytes_isOk_iff : ∀ {items : List Value},
    (∃ w, itemsBytes items = .ok w) ↔ ItemsFit items
  | [] => by simp [itemsBytes, ItemsFit]
  | v :: vs => by
    rw [ItemsFit, ← valueBytes_isOk_iff, ← itemsBytes_isOk_iff]
    simp [itemsBytes]

theorem entriesBytes_isOk_iff : ∀ {entries : List (String × Value)},
    (∃ w, entriesBytes entries = .ok w) ↔ EntriesFit entries
  | [] => by simp [entriesBytes, EntriesFit]
  | (key, v) :: es => by
    rw [EntriesFit, ← valueBytes_isOk_iff, ← entriesBytes_isOk_iff]
    simp [entriesBytes, textBytes_eq_ok]

end

/-- An expression can be written as far as its root is concerned. -/
def Writable (e : Expr) : Prop := e.isPlaceholder = false ∧ LengthsFit e

theorem every_writable_iff {e : Expr} :
    e.Every Writable ↔ e.isResolved = true ∧ e.Every LengthsFit := by
  simp only [Expr.isResolved, List.all_eq_true, Bool.not_eq_true', Expr.Every, Writable,
    forall_and]

theorem exprsBytes_isOk_iff {es : List Expr} :
    (∃ w, exprsBytes es = .ok w) ↔ ∀ e ∈ es, ∃ w, exprBytes e = .ok w := by
  induction es with
  | nil => simp [exprsBytes]
  | cons e es ih =>
      rw [List.forall_mem_cons, ← ih]
      simp [exprsBytes]

theorem partBytes_isOk_iff {part : Option Expr} :
    (∃ w, partBytes part = .ok w) ↔ ∀ e ∈ part, ∃ w, exprBytes e = .ok w := by
  cases part <;> simp [partBytes]

/-- An expression can be written if its root and its direct parts can. -/
theorem exprBytes_isOk_step (e : Expr) :
    (∃ w, exprBytes e = .ok w) ↔ Writable e ∧ ∀ c ∈ e.children, ∃ w, exprBytes c = .ok w := by
  cases e with
  | placeholder => simp [exprBytes, Writable, Expr.isPlaceholder]
  | constant value =>
      simp [exprBytes, Writable, LengthsFit, Expr.isPlaceholder, Expr.children,
        ← valueBytes_isOk_iff]
  | logical _ es | list es =>
      simp [exprBytes, Writable, LengthsFit, Expr.isPlaceholder, Expr.children, lengthBytes_eq_ok,
        exprsBytes_isOk_iff]
  | comprehension _ collection filter mapping origin =>
      simp [exprBytes, Writable, LengthsFit, Expr.isPlaceholder, Expr.children, textBytes_eq_ok,
        partBytes_isOk_iff, originBytes_isOk_iff, or_imp, forall_and]
      tauto
  | quantified _ _ collection filter origin =>
      simp [exprBytes, Writable, LengthsFit, Expr.isPlaceholder, Expr.children, textBytes_eq_ok,
        partBytes_isOk_iff, originBytes_isOk_iff]
      tauto
  | reduce _ initial _ collection mapping origin =>
      simp [exprBytes, Writable, LengthsFit, Expr.isPlaceholder, Expr.children, textBytes_eq_ok,
        originBytes_isOk_iff]
      tauto
  | attr object name =>
      simp [exprBytes, Writable, LengthsFit, Expr.isPlaceholder, Expr.children, textBytes_eq_ok,
        and_comm]
  | _ =>
      simp [exprBytes, Writable, LengthsFit, Expr.isPlaceholder, Expr.children, textBytes_eq_ok]

/-- The expressions that can be written are those without placeholders whose lengths have four
bytes. -/
theorem exprBytes_isOk_iff {e : Expr} : (∃ w, exprBytes e = .ok w) ↔ e.Every Writable := by
  induction e using Expr.induction_on_children with
  | step e ih =>
    rw [exprBytes_isOk_step, Expr.every_iff]
    exact and_congr_right fun _ => forall₂_congr ih

/-! ### Sizes -/

theorem length_of_lengthBytes {n : Nat} {w : List UInt8} (h : lengthBytes n = .ok w) :
    w.length = 4 := by
  rw [← (lengthBytes_eq_ok.1 h).2, Bytes.length_bigEndian]

mutual

theorem valueSize_le_length : ∀ {v : Value} {w : List UInt8}, valueBytes v = .ok w →
    v.size ≤ w.length
  | .null, _, h | .bool _, _, h | .int _, _, h | .float _, _, h => by
    simp only [valueBytes, Except.ok.injEq] at h
    subst h
    simp [Value.size]
  | .string _, _, h => by
    simp only [valueBytes, bind_pure_comp, map_eq_ok] at h
    obtain ⟨text, -, rfl⟩ := h
    simp [Value.size]
  | .list items, _, h => by
    simp only [valueBytes, bind_pure_comp, bind_eq_ok, map_eq_ok] at h
    obtain ⟨count, hcount, content, hcontent, rfl⟩ := h
    have hitems := itemsSize_le_length hcontent
    have hlength := length_of_lengthBytes hcount
    simp only [Value.size, List.length_cons, List.length_append]
    omega
  | .map entries, _, h => by
    simp only [valueBytes, bind_pure_comp, bind_eq_ok, map_eq_ok] at h
    obtain ⟨count, hcount, content, hcontent, rfl⟩ := h
    have hentries := entriesSize_le_length hcontent
    have hlength := length_of_lengthBytes hcount
    simp only [Value.size, List.length_cons, List.length_append]
    omega

theorem itemsSize_le_length : ∀ {items : List Value} {w : List UInt8},
    itemsBytes items = .ok w → Value.sizeItems items ≤ w.length
  | [], _, _ => Nat.zero_le _
  | v :: vs, _, h => by
    simp only [itemsBytes, bind_pure_comp, bind_eq_ok, map_eq_ok] at h
    obtain ⟨first, hfirst, rest, hrest, rfl⟩ := h
    rw [Value.sizeItems, List.length_append]
    exact Nat.add_le_add (valueSize_le_length hfirst) (itemsSize_le_length hrest)

theorem entriesSize_le_length : ∀ {entries : List (String × Value)} {w : List UInt8},
    entriesBytes entries = .ok w → Value.sizeEntries entries ≤ w.length
  | [], _, _ => Nat.zero_le _
  | (key, v) :: es, _, h => by
    simp only [entriesBytes, bind_pure_comp, bind_eq_ok, map_eq_ok] at h
    obtain ⟨text, -, first, hfirst, rest, hrest, rfl⟩ := h
    have hvalue := valueSize_le_length hfirst
    have hentries := entriesSize_le_length hrest
    simp only [Value.sizeEntries, List.length_append]
    omega

end

theorem length_items_le {items : List Value} {w : List UInt8} (h : itemsBytes items = .ok w) :
    items.length ≤ w.length := by
  induction items generalizing w with
  | nil => exact Nat.zero_le _
  | cons v vs ih =>
      simp only [itemsBytes, bind_pure_comp, bind_eq_ok, map_eq_ok] at h
      obtain ⟨first, hfirst, rest, hrest, rfl⟩ := h
      have hv := valueSize_le_length hfirst
      have hpos := v.size_pos
      have hvs := ih hrest
      simp only [List.length_cons, List.length_append]
      omega

theorem length_entries_le {entries : List (String × Value)} {w : List UInt8}
    (h : entriesBytes entries = .ok w) : entries.length ≤ w.length := by
  induction entries generalizing w with
  | nil => exact Nat.zero_le _
  | cons entry es ih =>
      simp only [entriesBytes, bind_pure_comp, bind_eq_ok, map_eq_ok] at h
      obtain ⟨text, -, first, hfirst, rest, hrest, rfl⟩ := h
      have hv := valueSize_le_length hfirst
      have hpos := entry.2.size_pos
      have hes := ih hrest
      simp only [List.length_cons, List.length_append]
      omega

theorem exprsSize_le_length {es : List Expr} {w : List UInt8} (hw : exprsBytes es = .ok w)
    (h : ∀ e ∈ es, ∀ w, exprBytes e = .ok w → e.size ≤ w.length) :
    Expr.sizeAll es ≤ w.length := by
  induction es generalizing w with
  | nil => exact Nat.zero_le _
  | cons e es ih =>
      simp only [exprsBytes, bind_pure_comp, bind_eq_ok, map_eq_ok] at hw
      obtain ⟨first, hfirst, rest, hrest, rfl⟩ := hw
      rw [Expr.sizeAll, List.length_append]
      exact Nat.add_le_add (h e List.mem_cons_self first hfirst)
        (ih hrest fun c hc => h c (List.mem_cons_of_mem _ hc))

theorem partSize_le_length {part : Option Expr} {w : List UInt8} (hw : partBytes part = .ok w)
    (h : ∀ e ∈ part, ∀ w, exprBytes e = .ok w → e.size ≤ w.length) :
    Expr.sizePart part ≤ w.length := by
  cases part with
  | none => exact Nat.zero_le _
  | some e =>
      simp only [partBytes, bind_pure_comp, map_eq_ok] at hw
      obtain ⟨bytes, hbytes, rfl⟩ := hw
      exact Nat.le_succ_of_le (h e rfl bytes hbytes)

/-- There is a byte at least for each expression and each value. -/
theorem size_le_length {e : Expr} {w : List UInt8} (h : exprBytes e = .ok w) :
    e.size ≤ w.length := by
  induction e using Expr.induction_on_children generalizing w with
  | step e ih =>
    cases e with
    | constant value =>
        simp only [exprBytes, bind_pure_comp, map_eq_ok] at h
        obtain ⟨content, hcontent, rfl⟩ := h
        exact Nat.succ_le_succ (valueSize_le_length hcontent)
    | label name =>
        simp only [exprBytes, bind_pure_comp, map_eq_ok] at h
        obtain ⟨text, -, rfl⟩ := h
        simp [Expr.size]
    | unary op operand =>
        simp only [exprBytes, bind_pure_comp, map_eq_ok] at h
        obtain ⟨bytes, hbytes, rfl⟩ := h
        have hoperand := ih operand (by simp [Expr.children]) hbytes
        simp only [Expr.size, List.length_cons]
        omega
    | arithmetic op left right | relational op left right =>
        simp only [exprBytes, bind_pure_comp, bind_eq_ok, map_eq_ok] at h
        obtain ⟨l, hl, r, hr, rfl⟩ := h
        have hleft := ih left (by simp [Expr.children]) hl
        have hright := ih right (by simp [Expr.children]) hr
        simp only [Expr.size, List.length_cons, List.length_append]
        omega
    | logical _ es | list es =>
        simp only [exprBytes, bind_pure_comp, bind_eq_ok, map_eq_ok] at h
        obtain ⟨count, -, content, hcontent, rfl⟩ := h
        have hes := exprsSize_le_length hcontent fun e he w => ih e he
        simp only [Expr.size, List.length_cons, List.length_append]
        omega
    | attr object name =>
        simp only [exprBytes, bind_pure_comp, bind_eq_ok, map_eq_ok] at h
        obtain ⟨bytes, hbytes, text, -, rfl⟩ := h
        have hobject := ih object (by simp [Expr.children]) hbytes
        simp only [Expr.size, List.length_cons, List.length_append]
        omega
    | placeholder left right => cases h
    | comprehension binder collection filter mapping origin =>
        simp only [exprBytes, bind_pure_comp, bind_eq_ok, map_eq_ok] at h
        obtain ⟨text, -, c, hc, f, hf, m, hm, o, -, rfl⟩ := h
        have hcollection := ih collection (by simp [Expr.children]) hc
        have hfilter := partSize_le_length hf fun e he w => ih e (by simp_all [Expr.children])
        have hmapping := partSize_le_length hm fun e he w => ih e (by simp_all [Expr.children])
        simp only [Expr.size, List.length_cons, List.length_append]
        omega
    | quantified quantifier binder collection filter origin =>
        simp only [exprBytes, bind_pure_comp, bind_eq_ok, map_eq_ok] at h
        obtain ⟨text, -, c, hc, f, hf, o, -, rfl⟩ := h
        have hcollection := ih collection (by simp [Expr.children]) hc
        have hfilter := partSize_le_length hf fun e he w => ih e (by simp_all [Expr.children])
        simp only [Expr.size, List.length_cons, List.length_append]
        omega
    | reduce accumulator initial binder collection mapping origin =>
        simp only [exprBytes, bind_pure_comp, bind_eq_ok, map_eq_ok] at h
        obtain ⟨text, -, i, hi, text', -, c, hc, m, hm, o, -, rfl⟩ := h
        have hinitial := ih initial (by simp [Expr.children]) hi
        have hcollection := ih collection (by simp [Expr.children]) hc
        have hmapping := ih mapping (by simp [Expr.children]) hm
        simp only [Expr.size, List.length_cons, List.length_append]
        omega

theorem length_exprs_le {es : List Expr} {w : List UInt8} (h : exprsBytes es = .ok w) :
    es.length ≤ w.length := by
  induction es generalizing w with
  | nil => exact Nat.zero_le _
  | cons e es ih =>
      simp only [exprsBytes, bind_pure_comp, bind_eq_ok, map_eq_ok] at h
      obtain ⟨first, hfirst, rest, hrest, rfl⟩ := h
      have he := size_le_length hfirst
      have hpos := e.size_pos
      have hes := ih hrest
      simp only [List.length_cons, List.length_append]
      omega

end Wire

end GraphQuery
