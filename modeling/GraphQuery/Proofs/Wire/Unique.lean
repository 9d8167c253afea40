import GraphQuery.Proofs.Wire.Writing

/-!
# Unique reading

The bytes of an expression tell where they end and which expression they are the bytes of: no
two expressions have the same bytes, and none has the first bytes of another one.

## Main definitions

* `Wire.Unambiguous`: what begins with the bytes of something is known to do so.

## Main results

* `Wire.unambiguous_value`, `Wire.unambiguous_expr`: values and expressions are read in one way.
* `Wire.eq_of_encode_eq`: no two expressions have the same wire form.
-/

namespace GraphQuery

namespace Wire

/-- Bytes that begin with those of `a` begin with those of nothing else. -/
def Unambiguous {α : Type} (code : α → Written) (a : α) : Prop :=
  ∀ ⦃a' : α⦄ ⦃w w' s s' : List UInt8⦄, code a = .ok w → code a' = .ok w' → w ++ s = w' ++ s' →
    a = a' ∧ s = s'

/-! ### Symbols, numbers and texts -/

/-- Tags that can be looked up differ. -/
theorem eq_of_tag_eq {α : Type} {tag : α → UInt8} {ofTag? : UInt8 → Option α}
    (h : ∀ a, ofTag? (tag a) = some a) {a b : α} (hab : tag a = tag b) : a = b :=
  Option.some.inj ((h a).symm.trans (hab ▸ h b))

theorem eq_of_presence_eq {b b' : Bool} (h : presence b = presence b') : b = b' := by
  cases b <;> cases b' <;> simp_all [presence]

/-- Words of one width are determined by their bytes. -/
theorem eq_of_bigEndian_append {width n n' : Nat} {s s' : List UInt8} (hn : n < 256 ^ width)
    (hn' : n' < 256 ^ width) (hs : Bytes.bigEndian width n ++ s = Bytes.bigEndian width n' ++ s') :
    n = n' ∧ s = s' := by
  obtain ⟨hbytes, rfl⟩ := List.append_inj hs (by simp)
  refine ⟨?_, rfl⟩
  rw [← Bytes.ofBigEndian_bigEndian hn, hbytes, Bytes.ofBigEndian_bigEndian hn']

theorem unambiguous_length (n : Nat) : Unambiguous lengthBytes n := by
  intro n' w w' s s' h h' hs
  obtain ⟨hn, rfl⟩ := lengthBytes_eq_ok.1 h
  obtain ⟨hn', rfl⟩ := lengthBytes_eq_ok.1 h'
  exact eq_of_bigEndian_append hn hn' hs

theorem unambiguous_text (s : String) : Unambiguous textBytes s := by
  intro s' w w' r r' h h' hr
  obtain ⟨hn, rfl⟩ := textBytes_eq_ok.1 h
  obtain ⟨hn', rfl⟩ := textBytes_eq_ok.1 h'
  rw [List.append_assoc, List.append_assoc] at hr
  obtain ⟨hlength, hr⟩ := eq_of_bigEndian_append hn hn' hr
  obtain ⟨hbytes, rfl⟩ := List.append_inj hr hlength
  have hdecode := Utf8.decode_encode s
  rw [hbytes, Utf8.decode_encode] at hdecode
  exact ⟨(Except.ok.inj hdecode).symm, rfl⟩

theorem unambiguous_origin (origin : Option String) : Unambiguous originBytes origin := by
  intro origin' w w' s s' h h' hs
  cases origin with
  | none =>
      obtain rfl := Except.ok.inj h
      cases origin' with
      | none =>
          obtain rfl := Except.ok.inj h'
          exact ⟨rfl, List.cons.inj hs |>.2⟩
      | some text =>
          simp only [originBytes, bind_pure_comp, map_eq_ok] at h'
          obtain ⟨bytes, -, rfl⟩ := h'
          cases eq_of_presence_eq (List.cons.inj hs).1
  | some text =>
      simp only [originBytes, bind_pure_comp, map_eq_ok] at h
      obtain ⟨bytes, hbytes, rfl⟩ := h
      cases origin' with
      | none =>
          obtain rfl := Except.ok.inj h'
          cases eq_of_presence_eq (List.cons.inj hs).1
      | some text' =>
          simp only [originBytes, bind_pure_comp, map_eq_ok] at h'
          obtain ⟨bytes', hbytes', rfl⟩ := h'
          obtain ⟨rfl, rfl⟩ := unambiguous_text text hbytes hbytes' (List.cons.inj hs).2
          exact ⟨rfl, rfl⟩

/-! ### Values -/

theorem valueBytes_head {v : Value} {w : List UInt8} (h : valueBytes v = .ok w) :
    ∃ rest, w = v.type.tag :: rest := by
  cases v with
  | string | list | map =>
      simp only [valueBytes, bind_pure_comp, bind_eq_ok, map_eq_ok] at h
      grind [Value.type]
  | _ => exact ⟨_, (Except.ok.inj h).symm⟩

/-- The first byte tells the type. -/
theorem type_eq_of_append {v v' : Value} {w w' s s' : List UInt8} (h : valueBytes v = .ok w)
    (h' : valueBytes v' = .ok w') (hs : w ++ s = w' ++ s') : v.type = v'.type := by
  obtain ⟨rest, rfl⟩ := valueBytes_head h
  obtain ⟨rest', rfl⟩ := valueBytes_head h'
  exact eq_of_tag_eq ValueType.ofTag?_tag (List.cons.inj hs).1

theorem eq_of_int_append {n n' : Int64} {s s' : List UInt8}
    (hs : Bytes.bigEndian 8 n.toUInt64.toNat ++ s = Bytes.bigEndian 8 n'.toUInt64.toNat ++ s') :
    n = n' ∧ s = s' := by
  obtain ⟨hn, rfl⟩ :=
    eq_of_bigEndian_append n.toUInt64.toNat_lt n'.toUInt64.toNat_lt hs
  have hword : n.toUInt64 = n'.toUInt64 := UInt64.toNat_inj.1 hn
  rw [← n.toInt64_toUInt64, hword, n'.toInt64_toUInt64]
  exact ⟨rfl, rfl⟩

theorem eq_of_float_append {x x' : Binary64} {s s' : List UInt8}
    (hs : Bytes.bigEndian 8 x.bits.toNat ++ s = Bytes.bigEndian 8 x'.bits.toNat ++ s') :
    x = x' ∧ s = s' := by
  obtain ⟨hbits, rfl⟩ := eq_of_bigEndian_append x.bits.toNat_lt x'.bits.toNat_lt hs
  exact ⟨congrArg Binary64.mk (UInt64.toNat_inj.1 hbits), rfl⟩

mutual

/-- Values are read in one way. -/
theorem unambiguous_value : ∀ v : Value, Unambiguous valueBytes v
  | .null, v', _, _, _, _, h, h', hs => by
    have htype := type_eq_of_append h h' hs
    cases v' with
    | null =>
        obtain rfl := Except.ok.inj h
        obtain rfl := Except.ok.inj h'
        exact ⟨rfl, (List.cons.inj hs).2⟩
    | _ => cases htype
  | .bool b, v', _, _, _, _, h, h', hs => by
    have htype := type_eq_of_append h h' hs
    cases v' with
    | bool b' =>
        obtain rfl := Except.ok.inj h
        obtain rfl := Except.ok.inj h'
        obtain ⟨hb, hs⟩ := List.cons.inj (List.cons.inj hs).2
        exact ⟨congrArg Value.bool (eq_of_presence_eq hb), hs⟩
    | _ => cases htype
  | .int n, v', _, _, _, _, h, h', hs => by
    have htype := type_eq_of_append h h' hs
    cases v' with
    | int n' =>
        obtain rfl := Except.ok.inj h
        obtain rfl := Except.ok.inj h'
        obtain ⟨rfl, rfl⟩ := eq_of_int_append (List.cons.inj hs).2
        exact ⟨rfl, rfl⟩
    | _ => cases htype
  | .float x, v', _, _, _, _, h, h', hs => by
    have htype := type_eq_of_append h h' hs
    cases v' with
    | float x' =>
        obtain rfl := Except.ok.inj h
        obtain rfl := Except.ok.inj h'
        obtain ⟨rfl, rfl⟩ := eq_of_float_append (List.cons.inj hs).2
        exact ⟨rfl, rfl⟩
    | _ => cases htype
  | .string text, v', _, _, _, _, h, h', hs => by
    have htype := type_eq_of_append h h' hs
    cases v' with
    | string text' =>
        simp only [valueBytes, bind_pure_comp, map_eq_ok] at h h'
        obtain ⟨bytes, hbytes, rfl⟩ := h
        obtain ⟨bytes', hbytes', rfl⟩ := h'
        obtain ⟨rfl, rfl⟩ := unambiguous_text text hbytes hbytes' (List.cons.inj hs).2
        exact ⟨rfl, rfl⟩
    | _ => cases htype
  | .list items, v', _, _, _, _, h, h', hs => by
    have htype := type_eq_of_append h h' hs
    cases v' with
    | list items' =>
        simp only [valueBytes, bind_pure_comp, bind_eq_ok, map_eq_ok] at h h'
        obtain ⟨count, hcount, content, hcontent, rfl⟩ := h
        obtain ⟨count', hcount', content', hcontent', rfl⟩ := h'
        simp only [List.cons_append, List.append_assoc, List.cons.injEq, true_and] at hs
        obtain ⟨hlength, hs⟩ := unambiguous_length _ hcount hcount' hs
        obtain ⟨rfl, rfl⟩ := eq_of_items_append hlength hcontent hcontent' hs
        exact ⟨rfl, rfl⟩
    | _ => cases htype
  | .map entries, v', _, _, _, _, h, h', hs => by
    have htype := type_eq_of_append h h' hs
    cases v' with
    | map entries' =>
        simp only [valueBytes, bind_pure_comp, bind_eq_ok, map_eq_ok] at h h'
        obtain ⟨count, hcount, content, hcontent, rfl⟩ := h
        obtain ⟨count', hcount', content', hcontent', rfl⟩ := h'
        simp only [List.cons_append, List.append_assoc, List.cons.injEq, true_and] at hs
        obtain ⟨hlength, hs⟩ := unambiguous_length _ hcount hcount' hs
        obtain ⟨rfl, rfl⟩ := eq_of_entries_append hlength hcontent hcontent' hs
        exact ⟨rfl, rfl⟩
    | _ => cases htype

theorem eq_of_items_append : ∀ {items items' : List Value} {w w' s s' : List UInt8},
    items.length = items'.length → itemsBytes items = .ok w → itemsBytes items' = .ok w' →
      w ++ s = w' ++ s' → items = items' ∧ s = s'
  | [], [], _, _, _, _, _, h, h', hs => by
    obtain rfl := Except.ok.inj h
    obtain rfl := Except.ok.inj h'
    exact ⟨rfl, hs⟩
  | v :: vs, v' :: vs', _, _, _, _, hlength, h, h', hs => by
    simp only [itemsBytes, bind_pure_comp, bind_eq_ok, map_eq_ok] at h h'
    obtain ⟨first, hfirst, rest, hrest, rfl⟩ := h
    obtain ⟨first', hfirst', rest', hrest', rfl⟩ := h'
    rw [List.append_assoc, List.append_assoc] at hs
    obtain ⟨rfl, hs⟩ := unambiguous_value v hfirst hfirst' hs
    obtain ⟨rfl, rfl⟩ := eq_of_items_append (Nat.succ.inj hlength) hrest hrest' hs
    exact ⟨rfl, rfl⟩

theorem eq_of_entries_append :
    ∀ {entries entries' : List (String × Value)} {w w' s s' : List UInt8},
      entries.length = entries'.length → entriesBytes entries = .ok w →
        entriesBytes entries' = .ok w' → w ++ s = w' ++ s' → entries = entries' ∧ s = s'
  | [], [], _, _, _, _, _, h, h', hs => by
    obtain rfl := Except.ok.inj h
    obtain rfl := Except.ok.inj h'
    exact ⟨rfl, hs⟩
  | (key, v) :: es, (key', v') :: es', _, _, _, _, hlength, h, h', hs => by
    simp only [entriesBytes, bind_pure_comp, bind_eq_ok, map_eq_ok] at h h'
    obtain ⟨text, htext, first, hfirst, rest, hrest, rfl⟩ := h
    obtain ⟨text', htext', first', hfirst', rest', hrest', rfl⟩ := h'
    simp only [List.append_assoc] at hs
    obtain ⟨rfl, hs⟩ := unambiguous_text key htext htext' hs
    obtain ⟨rfl, hs⟩ := unambiguous_value v hfirst hfirst' hs
    obtain ⟨rfl, rfl⟩ := eq_of_entries_append (Nat.succ.inj hlength) hrest hrest' hs
    exact ⟨rfl, rfl⟩

end

/-! ### Expressions -/

/-- The form of an expression. -/
def Form.of : Expr → Form
  | .constant _ => .constant
  | .label _ => .label
  | .unary .. => .unary
  | .arithmetic .. => .arithmetic
  | .relational .. => .relational
  | .logical .. => .logical
  | .list _ => .list
  | .attr .. => .attr
  | .placeholder .. => .placeholder
  | .comprehension .. => .comprehension
  | .quantified .. => .quantified
  | .reduce .. => .reduce

theorem exprBytes_head {e : Expr} {w : List UInt8} (h : exprBytes e = .ok w) :
    ∃ rest, w = (Form.of e).tag :: rest := by
  cases e with
  | placeholder => cases h
  | _ =>
      simp only [exprBytes, bind_pure_comp, bind_eq_ok, map_eq_ok] at h
      grind [Form.of]

/-- The first byte tells the form. -/
theorem form_eq_of_append {e e' : Expr} {w w' s s' : List UInt8} (h : exprBytes e = .ok w)
    (h' : exprBytes e' = .ok w') (hs : w ++ s = w' ++ s') : Form.of e = Form.of e' := by
  obtain ⟨rest, rfl⟩ := exprBytes_head h
  obtain ⟨rest', rfl⟩ := exprBytes_head h'
  exact eq_of_tag_eq Form.ofTag?_tag (List.cons.inj hs).1

theorem eq_of_exprs_append {es es' : List Expr} {w w' s s' : List UInt8}
    (hes : ∀ e ∈ es, Unambiguous exprBytes e) (hlength : es.length = es'.length)
    (h : exprsBytes es = .ok w) (h' : exprsBytes es' = .ok w') (hs : w ++ s = w' ++ s') :
    es = es' ∧ s = s' := by
  induction es generalizing es' w w' with
  | nil =>
      obtain rfl : es' = [] := List.length_eq_zero_iff.1 hlength.symm
      obtain rfl := Except.ok.inj h
      obtain rfl := Except.ok.inj h'
      exact ⟨rfl, hs⟩
  | cons e es ih =>
      obtain ⟨e', es', rfl⟩ := List.exists_cons_of_length_eq_add_one hlength.symm
      simp only [exprsBytes, bind_pure_comp, bind_eq_ok, map_eq_ok] at h h'
      obtain ⟨first, hfirst, rest, hrest, rfl⟩ := h
      obtain ⟨first', hfirst', rest', hrest', rfl⟩ := h'
      rw [List.append_assoc, List.append_assoc] at hs
      obtain ⟨rfl, hs⟩ := hes e List.mem_cons_self hfirst hfirst' hs
      obtain ⟨rfl, rfl⟩ := ih (fun c hc => hes c (List.mem_cons_of_mem _ hc))
        (Nat.succ.inj hlength) hrest hrest' hs
      exact ⟨rfl, rfl⟩

theorem unambiguous_part {part : Option Expr} (hpart : ∀ e ∈ part, Unambiguous exprBytes e) :
    Unambiguous partBytes part := by
  intro part' w w' s s' h h' hs
  cases part with
  | none =>
      obtain rfl := Except.ok.inj h
      cases part' with
      | none =>
          obtain rfl := Except.ok.inj h'
          exact ⟨rfl, (List.cons.inj hs).2⟩
      | some e' =>
          simp only [partBytes, bind_pure_comp, map_eq_ok] at h'
          obtain ⟨bytes, -, rfl⟩ := h'
          cases eq_of_presence_eq (List.cons.inj hs).1
  | some e =>
      simp only [partBytes, bind_pure_comp, map_eq_ok] at h
      obtain ⟨bytes, hbytes, rfl⟩ := h
      cases part' with
      | none =>
          obtain rfl := Except.ok.inj h'
          cases eq_of_presence_eq (List.cons.inj hs).1
      | some e' =>
          simp only [partBytes, bind_pure_comp, map_eq_ok] at h'
          obtain ⟨bytes', hbytes', rfl⟩ := h'
          obtain ⟨rfl, rfl⟩ := hpart e rfl hbytes hbytes' (List.cons.inj hs).2
          exact ⟨rfl, rfl⟩

/-! One rule for each form: it is read in one way if its parts are. -/

theorem unambiguous_constant (value : Value) : Unambiguous exprBytes (.constant value) := by
  intro e' w w' s s' h h' hs
  have hform := form_eq_of_append h h' hs
  cases e' with
  | constant value' =>
      simp only [exprBytes, bind_pure_comp, map_eq_ok] at h h'
      obtain ⟨content, hcontent, rfl⟩ := h
      obtain ⟨content', hcontent', rfl⟩ := h'
      obtain ⟨rfl, rfl⟩ := unambiguous_value value hcontent hcontent' (List.cons.inj hs).2
      exact ⟨rfl, rfl⟩
  | _ => cases hform

theorem unambiguous_label (name : String) : Unambiguous exprBytes (.label name) := by
  intro e' w w' s s' h h' hs
  have hform := form_eq_of_append h h' hs
  cases e' with
  | label name' =>
      simp only [exprBytes, bind_pure_comp, map_eq_ok] at h h'
      obtain ⟨text, htext, rfl⟩ := h
      obtain ⟨text', htext', rfl⟩ := h'
      obtain ⟨rfl, rfl⟩ := unambiguous_text name htext htext' (List.cons.inj hs).2
      exact ⟨rfl, rfl⟩
  | _ => cases hform

theorem unambiguous_unary (op : UnaryOp) {operand : Expr}
    (hoperand : Unambiguous exprBytes operand) : Unambiguous exprBytes (.unary op operand) := by
  intro e' w w' s s' h h' hs
  have hform := form_eq_of_append h h' hs
  cases e' with
  | unary op' operand' =>
      simp only [exprBytes, bind_pure_comp, map_eq_ok] at h h'
      obtain ⟨bytes, hbytes, rfl⟩ := h
      obtain ⟨bytes', hbytes', rfl⟩ := h'
      simp only [List.cons_append, List.cons.injEq, true_and] at hs
      obtain ⟨hop, hs⟩ := hs
      obtain rfl := eq_of_tag_eq UnaryOp.ofTag?_tag hop
      obtain ⟨rfl, rfl⟩ := hoperand hbytes hbytes' hs
      exact ⟨rfl, rfl⟩
  | _ => cases hform

theorem unambiguous_arithmetic (op : ArithmeticOp) {left right : Expr}
    (hleft : Unambiguous exprBytes left) (hright : Unambiguous exprBytes right) :
    Unambiguous exprBytes (.arithmetic op left right) := by
  intro e' w w' s s' h h' hs
  have hform := form_eq_of_append h h' hs
  cases e' with
  | arithmetic op' left' right' =>
      simp only [exprBytes, bind_pure_comp, bind_eq_ok, map_eq_ok] at h h'
      obtain ⟨l, hl, r, hr, rfl⟩ := h
      obtain ⟨l', hl', r', hr', rfl⟩ := h'
      simp only [List.cons_append, List.append_assoc, List.cons.injEq, true_and] at hs
      obtain ⟨hop, hs⟩ := hs
      obtain rfl := eq_of_tag_eq ArithmeticOp.ofTag?_tag hop
      obtain ⟨rfl, hs⟩ := hleft hl hl' hs
      obtain ⟨rfl, rfl⟩ := hright hr hr' hs
      exact ⟨rfl, rfl⟩
  | _ => cases hform

theorem unambiguous_relational (op : RelationalOp) {left right : Expr}
    (hleft : Unambiguous exprBytes left) (hright : Unambiguous exprBytes right) :
    Unambiguous exprBytes (.relational op left right) := by
  intro e' w w' s s' h h' hs
  have hform := form_eq_of_append h h' hs
  cases e' with
  | relational op' left' right' =>
      simp only [exprBytes, bind_pure_comp, bind_eq_ok, map_eq_ok] at h h'
      obtain ⟨l, hl, r, hr, rfl⟩ := h
      obtain ⟨l', hl', r', hr', rfl⟩ := h'
      simp only [List.cons_append, List.append_assoc, List.cons.injEq, true_and] at hs
      obtain ⟨hop, hs⟩ := hs
      obtain rfl := eq_of_tag_eq RelationalOp.ofTag?_tag hop
      obtain ⟨rfl, hs⟩ := hleft hl hl' hs
      obtain ⟨rfl, rfl⟩ := hright hr hr' hs
      exact ⟨rfl, rfl⟩
  | _ => cases hform

theorem unambiguous_logical (op : LogicalOp) {es : List Expr}
    (hes : ∀ e ∈ es, Unambiguous exprBytes e) : Unambiguous exprBytes (.logical op es) := by
  intro e' w w' s s' h h' hs
  have hform := form_eq_of_append h h' hs
  cases e' with
  | logical op' es' =>
      simp only [exprBytes, bind_pure_comp, bind_eq_ok, map_eq_ok] at h h'
      obtain ⟨count, hcount, content, hcontent, rfl⟩ := h
      obtain ⟨count', hcount', content', hcontent', rfl⟩ := h'
      simp only [List.cons_append, List.append_assoc, List.cons.injEq, true_and] at hs
      obtain ⟨hop, hs⟩ := hs
      obtain rfl := eq_of_tag_eq LogicalOp.ofTag?_tag hop
      obtain ⟨hlength, hs⟩ := unambiguous_length _ hcount hcount' hs
      obtain ⟨rfl, rfl⟩ := eq_of_exprs_append hes hlength hcontent hcontent' hs
      exact ⟨rfl, rfl⟩
  | _ => cases hform

theorem unambiguous_list {es : List Expr} (hes : ∀ e ∈ es, Unambiguous exprBytes e) :
    Unambiguous exprBytes (.list es) := by
  intro e' w w' s s' h h' hs
  have hform := form_eq_of_append h h' hs
  cases e' with
  | list es' =>
      simp only [exprBytes, bind_pure_comp, bind_eq_ok, map_eq_ok] at h h'
      obtain ⟨count, hcount, content, hcontent, rfl⟩ := h
      obtain ⟨count', hcount', content', hcontent', rfl⟩ := h'
      simp only [List.cons_append, List.append_assoc, List.cons.injEq, true_and] at hs
      obtain ⟨hlength, hs⟩ := unambiguous_length _ hcount hcount' hs
      obtain ⟨rfl, rfl⟩ := eq_of_exprs_append hes hlength hcontent hcontent' hs
      exact ⟨rfl, rfl⟩
  | _ => cases hform

theorem unambiguous_attr {object : Expr} (hobject : Unambiguous exprBytes object) (name : String) :
    Unambiguous exprBytes (.attr object name) := by
  intro e' w w' s s' h h' hs
  have hform := form_eq_of_append h h' hs
  cases e' with
  | attr object' name' =>
      simp only [exprBytes, bind_pure_comp, bind_eq_ok, map_eq_ok] at h h'
      obtain ⟨bytes, hbytes, text, htext, rfl⟩ := h
      obtain ⟨bytes', hbytes', text', htext', rfl⟩ := h'
      simp only [List.cons_append, List.append_assoc, List.cons.injEq, true_and] at hs
      obtain ⟨rfl, hs⟩ := hobject hbytes hbytes' hs
      obtain ⟨rfl, rfl⟩ := unambiguous_text name htext htext' hs
      exact ⟨rfl, rfl⟩
  | _ => cases hform

theorem unambiguous_comprehension (binder : String) {collection : Expr}
    {filter mapping : Option Expr} (origin : Option String)
    (hcollection : Unambiguous exprBytes collection) (hfilter : Unambiguous partBytes filter)
    (hmapping : Unambiguous partBytes mapping) :
    Unambiguous exprBytes (.comprehension binder collection filter mapping origin) := by
  intro e' w w' s s' h h' hs
  have hform := form_eq_of_append h h' hs
  cases e' with
  | comprehension binder' collection' filter' mapping' origin' =>
      simp only [exprBytes, bind_pure_comp, bind_eq_ok, map_eq_ok] at h h'
      obtain ⟨text, htext, c, hc, f, hf, m, hm, o, ho, rfl⟩ := h
      obtain ⟨text', htext', c', hc', f', hf', m', hm', o', ho', rfl⟩ := h'
      simp only [List.cons_append, List.append_assoc, List.cons.injEq, true_and] at hs
      obtain ⟨rfl, hs⟩ := unambiguous_text binder htext htext' hs
      obtain ⟨rfl, hs⟩ := hcollection hc hc' hs
      obtain ⟨rfl, hs⟩ := hfilter hf hf' hs
      obtain ⟨rfl, hs⟩ := hmapping hm hm' hs
      obtain ⟨rfl, rfl⟩ := unambiguous_origin origin ho ho' hs
      exact ⟨rfl, rfl⟩
  | _ => cases hform

theorem unambiguous_quantified (quantifier : Quantifier) (binder : String) {collection : Expr}
    {filter : Option Expr} (origin : Option String)
    (hcollection : Unambiguous exprBytes collection) (hfilter : Unambiguous partBytes filter) :
    Unambiguous exprBytes (.quantified quantifier binder collection filter origin) := by
  intro e' w w' s s' h h' hs
  have hform := form_eq_of_append h h' hs
  cases e' with
  | quantified quantifier' binder' collection' filter' origin' =>
      simp only [exprBytes, bind_pure_comp, bind_eq_ok, map_eq_ok] at h h'
      obtain ⟨text, htext, c, hc, f, hf, o, ho, rfl⟩ := h
      obtain ⟨text', htext', c', hc', f', hf', o', ho', rfl⟩ := h'
      simp only [List.cons_append, List.append_assoc, List.cons.injEq, true_and] at hs
      obtain ⟨hquantifier, hs⟩ := hs
      obtain rfl := eq_of_tag_eq Quantifier.ofTag?_tag hquantifier
      obtain ⟨rfl, hs⟩ := unambiguous_text binder htext htext' hs
      obtain ⟨rfl, hs⟩ := hcollection hc hc' hs
      obtain ⟨rfl, hs⟩ := hfilter hf hf' hs
      obtain ⟨rfl, rfl⟩ := unambiguous_origin origin ho ho' hs
      exact ⟨rfl, rfl⟩
  | _ => cases hform

theorem unambiguous_reduce (accumulator binder : String) {initial collection mapping : Expr}
    (origin : Option String) (hinitial : Unambiguous exprBytes initial)
    (hcollection : Unambiguous exprBytes collection) (hmapping : Unambiguous exprBytes mapping) :
    Unambiguous exprBytes (.reduce accumulator initial binder collection mapping origin) := by
  intro e' w w' s s' h h' hs
  have hform := form_eq_of_append h h' hs
  cases e' with
  | reduce accumulator' initial' binder' collection' mapping' origin' =>
      simp only [exprBytes, bind_pure_comp, bind_eq_ok, map_eq_ok] at h h'
      obtain ⟨a, ha, i, hi, b, hb, c, hc, m, hm, o, ho, rfl⟩ := h
      obtain ⟨a', ha', i', hi', b', hb', c', hc', m', hm', o', ho', rfl⟩ := h'
      simp only [List.cons_append, List.append_assoc, List.cons.injEq, true_and] at hs
      obtain ⟨rfl, hs⟩ := unambiguous_text accumulator ha ha' hs
      obtain ⟨rfl, hs⟩ := hinitial hi hi' hs
      obtain ⟨rfl, hs⟩ := unambiguous_text binder hb hb' hs
      obtain ⟨rfl, hs⟩ := hcollection hc hc' hs
      obtain ⟨rfl, hs⟩ := hmapping hm hm' hs
      obtain ⟨rfl, rfl⟩ := unambiguous_origin origin ho ho' hs
      exact ⟨rfl, rfl⟩
  | _ => cases hform

/-- Expressions are read in one way. -/
theorem unambiguous_expr (e : Expr) : Unambiguous exprBytes e := by
  induction e using Expr.induction_on_children with
  | step e ih =>
    cases e with
    | constant value => exact unambiguous_constant value
    | label name => exact unambiguous_label name
    | unary op operand => exact unambiguous_unary op (ih operand (by simp [Expr.children]))
    | arithmetic op left right =>
        have hleft := ih left (by simp [Expr.children])
        have hright := ih right (by simp [Expr.children])
        exact unambiguous_arithmetic op hleft hright
    | relational op left right =>
        have hleft := ih left (by simp [Expr.children])
        have hright := ih right (by simp [Expr.children])
        exact unambiguous_relational op hleft hright
    | logical op es => exact unambiguous_logical op ih
    | list es => exact unambiguous_list ih
    | attr object name => exact unambiguous_attr (ih object (by simp [Expr.children])) name
    | placeholder left right =>
        intro e' w w' s s' h
        cases h
    | comprehension binder collection filter mapping origin =>
        have hcollection := ih collection (by simp [Expr.children])
        have hfilter : Unambiguous partBytes filter :=
          unambiguous_part fun e he => ih e (by simp_all [Expr.children])
        have hmapping : Unambiguous partBytes mapping :=
          unambiguous_part fun e he => ih e (by simp_all [Expr.children])
        exact unambiguous_comprehension binder origin hcollection hfilter hmapping
    | quantified quantifier binder collection filter origin =>
        have hcollection := ih collection (by simp [Expr.children])
        have hfilter : Unambiguous partBytes filter :=
          unambiguous_part fun e he => ih e (by simp_all [Expr.children])
        exact unambiguous_quantified quantifier binder origin hcollection hfilter
    | reduce accumulator initial binder collection mapping origin =>
        have hinitial := ih initial (by simp [Expr.children])
        have hcollection := ih collection (by simp [Expr.children])
        have hmapping := ih mapping (by simp [Expr.children])
        exact unambiguous_reduce accumulator binder origin hinitial hcollection hmapping

/-- No two expressions have the same wire form. -/
theorem eq_of_encode_eq {e e' : Expr} {b : List UInt8} (h : encode e = .ok b)
    (h' : encode e' = .ok b) : e = e' := by
  obtain ⟨w, hw, rfl⟩ := encode_eq_ok.1 h
  obtain ⟨w', hw', hsame⟩ := encode_eq_ok.1 h'
  have hend : w ++ [] = w' ++ [] := by rw [(List.cons.inj hsame).2]
  exact (unambiguous_expr e hw hw' hend).1

end Wire

end GraphQuery
