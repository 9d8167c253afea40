import GraphQuery.Proofs.Expr.Build
import GraphQuery.Proofs.Wire.ValueLanguage
import GraphQuery.Proofs.Wire.Writing

/-!
# The language of the decoder

The bytes that are accepted are those of the layout, for expressions whose maps may list their
entries in any order, with repetitions, and whose origins may be empty; the result is the normal
form of what is written, and it has to be legal.

## Main definitions

* `Wire.Describes`: bytes are those of an expression of bounded depth with a given normal form,
  which is legal.

## Main results

* `Wire.yields_exprReader`, `Wire.reads_exprReader`: what is read as an expression.
* `Wire.decode_encode_eq_or`: what is decoded from a wire form.
* `Wire.decode_eq_ok_iff`: what is decoded, and into what.
-/

namespace GraphQuery

namespace Wire

variable {faults : ConstructionFault → Prop} {depth : Nat}

/-! ### Parts -/

/-- Bytes are written for an expression of bounded depth; `e` is its normal form, and legal. -/
def Describes (levels : Nat) (e : Expr) (w : List UInt8) : Prop :=
  ∃ written, exprBytes written = .ok w ∧ written.depth ≤ levels ∧ written.normalize = e ∧ e.Legal

def DescribesAll (levels : Nat) (es : List Expr) (w : List UInt8) : Prop :=
  ∃ written, exprsBytes written = .ok w ∧ Expr.depthAll written ≤ levels ∧
    Expr.normalizeAll written = es ∧ ∀ e ∈ es, e.Legal

def DescribesPart (levels : Nat) (part : Option Expr) (w : List UInt8) : Prop :=
  ∃ written, partBytes written = .ok w ∧ Expr.depthPart written ≤ levels ∧
    Expr.normalizePart written = part ∧ ∀ e ∈ part, e.Legal

theorem describesAll_nil {levels : Nat} : DescribesAll levels [] [] :=
  ⟨[], rfl, Nat.zero_le _, rfl, by simp⟩

theorem describesAll_cons {levels : Nat} {e : Expr} {es : List Expr} {w w' : List UInt8}
    (he : Describes levels e w) (hes : DescribesAll levels es w') :
    DescribesAll levels (e :: es) (w ++ w') := by
  obtain ⟨first, hfirst, hdepth, rfl, hlegal⟩ := he
  obtain ⟨rest, hrest, hdepths, rfl, hlegals⟩ := hes
  exact ⟨first :: rest, by simp [exprsBytes, hfirst, hrest], Nat.max_le.2 ⟨hdepth, hdepths⟩, rfl,
    List.forall_mem_cons.2 ⟨hlegal, hlegals⟩⟩

theorem yields_exprs {levels : Nat} {field : Field} {nested : PartReader Expr}
    (h : Yields depth nested (Describes levels)) :
    Yields depth (readList field nested) fun es w => ∃ count content,
      lengthBytes es.length = .ok count ∧ DescribesAll levels es content ∧ w = count ++ content :=
  yields_list h describesAll_nil fun _ _ _ _ he hes => describesAll_cons he hes

theorem yields_part {levels : Nat} {nested : PartReader Expr}
    (h : Yields depth nested (Describes levels)) :
    Yields depth (readOptional nested) (DescribesPart levels) := by
  refine (yields_optional h).mono fun part w hpart => ?_
  rcases hpart with ⟨rfl, rfl⟩ | ⟨e, content, rfl, ⟨written, hwritten, hdepth, hnormal, hlegal⟩, rfl⟩
  · exact ⟨none, rfl, Nat.zero_le _, rfl, by simp⟩
  · refine ⟨some written, by simp [partBytes, hwritten], hdepth, congrArg some hnormal, ?_⟩
    simpa using hlegal

theorem yields_built (result : Except ConstructionFault Expr) :
    Yields depth (built result) fun e w => w = [] ∧ result = .ok e := by
  cases result with
  | ok e => exact yields_pure ⟨rfl, rfl⟩
  | error fault => exact yields_throw

/-- Taking what was built either takes it or has one of the expected faults. -/
theorem reads_built {result : Except ConstructionFault Expr} {e : Expr}
    (hok : ∀ built, result = .ok built → built = e)
    (herror : ∀ fault, result = .error fault → faults fault) :
    Reads faults depth (built result) e [] := by
  cases result with
  | ok built =>
      obtain rfl := hok built rfl
      exact reads_pure built
  | error fault => exact fun _ => .inr ⟨fault, herror fault rfl, rfl⟩

/-! ### Expressions -/

/-- If what is nested has so many levels, an expression has one more. -/
theorem yields_expr {levels : Nat} {value : PartReader Value} {nested : PartReader Expr}
    (hvalue : Yields depth value (DescribesValue levels))
    (hnested : Yields depth nested (Describes levels)) :
    Yields depth (readExpr value nested) (Describes (levels + 1)) := by
  refine (yields_symbol Form.ofTag? Form.tag tag_eq_of_find?).bind fun form w hform => ?_
  subst hform
  cases form with
  | constant =>
      refine hvalue.bind fun v w hv => yields_pure ?_
      obtain ⟨written, hwritten, hdepth, rfl⟩ := hv
      exact ⟨.constant written, by simp [exprBytes, hwritten], Nat.succ_le_succ hdepth, rfl,
        Expr.every_constant.2 trivial⟩
  | label =>
      refine yields_text.bind fun name w hname => yields_pure ?_
      exact ⟨.label name, by simp [exprBytes, hname], by simp [Expr.depth], rfl,
        Expr.every_label.2 trivial⟩
  | unary =>
      refine (yields_symbol UnaryOp.ofTag? UnaryOp.tag tag_eq_of_find?).bind fun op w hop => ?_
      subst hop
      refine hnested.bind fun operand w hoperand => yields_pure ?_
      obtain ⟨written, hwritten, hdepth, rfl, hlegal⟩ := hoperand
      exact ⟨.unary op written, by simp [exprBytes, hwritten], Nat.succ_le_succ hdepth, rfl,
        Expr.every_unary.2 ⟨trivial, hlegal⟩⟩
  | arithmetic =>
      refine (yields_symbol ArithmeticOp.ofTag? ArithmeticOp.tag tag_eq_of_find?).bind fun op w hop => ?_
      subst hop
      refine hnested.bind fun left w hleft => hnested.bind fun right w' hright => yields_pure ?_
      obtain ⟨l, hl, hdepthl, rfl, hlegall⟩ := hleft
      obtain ⟨r, hr, hdepthr, rfl, hlegalr⟩ := hright
      exact ⟨.arithmetic op l r, by simp [exprBytes, hl, hr],
        Nat.succ_le_succ (Nat.max_le.2 ⟨hdepthl, hdepthr⟩), rfl,
        Expr.every_arithmetic.2 ⟨trivial, hlegall, hlegalr⟩⟩
  | relational =>
      refine (yields_symbol RelationalOp.ofTag? RelationalOp.tag tag_eq_of_find?).bind fun op w hop => ?_
      subst hop
      refine hnested.bind fun left w hleft => hnested.bind fun right w' hright => yields_pure ?_
      obtain ⟨l, hl, hdepthl, rfl, hlegall⟩ := hleft
      obtain ⟨r, hr, hdepthr, rfl, hlegalr⟩ := hright
      exact ⟨.relational op l r, by simp [exprBytes, hl, hr],
        Nat.succ_le_succ (Nat.max_le.2 ⟨hdepthl, hdepthr⟩), rfl,
        Expr.every_relational.2 ⟨trivial, hlegall, hlegalr⟩⟩
  | logical =>
      refine (yields_symbol LogicalOp.ofTag? LogicalOp.tag tag_eq_of_find?).bind fun op w hop => ?_
      subst hop
      refine (yields_exprs hnested).bind fun operands w hoperands => ?_
      obtain ⟨count, content, hcount, ⟨written, hwritten, hdepth, rfl, hlegal⟩, rfl⟩ := hoperands
      refine (yields_built _).mono fun e w he => ?_
      obtain ⟨rfl, he⟩ := he
      obtain ⟨htwo, rfl⟩ := Expr.connective_eq_ok.1 he
      rw [Expr.length_normalizeAll] at hcount
      exact ⟨.logical op written, by simp [exprBytes, hcount, hwritten], Nat.succ_le_succ hdepth,
        rfl, Expr.every_logical.2 ⟨htwo, hlegal⟩⟩
  | list =>
      refine (yields_exprs hnested).bind fun items w hitems => yields_pure ?_
      obtain ⟨count, content, hcount, ⟨written, hwritten, hdepth, rfl, hlegal⟩, rfl⟩ := hitems
      rw [Expr.length_normalizeAll] at hcount
      exact ⟨.list written, by simp [exprBytes, hcount, hwritten], Nat.succ_le_succ hdepth, rfl,
        Expr.every_list.2 ⟨trivial, hlegal⟩⟩
  | attr =>
      refine hnested.bind fun object w hobject => yields_text.bind fun name w' hname =>
        yields_pure ?_
      obtain ⟨written, hwritten, hdepth, rfl, hlegal⟩ := hobject
      exact ⟨.attr written name, by simp [exprBytes, hwritten, hname], Nat.succ_le_succ hdepth, rfl,
        Expr.every_attr.2 ⟨trivial, hlegal⟩⟩
  | placeholder => exact yields_throw
  | comprehension =>
      refine yields_text.bind fun binder w hbinder => ?_
      refine hnested.bind fun collection wc hcollection => ?_
      refine (yields_built _).bind fun e w hbuilt => ?_
      obtain ⟨rfl, hbuilt⟩ := hbuilt
      refine (yields_part hnested).bind fun filter wf hfilter => ?_
      refine (yields_part hnested).bind fun mapping wm hmapping => ?_
      refine yields_origin.bind fun origin wo horigin => yields_pure ?_
      obtain ⟨c, hc, hdepthc, rfl, hlegalc⟩ := hcollection
      obtain ⟨f, hf, hdepthf, rfl, hlegalf⟩ := hfilter
      obtain ⟨m, hm, hdepthm, rfl, hlegalm⟩ := hmapping
      obtain ⟨o, ho, rfl⟩ := horigin
      refine ⟨.comprehension binder c f m o, by simp [exprBytes, hbinder, hc, hf, hm, ho], ?_, rfl,
        Expr.every_comprehension.2 ⟨?_, hlegalc, hlegalf, hlegalm⟩⟩
      · exact Nat.succ_le_succ (Nat.max_le.2 ⟨hdepthc, Nat.max_le.2 ⟨hdepthf, hdepthm⟩⟩)
      · exact ⟨(Expr.comprehend_eq_ok.1 hbuilt).1, Expr.bind_keptOrigin_ne o⟩
  | quantified =>
      refine (yields_symbol Quantifier.ofTag? Quantifier.tag tag_eq_of_find?).bind
        fun quantifier w hquantifier => ?_
      subst hquantifier
      refine yields_text.bind fun binder w hbinder => ?_
      refine hnested.bind fun collection wc hcollection => ?_
      refine (yields_part hnested).bind fun filter wf hfilter => ?_
      refine (yields_built _).bind fun e w hbuilt => ?_
      obtain ⟨rfl, hbuilt⟩ := hbuilt
      refine yields_origin.bind fun origin wo horigin => yields_pure ?_
      obtain ⟨c, hc, hdepthc, rfl, hlegalc⟩ := hcollection
      obtain ⟨f, hf, hdepthf, rfl, hlegalf⟩ := hfilter
      obtain ⟨o, ho, rfl⟩ := horigin
      refine ⟨.quantified quantifier binder c f o, by simp [exprBytes, hbinder, hc, hf, ho], ?_, rfl,
        Expr.every_quantified.2 ⟨?_, hlegalc, hlegalf⟩⟩
      · exact Nat.succ_le_succ (Nat.max_le.2 ⟨hdepthc, hdepthf⟩)
      · exact ⟨(Expr.quantify_eq_ok.1 hbuilt).1, Expr.bind_keptOrigin_ne o⟩
  | reduce =>
      refine yields_text.bind fun accumulator w haccumulator => ?_
      refine hnested.bind fun initial wi hinitial => ?_
      refine yields_text.bind fun binder w hbinder => ?_
      refine hnested.bind fun collection wc hcollection => ?_
      refine hnested.bind fun mapping wm hmapping => ?_
      refine (yields_built _).bind fun e w hbuilt => ?_
      obtain ⟨rfl, hbuilt⟩ := hbuilt
      refine yields_origin.bind fun origin wo horigin => yields_pure ?_
      obtain ⟨i, hi, hdepthi, rfl, hlegali⟩ := hinitial
      obtain ⟨c, hc, hdepthc, rfl, hlegalc⟩ := hcollection
      obtain ⟨m, hm, hdepthm, rfl, hlegalm⟩ := hmapping
      obtain ⟨o, ho, rfl⟩ := horigin
      obtain ⟨haccumulator', hbinder', -⟩ := Expr.reduction_eq_ok.1 hbuilt
      refine ⟨.reduce accumulator i binder c m o,
        by simp [exprBytes, haccumulator, hi, hbinder, hc, hm, ho], ?_, rfl,
        Expr.every_reduce.2 ⟨?_, hlegali, hlegalc, hlegalm⟩⟩
      · exact Nat.succ_le_succ (Nat.max_le.2 ⟨hdepthi, Nat.max_le.2 ⟨hdepthc, hdepthm⟩⟩)
      · exact ⟨haccumulator', hbinder', Expr.bind_keptOrigin_ne o⟩

theorem yields_exprReader {limit levels : Nat} (h : depth + levels = limit) :
    Yields depth (exprReader limit levels) (Describes levels) := by
  induction levels generalizing depth with
  | zero => exact yields_inside_of_le (by omega)
  | succ levels ih =>
      exact (yields_expr (yields_valueReader (by omega)) (ih (by omega))).inside (by omega)

/-- Expressions are read one after another. -/
theorem reads_exprs {nested : PartReader Expr} {es : List Expr} {w : List UInt8}
    (hw : exprsBytes es = .ok w)
    (h : ∀ e ∈ es, ∀ w, exprBytes e = .ok w → Reads faults depth nested e.normalize w) :
    Reads faults depth (Reader.times nested es.length) (Expr.normalizeAll es) w := by
  induction es generalizing w with
  | nil =>
      obtain rfl := Except.ok.inj hw
      exact reads_pure []
  | cons e es ih =>
      simp only [exprsBytes, bind_pure_comp, bind_eq_ok, map_eq_ok] at hw
      obtain ⟨first, hfirst, rest, hrest, rfl⟩ := hw
      refine (h e List.mem_cons_self first hfirst).bind ?_
      exact (ih hrest fun c hc => h c (List.mem_cons_of_mem _ hc)).map _

/-- A counted list of expressions is read as the list of their normal forms. -/
theorem reads_exprList {field : Field} {nested : PartReader Expr} {es : List Expr}
    {count content : List UInt8} (hcount : lengthBytes es.length = .ok count)
    (hcontent : exprsBytes es = .ok content)
    (h : ∀ e ∈ es, ∀ w, exprBytes e = .ok w → Reads faults depth nested e.normalize w) :
    Reads faults depth (readList field nested) (Expr.normalizeAll es) (count ++ content) := by
  have hle := length_exprs_le hcontent
  have hes := reads_exprs hcontent h
  rw [← Expr.length_normalizeAll] at hcount hle hes
  exact reads_list hcount hle hes

theorem reads_part {nested : PartReader Expr} {part : Option Expr} {w : List UInt8}
    (hw : partBytes part = .ok w)
    (h : ∀ e ∈ part, ∀ w, exprBytes e = .ok w → Reads faults depth nested e.normalize w) :
    Reads faults depth (readOptional nested) (Expr.normalizePart part) w := by
  cases part with
  | none =>
      obtain rfl := Except.ok.inj hw
      exact reads_none
  | some e =>
      simp only [partBytes, bind_pure_comp, map_eq_ok] at hw
      obtain ⟨content, hcontent, rfl⟩ := hw
      exact reads_some (h e rfl content hcontent)

/-- An expression is read, in normal form, if its constant and its direct parts are read so. What
may go wrong on the way is that it cannot be built anew. -/
theorem reads_expr {value : PartReader Value} {nested : PartReader Expr} {e : Expr}
    {w : List UInt8} (hw : exprBytes e = .ok w)
    (hfaults : ∀ fault, e.normalize.rebuild = .error fault → faults fault)
    (hvalue : ∀ v, e = .constant v → ∀ w, valueBytes v = .ok w → Reads faults depth value v.normalize w)
    (hnested : ∀ c ∈ e.children, ∀ w, exprBytes c = .ok w → Reads faults depth nested c.normalize w) :
    Reads faults depth (readExpr value nested) e.normalize w := by
  cases e with
  | constant v =>
      simp only [exprBytes, bind_pure_comp, map_eq_ok] at hw
      obtain ⟨content, hcontent, rfl⟩ := hw
      refine (reads_symbol (Form.ofTag?_tag .constant)).bind ?_
      exact (hvalue v rfl content hcontent).map Expr.constant
  | label name =>
      simp only [exprBytes, bind_pure_comp, map_eq_ok] at hw
      obtain ⟨text, htext, rfl⟩ := hw
      refine (reads_symbol (Form.ofTag?_tag .label)).bind ?_
      exact (reads_text htext).map Expr.label
  | unary op operand =>
      simp only [exprBytes, bind_pure_comp, map_eq_ok] at hw
      obtain ⟨content, hcontent, rfl⟩ := hw
      refine (reads_symbol (Form.ofTag?_tag .unary)).bind ?_
      refine (reads_symbol (UnaryOp.ofTag?_tag op)).bind ?_
      exact (hnested operand (by simp [Expr.children]) content hcontent).map (Expr.unary op)
  | arithmetic op left right =>
      simp only [exprBytes, bind_pure_comp, bind_eq_ok, map_eq_ok] at hw
      obtain ⟨l, hl, r, hr, rfl⟩ := hw
      have hleft := hnested left (by simp [Expr.children]) l hl
      have hright := hnested right (by simp [Expr.children]) r hr
      refine (reads_symbol (Form.ofTag?_tag .arithmetic)).bind ?_
      refine (reads_symbol (ArithmeticOp.ofTag?_tag op)).bind ?_
      exact hleft.bind (hright.map _)
  | relational op left right =>
      simp only [exprBytes, bind_pure_comp, bind_eq_ok, map_eq_ok] at hw
      obtain ⟨l, hl, r, hr, rfl⟩ := hw
      have hleft := hnested left (by simp [Expr.children]) l hl
      have hright := hnested right (by simp [Expr.children]) r hr
      refine (reads_symbol (Form.ofTag?_tag .relational)).bind ?_
      refine (reads_symbol (RelationalOp.ofTag?_tag op)).bind ?_
      exact hleft.bind (hright.map _)
  | logical op operands =>
      simp only [exprBytes, bind_pure_comp, bind_eq_ok, map_eq_ok] at hw
      obtain ⟨count, hcount, content, hcontent, rfl⟩ := hw
      have hoperands : Reads faults depth (readList .listElements nested) _ _ :=
        reads_exprList hcount hcontent hnested
      have hbuilt : Reads faults depth (built (Expr.connective op _)) _ [] :=
        reads_built (fun _ hok => (Expr.connective_eq_ok.1 hok).2.symm) hfaults
      refine (reads_symbol (Form.ofTag?_tag .logical)).bind ?_
      refine (reads_symbol (LogicalOp.ofTag?_tag op)).bind ?_
      exact (hoperands.bind hbuilt).of_eq (List.append_nil _)
  | list items =>
      simp only [exprBytes, bind_pure_comp, bind_eq_ok, map_eq_ok] at hw
      obtain ⟨count, hcount, content, hcontent, rfl⟩ := hw
      refine (reads_symbol (Form.ofTag?_tag .list)).bind ?_
      exact (reads_exprList hcount hcontent hnested).map Expr.list
  | attr object name =>
      simp only [exprBytes, bind_pure_comp, bind_eq_ok, map_eq_ok] at hw
      obtain ⟨content, hcontent, text, htext, rfl⟩ := hw
      refine (reads_symbol (Form.ofTag?_tag .attr)).bind ?_
      refine (hnested object (by simp [Expr.children]) content hcontent).bind ?_
      exact (reads_text htext).map _
  | placeholder left right => cases hw
  | comprehension binder collection filter mapping origin =>
      simp only [exprBytes, bind_pure_comp, bind_eq_ok, map_eq_ok] at hw
      obtain ⟨text, htext, c, hc, f, hf, m, hm, o, ho, rfl⟩ := hw
      have hfilter := reads_part hf fun e he => hnested e (by simp_all [Expr.children])
      have hmapping := reads_part hm fun e he => hnested e (by simp_all [Expr.children])
      have hbuilt : Reads faults depth
          (built (Expr.comprehend binder collection.normalize none none)) _ [] :=
        reads_built (fun _ hok => (Expr.comprehend_eq_ok.1 hok).2.symm) fun fault herror =>
          hfaults fault (Expr.comprehend_eq_error.2 (Expr.comprehend_eq_error.1 herror))
      simp only [List.append_assoc, List.cons_append]
      refine (reads_symbol (Form.ofTag?_tag .comprehension)).bind ?_
      refine (reads_text htext).bind ?_
      refine (hnested collection (by simp [Expr.children]) c hc).bind ?_
      refine hbuilt.bind ?_
      exact hfilter.bind (hmapping.bind ((reads_origin ho).map _))
  | quantified quantifier binder collection filter origin =>
      simp only [exprBytes, bind_pure_comp, bind_eq_ok, map_eq_ok] at hw
      obtain ⟨text, htext, c, hc, f, hf, o, ho, rfl⟩ := hw
      have hfilter := reads_part hf fun e he => hnested e (by simp_all [Expr.children])
      have hbuilt : Reads faults depth
          (built (Expr.quantify quantifier binder collection.normalize _)) _ [] :=
        reads_built (fun _ hok => (Expr.quantify_eq_ok.1 hok).2.symm) hfaults
      simp only [List.append_assoc, List.cons_append]
      refine (reads_symbol (Form.ofTag?_tag .quantified)).bind ?_
      refine (reads_symbol (Quantifier.ofTag?_tag quantifier)).bind ?_
      refine (reads_text htext).bind ?_
      refine (hnested collection (by simp [Expr.children]) c hc).bind (hfilter.bind ?_)
      exact hbuilt.bind ((reads_origin ho).map _)
  | reduce accumulator initial binder collection mapping origin =>
      simp only [exprBytes, bind_pure_comp, bind_eq_ok, map_eq_ok] at hw
      obtain ⟨a, ha, i, hi, b, hb, c, hc, m, hm, o, ho, rfl⟩ := hw
      have hbuilt : Reads faults depth (built (Expr.reduction accumulator initial.normalize binder
          collection.normalize mapping.normalize)) _ [] :=
        reads_built (fun _ hok => (Expr.reduction_eq_ok.1 hok).2.2.symm) hfaults
      simp only [List.append_assoc, List.cons_append]
      refine (reads_symbol (Form.ofTag?_tag .reduce)).bind ?_
      refine (reads_text ha).bind ?_
      refine (hnested initial (by simp [Expr.children]) i hi).bind ?_
      refine (reads_text hb).bind ?_
      refine (hnested collection (by simp [Expr.children]) c hc).bind ?_
      refine (hnested mapping (by simp [Expr.children]) m hm).bind ?_
      exact hbuilt.bind ((reads_origin ho).map _)

theorem reads_exprReader {limit levels : Nat} (h : depth + levels = limit) {e : Expr}
    {w : List UInt8} (hw : exprBytes e = .ok w) (hdepth : e.depth ≤ levels)
    (hfaults : e.normalize.Every fun n => ∀ fault, n.rebuild = .error fault → faults fault) :
    Reads faults depth (exprReader limit levels) e.normalize w := by
  induction levels generalizing depth e w with
  | zero => exact absurd e.depth_pos (by omega)
  | succ levels ih =>
      obtain ⟨hparts, hvalue⟩ := Expr.depth_le_succ_iff.1 hdepth
      refine (reads_expr hw hfaults.root ?_ ?_).inside (by omega)
      · exact fun v hv w hw => reads_valueReader (by omega) hw (hvalue v hv)
      · intro c hc w hw
        refine ih (by omega) hw (hparts c hc) (hfaults.of_mem_children ?_)
        rw [Expr.children_normalize]
        exact List.mem_map_of_mem hc

/-! ### Wire forms -/

theorem readRoot_eq (limit : Nat) (rest : List UInt8) :
    readRoot limit ⟨version :: rest, 0⟩ = exprReader limit limit ⟨rest, 0⟩ := rfl

theorem yields_root (limit : Nat) :
    Yields 0 (readRoot limit) fun e w => ∃ content, w = version :: content ∧
      Describes limit e content := by
  refine yields_byte.bind fun byte w hbyte => ?_
  subst hbyte
  split
  · rename_i hversion
    subst hversion
    refine (yields_exprReader (Nat.zero_add limit)).mono fun e w he => ?_
    exact ⟨w, rfl, he⟩
  · exact yields_throw

/-- The wire form of an expression of bounded depth is decoded into its normal form, unless this has
a node that cannot be built anew. -/
theorem decode_encode_eq_or {limit : Nat} {written : Expr} {bytes : List UInt8}
    (hwritten : encode written = .ok bytes) (hdepth : written.depth ≤ limit)
    (hfaults : written.normalize.Every fun n =>
      ∀ fault, n.rebuild = .error fault → faults fault) :
    decode limit bytes = .ok written.normalize ∨
      ∃ fault, faults fault ∧ decode limit bytes = .error (.construction fault) := by
  obtain ⟨w, hw, rfl⟩ := encode_eq_ok.1 hwritten
  have hread := reads_exprReader (Nat.zero_add limit) hw hdepth hfaults []
  rw [List.append_nil] at hread
  rw [decode, readRoot_eq]
  rcases hread with hok | ⟨fault, hfault, herror⟩
  · rw [hok]
    exact .inl rfl
  · rw [herror]
    exact .inr ⟨fault, hfault, rfl⟩

/-- What is decoded: the wire forms of expressions of bounded depth whose normal forms are legal;
and into what: into these normal forms. -/
theorem decode_eq_ok_iff {limit : Nat} {bytes : List UInt8} {e : Expr} :
    decode limit bytes = .ok e ↔
      ∃ written, encode written = .ok bytes ∧ written.depth ≤ limit ∧ written.normalize = e ∧
        e.Legal := by
  constructor
  · intro h
    rw [decode] at h
    split at h
    · cases h
    · rename_i found depth hroot
      obtain rfl := Except.ok.inj h
      obtain ⟨w, hbytes, -, content, rfl, written, hwritten, hdepth, hnormal, hlegal⟩ :=
        yields_root limit hroot
      rw [List.append_nil] at hbytes
      have hencode := encode_eq_ok.2 ⟨content, hwritten, hbytes.symm⟩
      exact ⟨written, hencode, hdepth, hnormal, hlegal⟩
    · cases h
  · rintro ⟨written, hwritten, hdepth, rfl, hlegal⟩
    have hnone : written.normalize.Every fun n => ∀ fault, n.rebuild = .error fault → False :=
      Expr.Every.mono hlegal fun n hn => hn.rebuild_ne_error
    rcases decode_encode_eq_or hwritten hdepth hnone with hok | ⟨fault, hfault, -⟩
    · exact hok
    · exact hfault.elim

end Wire

end GraphQuery
