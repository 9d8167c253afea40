import GraphQuery.Proofs.Expr.Errors
import GraphQuery.Proofs.Expr.Parts

/-!
# Evaluation by parts

The outcome of an expression depends on its parts only through their outcomes, in the lookups in
which the expression evaluates them. If every part is exchanged for one with the same outcomes
there, then the whole keeps its outcome too. The same holds if the outcomes are the same but for
another account of names that have no value.

## Main definitions

* `RewordsUnbound`: an account of errors that differs on names without a value only.
* `Expr.Evaluates`, `Expr.lookupIn`: whether a node evaluates the part in a slot, and in which
  lookup.
* `Expr.SameOutcomes`: what is put in place of a part has its outcomes.

## Main results

* `Expr.eval_withChildren`: the outcome of an expression whose parts are exchanged.
-/

namespace GraphQuery

/-- Another account of errors that differs on names without a value only. -/
def RewordsUnbound (g : EvalError → EvalError) : Prop :=
  ∀ err, (∀ name, err ≠ .unbound name) → g err = err

variable {g : EvalError → EvalError}

theorem rewordsUnbound_id : RewordsUnbound id := fun _ _ => rfl

/-- Where only operators and collections can fail, the account stays the same. -/
theorem RewordsUnbound.mapError_eq {α : Type} (hg : RewordsUnbound g) {x : Except EvalError α}
    (h : ∀ err, x = .error err → err.IsOperational) : x.mapError g = x := by
  refine mapError_eq_self fun err herr => hg err ?_
  rintro name rfl
  exact h _ herr

/-! ### Loops -/

section Loops

theorem mapError_selectImages {keep keep' : Value → Except EvalError Bool}
    {image image' : Value → Outcome} (hkeep : ∀ item, (keep item).mapError g = keep' item)
    (himage : ∀ item, (image item).mapError g = image' item) (items : List Value) :
    (selectImages keep image items).mapError g = selectImages keep' image' items := by
  induction items with
  | nil => rfl
  | cons item rest ih =>
      simp only [selectImages, mapError_bind, hkeep]
      refine bind_congr fun kept => ?_
      cases kept with
      | false => exact ih
      | true => simp [himage, ih]

variable {test test' : Value → Except EvalError Bool}

theorem mapError_anyM (h : ∀ item, (test item).mapError g = test' item) (items : List Value) :
    (items.anyM test).mapError g = items.anyM test' := by
  induction items with
  | nil => rfl
  | cons item rest ih =>
      simp only [List.anyM, mapError_bind, h]
      refine bind_congr fun found => ?_
      cases found with
      | true => rfl
      | false => exact ih

theorem mapError_allM (h : ∀ item, (test item).mapError g = test' item) (items : List Value) :
    (items.allM test).mapError g = items.allM test' := by
  induction items with
  | nil => rfl
  | cons item rest ih =>
      simp only [List.allM, mapError_bind, h]
      refine bind_congr fun found => ?_
      cases found with
      | true => exact ih
      | false => rfl

theorem mapError_exactlyOne (h : ∀ item, (test item).mapError g = test' item)
    (items : List Value) : (exactlyOne test items).mapError g = exactlyOne test' items := by
  induction items with
  | nil => rfl
  | cons item rest ih =>
      simp only [exactlyOne, mapError_bind, h]
      refine bind_congr fun found => ?_
      cases found with
      | true => simp [mapError_anyM h]
      | false => exact ih

theorem mapError_foldlM {f f' : Value → Value → Outcome}
    (h : ∀ acc item, (f acc item).mapError g = f' acc item) (items : List Value) (start : Value) :
    (items.foldlM f start).mapError g = items.foldlM f' start := by
  induction items generalizing start with
  | nil => rfl
  | cons item rest ih => simp only [List.foldlM_cons, mapError_bind, h, ih]

theorem mapError_elements (hg : RewordsUnbound g) (v : Value) :
    v.elements.mapError g = v.elements :=
  hg.mapError_eq fun _ => Value.isOperational_of_elements

/-- All quantifiers but `exists` ask their test. -/
theorem mapError_test (hg : RewordsUnbound g) {quantifier : Quantifier}
    (h : quantifier ≠ .exists → ∀ item, (test item).mapError g = test' item) (collection : Value) :
    (quantifier.test test collection).mapError g = quantifier.test test' collection := by
  cases quantifier with
  | «exists» => rfl
  | all => simp [Quantifier.test, mapError_elements hg, mapError_allM (h (by decide))]
  | any => simp [Quantifier.test, mapError_elements hg, mapError_anyM (h (by decide))]
  | single => simp [Quantifier.test, mapError_elements hg, mapError_exactlyOne (h (by decide))]
  | none => simp [Quantifier.test, mapError_elements hg, mapError_anyM (h (by decide))]

end Loops

/-! ### Delayed outcomes -/

/-- Delayed outcomes are the same one by one. -/
def SameDelayed (g : EvalError → EvalError) : List (Thunk Outcome) → List (Thunk Outcome) → Prop :=
  List.Forall₂ fun d d' => d.get.mapError g = d'.get

theorem mapError_connectFrom (hg : RewordsUnbound g) {op : LogicalOp}
    {operands operands' : List (Thunk Outcome)} (h : SameDelayed g operands operands')
    (sawNull parity : Bool) :
    (op.connectFrom sawNull parity operands).mapError g =
      op.connectFrom sawNull parity operands' := by
  induction h generalizing sawNull parity with
  | nil => rfl
  | @cons d d' _ _ hget _ ih =>
      rw [LogicalOp.connectFrom, LogicalOp.connectFrom, ← hget]
      cases d.get with
      | error e => rfl
      | ok v =>
        cases v with
        | null => exact ih true parity
        | bool b =>
            cases hdecides : op.decides b with
            | true => simp [Except.mapError, hdecides]
            | false => simpa [Except.mapError, hdecides] using ih sawNull (parity != b)
        | _ => exact congrArg Except.error (hg _ fun _ => EvalError.noConfusion)

theorem mapError_mapM_get {delayed delayed' : List (Thunk Outcome)}
    (h : SameDelayed g delayed delayed') :
    (delayed.mapM Thunk.get).mapError g = delayed'.mapM Thunk.get := by
  induction h with
  | nil => rfl
  | cons hget _ ih => simp [List.mapM_cons, hget, ih]

/-! ### Expressions -/

namespace Expr

/-- A node evaluates the part in a slot, if it is asked for; `exists` never asks for a filter. -/
def Evaluates : Expr → Slot → Prop
  | .quantified quantifier .., .filter => quantifier ≠ .exists
  | _, _ => True

/-- The lookup in which a node evaluates the part in a slot, at an element of its collection and
with a value accumulated before. -/
def lookupIn (e : Expr) (slot : Slot) (lookup : Lookup) (acc item : Value) : Lookup :=
  match e, slot with
  | .comprehension binder .., .filter | .comprehension binder .., .mapping =>
    lookup.bind binder item
  | .quantified _ binder .., .filter => lookup.bind binder item
  | .reduce accumulator _ binder .., .mapping => (lookup.bind accumulator acc).bind binder item
  | _, _ => lookup

/-- Another expression has the outcomes of the part of a node, wherever the node evaluates it. -/
def SameOutcomes (g : EvalError → EvalError) (owner : Expr) (lookup lookup' : Lookup)
    (p : Slot × Expr) (c : Expr) : Prop :=
  owner.Evaluates p.1 → ∀ acc item,
    (p.2.eval (owner.lookupIn p.1 lookup acc item)).mapError g =
      c.eval (owner.lookupIn p.1 lookup' acc item)

variable {lookup lookup' : Lookup} {R : Expr → Expr → Prop}

theorem mapError_satisfies (hR : ∀ e c, R e c → (e.eval lookup).mapError g = c.eval lookup')
    {filter filter' : Option Expr} (h : Option.Rel R filter filter') (otherwise : Value → Bool)
    (item : Value) :
    (satisfies filter otherwise lookup item).mapError g =
      satisfies filter' otherwise lookup' item := by
  cases h with
  | none => rfl
  | some h => simp [satisfies, hR _ _ h]

theorem mapError_evalPart (hR : ∀ e c, R e c → (e.eval lookup).mapError g = c.eval lookup')
    {mapping mapping' : Option Expr} (h : Option.Rel R mapping mapping') (item : Value) :
    (evalPart mapping lookup item).mapError g = evalPart mapping' lookup' item := by
  cases h with
  | none => rfl
  | some h => exact hR _ _ h

theorem mapError_binary {x x' y y' : Outcome} {f : Value → Value → Outcome}
    (hx : x.mapError g = x') (hy : y.mapError g = y')
    (hf : ∀ v w, (f v w).mapError g = f v w) :
    (x >>= fun v => y >>= f v).mapError g = x' >>= fun v => y' >>= f v := by
  simp [hx, hy, hf]

theorem evaluates_operand (owner : Expr) (position : Nat) :
    owner.Evaluates (.operand position) := by
  cases owner <;> trivial

theorem lookupIn_operand (owner : Expr) (position : Nat) (lookup : Lookup) (acc item : Value) :
    owner.lookupIn (.operand position) lookup acc item = lookup := by
  cases owner <;> rfl

theorem sameDelayed_operandsFrom {owner : Expr} {position : Nat} {es cs : List Expr}
    (h : List.Forall₂ (SameOutcomes g owner lookup lookup') (operandsFrom position es) cs) :
    SameDelayed g (delayEach es lookup) (delayEach cs lookup') := by
  induction es generalizing position cs with
  | nil =>
      cases h
      exact .nil
  | cons e es ih =>
      cases h with
      | cons hfirst hrest =>
          refine .cons ?_ (ih hrest)
          have hsame := hfirst (evaluates_operand owner position) .null .null
          rwa [lookupIn_operand, lookupIn_operand] at hsame

/-- An expression whose parts are exchanged for others with the same outcomes has the outcome that
it had. -/
theorem eval_withChildren (hg : RewordsUnbound g) {e : Expr} {cs : List Expr}
    (hlabel : ∀ name, e ≠ .label name)
    (h : List.Forall₂ (SameOutcomes g e lookup lookup') e.parts cs) :
    (e.eval lookup).mapError g = (e.withChildren cs).eval lookup' := by
  cases e with
  | constant value => rfl
  | label name => exact absurd rfl (hlabel name)
  | placeholder left right => exact congrArg Except.error (hg _ fun _ => EvalError.noConfusion)
  | unary op operand =>
      simp only [parts, List.forall₂_cons_left_iff, List.forall₂_nil_left_iff] at h
      obtain ⟨c, _, hc, rfl, rfl⟩ := h
      have hsame : (operand.eval lookup).mapError g = c.eval lookup' := hc trivial .null .null
      have happly (v : Value) : (op.apply v).mapError g = op.apply v :=
        hg.mapError_eq fun _ => UnaryOp.isOperational_of_apply
      simp [eval, withChildren, hsame, happly]
  | arithmetic op left right =>
      simp only [parts, List.forall₂_cons_left_iff, List.forall₂_nil_left_iff] at h
      obtain ⟨c, _, hc, ⟨d, _, hd, rfl, rfl⟩, rfl⟩ := h
      exact mapError_binary (hc trivial .null .null) (hd trivial .null .null) fun _ _ =>
        hg.mapError_eq fun _ => ArithmeticOp.isOperational_of_apply
  | relational op left right =>
      simp only [parts, List.forall₂_cons_left_iff, List.forall₂_nil_left_iff] at h
      obtain ⟨c, _, hc, ⟨d, _, hd, rfl, rfl⟩, rfl⟩ := h
      exact mapError_binary (hc trivial .null .null) (hd trivial .null .null) fun _ _ =>
        hg.mapError_eq fun _ => RelationalOp.isOperational_of_apply
  | logical op operands =>
      exact mapError_connectFrom hg (sameDelayed_operandsFrom h) false false
  | list items =>
      have hitems := mapError_mapM_get (sameDelayed_operandsFrom h)
      simp [eval, withChildren, hitems]
  | attr object name =>
      simp only [parts, List.forall₂_cons_left_iff, List.forall₂_nil_left_iff] at h
      obtain ⟨c, _, hc, rfl, rfl⟩ := h
      have hsame : (object.eval lookup).mapError g = c.eval lookup' := hc trivial .null .null
      have hattr (v : Value) : (v.attr name).mapError g = v.attr name :=
        hg.mapError_eq fun _ => Value.isOperational_of_attr
      simp [eval, withChildren, hsame, hattr]
  | comprehension binder collection filter mapping origin =>
      obtain ⟨c, f, m, hc, hf, hm, hsame⟩ := forall₂_parts_comprehension h
      have hcollection : (collection.eval lookup).mapError g = c.eval lookup' :=
        hc trivial .null .null
      have hkeep (item : Value) :
          (satisfies filter (fun _ => true) (lookup.bind binder item) item).mapError g =
            satisfies f (fun _ => true) (lookup'.bind binder item) item :=
        mapError_satisfies (fun _ _ h => h trivial .null item) hf _ item
      have himage (item : Value) : (evalPart mapping (lookup.bind binder item) item).mapError g =
          evalPart m (lookup'.bind binder item) item :=
        mapError_evalPart (fun _ _ h => h trivial .null item) hm item
      simp [hsame, eval, hcollection, mapError_elements hg, mapError_selectImages hkeep himage]
  | quantified quantifier binder collection filter origin =>
      obtain ⟨c, f, hc, hf, hsame⟩ := forall₂_parts_quantified h
      have hcollection : (collection.eval lookup).mapError g = c.eval lookup' :=
        hc trivial .null .null
      have htest (hquantifier : quantifier ≠ .exists) (item : Value) :
          (satisfies filter Value.isTruthy (lookup.bind binder item) item).mapError g =
            satisfies f Value.isTruthy (lookup'.bind binder item) item :=
        mapError_satisfies (fun _ _ h => h hquantifier .null item) hf _ item
      simp [hsame, eval, hcollection, mapError_test hg htest]
  | reduce accumulator initial binder collection mapping origin =>
      simp only [parts, List.forall₂_cons_left_iff, List.forall₂_nil_left_iff] at h
      obtain ⟨i, _, hi, ⟨c, _, hc, ⟨m, _, hm, rfl, rfl⟩, rfl⟩, rfl⟩ := h
      have hinitial : (initial.eval lookup).mapError g = i.eval lookup' := hi trivial .null .null
      have hcollection : (collection.eval lookup).mapError g = c.eval lookup' :=
        hc trivial .null .null
      have hmapping (acc item : Value) :
          (mapping.eval ((lookup.bind accumulator acc).bind binder item)).mapError g =
            m.eval ((lookup'.bind accumulator acc).bind binder item) := hm trivial acc item
      simp [eval, withChildren, hinitial, hcollection, mapError_elements hg,
        mapError_foldlM hmapping]

end Expr

end GraphQuery
