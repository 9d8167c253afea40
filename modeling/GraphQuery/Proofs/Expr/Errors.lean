import GraphQuery.Expr.Eval
import GraphQuery.Expr.Free
import GraphQuery.Proofs.Expr.Nodes
import GraphQuery.Proofs.Fallible

/-!
# The errors of evaluation

An expression has no value for one of three reasons: a free name of it has no value, it has a
placeholder, or an operator or a collection does not take the values that it is given.

## Main definitions

* `EvalError.IsOperational`: an operator or a collection is given what it does not take.
* `EvalError.BlamedOn`: an error is explained by an expression and a lookup.

## Main results

* `Expr.blamedOn_of_eval_eq_error`: every error of an evaluation is explained by the expression.
* `Expr.eval_ne_unresolved`: without placeholders no placeholder is met.
-/

namespace GraphQuery

namespace EvalError

/-- An operator or a collection is given a value that it does not take. -/
def IsOperational : EvalError → Prop
  | .mismatch .. | .invalidOperands .. | .divisionByZero => True
  | .unbound _ | .unresolved .. => False

/-- An error is explained by an expression and a lookup: the name without a value is free in the
expression, and the placeholder is in it. -/
def BlamedOn (e : Expr) (lookup : Lookup) : EvalError → Prop
  | .unbound name => name ∈ e.freeNames ∧ lookup name = none
  | .unresolved left right => .placeholder left right ∈ e.nodes
  | .mismatch .. | .invalidOperands .. | .divisionByZero => True

variable {err : EvalError} {e part : Expr} {lookup : Lookup}

theorem IsOperational.blamedOn (h : err.IsOperational) : err.BlamedOn e lookup := by
  cases err with
  | unbound | unresolved => exact h.elim
  | _ => trivial

/-- What is explained by a part is explained by the whole, unless its names are bound there. -/
theorem BlamedOn.of_part (h : err.BlamedOn part lookup) (hpart : part ∈ e.children)
    (hfree : part.freeNames ⊆ e.freeNames) : err.BlamedOn e lookup := by
  cases err with
  | unbound name => exact ⟨hfree h.1, h.2⟩
  | unresolved left right => exact Expr.mem_nodes_iff.2 (.inr ⟨part, hpart, h⟩)
  | _ => trivial

/-- A name that is bound to a value has one, so it is some other name that has none. -/
theorem BlamedOn.of_bound_part {inner : Lookup} (h : err.BlamedOn part inner)
    (hpart : part ∈ e.children)
    (hfree : ∀ name ∈ part.freeNames, inner name = none → name ∈ e.freeNames ∧ lookup name = none) :
    err.BlamedOn e lookup := by
  cases err with
  | unbound name => exact hfree name h.1 h.2
  | unresolved left right => exact Expr.mem_nodes_iff.2 (.inr ⟨part, hpart, h⟩)
  | _ => trivial

end EvalError

/-! ### Operators -/

section Operators

variable {err : EvalError}

theorem UnaryOp.isOperational_of_apply {op : UnaryOp} {v : Value} (h : op.apply v = .error err) :
    err.IsOperational := by
  cases op <;> cases v <;> simp only [apply, invalidOn, reduceCtorEq, Except.error.injEq] at h
  all_goals
    subst h
    trivial

theorem ArithmeticOp.isOperational_of_onInts {op : ArithmeticOp} {m n : Int64}
    (h : op.onInts m n = .error err) : err.IsOperational := by
  cases op with
  | add | sub | mul => exact nomatch h
  | div | mod =>
      simp only [onInts] at h
      split at h
      · obtain rfl := Except.error.inj h
        trivial
      · exact nomatch h

theorem ArithmeticOp.isOperational_of_apply {op : ArithmeticOp} {v w : Value}
    (h : op.apply v w = .error err) : err.IsOperational := by
  simp only [apply] at h
  split at h
  case h_3 => exact isOperational_of_onInts h
  all_goals
    try split at h
  all_goals first
    | obtain rfl := Except.error.inj h
      trivial
    | exact nomatch h

theorem RelationalOp.isOperational_of_apply {op : RelationalOp} {v w : Value}
    (h : op.apply v w = .error err) : err.IsOperational := by
  simp only [apply, membership, byOrder] at h
  repeat' split at h
  all_goals first
    | obtain rfl := Except.error.inj h
      trivial
    | exact nomatch h

/-- A connective fails because an operand does, or because it does not take its value. -/
theorem LogicalOp.error_of_connectFrom {op : LogicalOp} {operands : List (Thunk Outcome)}
    {sawNull parity : Bool} (h : op.connectFrom sawNull parity operands = .error err) :
    (∃ operand ∈ operands, operand.get = .error err) ∨ err.IsOperational := by
  induction operands generalizing sawNull parity with
  | nil => exact nomatch h
  | cons operand rest ih =>
      have hrest {sawNull parity : Bool} (h : op.connectFrom sawNull parity rest = .error err) :
          (∃ o ∈ operand :: rest, o.get = .error err) ∨ err.IsOperational :=
        (ih h).imp_left fun ⟨o, ho, hget⟩ => ⟨o, List.mem_cons_of_mem _ ho, hget⟩
      rw [connectFrom] at h
      split at h
      · rename_i hget
        exact .inl ⟨operand, List.mem_cons_self, hget.trans h⟩
      · exact hrest h
      · split at h
        · exact nomatch h
        · exact hrest h
      · obtain rfl := Except.error.inj h
        exact .inr trivial

theorem Value.isOperational_of_elements {v : Value} (h : v.elements = .error err) :
    err.IsOperational := by
  rw [elements] at h
  split at h
  · exact nomatch h
  · obtain rfl := Except.error.inj h
    trivial

theorem Value.isOperational_of_attr {v : Value} {name : String} (h : v.attr name = .error err) :
    err.IsOperational := by
  cases v with
  | map | null => exact nomatch h
  | _ =>
      obtain rfl := Except.error.inj h
      trivial

end Operators

/-! ### Collections -/

section Collections

variable {err : EvalError}

theorem error_of_selectImages {keep : Value → Except EvalError Bool} {image : Value → Outcome}
    {items : List Value} (h : selectImages keep image items = .error err) :
    ∃ item ∈ items, keep item = .error err ∨ image item = .error err := by
  induction items with
  | nil => exact nomatch h
  | cons item rest ih =>
      have hrest (h : selectImages keep image rest = .error err) :
          ∃ i ∈ item :: rest, keep i = .error err ∨ image i = .error err := by
        obtain ⟨i, hi, herr⟩ := ih h
        exact ⟨i, List.mem_cons_of_mem _ hi, herr⟩
      rw [selectImages, bind_eq_error] at h
      rcases h with hkeep | ⟨kept, -, h⟩
      · exact ⟨item, List.mem_cons_self, .inl hkeep⟩
      cases kept with
      | false => exact hrest h
      | true =>
          simp only [if_true, bind_pure_comp, bind_eq_error, map_eq_error] at h
          rcases h with himage | ⟨v, -, h⟩
          · exact ⟨item, List.mem_cons_self, .inr himage⟩
          · exact hrest h

theorem error_of_anyM {test : Value → Except EvalError Bool} {items : List Value}
    (h : items.anyM test = .error err) : ∃ item ∈ items, test item = .error err := by
  induction items with
  | nil => exact nomatch h
  | cons item rest ih =>
      rw [List.anyM, bind_eq_error] at h
      rcases h with hitem | ⟨found, -, h⟩
      · exact ⟨item, List.mem_cons_self, hitem⟩
      cases found with
      | true => exact nomatch h
      | false =>
          obtain ⟨i, hi, herr⟩ := ih h
          exact ⟨i, List.mem_cons_of_mem _ hi, herr⟩

theorem error_of_allM {test : Value → Except EvalError Bool} {items : List Value}
    (h : items.allM test = .error err) : ∃ item ∈ items, test item = .error err := by
  induction items with
  | nil => exact nomatch h
  | cons item rest ih =>
      rw [List.allM, bind_eq_error] at h
      rcases h with hitem | ⟨found, -, h⟩
      · exact ⟨item, List.mem_cons_self, hitem⟩
      cases found with
      | false => exact nomatch h
      | true =>
          obtain ⟨i, hi, herr⟩ := ih h
          exact ⟨i, List.mem_cons_of_mem _ hi, herr⟩

theorem error_of_exactlyOne {test : Value → Except EvalError Bool} {items : List Value}
    (h : exactlyOne test items = .error err) : ∃ item ∈ items, test item = .error err := by
  induction items with
  | nil => exact nomatch h
  | cons item rest ih =>
      have hlater (h : ∃ i ∈ rest, test i = .error err) : ∃ i ∈ item :: rest, test i = .error err :=
        h.imp fun i hi => ⟨List.mem_cons_of_mem _ hi.1, hi.2⟩
      rw [exactlyOne, bind_eq_error] at h
      rcases h with hitem | ⟨found, -, h⟩
      · exact ⟨item, List.mem_cons_self, hitem⟩
      cases found with
      | false => exact hlater (ih h)
      | true =>
          simp only [if_true, bind_pure_comp, map_eq_error] at h
          exact hlater (error_of_anyM h)

/-- A quantifier fails because its collection is none, or because its test fails. -/
theorem error_of_test {quantifier : Quantifier} {test : Value → Except EvalError Bool}
    {collection : Value} (h : quantifier.test test collection = .error err) :
    err.IsOperational ∨ ∃ item, test item = .error err := by
  have hcollection (h : collection.elements = .error err) := Value.isOperational_of_elements h
  cases quantifier with
  | «exists» => exact nomatch h
  | all =>
      rcases bind_eq_error.1 h with h | ⟨items, -, h⟩
      · exact .inl (hcollection h)
      · obtain ⟨item, -, herr⟩ := error_of_allM h
        exact .inr ⟨item, herr⟩
  | any =>
      rcases bind_eq_error.1 h with h | ⟨items, -, h⟩
      · exact .inl (hcollection h)
      · obtain ⟨item, -, herr⟩ := error_of_anyM h
        exact .inr ⟨item, herr⟩
  | single =>
      rcases bind_eq_error.1 h with h | ⟨items, -, h⟩
      · exact .inl (hcollection h)
      · obtain ⟨item, -, herr⟩ := error_of_exactlyOne h
        exact .inr ⟨item, herr⟩
  | none =>
      simp only [Quantifier.test, bind_pure_comp, bind_eq_error, map_eq_error] at h
      rcases h with h | ⟨items, -, h⟩
      · exact .inl (hcollection h)
      · obtain ⟨item, -, herr⟩ := error_of_anyM h
        exact .inr ⟨item, herr⟩

theorem error_of_foldlM {f : Value → Value → Outcome} {items : List Value} {start : Value}
    (h : items.foldlM f start = .error err) : ∃ acc, ∃ item ∈ items, f acc item = .error err := by
  induction items generalizing start with
  | nil => exact nomatch h
  | cons item rest ih =>
      rw [List.foldlM_cons, bind_eq_error] at h
      rcases h with hitem | ⟨acc, -, h⟩
      · exact ⟨start, item, List.mem_cons_self, hitem⟩
      · obtain ⟨acc', i, hi, herr⟩ := ih h
        exact ⟨acc', i, List.mem_cons_of_mem _ hi, herr⟩

end Collections

/-! ### Expressions -/

namespace Expr

variable {err : EvalError} {lookup : Lookup}

theorem mem_delayEach {es : List Expr} {delayed : Thunk Outcome}
    (h : delayed ∈ delayEach es lookup) : ∃ e ∈ es, delayed.get = e.eval lookup := by
  induction es with
  | nil => exact absurd h List.not_mem_nil
  | cons e es ih =>
      rw [delayEach] at h
      rcases List.mem_cons.1 h with rfl | h
      · exact ⟨e, List.mem_cons_self, rfl⟩
      · obtain ⟨c, hc, hget⟩ := ih h
        exact ⟨c, List.mem_cons_of_mem _ hc, hget⟩

theorem error_of_mapM_get {delayed : List (Thunk Outcome)}
    (h : delayed.mapM Thunk.get = .error err) : ∃ d ∈ delayed, d.get = .error err := by
  induction delayed with
  | nil => exact nomatch h
  | cons d rest ih =>
      simp only [List.mapM_cons, bind_pure_comp, bind_eq_error, map_eq_error] at h
      rcases h with hd | ⟨v, -, h⟩
      · exact ⟨d, List.mem_cons_self, hd⟩
      · obtain ⟨d', hd', herr⟩ := ih h
        exact ⟨d', List.mem_cons_of_mem _ hd', herr⟩

theorem freeNames_subset_all {es : List Expr} {e : Expr} (h : e ∈ es) :
    e.freeNames ⊆ freeNamesAll es := by
  induction es with
  | nil => exact absurd h List.not_mem_nil
  | cons first es ih =>
      intro name hname
      rw [freeNamesAll, List.mem_append]
      rcases List.mem_cons.1 h with rfl | h
      · exact .inl hname
      · exact .inr (ih h hname)

/-- A name without a value inside a scope is not the scope's own name, and it has none outside. -/
theorem bind_eq_none {binder name : String} {item : Value}
    (h : lookup.bind binder item name = none) : name ≠ binder ∧ lookup name = none := by
  rw [Lookup.bind] at h
  split at h
  · exact nomatch h
  · rename_i hne
    exact ⟨hne, h⟩

theorem mem_freeOutside {names : List String} {name : String} (owner : Expr) (slot : Slot)
    (hname : name ∈ names) (hbound : name ∉ owner.boundIn slot) :
    name ∈ owner.freeOutside slot names := by
  simp [freeOutside, hname, hbound]

theorem error_of_satisfies {filter : Option Expr} {otherwise : Value → Bool} {item : Value}
    (h : satisfies filter otherwise lookup item = .error err) :
    ∃ e ∈ filter, e.eval lookup = .error err := by
  cases filter with
  | none => exact nomatch h
  | some e =>
      simp only [satisfies, bind_pure_comp, map_eq_error] at h
      exact ⟨e, rfl, h⟩

theorem error_of_evalPart {mapping : Option Expr} {item : Value}
    (h : evalPart mapping lookup item = .error err) : ∃ e ∈ mapping, e.eval lookup = .error err := by
  cases mapping with
  | none => exact nomatch h
  | some e => exact ⟨e, rfl, h⟩

/-- Every error of an evaluation is explained by the expression and the lookup. -/
theorem blamedOn_of_eval_eq_error {e : Expr} (h : e.eval lookup = .error err) :
    err.BlamedOn e lookup := by
  induction e using induction_on_children generalizing lookup err with
  | step e ih =>
    cases e with
    | constant value => exact nomatch h
    | label name =>
        rw [eval] at h
        split at h
        · exact nomatch h
        · rename_i hnone
          obtain rfl := Except.error.inj h
          exact ⟨List.mem_singleton_self name, hnone⟩
    | unary op operand =>
        have hmem : operand ∈ (Expr.unary op operand).children := by simp [children]
        rw [eval, bind_eq_error] at h
        rcases h with h | ⟨v, -, h⟩
        · exact (ih operand hmem h).of_part hmem fun _ hname => hname
        · exact (UnaryOp.isOperational_of_apply h).blamedOn
    | arithmetic op left right =>
        have hleft : left ∈ (Expr.arithmetic op left right).children := by simp [children]
        have hright : right ∈ (Expr.arithmetic op left right).children := by simp [children]
        simp only [eval, bind_eq_error] at h
        rcases h with h | ⟨v, -, h | ⟨w, -, h⟩⟩
        · exact (ih left hleft h).of_part hleft (List.subset_append_left _ _)
        · exact (ih right hright h).of_part hright (List.subset_append_right _ _)
        · exact (ArithmeticOp.isOperational_of_apply h).blamedOn
    | relational op left right =>
        have hleft : left ∈ (Expr.relational op left right).children := by simp [children]
        have hright : right ∈ (Expr.relational op left right).children := by simp [children]
        simp only [eval, bind_eq_error] at h
        rcases h with h | ⟨v, -, h | ⟨w, -, h⟩⟩
        · exact (ih left hleft h).of_part hleft (List.subset_append_left _ _)
        · exact (ih right hright h).of_part hright (List.subset_append_right _ _)
        · exact (RelationalOp.isOperational_of_apply h).blamedOn
    | logical op operands =>
        rcases LogicalOp.error_of_connectFrom h with ⟨delayed, hdelayed, herr⟩ | hop
        · obtain ⟨operand, hmem, hget⟩ := mem_delayEach hdelayed
          exact (ih operand hmem (hget.symm.trans herr)).of_part hmem (freeNames_subset_all hmem)
        · exact hop.blamedOn
    | list items =>
        simp only [eval, bind_pure_comp, map_eq_error] at h
        obtain ⟨delayed, hdelayed, herr⟩ := error_of_mapM_get h
        obtain ⟨item, hmem, hget⟩ := mem_delayEach hdelayed
        exact (ih item hmem (hget.symm.trans herr)).of_part hmem (freeNames_subset_all hmem)
    | attr object name =>
        have hmem : object ∈ (Expr.attr object name).children := by simp [children]
        rw [eval, bind_eq_error] at h
        rcases h with h | ⟨v, -, h⟩
        · exact (ih object hmem h).of_part hmem fun _ hname => hname
        · exact (Value.isOperational_of_attr h).blamedOn
    | placeholder left right =>
        obtain rfl := Except.error.inj h
        exact mem_nodes_self _
    | comprehension binder collection filter mapping origin =>
        have hmem : collection ∈
            (Expr.comprehension binder collection filter mapping origin).children := by
          simp [children]
        simp only [eval, bind_pure_comp, bind_eq_error, map_eq_error] at h
        rcases h with h | ⟨v, -, h | ⟨items, -, h⟩⟩
        · refine (ih collection hmem h).of_part hmem fun _ hname => ?_
          simp [freeNames, hname]
        · exact (Value.isOperational_of_elements h).blamedOn
        obtain ⟨item, -, h | h⟩ := error_of_selectImages h
        · obtain ⟨part, rfl, hpart⟩ := error_of_satisfies h
          refine (ih part (by simp [children]) hpart).of_bound_part (by simp [children]) ?_
          intro name hname hnone
          obtain ⟨hne, hnone⟩ := bind_eq_none hnone
          have hfree := mem_freeOutside (.comprehension binder collection (some part) mapping origin)
            .filter hname (by simpa using hne)
          exact ⟨List.mem_append_left _ (List.mem_append_right _ hfree), hnone⟩
        · obtain ⟨part, rfl, hpart⟩ := error_of_evalPart h
          refine (ih part (by simp [children]) hpart).of_bound_part (by simp [children]) ?_
          intro name hname hnone
          obtain ⟨hne, hnone⟩ := bind_eq_none hnone
          have hfree := mem_freeOutside (.comprehension binder collection filter (some part) origin)
            .mapping hname (by simpa using hne)
          exact ⟨List.mem_append_right _ hfree, hnone⟩
    | quantified quantifier binder collection filter origin =>
        have hmem : collection ∈
            (Expr.quantified quantifier binder collection filter origin).children := by
          simp [children]
        simp only [eval, bind_pure_comp, bind_eq_error, map_eq_error] at h
        rcases h with h | ⟨v, -, h⟩
        · refine (ih collection hmem h).of_part hmem fun _ hname => ?_
          simp [freeNames, hname]
        rcases error_of_test h with hop | ⟨item, h⟩
        · exact hop.blamedOn
        obtain ⟨part, rfl, hpart⟩ := error_of_satisfies h
        refine (ih part (by simp [children]) hpart).of_bound_part (by simp [children]) ?_
        intro name hname hnone
        obtain ⟨hne, hnone⟩ := bind_eq_none hnone
        have hfree := mem_freeOutside (.quantified quantifier binder collection (some part) origin)
          .filter hname (by simp [hne])
        exact ⟨List.mem_append_right _ hfree, hnone⟩
    | reduce accumulator initial binder collection mapping origin =>
        have hinitial : initial ∈
            (Expr.reduce accumulator initial binder collection mapping origin).children := by
          simp [children]
        have hcollection : collection ∈
            (Expr.reduce accumulator initial binder collection mapping origin).children := by
          simp [children]
        simp only [eval, bind_eq_error] at h
        rcases h with h | ⟨start, -, h | ⟨v, -, h | ⟨items, -, h⟩⟩⟩
        · refine (ih initial hinitial h).of_part hinitial fun _ hname => ?_
          simp [freeNames, hname]
        · refine (ih collection hcollection h).of_part hcollection fun _ hname => ?_
          simp [freeNames, hname]
        · exact (Value.isOperational_of_elements h).blamedOn
        obtain ⟨acc, item, -, h⟩ := error_of_foldlM h
        refine (ih mapping (by simp [children]) h).of_bound_part (by simp [children]) ?_
        intro name hname hnone
        obtain ⟨hne, hnone⟩ := bind_eq_none hnone
        obtain ⟨hne', hnone⟩ := bind_eq_none hnone
        have hfree := mem_freeOutside
          (.reduce accumulator initial binder collection mapping origin) .mapping hname
          (by simp [hne, hne'])
        exact ⟨List.mem_append_right _ hfree, hnone⟩

/-- Without placeholders no evaluation meets one. -/
theorem eval_ne_unresolved {e : Expr} (h : e.isResolved = true) (lookup : Lookup)
    (left right : String) : e.eval lookup ≠ .error (.unresolved left right) := by
  intro herr
  have hmem : .placeholder left right ∈ e.nodes := blamedOn_of_eval_eq_error herr
  have hresolved := List.all_eq_true.1 h _ hmem
  simp [isPlaceholder] at hresolved

end Expr

end GraphQuery
