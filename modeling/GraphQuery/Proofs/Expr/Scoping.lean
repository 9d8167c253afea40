import GraphQuery.Proofs.Entries
import GraphQuery.Proofs.Expr.Congruence

/-!
# Scoping

Names are scoped lexically: the outcome of an expression depends on the values of its free names
and on nothing else, and only a free name can turn out to have no value. So a name that is bound in
a part hides the outer one there, and nowhere else; and scopes that are nested are as good as
bindings that are made one after the other.

## Main results

* `Expr.freeNames_eq`: the free names by the parts in which they are free.
* `Expr.eval_congr`: lookups that agree on the free names give the same outcome.
* `Scope.lookup_flatten`: a chain of scopes and its bindings without scopes.
* `Expr.eval_lexical`: what evaluation takes from its surroundings.
-/

namespace GraphQuery

namespace Expr

/-! ### Free names by parts -/

theorem freeNamesAll_eq (es : List Expr) : freeNamesAll es = es.flatMap freeNames := by
  induction es with
  | nil => rfl
  | cons e es ih => rw [freeNamesAll, ih, List.flatMap_cons]

/-- Nothing is bound in operands. -/
theorem freeOutside_operand (owner : Expr) (position : Nat) (names : List String) :
    owner.freeOutside (.operand position) names = names := by
  have hnone : owner.boundIn (.operand position) = [] := by cases owner <;> rfl
  simp [freeOutside, hnone]

theorem flatMap_operandsFrom (owner : Expr) (position : Nat) (es : List Expr) :
    ((operandsFrom position es).flatMap fun p => owner.freeOutside p.1 p.2.freeNames) =
      es.flatMap freeNames := by
  induction es generalizing position with
  | nil => rfl
  | cons e es ih =>
      rw [operandsFrom, List.flatMap_cons, List.flatMap_cons, ih, freeOutside_operand]

/-- The free names of an expression are those of its parts that it does not bind there. -/
theorem freeNames_eq {e : Expr} (hlabel : ∀ name, e ≠ .label name) :
    e.freeNames = e.parts.flatMap fun p => e.freeOutside p.1 p.2.freeNames := by
  cases e with
  | constant | placeholder => rfl
  | label name => exact absurd rfl (hlabel name)
  | logical op operands => rw [freeNames, parts, flatMap_operandsFrom, freeNamesAll_eq]
  | list items => rw [freeNames, parts, flatMap_operandsFrom, freeNamesAll_eq]
  | comprehension binder collection filter mapping origin =>
      cases filter <;> cases mapping <;>
        simp [freeNames, freeNamesPart, parts, freeOutside, boundIn]
  | quantified quantifier binder collection filter origin =>
      cases filter <;> simp [freeNames, freeNamesPart, parts, freeOutside, boundIn]
  | _ => simp [freeNames, parts, freeOutside, boundIn]

theorem mem_freeNames_iff {e : Expr} (hlabel : ∀ name, e ≠ .label name) {name : String} :
    name ∈ e.freeNames ↔ ∃ p ∈ e.parts, name ∈ p.2.freeNames ∧ name ∉ e.boundIn p.1 := by
  simp [freeNames_eq hlabel, freeOutside]

/-! ### Names inside a node -/

variable {lookup lookup' : Lookup} {name : String}

/-- What a binding does to a name does not depend on what is outside, unless it is another name. -/
theorem bind_congr_of_ne {binder : String} {value : Value}
    (h : name ≠ binder → lookup name = lookup' name) :
    lookup.bind binder value name = lookup'.bind binder value name := by
  rw [Lookup.bind, Lookup.bind]
  split
  · rfl
  · exact h ‹_›

/-- Inside a node a name that it does not bind there has the value that it has outside, and a name
that it binds has the value that it is given. -/
theorem lookupIn_congr {owner : Expr} {slot : Slot} {acc item : Value}
    (h : name ∉ owner.boundIn slot → lookup name = lookup' name) :
    owner.lookupIn slot lookup acc item name = owner.lookupIn slot lookup' acc item name := by
  cases owner with
  | comprehension =>
      cases slot with
      | filter | mapping =>
          refine bind_congr_of_ne fun hne => h ?_
          simpa using hne
      | _ => exact h List.not_mem_nil
  | quantified quantifier binder =>
      cases slot with
      | filter =>
          refine bind_congr_of_ne fun hne => h ?_
          simp [hne]
      | _ => exact h List.not_mem_nil
  | reduce =>
      cases slot with
      | mapping =>
          refine bind_congr_of_ne fun hbinder => bind_congr_of_ne fun haccumulator => h ?_
          simp [hbinder, haccumulator]
      | _ => exact h List.not_mem_nil
  | _ => cases slot <;> exact h List.not_mem_nil

/-- Two lookups that agree on the free names of an expression give it the same outcome. -/
theorem eval_congr {e : Expr} (h : ∀ name ∈ e.freeNames, lookup name = lookup' name) :
    e.eval lookup = e.eval lookup' := by
  induction e using induction_on_children generalizing lookup lookup' with
  | step e ih =>
    obtain ⟨name, rfl⟩ | hlabel := e.eq_label_or_ne
    · have hname := h name (List.mem_singleton_self name)
      rw [eval, eval, hname]
    · have hparts : List.Forall₂ (SameOutcomes id e lookup lookup') e.parts e.children := by
        rw [← map_snd_parts, List.forall₂_map_right_iff, List.forall₂_same]
        intro p hp _ acc item
        rw [mapError_id]
        refine ih p.2 (mem_children_of_mem_parts hp) fun name hname => ?_
        refine lookupIn_congr fun hbound => h name ?_
        exact (mem_freeNames_iff hlabel).2 ⟨p, hp, hname, hbound⟩
      have hsame := eval_withChildren rewordsUnbound_id hlabel hparts
      rwa [withChildren_children, mapError_id] at hsame

/-! ### Expressions without names -/

theorem areConstant_eq (es : List Expr) : areConstant es = es.all isConstant := by
  induction es with
  | nil => rfl
  | cons e es ih => rw [areConstant, ih, List.all_cons]

/-- A constant expression has no free names. -/
theorem freeNames_of_isConstant {e : Expr} (h : e.isConstant = true) : e.freeNames = [] := by
  induction e using induction_on_children with
  | step e ih =>
    have hnone : ∀ name, e ≠ .label name := by
      rintro name rfl
      exact Bool.false_ne_true h
    have hparts : ∀ c ∈ e.children, c.isConstant = true := by
      cases e <;> simp_all [isConstant, areConstant_eq, children]
    rw [freeNames_eq hnone, List.flatMap_eq_nil_iff]
    intro p hp
    have hmem := mem_children_of_mem_parts hp
    simp [ih p.2 hmem (hparts p.2 hmem), freeOutside]

end Expr

/-! ### Scopes -/

theorem Bindings.lookup_set (bindings : Bindings) (name : String) (value : Value) :
    (bindings.set name value).lookup = bindings.lookup.bind name value := by
  funext sought
  exact Entries.lookup_insert name value sought bindings.entries

/-- A chain of scopes gives every name the value that it has when the bindings are made one after
the other. -/
theorem Scope.lookup_flatten (scope : Scope) : scope.flatten.lookup = scope.lookup := by
  induction scope with
  | root bindings => rfl
  | inner outer name value ih => rw [flatten, Bindings.lookup_set, ih, lookup]

/-- Scopes put on top of each other are bindings made one after the other. -/
theorem Scope.flatten_nest (scope : Scope) (named : List (String × Value)) :
    (scope.nest named).flatten =
      named.foldl (fun bindings entry => bindings.set entry.1 entry.2) scope.flatten := by
  induction named generalizing scope with
  | nil => rfl
  | cons entry named ih => exact ih (.inner scope entry.1 entry.2)

/-! ### What evaluation takes from its surroundings -/

/-- An expression without placeholders has the same outcome in lookups that agree on its free names.
An error is that one of these has no value, or an operator or a collection does not take what it is
given. So a constant expression has the same outcome everywhere; and scopes nested on top of
bindings are as good as the bindings in which their names are set, the outermost first. -/
theorem Expr.eval_lexical {e : Expr} (h : e.isResolved = true) :
    (∀ lookup lookup' : Lookup, (∀ name ∈ e.freeNames, lookup name = lookup' name) →
        e.eval lookup = e.eval lookup') ∧
      (∀ lookup err, e.eval lookup = .error err →
        (∃ name, err = .unbound name ∧ name ∈ e.freeNames ∧ lookup name = none) ∨
          (∃ site actual, err = .mismatch site actual) ∨
          (∃ op left right, err = .invalidOperands op left right) ∨ err = .divisionByZero) ∧
      (e.isConstant = true → ∀ lookup lookup' : Lookup, e.eval lookup = e.eval lookup') ∧
      ∀ (bindings : Bindings) (named : List (String × Value)),
        e.eval ((Scope.root bindings).nest named).lookup =
          e.eval (named.foldl (fun b entry => b.set entry.1 entry.2) bindings).lookup := by
  refine ⟨fun _ _ => eval_congr, fun lookup err herr => ?_, fun hconstant _ _ => ?_, ?_⟩
  · have hblamed := blamedOn_of_eval_eq_error herr
    cases err with
    | unbound name => exact .inl ⟨name, rfl, hblamed⟩
    | mismatch site actual => exact .inr (.inl ⟨site, actual, rfl⟩)
    | invalidOperands op left right => exact .inr (.inr (.inl ⟨op, left, right, rfl⟩))
    | divisionByZero => exact .inr (.inr (.inr rfl))
    | unresolved left right => exact absurd herr (eval_ne_unresolved h lookup left right)
  · refine eval_congr fun name hname => ?_
    rw [freeNames_of_isConstant hconstant] at hname
    exact absurd hname List.not_mem_nil
  · intro bindings named
    rw [← Scope.lookup_flatten, Scope.flatten_nest, Scope.flatten]

/-- In `[x IN x | x + y]` the variable hides the `x` that names the collection: what is free are
that one and `y`. So two scopes for them are as good as two bindings, and a scope for a third name makes
no difference. -/
theorem Expr.eval_lexical_comprehension :
    (Expr.comprehension "x" (.label "x") none
        (some (.arithmetic .add (.label "x") (.label "y"))) none).isResolved = true ∧
      (Expr.comprehension "x" (.label "x") none
          (some (.arithmetic .add (.label "x") (.label "y"))) none).eval
          ((Scope.root .empty).nest [("x", .list [.int 1]), ("y", .int 2)]).lookup =
        (Expr.comprehension "x" (.label "x") none
          (some (.arithmetic .add (.label "x") (.label "y"))) none).eval
          ((Bindings.empty.set "x" (.list [.int 1])).set "y" (.int 2)).lookup ∧
      (Expr.comprehension "x" (.label "x") none
          (some (.arithmetic .add (.label "x") (.label "y"))) none).eval
          ((Scope.root .empty).nest [("x", .list [.int 1]), ("y", .int 2)]).lookup =
        (Expr.comprehension "x" (.label "x") none
          (some (.arithmetic .add (.label "x") (.label "y"))) none).eval
          ((Scope.root .empty).nest
            [("z", .null), ("x", .list [.int 1]), ("y", .int 2)]).lookup := by
  have hresolved : (Expr.comprehension "x" (.label "x") none
      (some (.arithmetic .add (.label "x") (.label "y"))) none).isResolved = true := rfl
  obtain ⟨hagree, -, -, hscopes⟩ := eval_lexical hresolved
  refine ⟨hresolved, hscopes _ _, hagree _ _ fun name hname => ?_⟩
  have hfree : name = "x" ∨ name = "y" := by
    simpa [freeNames, freeNamesPart, freeOutside, boundIn, binders] using hname
  rcases hfree with rfl | rfl <;> rfl

end GraphQuery
