import GraphQuery.Proofs.Expr.Build
import GraphQuery.Proofs.Expr.Parts

/-!
# What edits change

An edit puts something in one place of an expression. The direct parts are then those from before
and what was put in; and the root stays well built, except that a filter may be set on `exists`.

## Main definitions

* `Expr.FiltersExists`: an expression is an `exists` with a filter.
* `Expr.BuiltUpToFilter`: an expression is well built at its root, or would be without a filter of
  `exists`.
* `Expr.FilterFits`: a filter is not set on `exists`.
* `Expr.NamesElements`: a predicate has a name for the elements that it tests.

## Main results

* `Expr.wellBuilt_iff`: what is missing to be well built.
* `Expr.BuiltUpToFilter.fault_eq`: the one fault that is possible in building it anew.
* `Expr.replace?_eq_some`, `Expr.setOrigin?_eq_some`, `Expr.setFilter?_eq_some`,
  `Expr.setMapping?_eq_some`: what becomes of an expression that is edited.
-/

namespace GraphQuery

namespace Expr

/-! ### Filters of `exists` -/

/-- An expression is an `exists` with a filter. -/
def FiltersExists : Expr → Prop
  | .quantified quantifier _ _ filter _ => quantifier = .exists ∧ filter ≠ none
  | _ => False

/-- An expression is well built at its root, a filter of `exists` apart. -/
def BuiltUpToFilter : Expr → Prop
  | .quantified quantifier binder _ _ origin =>
    (if quantifier = .exists then binder = "" else binder ≠ "") ∧ origin ≠ some ""
  | e => e.WellBuilt

/-- A filter may be set on an expression that is not an `exists`, and removed from any. -/
def FilterFits : Expr → Option Expr → Prop
  | .quantified quantifier _ _ _ _, filter => quantifier = .exists → filter = none
  | _, _ => True

/-- A predicate that tests the elements of its collection has a name for them. Construction checks
it, and no edit of the parts changes it. -/
def NamesElements : Expr → Prop
  | .quantified quantifier binder .. => quantifier ≠ .exists → binder ≠ ""
  | _ => True

theorem wellBuilt_iff {e : Expr} : e.WellBuilt ↔ e.BuiltUpToFilter ∧ ¬ e.FiltersExists := by
  cases e with
  | quantified quantifier binder collection filter origin =>
      by_cases h : quantifier = .exists <;> simp [WellBuilt, BuiltUpToFilter, FiltersExists, h]
      tauto
  | _ => simp [BuiltUpToFilter, FiltersExists]

theorem BuiltUpToFilter.namesElements {e : Expr} (h : e.BuiltUpToFilter) : e.NamesElements := by
  cases e with
  | quantified quantifier binder collection filter origin =>
      intro hquantifier
      simpa [hquantifier] using h.1
  | _ => trivial

theorem BuiltUpToFilter.origin?_ne {e : Expr} (h : e.BuiltUpToFilter) : e.origin? ≠ some "" := by
  cases e with
  | quantified => exact h.2
  | _ => exact WellBuilt.origin?_ne h

/-- The one fault that is possible in building it anew. -/
theorem BuiltUpToFilter.fault_eq {e : Expr} (h : e.BuiltUpToFilter) {fault : ConstructionFault}
    (hfault : e.rebuild = .error fault) : fault = .existsWithParts := by
  by_cases hfilter : e.FiltersExists
  · cases e with
    | quantified quantifier binder collection filter origin =>
        obtain ⟨rfl, hsome⟩ := hfilter
        obtain ⟨f, rfl⟩ := Option.ne_none_iff_exists'.1 hsome
        have hthrow : rebuild (.quantified .exists binder collection (some f) origin) =
            .error .existsWithParts := by simp [rebuild, quantify, throw, throwThe, MonadExceptOf.throw]
        rw [hthrow] at hfault
        exact (Except.error.inj hfault).symm
    | _ => exact hfilter.elim
  · exact absurd hfault ((wellBuilt_iff.2 ⟨h, hfilter⟩).rebuild_ne_error fault)

/-! ### Exchanged parts -/

theorem SameRoot.filtersExists_iff {e e' : Expr} (h : SameRoot e e') :
    e.FiltersExists ↔ e'.FiltersExists := by
  cases h with
  | quantified quantifier binder a b origin hfilter =>
      simp only [FiltersExists, ← Option.isSome_iff_ne_none, hfilter]
  | _ => exact Iff.rfl

theorem SameRoot.builtUpToFilter_iff {e e' : Expr} (h : SameRoot e e') :
    e.BuiltUpToFilter ↔ e'.BuiltUpToFilter := by
  cases h with
  | logical op hlength => simp only [BuiltUpToFilter, WellBuilt, hlength]
  | _ => exact Iff.rfl

theorem SameRoot.constantSorted_iff {e e' : Expr} (h : SameRoot e e') :
    e.ConstantSorted ↔ e'.ConstantSorted := by
  cases h <;> exact Iff.rfl

/-- What is put into a slot takes the place of a part. -/
theorem replace?_eq_some {e e' part : Expr} {slot : Slot} (h : e.replace? slot part = some e') :
    SameRoot e e' ∧ ∀ c ∈ e'.children, c ∈ e.children ∨ c = part := by
  cases e with
  | placeholder left right =>
      cases slot <;> cases part <;> simp [replace?] at h
      all_goals
        subst h
        exact ⟨.placeholder _ _ _ _, fun c hc => absurd hc List.not_mem_nil⟩
  | comprehension binder collection filter mapping origin =>
      cases slot <;> cases filter <;> cases mapping <;> simp [replace?] at h
      all_goals
        subst h
        exact ⟨.comprehension _ _ _ _ rfl rfl, by simp [children]⟩
  | quantified quantifier binder collection filter origin =>
      cases slot <;> cases filter <;> simp [replace?] at h
      all_goals
        subst h
        exact ⟨.quantified _ _ _ _ _ rfl, by simp [children]⟩
  | reduce accumulator initial binder collection mapping origin =>
      cases slot <;> simp [replace?] at h
      all_goals
        subst h
        exact ⟨.reduce _ _ _ _ _ _ _ _ _, by simp [children]⟩
  | _ => cases slot <;> cases h

/-! ### Origins, filters and mappings -/

/-- An origin that is set is not empty, and the parts stay as they are. -/
theorem setOrigin?_eq_some {e e' : Expr} {origin : String} (h : e.setOrigin? origin = some e') :
    e'.children = e.children ∧ (e.BuiltUpToFilter → e'.BuiltUpToFilter) ∧
      (e.FiltersExists ↔ e'.FiltersExists) ∧ e'.ConstantSorted := by
  have hkept : keptOrigin origin ≠ some "" := bind_keptOrigin_ne (some origin)
  cases e with
  | comprehension =>
      obtain rfl := Option.some.inj h
      exact ⟨rfl, fun hbuilt => ⟨hbuilt.1, hkept⟩, Iff.rfl, trivial⟩
  | quantified =>
      obtain rfl := Option.some.inj h
      exact ⟨rfl, fun hbuilt => ⟨hbuilt.1, hkept⟩, Iff.rfl, trivial⟩
  | reduce =>
      obtain rfl := Option.some.inj h
      exact ⟨rfl, fun hbuilt => ⟨hbuilt.1, hbuilt.2.1, hkept⟩, Iff.rfl, trivial⟩
  | _ => cases h

/-- A filter that is set is the only new part; it is the only thing that may not fit. -/
theorem setFilter?_eq_some {e e' : Expr} {filter : Option Expr}
    (h : e.setFilter? filter = some e') :
    (∀ c ∈ e'.children, c ∈ e.children ∨ c ∈ filter) ∧
      (e.BuiltUpToFilter → e'.BuiltUpToFilter) ∧
      (e.FilterFits filter ↔ ¬ e'.FiltersExists) ∧ e'.ConstantSorted := by
  cases e with
  | comprehension =>
      obtain rfl := Option.some.inj h
      refine ⟨?_, id, ⟨fun _ => id, fun _ => trivial⟩, trivial⟩
      simp only [children, List.cons_append, List.mem_cons, List.mem_append, Option.mem_toList]
      tauto
  | quantified quantifier binder collection _ origin =>
      obtain rfl := Option.some.inj h
      refine ⟨?_, id, ?_, trivial⟩
      · simp only [children, List.mem_cons, Option.mem_toList]
        tauto
      · simp only [FilterFits, FiltersExists, not_and, not_not]
  | _ => cases h

/-- A mapping that is set is the only new part, and always fits. -/
theorem setMapping?_eq_some {e e' : Expr} {mapping : Option Expr}
    (h : e.setMapping? mapping = some e') :
    (∀ c ∈ e'.children, c ∈ e.children ∨ c ∈ mapping) ∧
      (e.BuiltUpToFilter → e'.BuiltUpToFilter) ∧ ¬ e'.FiltersExists ∧ e'.ConstantSorted := by
  cases e with
  | comprehension =>
      obtain rfl := Option.some.inj h
      refine ⟨?_, id, id, trivial⟩
      simp only [children, List.cons_append, List.mem_cons, List.mem_append, Option.mem_toList]
      tauto
  | _ => cases h

end Expr

end GraphQuery
