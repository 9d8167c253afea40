import GraphQuery.Proofs.Expr.Normal
import GraphQuery.Proofs.Fallible

/-!
# Checked construction

What the checks of construction let pass, and what they make of it.

## Main definitions

* `Expr.rebuild`: checked construction of an expression from what is at its root.

## Main results

* `Expr.connective_eq_ok`, `Expr.comprehend_eq_ok`, `Expr.quantify_eq_ok`, `Expr.reduction_eq_ok`:
  when an expression is built, and which.
* `Expr.wellBuilt_of_rebuild`, `Expr.WellBuilt.rebuild_ne_error`: what is built is well built, and
  what is well built can be built again.
-/

namespace GraphQuery

namespace Expr

theorem checkName_eq_ok {role : BinderRole} {name : String} {result : Unit} :
    checkName role name = .ok result ↔ name ≠ "" := by
  rw [checkName]
  by_cases h : name = "" <;> simp [h]

theorem connective_eq_ok {op : LogicalOp} {operands : List Expr} {e : Expr} :
    connective op operands = .ok e ↔ 2 ≤ operands.length ∧ .logical op operands = e := by
  rw [connective]
  split
  · rename_i h
    simp [Nat.not_le.2 h]
  · rename_i h
    simp [Nat.not_lt.1 h]

theorem comprehend_eq_ok {binder : String} {collection : Expr} {filter mapping : Option Expr}
    {e : Expr} :
    comprehend binder collection filter mapping = .ok e ↔
      binder ≠ "" ∧ .comprehension binder collection filter mapping none = e := by
  simp [comprehend, checkName_eq_ok]

/-- The other parts of a comprehension are not checked. -/
theorem comprehend_eq_error {binder : String} {collection : Expr} {filter mapping : Option Expr}
    {fault : ConstructionFault} :
    comprehend binder collection filter mapping = .error fault ↔
      checkName .comprehension binder = .error fault := by
  simp [comprehend]

theorem quantify_eq_ok {quantifier : Quantifier} {binder : String} {collection : Expr}
    {filter : Option Expr} {e : Expr} :
    quantify quantifier binder collection filter = .ok e ↔
      (if quantifier = .exists then binder = "" ∧ filter = none else binder ≠ "") ∧
        .quantified quantifier binder collection filter none = e := by
  rw [quantify]
  by_cases hquantifier : quantifier = .exists
  · by_cases hbinder : binder = "" <;> cases filter <;> simp [hquantifier, hbinder]
  · simp [hquantifier, checkName_eq_ok]

theorem reduction_eq_ok {accumulator binder : String} {initial collection mapping e : Expr} :
    reduction accumulator initial binder collection mapping = .ok e ↔
      accumulator ≠ "" ∧ binder ≠ "" ∧
        .reduce accumulator initial binder collection mapping none = e := by
  simp [reduction, checkName_eq_ok]

/-- Builds an expression anew from what is at its root, by the checked construction of its form. Its
origin is left out. -/
def rebuild : Expr → Except ConstructionFault Expr
  | .logical op operands => connective op operands
  | .comprehension binder collection filter mapping _ =>
    comprehend binder collection filter mapping
  | .quantified quantifier binder collection filter _ =>
    quantify quantifier binder collection filter
  | .reduce accumulator initial binder collection mapping _ =>
    reduction accumulator initial binder collection mapping
  | e => .ok e

/-- What is built is well built, and has the parts that it was built from. -/
theorem wellBuilt_of_rebuild {e built : Expr} (h : e.rebuild = .ok built) :
    built.WellBuilt ∧ built.children = e.children ∧ (e.ConstantSorted → built.ConstantSorted) := by
  cases e with
  | logical op operands =>
      obtain ⟨htwo, rfl⟩ := connective_eq_ok.1 h
      exact ⟨htwo, rfl, id⟩
  | comprehension binder collection filter mapping origin =>
      obtain ⟨hbinder, rfl⟩ := comprehend_eq_ok.1 h
      exact ⟨⟨hbinder, nofun⟩, rfl, id⟩
  | quantified quantifier binder collection filter origin =>
      obtain ⟨hparts, rfl⟩ := quantify_eq_ok.1 h
      exact ⟨⟨hparts, nofun⟩, rfl, id⟩
  | reduce accumulator initial binder collection mapping origin =>
      obtain ⟨haccumulator, hbinder, rfl⟩ := reduction_eq_ok.1 h
      exact ⟨⟨haccumulator, hbinder, nofun⟩, rfl, id⟩
  | _ =>
      obtain rfl := Except.ok.inj h
      exact ⟨trivial, rfl, id⟩

/-- What is well built can be built again. -/
theorem WellBuilt.rebuild_ne_error {e : Expr} (h : e.WellBuilt) (fault : ConstructionFault) :
    e.rebuild ≠ .error fault := by
  have hok : ∃ built, e.rebuild = .ok built := by
    cases e with
    | logical op operands => exact ⟨_, connective_eq_ok.2 ⟨h, rfl⟩⟩
    | comprehension => exact ⟨_, comprehend_eq_ok.2 ⟨h.1, rfl⟩⟩
    | quantified => exact ⟨_, quantify_eq_ok.2 ⟨h.1, rfl⟩⟩
    | reduce => exact ⟨_, reduction_eq_ok.2 ⟨h.1, h.2.1, rfl⟩⟩
    | _ => exact ⟨_, rfl⟩
  obtain ⟨built, hbuilt⟩ := hok
  rw [hbuilt]
  exact nofun

end Expr

end GraphQuery
