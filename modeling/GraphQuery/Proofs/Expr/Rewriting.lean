import GraphQuery.Expr.Free
import GraphQuery.Expr.Rename
import GraphQuery.Expr.Resolve
import GraphQuery.Proofs.Expr.Traverse

/-!
# Renaming and resolving

Renaming and resolving only count in their states, so what they make of an expression is what they
make of its parts. Neither sees what the other is about: a renaming passes by the left name of a
placeholder, which becomes a label when the placeholder is resolved. So their order matters, and it
matters exactly where the name that is renamed stands free on the left of a placeholder.

## Main definitions

* `Traversal.Decides`: which parts are visited and what is replaced, whatever the state.
* `Expr.HasFreePlaceholder`: a name stands free on the left of a placeholder.

## Main results

* `Expr.renamesIn_iff`: a renaming goes into the parts in which the name is not bound, by a lemma
  for each form of node that binds names.
* `Expr.traverse_of_decides`: such a traversal by what it makes of the parts.
* `Expr.rename_eq`, `Expr.resolve_eq`: renaming and resolving by parts.
* `Expr.resolve_rename_eq_iff`: when renaming and resolving can be exchanged.
-/

namespace GraphQuery

variable {σ : Type}

/-- What a traversal does at a node is decided by the node; its state only takes note. -/
structure Traversal.Decides (t : Traversal σ) (visits : Expr → Expr.Slot → Bool)
    (replacement : Expr → Option Expr) : Prop where
  descends : ∀ e slot s, ((t.descends e slot).run s).1 = visits e slot
  leave : ∀ e s, ((t.leave e).run s).1 = replacement e

section Decides

variable {t : Traversal σ} {visits : Expr → Expr.Slot → Bool} {replacement : Expr → Option Expr}

/-- From whatever state it starts, the traversal does the same. -/
theorem Traversal.Decides.simulates (h : t.Decides visits replacement) :
    t.Simulates (fun _ _ => True) t where
  enter _ := fun _ _ _ => ⟨rfl, trivial⟩
  descends e slot := fun s s' _ =>
    ⟨(h.descends e slot s).trans (h.descends e slot s').symm, trivial⟩
  leave e := fun s s' _ => ⟨(h.leave e s).trans (h.leave e s').symm, trivial⟩

theorem Traversal.Decides.run_visitParts (h : t.Decides visits replacement) (owner : Expr)
    (start s : σ) (parts : List (Expr.Slot × Expr)) :
    ((t.visitParts owner parts).run s).1 = parts.map fun p =>
      if visits owner p.1 then ((p.2.traverse t).run start).1.1 else p.2 := by
  induction parts generalizing s with
  | nil => rfl
  | cons part parts ih =>
      have hpart : ((t.visitPart owner part.1 part.2 (part.2.traverse t)).run s).1 =
          if visits owner part.1 then ((part.2.traverse t).run start).1.1 else part.2 := by
        rw [visitPart, run_bind_eq, h.descends]
        cases visits owner part.1 with
        | false => rfl
        | true =>
            obtain ⟨hresult, -⟩ := Expr.traverse_simulates h.simulates part.2
              ((t.descends owner part.1).run s).2 start trivial
            exact congrArg Prod.fst hresult
      rw [visitParts, run_bind_eq, run_bind_eq, List.map_cons, ← hpart, ← ih]
      rfl

/-- An expression as it stands when its parts were visited. -/
def Traversal.standing (t : Traversal σ) (visits : Expr → Expr.Slot → Bool) (s : σ) (e : Expr) :
    Expr :=
  e.mapParts fun p => if visits e p.1 then ((p.2.traverse t).run s).1.1 else p.2

/-- What such a traversal makes of an expression, by what it makes of the parts. -/
theorem Expr.traverse_of_decides (h : t.Decides visits replacement) (e : Expr) (s : σ) :
    ((e.traverse t).run s).1.1 =
      (replacement (t.standing visits s e)).getD (t.standing visits s e) := by
  have hparts : (t.visitParts e e.parts).run ((t.enter e).run s).2 =
      (e.parts.map fun p => if visits e p.1 then ((p.2.traverse t).run s).1.1 else p.2, _) :=
    Prod.ext (h.run_visitParts e s _ e.parts) rfl
  rw [run_traverse hparts (Prod.ext (h.leave _ _) rfl)]
  rfl

end Decides

namespace Expr

/-! ### Where a renaming goes

Each form of node that binds names has its own condition for leaving a part alone. All of them come
to the same: the name is bound in this part. -/

section Handlers

variable {source binder accumulator : String} {collection initial : Expr} {filter : Option Expr}
  {origin : Option String} {p : Slot × Expr}

theorem renamesIn_comprehension_iff {mapping : Option Expr}
    (hp : p ∈ (comprehension binder collection filter mapping origin).parts) :
    (comprehension binder collection filter mapping origin).renamesIn source p.1 = true ↔
      source ∉ (comprehension binder collection filter mapping origin).boundIn p.1 := by
  have hslot : p.1 = .collection ∨ p.1 = .filter ∨ p.1 = .mapping := by
    simp only [parts, List.cons_append, List.mem_cons, List.mem_append, List.mem_map] at hp
    obtain rfl | ⟨e, -, rfl⟩ | ⟨e, -, rfl⟩ := hp <;> simp
  rw [mem_boundIn_comprehension_iff, renamesIn]
  rcases hslot with hslot | hslot | hslot <;> simp [hslot, @eq_comm _ source binder]

theorem renamesIn_quantified_iff {quantifier : Quantifier}
    (hp : p ∈ (quantified quantifier binder collection filter origin).parts) :
    (quantified quantifier binder collection filter origin).renamesIn source p.1 = true ↔
      source ∉ (quantified quantifier binder collection filter origin).boundIn p.1 := by
  have hslot : p.1 = .collection ∨ p.1 = .filter := by
    simp only [parts, List.mem_cons, List.mem_map] at hp
    obtain rfl | ⟨e, -, rfl⟩ := hp <;> simp
  rw [mem_boundIn_quantified_iff, renamesIn]
  rcases hslot with hslot | hslot <;>
    simp [hslot, @eq_comm _ source binder, or_iff_not_imp_left]

theorem renamesIn_reduce_iff {mapping : Expr}
    (hp : p ∈ (reduce accumulator initial binder collection mapping origin).parts) :
    (reduce accumulator initial binder collection mapping origin).renamesIn source p.1 = true ↔
      source ∉ (reduce accumulator initial binder collection mapping origin).boundIn p.1 := by
  have hslot : p.1 = .initial ∨ p.1 = .collection ∨ p.1 = .mapping := by
    simp only [parts, List.mem_cons, List.not_mem_nil, or_false] at hp
    obtain rfl | rfl | rfl := hp <;> simp
  rw [mem_boundIn_reduce_iff, renamesIn]
  rcases hslot with hslot | hslot | hslot <;>
    simp [hslot, @eq_comm _ source binder, @eq_comm _ source accumulator, and_comm]

/-- A renaming goes into the parts in which the name is not bound. -/
theorem renamesIn_iff {e : Expr} (hp : p ∈ e.parts) :
    e.renamesIn source p.1 = true ↔ source ∉ e.boundIn p.1 := by
  cases e with
  | comprehension => exact renamesIn_comprehension_iff hp
  | quantified => exact renamesIn_quantified_iff hp
  | reduce => exact renamesIn_reduce_iff hp
  | _ => exact iff_of_true rfl List.not_mem_nil

end Handlers

/-! ### Renaming and resolving by parts -/

/-- What a renaming puts in place of an expression. -/
def relabeled? (source target : String) : Expr → Option Expr
  | .label name => if name = source then some (.label target) else none
  | _ => none

/-- What is put in place of a placeholder. -/
def resolved? : Expr → Option Expr
  | .placeholder left right => some (.attr (.label left) right)
  | _ => none

theorem decides_relabeling (source target : String) :
    (Traversal.relabeling source target).Decides (renamesIn source)
      (relabeled? source target) where
  descends _ _ _ := rfl
  leave e s := by
    cases e with
    | label name =>
        by_cases hname : name = source
        · simp [Traversal.relabeling, relabeled?, hname]
          rfl
        · simp [Traversal.relabeling, relabeled?, hname]
          rfl
    | _ => rfl

theorem decides_resolving : Traversal.resolving.Decides (fun _ _ => true) resolved? where
  descends _ _ _ := rfl
  leave e _ := by
    cases e <;> rfl

variable {source target : String} {e : Expr}

theorem rename_label (source target name : String) :
    (label name).rename source target = .label (if name = source then target else name) := by
  rw [rename, traverse_of_decides (decides_relabeling source target)]
  by_cases hname : name = source <;>
    simp [relabeled?, Traversal.standing, mapParts, withChildren, hname]

theorem mapParts_ne_label (hlabel : ∀ name, e ≠ .label name) (f : Slot × Expr → Expr)
    (name : String) : e.mapParts f ≠ .label name := by
  intro heq
  have hsame := sameRoot_mapParts e f
  rw [heq] at hsame
  cases hsame
  exact hlabel name rfl

theorem mapParts_ne_placeholder (hplaceholder : ∀ left right, e ≠ .placeholder left right)
    (f : Slot × Expr → Expr) (left right : String) : e.mapParts f ≠ .placeholder left right := by
  intro heq
  have hsame := sameRoot_mapParts e f
  rw [heq] at hsame
  cases hsame
  exact hplaceholder _ _ rfl

theorem relabeled?_of_ne (hlabel : ∀ name, e ≠ .label name) :
    relabeled? source target e = none := by
  cases e with
  | label name => exact absurd rfl (hlabel name)
  | _ => rfl

/-- What is not a label is renamed in those of its parts in which it does not bind the name. -/
theorem rename_eq (hlabel : ∀ name, e ≠ .label name) :
    e.rename source target =
      e.mapParts fun p => if source ∈ e.boundIn p.1 then p.2 else p.2.rename source target := by
  rw [rename, traverse_of_decides (decides_relabeling source target), Traversal.standing,
    relabeled?_of_ne (mapParts_ne_label hlabel _), Option.getD_none]
  refine mapParts_eq_iff.2 fun p hp => ?_
  rw [if_congr (renamesIn_iff hp) rfl rfl, ite_not]
  rfl

theorem resolve_placeholder (left right : String) :
    (placeholder left right).resolve = .attr (.label left) right := rfl

/-- What is not a placeholder is resolved in its parts. -/
theorem resolve_eq (hplaceholder : ∀ left right, e ≠ .placeholder left right) :
    e.resolve = e.mapParts fun p => p.2.resolve := by
  have hnone {e : Expr} (hplaceholder : ∀ left right, e ≠ .placeholder left right) :
      resolved? e = none := by
    cases e with
    | placeholder left right => exact absurd rfl (hplaceholder left right)
    | _ => rfl
  rw [resolve, traverse_of_decides decides_resolving, Traversal.standing,
    hnone (mapParts_ne_placeholder hplaceholder _), Option.getD_none]
  rfl

/-! ### The order of renaming and resolving -/

/-- The name stands on the left of a placeholder, outside of every part in which it is bound. -/
inductive HasFreePlaceholder (name : String) : Expr → Prop
  | here (right : String) : HasFreePlaceholder name (.placeholder name right)
  | part {e : Expr} {p : Slot × Expr} (hp : p ∈ e.parts) (hfree : name ∉ e.boundIn p.1)
    (h : HasFreePlaceholder name p.2) : HasFreePlaceholder name e

theorem hasFreePlaceholder_placeholder_iff {name left right : String} :
    (placeholder left right).HasFreePlaceholder name ↔ left = name := by
  constructor
  · intro h
    cases h with
    | here => rfl
    | part hp => exact absurd hp List.not_mem_nil
  · rintro rfl
    exact .here right

theorem hasFreePlaceholder_iff {name : String}
    (hplaceholder : ∀ left right, e ≠ .placeholder left right) :
    e.HasFreePlaceholder name ↔
      ∃ p ∈ e.parts, name ∉ e.boundIn p.1 ∧ p.2.HasFreePlaceholder name := by
  constructor
  · intro h
    cases h with
    | here right => exact absurd rfl (hplaceholder name right)
    | part hp hfree h => exact ⟨_, hp, hfree, h⟩
  · rintro ⟨p, hp, hfree, h⟩
    exact .part hp hfree h

theorem SameRoot.boundIn_eq {e e' : Expr} (h : SameRoot e e') : e'.boundIn = e.boundIn := by
  funext slot
  cases h <;> cases slot <;> rfl

theorem resolve_rename_label (source target name : String) :
    ((label name).rename source target).resolve = (label name).resolve.rename source target := by
  have hlabel (name : String) : (label name).resolve = .label name := rfl
  rw [rename_label, hlabel, hlabel, rename_label]

/-- A renaming passes by a placeholder, but not by what it is resolved into. -/
theorem resolve_rename_placeholder_iff {left right : String} :
    ((placeholder left right).rename source target).resolve =
        (placeholder left right).resolve.rename source target ↔
      source = target ∨ left ≠ source := by
  have hstays : (placeholder left right).rename source target = .placeholder left right :=
    rename_eq fun _ => Expr.noConfusion
  have hattr : (attr (.label left) right).rename source target =
      .attr ((label left).rename source target) right := rename_eq fun _ => Expr.noConfusion
  rw [hstays, resolve_placeholder, hattr, rename_label]
  by_cases hleft : left = source <;> simp [hleft]

/-- What is resolved after a renaming, by parts. -/
theorem resolve_rename_eq (hlabel : ∀ name, e ≠ .label name)
    (hplaceholder : ∀ left right, e ≠ .placeholder left right) :
    (e.rename source target).resolve = e.mapParts fun p =>
      if source ∈ e.boundIn p.1 then p.2.resolve else (p.2.rename source target).resolve := by
  rw [rename_eq hlabel, resolve_eq (mapParts_ne_placeholder hplaceholder _), mapParts_mapParts]
  simp only [apply_ite resolve]

/-- What is renamed after resolving, by parts. -/
theorem rename_resolve_eq (hlabel : ∀ name, e ≠ .label name)
    (hplaceholder : ∀ left right, e ≠ .placeholder left right) :
    e.resolve.rename source target = e.mapParts fun p =>
      if source ∈ e.boundIn p.1 then p.2.resolve else p.2.resolve.rename source target := by
  rw [resolve_eq hplaceholder, rename_eq (mapParts_ne_label hlabel _), mapParts_mapParts,
    (sameRoot_mapParts e _).boundIn_eq]

/-- Renaming and resolving can be exchanged unless the name stands free on the left of a
placeholder; then it is renamed only if the placeholder is resolved first. -/
theorem resolve_rename_eq_iff (e : Expr) (source target : String) :
    (e.rename source target).resolve = e.resolve.rename source target ↔
      source = target ∨ ¬ e.HasFreePlaceholder source := by
  induction e using induction_on_children with
  | step e ih =>
    obtain ⟨name, rfl⟩ | hlabel := e.eq_label_or_ne
    · have hnone : ¬ (label name).HasFreePlaceholder source := by
        simp [hasFreePlaceholder_iff, parts]
      exact iff_of_true (resolve_rename_label source target name) (.inr hnone)
    obtain ⟨left, right, rfl⟩ | hplaceholder := e.eq_placeholder_or_ne
    · rw [resolve_rename_placeholder_iff, hasFreePlaceholder_placeholder_iff]
    · have hpart (p : Slot × Expr) (hp : p ∈ e.parts) :
          (if source ∈ e.boundIn p.1 then p.2.resolve else (p.2.rename source target).resolve) =
              (if source ∈ e.boundIn p.1 then p.2.resolve
                else p.2.resolve.rename source target) ↔
            source = target ∨ (source ∉ e.boundIn p.1 → ¬ p.2.HasFreePlaceholder source) := by
        by_cases hbound : source ∈ e.boundIn p.1
        · simp [hbound]
        · simp [hbound, ih p.2 (mem_children_of_mem_parts hp)]
      rw [resolve_rename_eq hlabel hplaceholder, rename_resolve_eq hlabel hplaceholder,
        mapParts_eq_iff, forall₂_congr hpart, hasFreePlaceholder_iff hplaceholder]
      by_cases hsame : source = target <;> simp [hsame]

/-- In `[a.b]` the name `a` is renamed to `z` after the placeholder is resolved, and not before. -/
theorem resolve_rename_ne_list :
    ((Expr.list [.placeholder "a" "b"]).rename "a" "z").resolve =
        .list [.attr (.label "a") "b"] ∧
      (Expr.list [.placeholder "a" "b"]).resolve.rename "a" "z" =
        .list [.attr (.label "z") "b"] ∧
      ((Expr.list [.placeholder "a" "b"]).rename "a" "z").resolve ≠
        (Expr.list [.placeholder "a" "b"]).resolve.rename "a" "z" := by
  have hfirst : ((Expr.list [.placeholder "a" "b"]).rename "a" "z").resolve =
      .list [.attr (.label "a") "b"] := rfl
  have hlast : (Expr.list [.placeholder "a" "b"]).resolve.rename "a" "z" =
      .list [.attr (.label "z") "b"] := rfl
  refine ⟨hfirst, hlast, ?_⟩
  rw [hfirst, hlast]
  simp

end Expr

end GraphQuery
