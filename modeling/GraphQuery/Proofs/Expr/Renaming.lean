import GraphQuery.Proofs.Expr.Edits
import GraphQuery.Proofs.Expr.Rewriting
import GraphQuery.Proofs.Expr.Scoping

/-!
# Renaming preserves outcomes

An expression in which a name is renamed has the outcome of the expression before, if the new name
stands for what the old one stood for and is bound nowhere in the expression, where it would be
captured. A name without a value is then reported under its new name. The new name need not be
unused: where it is free it keeps its value, so it stood for what the old one stood for before.

What a renaming visits has to be what evaluation looks up outside. So the two meet at the lookup of
each part: in a part in which the old name is bound it is not looked up outside, and in any other
part the lookup is renamed just as it is around the node.

## Main definitions

* `EvalError.renamed`: an error with the name that has no value renamed.
* `Expr.SafeRenaming`: no binder captures the new name, and one lookup becomes the other.

## Main results

* `Expr.SafeRenaming.inside`: a safe renaming is safe in the parts in which the name is not bound.
* `Expr.eval_rename`: the outcome of an expression in which a name is renamed.
-/

namespace GraphQuery

/-- The error with the name that has no value renamed. -/
def EvalError.renamed (source target : String) (err : EvalError) : EvalError :=
  if err = .unbound source then .unbound target else err

theorem rewordsUnbound_renamed (source target : String) :
    RewordsUnbound (EvalError.renamed source target) :=
  fun _ h => if_neg (h source)

namespace Expr

/-! ### Names bound in parts -/

theorem boundIn_subset_binders (e : Expr) (slot : Slot) : e.boundIn slot ⊆ e.binders := by
  cases e <;> cases slot <;> simp [boundIn]

theorem mem_innerVars_iff {e : Expr} {name : String} :
    name ∈ e.innerVars ↔ name ∈ e.binders ∨ ∃ c ∈ e.children, name ∈ c.innerVars := by
  rw [innerVars_eq, List.mem_append, List.mem_flatMap]

variable {owner : Expr} {slot : Slot} {lookup lookup' : Lookup} {acc item : Value} {name : String}

/-- A name that a node binds in a slot has a value there. -/
theorem lookupIn_ne_none (h : name ∈ owner.boundIn slot) :
    owner.lookupIn slot lookup acc item name ≠ none := by
  intro hnone
  cases owner with
  | comprehension =>
      cases slot with
      | filter | mapping => exact (bind_eq_none hnone).1 (List.mem_singleton.1 h)
      | _ => exact List.not_mem_nil h
  | quantified quantifier binder =>
      cases slot with
      | filter => exact (bind_eq_none hnone).1 (mem_boundIn_quantified_iff.1 h).1.2
      | _ => exact List.not_mem_nil h
  | reduce =>
      cases slot with
      | mapping =>
          obtain ⟨hbinder, hnone⟩ := bind_eq_none hnone
          obtain ⟨haccumulator, -⟩ := bind_eq_none hnone
          exact (mem_boundIn_reduce_iff.1 h).1.elim haccumulator hbinder
      | _ => exact List.not_mem_nil h
  | _ => cases slot <;> exact List.not_mem_nil h

theorem bind_of_ne {binder : String} (h : name ≠ binder) :
    lookup.bind binder item name = lookup name := if_neg h

/-- A name that a node does not bind in a slot has there the value that it has outside, if the node
evaluates the slot at all. -/
theorem lookupIn_of_not_mem (hnames : owner.NamesElements) (heval : owner.Evaluates slot)
    (h : name ∉ owner.boundIn slot) : owner.lookupIn slot lookup acc item name = lookup name := by
  cases owner with
  | comprehension =>
      cases slot with
      | filter | mapping => exact bind_of_ne fun heq => h (List.mem_singleton.2 heq)
      | _ => rfl
  | quantified quantifier binder =>
      cases slot with
      | filter =>
          have hbinder : binder ≠ "" := hnames heval
          exact bind_of_ne fun heq => h (mem_boundIn_quantified_iff.2 ⟨⟨hbinder, heq⟩, rfl⟩)
      | _ => rfl
  | reduce accumulator _ binder =>
      cases slot with
      | mapping =>
          have hne : name ≠ accumulator ∧ name ≠ binder := by simpa using h
          exact (bind_of_ne hne.2).trans (bind_of_ne hne.1)
      | _ => rfl
  | _ => cases slot <;> rfl

/-! ### Safe renamings -/

/-- No binder captures the new name, and the renaming turns the first lookup into the second: the
new name stands for what the old one stood for, and the other free names stand for the same. -/
structure SafeRenaming (source target : String) (lookup lookup' : Lookup) (e : Expr) : Prop where
  not_bound : target ∉ e.innerVars
  renamed : lookup' target = lookup source
  kept : ∀ name ∈ e.freeNames, name ≠ source → lookup' name = lookup name

variable {source target : String} {e : Expr} {p : Slot × Expr}

/-- In a part in which the name is not bound the renaming is as safe as it is outside. -/
theorem SafeRenaming.inside (h : SafeRenaming source target lookup lookup' e)
    (hnames : e.NamesElements) (hlabel : ∀ name, e ≠ .label name) (hp : p ∈ e.parts)
    (heval : e.Evaluates p.1) (hsource : source ∉ e.boundIn p.1) (acc item : Value) :
    SafeRenaming source target (e.lookupIn p.1 lookup acc item) (e.lookupIn p.1 lookup' acc item)
      p.2 := by
  have htarget : target ∉ e.boundIn p.1 := fun hbound =>
    h.not_bound (mem_innerVars_iff.2 (.inl (boundIn_subset_binders e p.1 hbound)))
  have hfree {name : String} (hname : name ∈ p.2.freeNames) (hbound : name ∉ e.boundIn p.1) :
      name ∈ e.freeNames := (mem_freeNames_iff hlabel).2 ⟨p, hp, hname, hbound⟩
  constructor
  · exact fun hname =>
      h.not_bound (mem_innerVars_iff.2 (.inr ⟨p.2, mem_children_of_mem_parts hp, hname⟩))
  · rw [lookupIn_of_not_mem hnames heval htarget, lookupIn_of_not_mem hnames heval hsource]
    exact h.renamed
  · exact fun name hname hne => lookupIn_congr fun hbound => h.kept name (hfree hname hbound) hne

/-- In a part in which the name is bound the outcome is the same without renaming, and it is not
that the name has no value. -/
theorem SafeRenaming.eval_bound (h : SafeRenaming source target lookup lookup' e)
    (hlabel : ∀ name, e ≠ .label name) (hp : p ∈ e.parts) (hsource : source ∈ e.boundIn p.1)
    (acc item : Value) :
    (p.2.eval (e.lookupIn p.1 lookup acc item)).mapError (EvalError.renamed source target) =
      p.2.eval (e.lookupIn p.1 lookup' acc item) := by
  have hsame : p.2.eval (e.lookupIn p.1 lookup' acc item) =
      p.2.eval (e.lookupIn p.1 lookup acc item) := by
    refine eval_congr fun name hname => lookupIn_congr fun hbound => ?_
    have hfree := (mem_freeNames_iff hlabel).2 ⟨p, hp, hname, hbound⟩
    exact h.kept name hfree fun heq => hbound (heq ▸ hsource)
  rw [hsame]
  refine mapError_eq_self fun err herr => if_neg ?_
  rintro rfl
  exact lookupIn_ne_none hsource (blamedOn_of_eval_eq_error herr).2

theorem SafeRenaming.eval_label (h : SafeRenaming source target lookup lookup' (.label name)) :
    ((label name).rename source target).eval lookup' =
      ((label name).eval lookup).mapError (EvalError.renamed source target) := by
  rw [rename_label]
  by_cases hname : name = source
  · rw [if_pos hname, hname, eval, eval, h.renamed]
    cases lookup source <;> simp [Except.mapError, EvalError.renamed]
  · rw [if_neg hname, eval, eval, h.kept name (List.mem_singleton_self name) hname]
    cases lookup name <;> simp [Except.mapError, EvalError.renamed, hname]

/-- An expression in which a name is safely renamed has the outcome of the expression before, with
the name that has no value renamed in the error. That predicates have names for the elements that
they test holds of whatever construction, decoding, edits and traversals lead to. -/
theorem eval_rename (hnames : e.Every NamesElements)
    (h : SafeRenaming source target lookup lookup' e) :
    (e.rename source target).eval lookup' =
      (e.eval lookup).mapError (EvalError.renamed source target) := by
  induction e using induction_on_children generalizing lookup lookup' with
  | step e ih =>
    obtain ⟨name, rfl⟩ | hlabel := e.eq_label_or_ne
    · exact h.eval_label
    · rw [rename_eq hlabel, mapParts]
      refine (eval_withChildren (rewordsUnbound_renamed source target) hlabel ?_).symm
      rw [List.forall₂_map_right_iff, List.forall₂_same]
      intro p hp heval acc item
      -- a part is renamed just if the name is not bound in it, that is, if it is looked up outside
      have hmem := mem_children_of_mem_parts hp
      by_cases hbound : source ∈ e.boundIn p.1
      · rw [if_pos hbound]
        exact h.eval_bound hlabel hp hbound acc item
      · rw [if_neg hbound]
        have hinside := h.inside hnames.root hlabel hp heval hbound acc item
        exact (ih p.2 hmem (hnames.of_mem_children hmem) hinside).symm

/-- In `[any(y IN k WHERE y=k), [k IN k | k]]` the name `k` is renamed to `z`, but for the mapping
in which it is bound. -/
theorem eval_rename_shadowed :
    (Expr.list [.quantified .any "y" (.label "z")
            (some (.relational .eq (.label "y") (.label "z"))) none,
          .comprehension "k" (.label "z") none (some (.label "k")) none]).eval
        (Bindings.empty.set "z" (.list [.int 1])).lookup =
      ((Expr.list [.quantified .any "y" (.label "k")
            (some (.relational .eq (.label "y") (.label "k"))) none,
          .comprehension "k" (.label "k") none (some (.label "k")) none]).eval
        (Bindings.empty.set "k" (.list [.int 1])).lookup).mapError
          (EvalError.renamed "k" "z") := by
  have hnames : (Expr.list [.quantified .any "y" (.label "k")
        (some (.relational .eq (.label "y") (.label "k"))) none,
      .comprehension "k" (.label "k") none (some (.label "k")) none]).Every NamesElements := by
    simp [NamesElements]
  have hsafe : SafeRenaming "k" "z" (Bindings.empty.set "k" (.list [.int 1])).lookup
      (Bindings.empty.set "z" (.list [.int 1])).lookup
      (.list [.quantified .any "y" (.label "k")
          (some (.relational .eq (.label "y") (.label "k"))) none,
        .comprehension "k" (.label "k") none (some (.label "k")) none]) := by
    refine ⟨by decide, rfl, fun name hname hne => absurd ?_ hne⟩
    simpa [freeNames, freeNamesAll, freeNamesPart, freeOutside, boundIn, binders] using hname
  exact eval_rename hnames hsafe

end Expr

end GraphQuery
