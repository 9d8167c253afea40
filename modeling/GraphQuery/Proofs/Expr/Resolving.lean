import Mathlib.Algebra.GroupWithZero.Nat
import GraphQuery.Expr.Resolve
import GraphQuery.Proofs.Expr.MapNodes
import GraphQuery.Proofs.Expr.Traverse

/-!
# Resolving every placeholder

The traversal that resolves placeholders reaches every node once: it makes of an expression what
comes of turning each placeholder into an attribute, wherever it stands, and its state counts them.
The text does not show it, as a placeholder and its attribute are written alike, and there is
nothing left to resolve.

## Main definitions

* `Expr.expanded`: a placeholder as an attribute.

## Main results

* `Expr.run_traverse_resolving`: the result and the count, from any count on.
* `Expr.isResolved_mapNodes_expanded`: no placeholder is left.
* `Expr.traverse_resolving_exact`: what resolving does and what it leaves alone.
-/

namespace GraphQuery

namespace Expr

/-- A placeholder as the attribute of a label; anything else as it is. -/
def expanded : Expr → Expr
  | .placeholder left right => .attr (.label left) right
  | e => e

theorem expanded_of_not_isPlaceholder {e : Expr} (h : e.isPlaceholder = false) :
    e.expanded = e := by
  cases e with
  | placeholder => exact Bool.noConfusion h
  | _ => rfl

/-- A placeholder is written like its attribute. -/
theorem text_expanded (e : Expr) : e.expanded.text = e.text := by cases e <;> rfl

theorem SameRoot.isPlaceholder_eq {e e' : Expr} (h : SameRoot e e') :
    e'.isPlaceholder = e.isPlaceholder := by
  cases h <;> rfl

/-- How many placeholders there are at the root and in the direct parts. -/
theorem countP_nodes (p : Expr → Bool) (e : Expr) :
    e.nodes.countP p = (e.children.map fun c => c.nodes.countP p).sum + if p e then 1 else 0 := by
  rw [nodes_eq, List.countP_cons, List.countP_flatMap]
  rfl

/-! ### The traversal -/

/-- What is done at a node once its parts are resolved. -/
theorem run_leave_resolving (e : Expr) (n : Nat) :
    (Traversal.resolving.leave e).run n =
      (if e.isPlaceholder then some e.expanded else none,
        n + if e.isPlaceholder then 1 else 0) := by
  cases e <;> rfl

/-- A traversal of parts each of which is resolved and counted resolves and counts them all. -/
theorem run_visitParts_resolving (owner : Expr) {parts : List (Slot × Expr)}
    (h : ∀ p ∈ parts, ∀ n, (p.2.traverse .resolving).run n =
      ((p.2.mapNodes expanded, p.2.isPlaceholder), n + p.2.nodes.countP isPlaceholder)) (n : Nat) :
    (Traversal.resolving.visitParts owner parts).run n =
      ((parts.map Prod.snd).map (mapNodes expanded),
        n + ((parts.map Prod.snd).map fun e => e.nodes.countP isPlaceholder).sum) := by
  have hdescends (slot : Slot) (n : Nat) :
      (Traversal.resolving.descends owner slot).run n = (true, n) := rfl
  have hcount := Traversal.run_visitParts_counting
    (fun e => (e.mapNodes expanded, e.isPlaceholder)) (fun e => e.nodes.countP isPlaceholder)
    hdescends h n
  simpa only [if_true, List.map_map, Function.comp_def] using hcount

/-- Resolving turns every placeholder into an attribute and counts them; the flag tells whether the
root was one. -/
theorem run_traverse_resolving (e : Expr) (n : Nat) :
    (e.traverse .resolving).run n =
      ((e.mapNodes expanded, e.isPlaceholder), n + e.nodes.countP isPlaceholder) := by
  induction e using induction_on_children generalizing n with
  | step e ih =>
    have hparts := run_visitParts_resolving e
      (fun p hp => ih p.2 (mem_children_of_mem_parts hp)) n
    rw [map_snd_parts] at hparts
    have hroot := (withChildren_map_spec e (mapNodes expanded)).2.isPlaceholder_eq
    have hleave := run_leave_resolving (e.withChildren (e.children.map (mapNodes expanded)))
      (n + (e.children.map fun c => c.nodes.countP isPlaceholder).sum)
    rw [hroot] at hleave
    rw [run_traverse hparts hleave, mapNodes_eq, countP_nodes, ← Nat.add_assoc]
    cases hplaceholder : e.isPlaceholder with
    | true => rfl
    | false =>
        rw [expanded_of_not_isPlaceholder (hroot.trans hplaceholder)]
        rfl

/-! ### What is left -/

theorem isPlaceholder_expanded (e : Expr) : e.expanded.isPlaceholder = false := by
  cases e <;> rfl

/-- What stands in place of a placeholder has no placeholder inside. -/
theorem every_children_expanded {P : Expr → Prop} {e : Expr} (hlabel : ∀ name, P (.label name))
    (h : ∀ c ∈ e.children, c.Every P) : ∀ c ∈ e.expanded.children, c.Every P := by
  cases e with
  | placeholder left right =>
      intro c hc
      obtain rfl := List.mem_singleton.1 hc
      exact every_label.2 (hlabel left)
  | _ => exact h

/-- No placeholder is left once all are expanded. -/
theorem isResolved_mapNodes_expanded (e : Expr) : (e.mapNodes expanded).isResolved = true := by
  rw [isResolved_iff]
  induction e using induction_on_children with
  | step e ih =>
    rw [mapNodes_eq, every_iff]
    refine ⟨isPlaceholder_expanded _, every_children_expanded (fun _ => rfl) fun c hc => ?_⟩
    rw [(withChildren_map_spec e (mapNodes expanded)).1] at hc
    obtain ⟨d, hd, rfl⟩ := List.mem_map.1 hc
    exact ih d hd

/-- Where no placeholder is left, resolving changes and counts nothing. -/
theorem run_traverse_resolving_of_isResolved {e : Expr} (h : e.isResolved = true) (n : Nat) :
    (e.traverse .resolving).run n = ((e, false), n) := by
  rw [isResolved_iff] at h
  have hsame : e.mapNodes expanded = e :=
    mapNodes_eq_self fun m hm => expanded_of_not_isPlaceholder (h m hm)
  have hnone : e.nodes.countP isPlaceholder = 0 :=
    List.countP_eq_zero.2 fun m hm => by simp [h m hm]
  rw [run_traverse_resolving, hsame, h.root, hnone, Nat.add_zero]

/-! ### Checking for placeholders -/

/-- The search through pending expressions comes past every node of every one of them. -/
theorem checkPending_eq (pending : List Expr) :
    checkPending pending =
      if pending.all isResolved then .ok () else .error "LabelAttribute" := by
  induction pending using checkPending.induct with
  | case1 => rw [checkPending, List.all_nil, if_pos rfl]
  | case2 e pending hplaceholder =>
      have hroot : e.isResolved = false := by
        rw [isResolved, nodes_eq, List.all_cons, hplaceholder, Bool.not_true, Bool.false_and]
      have hname : e.formName = "LabelAttribute" := by
        cases e with
        | placeholder => rfl
        | _ => exact Bool.noConfusion hplaceholder
      rw [checkPending, if_pos hplaceholder, hname, List.all_cons, hroot, Bool.false_and,
        if_neg Bool.false_ne_true]
  | case3 e pending hplaceholder ih =>
      have hroot : e.isPlaceholder = false := Bool.eq_false_iff.2 hplaceholder
      have hparts : e.children.all isResolved = e.isResolved := by
        rw [isResolved, nodes_eq, List.all_cons, List.all_flatMap, hroot]
        rfl
      rw [checkPending, if_neg hplaceholder, ih, List.all_append, List.all_reverse, hparts,
        List.all_cons]

/-- The check complains exactly about the expressions in which a placeholder is left. -/
theorem checkResolved_eq (e : Expr) :
    e.checkResolved = if e.isResolved then .ok () else .error "LabelAttribute" := by
  rw [checkResolved, checkPending_eq, List.all_cons, List.all_nil, Bool.and_true]

theorem checkResolved_eq_ok_iff {e : Expr} : e.checkResolved = .ok () ↔ e.isResolved = true := by
  rw [checkResolved_eq]
  split <;> simp [*]

/-! ### What resolving does -/

/-- Resolving replaces every placeholder by the attribute of a label, wherever it stands, and
nothing else. It counts them, and its flag tells whether the root was one. No placeholder is left,
the text is what it was, and resolving once more changes and counts nothing. -/
theorem traverse_resolving_exact (e : Expr) :
    (e.traverse .resolving).run 0 =
        ((e.mapNodes expanded, e.isPlaceholder), e.nodes.countP isPlaceholder) ∧
      e.resolve = e.mapNodes expanded ∧ e.resolve.isResolved = true ∧ e.resolve.text = e.text ∧
      (e.resolve.traverse .resolving).run 0 = ((e.resolve, false), 0) := by
  have hrun : (e.traverse .resolving).run 0 =
      ((e.mapNodes expanded, e.isPlaceholder), e.nodes.countP isPlaceholder) := by
    rw [run_traverse_resolving, Nat.zero_add]
  have hresolve : e.resolve = e.mapNodes expanded := by rw [resolve, hrun]
  have hresolved : e.resolve.isResolved = true := hresolve ▸ isResolved_mapNodes_expanded e
  have htext : e.resolve.text = e.text := hresolve ▸ text_mapNodes text_expanded e
  exact ⟨hrun, hresolve, hresolved, htext, run_traverse_resolving_of_isResolved hresolved 0⟩

end Expr

end GraphQuery
