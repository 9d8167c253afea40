import GraphQuery.Proofs.Expr.MapNodes
import GraphQuery.Proofs.Expr.Preorder

/-!
# Simultaneous substitution

A traversal that replaces labels by expressions is a substitution: each label that is mapped becomes
its expression, wherever it stands, and everything else stays as it is. The names of binders and of
attributes and the sides of placeholders are no labels. What is put in place of a label is not
visited, so its own labels are neither recorded nor replaced, and names can be exchanged.

## Main definitions

* `Expr.label?`: the name of a label.
* `Expr.substitute`: the expression with its labels replaced by expressions.
* `Expr.UnmappedAt`: no label that is replaced stands at the end of a path or above it.

## Main results

* `Expr.run_traverse_substituting`: the result and the names that are recorded.
* `Expr.partAt?_substitute_of_label`, `Expr.bare_partAt?_substitute`: what stands at each path.
* `Expr.traverse_substituting_exact`: what a substitution does and what it leaves alone.
-/

namespace GraphQuery

namespace Expr

/-- The name of a label. -/
def label? : Expr → Option String
  | .label name => some name
  | _ => none

/-- The expression to which the name of a label is mapped; anything else as it is. -/
def substituted (substitution : String → Option Expr) : Expr → Expr
  | .label name => (substitution name).getD (.label name)
  | e => e

/-- The expression with every label that is mapped replaced by the expression for it. -/
def substitute (substitution : String → Option Expr) (e : Expr) : Expr :=
  e.mapNodes (substituted substitution)

variable {substitution : String → Option Expr} {e c r : Expr} {name : String} {i : Nat}
  {path : List Nat}

theorem label?_eq_some_iff : e.label? = some name ↔ e = .label name := by
  cases e <;> simp [label?]

theorem SameRoot.label?_eq {e e' : Expr} (h : SameRoot e e') : e'.label? = e.label? := by
  cases h <;> rfl

/-- A label has no parts. -/
theorem label?_of_getElem?_children (hc : e.children[i]? = some c) : e.label? = none := by
  cases e with
  | label => exact absurd (List.mem_of_getElem? hc) List.not_mem_nil
  | _ => rfl

theorem substituted_eq (substitution : String → Option Expr) (e : Expr) :
    e.substituted substitution = (e.label?.bind substitution).getD e := by
  cases e <;> rfl

/-! ### By parts -/

/-- What becomes of an expression: the expression for it, if it is a label that is mapped, and
otherwise its root with its parts substituted. -/
theorem substitute_eq (substitution : String → Option Expr) (e : Expr) :
    e.substitute substitution =
      (e.label?.bind substitution).getD
        (e.withChildren (e.children.map (substitute substitution))) := by
  have hroot := (withChildren_map_spec e (substitute substitution)).2.label?_eq
  rw [substitute, mapNodes_eq, substituted_eq]
  exact congrArg (fun name => (Option.bind name substitution).getD _) hroot

theorem substitute_of_unmapped (h : e.label?.bind substitution = none) :
    e.substitute substitution = e.mapParts fun p => p.2.substitute substitution := by
  rw [substitute_eq, h, Option.getD_none, mapParts, ← map_snd_parts, List.map_map]
  rfl

theorem partAt?_substitute_cons (h : e.label?.bind substitution = none) (i : Nat)
    (path : List Nat) :
    (e.substitute substitution).partAt? (i :: path) =
      e.children[i]?.bind fun c => (c.substitute substitution).partAt? path := by
  rw [substitute_eq, h, Option.getD_none, partAt?_cons,
    (withChildren_map_spec e (substitute substitution)).1, List.getElem?_map]
  cases e.children[i]? <;> rfl

/-! ### The traversal -/

/-- The names of the labels in an expression: its own and those in the direct parts. -/
theorem filterMap_label?_nodes (e : Expr) :
    e.nodes.filterMap label? =
      e.label?.toList ++ e.children.flatMap fun c => c.nodes.filterMap label? := by
  rw [nodes_eq, List.filterMap_cons, List.filterMap_flatMap]
  cases e.label? <;> rfl

/-- What is done at a node before its parts are visited. -/
theorem run_enter_substituting (substitution : String → Option Expr) (e : Expr)
    (log : List String) :
    ((Traversal.substituting substitution).enter e).run log = ((), log ++ e.label?.toList) := by
  cases e with
  | label => rfl
  | _ => exact congrArg (Prod.mk ()) (List.append_nil log).symm

/-- What is done at a node once its parts are visited. -/
theorem run_leave_substituting (substitution : String → Option Expr) (e : Expr)
    (log : List String) :
    ((Traversal.substituting substitution).leave e).run log =
      (e.label?.bind substitution, log) := by
  cases e <;> rfl

/-- The traversal substitutes and records the names of all labels, in preorder; the flag tells
whether the root was a label that is mapped. -/
theorem run_traverse_substituting (substitution : String → Option Expr) (e : Expr)
    (log : List String) :
    (e.traverse (.substituting substitution)).run log =
      ((e.substitute substitution, (e.label?.bind substitution).isSome),
        log ++ e.nodes.filterMap label?) := by
  induction e using induction_on_children generalizing log with
  | step e ih =>
    have hparts : ((Traversal.substituting substitution).visitParts e e.parts).run
        (((Traversal.substituting substitution).enter e).run log).2 =
          (e.children.map (substitute substitution),
            log ++ e.label?.toList ++ e.children.flatMap fun c => c.nodes.filterMap label?) := by
      rw [run_enter_substituting, ← map_snd_parts, List.map_map, List.flatMap_map]
      exact Traversal.run_visitParts_listing
        (fun c => (c.substitute substitution, (c.label?.bind substitution).isSome))
        (fun c => c.nodes.filterMap label?) (fun _ _ => rfl)
        (fun p hp => ih p.2 (mem_children_of_mem_parts hp)) (log ++ e.label?.toList)
    have hroot := (withChildren_map_spec e (substitute substitution)).2.label?_eq
    rw [run_traverse hparts (run_leave_substituting _ _ _), hroot, substitute_eq,
      filterMap_label?_nodes, List.append_assoc]

/-! ### By paths -/

/-- Where a label stood that is mapped, the expression for it stands. -/
theorem partAt?_substitute_of_label (hlabel : e.partAt? path = some (.label name))
    (hmapped : substitution name = some r) :
    (e.substitute substitution).partAt? path = some r := by
  induction path generalizing e with
  | nil =>
      obtain rfl := Option.some.inj hlabel
      rw [substitute_eq, label?, Option.bind_some, hmapped]
      rfl
  | cons i path ih =>
      rw [partAt?_cons] at hlabel
      obtain ⟨c, hc, hlabel⟩ := Option.bind_eq_some_iff.1 hlabel
      have hroot : e.label?.bind substitution = none := by
        rw [label?_of_getElem?_children hc, Option.bind_none]
      rw [partAt?_substitute_cons hroot, hc, Option.bind_some, ih hlabel]

/-- No label that is mapped stands at the end of a path or above it. -/
def UnmappedAt (substitution : String → Option Expr) (e : Expr) (path : List Nat) : Prop :=
  ∀ above name, above <+: path → e.partAt? above = some (.label name) → substitution name = none

theorem UnmappedAt.root (h : UnmappedAt substitution e path) :
    e.label?.bind substitution = none := by
  refine Option.bind_eq_none_iff.2 fun name hname => ?_
  exact h [] name List.nil_prefix (congrArg some (label?_eq_some_iff.1 hname))

theorem UnmappedAt.part (h : UnmappedAt substitution e (i :: path))
    (hc : e.children[i]? = some c) : UnmappedAt substitution c path := by
  intro above name hprefix hlabel
  refine h (i :: above) name (List.cons_prefix_cons.2 ⟨rfl, hprefix⟩) ?_
  rw [partAt?_cons, hc, Option.bind_some, hlabel]

/-- Elsewhere there stands what stood there before. -/
theorem bare_partAt?_substitute (h : UnmappedAt substitution e path) :
    ((e.substitute substitution).partAt? path).map bare = (e.partAt? path).map bare := by
  induction path generalizing e with
  | nil =>
      rw [substitute_of_unmapped h.root, partAt?, Option.map_some, bare_mapParts]
      rfl
  | cons i path ih =>
      rw [partAt?_substitute_cons h.root, partAt?_cons]
      cases hc : e.children[i]? with
      | none => rfl
      | some c => exact ih (h.part hc)

/-! ### What is recorded -/

/-- The labels in an expression, by their paths and names, in preorder. -/
def labels (e : Expr) : List (List Nat × String) :=
  (e.reached fun _ => false).filterMap fun p => p.2.label?.map (p.1, ·)

theorem map_snd_labels (e : Expr) : e.labels.map Prod.snd = e.nodes.filterMap label? := by
  rw [labels, List.map_filterMap, ← map_snd_reached_eq_nodes fun _ _ => rfl, List.filterMap_map]
  refine List.filterMap_congr fun p _ => ?_
  rw [Option.map_map]
  exact congrFun Option.map_id p.2.label?

theorem pairwise_lt_labels (e : Expr) : (e.labels.map Prod.fst).Pairwise (· < ·) := by
  refine List.pairwise_map.2 ((List.pairwise_map.1 (e.pairwise_lt_reached _)).filterMap _ ?_)
  intro p q hlt l hl m hm
  obtain ⟨_, -, rfl⟩ := Option.map_eq_some_iff.1 hl
  obtain ⟨_, -, rfl⟩ := Option.map_eq_some_iff.1 hm
  exact hlt

theorem mem_labels_iff : (path, name) ∈ e.labels ↔ e.partAt? path = some (.label name) := by
  rw [labels, List.mem_filterMap]
  constructor
  · rintro ⟨p, hp, hname⟩
    obtain ⟨name', hname', heq⟩ := Option.map_eq_some_iff.1 hname
    obtain ⟨rfl, rfl⟩ := Prod.mk.inj heq
    rw [← label?_eq_some_iff.1 hname']
    exact (mem_reached_iff.1 hp).1
  · intro h
    exact ⟨(path, .label name), mem_reached_iff.2 ⟨h, fun _ _ _ _ _ => rfl⟩, rfl⟩

/-! ### What a substitution does -/

/-- A substitution records the names of all labels, each once and in preorder. In place of each
label that is mapped it puts the expression for it, and leaves alone what stands at every other path
outside of these expressions. Its flag tells whether the root was a label that is mapped. -/
theorem traverse_substituting_exact (substitution : String → Option Expr) (e : Expr) :
    ∃ replaced, ∃ labels : List (List Nat × String),
      (∀ log, (e.traverse (.substituting substitution)).run log =
        ((e.substitute substitution, replaced), log ++ labels.map Prod.snd)) ∧
      (labels.map Prod.fst).Pairwise (· < ·) ∧
      (∀ path name, (path, name) ∈ labels ↔ e.partAt? path = some (.label name)) ∧
      (∀ path name r, e.partAt? path = some (.label name) → substitution name = some r →
        (e.substitute substitution).partAt? path = some r) ∧
      (∀ path, UnmappedAt substitution e path →
        ((e.substitute substitution).partAt? path).map bare = (e.partAt? path).map bare) ∧
      (replaced = true ↔ ∃ name r, e = .label name ∧ substitution name = some r) := by
  refine ⟨(e.label?.bind substitution).isSome, e.labels, fun log => ?_, e.pairwise_lt_labels,
    fun path name => mem_labels_iff, fun path name r => partAt?_substitute_of_label,
    fun path => bare_partAt?_substitute, ?_⟩
  · rw [run_traverse_substituting, map_snd_labels]
  · simp only [Option.isSome_iff_exists, Option.bind_eq_some_iff, label?_eq_some_iff]
    exact exists_comm

/-- In `[a, any(a IN b WHERE a)]` the labels `a` and `b` are exchanged, and the variable keeps its
name. -/
example :
    ((Expr.list [.label "a", .quantified .any "a" (.label "b") (some (.label "a")) none]).traverse
        (.substituting fun name =>
          if name = "a" then some (.label "b")
          else if name = "b" then some (.label "a") else none)).run [] =
      ((.list [.label "b", .quantified .any "a" (.label "a") (some (.label "b")) none], false),
        ["a", "b", "a"]) :=
  rfl

end Expr

end GraphQuery
