import GraphQuery.Expr.InnerVars
import GraphQuery.Expr.Record
import GraphQuery.Proofs.Expr.Paths
import GraphQuery.Proofs.Expr.Traverse

/-!
# Preorder

In preorder a node comes before its parts, and all of one part comes before the next part. For the
paths that lead to the nodes this is the lexicographic order, in which a path comes before those
that go on from it.

A traversal that records what it visits goes through the nodes in preorder and passes by what is
inside of a node that it skips. So does the search for the names that are bound, which keeps the
expressions it has still to look at in a list.

## Main definitions

* `Expr.reached`: the nodes that are not inside of a skipped one, with their paths, in preorder.
* `Expr.OpenAt`: no node above the end of a path is skipped.

## Main results

* `Expr.pairwise_lt_reached`, `Expr.mem_reached_iff`: what is reached, and in which order.
* `Expr.run_traverse_recording`: what a traversal records.
* `Expr.listInnerVars_eq`: what the search for bound names lists.
* `Expr.traverse_recording_exact`: recording traversals and the search agree with the paths.
-/

namespace GraphQuery

namespace Expr

variable {skips : Expr → Bool} {e n : Expr} {i : Nat} {path : List Nat}

/-! ### Skipped nodes -/

/-- No node that a path passes before its end is skipped. -/
def OpenAt (skips : Expr → Bool) (e : Expr) (path : List Nat) : Prop :=
  ∀ above n, above <+: path → above ≠ path → e.partAt? above = some n → skips n = false

theorem openAt_nil : OpenAt skips e [] := by
  rintro above n hprefix hne -
  exact absurd (List.prefix_nil.1 hprefix) hne

theorem openAt_cons {c : Expr} (hc : e.children[i]? = some c) :
    OpenAt skips e (i :: path) ↔ skips e = false ∧ OpenAt skips c path := by
  have hstep (above : List Nat) : e.partAt? (i :: above) = c.partAt? above := by
    rw [partAt?_cons, hc, Option.bind_some]
  constructor
  · intro h
    refine ⟨h [] e List.nil_prefix (List.cons_ne_nil _ _).symm rfl, ?_⟩
    intro above n hprefix hne hn
    refine h (i :: above) n (List.cons_prefix_cons.2 ⟨rfl, hprefix⟩) ?_ ((hstep above).trans hn)
    exact fun heq => hne (List.cons.inj heq).2
  · rintro ⟨hroot, hpart⟩ above n hprefix hne hn
    rcases List.prefix_cons_iff.1 hprefix with rfl | ⟨rest, rfl, hrest⟩
    · obtain rfl := Option.some.inj hn
      exact hroot
    · exact hpart rest n hrest (fun heq => hne (heq ▸ rfl)) ((hstep rest).symm.trans hn)

/-! ### What is reached -/

/-- The nodes that are reached if the parts of nodes for which `skips` holds are left out, each with
the path to it, in preorder. -/
def reached (skips : Expr → Bool) (e : Expr) : List (List Nat × Expr) :=
  ([], e) :: if skips e then [] else e.children.zipIdx.attach.flatMap fun p =>
    (reached skips p.1.1).map fun q => (p.1.2 :: q.1, q.2)
termination_by e.size
decreasing_by exact size_lt_of_mem_children (List.fst_mem_of_mem_zipIdx p.2)

theorem reached_eq (skips : Expr → Bool) (e : Expr) :
    e.reached skips = ([], e) :: if skips e then [] else
      e.children.zipIdx.flatMap fun p => (p.1.reached skips).map fun q => (p.2 :: q.1, q.2) := by
  rw [reached, List.flatMap_subtype
      (g := fun p => (p.1.reached skips).map fun q => (p.2 :: q.1, q.2)) fun _ _ => rfl,
    List.unattach_attach]

theorem mem_reached_nil : ([], n) ∈ e.reached skips ↔ n = e := by
  rw [reached_eq]
  split <;> simp

theorem mem_reached_cons :
    (i :: path, n) ∈ e.reached skips ↔
      skips e = false ∧ ∃ c, e.children[i]? = some c ∧ (path, n) ∈ c.reached skips := by
  rw [reached_eq]
  cases skips e with
  | true => simp
  | false => simp [List.mem_zipIdx_iff_getElem?, and_assoc]

/-- Reached is what stands at a path above whose end nothing is skipped. -/
theorem mem_reached_iff :
    (path, n) ∈ e.reached skips ↔ e.partAt? path = some n ∧ OpenAt skips e path := by
  induction path generalizing e with
  | nil => simp [mem_reached_nil, partAt?, openAt_nil, eq_comm]
  | cons i path ih =>
      rw [mem_reached_cons, partAt?_cons]
      cases hc : e.children[i]? with
      | none => simp
      | some c => simp [ih, openAt_cons hc, and_left_comm]

theorem map_fst_reached (skips : Expr → Bool) (e : Expr) :
    (e.reached skips).map Prod.fst = [] :: if skips e then [] else
      e.children.zipIdx.flatMap fun p => ((p.1.reached skips).map Prod.fst).map (p.2 :: ·) := by
  rw [reached_eq, List.map_cons]
  cases skips e <;> simp [List.map_flatMap, Function.comp_def]

theorem map_snd_reached (skips : Expr → Bool) (e : Expr) :
    (e.reached skips).map Prod.snd =
      e :: if skips e then [] else e.children.flatMap fun c => (c.reached skips).map Prod.snd := by
  have hparts : e.children.flatMap (fun c => (c.reached skips).map Prod.snd) =
      e.children.zipIdx.flatMap fun p => (p.1.reached skips).map Prod.snd := by
    conv_lhs => rw [← List.zipIdx_map_fst 0 e.children, List.flatMap_map]
  rw [reached_eq, List.map_cons, hparts]
  cases skips e <;> simp [List.map_flatMap, Function.comp_def]

/-- The paths to what is reached are in preorder. -/
theorem pairwise_lt_reached (skips : Expr → Bool) (e : Expr) :
    ((e.reached skips).map Prod.fst).Pairwise (· < ·) := by
  induction e using induction_on_children with
  | step e ih =>
    have hparts : (e.children.zipIdx.flatMap fun p =>
        ((p.1.reached skips).map Prod.fst).map (p.2 :: ·)).Pairwise (· < ·) := by
      refine List.pairwise_flatMap.2 ⟨fun p hp => ?_, ?_⟩
      · refine List.pairwise_map.2 ((ih p.1 (List.fst_mem_of_mem_zipIdx hp)).imp fun h => ?_)
        exact List.cons_lt_cons_iff.2 (.inr ⟨rfl, h⟩)
      · have hpositions : (e.children.zipIdx.map Prod.snd).Pairwise (· < ·) := by
          rw [List.zipIdx_map_snd]
          exact List.pairwise_lt_range' 1
        refine (List.pairwise_map.1 hpositions).imp fun hlt => ?_
        intro path hpath path' hpath'
        obtain ⟨rest, -, rfl⟩ := List.mem_map.1 hpath
        obtain ⟨rest', -, rfl⟩ := List.mem_map.1 hpath'
        exact List.cons_lt_cons_iff.2 (.inl hlt)
    rw [map_fst_reached]
    cases skips e with
    | true => exact List.pairwise_singleton _ _
    | false =>
        refine List.pairwise_cons.2 ⟨fun path hpath => ?_, hparts⟩
        obtain ⟨p, -, hpath⟩ := List.mem_flatMap.1 hpath
        obtain ⟨rest, -, rfl⟩ := List.mem_map.1 hpath
        exact List.nil_lt_cons _ _

/-- If nothing is skipped, every node is reached. -/
theorem map_snd_reached_eq_nodes (h : ∀ n ∈ e.nodes, skips n = false) :
    (e.reached skips).map Prod.snd = e.nodes := by
  induction e using induction_on_children with
  | step e ih =>
    have hparts : ∀ c ∈ e.children, (c.reached skips).map Prod.snd = c.nodes :=
      fun c hc => ih c hc fun n hn => h n (mem_nodes_iff.2 (.inr ⟨c, hc, hn⟩))
    rw [map_snd_reached, h e e.mem_nodes_self, nodes_eq, if_neg Bool.false_ne_true,
      List.flatMap_congr hparts]

/-! ### Recording -/

/-- A traversal that replaces nothing leaves an expression as it is, and records what it reaches. -/
theorem run_traverse_recording (skips : Expr → Bool) (e : Expr) (log : List Expr) :
    (e.traverse (.recording skips fun _ => none)).run log =
      ((e, false), log ++ (e.reached skips).map Prod.snd) := by
  induction e using induction_on_children generalizing log with
  | step e ih =>
    have hdescends (slot : Slot) (log : List Expr) :
        ((Traversal.recording skips fun _ => none).descends e slot).run log = (!skips e, log) := rfl
    have hparts := Traversal.run_visitParts_listing (fun c => (c, false))
      (fun c => (c.reached skips).map Prod.snd) hdescends
      (fun p hp => ih p.2 (mem_children_of_mem_parts hp)) (log ++ [e])
    simp only [ite_self] at hparts
    rw [map_snd_parts] at hparts
    have hreached : (e.reached skips).map Prod.snd = [e] ++ e.parts.flatMap fun p =>
        if !skips e then (p.2.reached skips).map Prod.snd else [] := by
      rw [map_snd_reached, ← map_snd_parts]
      cases skips e <;> simp [List.flatMap_map]
    rw [run_traverse hparts rfl, withChildren_children, hreached, List.append_assoc]
    rfl

/-! ### The search for bound names -/

/-- The search adds the names bound in the pending expressions, one expression after the other. -/
theorem collectBinders_eq (found : List String) (pending : List Expr) :
    collectBinders found pending = found ++ pending.flatMap innerVars := by
  induction found, pending using collectBinders.induct with
  | case1 found => rw [collectBinders, List.flatMap_nil, List.append_nil]
  | case2 found e pending ih =>
      rw [collectBinders, ih, List.flatMap_append, List.flatMap_cons, innerVars_eq e]
      simp only [List.append_assoc]

/-- The search lists the names that the nodes bind, in preorder. -/
theorem listInnerVars_eq (e : Expr) : e.listInnerVars = e.innerVars := by
  rw [listInnerVars, collectBinders_eq, List.nil_append, List.flatMap_singleton]

/-! ### What is recorded -/

/-- The names collected at a node: the accumulator and the variable of a reduction, and the variable
of a comprehension or of a quantified predicate unless it is empty. -/
def innerNames : Expr → List String
  | .comprehension binder .. | .quantified _ binder .. => if binder.isEmpty then [] else [binder]
  | .reduce accumulator _ binder .. => [accumulator, binder]
  | _ => []

/-- Only a comprehension with an empty variable would bind another name than is collected. -/
theorem innerNames_eq_binders (h : "" ∉ e.binders) : e.innerNames = e.binders := by
  cases e with
  | comprehension binder =>
      have hname : binder ≠ "" := fun heq => h (heq ▸ List.mem_singleton_self _)
      simp [innerNames, binders, hname]
  | _ => rfl

/-- A traversal that records each node, does not go into those for which `skips` holds and replaces
nothing leaves the expression as it is. It records, each once and in preorder, what stands at the
paths that pass no skipped node before their ends. The names collected from what it records if it
skips nothing are those that the search lists, in the same order. -/
theorem traverse_recording_exact (skips : Expr → Bool) (e : Expr) :
    (∃ recorded : List (List Nat × Expr),
      (recorded.map Prod.fst).Pairwise (· < ·) ∧
      (∀ path n, (path, n) ∈ recorded ↔ e.partAt? path = some n ∧ OpenAt skips e path) ∧
      ∀ log, (e.traverse (.recording skips fun _ => none)).run log =
        ((e, false), log ++ recorded.map Prod.snd)) ∧
    ∃ recorded, (e.traverse (.recording (fun _ => false) fun _ => none)).run [] =
        ((e, false), recorded) ∧
      recorded.flatMap binders = e.listInnerVars ∧
      ("" ∉ e.listInnerVars → recorded.flatMap innerNames = e.listInnerVars) := by
  refine ⟨⟨e.reached skips, pairwise_lt_reached skips e, fun path n => mem_reached_iff,
    run_traverse_recording skips e⟩, e.nodes, ?_, ?_, fun hnamed => ?_⟩
  · rw [run_traverse_recording, map_snd_reached_eq_nodes fun _ _ => rfl, List.nil_append]
  · exact (listInnerVars_eq e).symm
  · rw [listInnerVars_eq, innerVars] at hnamed ⊢
    exact List.flatMap_congr fun n hn =>
      innerNames_eq_binders fun hmem => hnamed (List.mem_flatMap.2 ⟨n, hn, hmem⟩)

/-- In `[exists([x IN a]), reduce(s = a, y IN b | y)]` the names `x`, `s` and `y` are collected, in
this order. -/
theorem traverse_recording_exact_nested :
    ∃ recorded,
      ((Expr.list [.existsIn (.comprehension "x" (.label "a") none none none),
        .reduce "s" (.label "a") "y" (.label "b") (.label "y") none]).traverse
          (.recording (fun _ => false) fun _ => none)).run [] =
        ((.list [.existsIn (.comprehension "x" (.label "a") none none none),
          .reduce "s" (.label "a") "y" (.label "b") (.label "y") none], false), recorded) ∧
      recorded.flatMap innerNames = ["x", "s", "y"] := by
  have hlisted : (Expr.list [.existsIn (.comprehension "x" (.label "a") none none none),
      .reduce "s" (.label "a") "y" (.label "b") (.label "y") none]).listInnerVars =
        ["x", "s", "y"] := (listInnerVars_eq _).trans rfl
  obtain ⟨-, recorded, hrun, -, hnames⟩ := traverse_recording_exact (fun _ => false)
    (.list [.existsIn (.comprehension "x" (.label "a") none none none),
      .reduce "s" (.label "a") "y" (.label "b") (.label "y") none])
  rw [hlisted] at hnames
  exact ⟨recorded, hrun, hnames (by decide)⟩

end Expr

end GraphQuery
